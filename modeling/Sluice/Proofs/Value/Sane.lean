import Mathlib.Data.List.Basic
import Mathlib.Tactic.SplitIfs
import Sluice.Host
import Sluice.Pattern.Match
import Sluice.Proofs.Parts
import Sluice.Value.Construct
import Sluice.Value.Operators
import Sluice.Value.Path

/-! What operations make of values that are sane throughout. `Local` says of one value, apart from its
parts, that its function is one of `Q` and, if asked for, that it has no repeated element, key or field;
whatever operators, paths, patterns and constructors make of values of which this holds throughout, it
holds throughout of that. -/
namespace Sluice

/-- A result with `P`, or a fault that has nothing to do with constants. -/
def Gives {α : Type} (P : α → Prop) : Except Fault α → Prop
  | .ok a => P a
  | .error f => f.kind ≠ .constReassignment

namespace Gives

variable {α β : Type} {P : α → Prop} {R : β → Prop} {x : Except Fault α} {f : α → Except Fault β}

theorem bind (hx : Gives P x) (hf : ∀ a, P a → Gives R (f a)) : Gives R (x >>= f) := by
  cases x with
  | ok a => exact hf a hx
  | error e => exact hx

end Gives

namespace Value

/-- In a tuple there is not just one element, in a set no earlier element equals a later one, in a map
no earlier key equals a later one, and no two fields of a struct have one name. -/
def Regular : Value → Prop
  | tuple vs => vs.length ≠ 1
  | set vs => vs.Pairwise fun a b => beq a b = false
  | map es => es.Pairwise fun a b => beq a.1 b.1 = false
  | struct _ fs => (fs.map (·.1)).Nodup
  | _ => True

/-- A function is one of `Q`, and if `proper`, then values are regular and struct constructors make
regular values. -/
def Local (proper : Prop) (Q : Closure → Prop) : Value → Prop
  | fn c => Q c
  | constructor (.struct _ fields) => proper → fields.Nodup
  | v => proper → v.Regular

def Sane (proper : Prop) (Q : Closure → Prop) : Value → Prop := Every children (Local proper Q)

section Sane

variable {proper : Prop} {Q Q' : Closure → Prop} {u v : Value} {vs : List Value}
  {es : List (Value × Value)} {fs : List (String × Value)}

theorem Sane.mono (h : ∀ c, Q c → Q' c) (hv : v.Sane proper Q) : v.Sane proper Q' := by
  refine Every.mono (fun u hu => ?_) hv
  unfold Local at hu ⊢
  split <;> simp_all

theorem Sane.child (hv : v.Sane proper Q) (hu : u ∈ v.children) : u.Sane proper Q := Every.part hv hu

theorem Sane.closure (hv : v.Sane proper Q) {c : Closure} (hc : c ∈ v.closures) : Q c := by
  unfold Sane at hv
  induction hv with
  | @mk v hv _ ih =>
    rcases mem_closures hc with rfl | ⟨u, hu, hc⟩
    · exact hv
    · exact ih u hu hc

theorem Sane.regular (hp : proper) (hv : v.Sane proper Q) : Every children Regular v := by
  refine Every.mono (fun u hu => ?_) hv
  unfold Local at hu
  split at hu
  · trivial
  · trivial
  · exact hu hp

/-! ### Kinds of values -/

/-- A value without parts that is no function and no struct constructor. -/
theorem sane_atom (hchildren : v.children = []) (hlocal : Local proper Q v) : v.Sane proper Q :=
  .mk hlocal (by simp [hchildren])

theorem sane_list : (list vs).Sane proper Q ↔ ∀ v ∈ vs, v.Sane proper Q :=
  ⟨fun h _ hv => h.child hv, fun h => .mk (fun _ => trivial) h⟩

theorem sane_tuple (hlen : proper → vs.length ≠ 1) (h : ∀ v ∈ vs, v.Sane proper Q) :
    (tuple vs).Sane proper Q := .mk hlen h

theorem sane_just : (just v).Sane proper Q ↔ v.Sane proper Q :=
  ⟨fun h => h.child (by simp [children]),
    fun h => .mk (fun _ => trivial) (List.forall_mem_singleton.2 h)⟩

theorem sane_map (hkeys : proper → es.Pairwise fun a b => beq a.1 b.1 = false)
    (h : ∀ e ∈ es, e.1.Sane proper Q ∧ e.2.Sane proper Q) : (map es).Sane proper Q :=
  .mk hkeys (forall_mem_children_map.2 h)

theorem Sane.entry (h : (map es).Sane proper Q) {e : Value × Value} (he : e ∈ es) :
    e.1.Sane proper Q ∧ e.2.Sane proper Q :=
  ⟨h.child (mem_children_map he).1, h.child (mem_children_map he).2⟩

theorem sane_struct {name : String} (hnames : proper → (fs.map (·.1)).Nodup)
    (h : ∀ f ∈ fs, f.2.Sane proper Q) : (struct name fs).Sane proper Q := by
  refine .mk hnames fun u hu => ?_
  obtain ⟨f, hf, rfl⟩ := List.mem_map.1 hu
  exact h f hf

theorem Sane.field {name : String} (h : (struct name fs).Sane proper Q) {f : String × Value}
    (hf : f ∈ fs) : f.2.Sane proper Q := h.child (List.mem_map_of_mem hf)

theorem Sane.field? (hv : v.Sane proper Q) {name : String} (h : v.field? name = some u) :
    u.Sane proper Q := hv.child (mem_children_of_field? h)

/-! ### Operators -/

theorem sane_literal (l : Literal) : (ofLiteral l).Sane proper Q := by
  cases l <;> exact sane_atom rfl fun _ => trivial

theorem gives_unary (op : UnaryOp) (v : Value) (span : Span) :
    Gives (Sane proper Q) (unary op v span) := by
  unfold unary
  split <;> first | exact sane_atom rfl fun _ => trivial | exact nofun

theorem gives_floatArith (op : BinaryOp) (l r : Value) (span : Span) :
    Gives (Sane proper Q) (floatArith op l r span) := by
  unfold floatArith
  split
  · split
    · exact sane_atom rfl fun _ => trivial
    · exact nofun
  · exact nofun

theorem gives_shift (op : BinaryOp) (a b : Int64) (span : Span) :
    Gives (Sane proper Q) (shift op a b span) := by
  unfold shift
  split
  · exact sane_atom rfl fun _ => trivial
  · exact nofun

theorem sane_intPow (a b : Int64) : (intPow a b).Sane proper Q := by
  unfold intPow
  split <;> exact sane_atom rfl fun _ => trivial

theorem gives_binary (op : BinaryOp) {l r : Value} (span : Span) (hl : l.Sane proper Q)
    (hr : r.Sane proper Q) : Gives (Sane proper Q) (binary op l r span) := by
  have hatom : ∀ {v : Value}, v.children = [] → Local proper Q v → Gives (Sane proper Q) (.ok v) :=
    fun hc hlocal => sane_atom hc hlocal
  unfold binary
  split
  · split
    · exact hatom rfl fun _ => trivial
    · exact nofun
  · split
    case h_11 =>
      -- the remainder
      split
      · exact nofun
      · exact hatom rfl fun _ => trivial
    case h_12 =>
      -- the power
      split
      · exact sane_intPow _ _
      · exact gives_floatArith _ _ _ _
    all_goals first
      | exact hatom rfl fun _ => trivial
      | exact gives_shift _ _ _ _
      | exact gives_floatArith _ _ _ _
      | skip
    -- two lists
    refine sane_list.2 fun v hv => ?_
    rcases List.mem_append.1 hv with hv | hv
    · exact sane_list.1 hl v hv
    · exact sane_list.1 hr v hv

theorem sane_range (lo hi : Int64) : (list ((List.range (hi.toInt - lo.toInt).toNat).map fun k =>
    int (lo + Int64.ofNat k))).Sane proper Q := by
  refine sane_list.2 fun v hv => ?_
  obtain ⟨k, -, rfl⟩ := List.mem_map.1 hv
  exact sane_atom rfl fun _ => trivial

/-! ### Elements and fields -/

theorem gives_inBounds (i : Int64) (length : Nat) (span : Span) :
    Gives (fun n => n < length) (inBounds i length span) := by
  unfold inBounds
  split_ifs with h
  · exact (Int.toNat_lt h.1).2 h.2
  · exact nofun

theorem sane_getD (h : ∀ v ∈ vs, v.Sane proper Q) (n : Nat) : (vs.getD n unit).Sane proper Q := by
  rw [List.getD_eq_getElem?_getD]
  cases hn : vs[n]? with
  | none => exact sane_atom rfl fun _ => trivial
  | some v => exact h v (List.mem_of_getElem? hn)

theorem gives_element (h : ∀ v ∈ vs, v.Sane proper Q) (i : Int64) (span : Span) :
    Gives (Sane proper Q) (element vs i span) :=
  (gives_inBounds i vs.length span).bind fun n _ => sane_getD h n

theorem entry_of_valueAt? {key : Value} (h : valueAt? es key = some v) :
    ∃ e ∈ es, beq e.1 key = true ∧ e.2 = v := by
  induction es with
  | nil => cases h
  | cons e es ih =>
    rw [valueAt?] at h
    split at h
    next hkey => exact ⟨e, List.mem_cons_self, hkey, Option.some.inj h⟩
    next =>
      obtain ⟨e', he', hkey, hv⟩ := ih h
      exact ⟨e', List.mem_cons_of_mem _ he', hkey, hv⟩

theorem Sane.valueAt? (h : (map es).Sane proper Q) {key : Value} (hv : valueAt? es key = some v) :
    v.Sane proper Q := by
  obtain ⟨e, he, -, rfl⟩ := entry_of_valueAt? hv
  exact (h.entry he).2

theorem Sane.gives_index (hv : v.Sane proper Q) (key : Value) (span : Span) :
    Gives (Sane proper Q) (v.index key span) := by
  unfold index
  split
  · exact gives_element (sane_list.1 hv) _ _
  · exact gives_element (fun _ hu => hv.child hu) _ _
  · refine (gives_inBounds _ _ _).bind fun n _ => ?_
    cases hn : (_ : List Char)[n]? with
    | none =>
      simp only [Option.map_none, Option.getD_none]
      exact sane_atom rfl fun _ => trivial
    | some c =>
      simp only [Option.map_some, Option.getD_some]
      exact sane_atom rfl fun _ => trivial
  · split
    next h => exact hv.valueAt? h
    next => exact nofun
  · exact nofun

theorem Sane.gives_items (hv : v.Sane proper Q) (span : Span) :
    Gives (∀ u ∈ ·, u.Sane proper Q) (v.items span) := by
  unfold items
  split
  · exact fun u hu => hv.child hu
  · exact fun u hu => hv.child hu
  · exact fun u hu => hv.child hu
  · intro u hu
    obtain ⟨e, he, rfl⟩ := List.mem_map.1 hu
    obtain ⟨hkey, hvalue⟩ := hv.entry he
    refine sane_tuple (fun _ => by simp) fun u hu => ?_
    simp only [List.mem_cons, List.not_mem_nil, or_false] at hu
    rcases hu with rfl | rfl
    · exact hkey
    · exact hvalue
  · intro u hu
    obtain ⟨c, -, rfl⟩ := List.mem_map.1 hu
    exact sane_atom rfl fun _ => trivial
  · exact fun h => by cases h

theorem Sane.gives_follow (hv : v.Sane proper Q) (s : Step) : Gives (Sane proper Q) (v.follow s) := by
  cases s with
  | index key span => exact hv.gives_index key span
  | field name =>
    rw [follow]
    split
    next h => exact hv.field? h
    next => exact nofun

theorem Sane.gives_along (hv : v.Sane proper Q) (steps : List Step) :
    Gives (Sane proper Q) (v.along steps) := by
  induction steps generalizing v with
  | nil => exact hv
  | cons s rest ih => exact (hv.gives_follow s).bind fun u hu => ih hu

/-! ### Collections -/

theorem mem_eq_any (x : Value) : mem vs x = vs.any (beq · x) := by
  induction vs with
  | nil => rw [mem, List.any_nil]
  | cons y vs ih => rw [mem, List.any_cons, ih]

theorem pairwise_insertElem (h : vs.Pairwise fun a b => beq a b = false) (x : Value) :
    (insertElem vs x).Pairwise fun a b => beq a b = false := by
  rw [insertElem]
  split_ifs with hx
  · exact h
  · rw [Bool.not_eq_true, mem_eq_any, List.any_eq_false] at hx
    refine List.pairwise_append.2 ⟨h, List.pairwise_singleton _ _, fun y hy z hz => ?_⟩
    rw [List.mem_singleton.1 hz]
    exact Bool.eq_false_iff.2 (hx y hy)

theorem mem_insertElem {x : Value} (h : u ∈ insertElem vs x) : u ∈ vs ∨ u = x := by
  rw [insertElem] at h
  split_ifs at h
  · exact .inl h
  · simpa using h

theorem sane_setOf (h : ∀ v ∈ vs, v.Sane proper Q) : (setOf vs).Sane proper Q := by
  -- the elements put in so far are sane and unlike each other
  have hfold : ∀ elems : List Value, elems.Pairwise (fun a b => beq a b = false) →
      (∀ v ∈ elems, v.Sane proper Q) →
      (vs.foldl insertElem elems).Pairwise (fun a b => beq a b = false) ∧
        ∀ v ∈ vs.foldl insertElem elems, v.Sane proper Q := by
    induction vs with
    | nil => exact fun elems hp he => ⟨hp, he⟩
    | cons x vs ih =>
      intro elems hp he
      refine ih (fun v hv => h v (List.mem_cons_of_mem _ hv)) _ (pairwise_insertElem hp x) ?_
      intro v hv
      rcases mem_insertElem hv with hv | rfl
      · exact he v hv
      · exact h v List.mem_cons_self
  obtain ⟨hpairs, hall⟩ := hfold [] .nil (by simp)
  exact .mk (fun _ => hpairs) hall

theorem mem_putEntry {key value : Value} {e : Value × Value} (h : e ∈ putEntry es key value) :
    e = (key, value) ∨ ∃ e' ∈ es, e.1 = e'.1 ∧ (e.2 = e'.2 ∨ e.2 = value) := by
  induction es with
  | nil => exact .inl (by simpa [putEntry] using h)
  | cons e' es ih =>
    rw [putEntry] at h
    split_ifs at h
    · rcases List.mem_cons.1 h with rfl | h
      · exact .inr ⟨e', List.mem_cons_self, rfl, .inr rfl⟩
      · exact .inr ⟨e, List.mem_cons_of_mem _ h, rfl, .inl rfl⟩
    · rcases List.mem_cons.1 h with rfl | h
      · exact .inr ⟨e', List.mem_cons_self, rfl, .inl rfl⟩
      · obtain h | ⟨e'', he'', h⟩ := ih h
        · exact .inl h
        · exact .inr ⟨e'', List.mem_cons_of_mem _ he'', h⟩

theorem pairwise_putEntry (h : es.Pairwise fun a b => beq a.1 b.1 = false) (key value : Value) :
    (putEntry es key value).Pairwise fun a b => beq a.1 b.1 = false := by
  induction es with
  | nil => exact List.pairwise_singleton _ _
  | cons e es ih =>
    obtain ⟨hhead, htail⟩ := List.pairwise_cons.1 h
    rw [putEntry]
    split_ifs with hkey
    · exact List.pairwise_cons.2 ⟨hhead, htail⟩
    · refine List.pairwise_cons.2 ⟨fun e' he' => ?_, ih htail⟩
      obtain rfl | ⟨e'', he'', hfirst, -⟩ := mem_putEntry he'
      · exact Bool.eq_false_iff.2 hkey
      · rw [hfirst]
        exact hhead e'' he''

theorem every_putEntry {P : Value → Prop} {key value : Value} (h : Every children P (map es))
    (hkey : Every children P key) (hvalue : Every children P value)
    (hself : P (map (putEntry es key value))) : Every children P (map (putEntry es key value)) := by
  refine .mk hself (forall_mem_children_map.2 fun e he => ?_)
  obtain rfl | ⟨e', he', hfirst, hsecond⟩ := mem_putEntry he
  · exact ⟨hkey, hvalue⟩
  · have hentry := forall_mem_children_map.1 (fun _ hu => h.part hu) e' he'
    refine ⟨hfirst ▸ hentry.1, ?_⟩
    rcases hsecond with hsecond | hsecond
    · exact hsecond ▸ hentry.2
    · exact hsecond ▸ hvalue

theorem Sane.putEntry {key value : Value} (h : (map es).Sane proper Q) (hkey : key.Sane proper Q)
    (hvalue : value.Sane proper Q) : (map (putEntry es key value)).Sane proper Q :=
  every_putEntry h hkey hvalue fun hp => pairwise_putEntry (h.self hp) key value

theorem map_fst_setField (fs : List (String × Value)) (name : String) (v : Value) :
    (setField fs name v).map (·.1) = fs.map (·.1) := by
  induction fs with
  | nil => rfl
  | cons f fs ih =>
    rw [setField]
    split_ifs
    · rfl
    · simp [ih]

theorem mem_setField {name : String} {f : String × Value} (h : f ∈ setField fs name v) :
    f.2 = v ∨ f ∈ fs := by
  induction fs with
  | nil => cases h
  | cons f' fs ih =>
    rw [setField] at h
    split_ifs at h
    · rcases List.mem_cons.1 h with rfl | h
      · exact .inl rfl
      · exact .inr (List.mem_cons_of_mem _ h)
    · rcases List.mem_cons.1 h with rfl | h
      · exact .inr List.mem_cons_self
      · exact (ih h).imp_right (List.mem_cons_of_mem _)

theorem Sane.setField {type name : String} (h : (struct type fs).Sane proper Q)
    (hv : v.Sane proper Q) : (struct type (setField fs name v)).Sane proper Q := by
  refine sane_struct (fun hp => ?_) fun f hf => ?_
  · rw [map_fst_setField]
    exact h.self hp
  · rcases mem_setField hf with hf | hf
    · rw [hf]
      exact hv
    · exact h.field hf

end Sane

end Value

def Step.Sane (proper : Prop) (Q : Closure → Prop) : Step → Prop
  | index key _ => key.Sane proper Q
  | field _ => True

namespace Value

section Made

variable {proper : Prop} {Q : Closure → Prop} {v : Value} {vs args : List Value}

theorem Sane.gives_replaceAlong {steps : List Step} {leaf : Value} (hv : v.Sane proper Q)
    (hsteps : ∀ s ∈ steps, s.Sane proper Q) (hleaf : leaf.Sane proper Q) :
    Gives (Sane proper Q) (v.replaceAlong steps leaf) := by
  induction steps generalizing v with
  | nil =>
    rw [replaceAlong]
    exact hleaf
  | cons s rest ih =>
    have hrest : ∀ {u : Value}, u.Sane proper Q → Gives (Sane proper Q) (u.replaceAlong rest leaf) :=
      fun hu => ih hu fun s hs => hsteps s (List.mem_cons_of_mem _ hs)
    have hstep := hsteps s List.mem_cons_self
    unfold replaceAlong
    split
    case h_1 heq => cases heq
    case h_2 heq =>
      cases heq
      refine (gives_inBounds _ _ _).bind fun n _ => ?_
      refine (hrest (sane_getD (sane_list.1 hv) n)).bind fun u hu => sane_list.2 fun w hw => ?_
      rcases List.mem_or_eq_of_mem_set hw with hw | rfl
      · exact sane_list.1 hv w hw
      · exact hu
    case h_3 entries _ heq =>
      cases heq
      have hput : ∀ {child : Value}, child.Sane proper Q → Gives (Sane proper Q)
          (child.replaceAlong rest leaf >>= fun u => pure (map (Value.putEntry _ _ u))) :=
        fun hchild => (hrest hchild).bind fun u hu => hv.putEntry hstep hu
      dsimp only
      split
      next h => exact hput (hv.valueAt? h)
      next => exact hput (sane_atom rfl fun _ => trivial)
      next => exact fun h => by cases h
    case h_4 heq =>
      cases heq
      split
      next => exact fun h => by cases h
      next h => exact (hrest (hv.field? h)).bind fun u hu => hv.setField hu
    case h_5 => exact fun h => by cases h
    case h_6 => exact fun h => by cases h

/-! ### Calls that build values -/

theorem gives_size (v : Value) (span : Span) : Gives (Sane proper Q) (v.size span) := by
  unfold size
  split <;> first | exact sane_atom rfl fun _ => trivial | exact nofun

theorem gives_builtin (b : Builtin) (hargs : ∀ v ∈ args, v.Sane proper Q) (span : Span) :
    Gives (Sane proper Q) (b.apply args span) := by
  unfold Builtin.apply
  split
  · exact sane_just.2 (hargs _ List.mem_cons_self)
  · exact sane_setOf (sane_list.1 (hargs _ List.mem_cons_self))
  · exact sane_setOf hargs
  · exact gives_size _ _
  · exact nofun

theorem gives_build {c : Constructor} (hc : (constructor c).Sane proper Q)
    (hargs : ∀ v ∈ args, v.Sane proper Q) (span : Span) :
    Gives (Sane proper Q) (c.build args span) := by
  cases c with
  | struct name fields =>
    rw [Constructor.build]
    split_ifs with hlen
    · refine sane_struct (fun hp => ?_) fun f hf => hargs _ (List.of_mem_zip hf).2
      rw [List.map_fst_zip (Nat.le_of_eq hlen.symm)]
      exact hc.self hp
    · exact nofun
  | variant enumName name arity =>
    unfold Constructor.build
    dsimp only
    split_ifs
    · refine .mk (fun _ => trivial) (List.forall_mem_singleton.2 ?_)
      rcases args with _ | ⟨v, _ | ⟨w, rest⟩⟩
      · exact sane_tuple (fun _ => by simp) hargs
      · exact hargs v List.mem_cons_self
      · exact sane_tuple (fun _ => by simp) hargs
    · exact nofun

theorem sane_hostCall {name : String} {w : World} (h : (Host.call name args w).1 = .ok v) :
    v.Sane proper Q := by
  have hemit : ∀ {operation text : String} {w : World},
      (Host.emit operation text w).1 = .ok v → v.Sane proper Q := by
    intro operation text w h
    unfold Host.emit at h
    dsimp only at h
    split at h <;> cases h
    exact sane_atom rfl fun _ => trivial
  have hfunction : ∀ {f w}, Host.function? name = some f → (f args w).1 = .ok v →
      v.Sane proper Q := by
    intro f w hf h
    unfold Host.function? at hf
    split at hf <;> cases hf
    · exact hemit h
    · unfold Host.printf at h
      split at h
      · split at h
        · exact hemit h
        · cases h
      · cases h
    · unfold Host.read at h
      split at h
      · split at h <;> cases h
        exact sane_atom rfl fun _ => trivial
      · cases h
    · unfold Host.write at h
      split at h
      · split at h <;> cases h
        exact sane_atom rfl fun _ => trivial
      · cases h
    · unfold Host.exit at h
      split at h
      · cases h
      · split at h <;> cases h
  unfold Host.call at h
  split at h
  · cases h
  · rename_i f hf
    have hvalue : (f args w).1 = .ok v := by
      revert h
      split
      · rename_i heq
        rw [heq]
        exact id
      · rename_i heq
        rw [heq]
        split
        · exact id
        · exact nofun
    exact hfunction hf hvalue

end Made

end Value

/-! ### Patterns -/

namespace Pattern

variable {proper : Prop} {Q : Closure → Prop} {adts : AdtTable} {v w : Value}
  {bs bs' : List (String × Value)}

def AllSane (proper : Prop) (Q : Closure → Prop) (bs : List (String × Value)) : Prop :=
  ∀ b ∈ bs, b.2.Sane proper Q

def AllWithin (w : Value) (bs : List (String × Value)) : Prop :=
  ∀ b ∈ bs, Within Value.children w b.2

theorem AllWithin.append (h : AllWithin w bs) (h' : AllWithin w bs') : AllWithin w (bs ++ bs') := by
  intro b hb
  rcases List.mem_append.1 hb with hb | hb
  · exact h b hb
  · exact h' b hb

theorem allWithin_matchName {name : String} (hv : Within Value.children w v)
    (h : matchName adts name v = some bs) : AllWithin w bs := by
  have hself : ∀ bs, some [(name, v)] = some bs → AllWithin w bs := by
    rintro _ ⟨⟩ b hb
    rw [List.mem_singleton.1 hb]
    exact hv
  unfold matchName at h
  split at h
  · split_ifs at h
    · split at h
      · split_ifs at h
        cases h
        exact List.forall_mem_nil _
      · cases h
    · exact hself bs h
  · exact hself bs h

mutual

/-- A pattern binds parts of what it is matched with. -/
theorem allWithin_bindings? (p : Pattern) {v : Value} {bs : List (String × Value)}
    (hv : Within Value.children w v) (h : bindings? adts p v = some bs) : AllWithin w bs := by
  have hnil : ∀ {bs : List (String × Value)}, some [] = some bs → AllWithin w bs := by
    rintro _ ⟨⟩
    exact List.forall_mem_nil _
  cases p with
  | wildcard span =>
    rw [bindings?] at h
    exact hnil h
  | name id =>
    rw [bindings?] at h
    exact allWithin_matchName hv h
  | literal l span =>
    rw [bindings?] at h
    split_ifs at h
    exact hnil h
  | nothing span =>
    cases v <;> simp only [bindings?, reduceCtorEq] at h
    exact hnil h
  | just p span =>
    cases v <;> simp only [bindings?, reduceCtorEq] at h
    exact allWithin_bindings? p (hv.child List.mem_cons_self) h
  | tuple ps span =>
    cases v <;> simp only [bindings?, reduceCtorEq] at h
    · split_ifs at h
      exact allWithin_bindingsAll? ps (fun _ hu => hv.child hu) h
    · split_ifs at h
      exact hnil h
  | variant head ps span =>
    rw [bindings?.eq_def] at h
    cases v <;> simp only [reduceCtorEq] at h
    · split_ifs at h
      exact allWithin_bindingsAll? ps (fun _ hu => hv.child hu) h
    · split_ifs at h
      split at h
      · exact hnil h
      · cases h
      · exact allWithin_bindings? _ (hv.child List.mem_cons_self) h
      · split_ifs at h
        exact allWithin_bindingsAll? ps (fun _ hu => (hv.child List.mem_cons_self).child hu) h
      · cases h
  | record head fields span =>
    cases v <;> simp only [bindings?, reduceCtorEq] at h
    split_ifs at h
    exact allWithin_bindingsFields? fields hv h
termination_by sizeOf p

theorem allWithin_bindingsAll? (ps : List Pattern) {vs : List Value} {bs : List (String × Value)}
    (hvs : ∀ v ∈ vs, Within Value.children w v) (h : bindingsAll? adts ps vs = some bs) :
    AllWithin w bs := by
  cases ps with
  | nil =>
    rw [bindingsAll?] at h
    · cases h
      exact List.forall_mem_nil _
    · exact nofun
  | cons p ps =>
    cases vs with
    | nil =>
      rw [bindingsAll?] at h
      · cases h
        exact List.forall_mem_nil _
      · exact nofun
    | cons v vs =>
      simp only [bindingsAll?, Option.pure_def, Option.bind_eq_bind, Option.bind_eq_some_iff,
        Option.some.injEq] at h
      obtain ⟨bs₁, h₁, bs₂, h₂, rfl⟩ := h
      exact (allWithin_bindings? p (hvs v List.mem_cons_self) h₁).append
        (allWithin_bindingsAll? ps (fun u hu => hvs u (List.mem_cons_of_mem _ hu)) h₂)
termination_by sizeOf ps

theorem allWithin_bindingsFields? (fields : List (Ident × Pattern)) {v : Value}
    {bs : List (String × Value)} (hv : Within Value.children w v)
    (h : bindingsFields? adts fields v = some bs) : AllWithin w bs := by
  match fields, h with
  | [], h =>
    rw [bindingsFields?] at h
    cases h
    exact List.forall_mem_nil _
  | (field, p) :: fields, h =>
    simp only [bindingsFields?, Option.pure_def, Option.bind_eq_bind, Option.bind_eq_some_iff,
      Option.some.injEq] at h
    obtain ⟨u, hu, bs₁, h₁, bs₂, h₂, rfl⟩ := h
    exact (allWithin_bindings? p (hv.child (Value.mem_children_of_field? hu)) h₁).append
      (allWithin_bindingsFields? fields hv h₂)
termination_by sizeOf fields

end

theorem allSane_bindings? (p : Pattern) (hv : v.Sane proper Q) (h : bindings? adts p v = some bs) :
    AllSane proper Q bs :=
  fun b hb => hv.within (allWithin_bindings? p (.refl v) h b hb)

end Pattern

end Sluice
