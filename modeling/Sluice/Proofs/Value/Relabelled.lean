import Mathlib.Data.List.GetD
import Sluice.Proofs.Value.MapFns

/-! Operations on values whose functions were replaced. What an operation makes of them is what it makes of
the values, with its functions replaced; it fails where it fails, and in the same way. The host looks at no
more of a function than its name. -/
namespace Sluice

def Step.mapFns (g : Closure → Closure) : Step → Step
  | index key span => index (key.mapFns g) span
  | field name => field name

namespace Value

variable {proper : Prop} {Q : Closure → Prop} {g : Closure → Closure} {u v key : Value}
  {vs args : List Value}

/-! ### Operators -/

theorem compare?_mapFns (g : Closure → Closure) (a b : Value) :
    compare? (a.mapFns g) (b.mapFns g) = compare? a b := by
  cases a <;> cases b <;> rfl

theorem mapFns_ofLiteral (g : Closure → Closure) (l : Literal) : (ofLiteral l).mapFns g = ofLiteral l := by
  cases l <;> rfl

theorem unary_mapFns (g : Closure → Closure) (op : UnaryOp) (v : Value) (span : Span) :
    unary op (v.mapFns g) span = (unary op v span).map (mapFns g) := by
  cases v <;> cases op <;> rfl

theorem floatArith_mapFns (g : Closure → Closure) (op : BinaryOp) (l r : Value) (span : Span) :
    floatArith op (l.mapFns g) (r.mapFns g) span = (floatArith op l r span).map (mapFns g) := by
  have htoFloat : ∀ v : Value, (v.mapFns g).toFloat? = v.toFloat? := fun v => by cases v <;> rfl
  rw [floatArith, floatArith, htoFloat, htoFloat, Fault.binaryMismatch, Fault.binaryMismatch,
    tag_mapFns, tag_mapFns]
  split
  · split <;> rfl
  · rfl

theorem mapFns_intPow (g : Closure → Closure) (a b : Int64) : (intPow a b).mapFns g = intPow a b := by
  unfold intPow
  split <;> rfl

theorem map_shift (g : Closure → Closure) (op : BinaryOp) (a b : Int64) (span : Span) :
    (shift op a b span).map (mapFns g) = shift op a b span := by
  unfold shift
  split <;> rfl

theorem mapFns_eq_int {n : Int64} : v.mapFns g = int n ↔ v = int n := by
  cases v <;> simp [mapFns]

theorem mapFns_eq_bool {b : Bool} : v.mapFns g = bool b ↔ v = bool b := by
  cases v <;> simp [mapFns]

theorem mapFns_eq_char {c : Char} : v.mapFns g = char c ↔ v = char c := by
  cases v <;> simp [mapFns]

theorem mapFns_eq_str {s : String} : v.mapFns g = str s ↔ v = str s := by
  cases v <;> simp [mapFns]

theorem mapFns_eq_list : v.mapFns g = list vs ↔ ∃ us, v = list us ∧ us.map (mapFns g) = vs := by
  cases v <;> simp [mapFns]

theorem binary_mapFns (hg : Closure.Relabels Q g) (op : BinaryOp) {l r : Value} (span : Span)
    (hl : l.Sane proper Q) (hr : r.Sane proper Q) :
    binary op (l.mapFns g) (r.mapFns g) span = (binary op l r span).map (mapFns g) := by
  unfold binary
  split
  · rw [compare?_mapFns, Fault.incomparable, Fault.incomparable, tag_mapFns, tag_mapFns]
    split <;> rfl
  · split
    case h_1 => rw [beq_mapFns hg hl hr]; rfl
    case h_2 => rw [beq_mapFns hg hl hr]; rfl
    case h_21 xs ys hxs hys _ =>
      obtain ⟨us, rfl, rfl⟩ := mapFns_eq_list.1 hxs
      obtain ⟨ws, rfl, rfl⟩ := mapFns_eq_list.1 hys
      show Except.ok (list _) = Except.ok (list (mapFnsAll g (us ++ ws)))
      rw [mapFnsAll_eq_map, List.map_append]
    case h_22 =>
      rw [floatArith_mapFns]
      split <;> first | rfl | simp_all [mapFns]
    all_goals
      -- two values without parts
      simp only [mapFns_eq_int, mapFns_eq_bool, mapFns_eq_char, mapFns_eq_str] at *
      subst_vars
      first
        | rfl
        | exact (map_shift _ _ _ _ _).symm
        | skip
    case h_11 =>
      dsimp only
      split <;> rfl
    case h_12 a b _ _ _ =>
      dsimp only
      split
      · exact congrArg Except.ok (mapFns_intPow g _ _).symm
      · exact floatArith_mapFns g .pow (int _) (int _) span

/-! ### Elements and fields -/

theorem element_mapFns (g : Closure → Closure) (vs : List Value) (i : Int64) (span : Span) :
    element (vs.map (mapFns g)) i span = (element vs i span).map (mapFns g) := by
  rw [element, element, List.length_map]
  cases inBounds i vs.length span with
  | error e => rfl
  | ok n => exact congrArg Except.ok (List.getD_map vs unit (mapFns g))

theorem index_mapFns (hg : Closure.Relabels Q g) (hv : v.Sane proper Q) (hkey : key.Sane proper Q)
    (span : Span) : (v.mapFns g).index (key.mapFns g) span = (v.index key span).map (mapFns g) := by
  have hfault : ∀ v : Value, Fault.notIndexable (v.mapFns g) (key.mapFns g) span =
      Fault.notIndexable v key span := fun v => by simp [Fault.notIndexable]
  cases v with
  | list vs =>
    cases key with
    | int i =>
      show element (mapFnsAll g vs) i span = _
      rw [mapFnsAll_eq_map]
      exact element_mapFns g vs i span
    | _ => rfl
  | tuple vs =>
    cases key with
    | int i =>
      show element (mapFnsAll g vs) i span = _
      rw [mapFnsAll_eq_map]
      exact element_mapFns g vs i span
    | _ => rfl
  | str s =>
    cases key with
    | int i =>
      show (inBounds i s.length span >>= _) = (inBounds i s.length span >>= _).map _
      cases inBounds i s.length span with
      | error e => rfl
      | ok n =>
        refine congrArg Except.ok ?_
        cases s.toList[n]? <;> rfl
    | _ => rfl
  | map es =>
    have hfind := valueAt?_mapFns hg (fun e he => (hv.entry he).1) hkey
    rw [mapFns, mapFnsEntries_eq_map, index, index, hfind]
    cases valueAt? es key with
    | none => simp [Fault.noKey, repr_mapFns hg.name, Except.map]
    | some v => rfl
  | _ => exact congrArg Except.error (hfault _)

theorem items_mapFns (g : Closure → Closure) (v : Value) (span : Span) :
    (v.mapFns g).items span = (v.items span).map (List.map (mapFns g)) := by
  cases v with
  | list vs => exact congrArg Except.ok (mapFnsAll_eq_map g vs)
  | tuple vs => exact congrArg Except.ok (mapFnsAll_eq_map g vs)
  | set vs => exact congrArg Except.ok (mapFnsAll_eq_map g vs)
  | map es => simp [mapFns, items, Except.map]
  | str s => simp [mapFns, items, Except.map]
  | _ => rfl

theorem field?_mapFns (g : Closure → Closure) (v : Value) (name : String) :
    (v.mapFns g).field? name = (v.field? name).map (mapFns g) := by
  cases v with
  | struct type fs => simp [mapFns, field?, List.find?_map, Function.comp_def]
  | _ => rfl

theorem setField_mapFns (g : Closure → Closure) (fs : List (String × Value)) (name : String) (v : Value) :
    setField (fs.map (Prod.map id (mapFns g))) name (v.mapFns g) =
      (setField fs name v).map (Prod.map id (mapFns g)) := by
  induction fs with
  | nil => rfl
  | cons f fs ih =>
    rw [List.map_cons, Prod.map, setField, setField, id]
    split
    · rfl
    · rw [ih, List.map_cons, Prod.map, id]

theorem follow_mapFns (hg : Closure.Relabels Q g) (hv : v.Sane proper Q) {s : Step}
    (hs : s.Sane proper Q) : (v.mapFns g).follow (s.mapFns g) = (v.follow s).map (mapFns g) := by
  cases s with
  | index key span => exact index_mapFns hg hv hs span
  | field name =>
    rw [Step.mapFns, follow, follow, field?_mapFns]
    cases v.field? name.text with
    | none => simp [Fault.noFieldOnPath, Except.map]
    | some x => rfl

theorem along_mapFns (hg : Closure.Relabels Q g) (hv : v.Sane proper Q) {steps : List Step}
    (hsteps : ∀ s ∈ steps, s.Sane proper Q) :
    (v.mapFns g).along (steps.map (Step.mapFns g)) = (v.along steps).map (mapFns g) := by
  induction steps generalizing v with
  | nil => rfl
  | cons s rest ih =>
    rw [List.forall_mem_cons] at hsteps
    have hgives := hv.gives_follow s
    rw [List.map_cons, along, along, follow_mapFns hg hv hsteps.1]
    cases hu : v.follow s with
    | error f => rfl
    | ok u =>
      rw [hu] at hgives
      exact ih hgives hsteps.2

theorem replaceAlong_mapFns (hg : Closure.Relabels Q g) (hv : v.Sane proper Q) {steps : List Step}
    (hsteps : ∀ s ∈ steps, s.Sane proper Q) (leaf : Value) :
    (v.mapFns g).replaceAlong (steps.map (Step.mapFns g)) (leaf.mapFns g) =
      (v.replaceAlong steps leaf).map (mapFns g) := by
  induction steps generalizing v with
  | nil =>
    rw [List.map_nil, replaceAlong, replaceAlong]
    rfl
  | cons s rest ih =>
    rw [List.forall_mem_cons] at hsteps
    rw [List.map_cons]
    cases s with
    | field name =>
      cases v with
      | struct type fs =>
        have hfield := field?_mapFns g (struct type fs) name.text
        rw [mapFns, mapFnsFields_eq_map] at hfield
        rw [Step.mapFns, mapFns, mapFnsFields_eq_map, replaceAlong, replaceAlong, hfield]
        cases hx : (struct type fs).field? name.text with
        | none => rfl
        | some x =>
          simp only [Option.map_some, ih (hv.field? hx) hsteps.2]
          cases x.replaceAlong rest leaf with
          | error f => rfl
          | ok u =>
            refine congrArg (fun fs => Except.ok (struct type fs)) ?_
            rw [mapFnsFields_eq_map, setField_mapFns]
      | _ => simp only [Step.mapFns, mapFns, replaceAlong]; rfl
    | index key span =>
      cases v with
      | list items =>
        cases key with
        | int i =>
          simp only [Step.mapFns, mapFns, mapFnsAll_eq_map, replaceAlong, List.length_map]
          cases inBounds i items.length span with
          | error f => rfl
          | ok n =>
            have hitem : (items.map (mapFns g)).getD n unit = (items.getD n unit).mapFns g :=
              List.getD_map items unit (mapFns g)
            show ((items.map (mapFns g)).getD n unit).replaceAlong _ _ >>= _ = _
            rw [hitem, ih (sane_getD (sane_list.1 hv) n) hsteps.2]
            show _ = Except.map _ ((items.getD n unit).replaceAlong rest leaf >>= _)
            cases (items.getD n unit).replaceAlong rest leaf with
            | error f => rfl
            | ok u =>
              show Except.ok (list _) = Except.ok (list (mapFnsAll g (items.set n u)))
              rw [mapFnsAll_eq_map, List.map_set]
        | _ => simp only [Step.mapFns, mapFns, replaceAlong]; rfl
      | map es =>
        have hkey : key.Sane proper Q := hsteps.1
        have hes := fun e he => (hv.entry (e := e) he).1
        have hput : ∀ {child : Value}, child.Sane proper Q →
            ((child.mapFns g).replaceAlong (rest.map (Step.mapFns g)) (leaf.mapFns g) >>= fun u =>
              pure (map (putEntry (es.map (Prod.map (mapFns g) (mapFns g))) (key.mapFns g) u))) =
            (child.replaceAlong rest leaf >>= fun u => pure (map (putEntry es key u))).map
              (mapFns g) := by
          intro child hchild
          rw [ih hchild hsteps.2]
          cases child.replaceAlong rest leaf with
          | error f => rfl
          | ok u =>
            refine congrArg (fun es => Except.ok (map es)) ?_
            rw [mapFnsEntries_eq_map]
            exact putEntry_mapFns hg hes hkey u
        have hfind := valueAt?_mapFns hg hes hkey
        rw [Step.mapFns, mapFns, mapFnsEntries_eq_map, replaceAlong.eq_def, replaceAlong.eq_def (map es)]
        cases hx : valueAt? es key with
        | some x =>
          rw [hx] at hfind
          simp only [hfind, hx, Option.map_some]
          exact hput (hv.valueAt? hx)
        | none =>
          rw [hx] at hfind
          simp only [hfind, hx, Option.map_none]
          cases rest with
          | nil => exact @hput unit (sane_atom rfl fun _ => trivial)
          | cons s rest =>
            refine congrArg Except.error ?_
            rw [Fault.noKey, Fault.noKey, repr_mapFns hg.name]
      | _ => simp only [Step.mapFns, mapFns, replaceAlong]; rfl

/-! ### Calls that build values -/

theorem size_mapFns (g : Closure → Closure) (v : Value) (span : Span) :
    (v.mapFns g).size span = (v.size span).map (mapFns g) := by
  cases v with
  | list vs => simp [mapFns, size, Except.map]
  | tuple vs => simp [mapFns, size, Except.map]
  | set vs => simp [mapFns, size, Except.map]
  | map es => simp [mapFns, size, Except.map]
  | _ => rfl

theorem apply_mapFns (hg : Closure.Relabels Q g) (b : Builtin) (hargs : ∀ v ∈ args, v.Sane proper Q)
    (span : Span) : b.apply (args.map (mapFns g)) span = (b.apply args span).map (mapFns g) := by
  have hset : Except.ok (setOf (args.map (mapFns g))) = (Except.ok ((setOf args).mapFns g) : Except Fault _) :=
    congrArg Except.ok (setOf_mapFns hg hargs)
  rcases args with _ | ⟨v, _ | ⟨w, rest⟩⟩
  · cases b <;> rfl
  · cases b with
    | just => rfl
    | len => exact size_mapFns g v span
    | set =>
      cases v with
      | list items =>
        have hitems := sane_list.1 (hargs _ List.mem_cons_self)
        show Except.ok (setOf (mapFnsAll g items)) = Except.ok ((setOf items).mapFns g)
        rw [mapFnsAll_eq_map, setOf_mapFns hg hitems]
      | _ => exact hset
  · cases b with
    | set => cases v <;> exact hset
    | _ => simp [Builtin.apply, Except.map]

theorem build_mapFns (g : Closure → Closure) (c : Constructor) (args : List Value) (span : Span) :
    c.build (args.map (mapFns g)) span = (c.build args span).map (mapFns g) := by
  cases c with
  | struct name fields =>
    rw [Constructor.build, Constructor.build, List.length_map]
    split
    · refine congrArg Except.ok ?_
      rw [mapFns, mapFnsFields_eq_map, List.zip_map_right]
    · rfl
  | variant enumName name arity =>
    unfold Constructor.build
    dsimp only
    rw [List.length_map]
    split
    · rcases args with _ | ⟨v, _ | ⟨w, rest⟩⟩
      · rfl
      · rfl
      · simp [Except.map, mapFns]
    · rfl

end Value

/-! ### Patterns -/

namespace Pattern

variable {proper : Prop} {Q : Closure → Prop} {g : Closure → Closure} {adts : AdtTable}

theorem matchName_mapFns (g : Closure → Closure) (adts : AdtTable) (name : String) (v : Value) :
    matchName adts name (v.mapFns g) =
      (matchName adts name v).map (List.map (Prod.map id (Value.mapFns g))) := by
  unfold matchName
  split
  · split
    · cases v with
      | variant enumName n payload =>
        cases payload with
        | none => 
          dsimp only [Value.mapFns, Value.mapFnsPayload]
          split <;> rfl
        | some v => rfl
      | _ => rfl
    · rfl
  · rfl

mutual

theorem bindings?_mapFns (hg : Closure.Relabels Q g) (p : Pattern) {v : Value} (hv : v.Sane proper Q) :
    bindings? adts p (v.mapFns g) =
      (bindings? adts p v).map (List.map (Prod.map id (Value.mapFns g))) := by
  cases p with
  | wildcard span => rw [bindings?, bindings?]; rfl
  | name id => rw [bindings?, bindings?, matchName_mapFns]
  | literal l span =>
    have hl : (Value.ofLiteral l).Sane proper Q := Value.sane_literal l
    have hbeq := Value.beq_mapFns hg hl hv
    rw [Value.mapFns_ofLiteral] at hbeq
    rw [bindings?, bindings?, hbeq]
    split <;> rfl
  | nothing span => cases v <;> simp [bindings?, Value.mapFns]
  | just p span =>
    cases v with
    | just v => 
      rw [Value.mapFns, bindings?, bindings?]
      exact bindings?_mapFns hg p (Value.sane_just.1 hv)
    | _ => simp [bindings?, Value.mapFns]
  | tuple ps span =>
    cases v with
    | tuple vs =>
      rw [Value.mapFns, Value.mapFnsAll_eq_map, bindings?, bindings?, List.length_map]
      split
      · exact bindingsAll?_mapFns hg ps fun _ hu => hv.child hu
      · rfl
    | unit => 
      simp only [bindings?, Value.mapFns]
      split <;> rfl
    | _ => simp [bindings?, Value.mapFns]
  | variant head ps span =>
    cases v with
    | struct n fs =>
      have hfields : (fs.map (Prod.map id (Value.mapFns g))).map (·.2) =
          (fs.map (·.2)).map (Value.mapFns g) := by simp [List.map_map, Function.comp_def]
      rw [Value.mapFns, Value.mapFnsFields_eq_map, bindings?, bindings?, List.length_map, hfields]
      split
      · refine bindingsAll?_mapFns hg ps fun u hu => ?_
        obtain ⟨f, hf, rfl⟩ := List.mem_map.1 hu
        exact hv.field hf
      · rfl
    | variant enumName n payload =>
      rw [Value.mapFns, Value.mapFnsPayload_eq_map, bindings?.eq_def, bindings?.eq_def]
      dsimp only
      split
      · cases payload with
        | none => cases ps <;> rfl
        | some v =>
          have hpayload : v.Sane proper Q := hv.child List.mem_cons_self
          -- a payload of several values has as many patterns, unless one pattern is for all of it
          have htuple : ∀ vs, v = .tuple vs →
              (if (vs.map (Value.mapFns g)).length = ps.length then
                bindingsAll? adts ps (vs.map (Value.mapFns g)) else none) =
              (if vs.length = ps.length then bindingsAll? adts ps vs else none).map
                (List.map (Prod.map id (Value.mapFns g))) := by
            rintro vs rfl
            rw [List.length_map]
            split
            · exact bindingsAll?_mapFns hg ps fun _ hu => hpayload.child hu
            · rfl
          rcases ps with _ | ⟨p, _ | ⟨q, ps⟩⟩
          · cases v with
            | tuple vs =>
              dsimp only [Option.map_some, Value.mapFns]
              rw [Value.mapFnsAll_eq_map]
              exact htuple vs rfl
            | _ => rfl
          · exact bindings?_mapFns hg p hpayload
          · cases v with
            | tuple vs =>
              dsimp only [Option.map_some, Value.mapFns]
              rw [Value.mapFnsAll_eq_map]
              exact htuple vs rfl
            | _ => rfl
      · rfl
    | _ => simp [bindings?, Value.mapFns]
  | record head fields span =>
    cases v with
    | struct n fs =>
      have hfields : bindingsFields? adts fields ((Value.struct n fs).mapFns g) =
          (bindingsFields? adts fields (.struct n fs)).map (List.map (Prod.map id (Value.mapFns g))) :=
        bindingsFields?_mapFns hg fields hv
      rw [Value.mapFns] at hfields ⊢
      rw [bindings?, bindings?]
      split
      · exact hfields
      · rfl
    | _ => simp [bindings?, Value.mapFns]
termination_by sizeOf p

theorem bindingsAll?_mapFns (hg : Closure.Relabels Q g) (ps : List Pattern) {vs : List Value}
    (hvs : ∀ v ∈ vs, v.Sane proper Q) :
    bindingsAll? adts ps (vs.map (Value.mapFns g)) =
      (bindingsAll? adts ps vs).map (List.map (Prod.map id (Value.mapFns g))) := by
  match ps, vs, hvs with
  | [], vs, _ => cases vs <;> rfl
  | _ :: _, [], _ => rfl
  | p :: ps, v :: vs, hvs =>
    rw [List.forall_mem_cons] at hvs
    rw [List.map_cons, bindingsAll?, bindingsAll?, bindings?_mapFns hg p hvs.1,
      bindingsAll?_mapFns hg ps hvs.2]
    cases bindings? adts p v with
    | none => rfl
    | some bs =>
      cases bindingsAll? adts ps vs with
      | none => rfl
      | some bs' => exact congrArg some List.map_append.symm
termination_by sizeOf ps

theorem bindingsFields?_mapFns (hg : Closure.Relabels Q g) (fields : List (Ident × Pattern)) {v : Value}
    (hv : v.Sane proper Q) :
    bindingsFields? adts fields (v.mapFns g) =
      (bindingsFields? adts fields v).map (List.map (Prod.map id (Value.mapFns g))) := by
  match fields with
  | [] => rfl
  | (field, p) :: fields =>
    rw [bindingsFields?, bindingsFields?, Value.field?_mapFns, bindingsFields?_mapFns hg fields hv]
    cases hu : v.field? field.text with
    | none => rfl
    | some u =>
      simp only [Option.map_some, Option.bind_eq_bind, Option.bind_some]
      rw [bindings?_mapFns hg p (hv.field? hu)]
      cases bindings? adts p u with
      | none => rfl
      | some bs =>
        cases bindingsFields? adts fields v with
        | none => rfl
        | some bs' => exact congrArg some List.map_append.symm
termination_by sizeOf fields

end

end Pattern

/-! ### The outside -/

section Outside

variable {proper : Prop} {Q : Closure → Prop} {g : Closure → Closure}

theorem Printf.render_mapFns (hg : ∀ c, (g c).name = c.name) (directive : Char) (places : Option Nat)
    (v : Value) : render directive places (v.mapFns g) = render directive places v := by
  have htag := Value.tag_mapFns g v
  have hdisplay := Value.display_mapFns hg v
  rw [render.eq_def, render.eq_def directive places v]
  cases v <;> try rfl
  all_goals
    dsimp only [Value.mapFns] at htag hdisplay ⊢
    split <;> simp_all only [reduceCtorEq, implies_true]

theorem Printf.formatFrom_mapFns (hg : ∀ c, (g c).name = c.name) (out : String) (args : List Value)
    (cs : List Char) : formatFrom out (args.map (Value.mapFns g)) cs = formatFrom out args cs := by
  fun_induction formatFrom out args cs with
  | case1 | case2 => simp_all [formatFrom]
  | case10 out args c r hc ih => rw [formatFrom, if_neg hc, ih]
  | _ =>
    rw [formatFrom, if_pos rfl]
    split <;> simp_all [render_mapFns hg]

theorem TraceDatum.ofArgument_mapFns (hg : ∀ c, (g c).name = c.name) (v : Value) :
    ofArgument (v.mapFns g) = ofArgument v := by
  have hvalue : ofValue (v.mapFns g) = ofValue v := by
    have hrepr := Value.repr_mapFns hg v
    cases v <;> first | rfl | exact congrArg TraceDatum.repr hrepr
  rw [ofArgument, ofArgument, hvalue]

theorem Tracer.effect_mapFns (hg : ∀ c, (g c).name = c.name) (t : Tracer) (files : Files)
    (operation : String) (args : List Value) (output : TraceResult) :
    t.effect files operation (args.map (Value.mapFns g)) output = t.effect files operation args output := by
  have hargs : (args.map (Value.mapFns g)).map TraceDatum.ofArgument = args.map .ofArgument := by
    rw [List.map_map]
    exact List.map_congr_left fun v _ => TraceDatum.ofArgument_mapFns hg v
  rw [Tracer.effect, Tracer.effect, hargs]

namespace Host

theorem function?_mapFns (hg : ∀ c, (g c).name = c.name) {name : String}
    {f : List Value → World → Except HostError Value × World} (hf : function? name = some f)
    (args : List Value) (w : World) : f (args.map (Value.mapFns g)) w = f args w := by
  unfold function? at hf
  split at hf <;> cases hf
  · -- print
    have htexts : (args.map (Value.mapFns g)).map Value.display = args.map Value.display := by
      rw [List.map_map]
      exact List.map_congr_left fun v _ => Value.display_mapFns hg v
    rw [print, print, htexts]
  · -- printf
    rcases args with _ | ⟨v, args⟩
    · rfl
    · cases v with
      | str fmt =>
        have htext : Printf.format fmt (args.map (Value.mapFns g)) = Printf.format fmt args :=
          Printf.formatFrom_mapFns hg "" args fmt.toList
        show printf (.str fmt :: args.map (Value.mapFns g)) w = printf (.str fmt :: args) w
        rw [printf, printf, htext]
      | _ => rfl
  · -- read
    rcases args with _ | ⟨v, _ | ⟨v', args⟩⟩
    · rfl
    · cases v <;> rfl
    · cases v <;> rfl
  · -- write
    rcases args with _ | ⟨v, _ | ⟨v', _ | ⟨v'', args⟩⟩⟩
    · rfl
    · rfl
    · cases v' with
      | str path => 
        show write [v.mapFns g, .str path] w = write [v, .str path] w
        rw [write, write, Value.display_mapFns hg]
      | _ => rfl
    · cases v' <;> rfl
  · -- exit
    have hcode : exitCode (args.map (Value.mapFns g)) = exitCode args := by
      rcases args with _ | ⟨v, _ | ⟨v', args⟩⟩
      · rfl
      · cases v <;> rfl
      · cases v <;> rfl
    rw [exit, exit, hcode]

theorem call_mapFns (hg : ∀ c, (g c).name = c.name) (name : String) (args : List Value) (w : World) :
    call name (args.map (Value.mapFns g)) w = call name args w := by
  unfold call
  split
  · rfl
  · next f hf =>
    rw [function?_mapFns hg hf]
    simp only [Tracer.effect_mapFns hg]

end Host

end Outside

end Sluice
