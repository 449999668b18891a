import Mathlib.Data.List.Nodup
import Sluice.Typeclass

/-! What a registry says is what the calls that it accepted say. The latest declaration of a typeclass is
the one that counts, the latest implementation for a type comes before the latest one for every type, and a
call that is refused leaves no trace. -/
namespace Sluice

namespace Table

variable {κ : Type} {α : Type u} [DecidableEq κ]

theorem get?_erase (t : Table κ α) (k k' : κ) :
    (t.erase k).get? k' = if k' = k then none else t.get? k' := by
  induction t with
  | nil => simp [erase, get?]
  | cons e t ih =>
    obtain ⟨j, a⟩ := e
    simp only [erase] at ih ⊢
    by_cases hj : j = k
    · simp only [List.filter_cons, hj, ne_eq, not_true_eq_false, decide_false, Bool.false_eq_true,
        if_false, ih, get?]
      split
      next => rfl
      next h => rw [if_neg (Ne.symm h)]
    · by_cases hk : j = k'
      · subst hk
        simp [get?, hj]
      · simpa [get?, hj, hk] using ih

theorem get?_insert (t : Table κ α) (k k' : κ) (a : α) :
    (t.insert k a).get? k' = if k' = k then some a else t.get? k' := by
  split
  next h => rw [h, get?_insert_self]
  next h => exact get?_insert_of_ne t a h

end Table

namespace Typeclass

def Lists (c : Typeclass) (method : String) : Prop := method ∈ c.methods.map (·.name)

instance (c : Typeclass) (method : String) : Decidable (c.Lists method) :=
  inferInstanceAs (Decidable (method ∈ c.methods.map (·.name)))

end Typeclass

namespace Registry

variable {F : Type}

/-- A call that changes a registry. Each method of an implementation comes with its number of parameters
and what is called. -/
inductive Call (F : Type) where
  | declare (c : Typeclass)
  | implement (typeclass : String) (type : Option String) (methods : List (String × Nat × F))

/-- The calls that a registry accepted, the latest one first. -/
abbrev History (F : Type) := List (Call F)

namespace History

def class? (h : History F) (name : String) : Option Typeclass := h.findSome? fun
  | .declare c => if c.name = name then some c else none
  | .implement .. => none

/-- The current implementation of a typeclass for a type, or for every type when there is none. -/
def block? (h : History F) (typeclass : String) (type : Option String) :
    Option (List (String × Nat × F)) := h.findSome? fun
  | .declare _ => none
  | .implement typeclass' type' methods =>
    if canonicalType typeclass' = typeclass ∧ type'.map canonicalType = type then some methods else none

def callable? (h : History F) (typeclass : String) (type : Option String) (method : String) : Option F :=
  (h.block? typeclass type).bind fun block => (block.find? (·.1 = method)).map (·.2.2)

/-- What may be called: a declaration that derives current typeclasses and takes no method from another
one, or an implementation of a current typeclass whose methods it lists, each with its number of parameters
and once. -/
def Admits (h : History F) : Call F → Prop
  | .declare c => (∀ d ∈ c.derives, d = c.name ∨ (h.class? d).isSome) ∧
      ∀ d, h.class? d.name = some d → ∀ m, c.Lists m → d.Lists m → d.name = c.name
  | .implement typeclass _ methods => ∃ c, h.class? (canonicalType typeclass) = some c ∧
      (∀ m ∈ methods, (c.method? m.1).map (·.arity) = some m.2.1) ∧ (methods.map (·.1)).Nodup

theorem name_of_class? {h : History F} {name : String} {c : Typeclass} (hc : h.class? name = some c) :
    c.name = name := by
  obtain ⟨call, -, hcall⟩ := List.exists_of_findSome?_eq_some hc
  split at hcall
  next d =>
    split at hcall
    next hname =>
      cases hcall
      exact hname
    next => cases hcall
  next => cases hcall

theorem class?_declare (h : History F) (c : Typeclass) (name : String) :
    class? (.declare c :: h) name = if name = c.name then some c else h.class? name := by
  simp only [class?, List.findSome?_cons]
  by_cases hn : c.name = name
  · rw [if_pos hn, if_pos hn.symm]
  · rw [if_neg hn, if_neg (Ne.symm hn)]

theorem callable?_implement (h : History F) (typeclass' : String) (type' : Option String)
    (methods : List (String × Nat × F)) (typeclass : String) (type : Option String) (method : String) :
    callable? (.implement typeclass' type' methods :: h) typeclass type method =
      if canonicalType typeclass' = typeclass ∧ type'.map canonicalType = type then
        (methods.find? (·.1 = method)).map (·.2.2)
      else h.callable? typeclass type method := by
  simp only [callable?, block?, List.findSome?_cons]
  split
  next hsome =>
    split at hsome
    next hkey =>
      cases hsome
      rw [if_pos hkey, Option.bind_some]
    next => cases hsome
  next hnone =>
    split at hnone
    next => cases hnone
    next hkey => rw [if_neg hkey]

end History

def attempt (r : Registry F) : Call F → Except RegistrationError (Registry F)
  | .declare c => r.addClass c
  | .implement typeclass type methods => r.addImpl typeclass type methods

def record (s : Registry F × History F) (call : Call F) : Registry F × History F :=
  match s.1.attempt call with
  | .ok r => (r, call :: s.2)
  | .error _ => s

/-- A new registry after a sequence of calls, and those that it accepted. -/
def run (calls : List (Call F)) : Registry F × History F := calls.foldl record ({}, [])

structure Faithful (r : Registry F) (h : History F) : Prop where
  classes : ∀ name, r.classes.get? name = h.class? name
  owners : ∀ method name,
    r.owners.get? method = some name ↔ ∃ c, h.class? name = some c ∧ c.Lists method
  impls : ∀ name type method,
    (r.impls.get? (name, type)).bind (·.get? method) = h.callable? name (some type) method
  defaults : ∀ name method,
    (r.defaults.get? name).bind (·.get? method) = h.callable? name none method

theorem faithful_empty : Faithful ({} : Registry F) [] where
  classes _ := rfl
  owners _ _ := ⟨nofun, nofun⟩
  impls _ _ _ := rfl
  defaults _ _ := rfl

/-! ### Declarations -/

theorem conflict?_eq_none_iff {r : Registry F} {c : Typeclass} :
    r.conflict? c = none ↔ ∀ m, c.Lists m → ∀ owner, r.owners.get? m = some owner → owner = c.name := by
  simp only [conflict?, List.findSome?_eq_none_iff, Typeclass.Lists, List.mem_map]
  constructor
  · rintro h _ ⟨m, hm, rfl⟩ owner howner
    have hm := h m hm
    rw [howner] at hm
    by_contra hne
    simp [hne] at hm
  · intro h m hm
    split
    next owner howner => rw [if_pos (h _ ⟨m, hm, rfl⟩ owner howner)]
    next => rfl

theorem get?_foldl_erase (methods : List Method) (owners : Table String String) (m : String) :
    (methods.foldl (fun o m => o.erase m.name) owners).get? m =
      if m ∈ methods.map (·.name) then none else owners.get? m := by
  induction methods generalizing owners with
  | nil => rfl
  | cons d methods ih =>
    rw [List.foldl_cons, ih, Table.get?_erase, List.map_cons]
    by_cases hm : m ∈ methods.map (·.name)
    · rw [if_pos hm, if_pos (List.mem_cons_of_mem _ hm)]
    · by_cases hd : m = d.name <;> simp [hm, hd]

theorem get?_foldl_insert (methods : List Method) (name : String) (owners : Table String String)
    (m : String) :
    (methods.foldl (fun o m => o.insert m.name name) owners).get? m =
      if m ∈ methods.map (·.name) then some name else owners.get? m := by
  induction methods generalizing owners with
  | nil => rfl
  | cons d methods ih =>
    rw [List.foldl_cons, ih, Table.get?_insert, List.map_cons]
    by_cases hm : m ∈ methods.map (·.name)
    · rw [if_pos hm, if_pos (List.mem_cons_of_mem _ hm)]
    · by_cases hd : m = d.name <;> simp [hm, hd]

/-- A declaration that is accepted: what it needs, and the registry after it. Methods that only the
declaration before it lists have no owner any more. -/
theorem addClass_eq_ok_iff {r r' : Registry F} {c : Typeclass} : r.addClass c = .ok r' ↔
    (∀ d ∈ c.derives, d = c.name ∨ r.classes.contains d = true) ∧
    (∀ m, c.Lists m → ∀ owner, r.owners.get? m = some owner → owner = c.name) ∧
    r' = { r with
      owners := c.methods.foldl (fun o m => o.insert m.name c.name)
        ((((r.classes.get? c.name).map (·.methods)).getD []).foldl (fun o m => o.erase m.name) r.owners)
      classes := r.classes.insert c.name c } := by
  rw [← conflict?_eq_none_iff, addClass]
  split
  next d hd =>
    have hfails := List.find?_some hd
    have hmem := List.mem_of_find?_eq_some hd
    constructor
    · rintro ⟨⟩
    · rintro ⟨hknown, -, -⟩
      rcases hknown d hmem with hself | hknown
      · simp [hself] at hfails
      · simp [hknown] at hfails
  next hderives =>
    have hderives : ∀ d ∈ c.derives, d = c.name ∨ r.classes.contains d = true := by
      intro d hd
      have hd := List.find?_eq_none.1 hderives d hd
      by_cases hself : d = c.name
      · exact .inl hself
      · exact .inr (by simpa [hself] using hd)
    split
    next hconflict => simp [hconflict]
    next hconflict =>
      refine ⟨?_, ?_⟩
      · rintro ⟨⟩
        exact ⟨hderives, hconflict, rfl⟩
      · rintro ⟨-, -, rfl⟩
        rfl

/-- The typeclasses and the owners of methods after a declaration. -/
theorem Faithful.owners_declare {r : Registry F} {h : History F} (hr : Faithful r h) {c : Typeclass}
    (hfree : ∀ m, c.Lists m → ∀ owner, r.owners.get? m = some owner → owner = c.name)
    (m name : String) :
    (c.methods.foldl (fun o m => o.insert m.name c.name)
      ((((r.classes.get? c.name).map (·.methods)).getD []).foldl (fun o m => o.erase m.name)
        r.owners)).get? m = some name ↔
      ∃ d, History.class? (.declare c :: h) name = some d ∧ d.Lists m := by
  have hold : m ∈ (((r.classes.get? c.name).map (·.methods)).getD []).map (·.name) ↔
      r.owners.get? m = some c.name := by
    rw [hr.owners, hr.classes]
    cases h.class? c.name <;> simp [Typeclass.Lists]
  simp only [get?_foldl_insert, get?_foldl_erase, hold, History.class?_declare]
  change (if c.Lists m then _ else _) = _ ↔ _
  by_cases hm : c.Lists m
  · rw [if_pos hm, Option.some.injEq, eq_comm]
    by_cases hn : name = c.name
    · simp [hn, hm]
    · simp only [hn, if_false, false_iff, not_exists]
      intro d hd
      exact hn (hfree m hm name ((hr.owners m name).2 ⟨d, hd⟩))
  · rw [if_neg hm]
    by_cases hn : name = c.name
    · subst hn
      simp only [if_true, Option.some.injEq, exists_eq_left', hm, iff_false]
      split
      next => simp
      next hother => exact hother
    · simp only [hn, if_false, ← hr.owners]
      split
      next hself => simpa [hself] using Ne.symm hn
      next => rfl

theorem Faithful.declare {r r' : Registry F} {h : History F} (hr : Faithful r h) {c : Typeclass}
    (hok : r.addClass c = .ok r') : Faithful r' (.declare c :: h) := by
  obtain ⟨-, hfree, rfl⟩ := addClass_eq_ok_iff.1 hok
  refine ⟨fun name => ?_, hr.owners_declare hfree, hr.impls, hr.defaults⟩
  simp only [Table.get?_insert, History.class?_declare, hr.classes]

/-! ### Implementations -/

/-- The methods of an implementation that is accepted, added to those read before. -/
theorem methodTable_eq_ok_iff {c : Typeclass} {typeclass : String} {table : Table String F}
    {methods : List (String × Nat × F)} : (∃ t, methodTable c typeclass table methods = .ok t) ↔
      (∀ m ∈ methods, (c.method? m.1).map (·.arity) = some m.2.1) ∧ (methods.map (·.1)).Nodup ∧
      ∀ m ∈ methods, table.contains m.1 = false := by
  induction methods generalizing table with
  | nil => simp [methodTable]
  | cons m methods ih =>
    obtain ⟨name, arity, f⟩ := m
    rw [methodTable]
    have hcontains (k : String) :
        (table.insert name f).contains k = (decide (k = name) || table.contains k) := by
      by_cases hk : k = name <;> simp [Table.contains, Table.get?_insert, hk]
    split
    next hnone => simp [hnone]
    next sig hsig =>
      split
      next harity => simp [hsig, harity]
      next harity =>
        split
        next hdup => simp [hdup]
        next hnew =>
          rw [ih]
          simp only [hcontains, Bool.or_eq_false_iff, decide_eq_false_iff_not, List.forall_mem_cons,
            hsig, Option.map_some, not_not.1 harity, List.map_cons, List.nodup_cons, List.mem_map,
            Bool.not_eq_true _ ▸ hnew, true_and]
          grind

theorem get?_of_methodTable {c : Typeclass} {typeclass : String} {table t : Table String F}
    {methods : List (String × Nat × F)} (h : methodTable c typeclass table methods = .ok t)
    (method : String) :
    t.get? method = ((methods.find? (·.1 = method)).map (·.2.2)).or (table.get? method) := by
  induction methods generalizing table with
  | nil =>
    cases h
    rfl
  | cons m methods ih =>
    obtain ⟨name, arity, f⟩ := m
    obtain ⟨-, hnodup, -⟩ := methodTable_eq_ok_iff.1 ⟨t, h⟩
    rw [methodTable] at h
    split at h
    next => cases h
    next =>
      split at h
      next => cases h
      next =>
        split at h
        next => cases h
        next =>
          rw [ih h, Table.get?_insert, List.find?_cons]
          by_cases hm : name = method
          · subst hm
            have hlater : methods.find? (·.1 = name) = none := by
              rw [List.find?_eq_none]
              intro e he hname
              refine (List.nodup_cons.1 hnodup).1 (List.mem_map.2 ⟨e, he, ?_⟩)
              simpa using hname
            simp [hlater]
          · simp [hm, Ne.symm hm]

/-- An implementation that is accepted: its typeclass, its table, and the registry after it. -/
theorem addImpl_eq_ok_iff {r r' : Registry F} {typeclass : String} {type : Option String}
    {methods : List (String × Nat × F)} : r.addImpl typeclass type methods = .ok r' ↔
      ∃ c table, r.classes.get? (canonicalType typeclass) = some c ∧
        methodTable c (canonicalType typeclass) [] methods = .ok table ∧
        r' = match type with
          | some t => { r with impls := r.impls.insert (canonicalType typeclass, canonicalType t) table }
          | none => { r with defaults := r.defaults.insert (canonicalType typeclass) table } := by
  rw [addImpl]
  split
  next hnone => simp [hnone]
  next c hc =>
    cases htable : methodTable c (canonicalType typeclass) [] methods with
    | error e => simp [hc, htable, bind, Except.bind]
    | ok table =>
      simp only [bind, Except.bind, pure, Except.pure, Except.ok.injEq, hc, Option.some.injEq,
        exists_and_left, exists_eq_left', htable]
      exact eq_comm

theorem Faithful.implement {r r' : Registry F} {h : History F} (hr : Faithful r h) {typeclass : String}
    {type : Option String} {methods : List (String × Nat × F)}
    (hok : r.addImpl typeclass type methods = .ok r') :
    Faithful r' (.implement typeclass type methods :: h) := by
  obtain ⟨c, table, -, htable, rfl⟩ := addImpl_eq_ok_iff.1 hok
  have hget (method : String) : table.get? method = (methods.find? (·.1 = method)).map (·.2.2) := by
    simpa using get?_of_methodTable htable method
  cases type with
  | some t =>
    refine ⟨hr.classes, hr.owners, fun name type method => ?_, fun name method => ?_⟩
    · rw [History.callable?_implement]
      simp only [Table.get?_insert, Prod.mk.injEq, Option.map_some, Option.some.injEq]
      by_cases hkey : canonicalType typeclass = name ∧ canonicalType t = type
      · rw [if_pos ⟨hkey.1.symm, hkey.2.symm⟩, if_pos hkey, Option.bind_some, hget]
      · rw [if_neg fun hkey' => hkey ⟨hkey'.1.symm, hkey'.2.symm⟩, if_neg hkey, hr.impls]
    · rw [History.callable?_implement, if_neg (by simp), hr.defaults]
  | none =>
    refine ⟨hr.classes, hr.owners, fun name type method => ?_, fun name method => ?_⟩
    · rw [History.callable?_implement, if_neg (by simp), hr.impls]
    · rw [History.callable?_implement]
      simp only [Table.get?_insert, Option.map_none, and_true]
      by_cases hkey : canonicalType typeclass = name
      · rw [if_pos hkey.symm, if_pos hkey, Option.bind_some, hget]
      · rw [if_neg (Ne.symm hkey), if_neg hkey, hr.defaults]

/-! ### Sequences of calls -/

theorem Faithful.admits_iff {r : Registry F} {h : History F} (hr : Faithful r h) (call : Call F) :
    (∃ r', r.attempt call = .ok r') ↔ h.Admits call := by
  cases call with
  | declare c =>
    simp only [attempt, addClass_eq_ok_iff, History.Admits, Table.contains, hr.classes]
    constructor
    · rintro ⟨-, hderives, hfree, -⟩
      exact ⟨hderives, fun d hd m hm hdm => hfree m hm d.name ((hr.owners m d.name).2 ⟨d, hd, hdm⟩)⟩
    · rintro ⟨hderives, hfree⟩
      refine ⟨_, hderives, fun m hm owner howner => ?_, rfl⟩
      obtain ⟨d, hd, hdm⟩ := (hr.owners m owner).1 howner
      obtain rfl := History.name_of_class? hd
      exact hfree d hd m hm hdm
  | implement typeclass type methods =>
    simp only [attempt, addImpl_eq_ok_iff, History.Admits, hr.classes]
    have htable (c : Typeclass) : (∃ t, methodTable c (canonicalType typeclass) [] methods = .ok t) ↔
        (∀ m ∈ methods, (c.method? m.1).map (·.arity) = some m.2.1) ∧ (methods.map (·.1)).Nodup := by
      rw [methodTable_eq_ok_iff]
      simp [Table.contains, Table.get?_nil]
    constructor
    · rintro ⟨-, c, table, hc, hok, -⟩
      exact ⟨c, hc, (htable c).1 ⟨table, hok⟩⟩
    · rintro ⟨c, hc, hmethods⟩
      obtain ⟨table, hok⟩ := (htable c).2 hmethods
      exact ⟨_, c, table, hc, hok, rfl⟩

theorem Faithful.record {s : Registry F × History F} (hs : Faithful s.1 s.2) (call : Call F) :
    Faithful (record s call).1 (record s call).2 := by
  rw [Registry.record]
  split
  next r hok =>
    cases call with
    | declare c => exact hs.declare hok
    | implement typeclass type methods => exact hs.implement hok
  next => exact hs

theorem faithful_run (calls : List (Call F)) : Faithful (run calls).1 (run calls).2 := by
  have hfold (calls : List (Call F)) (s : Registry F × History F) (hs : Faithful s.1 s.2) :
      Faithful (calls.foldl Registry.record s).1 (calls.foldl Registry.record s).2 := by
    induction calls generalizing s with
    | nil => exact hs
    | cons call calls ih => exact ih _ (hs.record call)
  exact hfold calls _ faithful_empty

theorem Faithful.ownerOf?_eq_some_iff {r : Registry F} {h : History F} (hr : Faithful r h) (m : String)
    (c : Typeclass) : r.ownerOf? m = some c ↔ h.class? c.name = some c ∧ c.Lists m := by
  rw [ownerOf?]
  constructor
  · intro hc
    obtain ⟨owner, howner, hc⟩ := Option.bind_eq_some_iff.1 hc
    obtain ⟨d, hd, hm⟩ := (hr.owners m owner).1 howner
    rw [hr.classes, hd, Option.some.injEq] at hc
    subst hc
    rw [History.name_of_class? hd]
    exact ⟨hd, hm⟩
  · rintro ⟨hc, hm⟩
    rw [(hr.owners m c.name).2 ⟨c, hc, hm⟩]
    exact (hr.classes c.name).trans hc

/-- After any sequence of calls, those refused included: a call that is refused changes nothing, and which
calls are refused follows from those accepted before; a method belongs to the typeclass whose current
declaration lists it, and there is at most one; and what runs for a type is what the latest implementation
for that type has for the method, or else the latest one for every type. -/
theorem run_follows_history (calls : List (Call F)) :
    (∀ call e, (run calls).1.attempt call = .error e → run (calls ++ [call]) = run calls) ∧
    (∀ call, (∃ r, (run calls).1.attempt call = .ok r) ↔ (run calls).2.Admits call) ∧
    (∀ m c, (run calls).1.ownerOf? m = some c ↔
      (run calls).2.class? c.name = some c ∧ c.Lists m) ∧
    (∀ m c d, (run calls).2.class? c.name = some c → (run calls).2.class? d.name = some d →
      c.Lists m → d.Lists m → c = d) ∧
    ∀ m t, (run calls).1.implFor? m t = ((run calls).1.ownerOf? m).bind fun c =>
      ((run calls).2.callable? c.name (some t) m).or ((run calls).2.callable? c.name none m) := by
  have hr := faithful_run calls
  refine ⟨fun call e he => ?_, hr.admits_iff, hr.ownerOf?_eq_some_iff, fun m c d hc hd hcm hdm => ?_,
    fun m t => ?_⟩
  · rw [run, List.foldl_append, ← run, List.foldl_cons, List.foldl_nil, record, he]
  · have hc := (hr.ownerOf?_eq_some_iff m c).2 ⟨hc, hcm⟩
    have hd := (hr.ownerOf?_eq_some_iff m d).2 ⟨hd, hdm⟩
    exact Option.some.inj (hc.symm.trans hd)
  · cases howner : (run calls).1.owners.get? m with
    | none => simp [implFor?, ownerOf?, howner]
    | some owner =>
      obtain ⟨c, hc, hm⟩ := (hr.owners m owner).1 howner
      have hname := History.name_of_class? hc
      have hclass : (run calls).1.classes.get? owner = some c := (hr.classes owner).trans hc
      simp [implFor?, ownerOf?, howner, hclass, hname, supplied?, ← hr.impls, ← hr.defaults,
        Option.orElse_eq_or]

def draw : Typeclass := ⟨"Draw", [⟨"render", 1⟩], []⟩

def print : Typeclass := ⟨"Print", [⟨"show", 1⟩], ["Show"]⟩

/-- A method moves to another typeclass, an implementation is for a type under its other name, and two calls
are refused. -/
def movedMethod : List (Call String) :=
  [.declare ⟨"Show", [⟨"show", 1⟩, ⟨"render", 1⟩], []⟩,
   .implement "Show" none [("show", 1, "any"), ("render", 1, "any")],
   .implement "Show" (some "Integer") [("show", 1, "int"), ("render", 1, "int")],
   .declare draw,
   .declare ⟨"Show", [⟨"show", 1⟩], []⟩,
   .implement "Show" (some "Int") [("show", 2, "wrong")],
   .declare draw]

theorem movedMethod_history :
    (∃ e, (run movedMethod).1.attempt (.declare print) = .error e) ∧
    run (movedMethod ++ [.declare print]) = run movedMethod ∧
    (run movedMethod).2.class? "Draw" = some draw ∧
    (run movedMethod).1.ownerOf? "render" = some draw ∧
    (∀ c, (run movedMethod).2.class? c.name = some c → c.Lists "render" → draw = c) ∧
    (run movedMethod).1.implFor? "show" "Int" = some "int" ∧
    (run movedMethod).1.implFor? "show" "Point" = some "any" ∧
    (run movedMethod).1.implFor? "render" "Int" = none := by
  obtain ⟨hrefused, -, howner, hunique, himpl⟩ := run_follows_history movedMethod
  have hprint : (run movedMethod).1.attempt (.declare print) =
      .error (.ambiguousMethod "show" "Show" "Print") := by rfl
  have hdraw : (run movedMethod).2.class? draw.name = some draw := by decide +kernel
  refine ⟨⟨_, hprint⟩, hrefused _ _ hprint, hdraw, (howner _ _).2 ⟨hdraw, by decide⟩,
    fun c hc hm => hunique _ _ _ hdraw hc (by decide) hm, ?_, ?_, ?_⟩
  · rw [himpl]
    decide +kernel
  · rw [himpl]
    decide +kernel
  · rw [himpl]
    decide +kernel

end Registry

end Sluice
