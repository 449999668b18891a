import Sluice.Adt

/-! Typeclasses and their implementations. A registry holds, for each method, something that
can be called: what that is does not matter here. -/
namespace Sluice

structure Method where
  name : String
  arity : Nat
deriving DecidableEq, Repr

structure Typeclass where
  name : String
  methods : List Method
  derives : List String
deriving DecidableEq, Repr

namespace Typeclass

def ofDef (d : TypeclassDef) : Typeclass :=
  ⟨d.name.text, d.methods.map fun m => ⟨m.name.text, m.params.length⟩,
    Adt.canonicalNames d.derives⟩

def method? (c : Typeclass) (name : String) : Option Method := c.methods.find? (·.name = name)

end Typeclass

inductive RegistrationError where
  | unknownTypeclass (name : String)
  | unknownMethod (typeclass method : String)
  | arityMismatch (typeclass method : String) (expected found : Nat)
  | duplicateMethod (typeclass method : String)
  | ambiguousMethod (method first second : String)
  | missingDerivedMethod (type typeclass method : String)
deriving DecidableEq, Repr

def RegistrationError.message : RegistrationError → String
  | unknownTypeclass name => s!"unknown typeclass `{name}`"
  | unknownMethod typeclass method =>
    s!"`{method}` is not a method of typeclass `{typeclass}`"
  | arityMismatch typeclass method expected found =>
    s!"`{typeclass}.{method}` takes {expected} parameter(s), impl has {found}"
  | duplicateMethod typeclass method =>
    s!"method `{method}` defined twice in impl of `{typeclass}`"
  | ambiguousMethod method first second =>
    s!"method `{method}` is declared by both `{first}` and `{second}`"
  | missingDerivedMethod type typeclass method =>
    s!"`{type}` derives `{typeclass}` but no impl provides `{method}`"

/-- The typeclasses, implementations and data types of a program; methods are of type `F`. -/
structure Registry (F : Type) where
  classes : Table String Typeclass := []
  /-- For a typeclass and a type, its methods. -/
  impls : Table (String × String) (Table String F) := []
  /-- For a typeclass, the methods that serve every type. -/
  defaults : Table String (Table String F) := []
  /-- For a method, the typeclass that declares it. -/
  owners : Table String String := []
  adts : AdtTable := {}

namespace Registry

variable {F : Type}

/-- The first method of `c` that another typeclass declares, with that typeclass. -/
def conflict? (r : Registry F) (c : Typeclass) : Option (String × String) :=
  c.methods.findSome? fun m =>
    match r.owners.get? m.name with
    | some owner => if owner = c.name then none else some (m.name, owner)
    | none => none

/-- Declare a typeclass, in place of any earlier one of its name. Those it derives have to be
declared, and no other typeclass may have one of its methods. -/
def addClass (r : Registry F) (c : Typeclass) : Except RegistrationError (Registry F) :=
  match c.derives.find? fun d => !r.classes.contains d && d ≠ c.name with
  | some d => .error (.unknownTypeclass d)
  | none =>
    match r.conflict? c with
    | some (m, owner) => .error (.ambiguousMethod m owner c.name)
    | none =>
      let old := ((r.classes.get? c.name).map (·.methods)).getD []
      let owners := old.foldl (fun o m => o.erase m.name) r.owners
      .ok { r with
        owners := c.methods.foldl (fun o m => o.insert m.name c.name) owners
        classes := r.classes.insert c.name c }

def ownerOf? (r : Registry F) (method : String) : Option Typeclass := do
  r.classes.get? (← r.owners.get? method)

/-- The table of an implementation of `c`: each of its methods fits the typeclass and comes
once. -/
def methodTable (c : Typeclass) (typeclass : String) (table : Table String F) :
    List (String × Nat × F) → Except RegistrationError (Table String F)
  | [] => .ok table
  | (name, arity, f) :: rest =>
    match c.method? name with
    | none => .error (.unknownMethod typeclass name)
    | some m =>
      if m.arity ≠ arity then .error (.arityMismatch typeclass name m.arity arity)
      else if table.contains name then .error (.duplicateMethod typeclass name)
      else methodTable c typeclass (table.insert name f) rest

/-- Register an implementation: for a type, or for every type when there is none. -/
def addImpl (r : Registry F) (typeclass : String) (type : Option String)
    (methods : List (String × Nat × F)) : Except RegistrationError (Registry F) :=
  let typeclass := canonicalType typeclass
  match r.classes.get? typeclass with
  | none => .error (.unknownTypeclass typeclass)
  | some c => do
    let table ← methodTable c typeclass [] methods
    return match type with
      | some t => { r with impls := r.impls.insert (typeclass, canonicalType t) table }
      | none => { r with defaults := r.defaults.insert typeclass table }

/-- What the implementation for a type supplies for a method of a typeclass, or else what the
implementation for every type does. -/
def supplied? (r : Registry F) (typeclass type method : String) : Option F :=
  ((r.impls.get? (typeclass, type)).bind (·.get? method)).orElse fun _ =>
    (r.defaults.get? typeclass).bind (·.get? method)

/-- What a call of `method` on a value of the given type runs. -/
def implFor? (r : Registry F) (method type : String) : Option F := do
  r.supplied? (← r.owners.get? method) type method

/-- The first method of a typeclass that nothing supplies for a type. -/
def missingMethod? (r : Registry F) (type : String) (c : Typeclass) (name : String) :
    Option String :=
  (c.methods.find? fun m => (r.supplied? name type m.name).isNone).map (·.name)

/-- The declared typeclasses that have not been looked at. -/
def unseen (r : Registry F) (seen : List String) : Nat :=
  r.classes.countP fun e => !seen.contains e.1

theorem unseen_cons_lt (r : Registry F) {seen : List String} {name : String} {c : Typeclass}
    (hc : r.classes.get? name = some c) (hs : name ∉ seen) :
    r.unseen (name :: seen) < r.unseen seen := by
  have hmem := Table.mem_of_get?_eq_some hc
  simp only [unseen]
  generalize r.classes = cs at hmem
  induction cs with
  | nil => simp at hmem
  | cons e cs ih =>
    have hle : (cs.countP fun e => !(name :: seen).contains e.1) ≤
        cs.countP fun e => !seen.contains e.1 := by
      apply List.countP_mono_left
      intro e _ he
      simp only [List.contains_cons, Bool.not_or, Bool.and_eq_true] at he
      exact he.2
    rcases List.mem_cons.1 hmem with h | h
    · subst h
      simp only [List.countP_cons]
      simp [hs]
      simpa using Nat.lt_succ_of_le hle
    · simp only [List.countP_cons]
      refine Nat.add_lt_add_of_lt_of_le (ih h) ?_
      by_cases he : e.1 ∈ seen <;> by_cases hn : e.1 = name <;> simp [he, hn]

/-- Look at the typeclasses `pending`, the next one first, and at those they derive. -/
def checkFrom (r : Registry F) (type : String) (seen pending : List String) :
    Except RegistrationError Unit :=
  match pending with
  | [] => .ok ()
  | name :: rest =>
    if _hs : name ∈ seen then r.checkFrom type seen rest
    else match _hc : r.classes.get? name with
      | none => .error (.unknownTypeclass name)
      | some c =>
        match r.missingMethod? type c name with
        | some m => .error (.missingDerivedMethod type name m)
        | none => r.checkFrom type (name :: seen) (c.derives.reverse ++ rest)
termination_by (r.unseen seen, pending.length)
decreasing_by
  · exact Prod.Lex.right _ (Nat.lt_succ_self _)
  · exact Prod.Lex.left _ _ (r.unseen_cons_lt _hc _hs)

/-- Check a `derives` clause: each typeclass it names, and each that those derive, is
implemented for the type. The last one named is looked at first. -/
def checkDerives (r : Registry F) (type : String) (derives : List String) :
    Except RegistrationError Unit := r.checkFrom type [] derives.reverse

end Registry

end Sluice
