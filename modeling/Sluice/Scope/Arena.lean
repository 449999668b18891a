import Sluice.Scope

/-! The arena of all scopes of a run. A scope is freed when its block has ended and nothing
holds it. A function that is bound in the scope it was made in holds that scope for ever, so
scopes that are held after their block has ended are put on a list, and from time to time those
of them that only scopes of the list can reach are freed. -/
namespace Sluice

abbrev Marks := Array Bool

namespace Marks

def has (m : Marks) (s : ScopeId) : Bool := m[s]?.getD false

def add (m : Marks) (s : ScopeId) : Marks := m.setIfInBounds s true

def addAll (m : Marks) (ss : List ScopeId) : Marks := ss.foldl add m

end Marks

/-- Counts of numbers. -/
abbrev Tally := Array Nat

namespace Tally

def times (t : Tally) (i : Nat) : Nat := t[i]?.getD 0

/-- How often each number below `n` comes in a list. -/
def ofList (n : Nat) (is : List Nat) : Tally :=
  is.foldl (fun t i => t.modify i (· + 1)) (Array.replicate n 0)

end Tally

/-- The functions of a list, each of them once. All have an `id` below `n`. -/
def Closure.distinct (n : Nat) (cs : List Closure) : List Closure :=
  (cs.foldl (fun (seen, found) c =>
    if Marks.has seen c.id then (seen, found) else (Marks.add seen c.id, c :: found))
    (Array.replicate n false, [])).2

/-- The sets that a sweep goes through. -/
inductive Visit where
  /-- The candidates, when their holds are counted. -/
  | counted
  /-- The functions that the candidates refer to. -/
  | functions
  /-- The candidates, when the roots are picked. -/
  | roots
  /-- The candidates, when they are freed or kept. -/
  | freed
  /-- The bindings of a scope, when its functions are counted. -/
  | bindings (s : ScopeId)
  /-- The bindings of a scope, when it is followed. -/
  | followed (s : ScopeId)

/-- The order in which a sweep goes through each set. It is not for the sweep to choose. -/
structure SweepOrder where
  arrange : Visit → (α : Type) → List α → List α
  perm : ∀ v α (l : List α), (arrange v α l).Perm l

namespace SweepOrder

/-- Every set in the order in which it is kept. -/
def plain : SweepOrder := ⟨fun _ _ l => l, fun _ _ _ => .refl _⟩

/-- A scope with its bindings in order. -/
def scope (o : SweepOrder) (v : Visit) (sc : Scope) : Scope :=
  { sc with vars := o.arrange v _ sc.vars }

end SweepOrder

structure Arena where
  slots : Array (Option Scope) := #[]
  /-- Empty slots, the one emptied last first. -/
  free : List ScopeId := []
  /-- Scopes that were held when their block ended; a slot may be listed after it was freed, and
  twice. -/
  detached : Array ScopeId := #[]
  /-- The length of `detached` at which it is swept. -/
  nextSweep : Nat := 64
  /-- The `id` of the next function. -/
  nextClosure : Nat := 0
  /-- How many scopes were opened. -/
  opened : Nat := 0

inductive AssignError where
  | undefined | const
deriving DecidableEq, Repr

namespace Arena

/-- The length of the list of detached scopes that is always tolerated. -/
def minSweep : Nat := 64

def scope? (a : Arena) (s : ScopeId) : Option Scope := a.slots[s]?.join

def modify (a : Arena) (s : ScopeId) (f : Scope → Scope) : Arena :=
  { a with slots := a.slots.modify s (Option.map f) }

def live (a : Arena) : Nat := a.slots.countP Option.isSome

/-- Open a scope under `parent`. It holds the scope in that slot, if there is one. -/
def push (a : Arena) (parent : Option ScopeId) : ScopeId × Arena :=
  let sc : Scope := { parent, number := a.opened }
  let a := match parent with
    | some p => a.modify p fun sc => { sc with children := sc.children + 1 }
    | none => a
  let a := { a with opened := a.opened + 1 }
  match a.free with
  | s :: rest => (s, { a with slots := a.slots.setIfInBounds s (some sc), free := rest })
  | [] => (a.slots.size, { a with slots := a.slots.push (some sc) })

/-- Take a handle on the scope in a slot, if there is one. -/
def hold (a : Arena) (s : ScopeId) : Arena :=
  a.modify s fun sc => { sc with handles := sc.handles + 1 }

/-- Give back a handle on the scope in a slot. -/
def unhold (a : Arena) (s : ScopeId) : Arena :=
  a.modify s fun sc => { sc with handles := sc.handles - 1 }

def makeClosure (a : Arena) (s : ScopeId) (name : Option String) (params : List String)
    (body : FnBody) : Closure × Arena :=
  let c : Closure := ⟨a.nextClosure, name, params, body, s⟩
  (c, { a.modify s (·.noteFn a.nextClosure) with nextClosure := a.nextClosure + 1 })

/-! ### Freeing -/

/-- Whether some function made in the scope `sc` in slot `s` can still be reached: it is bound in a
scope or lies in a value held outside. -/
def hasClosure (a : Arena) (outside : List Value) (s : ScopeId) (sc : Scope) : Bool :=
  let holds (c : Closure) : Bool := c.scope = s && sc.made c
  outside.any (·.closures.any holds) || a.slots.any fun slot => slot.any (·.functions.any holds)

/-- Whether something holds the scope `sc` in slot `s`. -/
def isHeld (a : Arena) (outside : List Value) (s : ScopeId) (sc : Scope) : Bool :=
  sc.children > 0 || sc.handles > 0 || (sc.firstFn.isSome && a.hasClosure outside s sc)

/-- Empty a slot. Its scope held the one in its parent's slot if that one is older. -/
def vacate (a : Arena) (s : ScopeId) : Arena :=
  match a.scope? s with
  | none => a
  | some sc =>
    let a := { a with slots := a.slots.setIfInBounds s none, free := s :: a.free }
    match sc.parent with
    | some p => a.modify p fun sp =>
      if sp.number < sc.number then { sp with children := sp.children - 1 } else sp
    | none => a

/-- Free a scope, and then each ancestor whose block has ended and that nothing holds any more;
at most `fuel` of them. -/
def freeUpward (outside : List Value) : (fuel : Nat) → Arena → ScopeId → Arena
  | 0, a, _ => a
  | fuel + 1, a, s =>
    match a.scope? s with
    | none => a
    | some sc =>
      let a := a.vacate s
      match sc.parent with
      | none => a
      | some p =>
        match a.scope? p with
        | none => a
        | some sp => if !sp.isOpen && !a.isHeld outside p sp then freeUpward outside fuel a p else a

def isClosed (a : Arena) (s : ScopeId) : Bool := (a.scope? s).any (!·.isOpen)

def noMarks (a : Arena) : Marks := Array.replicate a.slots.size false

/-- The detached scopes that are still there. -/
def candidates (a : Arena) : Marks :=
  a.detached.foldl (fun m s => if a.isClosed s then m.add s else m) a.noMarks

def functionsIn (a : Arena) (s : ScopeId) : List Closure :=
  ((a.scope? s).map Scope.functions).getD []

/-- All references to functions: those in bindings and those in values outside. -/
def references (a : Arena) (outside : List Value) : List Closure :=
  outside.flatMap Value.closures ++ (List.range a.slots.size).flatMap a.functionsIn

def tally (a : Arena) (refs : List Closure) : Tally :=
  .ofList a.nextClosure (refs.map (·.id))

/-- Whether a function holds the scope that is in its slot. -/
def isMade (a : Arena) (c : Closure) : Bool := (a.scope? c.scope).any (·.made c)

/-- How many functions of `refs` hold each scope. -/
def functionHolds (a : Arena) (refs : List Closure) : Tally :=
  .ofList a.slots.size (((Closure.distinct a.nextClosure refs).filter a.isMade).map (·.scope))

/-- How many holds there are on the scope in a slot, when `fns` counts those of functions. -/
def holds (a : Arena) (fns : Tally) (s : ScopeId) : Nat :=
  match a.scope? s with
  | none => 0
  | some sc => sc.handles + sc.children + fns.times s

/-- The links to scopes in `cand` that come from scopes in `cand`: those of the scopes under
them, and of the functions to which nothing else refers. `slots` lists the scopes in `cand`,
and `total` counts all references to each function. -/
def innerHolds (a : Arena) (o : SweepOrder) (total : Tally) (cand : Marks)
    (slots : List ScopeId) : Tally :=
  let parents := slots.filterMap fun s => (a.scope? s).bind (·.parent)
  let refs := slots.flatMap fun s =>
    ((a.scope? s).map fun sc => (o.scope (.bindings s) sc).functions).getD []
  let seen := a.tally refs
  let fns := (o.arrange .functions _ (Closure.distinct a.nextClosure refs)).filter fun c =>
    seen.times c.id = total.times c.id
  .ofList a.slots.size ((parents ++ fns.map (·.scope)).filter cand.has)

/-- Mark a candidate and put it on the list of those to follow, unless it has a mark. -/
def enqueue (cand : Marks) (work : List ScopeId × Marks) (t : ScopeId) : List ScopeId × Marks :=
  if cand.has t && !work.2.has t then (t :: work.1, work.2.add t) else work

/-- Mark all that can be reached inside `cand` from `pending`; at most `fuel` steps. -/
def reach (a : Arena) (o : SweepOrder) (cand : Marks) :
    (fuel : Nat) → List ScopeId → Marks → Marks
  | 0, _, reached => reached
  | _, [], reached => reached
  | fuel + 1, s :: pending, reached =>
    let links := ((a.scope? s).map fun sc => (o.scope (.followed s) sc).links).getD []
    let (pending, reached) := links.foldl (enqueue cand) (pending, reached)
    a.reach o cand fuel pending reached

def candidateSlots (a : Arena) : List ScopeId :=
  (List.range a.slots.size).filter a.candidates.has

/-- The candidates with more holds on them than links from candidates. -/
def roots (a : Arena) (o : SweepOrder) (outside : List Value) : List ScopeId :=
  let refs := a.references outside
  let inner := a.innerHolds o (a.tally refs) a.candidates (o.arrange .counted _ a.candidateSlots)
  let fns := a.functionHolds refs
  (o.arrange .roots _ a.candidateSlots).filter fun s => inner.times s < a.holds fns s

/-- The candidates that a sweep keeps: the roots and what they reach. -/
def survivors (a : Arena) (o : SweepOrder) (outside : List Value) : Marks :=
  let roots := a.roots o outside
  a.reach o a.candidates a.slots.size roots (a.noMarks.addAll roots)

/-- Free the detached scopes that only detached scopes can reach. -/
def sweepBy (a : Arena) (o : SweepOrder) (outside : List Value) : Arena :=
  let survivors := a.survivors o outside
  let (kept, garbage) := (o.arrange .freed _ a.candidateSlots).partition survivors.has
  let a := garbage.foldl vacate a
  { a with detached := kept.toArray, nextSweep := max minSweep (2 * kept.length) }

def sweep (a : Arena) (outside : List Value) : Arena := a.sweepBy .plain outside

/-- Close a scope. It is freed unless something holds it; `outside` are the values held outside
the arena. -/
def releaseBy (a : Arena) (o : SweepOrder) (outside : List Value) (s : ScopeId) : Arena :=
  match a.scope? s with
  | none => a
  | some sc =>
    let a := a.modify s fun sc => { sc with isOpen := false }
    if a.isHeld outside s sc then
      let a := { a with detached := a.detached.push s }
      if a.nextSweep ≤ a.detached.size then a.sweepBy o outside else a
    else freeUpward outside a.slots.size a s

def release (a : Arena) (outside : List Value) (s : ScopeId) : Arena :=
  a.releaseBy .plain outside s

/-! ### Names -/

def define (a : Arena) (s : ScopeId) (name : String) (b : Binding) : Arena :=
  a.modify s fun sc => { sc with vars := sc.vars.insert name b }

/-- The binding of a name in the scope itself. -/
def local? (a : Arena) (s : ScopeId) (name : String) : Option Binding :=
  (a.scope? s).bind (·.vars.get? name)

/-- Look for a name in `s` and outward, in at most `fuel` scopes. Where scopes were opened under empty
slots, their parents can form a cycle: a search that comes into one and never finds the name has no end,
and here it finds nothing. -/
def findFrom (a : Arena) (name : String) : (fuel : Nat) → ScopeId → Option (ScopeId × Binding)
  | 0, _ => none
  | fuel + 1, s =>
    match a.scope? s with
    | none => none
    | some sc =>
      match sc.vars.get? name with
      | some b => some (s, b)
      | none =>
        match sc.parent with
        | some p => findFrom a name fuel p
        | none => none

def find? (a : Arena) (s : ScopeId) (name : String) : Option (ScopeId × Binding) :=
  a.findFrom name a.slots.size s

def lookup? (a : Arena) (s : ScopeId) (name : String) : Option Value :=
  (a.find? s name).map (·.2.value)

def assign (a : Arena) (s : ScopeId) (name : String) (v : Value) : Except AssignError Arena :=
  match a.find? s name with
  | none => .error .undefined
  | some (owner, b) =>
    if b.isConst then .error .const else .ok (a.define owner name { b with value := v })

def exports (a : Arena) (s : ScopeId) : List (String × Value) :=
  let vars := ((a.scope? s).map (·.vars)).getD []
  ((vars.filter (·.2.isPub)).map fun (n, b) => (n, b.value)).mergeSort fun x y => !(y.1 < x.1)

end Arena

end Sluice
