import Sluice.Machine

/-! How programs run: what a step can end in, and the brackets that put the state back. -/
namespace Sluice

inductive Interrupt where
  | fault (f : Fault)
  /-- The program asked to end. -/
  | exit (code : Int)
  /-- More steps would be needed than were allowed. -/
  | outOfFuel
deriving DecidableEq, Repr

/-- Computations on the state of a program. What they did before an interrupt stays done. -/
abbrev Eval := EStateM Interrupt Machine

inductive Flow where
  | value (v : Value)
  /-- On its way to the end of the function. -/
  | ret (v : Value) (span : Span)
  /-- On its way to the end of the loop. -/
  | leave (span : Span)
  /-- On its way to the next round of the loop. -/
  | next (span : Span)

namespace Eval

@[inline] def fault (f : Fault) : Eval α := throw (.fault f)

/-- A computation that needs no state. -/
@[inline] def of (x : Except Fault α) : Eval α := fun m =>
  match x with
  | .ok a => .ok a m
  | .error f => .error (.fault f) m

@[inline] def query (f : Machine → Except Fault α) : Eval α := fun m => of (f m) m

def define (name : String) (v : Value) : Eval Unit := modify fun m => m.define name v

def makeFn (name : Option String) (params : List Param) (body : FnBody) : Eval Value :=
  modifyGet fun m => m.makeFn name params body

/-- Run in a new scope under `parent`. Whatever happens, the scope is closed afterwards and the
innermost scope is again what it was. -/
@[inline] def inScope (parent : ScopeId) (x : Eval α) : Eval α := fun m =>
  let saved := m.current
  let m := m.enter parent
  let scope := m.current
  match x m with
  | .ok a m => .ok a (m.exit scope saved)
  | .error e m => .error e (m.exit scope saved)

@[inline] def inBlock (x : Eval α) : Eval α := fun m => inScope m.current x m

/-- Run in the scope of a new module. That scope stays open for good. -/
@[inline] def inModule (name : String) (x : Eval α) : Eval α := fun m =>
  let saved := m.current
  let m := m.enter m.root
  let m := { m with modules := m.modules.insert name m.current }
  match x m with
  | .ok a m => .ok a { m with current := saved }
  | .error e m => .error e { m with current := saved }

/-- Run one call deeper, unless that is too deep. -/
@[inline] def deeper (span : Span) (x : Eval α) : Eval α := fun m =>
  let saved := m.depth
  if m.maxDepth ≤ saved then .error (.fault (.callTooDeep m.maxDepth span)) m
  else
    match x { m with depth := saved + 1 } with
    | .ok a m => .ok a { m with depth := saved }
    | .error e m => .error e { m with depth := saved }

end Eval

/-- How the parts of a program run. The rules for each kind of expression and statement are
written over this, so that none of them is recursive through the others. -/
structure Runner where
  expr : Expr → Eval Value
  stmt : Stmt → Eval Flow
  call : (f : Value) → (args : List Value) → Span → Eval Value
  body : Closure → (args : List Value) → Span → Eval Value
  /-- How many rounds a loop may make. -/
  rounds : Nat

end Sluice
