import Sluice.Table
import Sluice.Value

/-! Scopes: the names bound in one block, and how the scope is held. -/
namespace Sluice

structure Binding where
  value : Value
  isConst : Bool := false
  isPub : Bool := false

/-- One scope. It lives while its block runs, and after that while something holds it: a handle
taken from outside, a scope under it, or a function made in it. What was taken while its slot was
empty or had another scope does not hold it. -/
structure Scope where
  parent : Option ScopeId
  /-- How many scopes were opened before it. -/
  number : Nat
  vars : Table String Binding := []
  /-- Whether its block is still running. -/
  isOpen : Bool := true
  /-- How many handles on it are held outside the arena. -/
  handles : Nat := 0
  /-- How many scopes hold it as their parent. -/
  children : Nat := 0
  /-- The `id` of the first function that was made in it. -/
  firstFn : Option Nat := none

/-- The scopes in which the functions inside a value were made. -/
def Value.scopes (v : Value) : List ScopeId := v.closures.map (·.scope)

namespace Scope

/-- The functions that the bindings refer to, as often as they do. -/
def functions (s : Scope) : List Closure := s.vars.flatMap fun (_, b) => b.value.closures

/-- The scopes in which the functions bound here were made. -/
def captures (s : Scope) : List ScopeId := s.vars.flatMap fun (_, b) => b.value.scopes

/-- The scopes to which this one leads: its parent and those of its functions. -/
def links (s : Scope) : List ScopeId := s.parent.toList ++ s.captures

/-- Note that the function with this `id` is made here. -/
def noteFn (id : Nat) (s : Scope) : Scope := { s with firstFn := some (min id (s.firstFn.getD id)) }

/-- Whether a function of this slot was made in this scope, and not before it was opened. -/
def made (s : Scope) (c : Closure) : Bool := s.firstFn.any (· ≤ c.id)

end Scope

end Sluice
