import Sluice.Eval.Basic
import Sluice.Value.Operators
import Sluice.Value.Path

/-! Assignment: the place that a target names, and the new value of its variable. -/
namespace Sluice.Runner

variable (r : Runner)

/-- The variable at the bottom of a target, and the steps from it to the place. -/
def place : Expr → Eval (Ident × List Step)
  | .var id => pure (id, [])
  | .paren inner _ => place inner
  | .index base key _ => do
    let (root, steps) ← place base
    let k ← r.expr key
    return (root, steps ++ [.index k key.span])
  | .member base names _ => do
    let (root, steps) ← place base
    return (root, steps ++ names.map .field)
  | e => .fault (.notAPlace e.span)

/-- The value that an assignment changes, or none when it makes a new variable. -/
def assigned (m : Machine) (root : Ident) (steps : List Step) (op : Option BinaryOp)
    (span : Span) : Except Fault (Option Value) :=
  match m.arena.find? m.current root.text with
  | some (_, b) =>
    if b.isConst then .error (.constReassigned root.text span) else .ok (some b.value)
  | none =>
    if op.isNone && steps.isEmpty then .ok none
    else .error (.undefinedVariable root.text root.span)

/-- `old` after an assignment of `rhs` to the place that `steps` lead to. -/
def updated (old : Value) (steps : List Step) (op : Option BinaryOp) (rhs : Value)
    (span : Span) : Except Fault Value := do
  let leaf ← match op with
    | some op => do Value.binary op (← old.along steps) rhs span
    | none => .ok rhs
  old.replaceAlong steps leaf

def reassign (root : Ident) (v : Value) (span : Span) : Eval Unit := fun m =>
  match m.arena.assign m.current root.text v with
  | .ok arena => .ok () { m with arena }
  | .error _ => .error (.fault (.notReassignable root.text span)) m

/-- An assignment. The variable is read before the right-hand side is evaluated. A plain
assignment to a name that is not bound makes a variable in the innermost scope. -/
def assign (target : Expr) (op : Option BinaryOp) (value : Expr) (span : Span) : Eval Unit := do
  let (root, steps) ← r.place target
  let old ← Eval.query (assigned · root steps op span)
  let rhs ← r.expr value
  match old with
  | none => Eval.define root.text rhs
  | some old => do
    let v ← Eval.of (updated old steps op rhs span)
    reassign root v span

end Sluice.Runner
