import Sluice.Eval.Call
import Sluice.Value.Operators
import Sluice.Value.Path

/-! The rules for expressions. -/
namespace Sluice.Runner

variable (r : Runner)

/-- An operand of `&&` or `||`. -/
def truth (op : BinaryOp) (e : Expr) : Eval Bool := do
  match ← r.expr e with
  | .bool b => pure b
  | v => .fault (.notBool op v e.span)

/-- `&&` and `||` look at their right operand only if the left one does not decide. -/
def binaryExpr (lhs : Expr) (op : BinaryOp) (rhs : Expr) (span : Span) : Eval Value :=
  match op with
  | .and => do
    if ← r.truth op lhs then return .bool (← r.truth op rhs) else return .bool false
  | .or => do
    if ← r.truth op lhs then return .bool true else return .bool (← r.truth op rhs)
  | op => do
    let a ← r.expr lhs
    let b ← r.expr rhs
    Eval.of (Value.binary op a b span)

def range (lo hi : Int64) : List Value :=
  (List.range (hi.toInt - lo.toInt).toNat).map fun k => .int (lo + Int64.ofNat k)

def rangeExpr (lo hi : Expr) (span : Span) : Eval Value := do
  let a ← r.expr lo
  let b ← r.expr hi
  match a, b with
  | .int lo, .int hi => pure (.list (range lo hi))
  | a, b => .fault (.notRangeBounds a b span)

/-- The entries of a map as written; of equal keys the last value counts. -/
def mapEntries (entries : List (Value × Value)) :
    List (Expr × Expr) → Eval (List (Value × Value))
  | [] => pure entries
  | (k, v) :: rest => do
    let key ← r.expr k
    let value ← r.expr v
    mapEntries (Value.putEntry entries key value) rest

def exprRule : Expr → Eval Value
  | .lit l _ => pure (.ofLiteral l)
  | .var id => Eval.query (·.lookup id)
  | .placeholder span => Eval.query (·.placeholder span)
  | .paren inner _ => r.expr inner
  | .index base key span => do
    let b ← r.expr base
    let k ← r.expr key
    Eval.of (b.index k span)
  | .member base names _ => do
    let b ← r.expr base
    Eval.query (·.members b names)
  | .unary op operand span => do
    let v ← r.expr operand
    Eval.of (Value.unary op v span)
  | .binary lhs op rhs span => r.binaryExpr lhs op rhs span
  | .call callee args span => r.callExpr callee args span
  | .list items _ => do return .list (← r.exprs items)
  | .tuple elems _ => do return .tuple (← r.exprs elems)
  | .range lo hi span => r.rangeExpr lo hi span
  | .map entries _ => do return .map (← r.mapEntries [] entries)
  | .lambda params _ body _ => Eval.makeFn none params (.block body)
  | .compose stages .deferred _ => Eval.makeFn none [] (.pipeline stages)
  | .compose stages .immediate _ => r.runStages stages

end Sluice.Runner
