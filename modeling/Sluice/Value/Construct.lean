import Sluice.Fault
import Sluice.Value.Equality

/-! Calls that build a value out of their arguments and do nothing else. -/
namespace Sluice

/-- The number of elements of a collection, or of characters of a string. -/
def Value.size (v : Value) (span : Span) : Except Fault Value :=
  match v with
  | .str s => .ok (.int (Int64.ofNat s.length))
  | .list vs | .tuple vs | .set vs => .ok (.int (Int64.ofNat vs.length))
  | .map es => .ok (.int (Int64.ofNat es.length))
  | v => .error (.notACollection v span)

/-- Call a builtin function. `Set` takes its elements as a list or as arguments. -/
def Builtin.apply (b : Builtin) (args : List Value) (span : Span) : Except Fault Value :=
  match b, args with
  | .just, [v] => .ok (.just v)
  | .set, [.list items] => .ok (Value.setOf items)
  | .set, args => .ok (Value.setOf args)
  | .len, [v] => v.size span
  | b, args => .error (.notOneArg b.name args.length span)

/-- Build a struct or a variant. A variant of several values keeps them as a tuple. -/
def Constructor.build (c : Constructor) (args : List Value) (span : Span) : Except Fault Value :=
  match c with
  | .struct name fields =>
    if args.length = fields.length then .ok (.struct name (fields.zip args))
    else .error (.wrongFieldCount name fields.length args.length span)
  | .variant enumName name arity =>
    if args.length = arity then
      .ok (.variant enumName name (some (match args with
        | [v] => v
        | vs => .tuple vs)))
    else .error (.wrongArgCount name arity args.length span)

end Sluice
