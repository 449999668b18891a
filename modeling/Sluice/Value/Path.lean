import Sluice.Fault
import Sluice.Value.Equality

/-! Elements and fields of values, and paths of them: reading and replacing what a path leads
to. -/
namespace Sluice

/-- One step from a value to a part of it. -/
inductive Step where
  | index (key : Value) (span : Span)
  | field (name : Ident)

namespace Value

/-- An index into something of the given length. -/
def inBounds (i : Int64) (length : Nat) (span : Span) : Except Fault Nat :=
  if 0 ≤ i.toInt ∧ i.toInt < length then .ok i.toInt.toNat
  else .error (.outOfBounds i.toInt length span)

def element (items : List Value) (i : Int64) (span : Span) : Except Fault Value := do
  let n ← inBounds i items.length span
  return items.getD n unit

def index (base key : Value) (span : Span) : Except Fault Value :=
  match base, key with
  | list items, int i => element items i span
  | tuple items, int i => element items i span
  | str s, int i => do
    let n ← inBounds i s.length span
    return (s.toList[n]?.map char).getD unit
  | map entries, key =>
    match valueAt? entries key with
    | some v => .ok v
    | none => .error (.noKey key span)
  | base, key => .error (.notIndexable base key span)

/-- What a loop over a value visits, in order. -/
def items (v : Value) (span : Span) : Except Fault (List Value) :=
  match v with
  | list vs | set vs | tuple vs => .ok vs
  | map es => .ok (es.map fun (k, v) => tuple [k, v])
  | str s => .ok (s.toList.map char)
  | v => .error (.notIterable v span)

/-- The part of a value that one step leads to. -/
def follow (v : Value) : Step → Except Fault Value
  | .index key span => v.index key span
  | .field name =>
    match v.field? name.text with
    | some x => .ok x
    | none => .error (.noFieldOnPath v.tag name)

def along (v : Value) : List Step → Except Fault Value
  | [] => .ok v
  | s :: rest => do (← v.follow s).along rest

/-- The fields with the first one of the given name replaced. -/
def setField (fields : List (String × Value)) (name : String) (v : Value) : List (String × Value) :=
  match fields with
  | [] => []
  | (n, x) :: r => if n = name then (n, v) :: r else (n, x) :: setField r name v

/-- The value with `leaf` in the place that a path leads to. A new key may end a path. -/
def replaceAlong (v : Value) (steps : List Step) (leaf : Value) : Except Fault Value :=
  match steps, v with
  | [], _ => .ok leaf
  | .index (int i) span :: rest, list items => do
    let n ← inBounds i items.length span
    return list (items.set n (← (items.getD n unit).replaceAlong rest leaf))
  | .index key span :: rest, map entries => do
    let child ← match valueAt? entries key, rest with
      | some x, _ => .ok x
      | none, [] => .ok unit
      | none, _ => .error (.noKey key span)
    return map (putEntry entries key (← child.replaceAlong rest leaf))
  | .field name :: rest, struct type fields =>
    match (struct type fields).field? name.text with
    | none => .error (.noField type name)
    | some x => do return struct type (setField fields name.text (← x.replaceAlong rest leaf))
  | .index _ span :: _, v => .error (.noElementToAssign v span)
  | .field name :: _, v => .error (.noFieldToAssign v name)
termination_by steps.length

end Value

end Sluice
