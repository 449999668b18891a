import Sluice.Adt
import Sluice.Value.Equality

/-! Matching values against patterns. -/
namespace Sluice.Pattern

/-- What a name in a pattern stands for: a variant without payload, or anything. -/
def matchName (adts : AdtTable) (name : String) (v : Value) : Option (List (String × Value)) :=
  match adts.variant? name with
  | some (_, decl) =>
    if decl.arity = 0 then
      match v with
      | .variant _ n none => if n = name then some [] else none
      | _ => none
    else some [(name, v)]
  | none => some [(name, v)]

mutual

/-- The names that a pattern binds in a value, from left to right; none if it does not match. -/
def bindings? (adts : AdtTable) : Pattern → Value → Option (List (String × Value))
  | .wildcard _, _ => some []
  | .name id, v => matchName adts id.text v
  | .literal l _, v => if Value.beq (.ofLiteral l) v then some [] else none
  | .nothing _, .nothing => some []
  | .just p _, .just v => bindings? adts p v
  | .tuple ps _, .tuple vs => if vs.length = ps.length then bindingsAll? adts ps vs else none
  | .tuple ps _, .unit => if ps.isEmpty then some [] else none
  | .variant head ps _, .variant _ n payload =>
    if n = head.text then
      match ps, payload with
      | [], none => some []
      | _ :: _, none => none
      | [p], some v => bindings? adts p v
      | ps, some (.tuple vs) => if vs.length = ps.length then bindingsAll? adts ps vs else none
      | _, some _ => none
    else none
  -- the fields of a struct may be given in order
  | .variant head ps _, .struct n fields =>
    if n = head.text ∧ fields.length = ps.length then
      bindingsAll? adts ps (fields.map (·.2))
    else none
  | .record head ps _, .struct n fields =>
    if n = head.text then bindingsFields? adts ps (.struct n fields) else none
  | _, _ => none

def bindingsAll? (adts : AdtTable) : List Pattern → List Value → Option (List (String × Value))
  | p :: ps, v :: vs => do return (← bindings? adts p v) ++ (← bindingsAll? adts ps vs)
  | _, _ => some []

def bindingsFields? (adts : AdtTable) :
    List (Ident × Pattern) → Value → Option (List (String × Value))
  | [], _ => some []
  | (field, p) :: r, v => do
    return (← bindings? adts p (← v.field? field.text)) ++ (← bindingsFields? adts r v)

end

end Sluice.Pattern
