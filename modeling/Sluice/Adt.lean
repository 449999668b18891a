import Sluice.Ast
import Sluice.Table

/-! Declared data types, and the index from variant names to the enums that own them. -/
namespace Sluice

/-- `Integer` and `Double` are other names of `Int` and `Float`. -/
def canonicalType (name : String) : String :=
  match name with
  | "Integer" => "Int"
  | "Double" => "Float"
  | name => name

mutual

/-- A type as text, under canonical names. -/
def TypeExpr.text : TypeExpr → String
  | .named name [] _ => canonicalType name.text
  | .named name args _ => canonicalType name.text ++ "<" ++ ", ".intercalate (typeTexts args) ++ ">"
  | .arrow params result _ =>
    "fn(" ++ ", ".intercalate (typeTexts params) ++ ") -> " ++ result.text
  | .tuple elems _ => "(" ++ ", ".intercalate (typeTexts elems) ++ ")"

def typeTexts : List TypeExpr → List String
  | [] => []
  | t :: r => t.text :: typeTexts r

end

/-- A variant of an enum; `payload` holds the types of its values, if it carries any. -/
structure Variant where
  name : String
  payload : Option (List String)
deriving DecidableEq, Repr

namespace Variant

def arity (v : Variant) : Nat := (v.payload.map List.length).getD 0

def ofMember (m : EnumMember) : Variant :=
  ⟨m.name.text, m.payload.map fun
    | .tuple elems _ => typeTexts elems
    | t => [t.text]⟩

end Variant

inductive Adt.Shape where
  /-- Fields with their types as text. -/
  | struct (fields : List (String × String))
  | enum (variants : List Variant)
deriving DecidableEq, Repr

/-- A struct or an enum, with the typeclasses it derives. -/
structure Adt where
  name : String
  shape : Adt.Shape
  derives : List String
deriving DecidableEq, Repr

namespace Adt

def canonicalNames (names : List Ident) : List String := names.map fun i => canonicalType i.text

def ofStruct (d : StructDef) : Adt :=
  ⟨d.name.text, .struct (d.fields.map fun f => (f.name.text, f.type.text)),
    canonicalNames d.derives⟩

def ofEnum (d : EnumDef) : Adt :=
  ⟨d.name.text, .enum (d.members.map Variant.ofMember), canonicalNames d.derives⟩

def variants (a : Adt) : List Variant :=
  match a.shape with
  | .struct _ => []
  | .enum vs => vs

def variant? (a : Adt) (name : String) : Option Variant := a.variants.find? (·.name = name)

end Adt

/-- The types declared so far, and for each variant name the enum that owns it. -/
structure AdtTable where
  adts : Table String Adt := []
  owners : Table String String := []

namespace AdtTable

def get? (t : AdtTable) (name : String) : Option Adt := t.adts.get? name

/-- The index without the names that `old` owns. -/
def disown (owners : Table String String) (old : Adt) : Table String String :=
  old.variants.foldl
    (fun o v => if o.get? v.name = some old.name then o.erase v.name else o) owners

/-- Declare a type in place of any earlier one of its name. -/
def declare (t : AdtTable) (a : Adt) : AdtTable :=
  let owners := match t.adts.get? a.name with
    | some old => disown t.owners old
    | none => t.owners
  ⟨t.adts.insert a.name a, a.variants.foldl (fun o v => o.insert v.name a.name) owners⟩

/-- The enum that owns a variant name, and the variant. -/
def variant? (t : AdtTable) (name : String) : Option (Adt × Variant) := do
  let owner ← t.adts.get? (← t.owners.get? name)
  return (owner, ← owner.variant? name)

end AdtTable

end Sluice
