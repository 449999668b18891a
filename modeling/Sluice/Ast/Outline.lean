import Sluice.Json
import Sluice.Text.Quoted

/-! Outlines: trees of named parts, the form in which syntax trees are shown. -/
namespace Sluice

inductive Outline where
  | int (n : Int)
  | float (x : Float)
  | char (c : Char)
  | text (s : String)
  | flag (b : Bool)
  | absent
  | present (inner : Outline)
  | list (items : List Outline)
  | pair (fst snd : Outline)
  /-- A record of named fields. -/
  | record (name : String) (fields : List (String × Outline))
  /-- One of several alternatives, with its parts in order. -/
  | case (name : String) (parts : List Outline)
  /-- One of several alternatives, with named parts. -/
  | caseRecord (name : String) (fields : List (String × Outline))
deriving Inhabited

namespace Outline

mutual

/-- An outline over several lines, its inner lines indented by `margin`. -/
def pretty (margin : String) : Outline → String
  | int n => toString n
  | float x => Decimal.Layout.program.write x
  | char c => Text.quotedChar c
  | text s => Text.quoted s
  | flag b => if b then "true" else "false"
  | absent => "None"
  | present o =>
    "Some(\n" ++ margin ++ "    " ++ pretty (margin ++ "    ") o ++ ",\n" ++ margin ++ ")"
  | list [] => "[]"
  | list items => "[\n" ++ prettyItems (margin ++ "    ") items ++ margin ++ "]"
  | pair a b =>
    "(\n" ++ margin ++ "    " ++ pretty (margin ++ "    ") a ++ ",\n"
      ++ margin ++ "    " ++ pretty (margin ++ "    ") b ++ ",\n" ++ margin ++ ")"
  | case name [] => name
  | case name parts => name ++ "(\n" ++ prettyItems (margin ++ "    ") parts ++ margin ++ ")"
  | record name fields | caseRecord name fields =>
    name ++ " \x7b\n" ++ prettyFields (margin ++ "    ") fields ++ margin ++ "\x7d"

def prettyItems (margin : String) : List Outline → String
  | [] => ""
  | o :: r => margin ++ pretty margin o ++ ",\n" ++ prettyItems margin r

def prettyFields (margin : String) : List (String × Outline) → String
  | [] => ""
  | (name, o) :: r => margin ++ name ++ ": " ++ pretty margin o ++ ",\n" ++ prettyFields margin r

end

mutual

/-- An alternative becomes an object with its name as the only field, or just its name when it
has no parts. -/
def toJson : Outline → Json
  | int n => .int n
  | float x => .float x
  | char c => .str c.toString
  | text s => .str s
  | flag b => .bool b
  | absent => .null
  | present o => toJson o
  | list items => .arr (toJsonItems items)
  | pair a b => .arr [toJson a, toJson b]
  | case name [] => .str name
  | case name [o] => .obj [(name, toJson o)]
  | case name parts => .obj [(name, .arr (toJsonItems parts))]
  | record _ fields => .obj (toJsonFields fields)
  | caseRecord name fields => .obj [(name, .obj (toJsonFields fields))]

def toJsonItems : List Outline → List Json
  | [] => []
  | o :: r => toJson o :: toJsonItems r

def toJsonFields : List (String × Outline) → List (String × Json)
  | [] => []
  | (name, o) :: r => (name, toJson o) :: toJsonFields r

end

end Outline

end Sluice
