import Sluice.Decimal

/-! JSON documents with fields in the order given, written on one line or over several. -/
namespace Sluice

inductive Json where
  | null
  | bool (b : Bool)
  | int (n : Int)
  | float (x : Float)
  | str (s : String)
  | arr (items : List Json)
  | obj (fields : List (String × Json))
deriving Inhabited

namespace Json

/-- How `c` is written in a JSON string. -/
def escape (c : Char) : List Char :=
  match c with
  | '"' => ['\\', '"']
  | '\\' => ['\\', '\\']
  | '\x08' => ['\\', 'b']
  | '\x0c' => ['\\', 'f']
  | '\n' => ['\\', 'n']
  | '\r' => ['\\', 'r']
  | '\t' => ['\\', 't']
  | c =>
    if c.toNat < 32 then
      '\\' :: 'u' :: '0' :: '0' :: Nat.digitChar (c.toNat / 16) :: [Nat.digitChar (c.toNat % 16)]
    else [c]

def quoted (s : String) : String := String.ofList ('"' :: s.toList.flatMap escape ++ ['"'])

/-- A number; those that are not finite have no JSON form. -/
def floatText (x : Float) : String :=
  match Binary64.magnitude x with
  | .finite _ _ => Decimal.Layout.json.write x
  | _ => "null"

mutual

/-- The text of a document, its inner lines indented by `margin`. -/
def pretty (margin : String) : Json → String
  | null => "null"
  | bool b => if b then "true" else "false"
  | int n => toString n
  | float x => floatText x
  | str s => quoted s
  | arr [] => "[]"
  | arr items => "[" ++ prettyItems "\n" (margin ++ "  ") items ++ "\n" ++ margin ++ "]"
  | obj [] => "\x7b\x7d"
  | obj fields =>
    "\x7b" ++ prettyFields "\n" (margin ++ "  ") fields ++ "\n" ++ margin ++ "\x7d"

def prettyItems (before margin : String) : List Json → String
  | [] => ""
  | j :: r => before ++ margin ++ pretty margin j ++ prettyItems ",\n" margin r

def prettyFields (before margin : String) : List (String × Json) → String
  | [] => ""
  | (name, j) :: r =>
    before ++ margin ++ quoted name ++ ": " ++ pretty margin j ++ prettyFields ",\n" margin r

end

mutual

/-- The text of a document on one line. -/
def compact : Json → String
  | null => "null"
  | bool b => if b then "true" else "false"
  | int n => toString n
  | float x => floatText x
  | str s => quoted s
  | arr items => "[" ++ ",".intercalate (compactItems items) ++ "]"
  | obj fields => "\x7b" ++ ",".intercalate (compactFields fields) ++ "\x7d"

def compactItems : List Json → List String
  | [] => []
  | j :: r => compact j :: compactItems r

def compactFields : List (String × Json) → List String
  | [] => []
  | (name, j) :: r => (quoted name ++ ":" ++ compact j) :: compactFields r

end

end Json

end Sluice
