import Sluice.Decimal
import Sluice.Text.Quoted
import Sluice.Value

/-! The text of values. Strings and characters are quoted inside other values, and alone only
when asked for. -/
namespace Sluice.Value

mutual

/-- The text of a value, quoted when it is a string or a character and `nested`. -/
def text (nested : Bool) : Value → String
  | int n => toString n.toInt
  | float x => Decimal.Layout.program.write x
  | char c => if nested then Text.quotedChar c else c.toString
  | str s => if nested then Text.quoted s else s
  | bool b => if b then "true" else "false"
  | list vs => "[" ++ ", ".intercalate (texts vs) ++ "]"
  | tuple vs => "(" ++ ", ".intercalate (texts vs) ++ ")"
  | set [] => "Set()"
  | set vs => "\x7b" ++ ", ".intercalate (texts vs) ++ "\x7d"
  | map es => "\x7b" ++ ", ".intercalate (entryTexts es) ++ "\x7d"
  | just v => "Just(" ++ v.text true ++ ")"
  | nothing => "Nothing"
  | struct name fs => name ++ " \x7b " ++ ", ".intercalate (fieldTexts fs) ++ " \x7d"
  | variant _ name none => name
  | variant _ name (some (tuple vs)) => name ++ "(" ++ ", ".intercalate (texts vs) ++ ")"
  | variant _ name (some v) => name ++ "(" ++ v.text true ++ ")"
  | fn c => match c.name with
    | some name => "<fn " ++ name ++ ">"
    | none => "<fn>"
  | builtin b => "<builtin " ++ b.name ++ ">"
  | host name => "<host_fn " ++ name ++ ">"
  | constructor (.struct name _) => "<constructor " ++ name ++ ">"
  | constructor (.variant _ name _) => "<constructor " ++ name ++ ">"
  | method name => "<method " ++ name ++ ">"
  | module name => "<module " ++ name ++ ">"
  | unit => "()"

def texts : List Value → List String
  | [] => []
  | v :: r => v.text true :: texts r

def entryTexts : List (Value × Value) → List String
  | [] => []
  | (k, v) :: r => (k.text true ++ ": " ++ v.text true) :: entryTexts r

def fieldTexts : List (String × Value) → List String
  | [] => []
  | (name, v) :: r => (name ++ ": " ++ v.text true) :: fieldTexts r

end

/-- As `print` shows it. -/
def display (v : Value) : String := v.text false

/-- As it stands inside other values. -/
def repr (v : Value) : String := v.text true

theorem texts_eq_map (vs : List Value) : texts vs = vs.map repr := by
  induction vs with
  | nil => rfl
  | cons v vs ih => rw [texts, ih, List.map_cons, repr]

theorem entryTexts_eq_map (es : List (Value × Value)) :
    entryTexts es = es.map fun e => e.1.repr ++ ": " ++ e.2.repr := by
  induction es with
  | nil => rfl
  | cons e es ih => rw [entryTexts, ih, List.map_cons, repr, repr]

theorem fieldTexts_eq_map (fs : List (String × Value)) :
    fieldTexts fs = fs.map fun f => f.1 ++ ": " ++ f.2.repr := by
  induction fs with
  | nil => rfl
  | cons f fs ih => rw [fieldTexts, ih, List.map_cons, repr]

end Sluice.Value
