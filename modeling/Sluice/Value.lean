import Sluice.Ast

/-! The values that programs compute with. -/
namespace Sluice

/-- The slot of a scope in its arena. -/
abbrev ScopeId := Nat

inductive FnBody where
  | block (body : Block)
  /-- A composition that was bound to a name. -/
  | pipeline (stages : List Expr)

/-- A function with the scope it was made in. Functions are told apart by `id`. -/
structure Closure where
  id : Nat
  name : Option String
  params : List String
  body : FnBody
  scope : ScopeId

/-- Functions that the language itself supplies. -/
inductive Builtin where
  | just | set | len
deriving DecidableEq, Repr

def Builtin.name : Builtin → String
  | just => "Just"
  | set => "Set"
  | len => "len"

/-- What builds the values of a struct or of a variant. -/
inductive Constructor where
  | struct (name : String) (fields : List String)
  | variant (enumName name : String) (arity : Nat)
deriving DecidableEq, Repr

inductive Value where
  | int (n : Int64)
  | float (x : Float)
  | char (c : Char)
  | str (s : String)
  | bool (b : Bool)
  | list (items : List Value)
  /-- No element, or at least two. -/
  | tuple (elems : List Value)
  /-- No element twice, in the order of their first use. -/
  | set (elems : List Value)
  /-- No key twice, in the order of their first use. -/
  | map (entries : List (Value × Value))
  | just (v : Value)
  | nothing
  /-- Fields in the order of the declaration. -/
  | struct (name : String) (fields : List (String × Value))
  /-- One payload value, or a tuple of several. -/
  | variant (enumName name : String) (payload : Option Value)
  | fn (c : Closure)
  | builtin (b : Builtin)
  | host (name : String)
  | constructor (c : Constructor)
  /-- A method of a typeclass, which picks its implementation when called. -/
  | method (name : String)
  | module (name : String)
  | unit

namespace Value

instance : Inhabited Value := ⟨unit⟩

/-- The type by which methods pick an implementation. -/
def tag : Value → String
  | int _ => "Int"
  | float _ => "Float"
  | char _ => "Char"
  | str _ => "String"
  | bool _ => "Bool"
  | list _ => "List"
  | tuple _ => "Tuple"
  | set _ => "Set"
  | map _ => "HashMap"
  | just _ | nothing => "Option"
  | struct name _ => name
  | variant enumName _ _ => enumName
  | fn _ | builtin _ | host _ | constructor _ | method _ => "Function"
  | module _ => "Module"
  | unit => "Unit"

def ofLiteral : Literal → Value
  | .int n => int n
  | .float x => float x
  | .char c => char c
  | .str s => str s
  | .bool b => bool b
  | .null => unit

def field? : Value → String → Option Value
  | struct _ fields, name => (fields.find? (·.1 = name)).map (·.2)
  | _, _ => none

mutual

/-- The functions inside a value, as often as they occur. -/
def closures : Value → List Closure
  | fn c => [c]
  | list vs | tuple vs | set vs => closuresAll vs
  | map es => closuresEntries es
  | just v => v.closures
  | struct _ fs => closuresFields fs
  | variant _ _ (some v) => v.closures
  | _ => []

def closuresAll : List Value → List Closure
  | [] => []
  | v :: r => v.closures ++ closuresAll r

def closuresEntries : List (Value × Value) → List Closure
  | [] => []
  | (k, v) :: r => k.closures ++ v.closures ++ closuresEntries r

def closuresFields : List (String × Value) → List Closure
  | [] => []
  | (_, v) :: r => v.closures ++ closuresFields r

end

end Value

end Sluice
