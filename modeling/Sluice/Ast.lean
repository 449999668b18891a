import Sluice.Span

/-! Syntax trees of modules: types, patterns, expressions, statements and declarations. Every
node keeps the span it was read from. -/
namespace Sluice

structure Ident where
  text : String
  span : Span
deriving DecidableEq, Repr, Inhabited

/-- A type as written; types are not checked. -/
inductive TypeExpr where
  /-- `Int`, `List<Int>` -/
  | named (name : Ident) (args : List TypeExpr) (span : Span)
  /-- `fn(A, B) -> R` -/
  | arrow (params : List TypeExpr) (result : TypeExpr) (span : Span)
  | tuple (elems : List TypeExpr) (span : Span)
deriving Repr, Inhabited

def TypeExpr.span : TypeExpr → Span
  | .named _ _ s | .arrow _ _ s | .tuple _ s => s

structure Param where
  name : Ident
  type : Option TypeExpr
  span : Span
deriving Repr, Inhabited

inductive Literal where
  | int (value : Int64)
  | float (value : Float)
  | char (value : Char)
  | str (value : String)
  | bool (value : Bool)
  | null
deriving Repr, Inhabited

inductive UnaryOp where
  /-- `!`, logical -/
  | not
  /-- `not`, bitwise on integers and logical on truth values -/
  | bitNot
  | neg
deriving DecidableEq, Repr, Inhabited

inductive BinaryOp where
  | or | and
  | eq | ne | lt | le | gt | ge
  | add | sub | mul | div | rem | pow
  | bitAnd | bitOr | bitXor | shl | shr
deriving DecidableEq, Repr, Inhabited

def UnaryOp.sign : UnaryOp → String
  | .not => "!"
  | .bitNot => "not"
  | .neg => "-"

def BinaryOp.sign : BinaryOp → String
  | .or => "||" | .and => "&&"
  | .eq => "==" | .ne => "!=" | .lt => "<" | .le => "<=" | .gt => ">" | .ge => ">="
  | .add => "+" | .sub => "-" | .mul => "*" | .div => "/" | .rem => "%" | .pow => "^"
  | .bitAnd => "and" | .bitOr => "or" | .bitXor => "xor" | .shl => "shiftl" | .shr => "shiftr"

inductive Pattern where
  | wildcard (span : Span)
  /-- Binds the whole value, unless the name is that of a variant without payload. -/
  | name (id : Ident)
  | literal (value : Literal) (span : Span)
  | nothing (span : Span)
  | just (inner : Pattern) (span : Span)
  /-- `Circle(r)`, `Rect(w, h)` -/
  | variant (name : Ident) (fields : List Pattern) (span : Span)
  /-- `Point { x, y: 0 }` -/
  | record (name : Ident) (fields : List (Ident × Pattern)) (span : Span)
  | tuple (elems : List Pattern) (span : Span)
deriving Repr, Inhabited

def Pattern.span : Pattern → Span
  | .name id => id.span
  | .wildcard s | .literal _ s | .nothing s | .just _ s | .variant _ _ s | .record _ _ s
  | .tuple _ s => s

/-- Whether a composition runs where it stands or becomes a function. -/
inductive ComposeMode where
  | immediate | deferred
deriving DecidableEq, Repr, Inhabited

structure FieldDef where
  name : Ident
  type : TypeExpr
deriving Repr, Inhabited

structure StructDef where
  name : Ident
  fields : List FieldDef
  derives : List Ident
  span : Span
deriving Repr, Inhabited

structure EnumMember where
  name : Ident
  payload : Option TypeExpr
deriving Repr, Inhabited

structure EnumDef where
  name : Ident
  members : List EnumMember
  derives : List Ident
  span : Span
deriving Repr, Inhabited

/-- A method that a typeclass requires: `fn show(self) -> String`. -/
structure MethodSig where
  name : Ident
  params : List Param
  result : Option TypeExpr
deriving Repr, Inhabited

structure TypeclassDef where
  name : Ident
  methods : List MethodSig
  derives : List Ident
  span : Span
deriving Repr, Inhabited

mutual

inductive Expr where
  | lit (value : Literal) (span : Span)
  | var (id : Ident)
  /-- `_` inside a stage of a composition -/
  | placeholder (span : Span)
  | index (base : Expr) (key : Expr) (span : Span)
  | member (base : Expr) (names : List Ident) (span : Span)
  | unary (op : UnaryOp) (operand : Expr) (span : Span)
  | call (callee : Expr) (args : List Expr) (span : Span)
  | binary (lhs : Expr) (op : BinaryOp) (rhs : Expr) (span : Span)
  | list (items : List Expr) (span : Span)
  /-- `[lo..hi]`, without `hi` -/
  | range (lo : Expr) (hi : Expr) (span : Span)
  | map (entries : List (Expr × Expr)) (span : Span)
  | tuple (elems : List Expr) (span : Span)
  | lambda (params : List Param) (result : Option TypeExpr) (body : Block) (span : Span)
  | compose (stages : List Expr) (mode : ComposeMode) (span : Span)
  | paren (inner : Expr) (span : Span)

inductive Stmt where
  | var (name : Ident) (type : Option TypeExpr) (isConst isPub : Bool) (value : Expr) (span : Span)
  /-- `op` is the operator of a compound assignment. -/
  | assign (target : Expr) (op : Option BinaryOp) (value : Expr) (span : Span)
  | fn (decl : FnDecl)
  | struct (decl : StructDef)
  | enum (decl : EnumDef)
  | typeclass (decl : TypeclassDef)
  | impl (decl : ImplDef)
  | forIn (pat : Pattern) (iter : Expr) (body : Block) (span : Span)
  | cond (branches : List (Expr × Block)) (otherwise : Option Block) (span : Span)
  | loop (test : Expr) (body : Block) (span : Span)
  | select (scrutinee : Expr) (arms : List MatchArm) (span : Span)
  | use (source : Ident) (names : Option (List Ident)) (span : Span)
  | submodule (name : Ident) (body : Block) (span : Span)
  | ret (value : Option Expr) (span : Span)
  | leave (span : Span)
  | next (span : Span)
  | expr (value : Expr) (span : Span)

inductive ArmBody where
  | expr (value : Expr)
  | block (value : Block)

structure Block where
  stmts : List Stmt
  span : Span

structure FnDecl where
  name : Ident
  params : List Param
  result : Option TypeExpr
  body : Block
  isPub : Bool
  span : Span

/-- `target` is `none` for the implementation that serves every type. -/
structure ImplDef where
  typeclass : Ident
  target : Option Ident
  methods : List FnDecl
  span : Span

structure MatchArm where
  pat : Pattern
  body : ArmBody
  span : Span

end

instance : Inhabited Expr := ⟨.placeholder default⟩
instance : Inhabited Block := ⟨⟨[], default⟩⟩

structure Module where
  name : String
  body : Block
  span : Span

def Expr.span : Expr → Span
  | .var id => id.span
  | .lit _ s | .placeholder s | .index _ _ s | .member _ _ s | .unary _ _ s | .call _ _ s
  | .binary _ _ _ s | .list _ s | .range _ _ s | .map _ s | .tuple _ s | .lambda _ _ _ s
  | .compose _ _ s | .paren _ s => s

def ArmBody.span : ArmBody → Span
  | .expr e => e.span
  | .block b => b.span

def Stmt.span : Stmt → Span
  | .fn d => d.span
  | .struct d => d.span
  | .enum d => d.span
  | .typeclass d => d.span
  | .impl d => d.span
  | .var _ _ _ _ _ s | .assign _ _ _ s | .forIn _ _ _ s | .cond _ _ s | .loop _ _ s
  | .select _ _ s | .use _ _ s | .submodule _ _ s | .ret _ s | .leave s | .next s
  | .expr _ s => s

/-- Declarations take effect before the other statements of their block run. -/
def Stmt.isDeclaration : Stmt → Bool
  | .fn _ | .struct _ | .enum _ | .typeclass _ | .impl _ => true
  | _ => false

mutual

/-- Whether `_` occurs outside nested functions and compositions, which have their own. -/
def Expr.hasHole : Expr → Bool
  | .placeholder _ => true
  | .lit .. | .var _ | .lambda .. | .compose .. => false
  | .index b k _ => b.hasHole || k.hasHole
  | .member b _ _ => b.hasHole
  | .unary _ e _ => e.hasHole
  | .call f args _ => f.hasHole || anyHole args
  | .binary l _ r _ => l.hasHole || r.hasHole
  | .list es _ | .tuple es _ => anyHole es
  | .range lo hi _ => lo.hasHole || hi.hasHole
  | .map es _ => anyEntryHole es
  | .paren e _ => e.hasHole

def anyHole : List Expr → Bool
  | [] => false
  | e :: es => e.hasHole || anyHole es

def anyEntryHole : List (Expr × Expr) → Bool
  | [] => false
  | (k, v) :: es => k.hasHole || v.hasHole || anyEntryHole es

end

end Sluice
