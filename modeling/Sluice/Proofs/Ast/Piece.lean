import Sluice.Proofs.Parts

/-! The pieces of a syntax tree that have a span, down to the names. -/
namespace Sluice

inductive Piece where
  | module (m : Module)
  | block (b : Block)
  | stmt (s : Stmt)
  | expr (e : Expr)
  | pattern (p : Pattern)
  | type (t : TypeExpr)
  | ident (x : Ident)
  | param (p : Param)
  | arm (a : MatchArm)

def Piece.span : Piece → Span
  | module m => m.span
  | block b => b.span
  | stmt s => s.span
  | expr e => e.span
  | pattern p => p.span
  | type t => t.span
  | ident x => x.span
  | param p => p.span
  | arm a => a.span

/-! The pieces from which a piece is made up directly, as they stand in the text. -/

def TypeExpr.pieces : TypeExpr → List Piece
  | named name args _ => .ident name :: args.map .type
  | arrow params result _ => params.map .type ++ [.type result]
  | tuple elems _ => elems.map .type

def Param.pieces (p : Param) : List Piece := .ident p.name :: p.type.toList.map .type

def Expr.pieces : Expr → List Piece
  | lit .. | placeholder _ => []
  | var id => [.ident id]
  | index base key _ => [.expr base, .expr key]
  | member base names _ => .expr base :: names.map .ident
  | unary _ operand _ => [.expr operand]
  | call callee args _ => .expr callee :: args.map .expr
  | binary lhs _ rhs _ => [.expr lhs, .expr rhs]
  | list items _ => items.map .expr
  | range lo hi _ => [.expr lo, .expr hi]
  | map entries _ => entries.flatMap fun e => [.expr e.1, .expr e.2]
  | tuple elems _ => elems.map .expr
  | lambda params result body _ => params.map .param ++ (result.toList.map .type ++ [.block body])
  | compose stages _ _ => stages.map .expr
  | paren inner _ => [.expr inner]

/-- The fields of a record pattern are two rows, as a field that is only a name is its own pattern. -/
def Pattern.rows : Pattern → List (List Piece)
  | wildcard _ | literal .. | nothing _ => []
  | name id => [[.ident id]]
  | just inner _ => [[.pattern inner]]
  | variant id fields _ => [.ident id :: fields.map .pattern]
  | record id fields _ =>
    [.ident id :: fields.map fun f => .pattern f.2, fields.map fun f => .ident f.1]
  | tuple elems _ => [elems.map .pattern]

def FieldDef.pieces (f : FieldDef) : List Piece := [.ident f.name, .type f.type]

def MethodSig.pieces (m : MethodSig) : List Piece :=
  .ident m.name :: (m.params.map .param ++ m.result.toList.map .type)

def FnDecl.pieces (d : FnDecl) : List Piece :=
  .ident d.name :: (d.params.map .param ++ (d.result.toList.map .type ++ [.block d.body]))

def ArmBody.piece : ArmBody → Piece
  | expr e => .expr e
  | block b => .block b

/-- The variants of an enum are two rows, as a payload of several types starts where the name does. -/
def Stmt.rows : Stmt → List (List Piece)
  | var name type _ _ value _ => [.ident name :: (type.toList.map .type ++ [.expr value])]
  | assign target _ value _ => [[.expr target, .expr value]]
  | fn d => [d.pieces]
  | struct d => [.ident d.name :: (d.derives.map .ident ++ d.fields.flatMap FieldDef.pieces)]
  | enum d =>
    [.ident d.name :: (d.derives.map .ident ++ d.members.map fun m => .ident m.name),
      d.members.flatMap fun m => m.payload.toList.map .type]
  | typeclass d => [.ident d.name :: (d.derives.map .ident ++ d.methods.flatMap MethodSig.pieces)]
  | impl d => [.ident d.typeclass :: (d.target.toList.map .ident ++ d.methods.map fun f => .stmt (.fn f))]
  | forIn pat iter body _ => [[.pattern pat, .expr iter, .block body]]
  | cond branches otherwise _ =>
    [branches.flatMap (fun b => [.expr b.1, .block b.2]) ++ otherwise.toList.map .block]
  | loop test body _ => [[.expr test, .block body]]
  | select scrutinee arms _ => [.expr scrutinee :: arms.map .arm]
  | use source names _ => [.ident source :: (names.getD []).map .ident]
  | submodule name body _ => [[.ident name, .block body]]
  | ret value _ => [value.toList.map .expr]
  | leave _ | next _ => []
  | expr value _ => [[.expr value]]

namespace Piece

/-- The pieces from which a piece is made up directly, in rows of pieces that stand one behind the other. -/
def rows : Piece → List (List Piece)
  | module m => [[.block m.body]]
  | block b => [b.stmts.map .stmt]
  | stmt s => s.rows
  | expr e => [e.pieces]
  | pattern p => p.rows
  | type t => [t.pieces]
  | ident _ => []
  | param p => [p.pieces]
  | arm a => [[.pattern a.pat, a.body.piece]]

def parts (n : Piece) : List Piece := n.rows.flatten

end Piece

end Sluice
