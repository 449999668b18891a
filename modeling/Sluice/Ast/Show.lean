import Sluice.Ast
import Sluice.Ast.Outline

/-! The outline of every kind of syntax node, with the names under which users see them. -/
namespace Sluice

def Span.outline (s : Span) : Outline :=
  .record "Span" [("start", .int s.start), ("end", .int s.stop), ("line", .int s.line),
    ("col", .int s.col)]

def Ident.outline (i : Ident) : Outline :=
  .record "Ident" [("text", .text i.text), ("span", i.span.outline)]

def outlineIdents (is : List Ident) : Outline := .list (is.map Ident.outline)

def outlineOption {α : Type} (f : α → Outline) : Option α → Outline
  | none => .absent
  | some a => .present (f a)

mutual

def TypeExpr.outline : TypeExpr → Outline
  | .named name args s =>
    .caseRecord "Named" [("name", name.outline), ("args", .list (outlineTypes args)),
      ("span", s.outline)]
  | .arrow params result s =>
    .caseRecord "Arrow" [("params", .list (outlineTypes params)), ("ret", result.outline),
      ("span", s.outline)]
  | .tuple elems s => .case "Tuple" [.list (outlineTypes elems), s.outline]

def outlineTypes : List TypeExpr → List Outline
  | [] => []
  | t :: r => t.outline :: outlineTypes r

end

def Param.outline (p : Param) : Outline :=
  .record "Param" [("name", p.name.outline), ("ty", outlineOption TypeExpr.outline p.type),
    ("span", p.span.outline)]

def outlineParams (ps : List Param) : Outline := .list (ps.map Param.outline)

def Literal.outline : Literal → Outline
  | .int v => .case "Int" [.int v.toInt]
  | .float v => .case "Float" [.float v]
  | .char c => .case "Char" [.char c]
  | .str s => .case "Str" [.text s]
  | .bool b => .case "Bool" [.flag b]
  | .null => .case "Null" []

def UnaryOp.outline (op : UnaryOp) : Outline :=
  .case (match op with
    | .not => "Not"
    | .bitNot => "BitNot"
    | .neg => "Neg") []

def BinaryOp.outline (op : BinaryOp) : Outline :=
  .case (match op with
    | .or => "Or" | .and => "And"
    | .eq => "Eq" | .ne => "Ne" | .lt => "Lt" | .le => "Le" | .gt => "Gt" | .ge => "Ge"
    | .add => "Add" | .sub => "Sub" | .mul => "Mul" | .div => "Div" | .rem => "Rem"
    | .pow => "Pow"
    | .bitAnd => "BitAnd" | .bitOr => "BitOr" | .bitXor => "BitXor"
    | .shl => "Shl" | .shr => "Shr") []

def ComposeMode.outline (m : ComposeMode) : Outline :=
  .case (match m with
    | .immediate => "Immediate"
    | .deferred => "Deferred") []

mutual

def Pattern.outline : Pattern → Outline
  | .wildcard s => .case "Wildcard" [s.outline]
  | .name id => .case "Ident" [id.outline]
  | .literal v s => .case "Literal" [v.outline, s.outline]
  | .nothing s => .case "Nothing" [s.outline]
  | .just p s => .case "Just" [p.outline, s.outline]
  | .variant name fields s =>
    .caseRecord "Variant" [("name", name.outline), ("fields", .list (outlinePatterns fields)),
      ("span", s.outline)]
  | .record name fields s =>
    .caseRecord "Struct" [("name", name.outline), ("fields", .list (outlineFieldPatterns fields)),
      ("span", s.outline)]
  | .tuple elems s => .case "Tuple" [.list (outlinePatterns elems), s.outline]

def outlinePatterns : List Pattern → List Outline
  | [] => []
  | p :: r => p.outline :: outlinePatterns r

def outlineFieldPatterns : List (Ident × Pattern) → List Outline
  | [] => []
  | (name, p) :: r =>
    .record "FieldPat" [("name", name.outline), ("pat", p.outline)]
      :: outlineFieldPatterns r

end

def FieldDef.outline (f : FieldDef) : Outline :=
  .record "FieldDef" [("name", f.name.outline), ("ty", f.type.outline)]

def StructDef.outline (d : StructDef) : Outline :=
  .record "StructDef" [("name", d.name.outline), ("fields", .list (d.fields.map FieldDef.outline)),
    ("derives", outlineIdents d.derives), ("span", d.span.outline)]

def EnumMember.outline (m : EnumMember) : Outline :=
  .record "EnumMember" [("name", m.name.outline),
    ("payload", outlineOption TypeExpr.outline m.payload)]

def EnumDef.outline (d : EnumDef) : Outline :=
  .record "EnumDef" [("name", d.name.outline),
    ("members", .list (d.members.map EnumMember.outline)),
    ("derives", outlineIdents d.derives), ("span", d.span.outline)]

def MethodSig.outline (m : MethodSig) : Outline :=
  .record "MethodSig" [("name", m.name.outline), ("params", outlineParams m.params),
    ("ret_ty", outlineOption TypeExpr.outline m.result)]

def TypeclassDef.outline (d : TypeclassDef) : Outline :=
  .record "TypeclassDef" [("name", d.name.outline),
    ("methods", .list (d.methods.map MethodSig.outline)),
    ("derives", outlineIdents d.derives), ("span", d.span.outline)]

mutual

def Expr.outline : Expr → Outline
  | .lit v s => .case "Lit" [v.outline, s.outline]
  | .var id => .case "Var" [id.outline]
  | .placeholder s => .case "Placeholder" [s.outline]
  | .index base key s =>
    .caseRecord "Index" [("base", base.outline), ("index", key.outline), ("span", s.outline)]
  | .member base names s =>
    .caseRecord "Member" [("base", base.outline), ("names", outlineIdents names),
      ("span", s.outline)]
  | .unary op e s =>
    .caseRecord "Unary" [("op", op.outline), ("expr", e.outline), ("span", s.outline)]
  | .call callee args s =>
    .caseRecord "Call" [("callee", callee.outline), ("args", .list (outlineExprs args)),
      ("span", s.outline)]
  | .binary lhs op rhs s =>
    .caseRecord "Binary" [("lhs", lhs.outline), ("op", op.outline), ("rhs", rhs.outline),
      ("span", s.outline)]
  | .list items s => .case "List" [.list (outlineExprs items), s.outline]
  | .range lo hi s =>
    .caseRecord "Range" [("lo", lo.outline), ("hi", hi.outline), ("span", s.outline)]
  | .map entries s => .case "Map" [.list (outlineEntries entries), s.outline]
  | .tuple elems s => .case "Tuple" [.list (outlineExprs elems), s.outline]
  | .lambda params result body s =>
    .caseRecord "Lambda" [("params", outlineParams params),
      ("ret_ty", outlineOption TypeExpr.outline result), ("body", body.outline),
      ("span", s.outline)]
  | .compose stages mode s =>
    .caseRecord "Compose" [("stages", .list (outlineExprs stages)), ("mode", mode.outline),
      ("span", s.outline)]
  | .paren inner s => .caseRecord "Paren" [("inner", inner.outline), ("span", s.outline)]

def outlineExprs : List Expr → List Outline
  | [] => []
  | e :: r => e.outline :: outlineExprs r

def outlineEntries : List (Expr × Expr) → List Outline
  | [] => []
  | (k, v) :: r => .pair k.outline v.outline :: outlineEntries r

def Block.outline : Block → Outline
  | ⟨body, s⟩ => .record "Block" [("stmts", .list (outlineStmts body)), ("span", s.outline)]

def outlineStmts : List Stmt → List Outline
  | [] => []
  | s :: r => s.outline :: outlineStmts r

def FnDecl.outline : FnDecl → Outline
  | ⟨name, params, result, body, isPub, s⟩ =>
    .record "FnDecl" [("name", name.outline), ("params", outlineParams params),
      ("ret_ty", outlineOption TypeExpr.outline result), ("body", body.outline),
      ("is_pub", .flag isPub), ("span", s.outline)]

def outlineFns : List FnDecl → List Outline
  | [] => []
  | d :: r => d.outline :: outlineFns r

def ImplDef.outline : ImplDef → Outline
  | ⟨typeclass, target, methods, s⟩ =>
    .record "ImplDef" [("typeclass", typeclass.outline),
      ("for_type", outlineOption Ident.outline target), ("methods", .list (outlineFns methods)),
      ("span", s.outline)]

def ArmBody.outline : ArmBody → Outline
  | .expr e => .case "Expr" [e.outline]
  | .block b => .case "Block" [b.outline]

def MatchArm.outline : MatchArm → Outline
  | ⟨pat, body, s⟩ =>
    .record "MatchArm" [("pat", pat.outline), ("body", body.outline), ("span", s.outline)]

def outlineArms : List MatchArm → List Outline
  | [] => []
  | a :: r => a.outline :: outlineArms r

def outlineBranches : List (Expr × Block) → List Outline
  | [] => []
  | (c, b) :: r => .pair c.outline b.outline :: outlineBranches r

def Stmt.outline : Stmt → Outline
  | .var name type isConst isPub value s =>
    .caseRecord "Var" [("name", name.outline), ("ty", outlineOption TypeExpr.outline type),
      ("is_const", .flag isConst), ("is_pub", .flag isPub), ("value", value.outline),
      ("span", s.outline)]
  | .assign target op value s =>
    .caseRecord "Assign" [("target", target.outline), ("op", outlineOption BinaryOp.outline op),
      ("value", value.outline), ("span", s.outline)]
  | .fn d => .case "Fn" [d.outline]
  | .struct d => .case "Struct" [d.outline]
  | .enum d => .case "Enum" [d.outline]
  | .typeclass d => .case "Typeclass" [d.outline]
  | .impl d => .case "Impl" [d.outline]
  | .forIn pat iter body s =>
    .caseRecord "For" [("pat", pat.outline), ("iter", iter.outline), ("body", body.outline),
      ("span", s.outline)]
  | .cond branches otherwise s =>
    .caseRecord "If" [("branches", .list (outlineBranches branches)),
      ("else_", match otherwise with
        | none => .absent
        | some b => .present b.outline),
      ("span", s.outline)]
  | .loop test body s =>
    .caseRecord "While" [("cond", test.outline), ("body", body.outline), ("span", s.outline)]
  | .select scrutinee arms s =>
    .caseRecord "Match" [("scrutinee", scrutinee.outline), ("arms", .list (outlineArms arms)),
      ("span", s.outline)]
  | .use source names s =>
    .caseRecord "Import" [("module", source.outline), ("names", outlineOption outlineIdents names),
      ("span", s.outline)]
  | .submodule name body s =>
    .caseRecord "Module" [("name", name.outline), ("body", body.outline), ("span", s.outline)]
  | .ret value s =>
    .caseRecord "Return" [("value", match value with
        | none => .absent
        | some e => .present e.outline),
      ("span", s.outline)]
  | .leave s => .case "Break" [s.outline]
  | .next s => .case "Continue" [s.outline]
  | .expr e s => .caseRecord "Expr" [("expr", e.outline), ("span", s.outline)]

end

def Module.outline (m : Module) : Outline :=
  .record "Module" [("name", .text m.name), ("body", m.body.outline), ("span", m.span.outline)]

end Sluice
