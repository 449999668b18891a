import Mathlib.Data.List.Basic
import Sluice.Ast

/-! Syntax trees with their spans changed, and nothing else. -/
namespace Sluice

variable (f : Span → Span)

/-! ### Names, types and patterns -/

def Ident.respan (x : Ident) : Ident := ⟨x.text, f x.span⟩

namespace TypeExpr

mutual

def respan : TypeExpr → TypeExpr
  | named name args s => named (name.respan f) (respanAll args) (f s)
  | arrow params result s => arrow (respanAll params) result.respan (f s)
  | tuple elems s => tuple (respanAll elems) (f s)

def respanAll : List TypeExpr → List TypeExpr
  | [] => []
  | t :: ts => t.respan :: respanAll ts

end

@[simp] theorem respanAll_eq_map (ts : List TypeExpr) : respanAll f ts = ts.map (respan f) := by
  induction ts with
  | nil => rfl
  | cons t ts ih => rw [respanAll, ih, List.map_cons]

@[simp] theorem span_respan (t : TypeExpr) : (t.respan f).span = f t.span := by
  cases t <;> rfl

end TypeExpr

def Param.respan (p : Param) : Param := ⟨p.name.respan f, p.type.map (·.respan f), f p.span⟩

namespace Pattern

mutual

def respan : Pattern → Pattern
  | wildcard s => wildcard (f s)
  | name x => name (x.respan f)
  | literal l s => literal l (f s)
  | nothing s => nothing (f s)
  | just inner s => just inner.respan (f s)
  | variant x fields s => variant (x.respan f) (respanAll fields) (f s)
  | record x fields s => record (x.respan f) (respanFields fields) (f s)
  | tuple elems s => tuple (respanAll elems) (f s)

def respanAll : List Pattern → List Pattern
  | [] => []
  | p :: ps => p.respan :: respanAll ps

def respanFields : List (Ident × Pattern) → List (Ident × Pattern)
  | [] => []
  | (x, p) :: fs => (x.respan f, p.respan) :: respanFields fs

end

@[simp] theorem respanAll_eq_map (ps : List Pattern) : respanAll f ps = ps.map (respan f) := by
  induction ps with
  | nil => rfl
  | cons p ps ih => rw [respanAll, ih, List.map_cons]

@[simp] theorem respanFields_eq_map (fs : List (Ident × Pattern)) :
    respanFields f fs = fs.map fun p => (p.1.respan f, p.2.respan f) := by
  induction fs with
  | nil => rfl
  | cons p fs ih => rw [respanFields, ih, List.map_cons]

@[simp] theorem span_respan (p : Pattern) : (p.respan f).span = f p.span := by
  cases p <;> rfl

end Pattern

/-! ### Declarations -/

def FieldDef.respan (d : FieldDef) : FieldDef := ⟨d.name.respan f, d.type.respan f⟩

def StructDef.respan (d : StructDef) : StructDef :=
  ⟨d.name.respan f, d.fields.map (·.respan f), d.derives.map (·.respan f), f d.span⟩

def EnumMember.respan (d : EnumMember) : EnumMember :=
  ⟨d.name.respan f, d.payload.map (·.respan f)⟩

def EnumDef.respan (d : EnumDef) : EnumDef :=
  ⟨d.name.respan f, d.members.map (·.respan f), d.derives.map (·.respan f), f d.span⟩

def MethodSig.respan (m : MethodSig) : MethodSig :=
  ⟨m.name.respan f, m.params.map (·.respan f), m.result.map (·.respan f)⟩

def TypeclassDef.respan (d : TypeclassDef) : TypeclassDef :=
  ⟨d.name.respan f, d.methods.map (·.respan f), d.derives.map (·.respan f), f d.span⟩

/-! ### Expressions and statements -/

mutual

def Expr.respan : Expr → Expr
  | .lit l s => .lit l (f s)
  | .var id => .var (id.respan f)
  | .placeholder s => .placeholder (f s)
  | .index base key s => .index base.respan key.respan (f s)
  | .member base names s => .member base.respan (names.map (·.respan f)) (f s)
  | .unary op e s => .unary op e.respan (f s)
  | .call callee args s => .call callee.respan (Expr.respanAll args) (f s)
  | .binary lhs op rhs s => .binary lhs.respan op rhs.respan (f s)
  | .list items s => .list (Expr.respanAll items) (f s)
  | .range lo hi s => .range lo.respan hi.respan (f s)
  | .map entries s => .map (Expr.respanEntries entries) (f s)
  | .tuple elems s => .tuple (Expr.respanAll elems) (f s)
  | .lambda params result body s =>
    .lambda (params.map (·.respan f)) (result.map (·.respan f)) body.respan (f s)
  | .compose stages mode s => .compose (Expr.respanAll stages) mode (f s)
  | .paren inner s => .paren inner.respan (f s)

def Expr.respanAll : List Expr → List Expr
  | [] => []
  | e :: es => e.respan :: Expr.respanAll es

def Expr.respanEntries : List (Expr × Expr) → List (Expr × Expr)
  | [] => []
  | (k, v) :: es => (k.respan, v.respan) :: Expr.respanEntries es

def Stmt.respan : Stmt → Stmt
  | .var name type isConst isPub value s =>
    .var (name.respan f) (type.map (·.respan f)) isConst isPub value.respan (f s)
  | .assign target op value s => .assign target.respan op value.respan (f s)
  | .fn d => .fn d.respan
  | .struct d => .struct (d.respan f)
  | .enum d => .enum (d.respan f)
  | .typeclass d => .typeclass (d.respan f)
  | .impl d => .impl d.respan
  | .forIn pat iter body s => .forIn (pat.respan f) iter.respan body.respan (f s)
  | .cond branches none s => .cond (Stmt.respanBranches branches) none (f s)
  | .cond branches (some last) s => .cond (Stmt.respanBranches branches) (some last.respan) (f s)
  | .loop test body s => .loop test.respan body.respan (f s)
  | .select scrutinee arms s => .select scrutinee.respan (MatchArm.respanAll arms) (f s)
  | .use source names s => .use (source.respan f) (names.map (·.map (·.respan f))) (f s)
  | .submodule name body s => .submodule (name.respan f) body.respan (f s)
  | .ret none s => .ret none (f s)
  | .ret (some e) s => .ret (some e.respan) (f s)
  | .leave s => .leave (f s)
  | .next s => .next (f s)
  | .expr value s => .expr value.respan (f s)

def Stmt.respanAll : List Stmt → List Stmt
  | [] => []
  | s :: ss => s.respan :: Stmt.respanAll ss

def Stmt.respanBranches : List (Expr × Block) → List (Expr × Block)
  | [] => []
  | (e, b) :: qs => (e.respan, b.respan) :: Stmt.respanBranches qs

def ArmBody.respan : ArmBody → ArmBody
  | .expr e => .expr e.respan
  | .block b => .block b.respan

def Block.respan : Block → Block
  | ⟨stmts, s⟩ => ⟨Stmt.respanAll stmts, f s⟩

def FnDecl.respan : FnDecl → FnDecl
  | ⟨name, params, result, body, isPub, s⟩ =>
    ⟨name.respan f, params.map (·.respan f), result.map (·.respan f), body.respan, isPub, f s⟩

def FnDecl.respanAll : List FnDecl → List FnDecl
  | [] => []
  | d :: ds => d.respan :: FnDecl.respanAll ds

def ImplDef.respan : ImplDef → ImplDef
  | ⟨typeclass, target, methods, s⟩ =>
    ⟨typeclass.respan f, target.map (·.respan f), FnDecl.respanAll methods, f s⟩

def MatchArm.respan : MatchArm → MatchArm
  | ⟨pat, body, s⟩ => ⟨pat.respan f, body.respan, f s⟩

def MatchArm.respanAll : List MatchArm → List MatchArm
  | [] => []
  | a :: as => a.respan :: MatchArm.respanAll as

end

@[simp] theorem Expr.respanAll_eq_map (es : List Expr) : respanAll f es = es.map (respan f) := by
  induction es with
  | nil => rfl
  | cons e es ih => rw [respanAll, ih, List.map_cons]

@[simp] theorem Expr.respanEntries_eq_map (es : List (Expr × Expr)) :
    respanEntries f es = es.map fun e => (e.1.respan f, e.2.respan f) := by
  induction es with
  | nil => rfl
  | cons e es ih => rw [respanEntries, ih, List.map_cons]

@[simp] theorem Stmt.respanAll_eq_map (ss : List Stmt) : respanAll f ss = ss.map (respan f) := by
  induction ss with
  | nil => rfl
  | cons s ss ih => rw [respanAll, ih, List.map_cons]

@[simp] theorem Stmt.respanBranches_eq_map (qs : List (Expr × Block)) :
    respanBranches f qs = qs.map fun q => (q.1.respan f, q.2.respan f) := by
  induction qs with
  | nil => rfl
  | cons q qs ih => rw [respanBranches, ih, List.map_cons]

@[simp] theorem FnDecl.respanAll_eq_map (ds : List FnDecl) : respanAll f ds = ds.map (respan f) := by
  induction ds with
  | nil => rfl
  | cons d ds ih => rw [respanAll, ih, List.map_cons]

@[simp] theorem MatchArm.respanAll_eq_map (as : List MatchArm) :
    respanAll f as = as.map (respan f) := by
  induction as with
  | nil => rfl
  | cons a as ih => rw [respanAll, ih, List.map_cons]

@[simp] theorem Expr.span_respan (e : Expr) : (e.respan f).span = f e.span := by
  cases e <;> rfl

@[simp] theorem Block.span_respan (b : Block) : (b.respan f).span = f b.span := by
  cases b
  rfl

@[simp] theorem FnDecl.span_respan (d : FnDecl) : (d.respan f).span = f d.span := by
  cases d
  rfl

@[simp] theorem Stmt.respan_cond (branches : List (Expr × Block)) (otherwise : Option Block) (s : Span) :
    (cond branches otherwise s).respan f =
      cond (branches.map fun q => (q.1.respan f, q.2.respan f)) (otherwise.map (·.respan f)) (f s) := by
  rw [← respanBranches_eq_map]
  cases otherwise <;> rfl

/-! ### Spans that stay -/

section Id

theorem map_eq_self {α : Type} {g : α → α} {l : List α} (h : ∀ a ∈ l, g a = a) : l.map g = l := by
  conv_rhs => rw [← List.map_id l]
  exact List.map_congr_left h

theorem Ident.respan_id (x : Ident) : x.respan id = x := rfl

theorem Ident.map_respan_id (l : List Ident) : l.map (respan id) = l := List.map_id l

mutual

theorem TypeExpr.respan_id : (t : TypeExpr) → t.respan id = t
  | named name args s => by rw [respan, respanAll_id args]; rfl
  | arrow params result s => by rw [respan, respanAll_id params, respan_id result]; rfl
  | tuple elems s => by rw [respan, respanAll_id elems]; rfl

theorem TypeExpr.respanAll_id : (ts : List TypeExpr) → respanAll id ts = ts
  | [] => rfl
  | t :: ts => by rw [respanAll, respan_id t, respanAll_id ts]

end

theorem TypeExpr.option_respan_id (t : Option TypeExpr) : t.map (respan id) = t := by
  cases t with
  | none => rfl
  | some t => exact congrArg some t.respan_id

theorem Param.respan_id (p : Param) : p.respan id = p := by
  rw [respan, TypeExpr.option_respan_id]
  rfl

theorem Param.map_respan_id (ps : List Param) : ps.map (respan id) = ps :=
  map_eq_self fun p _ => p.respan_id

mutual

theorem Pattern.respan_id : (p : Pattern) → p.respan id = p
  | wildcard s | name x | literal l s | nothing s => rfl
  | just inner s => by rw [respan, respan_id inner]; rfl
  | variant x fields s => by rw [respan, respanAll_id fields]; rfl
  | record x fields s => by rw [respan, respanFields_id fields]; rfl
  | tuple elems s => by rw [respan, respanAll_id elems]; rfl

theorem Pattern.respanAll_id : (ps : List Pattern) → respanAll id ps = ps
  | [] => rfl
  | p :: ps => by rw [respanAll, respan_id p, respanAll_id ps]

theorem Pattern.respanFields_id : (fs : List (Ident × Pattern)) → respanFields id fs = fs
  | [] => rfl
  | (x, p) :: fs => by rw [respanFields, respan_id p, respanFields_id fs]; rfl

end

theorem StructDef.respan_id (d : StructDef) : d.respan id = d := by
  have hfields : d.fields.map (·.respan id) = d.fields := map_eq_self fun a _ => by
    rw [FieldDef.respan, TypeExpr.respan_id]
    rfl
  rw [respan, hfields, Ident.map_respan_id]
  rfl

theorem EnumDef.respan_id (d : EnumDef) : d.respan id = d := by
  have hmembers : d.members.map (·.respan id) = d.members := map_eq_self fun a _ => by
    rw [EnumMember.respan, TypeExpr.option_respan_id]
    rfl
  rw [respan, hmembers, Ident.map_respan_id]
  rfl

theorem TypeclassDef.respan_id (d : TypeclassDef) : d.respan id = d := by
  have hmethods : d.methods.map (·.respan id) = d.methods := map_eq_self fun a _ => by
    rw [MethodSig.respan, TypeExpr.option_respan_id, Param.map_respan_id]
    rfl
  rw [respan, hmethods, Ident.map_respan_id]
  rfl

theorem Ident.option_respan_id (x : Option Ident) : x.map (respan id) = x := Option.map_id'

theorem Ident.option_map_respan_id (l : Option (List Ident)) : l.map (·.map (respan id)) = l := by
  cases l with
  | none => rfl
  | some l => exact congrArg some (map_respan_id l)

mutual

theorem Expr.respan_id : (e : Expr) → e.respan id = e
  | .lit _ _ | .var _ | .placeholder _ => rfl
  | .index base key s => by rw [Expr.respan, Expr.respan_id base, Expr.respan_id key]; rfl
  | .member base names s => by rw [Expr.respan, Expr.respan_id base, Ident.map_respan_id]; rfl
  | .unary op e s => by rw [Expr.respan, Expr.respan_id e]; rfl
  | .call callee args s => by rw [Expr.respan, Expr.respan_id callee, Expr.respanAll_id args]; rfl
  | .binary lhs op rhs s => by rw [Expr.respan, Expr.respan_id lhs, Expr.respan_id rhs]; rfl
  | .list items s => by rw [Expr.respan, Expr.respanAll_id items]; rfl
  | .range lo hi s => by rw [Expr.respan, Expr.respan_id lo, Expr.respan_id hi]; rfl
  | .map entries s => by rw [Expr.respan, Expr.respanEntries_id entries]; rfl
  | .tuple elems s => by rw [Expr.respan, Expr.respanAll_id elems]; rfl
  | .lambda params result body s => by
    rw [Expr.respan, Param.map_respan_id, TypeExpr.option_respan_id, Block.respan_id body]; rfl
  | .compose stages mode s => by rw [Expr.respan, Expr.respanAll_id stages]; rfl
  | .paren inner s => by rw [Expr.respan, Expr.respan_id inner]; rfl

theorem Expr.respanAll_id : (es : List Expr) → Expr.respanAll id es = es
  | [] => rfl
  | e :: es => by rw [Expr.respanAll, Expr.respan_id e, Expr.respanAll_id es]

theorem Expr.respanEntries_id : (es : List (Expr × Expr)) → Expr.respanEntries id es = es
  | [] => rfl
  | (k, v) :: es => by
    rw [Expr.respanEntries, Expr.respan_id k, Expr.respan_id v, Expr.respanEntries_id es]

theorem Stmt.respan_id : (s : Stmt) → s.respan id = s
  | .var name type isConst isPub value s => by
    rw [Stmt.respan, TypeExpr.option_respan_id, Expr.respan_id value]; rfl
  | .assign target op value s => by rw [Stmt.respan, Expr.respan_id target, Expr.respan_id value]; rfl
  | .fn d => by rw [Stmt.respan, FnDecl.respan_id d]
  | .struct d => congrArg Stmt.struct d.respan_id
  | .enum d => congrArg Stmt.enum d.respan_id
  | .typeclass d => congrArg Stmt.typeclass d.respan_id
  | .impl ⟨typeclass, target, methods, s⟩ => by
    rw [Stmt.respan, ImplDef.respan, FnDecl.respanAll_id methods, Ident.option_respan_id]; rfl
  | .forIn pat iter body s => by
    rw [Stmt.respan, Pattern.respan_id, Expr.respan_id iter, Block.respan_id body]; rfl
  | .cond branches none s => by rw [Stmt.respan, Stmt.respanBranches_id branches]; rfl
  | .cond branches (some last) s => by
    rw [Stmt.respan, Stmt.respanBranches_id branches, Block.respan_id last]; rfl
  | .loop test body s => by rw [Stmt.respan, Expr.respan_id test, Block.respan_id body]; rfl
  | .select scrutinee arms s => by
    rw [Stmt.respan, Expr.respan_id scrutinee, MatchArm.respanAll_id arms]; rfl
  | .use source names s => by rw [Stmt.respan, Ident.option_map_respan_id]; rfl
  | .submodule name body s => by rw [Stmt.respan, Block.respan_id body]; rfl
  | .ret none s | .leave s | .next s => rfl
  | .ret (some e) s => by rw [Stmt.respan, Expr.respan_id e]; rfl
  | .expr value s => by rw [Stmt.respan, Expr.respan_id value]; rfl

theorem Stmt.respanAll_id : (ss : List Stmt) → Stmt.respanAll id ss = ss
  | [] => rfl
  | s :: ss => by rw [Stmt.respanAll, Stmt.respan_id s, Stmt.respanAll_id ss]

theorem Stmt.respanBranches_id : (qs : List (Expr × Block)) → Stmt.respanBranches id qs = qs
  | [] => rfl
  | (e, b) :: qs => by
    rw [Stmt.respanBranches, Expr.respan_id e, Block.respan_id b, Stmt.respanBranches_id qs]

theorem Block.respan_id : (b : Block) → b.respan id = b
  | ⟨stmts, s⟩ => by rw [Block.respan, Stmt.respanAll_id stmts]; rfl

theorem FnDecl.respan_id : (d : FnDecl) → d.respan id = d
  | ⟨name, params, result, body, isPub, s⟩ => by
    rw [FnDecl.respan, Param.map_respan_id, TypeExpr.option_respan_id, Block.respan_id body]; rfl

theorem FnDecl.respanAll_id : (ds : List FnDecl) → FnDecl.respanAll id ds = ds
  | [] => rfl
  | d :: ds => by rw [FnDecl.respanAll, FnDecl.respan_id d, FnDecl.respanAll_id ds]

theorem MatchArm.respanAll_id : (as : List MatchArm) → MatchArm.respanAll id as = as
  | [] => rfl
  | ⟨pat, .expr e, s⟩ :: as => by
    rw [MatchArm.respanAll, MatchArm.respan, ArmBody.respan, Pattern.respan_id, Expr.respan_id e,
      MatchArm.respanAll_id as]; rfl
  | ⟨pat, .block b, s⟩ :: as => by
    rw [MatchArm.respanAll, MatchArm.respan, ArmBody.respan, Pattern.respan_id, Block.respan_id b,
      MatchArm.respanAll_id as]; rfl

end

end Id

end Sluice
