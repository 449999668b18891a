import Sluice.Parser.Module
import Sluice.Proofs.Ast.Piece

/-! How deep a syntax tree goes. A reader goes down into blocks, expressions, patterns and types; an expression
that another one begins with is read before anything says that it is inside the other one, so that no step
down leads to it. Blocks and expressions are counted, patterns and types are not. -/
namespace Sluice

open Sluice.Parser

namespace Piece

/-- What a reader goes down into. -/
def isNested : Piece → Bool
  | block _ | expr _ | pattern _ | type _ => true
  | _ => false

def isCounted : Piece → Bool
  | block _ | expr _ => true
  | _ => false

/-- How many of its parts a piece begins with before it is known what piece it is. The body of a module stands
between no braces. -/
def leads : Piece → Nat
  | module _ | expr (.index ..) | expr (.member ..) | expr (.call ..) | expr (.binary ..)
  | expr (.compose ..) => 1
  | _ => 0

def isFree : Piece → Bool
  | pattern _ | type _ | ident _ | param _ => true
  | _ => false

end Piece

/-- A way down from a piece: the pieces that one goes down into, one inside the other. A pattern in brackets,
`(x)`, is not among them: the reader goes down into it, but it leaves no piece other than `x`. -/
inductive Descent : Piece → List Piece → Prop
  | stop (n : Piece) : Descent n []
  | lead {n m : Piece} {l : List Piece} (hm : m ∈ n.parts.take n.leads) (hl : Descent m l) : Descent n l
  | along {n m : Piece} {l : List Piece} (hm : m ∈ n.parts.drop n.leads) (hnot : m.isNested = false)
      (hl : Descent m l) : Descent n l
  | into {n m : Piece} {l : List Piece} (hm : m ∈ n.parts.drop n.leads) (hnested : m.isNested = true)
      (hl : Descent m l) : Descent n (m :: l)

/-- Below `d` levels, no way down from the piece goes through too many blocks and expressions. -/
def Fits (d : Nat) (n : Piece) : Prop := ∀ l, Descent n l → d + l.countP (·.isCounted) ≤ maxNesting

variable {d : Nat} {n m : Piece} {l : List Piece}

namespace Piece

theorem isCounted_of_not_nested (h : n.isNested = false) : n.isCounted = false := by
  cases n <;> first | rfl | cases h

theorem isCounted_of_isFree (h : n.isFree = true) : n.isCounted = false := by
  cases n <;> first | rfl | cases h

theorem isFree_of_mem (h : n.isFree = true) (hm : m ∈ n.parts) : m.isFree = true := by
  cases n with
  | pattern p =>
    cases p <;> simp only [parts, rows, Pattern.rows] at hm <;> grind [isFree]
  | type t =>
    cases t <;> simp only [parts, rows, TypeExpr.pieces] at hm <;> grind [isFree]
  | param p =>
    simp only [parts, rows, Param.pieces] at hm
    grind [isFree]
  | ident x => simp [parts, rows] at hm
  | _ => cases h

end Piece

theorem Fits.le (h : Fits d n) : d ≤ maxNesting := by simpa using h [] (.stop n)

theorem fits_of_isFree (h : n.isFree = true) : Fits d n ↔ d ≤ maxNesting := by
  refine ⟨Fits.le, fun hd l hl => ?_⟩
  have hnone : l.countP (·.isCounted) = 0 := by
    clear hd
    induction hl with
    | stop => rfl
    | lead hm _ ih => exact ih (Piece.isFree_of_mem h (List.mem_of_mem_take hm))
    | along hm _ _ ih => exact ih (Piece.isFree_of_mem h (List.mem_of_mem_drop hm))
    | into hm _ _ ih =>
      have hfree := Piece.isFree_of_mem h (List.mem_of_mem_drop hm)
      rw [List.countP_cons_of_neg (by simp [Piece.isCounted_of_isFree hfree])]
      exact ih hfree
  omega

/-- What it takes to fit, one step down. -/
theorem fits_iff : Fits d n ↔ d ≤ maxNesting ∧ (∀ m ∈ n.parts.take n.leads, Fits d m) ∧
    ∀ m ∈ n.parts.drop n.leads, m.isFree = false → Fits (d + if m.isCounted then 1 else 0) m := by
  constructor
  · intro h
    refine ⟨h.le, fun m hm l hl => h l (.lead hm hl), fun m hm _ l hl => ?_⟩
    cases hnested : m.isNested with
    | false => simpa [Piece.isCounted_of_not_nested hnested] using h l (.along hm hnested hl)
    | true =>
      have hinto := h _ (.into hm hnested hl)
      rw [List.countP_cons] at hinto
      omega
  · rintro ⟨hd, hlead, hrest⟩ l hl
    have hfits : ∀ m ∈ n.parts.drop n.leads, Fits (d + if m.isCounted then 1 else 0) m := by
      intro m hm
      cases hfree : m.isFree with
      | false => exact hrest m hm hfree
      | true => simpa [Piece.isCounted_of_isFree hfree] using (fits_of_isFree hfree).2 hd
    cases hl with
    | stop => simpa using hd
    | lead hm hl => exact hlead _ hm l hl
    | @along _ m _ hm hnot hl => simpa [Piece.isCounted_of_not_nested hnot] using hfits m hm l hl
    | @into _ m l hm _ hl =>
      have hm := hfits m hm l hl
      rw [List.countP_cons]
      omega

theorem fits_of_parts (h : ∀ m ∈ n.parts, m.isFree = true) : Fits d n ↔ d ≤ maxNesting := by
  refine ⟨Fits.le, fun hd => fits_iff.2 ⟨hd, fun m hm => ?_, fun m hm hfree => ?_⟩⟩
  · exact (fits_of_isFree (h m (List.mem_of_mem_take hm))).2 hd
  · simp [h m (List.mem_of_mem_drop hm)] at hfree

attribute [local simp] Piece.parts Piece.rows Piece.leads Piece.isFree Piece.isCounted Expr.pieces Stmt.rows

/-! ### Expressions -/

section Expr

variable {e f g : Expr} {es : List Expr} {s : Span}

theorem fits_lit {v : Literal} : Fits d (.expr (.lit v s)) ↔ d ≤ maxNesting := by
  exact fits_of_parts nofun

theorem fits_var {x : Ident} : Fits d (.expr (.var x)) ↔ d ≤ maxNesting := by
  exact fits_of_parts (by simp)

theorem fits_placeholder : Fits d (.expr (.placeholder s)) ↔ d ≤ maxNesting := by
  exact fits_of_parts nofun

theorem fits_unary {op : UnaryOp} :
    Fits d (.expr (.unary op e s)) ↔ d ≤ maxNesting ∧ Fits (d + 1) (.expr e) := by
  rw [fits_iff]
  simp

theorem fits_paren : Fits d (.expr (.paren e s)) ↔ d ≤ maxNesting ∧ Fits (d + 1) (.expr e) := by
  rw [fits_iff]
  simp

theorem fits_tuple :
    Fits d (.expr (.tuple es s)) ↔ d ≤ maxNesting ∧ ∀ e ∈ es, Fits (d + 1) (.expr e) := by
  rw [fits_iff]
  simp

theorem fits_list :
    Fits d (.expr (.list es s)) ↔ d ≤ maxNesting ∧ ∀ e ∈ es, Fits (d + 1) (.expr e) := by
  rw [fits_iff]
  simp

theorem fits_range : Fits d (.expr (.range e f s)) ↔
    d ≤ maxNesting ∧ Fits (d + 1) (.expr e) ∧ Fits (d + 1) (.expr f) := by
  rw [fits_iff]
  simp

theorem fits_map {entries : List (Expr × Expr)} : Fits d (.expr (.map entries s)) ↔
    d ≤ maxNesting ∧ ∀ q ∈ entries, Fits (d + 1) (.expr q.1) ∧ Fits (d + 1) (.expr q.2) := by
  rw [fits_iff]
  simp only [Piece.parts, Piece.rows, Expr.pieces, Piece.leads, List.flatten_cons, List.flatten_nil,
    List.append_nil, List.take_zero, List.drop_zero, List.forall_mem_flatMap]
  simp

theorem fits_lambda {ps : List Param} {t : Option TypeExpr} {b : Block} :
    Fits d (.expr (.lambda ps t b s)) ↔ d ≤ maxNesting ∧ Fits (d + 1) (.block b) := by
  rw [fits_iff]
  simp [or_imp, forall_and]

theorem fits_call : Fits d (.expr (.call f es s)) ↔
    d ≤ maxNesting ∧ Fits d (.expr f) ∧ ∀ e ∈ es, Fits (d + 1) (.expr e) := by
  rw [fits_iff]
  simp

theorem fits_index : Fits d (.expr (.index e f s)) ↔
    d ≤ maxNesting ∧ Fits d (.expr e) ∧ Fits (d + 1) (.expr f) := by
  rw [fits_iff]
  simp

theorem fits_binary {op : BinaryOp} : Fits d (.expr (.binary e op f s)) ↔
    d ≤ maxNesting ∧ Fits d (.expr e) ∧ Fits (d + 1) (.expr f) := by
  rw [fits_iff]
  simp

theorem fits_member {names : List Ident} :
    Fits d (.expr (.member e names s)) ↔ d ≤ maxNesting ∧ Fits d (.expr e) := by
  rw [fits_iff]
  simp

theorem fits_compose {mode : ComposeMode} : Fits d (.expr (.compose (e :: es) mode s)) ↔
    d ≤ maxNesting ∧ Fits d (.expr e) ∧ ∀ f ∈ es, Fits (d + 1) (.expr f) := by
  rw [fits_iff]
  simp

theorem fits_addMember {x : Ident} : Fits d (.expr (addMember e x)) ↔ Fits d (.expr e) := by
  have hle : d ≤ maxNesting ∧ Fits d (.expr e) ↔ Fits d (.expr e) := ⟨And.right, fun h => ⟨h.le, h⟩⟩
  cases e with
  | member base names span => rw [addMember, fits_member, fits_member]
  | _ => exact fits_member.trans hle

theorem fits_addStage (h : ∀ mode span, e ≠ .compose [] mode span) :
    Fits d (.expr (addStage e f)) ↔ d ≤ maxNesting ∧ Fits d (.expr e) ∧ Fits (d + 1) (.expr f) := by
  cases e with
  | compose stages mode span =>
    cases stages with
    | nil => exact (h mode span rfl).elim
    | cons g stages =>
      rw [addStage, List.cons_append, fits_compose, fits_compose]
      simp only [List.forall_mem_append, List.forall_mem_singleton]
      tauto
  | _ =>
    refine fits_compose.trans ?_
    rw [List.forall_mem_singleton]

theorem fits_defer : Fits d (.expr (defer e)) ↔ Fits d (.expr e) := by
  cases e with
  | compose stages mode span =>
    rw [defer, fits_iff, fits_iff (n := .expr (.compose stages mode span))]
    rfl
  | _ => rfl

end Expr

section Stmt

variable {s : Span} {e f : Expr} {b : Block} {x : Ident}

theorem fits_block : Fits d (.block b) ↔ d ≤ maxNesting ∧ ∀ s ∈ b.stmts, Fits d (.stmt s) := by
  rw [fits_iff]
  simp

theorem fits_varStmt {t : Option TypeExpr} {isConst isPub : Bool} :
    Fits d (.stmt (.var x t isConst isPub e s)) ↔ d ≤ maxNesting ∧ Fits (d + 1) (.expr e) := by
  rw [fits_iff]
  simp [or_imp, forall_and]

theorem fits_assign {op : Option BinaryOp} :
    Fits d (.stmt (.assign e op f s)) ↔ d ≤ maxNesting ∧ Fits (d + 1) (.expr e) ∧ Fits (d + 1) (.expr f) := by
  rw [fits_iff]
  simp

theorem fits_fn {g : FnDecl} : Fits d (.stmt (.fn g)) ↔ d ≤ maxNesting ∧ Fits (d + 1) (.block g.body) := by
  rw [fits_iff]
  simp [FnDecl.pieces, or_imp, forall_and]

theorem fits_struct {g : StructDef} : Fits d (.stmt (.struct g)) ↔ d ≤ maxNesting := by
  refine fits_of_parts fun m hm => ?_
  simp only [Piece.parts, Piece.rows, Stmt.rows] at hm
  grind [FieldDef.pieces, Piece.isFree]

theorem fits_enum {g : EnumDef} : Fits d (.stmt (.enum g)) ↔ d ≤ maxNesting := by
  refine fits_of_parts fun m hm => ?_
  simp only [Piece.parts, Piece.rows, Stmt.rows] at hm
  grind [Piece.isFree]

theorem fits_typeclass {g : TypeclassDef} : Fits d (.stmt (.typeclass g)) ↔ d ≤ maxNesting := by
  refine fits_of_parts fun m hm => ?_
  simp only [Piece.parts, Piece.rows, Stmt.rows] at hm
  grind [MethodSig.pieces, Piece.isFree]

theorem fits_impl {g : ImplDef} :
    Fits d (.stmt (.impl g)) ↔ d ≤ maxNesting ∧ ∀ f ∈ g.methods, Fits d (.stmt (.fn f)) := by
  rw [fits_iff]
  simp [or_imp, forall_and]

theorem fits_forIn {p : Pattern} : Fits d (.stmt (.forIn p e b s)) ↔
    d ≤ maxNesting ∧ Fits (d + 1) (.expr e) ∧ Fits (d + 1) (.block b) := by
  rw [fits_iff]
  simp

theorem fits_cond {branches : List (Expr × Block)} {otherwise : Option Block} :
    Fits d (.stmt (.cond branches otherwise s)) ↔ d ≤ maxNesting ∧
      (∀ q ∈ branches, Fits (d + 1) (.expr q.1) ∧ Fits (d + 1) (.block q.2)) ∧
      ∀ b ∈ otherwise, Fits (d + 1) (.block b) := by
  rw [fits_iff]
  simp only [Piece.parts, Piece.rows, Stmt.rows, Piece.leads, List.flatten_cons, List.flatten_nil, List.append_nil,
    List.take_zero, List.drop_zero, List.forall_mem_append, List.forall_mem_flatMap]
  simp

theorem fits_loop : Fits d (.stmt (.loop e b s)) ↔
    d ≤ maxNesting ∧ Fits (d + 1) (.expr e) ∧ Fits (d + 1) (.block b) := by
  rw [fits_iff]
  simp

theorem fits_arm {a : MatchArm} : Fits d (.arm a) ↔ d ≤ maxNesting ∧ Fits (d + 1) a.body.piece := by
  rw [fits_iff]
  cases h : a.body <;> simp [h, ArmBody.piece]

theorem fits_select {arms : List MatchArm} : Fits d (.stmt (.select e arms s)) ↔
    d ≤ maxNesting ∧ Fits (d + 1) (.expr e) ∧ ∀ a ∈ arms, Fits d (.arm a) := by
  rw [fits_iff]
  simp

theorem fits_use {names : Option (List Ident)} : Fits d (.stmt (.use x names s)) ↔ d ≤ maxNesting := by
  refine fits_of_parts fun m hm => ?_
  simp only [Piece.parts, Piece.rows, Stmt.rows] at hm
  grind [Piece.isFree]

theorem fits_submodule :
    Fits d (.stmt (.submodule x b s)) ↔ d ≤ maxNesting ∧ Fits (d + 1) (.block b) := by
  rw [fits_iff]
  simp

theorem fits_ret {value : Option Expr} : Fits d (.stmt (.ret value s)) ↔
    d ≤ maxNesting ∧ ∀ e ∈ value, Fits (d + 1) (.expr e) := by
  rw [fits_iff]
  simp

theorem fits_leave : Fits d (.stmt (.leave s)) ↔ d ≤ maxNesting := fits_of_parts nofun

theorem fits_next : Fits d (.stmt (.next s)) ↔ d ≤ maxNesting := fits_of_parts nofun

theorem fits_exprStmt : Fits d (.stmt (.expr e s)) ↔ d ≤ maxNesting ∧ Fits (d + 1) (.expr e) := by
  rw [fits_iff]
  simp

theorem fits_module {md : Module} : Fits d (.module md) ↔ d ≤ maxNesting ∧ Fits d (.block md.body) := by
  rw [fits_iff]
  simp

end Stmt

end Sluice
