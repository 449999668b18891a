import Mathlib.Data.List.Basic
import Sluice.Value

/-! The parts of values and of syntax trees. `Every` says that something holds of a thing, of its parts,
of their parts, and so on; `Within` says that one thing is among all these of another. -/
namespace Sluice

section Every

variable {α : Type} {parts : α → List α} {P P' : α → Prop} {a b c : α}

/-- `P` holds of `a` and of everything inside it. -/
inductive Every (parts : α → List α) (P : α → Prop) : α → Prop
  | mk {a : α} : P a → (∀ b ∈ parts a, Every parts P b) → Every parts P a

namespace Every

theorem mono (h : ∀ a, P a → P' a) (ha : Every parts P a) : Every parts P' a := by
  induction ha with
  | mk ha _ ih => exact .mk (h _ ha) ih

theorem self (h : Every parts P a) : P a := by
  obtain ⟨ha, -⟩ := h
  exact ha

theorem part (h : Every parts P a) (hb : b ∈ parts a) : Every parts P b := by
  obtain ⟨-, hparts⟩ := h
  exact hparts b hb

end Every

/-- `b` is `a` or lies inside it. -/
inductive Within (parts : α → List α) : α → α → Prop
  | refl (a : α) : Within parts a a
  | part {a b c : α} : b ∈ parts a → Within parts b c → Within parts a c

theorem Within.trans (h : Within parts a b) (h' : Within parts b c) : Within parts a c := by
  induction h with
  | refl => exact h'
  | part hb _ ih => exact .part hb (ih h')

theorem Within.child (h : Within parts a b) (hc : c ∈ parts b) : Within parts a c :=
  h.trans (.part hc (.refl c))

theorem Every.within (h : Every parts P a) (hb : Within parts a b) : Every parts P b := by
  induction hb with
  | refl => exact h
  | part hb _ ih => exact ih (h.part hb)

end Every

/-! ### Values -/

namespace Value

/-- The values from which a value is made up directly. -/
def children : Value → List Value
  | list vs | tuple vs | set vs => vs
  | map es => es.flatMap fun e => [e.1, e.2]
  | just v => [v]
  | struct _ fs => fs.map (·.2)
  | variant _ _ (some v) => [v]
  | _ => []

theorem mem_children_map {es : List (Value × Value)} {e : Value × Value} (he : e ∈ es) :
    e.1 ∈ (map es).children ∧ e.2 ∈ (map es).children :=
  ⟨List.mem_flatMap.2 ⟨e, he, by simp⟩, List.mem_flatMap.2 ⟨e, he, by simp⟩⟩

theorem forall_mem_children_map {P : Value → Prop} {es : List (Value × Value)} :
    (∀ u ∈ (map es).children, P u) ↔ ∀ e ∈ es, P e.1 ∧ P e.2 := by
  constructor
  · intro h e he
    exact ⟨h _ (mem_children_map he).1, h _ (mem_children_map he).2⟩
  · intro h u hu
    obtain ⟨e, he, hu⟩ := List.mem_flatMap.1 hu
    simp only [List.mem_cons, List.not_mem_nil, or_false] at hu
    rcases hu with rfl | rfl
    · exact (h e he).1
    · exact (h e he).2

theorem mem_children_of_field? {u v : Value} {name : String} (h : v.field? name = some u) :
    u ∈ v.children := by
  cases v with
  | struct type fs =>
    obtain ⟨f, hf, rfl⟩ := Option.map_eq_some_iff.1 h
    exact List.mem_map_of_mem (List.mem_of_find?_eq_some hf)
  | _ => cases h

theorem mem_closuresAll {c : Closure} {vs : List Value} :
    c ∈ closuresAll vs ↔ ∃ v ∈ vs, c ∈ v.closures := by
  induction vs with
  | nil => simp [closuresAll]
  | cons v vs ih => simp [closuresAll, ih]

theorem mem_closuresEntries {c : Closure} {es : List (Value × Value)} :
    c ∈ closuresEntries es ↔ ∃ e ∈ es, c ∈ e.1.closures ∨ c ∈ e.2.closures := by
  induction es with
  | nil => simp [closuresEntries]
  | cons e es ih => simp [closuresEntries, ih, or_assoc]

theorem mem_closuresFields {c : Closure} {fs : List (String × Value)} :
    c ∈ closuresFields fs ↔ ∃ f ∈ fs, c ∈ f.2.closures := by
  induction fs with
  | nil => simp [closuresFields]
  | cons f fs ih => simp [closuresFields, ih]

/-- A function inside a value is the value itself or lies inside one of its parts. -/
theorem mem_closures {c : Closure} {v : Value} (h : c ∈ v.closures) :
    v = fn c ∨ ∃ u ∈ v.children, c ∈ u.closures := by
  cases v with
  | fn d => exact .inl (by simpa [closures, eq_comm] using h)
  | list vs =>
    have hall : c ∈ closuresAll vs := by simpa [closures] using h
    exact .inr (mem_closuresAll.1 hall)
  | tuple vs =>
    have hall : c ∈ closuresAll vs := by simpa [closures] using h
    exact .inr (mem_closuresAll.1 hall)
  | set vs =>
    have hall : c ∈ closuresAll vs := by simpa [closures] using h
    exact .inr (mem_closuresAll.1 hall)
  | map es =>
    obtain ⟨e, he, hc⟩ := mem_closuresEntries.1 (by simpa [closures] using h)
    rcases hc with hc | hc
    · exact .inr ⟨e.1, (mem_children_map he).1, hc⟩
    · exact .inr ⟨e.2, (mem_children_map he).2, hc⟩
  | just v => exact .inr ⟨v, by simp [children], by simpa [closures] using h⟩
  | struct name fs =>
    obtain ⟨f, hf, hc⟩ := mem_closuresFields.1 (by simpa [closures] using h)
    exact .inr ⟨f.2, List.mem_map_of_mem hf, hc⟩
  | variant e n payload =>
    cases payload with
    | none => simp [closures] at h
    | some v => exact .inr ⟨v, by simp [children], by simpa [closures] using h⟩
  | _ => simp [closures] at h

end Value

/-! ### Syntax -/

inductive Node where
  | expr (e : Expr)
  | stmt (s : Stmt)
  /-- Statements that run in one scope. -/
  | block (stmts : List Stmt)
  | fn (params : List String) (body : List Stmt)

def ArmBody.node : ArmBody → Node
  | expr e => .expr e
  | block b => .block b.stmts

def FnDecl.node (d : FnDecl) : Node := .fn (d.params.map (·.name.text)) d.body.stmts

namespace Stmt

def fns : Stmt → List FnDecl
  | fn d => [d]
  | impl d => d.methods
  | _ => []

/-- The blocks that a statement may run as they are. -/
def blocks : Stmt → List Block
  | cond branches otherwise _ => branches.map (·.2) ++ otherwise.toList
  | loop _ body _ => [body]
  | _ => []

/-- What a statement may run on a match, with the pattern. -/
def arms : Stmt → List (Pattern × ArmBody)
  | forIn pat _ body _ => [(pat, .block body)]
  | select _ arms _ => arms.map fun arm => (arm.pat, arm.body)
  | _ => []

def exprs : Stmt → List Expr
  | var _ _ _ _ value _ => [value]
  | assign target _ value _ => [value, target]
  | forIn _ iter _ _ => [iter]
  | cond branches _ _ => branches.map (·.1)
  | loop test _ _ => [test]
  | select scrutinee _ _ => [scrutinee]
  | ret value _ => value.toList
  | expr value _ => [value]
  | _ => []

end Stmt

def Expr.parts : Expr → List Expr
  | index base key _ => [base, key]
  | member base _ _ => [base]
  | unary _ operand _ => [operand]
  | call callee args _ => callee :: args
  | binary lhs _ rhs _ => [lhs, rhs]
  | list items _ => items
  | range lo hi _ => [lo, hi]
  | map entries _ => entries.flatMap fun e => [e.1, e.2]
  | tuple elems _ => elems
  | compose stages _ _ => stages
  | paren inner _ => [inner]
  | _ => []

/-- The pieces from which a piece of a program is made up directly. -/
def Node.parts : Node → List Node
  | expr (.lambda params _ body _) => [fn (params.map (·.name.text)) body.stmts]
  | expr e => e.parts.map expr
  | stmt (.submodule _ body _) => [block body.stmts]
  | stmt s => s.exprs.map expr ++ s.blocks.map (fun b => block b.stmts) ++
      s.arms.map (·.2.node) ++ s.fns.map (·.node)
  | block stmts => stmts.map stmt
  | fn _ body => [block body]

namespace Node

theorem expr_mem_parts {e e' : Expr} (h : e' ∈ e.parts) : expr e' ∈ (expr e).parts := by
  cases e with
  | lambda params type body span => simp [Expr.parts] at h
  | _ => exact List.mem_map_of_mem h

theorem mem_parts_stmt {s : Stmt} {n : Node}
    (h : n ∈ s.exprs.map expr ++ s.blocks.map (fun b => block b.stmts) ++
      s.arms.map (·.2.node) ++ s.fns.map (·.node)) : n ∈ (stmt s).parts := by
  cases s with
  | submodule name body span => simp [Stmt.exprs, Stmt.blocks, Stmt.arms, Stmt.fns] at h
  | _ => exact h

theorem expr_mem_stmt {s : Stmt} {e : Expr} (h : e ∈ s.exprs) : expr e ∈ (stmt s).parts := by
  refine mem_parts_stmt ?_
  simp only [List.mem_append]
  exact .inl (.inl (.inl (List.mem_map_of_mem h)))

theorem block_mem_stmt {s : Stmt} {b : Block} (h : b ∈ s.blocks) :
    block b.stmts ∈ (stmt s).parts := by
  refine mem_parts_stmt ?_
  simp only [List.mem_append]
  exact .inl (.inl (.inr (List.mem_map_of_mem h)))

theorem arm_mem_stmt {s : Stmt} {arm : Pattern × ArmBody} (h : arm ∈ s.arms) :
    arm.2.node ∈ (stmt s).parts := by
  refine mem_parts_stmt ?_
  simp only [List.mem_append]
  exact .inl (.inr (List.mem_map_of_mem h))

theorem fn_mem_stmt {s : Stmt} {d : FnDecl} (h : d ∈ s.fns) : d.node ∈ (stmt s).parts := by
  refine mem_parts_stmt ?_
  simp only [List.mem_append]
  exact .inr (List.mem_map_of_mem h)

end Node

end Sluice
