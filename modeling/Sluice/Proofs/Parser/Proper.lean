import Sluice.Parser.Module
import Sluice.Proofs.Parts

/-! What holds of each piece of a program that was read: how many parts tuples, compositions and accesses
have, which compositions run where they stand, what can be assigned to, and that names which stand side by
side in a declaration are different. -/
namespace Sluice

namespace Expr

def isCompose : Expr → Bool
  | compose .. => true
  | _ => false

def isMember : Expr → Bool
  | member .. => true
  | _ => false

def RunsAs (mode : ComposeMode) : Expr → Prop
  | compose _ m _ => m = mode
  | _ => True

/-- A tuple does not have just one element, a chain of stages and a chain of names are not split up. -/
def Proper : Expr → Prop
  | tuple elems _ => elems.length ≠ 1
  | compose stages _ _ => 2 ≤ stages.length ∧ ∀ stage ∈ stages, stage.isCompose = false
  | member base names _ => names ≠ [] ∧ base.isMember = false
  | _ => True

end Expr

namespace Pattern

def parts : Pattern → List Pattern
  | just inner _ => [inner]
  | variant _ fields _ => fields
  | record _ fields _ => fields.map (·.2)
  | tuple elems _ => elems
  | _ => []

def Proper : Pattern → Prop
  | tuple elems _ => elems.length ≠ 1
  | _ => True

def Wellformed : Pattern → Prop := Every parts Proper

end Pattern

def ArmBody.RunsAs (mode : ComposeMode) : ArmBody → Prop
  | expr e => e.RunsAs mode
  | block _ => True

namespace Stmt

/-- How a composition runs that is an expression of the statement: one that is bound to a name or assigned
is a function. -/
def mode : Stmt → ComposeMode
  | var .. | assign .. => .deferred
  | _ => .immediate

/-- Only what is assignable is assigned to, names that are declared together are different, a method has a
receiver, and a conditional has a branch. -/
def Proper : Stmt → Prop
  | assign target _ _ _ => Parser.isAssignable target = true
  | struct d => (d.fields.map (·.name.text)).Nodup
  | enum d => (d.members.map (·.name.text)).Nodup
  | typeclass d => ∀ m ∈ d.methods, m.params ≠ [] ∧ (m.params.map (·.name.text)).Nodup
  | cond branches _ _ => branches ≠ []
  | _ => True

end Stmt

/-- What holds of a piece of a program by itself and of how its parts stand in it. -/
def Node.Proper : Node → Prop
  | expr e => e.Proper ∧ ∀ e' ∈ e.parts, e'.RunsAs .immediate
  | stmt s => s.Proper ∧ (∀ e ∈ s.exprs, e.RunsAs s.mode) ∧
      ∀ arm ∈ s.arms, arm.1.Wellformed ∧ arm.2.RunsAs .immediate
  | fn params _ => params.Nodup
  | block _ => True

def Node.Wellformed : Node → Prop := Every Node.parts Node.Proper

namespace Expr

def Wellformed (e : Expr) : Prop := (Node.expr e).Wellformed

structure Placed (e : Expr) : Prop where
  wellformed : e.Wellformed
  immediate : e.RunsAs .immediate

theorem wellformed_of_parts {e : Expr} (hp : e.Proper)
    (hne : ∀ params type body span, e ≠ .lambda params type body span)
    (hparts : ∀ e' ∈ e.parts, e'.Placed) : e.Wellformed := by
  refine .mk ⟨hp, fun e' he' => (hparts e' he').immediate⟩ fun n hn => ?_
  rw [Node.parts.eq_def] at hn
  split at hn
  next heq =>
    cases heq
    exact (hne _ _ _ _ rfl).elim
  next heq =>
    cases heq
    obtain ⟨e', he', rfl⟩ := List.mem_map.1 hn
    exact (hparts e' he').wellformed
  all_goals contradiction

theorem Wellformed.parts {e e' : Expr} (h : e.Wellformed) (he' : e' ∈ e.parts) : e'.Wellformed :=
  Every.part h (Node.expr_mem_parts he')

theorem Wellformed.proper {e : Expr} (h : e.Wellformed) : e.Proper := (Every.self h).1

theorem Wellformed.placed {e e' : Expr} (h : e.Wellformed) (he' : e' ∈ e.parts) : e'.Placed :=
  ⟨h.parts he', (Every.self h).2 e' he'⟩

end Expr

theorem Pattern.wellformed_of_parts {p : Pattern} (hp : p.Proper)
    (hparts : ∀ p' ∈ p.parts, p'.Wellformed) : p.Wellformed := .mk hp hparts

namespace Stmt

def Wellformed (s : Stmt) : Prop := (Node.stmt s).Wellformed

theorem Wellformed.proper {s : Stmt} (h : s.Wellformed) : s.Proper := (Every.self h).1

theorem wellformed_block {l : List Stmt} (h : ∀ s ∈ l, s.Wellformed) : (Node.block l).Wellformed := by
  refine .mk trivial fun n hn => ?_
  obtain ⟨s, hs, rfl⟩ := List.mem_map.1 hn
  exact h s hs

end Stmt

structure FnWellformed (params : List Param) (body : Block) : Prop where
  params : (params.map (·.name.text)).Nodup
  body : ∀ s ∈ body.stmts, s.Wellformed

theorem FnWellformed.node {params : List Param} {body : Block} (h : FnWellformed params body) :
    (Node.fn (params.map (·.name.text)) body.stmts).Wellformed :=
  .mk h.params (List.forall_mem_singleton.2 (Stmt.wellformed_block h.body))

def ArmBody.Placed : ArmBody → Prop
  | expr e => e.Placed
  | block b => ∀ s ∈ b.stmts, s.Wellformed

theorem ArmBody.Placed.wellformed {body : ArmBody} (h : body.Placed) : body.node.Wellformed := by
  cases body with
  | expr e => exact Expr.Placed.wellformed h
  | block b => exact Stmt.wellformed_block h

theorem ArmBody.Placed.immediate {body : ArmBody} (h : body.Placed) : body.RunsAs .immediate := by
  cases body with
  | expr e => exact Expr.Placed.immediate h
  | block b => trivial

namespace Stmt

structure PartsWellformed (s : Stmt) : Prop where
  exprs : ∀ e ∈ s.exprs, e.Wellformed ∧ e.RunsAs s.mode := by exact List.forall_mem_nil _
  blocks : ∀ b ∈ s.blocks, ∀ s ∈ b.stmts, s.Wellformed := by exact List.forall_mem_nil _
  arms : ∀ arm ∈ s.arms, arm.1.Wellformed ∧ arm.2.Placed := by exact List.forall_mem_nil _
  fns : ∀ d ∈ s.fns, FnWellformed d.params d.body := by exact List.forall_mem_nil _

theorem PartsWellformed.wellformed {s : Stmt} (h : s.PartsWellformed) (hp : s.Proper)
    (hne : ∀ name body span, s ≠ .submodule name body span) : s.Wellformed := by
  have hproper : (Node.stmt s).Proper := ⟨hp, fun e he => (h.exprs e he).2, fun arm harm =>
    ⟨(h.arms arm harm).1, (h.arms arm harm).2.immediate⟩⟩
  refine .mk hproper fun n hn => ?_
  rw [Node.parts.eq_def] at hn
  split at hn
  next => contradiction
  next => contradiction
  next name body span heq =>
    cases heq
    exact (hne name body span rfl).elim
  next heq =>
    cases heq
    simp only [List.mem_append, List.mem_map] at hn
    obtain ((⟨e, he, rfl⟩ | ⟨b, hb, rfl⟩) | ⟨arm, harm, rfl⟩) | ⟨d, hd, rfl⟩ := hn
    · exact (h.exprs e he).1
    · exact wellformed_block (h.blocks b hb)
    · exact (h.arms arm harm).2.wellformed
    · exact (h.fns d hd).node
  all_goals contradiction

theorem wellformed_submodule {name : Ident} {body : Block} {span : Span}
    (h : ∀ s ∈ body.stmts, s.Wellformed) : (Stmt.submodule name body span).Wellformed :=
  .mk ⟨trivial, List.forall_mem_nil _, List.forall_mem_nil _⟩
    (List.forall_mem_singleton.2 (Stmt.wellformed_block h))

end Stmt

theorem Expr.wellformed_lambda {params : List Param} {type : Option TypeExpr} {body : Block}
    {span : Span} (h : FnWellformed params body) : (Expr.lambda params type body span).Wellformed :=
  .mk ⟨trivial, List.forall_mem_nil _⟩ (List.forall_mem_singleton.2 h.node)

end Sluice
