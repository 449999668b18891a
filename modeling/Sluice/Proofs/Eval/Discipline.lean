import Sluice.Proofs.Eval.Stored
import Sluice.Proofs.Eval.Watch

/-! Disciplines: what has to hold of expressions, statements and functions so that running them keeps an
invariant. A `Discipline` says what is asked of each piece of a program where it runs, and that the ways
in which the state changes answer to it. `Does` says of two computations that they do the same and obey;
it is closed under what programs are put together with. -/
namespace Sluice

structure Config (W : Type) where
  known : W
  machine : Machine

/-- What is run in a scope of its own. -/
inductive Task where
  | fn (params : List String) (body : List Stmt)
  | pipeline (stages : List Expr)
  /-- A stage of a composition that mentions `_`. -/
  | hole (stage : Expr)
  | block (stmts : List Stmt)
  /-- What follows a match. -/
  | arm (pat : Pattern) (body : ArmBody)

def Closure.task (c : Closure) : Task :=
  match c.body with
  | .block body => .fn c.params body.stmts
  | .pipeline stages => .pipeline stages

def Task.Binds (adts : AdtTable) : Task → List (String × Value) → Prop
  | fn params _, bs => bs.map (·.1) = params
  | hole _, bs => bs.map (·.1) = ["_"]
  | arm pat _, bs => ∃ v, pat.bindings? adts v = some bs
  | _, bs => bs = []

def Machine.defineAll (m : Machine) (bs : List (String × Value)) : Machine :=
  bs.foldl (fun m b => m.define b.1 b.2) m

theorem Eval.define_bind {β : Type} (name : String) (v : Value) (f : Unit → Eval β) (m : Machine) :
    (Eval.define name v >>= f) m = f () (m.define name v) := Eval.bind_of_ok rfl

def Machine.enterModule (m : Machine) (name : String) : Machine :=
  { m.enter m.root with modules := m.modules.insert name (m.enter m.root).current }

def Expr.root? : Expr → Option Ident
  | var id => some id
  | paren inner _ => inner.root?
  | index base _ _ => base.root?
  | member base _ _ => base.root?
  | _ => none

/-- Statements that bind no name when they run. -/
def Stmt.binds : Stmt → Bool
  | var .. | assign .. | use .. => true
  | _ => false

def Stmt.adt? : Stmt → Option Adt
  | struct d => some (.ofStruct d)
  | enum d => some (.ofEnum d)
  | _ => none

def Stmt.fnNames : Stmt → List String
  | fn d => [d.name.text]
  | _ => []

/-- What is asked of the pieces of a program, where `Sub` relates the states before and after an
expression and `Run` those before and after statements in the innermost scope. -/
structure Discipline (W : Type) where
  /-- Values are to be regular. -/
  proper : Prop
  /-- Faults about constants are allowed. -/
  lenient : Prop
  Inv : Config W → Prop
  Sub : Config W → Config W → Prop
  Run : Config W → Config W → Prop
  /-- The functions that can be called. -/
  Fn : Config W → Closure → Prop
  /-- The functions that can be made in the innermost scope. -/
  Makes : Config W → List String → FnBody → Prop
  /-- The expressions that can be evaluated. -/
  Term : Config W → Expr → Prop
  /-- The statements that are left to run in the innermost scope. -/
  Rest : Config W → List Stmt → Prop
  /-- The statements of a scope, of whose declarations those of the given names have been made. -/
  Decl : Config W → List Stmt → List String → Prop
  /-- The statements that can run as a module. -/
  Mod : Config W → List Stmt → Prop
  /-- What can be run in a new scope under the given one. -/
  Body : Config W → ScopeId → Task → Prop

namespace Discipline

variable {W : Type} (D : Discipline W)

def V (σ : Config W) : Value → Prop := Value.Sane D.proper (D.Fn σ)

/-- The invariant, which takes in all that is stored. -/
structure Ok (σ : Config W) : Prop where
  inv : D.Inv σ
  stored : σ.machine.Stored (D.V σ)

def Starts (σ : Config W) : Task → Prop
  | .fn _ body | .block body => D.Decl σ body []
  | .arm _ (.block body) => D.Decl σ body.stmts []
  | .pipeline stages => ∀ stage ∈ stages, D.Term σ stage
  | .hole stage | .arm _ (.expr stage) => D.Term σ stage

/-- What may stop a run. -/
def Fine (i : Interrupt) : Prop := D.lenient ∨ ∀ f, i = .fault f → f.kind ≠ .constReassignment

/-! ### What every discipline has to obey -/

structure StateLaws : Prop where
  sub_refl : ∀ σ, D.Sub σ σ
  sub_trans : ∀ {σ₁ σ₂ σ₃}, D.Sub σ₁ σ₂ → D.Sub σ₂ σ₃ → D.Sub σ₁ σ₃
  run_trans : ∀ {σ₁ σ₂ σ₃}, D.Run σ₁ σ₂ → D.Run σ₂ σ₃ → D.Run σ₁ σ₃
  run_of_sub : ∀ {σ σ'}, D.Sub σ σ' → D.Run σ σ'
  fn_mono : ∀ {σ σ' c}, D.Run σ σ' → D.Fn σ c → D.Fn σ' c
  /-- What is not about scopes or types may change. -/
  idle : ∀ {σ m}, D.Inv σ → m.arena = σ.machine.arena → m.current = σ.machine.current →
    m.root = σ.machine.root → m.modules = σ.machine.modules →
    m.registry.adts = σ.machine.registry.adts →
    D.Inv ⟨σ.known, m⟩ ∧ D.Sub σ ⟨σ.known, m⟩

structure ScopeLaws : Prop where
  call : ∀ {σ c}, D.Inv σ → D.Fn σ c → D.Body σ c.scope c.task
  makeFn : ∀ {σ params body} name, D.Inv σ → D.Makes σ (params.map (·.name.text)) body →
    ∃ w, D.Inv ⟨w, (σ.machine.makeFn name params body).2⟩ ∧
      D.Sub σ ⟨w, (σ.machine.makeFn name params body).2⟩ ∧
      D.Fn ⟨w, (σ.machine.makeFn name params body).2⟩
        (σ.machine.arena.makeClosure σ.machine.current name (params.map (·.name.text)) body).1
  scope : ∀ {σ parent task bs}, D.Inv σ → D.Body σ parent task → (∀ b ∈ bs, D.V σ b.2) →
    ∃ w, D.Inv ⟨w, (σ.machine.enter parent).defineAll bs⟩ ∧
      (∀ c, D.Fn σ c → D.Fn ⟨w, (σ.machine.enter parent).defineAll bs⟩ c) ∧
      (task.Binds σ.machine.registry.adts bs →
        D.Starts ⟨w, (σ.machine.enter parent).defineAll bs⟩ task) ∧
      ∀ σ', D.Run ⟨w, (σ.machine.enter parent).defineAll bs⟩ σ' → D.Inv σ' →
        ∃ w', D.Inv ⟨w', σ'.machine.exit (σ.machine.enter parent).current σ.machine.current⟩ ∧
          D.Sub σ ⟨w', σ'.machine.exit (σ.machine.enter parent).current σ.machine.current⟩ ∧
          ∀ c, D.Fn σ' c →
            D.Fn ⟨w', σ'.machine.exit (σ.machine.enter parent).current σ.machine.current⟩ c
  module : ∀ {σ stmts} name, D.Inv σ → D.Mod σ stmts →
    ∃ w, D.Inv ⟨w, σ.machine.enterModule name⟩ ∧
      (∀ c, D.Fn σ c → D.Fn ⟨w, σ.machine.enterModule name⟩ c) ∧
      D.Decl ⟨w, σ.machine.enterModule name⟩ stmts [] ∧
      ∀ σ', D.Run ⟨w, σ.machine.enterModule name⟩ σ' → D.Inv σ' →
        ∃ w', D.Inv ⟨w', { σ'.machine with current := σ.machine.current }⟩ ∧
          D.Sub σ ⟨w', { σ'.machine with current := σ.machine.current }⟩ ∧
          ∀ c, D.Fn σ' c → D.Fn ⟨w', { σ'.machine with current := σ.machine.current }⟩ c

structure ExprLaws : Prop where
  expr_mono : ∀ {σ σ' e}, D.Sub σ σ' → D.Term σ e → D.Term σ' e
  expr_part : ∀ {σ e e'}, D.Term σ e → e' ∈ e.parts → D.Term σ e'
  expr_tuple : ∀ {σ elems span}, D.proper → D.Term σ (.tuple elems span) → elems.length ≠ 1
  expr_lambda : ∀ {σ params type body span}, D.Term σ (.lambda params type body span) →
    D.Makes σ (params.map (·.name.text)) (.block body)
  expr_deferred : ∀ {σ stages span}, D.Term σ (.compose stages .deferred span) →
    D.Makes σ [] (.pipeline stages)
  expr_hole : ∀ {σ e}, D.Term σ e → D.Body σ σ.machine.current (.hole e)

structure StmtLaws : Prop where
  rest_expr : ∀ {σ σ' s l e}, D.Rest σ (s :: l) → D.Sub σ σ' → e ∈ s.exprs → D.Term σ' e
  rest_block : ∀ {σ σ' s l b}, D.Rest σ (s :: l) → D.Sub σ σ' → b ∈ s.blocks →
    D.Body σ' σ'.machine.current (.block b.stmts)
  rest_arm : ∀ {σ σ' s l arm}, D.Rest σ (s :: l) → D.Sub σ σ' → arm ∈ s.arms →
    D.Body σ' σ'.machine.current (.arm arm.1 arm.2)
  rest_module : ∀ {σ name body span l}, D.Rest σ (.submodule name body span :: l) →
    D.Mod σ body.stmts
  rest_pass : ∀ {σ σ' s l}, D.Rest σ (s :: l) → D.Sub σ σ' → s.binds = false → D.Rest σ' l
  var_const : ∀ {σ name type isConst isPub value span l b}, D.Inv σ →
    D.Rest σ (.var name type isConst isPub value span :: l) →
    σ.machine.arena.local? σ.machine.current name.text = some b → b.isConst = true → D.lenient
  var_bind : ∀ {σ σ' name type isConst isPub value span l v}, D.Inv σ →
    D.Rest σ (.var name type isConst isPub value span :: l) →
    (∀ b, σ.machine.arena.local? σ.machine.current name.text = some b → b.isConst = false) →
    D.Sub σ σ' → D.Inv σ' → D.V σ' v →
    ∃ w, D.Inv ⟨w, σ'.machine.bind name.text ⟨v, isConst, isPub⟩⟩ ∧
      D.Run σ' ⟨w, σ'.machine.bind name.text ⟨v, isConst, isPub⟩⟩ ∧
      D.Rest ⟨w, σ'.machine.bind name.text ⟨v, isConst, isPub⟩⟩ l
  assign_const : ∀ {σ σ' target op value span l root owner b}, D.Inv σ' →
    D.Rest σ (.assign target op value span :: l) → D.Sub σ σ' → target.root? = some root →
    σ'.machine.arena.find? σ'.machine.current root.text = some (owner, b) → b.isConst = true →
    D.lenient
  assign_lost : ∀ {σ σ₁ σ₂ target op value span l root owner b v e}, D.Inv σ₁ → D.Inv σ₂ →
    D.Rest σ (.assign target op value span :: l) → D.Sub σ σ₁ → D.Sub σ₁ σ₂ →
    target.root? = some root →
    σ₁.machine.arena.find? σ₁.machine.current root.text = some (owner, b) → b.isConst = false →
    σ₂.machine.arena.assign σ₂.machine.current root.text v = .error e → D.lenient
  assign_old : ∀ {σ σ₁ σ₂ target op value span l root owner b v arena}, D.Inv σ₁ → D.Inv σ₂ →
    D.Rest σ (.assign target op value span :: l) → D.Sub σ σ₁ → D.Sub σ₁ σ₂ →
    target.root? = some root →
    σ₁.machine.arena.find? σ₁.machine.current root.text = some (owner, b) → b.isConst = false →
    D.V σ₂ v → σ₂.machine.arena.assign σ₂.machine.current root.text v = .ok arena →
    ∃ w, D.Inv ⟨w, { σ₂.machine with arena }⟩ ∧ D.Run σ₂ ⟨w, { σ₂.machine with arena }⟩ ∧
      D.Rest ⟨w, { σ₂.machine with arena }⟩ l
  assign_new : ∀ {σ σ₁ σ₂ target op value span l root v}, D.Inv σ₁ → D.Inv σ₂ →
    D.Rest σ (.assign target op value span :: l) → D.Sub σ σ₁ → D.Sub σ₁ σ₂ →
    target.root? = some root →
    σ₁.machine.arena.find? σ₁.machine.current root.text = none → D.V σ₂ v →
    ∃ w, D.Inv ⟨w, σ₂.machine.define root.text v⟩ ∧ D.Run σ₂ ⟨w, σ₂.machine.define root.text v⟩ ∧
      D.Rest ⟨w, σ₂.machine.define root.text v⟩ l
  use : ∀ {σ source names span l found}, D.Inv σ → D.Rest σ (.use source names span :: l) →
    σ.machine.imports source names span = .ok found → (∀ b ∈ found, D.V σ b.2) →
    ∃ w, D.Inv ⟨w, σ.machine.defineAll found⟩ ∧ D.Run σ ⟨w, σ.machine.defineAll found⟩ ∧
      D.Rest ⟨w, σ.machine.defineAll found⟩ l

structure DeclLaws : Prop where
  decl_mono : ∀ {σ σ' stmts done}, D.Sub σ σ' → D.Decl σ stmts done → D.Decl σ' stmts done
  decl_bind : ∀ {σ stmts done v} name isPub, D.Inv σ → D.Decl σ stmts done → D.V σ v →
    ∃ w, D.Inv ⟨w, σ.machine.bind name ⟨v, false, isPub⟩⟩ ∧
      D.Run σ ⟨w, σ.machine.bind name ⟨v, false, isPub⟩⟩ ∧
      D.Decl ⟨w, σ.machine.bind name ⟨v, false, isPub⟩⟩ stmts (name :: done)
  decl_adt : ∀ {σ m stmts done s adt}, D.Inv σ → D.Decl σ stmts done → s ∈ stmts →
    s.adt? = some adt →
    m = { σ.machine with registry :=
      { σ.machine.registry with adts := σ.machine.registry.adts.declare adt } } →
    ∃ w, D.Inv ⟨w, m⟩ ∧ D.Run σ ⟨w, m⟩ ∧ D.Decl ⟨w, m⟩ stmts done
  decl_struct : ∀ {σ stmts done d}, D.proper → D.Decl σ stmts done → .struct d ∈ stmts →
    (d.fields.map (·.name.text)).Nodup
  decl_fn : ∀ {σ stmts done s d}, D.Inv σ → D.Decl σ stmts done → s ∈ stmts → d ∈ s.fns →
    D.Makes σ (d.params.map (·.name.text)) (.block d.body)
  decl_done : ∀ {σ stmts done}, D.Decl σ stmts done →
    (∀ s ∈ stmts, s.fnNames ⊆ done) → D.Rest σ stmts

structure Lawful : Prop extends D.StateLaws, D.ScopeLaws, D.ExprLaws, D.StmtLaws, D.DeclLaws

end Discipline

inductive Extent where
  | expr | stmt

namespace Discipline

variable {W : Type} {D : Discipline W} {α β : Type} {k : Extent} {σ σ' : Config W}
  {x y : Eval α} {f g : α → Eval β} {Q Q' : α → Config W → Prop} {R : β → Config W → Prop}

def After (D : Discipline W) : Extent → Config W → Config W → Prop
  | .expr => D.Sub
  | .stmt => D.Run

/-- The two computations do the same and end with `Q`, or with an interrupt that may be. -/
def Does (D : Discipline W) (k : Extent) (x y : Eval α) (σ : Config W) (Q : α → Config W → Prop) :
    Prop :=
  x σ.machine = y σ.machine ∧ match y σ.machine with
    | .ok a m => ∃ w, D.Ok ⟨w, m⟩ ∧ D.After k σ ⟨w, m⟩ ∧ Q a ⟨w, m⟩
    | .error i m => D.Fine i ∧ ∃ w, D.Ok ⟨w, m⟩ ∧ D.After k σ ⟨w, m⟩

theorem does_of_ok {a : α} {m : Machine} (w : W) (hx : x σ.machine = .ok a m)
    (hy : y σ.machine = .ok a m) (hok : D.Ok ⟨w, m⟩) (hafter : D.After k σ ⟨w, m⟩)
    (hQ : Q a ⟨w, m⟩) : D.Does k x y σ Q := by
  refine ⟨hx.trans hy.symm, ?_⟩
  rw [hy]
  exact ⟨w, hok, hafter, hQ⟩

theorem does_of_error {i : Interrupt} {m : Machine} (w : W) (hx : x σ.machine = .error i m)
    (hy : y σ.machine = .error i m) (hi : D.Fine i) (hok : D.Ok ⟨w, m⟩)
    (hafter : D.After k σ ⟨w, m⟩) : D.Does k x y σ Q := by
  refine ⟨hx.trans hy.symm, ?_⟩
  rw [hy]
  exact ⟨hi, w, hok, hafter⟩

theorem Does.congr {x' y' : Eval α} (h : D.Does k x y σ Q) (hx : x σ.machine = x' σ.machine)
    (hy : y σ.machine = y' σ.machine) : D.Does k x' y' σ Q := by
  obtain ⟨heq, hend⟩ := h
  refine ⟨hx.symm.trans (heq.trans hy), ?_⟩
  rw [← hy]
  exact hend

theorem Does.mono (h : D.Does k x y σ Q) (hQ : ∀ a σ', D.Ok σ' → D.After k σ σ' → Q a σ' → Q' a σ') :
    D.Does k x y σ Q' := by
  obtain ⟨heq, hend⟩ := h
  refine ⟨heq, ?_⟩
  cases hy : y σ.machine with
  | ok a m =>
    rw [hy] at hend
    obtain ⟨w, hok, hafter, ha⟩ := hend
    exact ⟨w, hok, hafter, hQ a _ hok hafter ha⟩
  | error i m =>
    rw [hy] at hend
    exact hend

theorem fine_of_kind {f : Fault} (h : f.kind ≠ .constReassignment) : D.Fine (.fault f) :=
  .inr fun g hg => by
    cases hg
    exact h

namespace Lawful

variable (H : D.Lawful)

include H

theorem after_refl (k : Extent) (σ : Config W) : D.After k σ σ := by
  cases k with
  | expr => exact H.sub_refl σ
  | stmt => exact H.run_of_sub (H.sub_refl σ)

theorem after_trans {σ₁ σ₂ σ₃ : Config W} (h : D.After k σ₁ σ₂) (h' : D.After k σ₂ σ₃) :
    D.After k σ₁ σ₃ := by
  cases k with
  | expr => exact H.sub_trans h h'
  | stmt => exact H.run_trans h h'

theorem run_of_after (h : D.After k σ σ') : D.Run σ σ' := by
  cases k with
  | expr => exact H.run_of_sub h
  | stmt => exact h

/-- Values stay what they are. -/
theorem value_mono (h : D.After k σ σ') {v : Value} (hv : D.V σ v) : D.V σ' v :=
  hv.mono fun _ hc => H.fn_mono (H.run_of_after h) hc

theorem values_mono (h : D.After k σ σ') {vs : List Value} (hvs : ∀ v ∈ vs, D.V σ v) :
    ∀ v ∈ vs, D.V σ' v := fun v hv => H.value_mono h (hvs v hv)

/-! ### Putting computations together -/

theorem pure {a : α} (hσ : D.Ok σ) (ha : Q a σ) : D.Does k (Pure.pure a) (Pure.pure a) σ Q :=
  does_of_ok σ.known rfl rfl hσ (H.after_refl k σ) ha

theorem throw {i : Interrupt} (hσ : D.Ok σ) (hi : D.Fine i) :
    D.Does k (MonadExcept.throw i) (MonadExcept.throw i) σ Q :=
  does_of_error σ.known rfl rfl hi hσ (H.after_refl k σ)

theorem fault {f : Fault} (hσ : D.Ok σ) (hf : f.kind ≠ .constReassignment) :
    D.Does k (Eval.fault f) (Eval.fault f) σ Q := H.throw hσ (fine_of_kind hf)

theorem bind (hx : D.Does k x y σ Q)
    (hf : ∀ a σ', D.Ok σ' → D.After k σ σ' → Q a σ' → D.Does k (f a) (g a) σ' R) :
    D.Does k (x >>= f) (y >>= g) σ R := by
  obtain ⟨heq, hend⟩ := hx
  cases hy : y σ.machine with
  | ok a m =>
    rw [hy] at hend
    obtain ⟨w, hok, hafter, ha⟩ := hend
    obtain ⟨heq', hend'⟩ := hf a ⟨w, m⟩ hok hafter ha
    have hleft : (x >>= f) σ.machine = f a m := Eval.bind_of_ok (heq.trans hy)
    have hright : (y >>= g) σ.machine = g a m := Eval.bind_of_ok hy
    refine ⟨by rw [hleft, hright]; exact heq', ?_⟩
    rw [hright]
    dsimp only at hend'
    cases hg : g a m with
    | ok b m' =>
      rw [hg] at hend'
      obtain ⟨w', hok', hafter', hb⟩ := hend'
      exact ⟨w', hok', H.after_trans hafter hafter', hb⟩
    | error i m' =>
      rw [hg] at hend'
      obtain ⟨hi, w', hok', hafter'⟩ := hend'
      exact ⟨hi, w', hok', H.after_trans hafter hafter'⟩
  | error i m =>
    rw [hy] at hend
    obtain ⟨hi, w, hok, hafter⟩ := hend
    exact does_of_error w (Eval.bind_of_error (heq.trans hy)) (Eval.bind_of_error hy) hi hok hafter

/-- An expression is evaluated as part of a statement. -/
theorem stmt_of_expr (h : D.Does .expr x y σ Q) :
    D.Does .stmt x y σ fun a σ' => D.Sub σ σ' ∧ Q a σ' := by
  obtain ⟨heq, hend⟩ := h
  refine ⟨heq, ?_⟩
  cases hy : y σ.machine with
  | ok a m =>
    rw [hy] at hend
    obtain ⟨w, hok, hafter, ha⟩ := hend
    exact ⟨w, hok, H.run_of_sub hafter, hafter, ha⟩
  | error i m =>
    rw [hy] at hend
    obtain ⟨hi, w, hok, hafter⟩ := hend
    exact ⟨hi, w, hok, H.run_of_sub hafter⟩

theorem of {P : α → Prop} {z : Except Fault α} (hσ : D.Ok σ) (hz : Gives P z) :
    D.Does k (Eval.of z) (Eval.of z) σ fun a σ' => P a ∧ σ' = σ := by
  cases z with
  | ok a => exact does_of_ok σ.known rfl rfl hσ (H.after_refl k σ) ⟨hz, rfl⟩
  | error f => exact does_of_error σ.known rfl rfl (fine_of_kind hz) hσ (H.after_refl k σ)

/-- A question to the state, of which no answer is forbidden. -/
theorem ask {q : Machine → Except Fault α} (hσ : D.Ok σ)
    (hq : ∀ f, q σ.machine = .error f → D.Fine (.fault f)) :
    D.Does k (Eval.query q) (Eval.query q) σ fun a σ' => q σ.machine = .ok a ∧ σ' = σ := by
  cases h : q σ.machine with
  | ok a =>
    have heval : Eval.query q σ.machine = .ok a σ.machine := by
      show Eval.of (q σ.machine) σ.machine = _
      rw [h]
      rfl
    exact does_of_ok σ.known heval heval hσ (H.after_refl k σ) ⟨rfl, rfl⟩
  | error f =>
    have heval : Eval.query q σ.machine = .error (.fault f) σ.machine := by
      show Eval.of (q σ.machine) σ.machine = _
      rw [h]
      rfl
    exact does_of_error σ.known heval heval (hq f h) hσ (H.after_refl k σ)

theorem query {P : α → Prop} {q : Machine → Except Fault α} (hσ : D.Ok σ)
    (hq : Gives P (q σ.machine)) :
    D.Does k (Eval.query q) (Eval.query q) σ fun a σ' => P a ∧ σ' = σ := by
  refine (H.ask hσ fun f hf => fine_of_kind ?_).mono fun a σ' _ _ ha => ⟨?_, ha.2⟩
  · rw [hf] at hq
    exact hq
  · rw [ha.1] at hq
    exact hq

/-- A loop over a list, where `J` holds of what is left of it. -/
theorem forM {f g : β → Eval PUnit} {J : List β → Config W → Prop}
    (h : ∀ b rest σ, D.Ok σ → J (b :: rest) σ → D.Does k (f b) (g b) σ fun _ σ' => J rest σ')
    (l : List β) (hσ : D.Ok σ) (hJ : J l σ) :
    D.Does k (l.forM f) (l.forM g) σ fun _ σ' => J [] σ' := by
  induction l generalizing σ with
  | nil => exact H.pure hσ hJ
  | cons b l ih => exact H.bind (h b l σ hσ hJ) fun _ σ' hσ' _ hJ' => ih hσ' hJ'

/-! ### Changes of the state -/

/-- A change of the state that is not about what is stored. -/
theorem ok_idle {m : Machine} (hσ : D.Ok σ) (harena : m.arena = σ.machine.arena)
    (hcurrent : m.current = σ.machine.current) (hroot : m.root = σ.machine.root)
    (hmodules : m.modules = σ.machine.modules)
    (hadts : m.registry.adts = σ.machine.registry.adts) (hregistry : m.registry.Stored (D.V σ)) :
    D.Ok ⟨σ.known, m⟩ ∧ D.Sub σ ⟨σ.known, m⟩ := by
  obtain ⟨hinv, hsub⟩ := H.idle hσ.inv harena hcurrent hroot hmodules hadts
  have hmono : ∀ v, D.V σ v → D.V ⟨σ.known, m⟩ v := fun v hv =>
    H.value_mono (k := .expr) hsub hv
  refine ⟨⟨hinv, ⟨?_, hregistry.mono hmono⟩⟩, hsub⟩
  rw [harena]
  exact hσ.stored.arena.mono hmono

/-- A name is bound in the innermost scope. -/
theorem ok_bind {w : W} {name : String} {b : Binding} (hσ : D.Ok σ) (hb : D.V σ b.value)
    (hinv : D.Inv ⟨w, σ.machine.bind name b⟩) (hrun : D.Run σ ⟨w, σ.machine.bind name b⟩) :
    D.Ok ⟨w, σ.machine.bind name b⟩ := by
  have hmono : ∀ v, D.V σ v → D.V ⟨w, σ.machine.bind name b⟩ v := fun v hv =>
    H.value_mono (k := .stmt) hrun hv
  refine ⟨hinv, ?_, hσ.stored.registry.mono hmono⟩
  exact (hσ.stored.arena.mono hmono).define _ _ (hmono _ hb)

omit H in
theorem arena_defineAll {P : Value → Prop} {m : Machine} {bs : List (String × Value)}
    (hm : m.arena.Stored P) (hbs : ∀ b ∈ bs, P b.2) :
    (m.defineAll bs).arena.Stored P ∧ (m.defineAll bs).registry = m.registry ∧
      (m.defineAll bs).current = m.current := by
  induction bs generalizing m with
  | nil => exact ⟨hm, rfl, rfl⟩
  | cons b bs ih =>
    exact ih (m := m.define b.1 b.2) (hm.define _ _ (hbs b List.mem_cons_self))
      fun b' hb' => hbs b' (List.mem_cons_of_mem _ hb')

/-! ### Brackets -/

omit H in
/-- A bracket runs `x` from another state and puts something back, whatever happens. -/
theorem bracket {z z' : Eval α} {start : Config W} (leave : Machine → Machine)
    (hz : z σ.machine = match x start.machine with
      | .ok a m => .ok a (leave m)
      | .error i m => .error i (leave m))
    (hz' : z' σ.machine = match y start.machine with
      | .ok a m => .ok a (leave m)
      | .error i m => .error i (leave m))
    (hx : D.Does .stmt x y start Q)
    (hleave : ∀ σ', D.Ok σ' → D.Run start σ' → ∃ w, D.Ok ⟨w, leave σ'.machine⟩ ∧
      D.Sub σ ⟨w, leave σ'.machine⟩ ∧ ∀ a, Q a σ' → Q' a ⟨w, leave σ'.machine⟩) :
    D.Does .expr z z' σ Q' := by
  obtain ⟨heq, hend⟩ := hx
  rw [heq] at hz
  cases hy : y start.machine with
  | ok a m =>
    rw [hy] at hz hz' hend
    obtain ⟨w, hok, hafter, ha⟩ := hend
    obtain ⟨w', hok', hsub, hQ⟩ := hleave ⟨w, m⟩ hok hafter
    exact does_of_ok w' hz hz' hok' hsub (hQ a ha)
  | error i m =>
    rw [hy] at hz hz' hend
    obtain ⟨hi, w, hok, hafter⟩ := hend
    obtain ⟨w', hok', hsub, -⟩ := hleave ⟨w, m⟩ hok hafter
    exact does_of_error w' hz hz' hi hok' hsub

/-- Run a task in a scope of its own, after the names `bs` have been bound in it. -/
theorem inScope {parent : ScopeId} {task : Task} {x₁ y₁ : Eval α} (bs : List (String × Value))
    (vals : α → List Value) (hσ : D.Ok σ) (hbody : D.Body σ parent task)
    (hbs : ∀ b ∈ bs, D.V σ b.2)
    (hx : x₁ (σ.machine.enter parent) = x ((σ.machine.enter parent).defineAll bs))
    (hy : y₁ (σ.machine.enter parent) = y ((σ.machine.enter parent).defineAll bs))
    (hrun : ∀ σ', D.Ok σ' → (task.Binds σ.machine.registry.adts bs → D.Starts σ' task) →
      (∀ v, D.V σ v → D.V σ' v) → D.Does .stmt x y σ' fun a σ' => ∀ v ∈ vals a, D.V σ' v) :
    D.Does .expr (Eval.inScope parent x₁) (Eval.inScope parent y₁) σ
      fun a σ' => ∀ v ∈ vals a, D.V σ' v := by
  obtain ⟨w, hinv, hfns, hstarts, hclose⟩ := H.scope hσ.inv hbody hbs
  have hmono : ∀ v, D.V σ v → D.V ⟨w, (σ.machine.enter parent).defineAll bs⟩ v :=
    fun v hv => hv.mono hfns
  obtain ⟨harena, hregistry, -⟩ := arena_defineAll (m := σ.machine.enter parent)
    ((hσ.stored.arena.mono hmono).push (some parent)) fun b hb => hmono _ (hbs b hb)
  have hok : D.Ok ⟨w, (σ.machine.enter parent).defineAll bs⟩ := by
    refine ⟨hinv, harena, ?_⟩
    rw [hregistry]
    exact hσ.stored.registry.mono hmono
  refine bracket (·.exit (σ.machine.enter parent).current σ.machine.current) ?_ ?_
    (hrun _ hok hstarts hmono) fun σ' hσ' hafter => ?_
  · rw [← hx]
    rfl
  · rw [← hy]
    rfl
  · obtain ⟨w', hinv', hsub, hfns'⟩ := hclose σ' hafter hσ'.inv
    have hmono' : ∀ v, D.V σ' v → D.V ⟨w', _⟩ v := fun v hv => hv.mono hfns'
    refine ⟨w', ⟨hinv', ?_, hσ'.stored.registry.mono hmono'⟩, hsub, ?_⟩
    · exact (hσ'.stored.arena.mono hmono').release _ _
    · exact fun a ha v hv => hmono' v (ha v hv)

/-- Run a task in a new scope under the innermost one. -/
theorem inBlock {task : Task} {x₁ y₁ : Eval α} (bs : List (String × Value))
    (vals : α → List Value) (hσ : D.Ok σ) (hbody : D.Body σ σ.machine.current task)
    (hbs : ∀ b ∈ bs, D.V σ b.2)
    (hx : x₁ (σ.machine.enter σ.machine.current) =
      x ((σ.machine.enter σ.machine.current).defineAll bs))
    (hy : y₁ (σ.machine.enter σ.machine.current) =
      y ((σ.machine.enter σ.machine.current).defineAll bs))
    (hrun : ∀ σ', D.Ok σ' → (task.Binds σ.machine.registry.adts bs → D.Starts σ' task) →
      (∀ v, D.V σ v → D.V σ' v) → D.Does .stmt x y σ' fun a σ' => ∀ v ∈ vals a, D.V σ' v) :
    D.Does .expr (Eval.inBlock x₁) (Eval.inBlock y₁) σ fun a σ' => ∀ v ∈ vals a, D.V σ' v :=
  (H.inScope bs vals hσ hbody hbs hx hy hrun).congr rfl rfl

theorem inModule {name : String} {stmts : List Stmt} (vals : α → List Value) (hσ : D.Ok σ)
    (hmodule : D.Mod σ stmts)
    (hrun : ∀ σ', D.Ok σ' → D.Decl σ' stmts [] →
      D.Does .stmt x y σ' fun a σ' => ∀ v ∈ vals a, D.V σ' v) :
    D.Does .expr (Eval.inModule name x) (Eval.inModule name y) σ
      fun a σ' => ∀ v ∈ vals a, D.V σ' v := by
  obtain ⟨w, hinv, hfns, hdecl, hclose⟩ := H.module name hσ.inv hmodule
  have hmono : ∀ v, D.V σ v → D.V ⟨w, σ.machine.enterModule name⟩ v := fun v hv => hv.mono hfns
  have hok : D.Ok ⟨w, σ.machine.enterModule name⟩ :=
    ⟨hinv, (hσ.stored.arena.mono hmono).push (some σ.machine.root), hσ.stored.registry.mono hmono⟩
  refine bracket ({ · with current := σ.machine.current }) rfl rfl (hrun _ hok hdecl)
    fun σ' hσ' hafter => ?_
  obtain ⟨w', hinv', hsub, hfns'⟩ := hclose σ' hafter hσ'.inv
  have hmono' : ∀ v, D.V σ' v → D.V ⟨w', _⟩ v := fun v hv => hv.mono hfns'
  exact ⟨w', ⟨hinv', hσ'.stored.arena.mono hmono', hσ'.stored.registry.mono hmono'⟩, hsub,
    fun a ha v hv => hmono' v (ha v hv)⟩

theorem deeper (span : Span) (vals : α → List Value) (hσ : D.Ok σ)
    (hx : ∀ σ', D.Ok σ' → D.Sub σ σ' →
      D.Does .expr x y σ' fun a σ' => ∀ v ∈ vals a, D.V σ' v) :
    D.Does .expr (Eval.deeper span x) (Eval.deeper span y) σ
      fun a σ' => ∀ v ∈ vals a, D.V σ' v := by
  by_cases hdeep : σ.machine.maxDepth ≤ σ.machine.depth
  · exact does_of_error (i := .fault (.callTooDeep σ.machine.maxDepth span)) σ.known (if_pos hdeep)
      (if_pos hdeep) (fine_of_kind nofun) hσ (H.sub_refl σ)
  · obtain ⟨hok, hsub⟩ := H.ok_idle (m := { σ.machine with depth := σ.machine.depth + 1 }) hσ rfl rfl
      rfl rfl rfl hσ.stored.registry
    obtain ⟨heq, hend⟩ := hx _ hok hsub
    have hz : ∀ z : Eval α, Eval.deeper span z σ.machine =
        match z { σ.machine with depth := σ.machine.depth + 1 } with
        | .ok a m => .ok a { m with depth := σ.machine.depth }
        | .error i m => .error i { m with depth := σ.machine.depth } := fun z => if_neg hdeep
    dsimp only at heq
    cases hy : y { σ.machine with depth := σ.machine.depth + 1 } with
    | ok a m =>
      rw [hy] at hend
      obtain ⟨w, hok', hafter, ha⟩ := hend
      obtain ⟨hback, hsub'⟩ := H.ok_idle (m := { m with depth := σ.machine.depth }) hok' rfl rfl rfl
        rfl rfl hok'.stored.registry
      refine does_of_ok w ?_ ?_ hback (H.sub_trans hsub (H.sub_trans hafter hsub'))
        fun v hv => H.value_mono (k := .expr) hsub' (ha v hv)
      · rw [hz, heq, hy]
      · rw [hz, hy]
    | error i m =>
      rw [hy] at hend
      obtain ⟨hi, w, hok', hafter⟩ := hend
      obtain ⟨hback, hsub'⟩ := H.ok_idle (m := { m with depth := σ.machine.depth }) hok' rfl rfl rfl
        rfl rfl hok'.stored.registry
      refine does_of_error w ?_ ?_ hi hback (H.sub_trans hsub (H.sub_trans hafter hsub'))
      · rw [hz, heq, hy]
      · rw [hz, hy]

/-! ### Functions and declarations -/

theorem makeFnM {params : List Param} {body : FnBody} (name : Option String) (hσ : D.Ok σ)
    (hmakes : D.Makes σ (params.map (·.name.text)) body) :
    D.Does .expr (Eval.makeFn name params body) (Eval.makeFn name params body) σ
      fun v σ' => D.V σ' v := by
  obtain ⟨w, hinv, hsub, hfn⟩ := H.makeFn name hσ.inv hmakes
  have hmono : ∀ v, D.V σ v → D.V ⟨w, (σ.machine.makeFn name params body).2⟩ v := fun v hv =>
    H.value_mono (k := .expr) hsub hv
  exact does_of_ok w rfl rfl ⟨hinv, (hσ.stored.mono hmono).makeFn name params body⟩ hsub
    (Value.sane_atom rfl hfn)

theorem register {span : Span} {u : Registry Value → Except RegistrationError (Registry Value)}
    (hσ : D.Ok σ) (hu : ∀ r, u σ.machine.registry = .ok r →
      r.Stored (D.V σ) ∧ r.adts = σ.machine.registry.adts) :
    D.Does .stmt (Eval.register span u) (Eval.register span u) σ fun _ σ' => D.Sub σ σ' := by
  cases h : u σ.machine.registry with
  | ok r =>
    obtain ⟨hstored, hadts⟩ := hu r h
    obtain ⟨hok, hsub⟩ := H.ok_idle (m := { σ.machine with registry := r }) hσ rfl rfl rfl rfl hadts
      hstored
    have heval : Eval.register span u σ.machine = .ok () { σ.machine with registry := r } := by
      rw [Eval.register, h]
    exact does_of_ok σ.known heval heval hok (H.run_of_sub hsub) hsub
  | error e =>
    have heval : Eval.register span u σ.machine = .error (.fault (.refused e span)) σ.machine := by
      rw [Eval.register, h]
    exact does_of_error σ.known heval heval (fine_of_kind nofun) hσ (H.after_refl .stmt σ)

/-- The declarations of a scope are being made; those of the names `need` have been. -/
def Declaring (D : Discipline W) (stmts : List Stmt) (need : List String) (σ : Config W) : Prop :=
  ∃ done, need ⊆ done ∧ D.Decl σ stmts done

variable {stmts : List Stmt} {need : List String}

theorem declaring_mono (h : Declaring D stmts need σ) (hsub : D.Sub σ σ') :
    Declaring D stmts need σ' := by
  obtain ⟨done, hneed, hdecl⟩ := h
  exact ⟨done, hneed, H.decl_mono hsub hdecl⟩

theorem bindName {name : String} {v : Value} {isPub : Bool} (hσ : D.Ok σ)
    (hdecl : Declaring D stmts need σ) (hv : D.V σ v) :
    D.Does .stmt (Eval.bindName name v isPub) (Eval.bindName name v isPub) σ
      fun _ σ' => Declaring D stmts (name :: need) σ' := by
  obtain ⟨done, hneed, hdecl⟩ := hdecl
  obtain ⟨w, hinv, hrun, hdecl'⟩ := H.decl_bind name isPub hσ.inv hdecl hv
  exact does_of_ok w rfl rfl (H.ok_bind hσ hv hinv hrun) hrun
    ⟨name :: done, List.cons_subset_cons name hneed, hdecl'⟩

omit H in
theorem Declaring.weaken {name : String} (h : Declaring D stmts (name :: need) σ) :
    Declaring D stmts need σ := by
  obtain ⟨done, hneed, hdecl⟩ := h
  exact ⟨done, fun x hx => hneed (List.mem_cons_of_mem _ hx), hdecl⟩

theorem bindNameM {name : String} {v : Value} {isPub : Bool} (hσ : D.Ok σ)
    (hdecl : Declaring D stmts need σ) (hv : D.V σ v) :
    D.Does .stmt (Eval.bindName name v isPub) (Eval.bindName name v isPub) σ
      fun _ σ' => Declaring D stmts need σ' :=
  (H.bindName hσ hdecl hv).mono fun _ _ _ _ h => h.weaken

theorem declareAdt {s : Stmt} {adt : Adt} (hσ : D.Ok σ) (hdecl : Declaring D stmts need σ)
    (hs : s ∈ stmts) (hadt : s.adt? = some adt) :
    D.Does .stmt (Eval.declareAdt adt) (Eval.declareAdt adt) σ
      fun _ σ' => Declaring D stmts need σ' := by
  obtain ⟨done, hneed, hdecl⟩ := hdecl
  obtain ⟨w, hinv, hrun, hdecl'⟩ := H.decl_adt hσ.inv hdecl hs hadt rfl
  have hmono : ∀ v, D.V σ v → D.V ⟨w, _⟩ v := fun v hv => H.value_mono (k := .stmt) hrun hv
  refine does_of_ok w rfl rfl ⟨hinv, hσ.stored.arena.mono hmono, ?_⟩ hrun ⟨done, hneed, hdecl'⟩
  exact ⟨fun e he f hf => hmono _ (hσ.stored.registry.impls e he f hf),
    fun e he f hf => hmono _ (hσ.stored.registry.defaults e he f hf)⟩

theorem declareType {s : Stmt} (hσ : D.Ok σ) (hdecl : Declaring D stmts need σ) (hs : s ∈ stmts) :
    D.Does .stmt (Eval.declareType s) (Eval.declareType s) σ
      fun _ σ' => Declaring D stmts need σ' := by
  cases s with
  | typeclass d =>
    refine H.bind (H.register hσ fun r hr => hσ.stored.registry.addClass hr) fun _ σ' hσ' _ hsub => ?_
    refine H.forM (J := fun _ σ => Declaring D stmts need σ) (fun sig _ σ hσ hJ => ?_) d.methods hσ'
      (H.declaring_mono hdecl hsub)
    exact H.bindNameM hσ hJ (Value.sane_atom rfl fun _ => trivial)
  | struct d =>
    refine H.bind (H.declareAdt hσ hdecl hs rfl) fun _ σ' hσ' _ hdecl' => H.bindNameM hσ' hdecl' ?_
    obtain ⟨done, -, hdone⟩ := hdecl
    exact Value.sane_atom rfl fun hp => H.decl_struct hp hdone hs
  | enum d =>
    refine H.bind (H.forM (J := fun _ σ => Declaring D stmts need σ) (fun v _ σ hσ hJ => ?_) _ hσ hdecl)
      fun _ σ' hσ' _ hdecl' => H.declareAdt hσ' hdecl' hs rfl
    refine H.bindNameM hσ hJ ?_
    rw [Eval.variantValue]
    split <;> exact Value.sane_atom rfl fun _ => trivial
  | _ => exact H.pure hσ hdecl

theorem declareFn {s : Stmt} (hσ : D.Ok σ) (hdecl : Declaring D stmts need σ) (hs : s ∈ stmts) :
    D.Does .stmt (Eval.declareFn s) (Eval.declareFn s) σ
      fun _ σ' => Declaring D stmts (s.fnNames ++ need) σ' := by
  cases s with
  | fn d =>
    obtain ⟨done, hneed, hdone⟩ := hdecl
    have hmakes := H.decl_fn hσ.inv hdone hs (d := d) (by simp [Stmt.fns])
    refine H.bind (H.stmt_of_expr (H.makeFnM _ hσ hmakes)) fun v σ' hσ' _ hv => ?_
    exact H.bindName hσ' ⟨done, hneed, H.decl_mono hv.1 hdone⟩ hv.2
  | _ => exact H.pure hσ hdecl

theorem makeMethods (methods : List FnDecl) (hσ : D.Ok σ)
    (hmakes : ∀ σ', D.Inv σ' → D.Sub σ σ' → ∀ d ∈ methods,
      D.Makes σ' (d.params.map (·.name.text)) (.block d.body)) :
    D.Does .expr
      (methods.mapM fun f => return (f.name.text, f.params.length, ← Eval.makeNamedFn f))
      (methods.mapM fun f => return (f.name.text, f.params.length, ← Eval.makeNamedFn f)) σ
      fun found σ' => ∀ f ∈ found, D.V σ' f.2.2 := by
  induction methods generalizing σ with
  | nil => exact H.pure hσ (List.forall_mem_nil _)
  | cons d methods ih =>
    rw [List.mapM_cons]
    have hfirst := H.makeFnM (some d.name.text) hσ
      (hmakes σ hσ.inv (H.sub_refl σ) d List.mem_cons_self)
    refine H.bind (Q := fun p σ' => D.V σ' p.2.2) ?_ fun p σ₁ hσ₁ hsub₁ hp => ?_
    · exact H.bind hfirst fun v σ' hσ' _ hv => H.pure hσ' hv
    · refine H.bind (ih hσ₁ fun σ' hinv hsub d hd => ?_) fun found σ₂ hσ₂ hsub₂ hfound => H.pure hσ₂ ?_
      · exact hmakes σ' hinv (H.sub_trans hsub₁ hsub) d (List.mem_cons_of_mem _ hd)
      · exact List.forall_mem_cons.2 ⟨H.value_mono hsub₂ hp, hfound⟩

theorem declareImpl {s : Stmt} (hσ : D.Ok σ) (hdecl : Declaring D stmts need σ) (hs : s ∈ stmts) :
    D.Does .stmt (Eval.declareImpl s) (Eval.declareImpl s) σ
      fun _ σ' => Declaring D stmts need σ' := by
  cases s with
  | impl d =>
    have hmakes : ∀ σ', D.Inv σ' → D.Sub σ σ' → ∀ f ∈ d.methods,
        D.Makes σ' (f.params.map (·.name.text)) (.block f.body) := by
      intro σ' hinv hsub f hf
      obtain ⟨done, -, hdone⟩ := hdecl
      exact H.decl_fn hinv (H.decl_mono hsub hdone) hs hf
    refine H.bind (H.stmt_of_expr (H.makeMethods d.methods hσ hmakes))
      fun found σ₁ hσ₁ _ hfound => ?_
    have hadd : ∀ r,
        σ₁.machine.registry.addImpl d.typeclass.text (d.target.map (·.text)) found = .ok r →
        r.Stored (D.V σ₁) ∧ r.adts = σ₁.machine.registry.adts := fun r hr =>
      hσ₁.stored.registry.addImpl hr hfound.2
    refine (H.register hσ₁ hadd).mono fun _ σ₂ _ _ hsub => ?_
    exact H.declaring_mono hdecl (H.sub_trans hfound.1 hsub)
  | _ => exact H.pure hσ hdecl

theorem checkDerives {s : Stmt} (hσ : D.Ok σ) (hdecl : Declaring D stmts need σ) :
    D.Does .stmt (Eval.checkDerives s) (Eval.checkDerives s) σ
      fun _ σ' => Declaring D stmts need σ' := by
  have hvalidate : ∀ name span, D.Does .stmt (Eval.validate name span) (Eval.validate name span) σ
      fun _ σ' => Declaring D stmts need σ' := by
    intro name span
    refine (H.register hσ fun r hr => ?_).mono fun _ σ' _ _ hsub => H.declaring_mono hdecl hsub
    have hsame : r = σ.machine.registry := by
      split at hr
      · rename_i adt _
        cases hcheck : σ.machine.registry.checkDerives name adt.derives with
        | ok _ =>
          rw [hcheck] at hr
          cases hr
          rfl
        | error e =>
          rw [hcheck] at hr
          cases hr
      · cases hr
        rfl
    subst hsame
    exact ⟨hσ.stored.registry, rfl⟩
  cases s with
  | struct d =>
    rw [Eval.checkDerives]
    split
    · exact H.pure hσ hdecl
    · exact hvalidate _ _
  | enum d =>
    rw [Eval.checkDerives]
    split
    · exact H.pure hσ hdecl
    · exact hvalidate _ _
  | _ => exact H.pure hσ hdecl

/-- After its declarations have been made, the statements of a scope can run. -/
theorem declare (hσ : D.Ok σ) (hdecl : D.Decl σ stmts []) :
    D.Does .stmt (Eval.declare stmts) (Eval.declare stmts) σ fun _ σ' => D.Rest σ' stmts := by
  -- what is left of the list belongs to it, and `need` stays done
  have hloop : ∀ {f : Stmt → Eval PUnit} {need : List String} {σ : Config W},
      (∀ s ∈ stmts, ∀ σ, D.Ok σ → Declaring D stmts need σ →
        D.Does .stmt (f s) (f s) σ fun _ σ' => Declaring D stmts need σ') →
      D.Ok σ → Declaring D stmts need σ →
      D.Does .stmt (stmts.forM f) (stmts.forM f) σ fun _ σ' => Declaring D stmts need σ' := by
    intro f need σ hf hσ hneed
    refine (H.forM (J := fun rest σ => rest ⊆ stmts ∧ Declaring D stmts need σ)
      (fun s rest σ hσ hJ => ?_) stmts hσ ⟨List.Subset.refl _, hneed⟩).mono fun _ _ _ _ h => h.2
    refine (hf s (hJ.1 List.mem_cons_self) σ hσ hJ.2).mono fun _ σ' _ _ h => ⟨?_, h⟩
    exact fun t ht => hJ.1 (List.mem_cons_of_mem _ ht)
  have hfns : ∀ {σ : Config W}, D.Ok σ → Declaring D stmts [] σ →
      D.Does .stmt (stmts.forM Eval.declareFn) (stmts.forM Eval.declareFn) σ
        fun _ σ' => Declaring D stmts (stmts.flatMap Stmt.fnNames) σ' := by
    intro σ hσ hdecl
    -- the names of the functions before what is left have been bound
    refine (H.forM (J := fun rest σ => rest ⊆ stmts ∧ ∃ need, Declaring D stmts need σ ∧
      ∀ s ∈ stmts, s ∈ rest ∨ s.fnNames ⊆ need) (fun s rest σ hσ hJ => ?_) stmts hσ
      ⟨List.Subset.refl _, [], hdecl, fun s hs => .inl hs⟩).mono fun _ σ' _ _ h => ?_
    · obtain ⟨hrest, need, hneed, hall⟩ := hJ
      refine (H.declareFn hσ hneed (hrest List.mem_cons_self)).mono fun _ σ' _ _ h =>
        ⟨fun t ht => hrest (List.mem_cons_of_mem _ ht), _, h, fun t ht => ?_⟩
      rcases hall t ht with ht | ht
      · rcases List.mem_cons.1 ht with rfl | ht
        · exact .inr (List.subset_append_left _ _)
        · exact .inl ht
      · exact .inr fun x hx => List.mem_append_right _ (ht hx)
    · obtain ⟨-, need, ⟨done, hdone, hdecl⟩, hall⟩ := h
      refine ⟨done, fun x hx => ?_, hdecl⟩
      obtain ⟨s, hs, hx⟩ := List.mem_flatMap.1 hx
      exact hdone ((hall s hs).resolve_left List.not_mem_nil hx)
  refine H.bind (hloop (fun s hs σ hσ h => H.declareType hσ h hs) hσ
    ⟨[], List.Subset.refl _, hdecl⟩) fun _ σ₁ hσ₁ _ h₁ => ?_
  refine H.bind (hfns hσ₁ h₁) fun _ σ₂ hσ₂ _ h₂ => ?_
  refine H.bind (hloop (fun s hs σ hσ h => H.declareImpl hσ h hs) hσ₂ h₂) fun _ σ₃ hσ₃ _ h₃ => ?_
  refine (hloop (fun s _ σ hσ h => H.checkDerives hσ h) hσ₃ h₃).mono fun _ σ₄ _ _ h₄ => ?_
  obtain ⟨done, hdone, hdecl'⟩ := h₄
  exact H.decl_done hdecl' fun s hs x hx => hdone (List.mem_flatMap.2 ⟨s, hs, hx⟩)

end Lawful

end Discipline

end Sluice
