import Sluice.Proofs.Eval.Alive
import Sluice.Proofs.Eval.Obey

/-! Constants stay what they are. A constant of a scope that can be reached is not changed by anything that
runs, be it in the scope or elsewhere, with one exception: an import into the scope of a name that a
constant has puts a variable in its place. -/
namespace Sluice

open Machine Arena

def Stmt.Imports (m : Machine) (x : String) (v : Value) : Stmt → Prop
  | use source names span => ∃ found, m.imports source names span = .ok found ∧ (x, v) ∈ found
  | _ => False

def Machine.Keeps (keep : ScopeId → String → Binding → Prop) (m : Machine) : Prop :=
  ∀ s x b, keep s x b → m.arena.Rooted s ∧ m.arena.local? s x = some b

variable {keep : ScopeId → String → Binding → Prop} {known : List Closure} {m m' : Machine}

theorem Machine.Keeps.steady (h : m.Keeps keep) (hsteady : Steady m.arena m'.arena)
    (hlocal : ∀ s x b, keep s x b → m.arena.Rooted s → m'.arena.local? s x = m.arena.local? s x) :
    m'.Keeps keep := by
  intro s x b hk
  obtain ⟨hs, hb⟩ := h s x b hk
  exact ⟨hsteady.rooted hs, (hlocal s x b hk hs).trans hb⟩

/-- One binding that is not kept is made or changed. -/
theorem Machine.Keeps.define (h : m.Keeps keep) {t : ScopeId} {name : String} (v : Binding)
    (hnot : ∀ b, ¬ keep t name b) :
    Machine.Keeps keep { m with arena := m.arena.define t name v } := by
  refine h.steady (steady_define _ _ _ _) fun s x b hk _ => local?_define_of_ne _ ?_
  by_contra! hsame
  exact hnot b (hsame.1 ▸ hsame.2 ▸ hk)

/-- Variables that are not kept are made in the innermost scope. -/
theorem Machine.Keeps.defineAll (h : m.Keeps keep) {bs : List (String × Value)}
    (hsteady : Steady m.arena (m.defineAll bs).arena)
    (hnot : ∀ x ∈ bs.map (·.1), ∀ b, ¬ keep m.current x b) : (m.defineAll bs).Keeps keep := by
  refine h.steady hsteady fun s x b hk _ => local?_defineAll_of_ne ?_
  by_contra! hsame
  exact hnot x hsame.2 b (hsame.1 ▸ hk)

/-! ### The discipline -/

/-- The bindings of `keep` stay. In a scope that has one of them at most one statement is left to run,
and that does not import its name. -/
def constancy (keep : ScopeId → String → Binding → Prop) : Discipline (List Closure) where
  proper := False
  lenient := True
  Inv σ := σ.machine.Alive σ.known ∧ σ.machine.Keeps keep
  Sub σ σ' := Lasts σ.known σ'.known σ.machine σ'.machine
  Run σ σ' := Lasts σ.known σ'.known σ.machine σ'.machine
  Fn σ c := c ∈ σ.known
  Makes _ _ _ := True
  Term _ _ := True
  Rest σ l := ∀ x b, keep σ.machine.current x b → l.length ≤ 1 ∧
    ∀ s ∈ l, ∀ v, ¬ s.Imports σ.machine x v
  Decl σ _ _ := ∀ x b, ¬ keep σ.machine.current x b
  Mod _ _ := True
  Body σ parent _ := parent = σ.machine.current ∨ ∃ c ∈ σ.known, c.scope = parent

namespace Constancy

theorem closures_of_value {σ : Config (List Closure)} {v : Value} (h : (constancy keep).V σ v) :
    ∀ c ∈ v.closures, c ∈ σ.known := fun _ hc => h.closure hc

/-- One statement was left to run, and it has run. -/
theorem rest_of_rest {σ σ' : Config (List Closure)} {s : Stmt} {l : List Stmt}
    (h : (constancy keep).Rest σ (s :: l)) (hcurrent : σ'.machine.current = σ.machine.current) :
    (constancy keep).Rest σ' l := by
  intro x b hk
  rw [hcurrent] at hk
  obtain ⟨hlen, -⟩ := h x b hk
  have hnil : l = [] := List.length_eq_zero_iff.1 (Nat.le_zero.1 (Nat.le_of_succ_le_succ hlen))
  simp [hnil]

theorem starts {σ : Config (List Closure)} (task : Task)
    (h : ∀ x b, ¬ keep σ.machine.current x b) : (constancy keep).Starts σ task := by
  cases task with
  | fn params body => exact h
  | block body => exact h
  | pipeline stages => exact fun _ _ => trivial
  | hole stage => exact trivial
  | arm pat body =>
    cases body with
    | expr e => exact trivial
    | block b => exact h

/-- A scope that is new has none of the bindings. -/
theorem not_keep_entered (h : m.Alive known) (hk : m.Keeps keep) (parent : ScopeId) (x : String)
    (b : Binding) : ¬ keep (m.enter parent).current x b :=
  fun hb => h.ne_enter parent (hk _ x b hb).1 rfl

theorem keeps_enter (h : m.Alive known) (hk : m.Keeps keep) (parent : ScopeId)
    (hsteady : Steady m.arena (m.enter parent).arena) : (m.enter parent).Keeps keep :=
  hk.steady hsteady fun _ x _ _ hs => congrFun (h.local?_enter parent hs) x

theorem stateLaws : (constancy keep).StateLaws where
  sub_refl σ := .refl σ.known σ.machine
  sub_trans h h' := h.trans h'
  run_trans h h' := h.trans h'
  run_of_sub h := h
  fn_mono h hc := h.known hc
  idle := by
    intro σ m hinv harena hcurrent hroot _ _
    obtain ⟨halive, hlasts⟩ := hinv.1.idle m harena hcurrent hroot
    exact ⟨⟨halive, hinv.2.steady hlasts.steady fun _ _ _ _ _ => by rw [harena]⟩, hlasts⟩

theorem scopeLaws : (constancy keep).ScopeLaws where
  call _ hc := .inr ⟨_, hc, rfl⟩
  makeFn := by
    intro σ params body name hinv _
    obtain ⟨halive, hlasts⟩ := hinv.1.makeFn name params body
    refine ⟨_, ⟨halive, hinv.2.steady hlasts.steady fun s x _ _ _ => ?_⟩, hlasts,
      List.mem_append_right _ List.mem_cons_self⟩
    exact congrFun (Alive.local?_makeFn σ.machine name params body s) x
  scope := by
    intro σ parent task bs hinv hbody hbs
    obtain ⟨halive, hkeeps⟩ := hinv
    have hparent : (σ.machine.arena.scope? parent).isSome := by
      rcases hbody with rfl | ⟨c, hc, rfl⟩
      · exact halive.isSome_current
      · exact halive.isSome_of_rooted (halive.rooted_known hc)
    obtain ⟨hentered, hsteady⟩ := halive.enter hparent
    obtain ⟨hbound, hlasts⟩ := hentered.defineAll fun b hb => closures_of_value (hbs b hb)
    have hnot := not_keep_entered halive hkeeps parent
    have hkeeps' := (keeps_enter halive hkeeps parent hsteady).defineAll hlasts.steady
      fun x _ b => hnot x b
    refine ⟨σ.known, ⟨hbound, hkeeps'⟩, fun _ hc => hc, fun _ => starts task ?_, ?_⟩
    · simpa using hnot
    · intro σ' hrun hinv'
      obtain ⟨halive', hlasts', hlocal, -⟩ := halive.exit hinv'.1 hrun.known (hrun.root.trans hlasts.root)
        (hsteady.trans (hlasts.steady.trans hrun.steady)) (halive.vacant_enter parent)
      refine ⟨σ'.known, ⟨halive', fun s x b hk => ?_⟩, hlasts', fun _ hc => hc⟩
      have hs := (hkeeps s x b hk).1
      exact ⟨hlasts'.steady.rooted hs, (congrFun (hlocal s hs) x).trans (hinv'.2 s x b hk).2⟩
  module := by
    intro σ stmts name hinv _
    obtain ⟨halive, hkeeps⟩ := hinv
    obtain ⟨hentered, hsteady⟩ := halive.enter (isSome_of_isOpen halive.root)
    obtain ⟨hopened, hlasts⟩ := hentered.idle (σ.machine.enterModule name) rfl rfl rfl
    have hkeeps' := keeps_enter halive hkeeps σ.machine.root hsteady
    refine ⟨σ.known, ⟨hopened, hkeeps'⟩, fun _ hc => hc,
      not_keep_entered halive hkeeps σ.machine.root, fun σ' hrun hinv' => ?_⟩
    obtain ⟨halive', hlasts'⟩ := halive.leave hinv'.1 hrun.known hrun.root (hsteady.trans hrun.steady)
    exact ⟨σ'.known, ⟨halive', hinv'.2⟩, hlasts', fun _ hc => hc⟩

theorem exprLaws : (constancy keep).ExprLaws where
  expr_mono _ _ := trivial
  expr_part _ _ := trivial
  expr_tuple h _ := h.elim
  expr_lambda _ := trivial
  expr_deferred _ := trivial
  expr_hole _ := .inl rfl

/-- All statements that give a name a new value look at it first, but for imports. -/
theorem stmtLaws (hconst : ∀ s x b, keep s x b → b.isConst = true) : (constancy keep).StmtLaws where
  rest_expr _ _ _ := trivial
  rest_block _ _ _ := .inl rfl
  rest_arm _ _ _ := .inl rfl
  rest_module _ := trivial
  rest_pass hrest hsub _ := rest_of_rest hrest hsub.current
  var_const _ _ _ _ := trivial
  var_bind := by
    intro σ σ' name type isConst isPub value span l v hinv hrest hvar hsub hinv' hv
    obtain ⟨halive, hlasts⟩ := hinv'.1.define σ'.machine.current name.text (b := ⟨v, isConst, isPub⟩)
      (closures_of_value hv)
    have hnot : ∀ b, ¬ keep σ'.machine.current name.text b := by
      intro b hk
      have hb := (hinv.2 _ _ b hk).2
      rw [hsub.current] at hb hk
      exact Bool.false_ne_true ((hvar b hb).symm.trans (hconst _ _ b hk))
    exact ⟨σ'.known, ⟨halive, hinv'.2.define _ hnot⟩, hlasts, rest_of_rest hrest hsub.current⟩
  assign_const _ _ _ _ _ _ := trivial
  assign_lost _ _ _ _ _ _ _ _ _ := trivial
  assign_old := by
    intro σ σ₁ σ₂ target op value span l root owner b v arena _ hinv hrest hsub₁ hsub₂ _ _ _ hv hassign
    obtain ⟨owner', old, hfind, rfl⟩ := assign_eq_ok hassign
    obtain ⟨halive, hlasts⟩ := hinv.1.define owner' root.text (b := { old with value := v })
      (closures_of_value hv)
    have hnot : ∀ b', ¬ keep owner' root.text b' := by
      intro b' hk
      have hlocal := (local?_of_findFrom hfind).symm.trans (hinv.2 _ _ b' hk).2
      cases hlocal
      exact Bool.false_ne_true ((isConst_of_assign hassign hfind).symm.trans (hconst _ _ _ hk))
    exact ⟨σ₂.known, ⟨halive, hinv.2.define _ hnot⟩, hlasts,
      rest_of_rest hrest (hsub₂.current.trans hsub₁.current)⟩
  assign_new := by
    intro σ σ₁ σ₂ target op value span l root v hinv₁ hinv hrest hsub₁ hsub₂ _ hnone hv
    obtain ⟨halive, hlasts⟩ := hinv.1.define σ₂.machine.current root.text (b := ⟨v, false, false⟩)
      (closures_of_value hv)
    have hnot : ∀ b, ¬ keep σ₂.machine.current root.text b := by
      intro b hk
      rw [hsub₂.current] at hk
      have hfind := find?_of_local? (hinv₁.2 _ _ b hk).2
      rw [hnone] at hfind
      cases hfind
    exact ⟨σ₂.known, ⟨halive, hinv.2.define _ hnot⟩, hlasts,
      rest_of_rest hrest (hsub₂.current.trans hsub₁.current)⟩
  use := by
    intro σ source names span l found hinv hrest hfound hbs
    obtain ⟨halive, hlasts⟩ := hinv.1.defineAll fun b hb => closures_of_value (hbs b hb)
    refine ⟨σ.known, ⟨halive, hinv.2.defineAll hlasts.steady fun x hx b hk => ?_⟩, hlasts,
      rest_of_rest hrest hlasts.current⟩
    obtain ⟨e, he, rfl⟩ := List.mem_map.1 hx
    exact (hrest _ b hk).2 _ List.mem_cons_self e.2 ⟨found, hfound, he⟩

theorem declLaws : (constancy keep).DeclLaws where
  decl_mono hsub hdecl x b := hsub.current ▸ hdecl x b
  decl_bind := by
    intro σ stmts done v name isPub hinv hdecl hv
    obtain ⟨halive, hlasts⟩ := hinv.1.define σ.machine.current name (b := ⟨v, false, isPub⟩)
      (closures_of_value hv)
    exact ⟨σ.known, ⟨halive, hinv.2.define _ fun b => hdecl name b⟩, hlasts, hdecl⟩
  decl_adt := by
    rintro σ m stmts done s adt hinv hdecl _ _ rfl
    obtain ⟨halive, hlasts⟩ := hinv.1.idle ({ σ.machine with registry :=
      { σ.machine.registry with adts := σ.machine.registry.adts.declare adt } }) rfl rfl rfl
    exact ⟨σ.known, ⟨halive, hinv.2⟩, hlasts, hdecl⟩
  decl_struct h _ _ := h.elim
  decl_fn _ _ _ _ := trivial
  decl_done hdecl _ x b hk := (hdecl x b hk).elim

theorem lawful (hconst : ∀ s x b, keep s x b → b.isConst = true) : (constancy keep).Lawful :=
  ⟨stateLaws, scopeLaws, exprLaws, stmtLaws hconst, declLaws⟩

theorem admits (σ : Config (List Closure)) (x : Entry) : (constancy keep).Admits σ x := by
  cases x with
  | expr e => exact trivial
  | module md => exact trivial

end Constancy

/-! ### One constant -/

/-- Scope `s` can be reached and has the constant `b` under the name `x`. -/
structure Machine.Constant (m : Machine) (s : ScopeId) (x : String) (b : Binding) : Prop where
  live : m.arena.Reaches [] s
  bound : m.arena.local? s x = some b
  isConst : b.isConst = true

def Job.Imports (m : Machine) (s : ScopeId) (x : String) (v : Value) : Job → Prop
  | stmt st => m.current = s ∧ st.Imports m x v
  | _ => False

namespace Constancy

def nothing : ScopeId → String → Binding → Prop := fun _ _ _ => False

def only (s : ScopeId) (x : String) (b : Binding) : ScopeId → String → Binding → Prop :=
  fun s' x' b' => s' = s ∧ x' = x ∧ b' = b

variable {s : ScopeId} {x : String} {b : Binding} {σ : Config (List Closure)} {j : Job} {e : Entry}

theorem lawful_nothing : (constancy nothing).Lawful := lawful fun _ _ _ h => h.elim

theorem lawful_only (hb : b.isConst = true) : (constancy (only s x b)).Lawful :=
  lawful fun _ _ _ h => h.2.2 ▸ hb

theorem ok_of_reachable (hm : m.Reachable) : ∃ w, (constancy nothing).Ok ⟨w, m⟩ := by
  refine lawful_nothing.reachable (fun e σ _ _ => admits σ e) (fun args maxDepth w => ?_) hm.reachableBy
  exact ⟨[], ⟨alive_start args maxDepth w, fun _ _ _ h => h.elim⟩, stored_start args maxDepth w⟩

/-- A constant that is there can be kept. -/
theorem ok_only (hσ : (constancy nothing).Ok σ) (hb : σ.machine.Constant s x b) :
    (constancy (only s x b)).Ok σ := by
  have hfns : ∀ t sc, σ.machine.arena.scope? t = some sc → ∀ c ∈ sc.functions,
      σ.machine.arena.isHandled c.scope = true := by
    intro t sc ht c hc
    obtain ⟨entry, hentry, hc⟩ := List.mem_flatMap.1 hc
    exact hσ.inv.1.held c (closures_of_value (hσ.stored.arena t sc entry ht hentry) c hc)
  refine ⟨⟨hσ.inv.1, ?_⟩, hσ.stored⟩
  rintro _ _ _ ⟨rfl, rfl, rfl⟩
  exact ⟨hb.live.rooted hfns, hb.bound⟩

theorem constant_of_ok (hb : b.isConst = true) (hσ : (constancy (only s x b)).Ok σ) :
    σ.machine.Constant s x b := by
  obtain ⟨hs, hlocal⟩ := hσ.inv.2 s x b ⟨rfl, rfl, rfl⟩
  exact ⟨hs.reaches, hlocal, hb⟩

/-- A job that does not import the name can be done without loss of the constant. -/
theorem ready_only (hj : (constancy nothing).Ready σ j) (huse : ∀ v, ¬ j.Imports σ.machine s x v) :
    (constancy (only s x b)).Ready σ j := by
  cases j with
  | expr e => exact trivial
  | stmt st =>
    refine ⟨[], ?_⟩
    rintro x' b' ⟨hcurrent, rfl, -⟩
    refine ⟨Nat.le_refl 1, fun st' hst' v himports => huse v ⟨hcurrent, ?_⟩⟩
    rwa [List.mem_singleton.1 hst'] at himports
  | call f args span => exact hj
  | body c args span => exact hj

theorem entry_keeps (hσ : (constancy nothing).Ok σ) (hb : σ.machine.Constant s x b) (e : Entry) (n : Nat) :
    Always (fun _ m => m.Constant s x b) (Entry.run · e) n σ.machine ∧
      ((e.run (.ofFuel n)).after σ.machine).Constant s x b := by
  have H := lawful_only (s := s) (x := x) hb.isConst
  have hok := ok_only hσ hb
  have hobeys := H.obeys_ofFuel (P := fun _ m => m.Constant s x b)
    (fun _ _ hσ' _ => constant_of_ok hb.isConst hσ') .outOfFuel n
  refine ⟨H.always (fun _ _ hσ' _ => constant_of_ok hb.isConst hσ') n hok (admits σ e), ?_⟩
  obtain ⟨w, hafter, -⟩ := (H.entry hobeys hok (admits σ e)).ok_after
  exact constant_of_ok hb.isConst hafter

theorem job_keeps (hσ : (constancy nothing).Ok σ) (hj : (constancy nothing).Ready σ j)
    (hb : σ.machine.Constant s x b) (huse : ∀ v, ¬ j.Imports σ.machine s x v) (n : Nat) :
    Always (fun _ m => m.Constant s x b) (Job.run · j) n σ.machine ∧
      ((j.run (.ofFuel n)).after σ.machine).Constant s x b := by
  have H := lawful_only (s := s) (x := x) hb.isConst
  have hok := ok_only hσ hb
  have hready := ready_only (b := b) hj huse
  have hobeys := H.obeys_ofFuel (P := fun _ m => m.Constant s x b)
    (fun _ _ hσ' _ => constant_of_ok hb.isConst hσ') .outOfFuel n
  refine ⟨H.always_job (fun _ _ hσ' _ => constant_of_ok hb.isConst hσ') n hok hready, ?_⟩
  obtain ⟨w, hafter, -⟩ := (H.job hobeys hok hready).ok_after
  exact constant_of_ok hb.isConst hafter

/-- An import binds what it brings, whatever was bound before. -/
theorem import_binds (hm : (m.arena.scope? m.current).isSome) {v : Value}
    (hj : j.Imports m s x v) (n : Nat) : ∃ v, j.Imports m s x v ∧
      ((j.run (.ofFuel (n + 1))).after m).arena.local? s x = some ⟨v, false, false⟩ := by
  cases j with
  | stmt st =>
    obtain ⟨rfl, himports⟩ := hj
    cases st with
    | use source names span =>
      obtain ⟨found, hfound, hv⟩ := himports
      obtain ⟨v', hv', hlocal⟩ := local?_defineAll_of_mem (m := m) hm (List.mem_map_of_mem (f := (·.1)) hv)
      refine ⟨v', ⟨rfl, found, hfound, hv'⟩, ?_⟩
      have hquery : Eval.query (·.imports source names span) m = .ok found m := by
        show Eval.of (m.imports source names span) m = _
        rw [hfound]
        rfl
      have hrun : Runner.runUse source names span m = .ok () (m.defineAll found) :=
        (Eval.bind_of_ok hquery).trans (Discipline.Lawful.forM_define_eq found m)
      have hjob : Job.run (.ofFuel (n + 1)) (.stmt (.use source names span)) m =
          .ok (.value .unit) (m.defineAll found) := Eval.bind_of_ok hrun
      rw [Eval.after_of_ok hjob]
      exact hlocal
    | _ => exact himports.elim
  | _ => exact hj.elim

end Constancy

/-- The evaluation of an expression begins with it. -/
theorem begins_expr (e : Expr) (n : Nat) (m : Machine) :
    Begins (.expr e) m (Entry.run · (.expr e)) (n + 1) m := by
  intro hnever
  have hstops : ∀ i, (Runner.watched (fun j m₁ => ¬ (j = .expr e ∧ m₁ = m)) i (n + 1)).expr e m =
      .error i m := fun i => if_neg fun h => h ⟨rfl, rfl⟩
  have hzero := (hstops (.exit 0)).symm.trans (hnever (.exit 0))
  have hone := (hstops (.exit 1)).symm.trans (hnever (.exit 1))
  cases hzero.trans hone.symm

/-- Constants stay what they are over whole runs. What is run from outside changes no constant of a scope
that can be reached. Neither does any job on the way, at no point and not at its end, nor the end of the
block it is in, if that does not free the scope; but an import into the scope that brings the name puts a
variable in place of the constant. -/
theorem constants_stay {m₀ : Machine} (h₀ : m₀.Reachable) (e : Entry) (n : Nat) (s : ScopeId) (x : String)
    (b : Binding) :
    (m₀.Constant s x b → Always (fun _ m => m.Constant s x b) (Entry.run · e) n m₀ ∧
      ((e.run (.ofFuel n)).after m₀).Constant s x b) ∧
    ∀ j m, Begins j m (Entry.run · e) n m₀ → m.Constant s x b → ∀ k,
      ((∀ v, ¬ j.Imports m s x v) → Always (fun _ m' => m'.Constant s x b) (Job.run · j) k m ∧
        ((j.run (.ofFuel k)).after m).Constant s x b ∧
        ∀ t saved, ((((j.run (.ofFuel k)).after m).exit t saved).arena.scope? s).isSome →
          (((j.run (.ofFuel k)).after m).exit t saved).arena.local? s x = some b) ∧
      ((∃ v, j.Imports m s x v) → ∃ v, j.Imports m s x v ∧
        ((j.run (.ofFuel (k + 1))).after m).arena.local? s x = some ⟨v, false, false⟩) := by
  obtain ⟨w₀, hok₀⟩ := Constancy.ok_of_reachable h₀
  refine ⟨fun hb => Constancy.entry_keeps hok₀ hb e n, fun j m hj hb k => ?_⟩
  obtain ⟨w, hok, hready⟩ := Constancy.lawful_nothing.ready_of_begins hok₀ (Constancy.admits _ e) hj
  refine ⟨fun huse => ?_, fun ⟨v, hv⟩ => Constancy.import_binds hok.inv.1.isSome_current hv k⟩
  obtain ⟨halways, hafter⟩ := Constancy.job_keeps hok hready hb huse k
  refine ⟨halways, hafter, fun t saved hs => ?_⟩
  exact (congrFun (exit_of_isSome _ t saved hs).1 x).trans hafter.bound

/-- A call of a function that imports a variable with the name of the constant `args`. -/
def shadowCall : Expr :=
  .call (.lambda [] none ⟨[
    .submodule ⟨"m", default⟩ ⟨[.var ⟨"args", default⟩ none false true (.lit (.int 2) default) default],
      default⟩ default,
    .use ⟨"m", default⟩ none default,
    .assign (.var ⟨"args", default⟩) (some .add) (.lit (.int 3) default) default,
    .expr (.var ⟨"args", default⟩) default], default⟩ default) [] default

/-- The call ends in the value of its variable, and the arguments of the program are as they were. -/
theorem shadowCall_keeps_args :
    (Machine.start ["a"] 1 {}).Constant 0 "args" ⟨.list [.str "a"], true, false⟩ ∧
      Begins (.expr shadowCall) (.start ["a"] 1 {}) (Entry.run · (.expr shadowCall)) 8
        (.start ["a"] 1 {}) ∧
      (((Runner.ofFuel 8).expr shadowCall).outcome (.start ["a"] 1 {})).1.toOption.map Value.repr =
        some "5" ∧
      Always (fun _ m => m.Constant 0 "args" ⟨.list [.str "a"], true, false⟩)
        (Job.run · (.expr shadowCall)) 8 (.start ["a"] 1 {}) ∧
      (((Runner.ofFuel 8).expr shadowCall).after (.start ["a"] 1 {})).Constant 0 "args"
        ⟨.list [.str "a"], true, false⟩ := by
  have hopen : (Machine.start ["a"] 1 {}).arena.isOpen 0 = true := by decide +kernel
  have hargs : (Machine.start ["a"] 1 {}).Constant 0 "args" ⟨.list [.str "a"], true, false⟩ :=
    ⟨(Rooted.opened hopen).reaches, rfl, rfl⟩
  have hbegins := begins_expr shadowCall 7 (.start ["a"] 1 {})
  obtain ⟨hentry, hjobs⟩ := constants_stay (.start ["a"] 1 {}) (.expr shadowCall) 8 0 "args"
    ⟨.list [.str "a"], true, false⟩
  obtain ⟨halways, -⟩ := (hjobs _ _ hbegins hargs 8).1 fun _ => id
  exact ⟨hargs, hbegins, by decide +kernel, halways, (hentry hargs).2⟩

end Sluice
