import Sluice.Proofs.Eval.Alive
import Sluice.Proofs.Eval.Obey

/-! The scopes of modules stay open. A module is entered in the table with a scope that is new, and such a
scope is never closed: what blocks close are the scopes that they opened themselves. -/
namespace Sluice

open Machine Arena

variable {known known' : List Closure} {m m' m'' : Machine}

namespace Machine

/-- The scopes of all modules are open. -/
def Housed (m : Machine) : Prop := ∀ e ∈ m.modules, m.arena.isOpen e.2 = true

def Houses (m m' : Machine) : Prop :=
  ∀ e ∈ m'.modules, m.arena.Rooted e.2 → ∃ e' ∈ m.modules, e'.2 = e.2

structure Settles (known known' : List Closure) (m m' : Machine) : Prop extends Lasts known known' m m' where
  houses : m.Houses m'

theorem Houses.of_eq (h : m'.modules = m.modules) : m.Houses m' := fun e he _ => ⟨e, h ▸ he, rfl⟩

theorem Houses.trans (hsteady : Steady m.arena m'.arena) (h : m.Houses m') (h' : m'.Houses m'') :
    m.Houses m'' := by
  intro e he ht
  obtain ⟨e', he', heq⟩ := h' e he (hsteady.rooted ht)
  obtain ⟨e'', he'', heq'⟩ := h e' he' (heq ▸ ht)
  exact ⟨e'', he'', heq'.trans heq⟩

theorem Settles.refl (known : List Closure) (m : Machine) : Settles known known m m :=
  ⟨.refl known m, .of_eq rfl⟩

theorem Settles.trans {known'' : List Closure} (h : Settles known known' m m')
    (h' : Settles known' known'' m' m'') : Settles known known'' m m'' :=
  ⟨h.toLasts.trans h'.toLasts, h.houses.trans h.steady h'.houses⟩

theorem Housed.steady (h : m.Housed) (hsteady : Steady m.arena m'.arena) (hmodules : m'.modules = m.modules) :
    m'.Housed := fun e he => hsteady.opened _ (h e (hmodules ▸ he))

@[simp] theorem modules_defineAll (m : Machine) (bs : List (String × Value)) :
    (m.defineAll bs).modules = m.modules := by rw [defineAll_eq]

/-- The end of a block that began in `m`. Its scope was not there before, so it is that of no module. -/
theorem Housed.exit {parent : ScopeId} (h : m.Housed) (halive : m.Alive known)
    (hentered : Alive known (m.enter parent)) (h' : m'.Housed) (hhouses : (m.enter parent).Houses m') :
    (m'.exit (m.enter parent).current m.current).Housed := by
  intro e he
  show (m'.arena.releaseBy .plain [] (m.enter parent).current).isOpen e.2 = true
  rw [isOpen_releaseBy, h' e he, Bool.and_true, decide_eq_true_eq]
  intro heq
  obtain ⟨e', he', heq'⟩ := hhouses e he (heq ▸ hentered.rooted_current)
  exact halive.ne_enter parent (.opened (h e' he')) (heq'.trans heq)

/-- A module begins, in a scope that is new. -/
theorem Housed.enterModule (h : m.Housed) (hentered : Alive known (m.enter m.root))
    (hsteady : Steady m.arena (m.enter m.root).arena) (name : String) : (m.enterModule name).Housed := by
  intro e he
  rcases Table.mem_insert he with rfl | he
  · exact hentered.current
  · exact hsteady.opened _ (h e he)

theorem Alive.houses_enterModule (h : m.Alive known) (name : String) : m.Houses (m.enterModule name) := by
  intro e he ht
  rcases Table.mem_insert he with rfl | he
  · exact (h.ne_enter _ ht rfl).elim
  · exact ⟨e, he, rfl⟩

end Machine

/-- Scopes are held and modules have theirs; nothing is asked of programs. -/
def housing : Discipline (List Closure) where
  proper := False
  lenient := True
  Inv σ := σ.machine.Alive σ.known ∧ σ.machine.Housed
  Sub σ σ' := Settles σ.known σ'.known σ.machine σ'.machine
  Run σ σ' := Settles σ.known σ'.known σ.machine σ'.machine
  Fn σ c := c ∈ σ.known
  Makes _ _ _ := True
  Term _ _ := True
  Rest _ _ := True
  Decl _ _ _ := True
  Mod _ _ := True
  Body σ parent _ := parent = σ.machine.current ∨ ∃ c ∈ σ.known, c.scope = parent

namespace Housing

theorem closures_of_value {σ : Config (List Closure)} {v : Value} (h : housing.V σ v) :
    ∀ c ∈ v.closures, c ∈ σ.known := fun _ hc => h.closure hc

/-- A change after which the modules are those that there were. -/
theorem quiet {σ : Config (List Closure)} (h : housing.Inv σ) (σ' : Config (List Closure))
    (hchange : σ'.machine.Alive σ'.known ∧ Lasts σ.known σ'.known σ.machine σ'.machine)
    (hmodules : σ'.machine.modules = σ.machine.modules) : housing.Inv σ' ∧ housing.Sub σ σ' :=
  ⟨⟨hchange.1, h.2.steady hchange.2.steady hmodules⟩, hchange.2, .of_eq hmodules⟩

theorem define {σ : Config (List Closure)} (h : housing.Inv σ) (s : ScopeId) (name : String) {b : Binding}
    (hb : housing.V σ b.value) :
    housing.Inv ⟨σ.known, { σ.machine with arena := σ.machine.arena.define s name b }⟩ ∧
      housing.Sub σ ⟨σ.known, { σ.machine with arena := σ.machine.arena.define s name b }⟩ :=
  quiet h ⟨σ.known, _⟩ (h.1.define s name (closures_of_value hb)) rfl

theorem starts (σ : Config (List Closure)) (task : Task) : housing.Starts σ task := by
  cases task with
  | pipeline stages => exact fun _ _ => trivial
  | arm pat body => cases body <;> exact trivial
  | _ => exact trivial

theorem stateLaws : housing.StateLaws where
  sub_refl σ := .refl σ.known σ.machine
  sub_trans h h' := h.trans h'
  run_trans h h' := h.trans h'
  run_of_sub h := h
  fn_mono h hc := h.known hc
  idle h harena hcurrent hroot hmodules _ := quiet h _ (h.1.idle _ harena hcurrent hroot) hmodules

theorem scopeLaws : housing.ScopeLaws where
  call _ hc := .inr ⟨_, hc, rfl⟩
  makeFn := by
    intro σ params body name hinv _
    obtain ⟨hinv', hsub⟩ := quiet hinv ⟨_, (σ.machine.makeFn name params body).2⟩
      (hinv.1.makeFn name params body) rfl
    exact ⟨_, hinv', hsub, List.mem_append_right _ List.mem_cons_self⟩
  scope := by
    intro σ parent task bs hinv hbody hbs
    obtain ⟨halive, hhoused⟩ := hinv
    have hparent : (σ.machine.arena.scope? parent).isSome := by
      rcases hbody with rfl | ⟨c, hc, rfl⟩
      · exact halive.isSome_current
      · exact halive.isSome_of_rooted (halive.rooted_known hc)
    obtain ⟨hentered, hsteady⟩ := halive.enter hparent
    obtain ⟨hbound, hlasts⟩ := hentered.defineAll fun b hb => closures_of_value (hbs b hb)
    have hmodules : ((σ.machine.enter parent).defineAll bs).modules = σ.machine.modules :=
      modules_defineAll _ _
    have hhoused' : ((σ.machine.enter parent).defineAll bs).Housed :=
      hhoused.steady (hsteady.trans hlasts.steady) hmodules
    refine ⟨σ.known, ⟨hbound, hhoused'⟩, fun _ hc => hc, fun _ => starts _ task, fun σ' hrun hinv' => ?_⟩
    have hafter := hsteady.trans (hlasts.steady.trans hrun.steady)
    obtain ⟨halive', hlasts', -, -⟩ := halive.exit hinv'.1 hrun.known (hrun.root.trans hlasts.root) hafter
      (halive.vacant_enter parent)
    have hhouses : (σ.machine.enter parent).Houses σ'.machine :=
      Houses.trans hlasts.steady (.of_eq hmodules) hrun.houses
    have hnone : σ.machine.Houses (σ.machine.enter parent) := .of_eq rfl
    exact ⟨σ'.known, ⟨halive', hhoused.exit halive hentered hinv'.2 hhouses⟩,
      ⟨hlasts', hnone.trans hsteady hhouses⟩, fun _ hc => hc⟩
  module := by
    intro σ stmts name hinv _
    obtain ⟨halive, hhoused⟩ := hinv
    obtain ⟨hentered, hsteady⟩ := halive.enter (isSome_of_isOpen halive.root)
    obtain ⟨hopened, -⟩ := hentered.idle (σ.machine.enterModule name) rfl rfl rfl
    have hhoused' := hhoused.enterModule hentered hsteady name
    have hhouses := halive.houses_enterModule name
    have hgrown : Steady σ.machine.arena (σ.machine.enterModule name).arena := hsteady
    refine ⟨σ.known, ⟨hopened, hhoused'⟩, fun _ hc => hc, trivial, fun σ' hrun hinv' => ?_⟩
    obtain ⟨halive', hlasts'⟩ := halive.leave hinv'.1 hrun.known hrun.root (hgrown.trans hrun.steady)
    exact ⟨σ'.known, ⟨halive', hinv'.2⟩, ⟨hlasts', hhouses.trans hgrown hrun.houses⟩, fun _ hc => hc⟩

theorem exprLaws : housing.ExprLaws where
  expr_mono _ _ := trivial
  expr_part _ _ := trivial
  expr_tuple h _ := h.elim
  expr_lambda _ := trivial
  expr_deferred _ := trivial
  expr_hole _ := .inl rfl

theorem stmtLaws : housing.StmtLaws where
  rest_expr _ _ _ := trivial
  rest_block _ _ _ := .inl rfl
  rest_arm _ _ _ := .inl rfl
  rest_module _ := trivial
  rest_pass _ _ _ := trivial
  var_const _ _ _ _ := trivial
  var_bind := by
    intro σ σ' name type isConst isPub value span l v _ _ _ _ hinv hv
    obtain ⟨hinv', hsub⟩ := define hinv σ'.machine.current name.text (b := ⟨v, isConst, isPub⟩) hv
    exact ⟨σ'.known, hinv', hsub, trivial⟩
  assign_const _ _ _ _ _ _ := trivial
  assign_lost _ _ _ _ _ _ _ _ _ := trivial
  assign_old := by
    intro σ σ₁ σ₂ target op value span l root owner b v arena _ hinv _ _ _ _ _ _ hv hassign
    obtain ⟨owner', old, -, rfl⟩ := assign_eq_ok hassign
    obtain ⟨hinv', hsub⟩ := define hinv owner' root.text (b := { old with value := v }) hv
    exact ⟨σ₂.known, hinv', hsub, trivial⟩
  assign_new := by
    intro σ σ₁ σ₂ target op value span l root v _ hinv _ _ _ _ _ hv
    obtain ⟨hinv', hsub⟩ := define hinv σ₂.machine.current root.text (b := ⟨v, false, false⟩) hv
    exact ⟨σ₂.known, hinv', hsub, trivial⟩
  use := by
    intro σ source names span l found hinv _ _ hbs
    obtain ⟨hinv', hsub⟩ := quiet hinv ⟨σ.known, σ.machine.defineAll found⟩
      (hinv.1.defineAll fun b hb => closures_of_value (hbs b hb)) (modules_defineAll _ _)
    exact ⟨σ.known, hinv', hsub, trivial⟩

theorem declLaws : housing.DeclLaws where
  decl_mono _ _ := trivial
  decl_bind := by
    intro σ stmts done v name isPub hinv _ hv
    obtain ⟨hinv', hsub⟩ := define hinv σ.machine.current name (b := ⟨v, false, isPub⟩) hv
    exact ⟨σ.known, hinv', hsub, trivial⟩
  decl_adt := by
    rintro σ m stmts done s adt hinv _ _ _ rfl
    obtain ⟨hinv', hsub⟩ := quiet hinv ⟨σ.known, { σ.machine with registry :=
      { σ.machine.registry with adts := σ.machine.registry.adts.declare adt } }⟩
      (hinv.1.idle _ rfl rfl rfl) rfl
    exact ⟨σ.known, hinv', hsub, trivial⟩
  decl_struct h _ _ := h.elim
  decl_fn _ _ _ _ := trivial
  decl_done _ _ := trivial

theorem lawful : housing.Lawful := ⟨stateLaws, scopeLaws, exprLaws, stmtLaws, declLaws⟩

theorem admits (σ : Config (List Closure)) (x : Entry) : housing.Admits σ x := by
  cases x <;> exact trivial

end Housing

/-- In every state of a run the scopes of modules are open, and no functions are stored but those that
have been made, whose scopes are held. -/
theorem Machine.Reachable.housed (hm : m.Reachable) :
    ∃ known, m.Alive known ∧ m.Housed ∧ m.Stored (Value.Sane False (· ∈ known)) := by
  obtain ⟨known, hinv, hstored⟩ := Housing.lawful.reachable (fun x σ _ _ => Housing.admits σ x)
    (fun args maxDepth w => ⟨[], ⟨alive_start args maxDepth w, List.forall_mem_nil _⟩,
      stored_start args maxDepth w⟩) hm.reachableBy
  exact ⟨known, hinv.1, hinv.2, hstored⟩

end Sluice
