import Sluice.Proofs.Check.Ledger
import Sluice.Proofs.Eval.Obey

/-! What holds while a careful module runs in which the check found nothing, and how its blocks begin and
end. A block begins with the scopes that the check has around it; its own scope will have no constants but
those that its text defines. -/
namespace Sluice

open Machine Arena ConstCheck

variable {σ σ' : Config Ledger} {n₀ : Node} {T : Scopes} {x : String}

/-- The constants of each scope are among those that its text defines. -/
structure Foretold (n₀ : Node) (σ : Config Ledger) : Prop where
  alive : σ.machine.Alive σ.known.fns
  declared : ∀ t x, σ.machine.arena.Fixed t x → σ.known.consts t x
  constant : ∀ t x, σ.known.consts t x → n₀.Constant x
  top : σ.machine.arena.parent? σ.machine.root = none
  args : ∀ x, σ.known.consts σ.machine.root x → x = "args"
  variants : σ.machine.registry.adts.NullaryIn n₀.NamesVariant

def checked (n₀ : Node) : Discipline Ledger where
  proper := False
  lenient := False
  Inv := Foretold n₀
  Sub := Config.Onward fun _ => False
  Run σ := Config.Onward (· = σ.machine.current) σ
  Fn σ c := c ∈ σ.known.fns ∧ σ.machine.arena.Rooted c.scope ∧ ∃ T, c.task.Clean T ∧
    ∀ n ∈ c.task.nodes, Foresees n₀ σ c.scope T n
  Makes σ params body := σ.machine.arena.Rooted σ.machine.current ∧ ∃ T, (body.task params).Clean T ∧
    ∀ n ∈ (body.task params).nodes, Foresees n₀ σ σ.machine.current T n
  Term σ e := σ.machine.arena.Rooted σ.machine.current ∧ ∃ T, expr T e = [] ∧
    Suits n₀ σ σ.machine.current T (.expr e)
  Rest σ l := ∃ T pre, Left n₀ σ T pre l
  Decl σ l done := (∃ T, Opening n₀ σ T l) ∧
    ∀ x ∈ done, σ.machine.arena.local? σ.machine.current x ≠ none
  Mod _ l := Within Node.parts n₀ (.block l) ∧ Clean (bindFns ([] :: prelude) l) l
  Body σ parent task := σ.machine.arena.Rooted parent ∧ task.Placed n₀ ∧ ∃ T, task.Clean T ∧
    ∀ n ∈ task.nodes, Suits n₀ σ parent T n

namespace Checked

/-! ### States -/

theorem closures_of_value {v : Value} (h : (checked n₀).V σ v) :
    ∀ c ∈ v.closures, c ∈ σ.known.fns := fun _ hc => (h.closure hc).1

/-- A change that adds names to scopes in `E` at most. -/
theorem foretold_onward {E : ScopeId → Prop} (h : Foretold n₀ σ) (hon : σ.Onward E σ')
    (halive : σ'.machine.Alive σ'.known.fns) (hconsts : σ'.known.consts = σ.known.consts)
    (hfixed : ∀ t x, σ'.machine.arena.Fixed t x → σ.known.consts t x)
    (hadts : σ'.machine.registry.adts = σ.machine.registry.adts) : Foretold n₀ σ' where
  alive := halive
  declared t x ht := hconsts ▸ hfixed t x ht
  constant t x ht := h.constant t x (hconsts ▸ ht)
  top := by
    rw [hon.lasts.root, hon.lasts.steady.parent _ h.alive.rooted_root]
    exact h.top
  args x hx := by
    rw [hon.lasts.root, hconsts] at hx
    exact h.args x hx
  variants := hadts ▸ h.variants

/-- A name is bound in the innermost scope, as a constant only if the text of the scope says so. -/
theorem foretold_bind (name : String) {b : Binding} (h : Foretold n₀ σ)
    (hb : ∀ c ∈ b.value.closures, c ∈ σ.known.fns)
    (hconst : b.isConst = true → σ.known.consts σ.machine.current name) :
    Foretold n₀ ⟨σ.known, σ.machine.bind name b⟩ ∧
      σ.Onward (· = σ.machine.current) ⟨σ.known, σ.machine.bind name b⟩ := by
  obtain ⟨halive, hlasts⟩ := h.alive.define σ.machine.current name hb
  have hon : σ.Onward (· = σ.machine.current) ⟨σ.known, σ.machine.bind name b⟩ :=
    ⟨⟨fun _ _ => rfl, grows_define _ _ _ _⟩, hlasts⟩
  refine ⟨foretold_onward h hon halive rfl (fun t x ht => ?_) rfl, hon⟩
  rcases fixed_define ht with ⟨rfl, rfl, hb⟩ | ⟨-, hold⟩
  · exact hconst hb
  · exact h.declared t x hold

theorem stateLaws : (checked n₀).StateLaws where
  sub_refl σ := .refl σ
  sub_trans h h' := h.trans h'
  run_trans {σ₁ σ₂ σ₃} h h' := by
    have hcurrent : σ₂.machine.current = σ₁.machine.current := h.lasts.current
    have h'' : σ₂.Onward (· = σ₁.machine.current) σ₃ := hcurrent ▸ h'
    exact h.trans h''
  run_of_sub h := h.mono fun _ => False.elim
  fn_mono h hc := by
    obtain ⟨hknown, hscope, T, hclean, hnodes⟩ := hc
    exact ⟨h.lasts.known hknown, h.rooted hscope, T, hclean, fun n hn => (hnodes n hn).mono h.toExtends hscope⟩
  idle := by
    intro σ m hinv harena hcurrent hroot _ hadts
    obtain ⟨halive, hlasts⟩ := hinv.alive.idle m harena hcurrent hroot
    have hon : σ.Onward (fun _ => False) ⟨σ.known, m⟩ :=
      ⟨⟨fun _ _ => rfl, .of_flag hlasts.steady fun _ _ _ => by rw [harena]⟩, hlasts⟩
    exact ⟨foretold_onward hinv hon halive rfl (fun t x ht => hinv.declared t x (harena ▸ ht)) hadts, hon⟩

/-! ### Scopes -/

structure Entered (σ : Config Ledger) (parent : ScopeId) (bs : List (String × Value)) (m : Machine) :
    Prop where
  arena : m.arena = ((σ.machine.enter parent).defineAll bs).arena
  current : m.current = (σ.machine.enter parent).current
  root : m.root = σ.machine.root
  adts : m.registry.adts = σ.machine.registry.adts

def withScope (σ : Config Ledger) (scope : ScopeId) (l : List Stmt) : Ledger :=
  ⟨σ.known.fns, Function.update σ.known.consts scope (Stmt.constsIn l)⟩

variable {parent : ScopeId} {bs : List (String × Value)} {m : Machine} {l : List Stmt}

theorem withScope_self (scope : ScopeId) : (withScope σ scope l).consts scope = Stmt.constsIn l :=
  Function.update_self _ _ _

theorem withScope_of_ne {scope t : ScopeId} (h : t ≠ scope) :
    (withScope σ scope l).consts t = σ.known.consts t := Function.update_of_ne h _ _

namespace Entered

theorem local?_of_ne (h : Entered σ parent bs m) (halive : σ.machine.Alive σ.known.fns) {t : ScopeId}
    (ht : t ≠ m.current) : m.arena.local? t = σ.machine.arena.local? t := by
  rw [h.current] at ht
  funext x
  rw [h.arena, local?_defineAll_of_ne (.inl ht)]
  exact congrFun (halive.sound.free.local?_push (some parent) ht) x

theorem parent?_eq (h : Entered σ parent bs m) (halive : σ.machine.Alive σ.known.fns) (t : ScopeId) :
    m.arena.parent? t = if t = m.current then some parent else σ.machine.arena.parent? t := by
  rw [h.arena, h.current, parent?_defineAll]
  exact halive.sound.free.parent?_push (some parent) t

/-- The new scope has variables only. -/
theorem not_fixed (h : Entered σ parent bs m) (halive : σ.machine.Alive σ.known.fns) (x : String) :
    ¬ m.arena.Fixed m.current x := by
  intro hfixed
  rw [h.arena, h.current] at hfixed
  obtain ⟨b, hb, -⟩ := fixed_defineAll hfixed
  rw [halive.local?_entered] at hb
  cases hb

theorem widens (h : Entered σ parent bs m) (halive : σ.machine.Alive σ.known.fns)
    (hparent : σ.machine.arena.Rooted parent) (l : List Stmt) :
    σ.Extends (fun _ => False) ⟨withScope σ m.current l, m⟩ := by
  have hne : ∀ {t}, σ.machine.arena.Rooted t → t ≠ m.current := fun ht =>
    h.current ▸ halive.ne_enter parent ht
  obtain ⟨-, hsteady⟩ := halive.enter (halive.isSome_of_rooted hparent)
  have hsteady' : Steady σ.machine.arena m.arena := by
    rw [h.arena]
    exact hsteady.trans (grows_defineAll _ bs).steady
  refine ⟨fun t ht => withScope_of_ne (hne ht), .of_flag hsteady' fun t x ht => ?_⟩
  rw [flag?, flag?, h.local?_of_ne halive (hne ht)]

/-- What is seen from the new scope is seen from the scope around it, unless it is in the new scope. -/
theorem sees (h : Entered σ parent bs m) (halive : σ.machine.Alive σ.known.fns)
    (hparent : σ.machine.arena.Rooted parent) {t : ScopeId} (ht : t ≠ m.current)
    (hsees : m.arena.Sees x m.current t) :
    x ∉ bs.map (·.1) ∧ σ.machine.arena.Sees x parent t := by
  cases hsees with
  | here => exact absurd rfl ht
  | @up _ p _ hnone hp hsees =>
    rw [h.parent?_eq halive, if_pos rfl] at hp
    cases hp
    refine ⟨fun hx => ?_, (h.widens halive hparent []).grows.sees hparent hsees⟩
    have hopen := (halive.enter (halive.isSome_of_rooted hparent)).1.isSome_current
    obtain ⟨v, -, hv⟩ := local?_defineAll_of_mem hopen hx
    rw [h.arena, h.current, hv] at hnone
    cases hnone

theorem foretold (h : Entered σ parent bs m) (hinv : Foretold n₀ σ)
    (hparent : σ.machine.arena.Rooted parent) (hbs : ∀ b ∈ bs, ∀ c ∈ b.2.closures, c ∈ σ.known.fns)
    (hl : ∀ x, Stmt.constsIn l x → n₀.Constant x) :
    Foretold n₀ ⟨withScope σ m.current l, m⟩ := by
  have hext := h.widens hinv.alive hparent l
  have hne : σ.machine.root ≠ m.current := h.current ▸ hinv.alive.ne_enter parent hinv.alive.rooted_root
  obtain ⟨hentered, -⟩ := hinv.alive.enter (hinv.alive.isSome_of_rooted hparent)
  obtain ⟨hbound, hlasts⟩ := hentered.defineAll hbs
  refine ⟨(hbound.idle m h.arena ?_ ?_).1, fun t x ht => ?_, fun t x ht => ?_, ?_, fun x hx => ?_, ?_⟩
  · rw [h.current, current_defineAll]
  · rw [h.root]
    exact hlasts.root.symm
  · have hnew : t ≠ m.current := by
      rintro rfl
      exact h.not_fixed hinv.alive x ht
    have hold : σ.machine.arena.Fixed t x := by
      rw [Fixed, ← h.local?_of_ne hinv.alive hnew]
      exact ht
    rw [withScope_of_ne hnew]
    exact hinv.declared t x hold
  · by_cases hnew : t = m.current
    · subst hnew
      rw [withScope_self] at ht
      exact hl x ht
    · rw [withScope_of_ne hnew] at ht
      exact hinv.constant t x ht
  · rw [h.parent?_eq hinv.alive, h.root, if_neg hne]
    exact hinv.top
  · rw [h.root, withScope_of_ne hne] at hx
    exact hinv.args x hx
  · rw [h.adts]
    exact hinv.variants

end Entered

/-- What was there before a scope was entered is there after statements ran in it. -/
theorem extends_run (h : Entered σ parent bs m) (halive : σ.machine.Alive σ.known.fns)
    (hparent : σ.machine.arena.Rooted parent)
    (hrun : Config.Onward (· = m.current) ⟨withScope σ m.current l, m⟩ σ') :
    σ.Extends (fun _ => False) σ' := by
  have hext := h.widens halive hparent l
  refine ⟨fun t ht => (hrun.consts t (hext.rooted ht)).trans (hext.consts t ht), ?_⟩
  refine .of_flag (hext.grows.steady.trans hrun.grows.steady) fun t x ht => ?_
  have hne : t ≠ m.current := h.current ▸ halive.ne_enter parent ht
  exact (hrun.grows.flag t x (hext.rooted ht) hne).trans (hext.grows.flag t x ht id)

/-- The scope is left at the end of its block. -/
theorem leave_scope (hinv : Foretold n₀ σ) (h : Entered σ parent bs m)
    (hparent : σ.machine.arena.Rooted parent)
    (hrun : Config.Onward (· = m.current) ⟨withScope σ m.current l, m⟩ σ') (hinv' : Foretold n₀ σ') :
    Foretold n₀ ⟨σ'.known, σ'.machine.exit m.current σ.machine.current⟩ ∧
      σ.Onward (fun _ => False) ⟨σ'.known, σ'.machine.exit m.current σ.machine.current⟩ ∧
      ∀ c, (checked n₀).Fn σ' c →
        (checked n₀).Fn ⟨σ'.known, σ'.machine.exit m.current σ.machine.current⟩ c := by
  have hext := extends_run h hinv.alive hparent hrun
  have hroot : σ'.machine.root = σ.machine.root := hrun.lasts.root.trans h.root
  have hvacant : σ.machine.arena.scope? m.current = none := h.current ▸ hinv.alive.vacant_enter parent
  obtain ⟨halive, hlasts, hlocal, hback⟩ := hinv.alive.exit hinv'.alive hrun.lasts.known hroot
    hext.grows.steady hvacant
  have hon : σ.Onward (fun _ => False) ⟨σ'.known, σ'.machine.exit m.current σ.machine.current⟩ := by
    refine ⟨⟨hext.consts, .of_flag hlasts.steady fun t x ht => ?_⟩, hlasts⟩
    rw [flag?, hlocal t ht]
    exact hext.grows.flag t x ht id
  refine ⟨⟨halive, fun t x ht => ?_, hinv'.constant, ?_, hinv'.args, hinv'.variants⟩, hon, ?_⟩
  · obtain ⟨b, hb, hconst⟩ := ht
    exact hinv'.declared t x ⟨b, hback t x b hb, hconst⟩
  · rw [hlasts.root, hlasts.steady.parent _ hinv.alive.rooted_root]
    exact hinv.top
  · rintro c ⟨hmem, -, T, hclean, hnodes⟩
    refine ⟨hmem, halive.rooted_known hmem, T, hclean, fun n hn => ⟨(hnodes n hn).inside, ?_⟩⟩
    exact fun hx hsees hconst => (hnodes n hn).later hx (sees_of_exit hsees) hconst

/-- The scope of a module is left, and stays open. -/
theorem leave_module (hinv : Foretold n₀ σ) (h : Entered σ parent bs m)
    (hparent : σ.machine.arena.Rooted parent)
    (hrun : Config.Onward (· = m.current) ⟨withScope σ m.current l, m⟩ σ') (hinv' : Foretold n₀ σ') :
    Foretold n₀ ⟨σ'.known, { σ'.machine with current := σ.machine.current }⟩ ∧
      σ.Onward (fun _ => False) ⟨σ'.known, { σ'.machine with current := σ.machine.current }⟩ ∧
      ∀ c, (checked n₀).Fn σ' c →
        (checked n₀).Fn ⟨σ'.known, { σ'.machine with current := σ.machine.current }⟩ c := by
  have hext := extends_run h hinv.alive hparent hrun
  have hroot : σ'.machine.root = σ.machine.root := hrun.lasts.root.trans h.root
  obtain ⟨halive, hlasts⟩ := hinv.alive.leave hinv'.alive hrun.lasts.known hroot hext.grows.steady
  refine ⟨⟨halive, hinv'.declared, hinv'.constant, hinv'.top, hinv'.args, hinv'.variants⟩,
    ⟨⟨hext.consts, hext.grows⟩, hlasts⟩, ?_⟩
  rintro c ⟨hmem, hscope, T, hclean, hnodes⟩
  exact ⟨hmem, hscope, T, hclean, fun n hn => ⟨(hnodes n hn).inside, (hnodes n hn).later⟩⟩

/-- A name of a variable is bound when a task begins, if the task assigns to it and it is that of some
constant. -/
theorem mem_of_binds {task : Task} (hc : n₀.Careful) (hinv : Foretold n₀ σ) (hplaced : task.Placed n₀)
    (hbinds : task.Binds σ.machine.registry.adts bs) {n : Node} (hn : n ∈ task.nodes) (hx : n.Assigns x)
    (hconst : n₀.Constant x) (hname : x ∈ task.names) : x ∈ bs.map (·.1) := by
  cases task with
  | fn params body =>
    have hnames : bs.map (·.1) = params := hbinds
    exact hnames ▸ hname
  | arm pat body =>
    obtain ⟨s, hs, harm⟩ := hplaced
    obtain ⟨v, hv⟩ := hbinds
    rw [List.mem_singleton.1 hn] at hx
    refine (Pattern.mem_or_nullary_of_bindings? pat hv hname).resolve_right fun hnullary => ?_
    exact hc.patterns hs harm hname hx hconst (hinv.variants.of_nullary hnullary)
  | _ => cases hname

/-- What the task hides, it has bound. -/
theorem mem_of_hides {task : Task} {adts : AdtTable} (hbinds : task.Binds adts bs) {n : Node}
    (hn : n ∈ task.nodes) (hx : n.Hides x) : x ∈ bs.map (·.1) := by
  cases task with
  | fn params body =>
    have hnames : bs.map (·.1) = params := hbinds
    rw [List.mem_singleton.1 hn] at hx
    exact hnames ▸ hx
  | block body =>
    rw [List.mem_singleton.1 hn] at hx
    exact hx.elim
  | arm pat body =>
    rw [List.mem_singleton.1 hn] at hx
    cases body <;> exact hx.elim
  | hole stage =>
    rw [List.mem_singleton.1 hn] at hx
    exact hx.elim
  | pipeline stages =>
    obtain ⟨e, -, rfl⟩ := List.mem_map.1 hn
    exact hx.elim

section Starts

variable {task : Task} {n : Node} {t : ScopeId}

/-- What a task assigns to is constant for the check, if the new scope sees a constant farther out. -/
theorem now_of_entered (hc : n₀.Careful) (hinv : Foretold n₀ σ) (h : Entered σ parent bs m)
    (hparent : σ.machine.arena.Rooted parent) (hplaced : task.Placed n₀)
    (hbinds : task.Binds σ.machine.registry.adts bs) (hn : n ∈ task.nodes)
    (hsuits : Suits n₀ σ parent T n) (hx : n.Assigns x) (ht : t ≠ m.current)
    (hsees : m.arena.Sees x m.current t) (hfixed : m.arena.Fixed t x) :
    find? (task.scopes T) x = some true := by
  obtain ⟨hbound, hsees'⟩ := h.sees hinv.alive hparent ht hsees
  rw [Fixed, h.local?_of_ne hinv.alive ht] at hfixed
  have hconst := hinv.constant t x (hinv.declared t x hfixed)
  rw [Task.find?_scopes fun hname => hbound (mem_of_binds hc hinv hplaced hbinds hn hx hconst hname)]
  exact hsuits.now hx hsees' hfixed

theorem later_of_entered (hc : n₀.Careful) (hinv : Foretold n₀ σ) (h : Entered σ parent bs m)
    (hparent : σ.machine.arena.Rooted parent) (hplaced : task.Placed n₀)
    (hbinds : task.Binds σ.machine.registry.adts bs) (hn : n ∈ task.nodes)
    (hsuits : Suits n₀ σ parent T n) (hx : n.FnAssigns x) (ht : t ≠ m.current)
    (hsees : m.arena.Sees x m.current t) (hconst : (withScope σ m.current l).consts t x) :
    find? (task.scopes T) x = some true := by
  obtain ⟨hbound, hsees'⟩ := h.sees hinv.alive hparent ht hsees
  have hold : σ.known.consts t x := withScope_of_ne ht ▸ hconst
  have hconst' := hinv.constant t x hold
  rw [Task.find?_scopes
    fun hname => hbound (mem_of_binds hc hinv hplaced hbinds hn hx.assigns hconst' hname)]
  exact hsuits.later hx hsees' hold

/-- The statements of a task are about to run. -/
theorem opening_of_entered (hc : n₀.Careful) (hinv : Foretold n₀ σ) (h : Entered σ parent bs m)
    (hparent : σ.machine.arena.Rooted parent) (halive : m.Alive σ.known.fns) (hplaced : task.Placed n₀)
    (hbinds : task.Binds σ.machine.registry.adts bs) (hclean : task.Clean T)
    (hsuits : ∀ n ∈ task.nodes, Suits n₀ σ parent T n) (hl : task.stmts? = some l) :
    Opening n₀ ⟨withScope σ m.current l, m⟩ (task.scopes T) l := by
  obtain ⟨n, hn, hholds⟩ := Task.exists_holds hl
  have hseen : ∀ {x t}, t ≠ m.current → m.arena.Sees x m.current t → ¬ n.Hides x := fun ht hsees hx =>
    (h.sees hinv.alive hparent ht hsees).1 (mem_of_hides hbinds hn hx)
  refine ⟨halive.rooted_current, hclean.stmts hl, (hsuits n hn).inside.trans hholds.within, fun x => ?_, ?_,
    ?_, h.not_fixed hinv.alive⟩
  · rw [withScope_self]
  · intro s x t hs _ hx hsees hfixed
    have ht : t ≠ m.current := by
      rintro rfl
      exact h.not_fixed hinv.alive x hfixed
    exact now_of_entered hc hinv h hparent hplaced hbinds hn (hsuits n hn)
      (hholds.assigns hs (hseen ht hsees) hx) ht hsees hfixed
  · intro s x t hs _ ht hx hsees hconst
    exact later_of_entered hc hinv h hparent hplaced hbinds hn (hsuits n hn)
      (hholds.fnAssigns hs (hseen ht hsees) hx) ht hsees hconst

/-- An expression of a task is about to be evaluated. -/
theorem suits_of_entered (hc : n₀.Careful) (hinv : Foretold n₀ σ) (h : Entered σ parent bs m)
    (hparent : σ.machine.arena.Rooted parent) (hplaced : task.Placed n₀)
    (hbinds : task.Binds σ.machine.registry.adts bs) (hn : n ∈ task.nodes)
    (hsuits : Suits n₀ σ parent T n) :
    Suits n₀ ⟨withScope σ m.current [], m⟩ m.current (task.scopes T) n := by
  refine ⟨⟨hsuits.inside, fun {x t} hx hsees hconst => ?_⟩, fun {x t} hx hsees hfixed => ?_⟩
  · have ht : t ≠ m.current := by
      rintro rfl
      rw [withScope_self] at hconst
      obtain ⟨s, hs, -⟩ := hconst
      cases hs
    exact later_of_entered hc hinv h hparent hplaced hbinds hn hsuits hx ht hsees hconst
  · have ht : t ≠ m.current := by
      rintro rfl
      exact h.not_fixed hinv.alive x hfixed
    exact now_of_entered hc hinv h hparent hplaced hbinds hn hsuits hx ht hsees hfixed

def inTask (σ : Config Ledger) (scope : ScopeId) (task : Task) : Ledger :=
  withScope σ scope (task.stmts?.getD [])

theorem starts_of_entered (hc : n₀.Careful) (hinv : Foretold n₀ σ) (h : Entered σ parent bs m)
    (halive : m.Alive σ.known.fns) (hbody : (checked n₀).Body σ parent task)
    (hbinds : task.Binds σ.machine.registry.adts bs) :
    (checked n₀).Starts ⟨inTask σ m.current task, m⟩ task := by
  obtain ⟨hparent, hplaced, T, hclean, hsuits⟩ := hbody
  have hdecl : ∀ {l}, task.stmts? = some l → (checked n₀).Decl ⟨withScope σ m.current l, m⟩ l [] :=
    fun hl => ⟨⟨_, opening_of_entered hc hinv h hparent halive hplaced hbinds hclean hsuits hl⟩, nofun⟩
  have hterm : ∀ {e}, .expr e ∈ task.nodes → expr (task.scopes T) e = [] →
      (checked n₀).Term ⟨withScope σ m.current [], m⟩ e := fun hn he =>
    ⟨halive.rooted_current, _, he, suits_of_entered hc hinv h hparent hplaced hbinds hn (hsuits _ hn)⟩
  cases task with
  | fn params body => exact hdecl rfl
  | block body => exact hdecl rfl
  | arm pat body =>
    cases body with
    | expr e => exact hterm List.mem_cons_self hclean
    | block b => exact hdecl rfl
  | hole stage => exact hterm List.mem_cons_self hclean
  | pipeline stages => exact fun stage hs => hterm (List.mem_map_of_mem hs) (hclean stage hs)

/-- The constants that a task defines are constants of the module. -/
theorem constant_of_body (hbody : (checked n₀).Body σ parent task)
    (hx : Stmt.constsIn (task.stmts?.getD []) x) : n₀.Constant x := by
  obtain ⟨-, -, T, -, hsuits⟩ := hbody
  cases hl : task.stmts? with
  | none =>
    rw [hl] at hx
    obtain ⟨s, hs, -⟩ := hx
    cases hs
  | some l =>
    rw [hl] at hx
    obtain ⟨n, hn, hholds⟩ := Task.exists_holds hl
    exact Node.constant_of_constsIn ((hsuits n hn).inside.trans hholds.within) hx

end Starts

/-! ### The laws -/

/-- A module sees nothing around it but what every program has. -/
theorem body_of_mod (hinv : Foretold n₀ σ) (hmod : (checked n₀).Mod σ l) :
    (checked n₀).Body σ σ.machine.root (.block l) := by
  obtain ⟨hinside, hclean⟩ := hmod
  have hargs : ∀ {x t}, σ.machine.arena.Sees x σ.machine.root t → σ.known.consts t x →
      find? prelude x = some true := by
    intro x t hsees hconst
    cases hsees with
    | here =>
      rw [hinv.args x hconst]
      rfl
    | up _ hp =>
      rw [hinv.top] at hp
      cases hp
  refine ⟨hinv.alive.rooted_root, trivial, prelude, hclean, fun n hn => ?_⟩
  rw [List.mem_singleton.1 hn]
  exact ⟨⟨hinside, fun _ => hargs⟩, fun _ hsees hfixed => hargs hsees (hinv.declared _ _ hfixed)⟩

theorem fn_entered {task : Task} (hinv : Foretold n₀ σ) (h : Entered σ parent bs m)
    (hparent : σ.machine.arena.Rooted parent) {c : Closure} (hfn : (checked n₀).Fn σ c) :
    (checked n₀).Fn ⟨inTask σ m.current task, m⟩ c := by
  obtain ⟨hmem, hscope, T, hclean, hnodes⟩ := hfn
  have hext := h.widens hinv.alive hparent (task.stmts?.getD [])
  exact ⟨hmem, hext.rooted hscope, T, hclean, fun n hn => (hnodes n hn).mono hext hscope⟩

theorem scopeLaws (hc : n₀.Careful) : (checked n₀).ScopeLaws where
  call := by
    rintro σ c hinv ⟨hmem, hscope, T, hclean, hnodes⟩
    refine ⟨hscope, ?_, T, hclean, fun n hn => ⟨hnodes n hn, fun hx hsees hfixed => ?_⟩⟩
    · rw [Closure.task_eq]
      cases c.body <;> exact trivial
    · rw [Closure.task_eq] at hn
      exact (hnodes n (c.task_eq ▸ hn)).later (FnBody.fnAssigns hn hx) hsees (hinv.declared _ _ hfixed)
  makeFn := by
    rintro σ params body name hinv ⟨hrooted, T, hclean, hnodes⟩
    obtain ⟨halive, hlasts⟩ := hinv.alive.makeFn name params body
    have hlocal := Alive.local?_makeFn σ.machine name params body
    have hon : σ.Onward (fun _ => False) ⟨⟨σ.known.fns ++ [(σ.machine.arena.makeClosure σ.machine.current
        name (params.map (·.name.text)) body).1], σ.known.consts⟩, (σ.machine.makeFn name params body).2⟩ :=
      ⟨⟨fun _ _ => rfl, .of_flag hlasts.steady fun t x _ => by rw [flag?, hlocal, flag?]⟩, hlasts⟩
    refine ⟨_, foretold_onward hinv hon halive rfl (fun t x ht => ?_) rfl, hon, ?_⟩
    · rw [Fixed, hlocal] at ht
      exact hinv.declared t x ht
    · refine ⟨List.mem_append_right _ List.mem_cons_self, hon.rooted hrooted, T, ?_⟩
      rw [Closure.task_eq]
      exact ⟨hclean, fun n hn => (hnodes n hn).mono hon.toExtends hrooted⟩
  scope := by
    intro σ parent task bs hinv hbody hbs
    have hentered : Entered σ parent bs ((σ.machine.enter parent).defineAll bs) :=
      ⟨rfl, current_defineAll _ _, root_defineAll _ _, congrArg Registry.adts (registry_defineAll _ _)⟩
    have hparent := hbody.1
    have hinv' : Foretold n₀ ⟨inTask σ _ task, _⟩ := hentered.foretold hinv hparent
      (fun b hb => closures_of_value (hbs b hb)) fun x => constant_of_body hbody
    refine ⟨_, hinv', fun c => fn_entered hinv hentered hparent,
      starts_of_entered hc hinv hentered hinv'.alive hbody, fun σ' hrun hafter => ?_⟩
    have hleave := leave_scope hinv hentered hparent hrun hafter
    rw [hentered.current] at hleave
    exact ⟨σ'.known, hleave⟩
  module := by
    intro σ stmts name hinv hmod
    have hbody := body_of_mod hinv hmod
    have hentered : Entered σ σ.machine.root [] (σ.machine.enterModule name) := ⟨rfl, rfl, rfl, rfl⟩
    have hinv' : Foretold n₀ ⟨inTask σ _ (.block stmts), _⟩ := hentered.foretold hinv hbody.1
      (List.forall_mem_nil _) fun x => constant_of_body hbody
    refine ⟨_, hinv', fun c => fn_entered hinv hentered hbody.1,
      starts_of_entered hc hinv hentered hinv'.alive hbody rfl, fun σ' hrun hafter => ?_⟩
    exact ⟨σ'.known, leave_module hinv hentered hbody.1 hrun hafter⟩

end Checked

end Sluice
