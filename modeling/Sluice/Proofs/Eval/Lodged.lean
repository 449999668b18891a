import Sluice.Proofs.Eval.Discipline
import Sluice.Proofs.Eval.Restore

/-! The scopes of modules. They are open in every run, and a scope that was there before is that of a module
only if it already was. So a scope that is open for no module any more, and for nothing that is in
progress, stays open for good. -/
namespace Sluice

open Arena

variable {m m' : Machine} {s parent : ScopeId} {name : String}

namespace Machine

def Lodges (m : Machine) (s : ScopeId) : Prop := ∃ name, m.modules.get? name = some s

/-- The scopes of modules are open, and each is that of one module only. -/
structure Lodging (m : Machine) : Prop where
  free : m.arena.FreeExact
  root : m.arena.isOpen m.root = true
  opened : ∀ s, m.Lodges s → m.arena.isOpen s = true
  ne_root : ∀ s, m.Lodges s → s ≠ m.root
  unique : ∀ name name' s, m.modules.get? name = some s → m.modules.get? name' = some s → name = name'

/-- What stays in every run. No scope becomes that of a module later than it is opened. -/
structure Endures (m m' : Machine) : Prop where
  root : m'.root = m.root
  opened : ∀ s, m.arena.isOpen s = true → m'.arena.isOpen s = true
  lodges : ∀ s, m'.Lodges s → m.arena.isOpen s = true → m.Lodges s

/-- The scope is open, but neither the outermost one nor that of a module. -/
structure Lost (m : Machine) (s : ScopeId) : Prop where
  isOpen : m.arena.isOpen s = true
  ne_root : s ≠ m.root
  not_lodges : ¬ m.Lodges s

/-! ### Scopes begin and end -/

theorem isOpen_enter (h : m.arena.FreeExact) (parent s : ScopeId) : (m.enter parent).arena.isOpen s = true ↔
    s = (m.enter parent).current ∨ m.arena.isOpen s = true := by
  have hpush : (m.enter parent).arena.isOpen s =
      (decide (s = (m.enter parent).current) || m.arena.isOpen s) := h.isOpen_push (some parent)
  rw [hpush, Bool.or_eq_true, decide_eq_true_eq]

theorem isOpen_enter_of_isOpen (h : m.arena.FreeExact) (parent : ScopeId) (hs : m.arena.isOpen s = true) :
    (m.enter parent).arena.isOpen s = true := (isOpen_enter h parent s).2 (.inr hs)

theorem isOpen_entered (h : m.arena.FreeExact) (parent : ScopeId) :
    (m.enter parent).arena.isOpen (m.enter parent).current = true := (isOpen_enter h parent _).2 (.inl rfl)

theorem free_enter (h : m.arena.FreeExact) (parent : ScopeId) : (m.enter parent).arena.FreeExact :=
  (h.push (some parent)).2.2.2

theorem ne_entered (h : m.arena.FreeExact) (parent : ScopeId) (hs : m.arena.isOpen s = true) :
    s ≠ (m.enter parent).current := by
  rintro rfl
  have hnew : m.arena.isOpen (m.enter parent).current = false := h.isOpen_new (some parent)
  rw [hnew] at hs
  cases hs

theorem isOpen_exit (m : Machine) (new saved s : ScopeId) :
    (m.exit new saved).arena.isOpen s = true ↔ s ≠ new ∧ m.arena.isOpen s = true := by
  have hrelease : (m.exit new saved).arena.isOpen s = (decide (s ≠ new) && m.arena.isOpen s) :=
    isOpen_releaseBy m.arena .plain [] new s
  rw [hrelease, Bool.and_eq_true, decide_eq_true_eq]

/-! ### The table of modules -/

theorem get?_enterModule_self (m : Machine) (name : String) :
    (m.enterModule name).modules.get? name = some (m.enter m.root).current :=
  Table.get?_insert_self m.modules name _

theorem get?_enterModule_of_ne (m : Machine) {name' : String} (h : name' ≠ name) :
    (m.enterModule name).modules.get? name' = m.modules.get? name' := Table.get?_insert_of_ne m.modules _ h

/-- The modules are the new one and those of other names. -/
theorem lodges_enterModule : (m.enterModule name).Lodges s ↔
    s = (m.enter m.root).current ∨ ∃ name', name' ≠ name ∧ m.modules.get? name' = some s := by
  constructor
  · rintro ⟨name', hs⟩
    by_cases hne : name' = name
    · subst hne
      rw [get?_enterModule_self] at hs
      exact .inl (Option.some.inj hs).symm
    · rw [get?_enterModule_of_ne m hne] at hs
      exact .inr ⟨name', hne, hs⟩
  · rintro (rfl | ⟨name', hne, hs⟩)
    · exact ⟨name, get?_enterModule_self m name⟩
    · exact ⟨name', (get?_enterModule_of_ne m hne).trans hs⟩

theorem lodges_of_enterModule (h : (m.enterModule name).Lodges s) :
    s = (m.enter m.root).current ∨ m.Lodges s :=
  (lodges_enterModule.1 h).imp_right fun ⟨name', _, hs⟩ => ⟨name', hs⟩

/-! ### What stays -/

namespace Endures

theorem refl (m : Machine) : m.Endures m := ⟨rfl, fun _ => id, fun _ h _ => h⟩

theorem trans {m'' : Machine} (h : m.Endures m') (h' : m'.Endures m'') : m.Endures m'' where
  root := h'.root.trans h.root
  opened s hs := h'.opened s (h.opened s hs)
  lodges s hl hs := h.lodges s (h'.lodges s hl (h.opened s hs)) hs

theorem of_same (hroot : m'.root = m.root) (hmodules : m'.modules = m.modules)
    (hopen : ∀ s, m'.arena.isOpen s = m.arena.isOpen s) : m.Endures m' where
  root := hroot
  opened s hs := (hopen s).trans hs
  lodges s hl _ := by rwa [Lodges, hmodules] at hl

theorem exit (h : m.arena.FreeExact) (hm' : (m.enter parent).Endures m') :
    m.Endures (m'.exit (m.enter parent).current m.current) where
  root := hm'.root
  opened s hs := (isOpen_exit _ _ _ s).2
    ⟨ne_entered h parent hs, hm'.opened s (isOpen_enter_of_isOpen h parent hs)⟩
  lodges s hl hs := hm'.lodges s hl (isOpen_enter_of_isOpen h parent hs)

theorem leaveModule (h : m.arena.FreeExact) (hm' : (m.enterModule name).Endures m') :
    m.Endures { m' with current := m.current } where
  root := hm'.root
  opened s hs := hm'.opened s (isOpen_enter_of_isOpen h m.root hs)
  lodges s hl hs := by
    have hentered := hm'.lodges s hl (isOpen_enter_of_isOpen h m.root hs)
    exact (lodges_of_enterModule hentered).resolve_left (ne_entered h m.root hs)

/-- A scope that is lost stays so. -/
theorem lost (h : m.Endures m') (hs : m.Lost s) : m'.Lost s where
  isOpen := h.opened s hs.isOpen
  ne_root := h.root ▸ hs.ne_root
  not_lodges hl := hs.not_lodges (h.lodges s hl hs.isOpen)

end Endures

/-- The scope of a block is that of no module when the block ends. -/
theorem not_lodges_entered (h : m.arena.FreeExact) (hopened : ∀ s, m.Lodges s → m.arena.isOpen s = true)
    (hm' : (m.enter parent).Endures m') : ¬ m'.Lodges (m.enter parent).current := by
  intro hl
  have hlodged : m.Lodges (m.enter parent).current := hm'.lodges _ hl (isOpen_entered h parent)
  exact ne_entered h parent (hopened _ hlodged) rfl

namespace Lodging

/-- A change that opens and closes nothing. -/
theorem quiet (h : m.Lodging) (hroot : m'.root = m.root) (hmodules : m'.modules = m.modules)
    (hfree : m'.arena.FreeExact) (hopen : ∀ s, m'.arena.isOpen s = m.arena.isOpen s) :
    m'.Lodging ∧ m.Endures m' := by
  have hlodges : ∀ {s}, m'.Lodges s → m.Lodges s := fun hs => by rwa [Lodges, hmodules] at hs
  refine ⟨⟨hfree, ?_, fun s hs => (hopen s).trans (h.opened s (hlodges hs)),
    fun s hs => hroot ▸ h.ne_root s (hlodges hs), ?_⟩, .of_same hroot hmodules hopen⟩
  · rw [hopen, hroot]
    exact h.root
  · rw [hmodules]
    exact h.unique

theorem enter (h : m.Lodging) (parent : ScopeId) : (m.enter parent).Lodging where
  free := free_enter h.free parent
  root := isOpen_enter_of_isOpen h.free parent h.root
  opened s hs := isOpen_enter_of_isOpen h.free parent (h.opened s hs)
  ne_root := h.ne_root
  unique := h.unique

theorem exit (h : m.Lodging) (h' : m'.Lodging) (hm' : (m.enter parent).Endures m') :
    (m'.exit (m.enter parent).current m.current).Lodging where
  free := h'.free.releaseBy _ _ _
  root := by
    refine (isOpen_exit _ _ _ _).2 ⟨?_, h'.root⟩
    show m'.root ≠ _
    rw [hm'.root]
    exact ne_entered h.free parent h.root
  opened s hs := by
    refine (isOpen_exit _ _ _ s).2 ⟨?_, h'.opened s hs⟩
    rintro rfl
    exact not_lodges_entered h.free h.opened hm' hs
  ne_root := h'.ne_root
  unique := h'.unique

theorem enterModule (h : m.Lodging) (name : String) : (m.enterModule name).Lodging where
  free := free_enter h.free m.root
  root := isOpen_enter_of_isOpen h.free m.root h.root
  opened s hs := by
    refine (isOpen_enter h.free m.root s).2 ?_
    exact (lodges_of_enterModule hs).imp_right (h.opened s)
  ne_root s hs := by
    rcases lodges_of_enterModule hs with rfl | hs
    · exact (ne_entered h.free m.root h.root).symm
    · exact h.ne_root s hs
  unique := by
    -- the scope of the new module is that of no other one, since it is new
    have hnew : ∀ {name'}, m.modules.get? name' ≠ some (m.enter m.root).current := fun hs =>
      ne_entered h.free m.root (h.opened _ ⟨_, hs⟩) rfl
    intro name₁ name₂ s h₁ h₂
    by_cases hne₁ : name₁ = name <;> by_cases hne₂ : name₂ = name
    · exact hne₁.trans hne₂.symm
    · rw [hne₁, get?_enterModule_self] at h₁
      rw [get?_enterModule_of_ne m hne₂, ← h₁] at h₂
      exact (hnew h₂).elim
    · rw [hne₂, get?_enterModule_self] at h₂
      rw [get?_enterModule_of_ne m hne₁, ← h₂] at h₁
      exact (hnew h₁).elim
    · rw [get?_enterModule_of_ne m hne₁] at h₁
      rw [get?_enterModule_of_ne m hne₂] at h₂
      exact h.unique _ _ s h₁ h₂

theorem leaveModule (h' : m'.Lodging) (saved : ScopeId) : Lodging { m' with current := saved } :=
  ⟨h'.free, h'.root, h'.opened, h'.ne_root, h'.unique⟩

/-- A module that takes the name of another one makes the scope of that one lost. -/
theorem lost_enterModule (h : m.Lodging) (hs : m.modules.get? name = some s) :
    (m.enterModule name).Lost s where
  isOpen := isOpen_enter_of_isOpen h.free m.root (h.opened s ⟨name, hs⟩)
  ne_root := h.ne_root s ⟨name, hs⟩
  not_lodges hl := by
    rcases lodges_enterModule.1 hl with rfl | ⟨name', hne, hs'⟩
    · exact ne_entered h.free m.root (h.opened _ ⟨name, hs⟩) rfl
    · exact hne (h.unique _ _ s hs' hs)

end Lodging

private theorem isOpen_foldl_define (a : Arena) (s t : ScopeId) (l : List (String × Binding)) :
    (l.foldl (fun a e => a.define s e.1 e.2) a).isOpen t = a.isOpen t := by
  induction l generalizing a with
  | nil => rfl
  | cons e l ih => exact (ih (a.define s e.1 e.2)).trans (isOpen_define ..)

/-- At the start only the outermost scope is open. -/
theorem isOpen_start (args : List String) (maxDepth : Nat) (w : World) (s : ScopeId) :
    (start args maxDepth w).arena.isOpen s = true ↔ s = (start args maxDepth w).root := by
  have hpush : (start args maxDepth w).arena.isOpen s = (({} : Arena).push none).2.isOpen s :=
    isOpen_foldl_define _ _ s _
  have hempty : ({} : Arena).isOpen s = false := rfl
  rw [hpush, freeExact_empty.isOpen_push, hempty, Bool.or_false, decide_eq_true_eq]
  rfl

theorem not_lodges_start (args : List String) (maxDepth : Nat) (w : World) (s : ScopeId) :
    ¬ (start args maxDepth w).Lodges s := by
  rintro ⟨name, h⟩
  cases h

theorem lodging_start (args : List String) (maxDepth : Nat) (w : World) :
    (start args maxDepth w).Lodging where
  free := (settled_start args maxDepth w).free
  root := (isOpen_start args maxDepth w _).2 rfl
  opened s hs := (not_lodges_start args maxDepth w s hs).elim
  ne_root s hs := (not_lodges_start args maxDepth w s hs).elim
  unique name _ s hs := (not_lodges_start args maxDepth w s ⟨name, hs⟩).elim

end Machine

open Machine

theorem changes_lodging : Changes Lodging Endures where
  refl {m} _ := .refl m
  trans := Endures.trans
  bind name b hm := hm.quiet rfl rfl (hm.free.modify _ _) fun _ => isOpen_define ..
  assign := by
    intro m name v arena hm hassign
    obtain ⟨owner, old, -, rfl⟩ := assign_eq_ok hassign
    exact hm.quiet rfl rfl (hm.free.modify _ _) fun _ => isOpen_define ..
  makeFn {m} name params body hm := hm.quiet rfl rfl (free_makeFn hm.free name params body)
    (isOpen_makeFn m name params body)
  register _ hm := hm.quiet rfl rfl hm.free fun _ => rfl
  world _ hm := hm.quiet rfl rfl hm.free fun _ => rfl
  enterCall hm _ := ⟨hm.free, hm.root, hm.opened, hm.ne_root, hm.unique⟩
  exitCall _ _ hm' hr := ⟨⟨hm'.free, hm'.root, hm'.opened, hm'.ne_root, hm'.unique⟩,
    hr.root, hr.opened, hr.lodges⟩

end Sluice
