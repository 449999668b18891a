import Sluice.Proofs.Arena.Opening

/-! The scopes that stay. A scope is rooted if its block runs, if there is a handle on it, or if it is
around such a scope. `Steady` says of two arenas that what is rooted in the first is rooted in the second,
under the same scopes; no operation of a run but the end of a block is against this, and that only for the
scope of the block. -/
namespace Sluice.Arena

variable {a b d : Arena} {outside : List Value} {s t p : ScopeId} {name x : String}
  {gone : ScopeId → Prop}

def isHandled (a : Arena) (s : ScopeId) : Bool := (a.scope? s).any (0 < ·.handles)

/-- The scopes that nothing in a run can free. -/
inductive Rooted (a : Arena) : ScopeId → Prop where
  | opened {s : ScopeId} : a.isOpen s = true → Rooted a s
  | handled {s : ScopeId} : a.isHandled s = true → Rooted a s
  | parent {s p : ScopeId} : Rooted a s → a.parent? s = some p → Rooted a p

theorem isSome_of_isOpen (h : a.isOpen s = true) : (a.scope? s).isSome := by
  obtain ⟨sc, hsc, -⟩ := (Option.any_eq_true _ _).1 h
  simp [hsc]

theorem isSome_of_isHandled (h : a.isHandled s = true) : (a.scope? s).isSome := by
  obtain ⟨sc, hsc, -⟩ := (Option.any_eq_true _ _).1 h
  simp [hsc]

theorem isHandled_hold (hs : (a.scope? s).isSome) : (a.hold s).isHandled s = true := by
  obtain ⟨sc, hsc⟩ := Option.isSome_iff_exists.1 hs
  simp [isHandled, hold, hsc]

theorem Linked.isSome_of_rooted (ha : a.Linked outside) (h : a.Rooted s) : (a.scope? s).isSome := by
  induction h with
  | opened hs => exact isSome_of_isOpen hs
  | handled hs => exact isSome_of_isHandled hs
  | parent _ hp _ => exact ha.parent hp

theorem Rooted.reaches (h : a.Rooted s) : a.Reaches outside s := by
  induction h with
  | opened hs =>
    obtain ⟨sc, hsc, hopen⟩ := (Option.any_eq_true _ _).1 hs
    exact .running hsc hopen
  | handled hs =>
    obtain ⟨sc, hsc, hpos⟩ := (Option.any_eq_true _ _).1 hs
    exact .handle hsc (of_decide_eq_true hpos)
  | parent _ hp ih =>
    obtain ⟨sc, hsc, hparent⟩ := parent?_eq_some.1 hp
    exact .link ih hsc (Scope.mem_links.2 (.inl hparent))

/-- If there are handles on the scopes of all functions that are bound, then what can be reached is
rooted. -/
theorem Reaches.rooted (h : a.Reaches [] s)
    (hfns : ∀ t sc, a.scope? t = some sc → ∀ c ∈ sc.functions, a.isHandled c.scope = true) :
    a.Rooted s := by
  induction h with
  | running hs hopen => exact .opened (by simp [isOpen, hs, hopen])
  | handle hs hpos => exact .handled (by simp [isHandled, hs, hpos])
  | value hv => cases hv
  | @link s t sc _ hs ht ih =>
    rcases Scope.mem_links.1 ht with hp | ⟨c, hc, rfl⟩
    · exact .parent ih (parent?_eq_some.2 ⟨sc, hs, hp⟩)
    · exact .handled (hfns s sc hs c hc)

/-! ### What stays -/

theorem Frees.parent? (hf : Frees a b gone) (hs : ¬ gone s) : b.parent? s = a.parent? s := by
  obtain ⟨n, hn⟩ := hf.kept s hs
  rw [Arena.parent?, hn, Arena.parent?, Option.bind_map]
  rfl

structure Steady (a b : Arena) : Prop where
  size : a.slots.size ≤ b.slots.size
  opened : ∀ s, a.isOpen s = true → b.isOpen s = true
  handled : ∀ s, a.isHandled s = true → b.isHandled s = true
  parent : ∀ s, a.Rooted s → b.parent? s = a.parent? s

namespace Steady

theorem refl (a : Arena) : Steady a a := ⟨Nat.le_refl _, fun _ => id, fun _ => id, fun _ _ => rfl⟩

theorem rooted (h : Steady a b) (hs : a.Rooted s) : b.Rooted s := by
  induction hs with
  | opened hs => exact .opened (h.opened _ hs)
  | handled hs => exact .handled (h.handled _ hs)
  | parent hs hp ih => exact .parent ih ((h.parent _ hs).trans hp)

theorem trans (h : Steady a b) (h' : Steady b d) : Steady a d where
  size := h.size.trans h'.size
  opened s hs := h'.opened s (h.opened s hs)
  handled s hs := h'.handled s (h.handled s hs)
  parent s hs := (h'.parent s (h.rooted hs)).trans (h.parent s hs)

theorem close (h : Steady a b) (hs : a.isOpen s = false) : Steady a (b.close s) where
  size := h.size.trans (Nat.le_of_eq (size_modify _ _ _).symm)
  opened t ht := by
    have hts : t ≠ s := by
      rintro rfl
      rw [hs] at ht
      cases ht
    rw [isOpen_close, h.opened t ht]
    simp [hts]
  handled t ht := by
    have hbt := h.handled t ht
    rw [isHandled, Arena.close, scope?_modify]
    split
    · obtain ⟨sc, hsc, hpos⟩ := (Option.any_eq_true _ _).1 hbt
      simpa [hsc] using hpos
    · exact hbt
  parent t ht := (parent?_close b s t).trans (h.parent t ht)

/-- What was rooted before is not freed as garbage. -/
theorem not_gone (h : Steady a b) (hg : b.Garbage outside gone) (hs : a.Rooted s) : ¬ gone s :=
  hg.not_gone (h.rooted hs).reaches

theorem frees (h : Steady a b) (hg : b.Garbage outside gone) (hf : Frees b d gone) : Steady a d where
  size := h.size.trans (Nat.le_of_eq hf.size.symm)
  opened t ht := by
    obtain ⟨sc, hsc, hopen⟩ := (Option.any_eq_true _ _).1 (h.opened t ht)
    obtain ⟨n, hn⟩ := hf.scope?_kept hsc (h.not_gone hg (.opened ht))
    simp [Arena.isOpen, hn, hopen]
  handled t ht := by
    obtain ⟨sc, hsc, hpos⟩ := (Option.any_eq_true _ _).1 (h.handled t ht)
    obtain ⟨n, hn⟩ := hf.scope?_kept hsc (h.not_gone hg (.handled ht))
    simpa [isHandled, hn] using hpos
  parent t ht := by
    exact (hf.parent? (h.not_gone hg ht)).trans (h.parent t ht)

end Steady

theorem steady_modify (a : Arena) (s : ScopeId) {f : Scope → Scope}
    (hparent : ∀ sc, (f sc).parent = sc.parent) (hopen : ∀ sc, (f sc).isOpen = sc.isOpen)
    (hhandles : ∀ sc, sc.handles ≤ (f sc).handles) : Steady a (a.modify s f) where
  size := Nat.le_of_eq (size_modify a s f).symm
  opened t ht := (isOpen_modify a s t hopen).trans ht
  handled t ht := by
    rw [isHandled, scope?_modify]
    split
    · obtain ⟨sc, hsc, hpos⟩ := (Option.any_eq_true _ _).1 ht
      have hmore := Nat.lt_of_lt_of_le (of_decide_eq_true hpos) (hhandles sc)
      simp [hsc, hmore]
    · exact ht
  parent t _ := parent?_modify a s t hparent

theorem steady_define (a : Arena) (s : ScopeId) (name : String) (b : Binding) :
    Steady a (a.define s name b) :=
  steady_modify a s (fun _ => rfl) (fun _ => rfl) fun _ => Nat.le_refl _

theorem Sound.steady_push (ha : a.Sound outside) (parent : Option ScopeId) :
    Steady a (a.push parent).2 := by
  refine ⟨size_le_push a parent, fun t ht => ?_, fun t ht => ?_, fun t ht => ?_⟩
  · rw [ha.free.isOpen_push, ht, Bool.or_true]
  · obtain ⟨sc, hsc, hpos⟩ := (Option.any_eq_true _ _).1 ht
    rw [isHandled, ha.free.scope?_push_of_some parent hsc]
    exact hpos
  · rw [ha.free.parent?_push, if_neg (ha.free.ne_push parent (ha.isSome_of_rooted ht))]

/-! ### Bindings -/

theorem local?_modify (a : Arena) (s t : ScopeId) {f : Scope → Scope}
    (hf : ∀ sc, (f sc).vars = sc.vars) : (a.modify s f).local? t = a.local? t := by
  funext x
  rw [local?, scope?_modify]
  split
  · simp [local?, Option.bind_map, hf]
  · rfl

theorem local?_define_self (hs : (a.scope? s).isSome) (name : String) (b : Binding) :
    (a.define s name b).local? s name = some b := by
  obtain ⟨sc, hsc⟩ := Option.isSome_iff_exists.1 hs
  simp [local?, define, hsc]

theorem local?_define_of_ne (b : Binding) (h : t ≠ s ∨ x ≠ name) :
    (a.define s name b).local? t x = a.local? t x := by
  rw [local?, define, scope?_modify]
  split
  next hst =>
    subst hst
    have hx : x ≠ name := h.resolve_left fun hne => hne rfl
    simp [local?, Option.bind_map, Table.get?_insert_of_ne _ _ hx]
  next => rfl

theorem FreeExact.local?_push (ha : a.FreeExact) (parent : Option ScopeId)
    (ht : t ≠ (a.push parent).1) : (a.push parent).2.local? t = a.local? t := by
  obtain ⟨-, -, hold, -⟩ := ha.push parent
  funext x
  rw [local?, hold t ht, local?, Option.bind_map]
  rfl

theorem FreeExact.local?_new (ha : a.FreeExact) (parent : Option ScopeId) (x : String) :
    (a.push parent).2.local? (a.push parent).1 x = none := by
  obtain ⟨-, hnew, -, -⟩ := ha.push parent
  simp [local?, hnew]

theorem Frees.local? (hf : Frees a b gone) (hs : ¬ gone s) : b.local? s = a.local? s := by
  obtain ⟨n, hn⟩ := hf.kept s hs
  funext x
  rw [Arena.local?, hn, Arena.local?, Option.bind_map]
  rfl

theorem Frees.local?_eq_some (hf : Frees a b gone) {v : Binding} (h : b.local? s x = some v) :
    a.local? s x = some v := by
  obtain ⟨sc, hsc, hget⟩ := Option.bind_eq_some_iff.1 h
  obtain ⟨-, n, hold⟩ := hf.scope?_eq_some hsc
  rw [Arena.local?, hold]
  exact hget

theorem isSome_of_local? {v : Binding} (h : a.local? s x = some v) : (a.scope? s).isSome := by
  obtain ⟨sc, hsc, -⟩ := Option.bind_eq_some_iff.1 h
  simp [hsc]

/-- A name that is bound in a scope is found from there. -/
theorem find?_of_local? {v : Binding} (h : a.local? s x = some v) : a.find? s x = some (s, v) := by
  obtain ⟨sc, hsc, hget⟩ := Option.bind_eq_some_iff.1 h
  obtain ⟨n, hn⟩ := Nat.exists_eq_succ_of_ne_zero (Nat.ne_of_gt (Nat.zero_lt_of_lt (lt_size_of_scope? hsc)))
  rw [find?, hn, findFrom, hsc]
  simp [hget]

end Sluice.Arena
