import Sluice.Proofs.Arena.Chain
import Sluice.Proofs.Arena.Opening

/-! The list of detached scopes. A closed scope that is still there is on it, and it is swept before it is
twice as long as what the last sweep left of it. -/
namespace Sluice.Arena

variable {a b : Arena} {outside : List Value} {s t : ScopeId} {sc : Scope} {o : SweepOrder}
  {gone : ScopeId → Prop} {survived : Nat}

/-! ### Counting -/

def closedSlots (a : Arena) : List ScopeId := (List.range a.slots.size).filter a.isClosed

def openSlots (a : Arena) : List ScopeId := (List.range a.slots.size).filter a.isOpen

theorem mem_closedSlots : s ∈ a.closedSlots ↔ a.isClosed s = true := by
  rw [closedSlots, List.mem_filter, List.mem_range, and_iff_right_iff_imp]
  intro hs
  obtain ⟨sc, hsc, -⟩ := isClosed_iff.1 hs
  exact lt_size_of_scope? hsc

theorem nodup_closedSlots (a : Arena) : a.closedSlots.Nodup := List.nodup_range.filter _

/-- Each scope is open or closed. -/
theorem live_eq (a : Arena) : a.live = a.openSlots.length + a.closedSlots.length := by
  have hcount : ∀ l : List ScopeId, (l.countP fun s => (a.scope? s).isSome) =
      (l.filter a.isOpen).length + (l.filter a.isClosed).length := by
    intro l
    induction l with
    | nil => rfl
    | cons s l ih =>
      rw [List.countP_cons, ih, List.filter_cons, List.filter_cons]
      rcases hs : a.scope? s with _ | ⟨parent, number, vars, isOpen, handles, children, firstFn⟩
      · simp [isOpen, isClosed, hs]
      · cases isOpen <;> simp [Arena.isOpen, isClosed, hs] <;> omega
  rw [live_eq_countP, hcount]
  rfl

/-! ### What the list is -/

/-- Every closed scope is on the list, which is shorter than what `survived` scopes allow. -/
structure Listed (a : Arena) (survived : Nat) : Prop where
  free : a.FreeExact
  mem : ∀ s, a.isClosed s = true → s ∈ a.detached
  nextSweep : a.nextSweep = max minSweep (2 * survived)
  size_lt : a.detached.size < a.nextSweep

theorem Listed.length_closedSlots_lt (h : a.Listed survived) :
    a.closedSlots.length < max minSweep (2 * survived) := by
  have hsub : a.closedSlots ⊆ a.detached.toList := fun s hs =>
    Array.mem_toList_iff.2 (h.mem s (mem_closedSlots.1 hs))
  have hle := (a.nodup_closedSlots.subperm hsub).length_le
  have hlt := h.size_lt
  rw [h.nextSweep] at hlt
  exact hle.trans_lt hlt

theorem listed_empty : Listed {} 0 where
  free := freeExact_empty
  mem := by simp [isClosed, scope?]
  nextSweep := rfl
  size_lt := by decide

theorem Listed.modify (h : a.Listed survived) (s : ScopeId) {f : Scope → Scope}
    (hf : ∀ sc, (f sc).isOpen = sc.isOpen) : (a.modify s f).Listed survived where
  free := h.free.modify s f
  mem t ht := h.mem t ((isClosed_modify a s t hf).symm.trans ht)
  nextSweep := h.nextSweep
  size_lt := h.size_lt

theorem nextSweep_push (a : Arena) (parent : Option ScopeId) :
    (a.push parent).2.nextSweep = a.nextSweep := by
  rw [push_eq]
  cases parent <;> split <;> rfl

theorem Listed.push (h : a.Listed survived) (parent : Option ScopeId) :
    (a.push parent).2.Listed survived := by
  refine ⟨(h.free.push parent).2.2.2, fun t ht => ?_, ?_, ?_⟩
  · obtain ⟨sc, hsc, hclosed⟩ := isClosed_iff.1 ht
    rw [detached_push]
    rcases h.free.of_scope?_push hsc with ⟨-, rfl⟩ | ⟨n, old, hold, rfl⟩
    · cases hclosed
    · exact h.mem t (isClosed_iff.2 ⟨old, hold, hclosed⟩)
  · rw [nextSweep_push, h.nextSweep]
  · rw [detached_push, nextSweep_push]
    exact h.size_lt

/-! ### Sweeping -/

theorem Frees.isClosed_iff (hf : Frees a b gone) :
    b.isClosed t = true ↔ a.isClosed t = true ∧ ¬ gone t := by
  rw [Arena.isClosed_iff, Arena.isClosed_iff]
  constructor
  · rintro ⟨sc, hsc, hclosed⟩
    obtain ⟨ht, n, hold⟩ := hf.scope?_eq_some hsc
    exact ⟨⟨_, hold, hclosed⟩, ht⟩
  · rintro ⟨⟨sc, hsc, hclosed⟩, ht⟩
    obtain ⟨n, hn⟩ := hf.scope?_kept hsc ht
    exact ⟨_, hn, hclosed⟩

def keptSlots (a : Arena) (o : SweepOrder) (outside : List Value) : List ScopeId :=
  (o.arrange .freed _ a.candidateSlots).filter (a.survivors o outside).has

theorem detached_sweepBy (a : Arena) (o : SweepOrder) (outside : List Value) :
    (a.sweepBy o outside).detached = (a.keptSlots o outside).toArray := by
  rw [sweepBy, List.partition_eq_filter_filter]
  rfl

theorem nextSweep_sweepBy (a : Arena) (o : SweepOrder) (outside : List Value) :
    (a.sweepBy o outside).nextSweep = max minSweep (2 * (a.keptSlots o outside).length) := by
  rw [sweepBy, List.partition_eq_filter_filter]
  rfl

/-- If all closed scopes are on the list before a sweep, then the list is what they are afterwards. -/
theorem mem_keptSlots_iff (hmem : ∀ s, a.isClosed s = true → s ∈ a.detached) :
    t ∈ a.keptSlots o outside ↔ (a.sweepBy o outside).isClosed t = true := by
  have hcandidate : t ∈ o.arrange .freed _ a.candidateSlots ↔ a.isClosed t = true := by
    rw [(o.perm .freed _ _).mem_iff, candidateSlots, List.mem_filter, has_candidates_iff,
      List.mem_range]
    refine ⟨fun h => h.2.2, fun h => ⟨?_, hmem t h, h⟩⟩
    obtain ⟨sc, hsc, -⟩ := isClosed_iff.1 h
    exact lt_size_of_scope? hsc
  rw [(frees_sweepBy a o outside).isClosed_iff, keptSlots, List.mem_filter, List.mem_filter, hcandidate]
  cases (a.survivors o outside).has t <;> simp

theorem length_closedSlots_sweepBy (hmem : ∀ s, a.isClosed s = true → s ∈ a.detached) :
    (a.sweepBy o outside).closedSlots.length = (a.keptSlots o outside).length := by
  have hnodup : (a.keptSlots o outside).Nodup :=
    ((o.perm .freed _ _).nodup_iff.2 (List.nodup_range.filter _)).filter _
  refine ((List.perm_ext_iff_of_nodup (nodup_closedSlots _) hnodup).2 fun t => ?_).length_eq
  rw [mem_closedSlots, mem_keptSlots_iff hmem]

/-- After a sweep the list has room for as many scopes as are on it. -/
theorem listed_sweepBy (hfree : a.FreeExact) (hmem : ∀ s, a.isClosed s = true → s ∈ a.detached) :
    (a.sweepBy o outside).Listed (a.sweepBy o outside).closedSlots.length where
  free := (frees_sweepBy a o outside).free hfree
  mem := by
    intro t ht
    rw [detached_sweepBy, List.mem_toArray]
    exact (mem_keptSlots_iff hmem).2 ht
  nextSweep := by rw [nextSweep_sweepBy, length_closedSlots_sweepBy hmem]
  size_lt := by
    rw [detached_sweepBy, nextSweep_sweepBy, List.size_toArray, minSweep]
    omega

/-! ### Closing a scope -/

def sweeps (a : Arena) (outside : List Value) (s : ScopeId) : Bool :=
  (a.scope? s).any fun sc => (a.close s).isHeld outside s sc && a.nextSweep ≤ a.detached.size + 1

theorem sweeps_iff : a.sweeps outside s = true ↔ ∃ sc, a.scope? s = some sc ∧
    (a.close s).isHeld outside s sc = true ∧ a.nextSweep ≤ a.detached.size + 1 := by
  simp [sweeps, Option.any_eq_true]

theorem Frees.scope?_eq_none (hf : Frees a b gone) (ht : a.scope? t = none) : b.scope? t = none := by
  by_cases hg : gone t
  · exact hf.emptied t hg
  · obtain ⟨n, hn⟩ := hf.kept t hg
    rw [hn, ht]
    rfl

theorem scope?_freeUpward_self (fuel : Nat) (a : Arena) (s : ScopeId) :
    (freeUpward outside (fuel + 1) a s).scope? s = none := by
  have hself := scope?_vacate_self a s
  cases hs : a.scope? s with
  | none => rwa [freeUpward_of_none _ hs]
  | some sc =>
    rcases freeUpward_succ fuel hs with ⟨hstop, -⟩ | ⟨p, sp, -, hsp, hclosed, -, hup⟩
    · rwa [hstop]
    · have hp : (a.vacate s).isOpen p = false := by simp [isOpen, hsp, hclosed]
      obtain ⟨gone, -, hf⟩ := @frees_closed_freeUpward _ outside _ fuel hp
      rw [hup]
      exact hf.scope?_eq_none hself

@[simp] theorem nextSweep_freeUpward (fuel : Nat) (a : Arena) (s : ScopeId) :
    (freeUpward outside fuel a s).nextSweep = a.nextSweep := by
  have hvacate : ∀ (a : Arena) s, (a.vacate s).nextSweep = a.nextSweep := by
    intro a s
    rw [vacate]
    split
    · rfl
    · dsimp only
      split <;> rfl
  induction fuel generalizing a s with
  | zero => rfl
  | succ fuel ih =>
    cases hs : a.scope? s with
    | none => rw [freeUpward_of_none _ hs]
    | some sc =>
      rcases freeUpward_succ fuel hs with ⟨hstop, -⟩ | ⟨p, -, -, -, -, -, hup⟩
      · rw [hstop, hvacate]
      · rw [hup, ih, hvacate]

theorem isClosed_close (ht : (a.close s).isClosed t = true) : t = s ∨ a.isClosed t = true := by
  obtain ⟨sc, hsc, hclosed⟩ := isClosed_iff.1 ht
  rw [close, scope?_modify] at hsc
  split at hsc
  next hst => exact .inl hst.symm
  next => exact .inr (isClosed_iff.2 ⟨sc, hsc, hclosed⟩)

theorem releaseBy_of_sweeps (h : a.sweeps outside s = true) :
    a.releaseBy o outside s = (a.detach s).sweepBy o outside := by
  obtain ⟨sc, hsc, hheld, hlong⟩ := sweeps_iff.1 h
  rw [releaseBy_of_some hsc, if_pos hheld]
  refine if_pos ?_
  rw [detach, Array.size_push]
  exact hlong

theorem releaseBy_of_held (hs : a.scope? s = some sc) (hheld : (a.close s).isHeld outside s sc = true)
    (hsweeps : ¬ a.sweeps outside s = true) : a.releaseBy o outside s = a.detach s := by
  rw [releaseBy_of_some hs, if_pos hheld]
  refine if_neg fun hlong => hsweeps (sweeps_iff.2 ⟨sc, hs, hheld, ?_⟩)
  rwa [detach, Array.size_push] at hlong

theorem releaseBy_of_not_held (hs : a.scope? s = some sc)
    (hheld : ¬ (a.close s).isHeld outside s sc = true) :
    a.releaseBy o outside s = freeUpward outside (a.close s).slots.size (a.close s) s := by
  rw [releaseBy_of_some hs, if_neg hheld]

theorem Listed.mem_detach (h : a.Listed survived) (ht : (a.detach s).isClosed t = true) :
    t ∈ (a.detach s).detached := by
  rw [detach, Array.mem_push]
  rcases isClosed_close ht with rfl | ht
  · exact .inr rfl
  · exact .inl (h.mem t ht)

theorem Listed.release (h : a.Listed survived) (hs : ¬ a.sweeps outside s = true) :
    (a.releaseBy o outside s).Listed survived := by
  have hfree := h.free.releaseBy o outside s
  cases hsc : a.scope? s with
  | none => rwa [releaseBy, hsc]
  | some sc =>
    by_cases hheld : (a.close s).isHeld outside s sc = true
    · rw [releaseBy_of_held hsc hheld hs] at hfree ⊢
      refine ⟨hfree, fun t => h.mem_detach, h.nextSweep, ?_⟩
      rw [detach, Array.size_push]
      exact Nat.lt_of_not_le fun hle => hs (sweeps_iff.2 ⟨sc, hsc, hheld, hle⟩)
    · obtain ⟨n, hn⟩ := Nat.exists_eq_succ_of_ne_zero
        (Nat.ne_of_gt (Nat.zero_lt_of_lt (lt_size_of_scope? hsc)))
      have hsize : (a.close s).slots.size = n + 1 := by rw [close, size_modify, hn]
      rw [releaseBy_of_not_held hsc hheld, hsize] at hfree ⊢
      have hclosed : (a.close s).isOpen s = false := by simp [isOpen_close]
      obtain ⟨gone, -, hf⟩ := @frees_closed_freeUpward _ outside _ (n + 1) hclosed
      refine ⟨hfree, fun t ht => ?_, ?_, ?_⟩
      · rw [detached_freeUpward]
        rcases isClosed_close (hf.isClosed_iff.1 ht).1 with rfl | hold
        · obtain ⟨sc', hsc', -⟩ := isClosed_iff.1 ht
          rw [scope?_freeUpward_self] at hsc'
          cases hsc'
        · exact h.mem t hold
      · rw [nextSweep_freeUpward]
        exact h.nextSweep
      · rw [nextSweep_freeUpward, detached_freeUpward]
        exact h.size_lt

theorem Listed.release_of_sweeps (h : a.Listed survived) (hs : a.sweeps outside s = true) :
    (a.releaseBy o outside s).Listed (a.releaseBy o outside s).closedSlots.length := by
  rw [releaseBy_of_sweeps hs]
  have hfree := h.free.modify s fun sc => { sc with isOpen := false }
  exact listed_sweepBy ⟨hfree.nodup, hfree.mem_iff⟩ fun t => h.mem_detach

end Sluice.Arena
