import Sluice.Proofs.Arena.Sweep

/-! Which scopes are open. A push opens one scope, closing a scope closes that one, and whatever is
freed on the way was closed before. -/
namespace Sluice.Arena

variable {a b : Arena} {outside : List Value} {s t : ScopeId} {sc : Scope} {o : SweepOrder}
  {gone : ScopeId → Prop}

def isOpen (a : Arena) (s : ScopeId) : Bool := (a.scope? s).any (·.isOpen)

theorem isOpen_eq_false_of_isClosed (h : a.isClosed s = true) : a.isOpen s = false := by
  obtain ⟨sc, hsc, hclosed⟩ := isClosed_iff.1 h
  simp [isOpen, hsc, hclosed]

theorem isOpen_modify (a : Arena) (s t : ScopeId) {f : Scope → Scope}
    (hf : ∀ sc, (f sc).isOpen = sc.isOpen) : (a.modify s f).isOpen t = a.isOpen t := by
  rw [isOpen, scope?_modify]
  split
  · cases h : a.scope? t with
    | none => simp [isOpen, h]
    | some sc => simp [isOpen, h, hf]
  · rfl

theorem isOpen_define (a : Arena) (s : ScopeId) (name : String) (b : Binding) (t : ScopeId) :
    (a.define s name b).isOpen t = a.isOpen t := isOpen_modify a s t fun _ => rfl

theorem isOpen_makeClosure (a : Arena) (s t : ScopeId) (name : Option String) (params : List String)
    (body : FnBody) : (a.makeClosure s name params body).2.isOpen t = a.isOpen t :=
  isOpen_modify a s t (f := Scope.noteFn a.nextClosure) fun _ => rfl

theorem FreeExact.makeClosure (h : a.FreeExact) (s : ScopeId) (name : Option String)
    (params : List String) (body : FnBody) : (a.makeClosure s name params body).2.FreeExact := by
  have hm := h.modify s (·.noteFn a.nextClosure)
  exact ⟨hm.nodup, hm.mem_iff⟩

theorem isOpen_hold (a : Arena) (s t : ScopeId) : (a.hold s).isOpen t = a.isOpen t :=
  isOpen_modify a s t fun _ => rfl

theorem isOpen_close (a : Arena) (s t : ScopeId) :
    (a.close s).isOpen t = (decide (t ≠ s) && a.isOpen t) := by
  rw [isOpen, close, scope?_modify]
  by_cases hst : s = t
  · subst hst
    cases a.scope? s <;> simp
  · simp [hst, Ne.symm hst, isOpen]

theorem FreeExact.isOpen_push (h : a.FreeExact) (parent : Option ScopeId) :
    (a.push parent).2.isOpen t = (decide (t = (a.push parent).1) || a.isOpen t) := by
  obtain ⟨-, hself, hold, -⟩ := h.push parent
  by_cases ht : t = (a.push parent).1
  · subst ht
    simp [isOpen, hself]
  · rw [isOpen, hold t ht]
    cases hsc : a.scope? t <;> simp [isOpen, hsc, ht, gain]

theorem FreeExact.isOpen_new (h : a.FreeExact) (parent : Option ScopeId) :
    a.isOpen (a.push parent).1 = false := by
  simp [isOpen, (h.push parent).1]

theorem Frees.isOpen (hf : Frees a b gone) (hg : ∀ t, gone t → a.isOpen t = false) (t : ScopeId) :
    b.isOpen t = a.isOpen t := by
  by_cases ht : gone t
  · rw [hg t ht, Arena.isOpen, hf.emptied t ht]
    rfl
  · obtain ⟨n, hn⟩ := hf.kept t ht
    rw [Arena.isOpen, hn]
    cases hsc : a.scope? t <;> simp [Arena.isOpen, hsc]

/-- Only closed scopes are freed upward. -/
theorem frees_closed_freeUpward (fuel : Nat) (hs : a.isOpen s = false) :
    ∃ gone, (∀ t, gone t → a.isOpen t = false) ∧ Frees a (freeUpward outside fuel a s) gone := by
  induction fuel generalizing a s with
  | zero => exact ⟨_, fun t => False.elim, Frees.refl a⟩
  | succ fuel ih =>
    have hself : ∀ t, t = s → a.isOpen t = false := fun t ht => ht ▸ hs
    have hf := frees_vacate a s
    cases hsc : a.scope? s with
    | none =>
      rw [freeUpward_of_none _ hsc]
      exact ⟨_, fun t => False.elim, Frees.refl a⟩
    | some sc =>
      rcases freeUpward_succ fuel hsc with ⟨hstop, -⟩ | ⟨p, sp, -, hsp, hclosed, -, hup⟩
      · rw [hstop]
        exact ⟨_, hself, hf⟩
      · have hp : (a.vacate s).isOpen p = false := by simp [isOpen, hsp, hclosed]
        obtain ⟨gone, hg, hf'⟩ := ih hp
        rw [hup]
        refine ⟨_, fun t ht => ?_, hf.trans hf'⟩
        rcases ht with ht | ht
        · exact hself t ht
        · rw [← hf.isOpen hself]
          exact hg t ht

/-- Only closed scopes are swept. -/
theorem frees_closed_sweepBy (a : Arena) (o : SweepOrder) (outside : List Value) :
    ∃ gone, (∀ t, gone t → a.isOpen t = false) ∧ Frees a (a.sweepBy o outside) gone := by
  refine ⟨_, fun t ht => ?_, frees_sweepBy a o outside⟩
  have hmem := (o.perm .freed _ _).mem_iff.1 (List.mem_filter.1 ht).1
  exact isOpen_eq_false_of_isClosed (has_candidates_iff.1 (List.mem_filter.1 hmem).2).2

theorem frees_closed_releaseBy (a : Arena) (o : SweepOrder) (outside : List Value)
    (hs : a.scope? s = some sc) :
    ∃ gone, (∀ t, gone t → (a.close s).isOpen t = false) ∧
      Frees (a.close s) (a.releaseBy o outside s) gone := by
  rw [releaseBy_of_some hs]
  split
  · split
    · obtain ⟨gone, hg, hf⟩ := frees_closed_sweepBy (a.detach s) o outside
      exact ⟨gone, hg, hf.size, hf.nextClosure, hf.emptied, hf.kept,
        fun h => hf.free ⟨h.nodup, h.mem_iff⟩, hf.children⟩
    · have hf := Frees.refl (a.close s)
      exact ⟨_, fun t => False.elim, hf.size, hf.nextClosure, hf.emptied, hf.kept,
        fun h => ⟨h.nodup, h.mem_iff⟩, hf.children⟩
  · exact frees_closed_freeUpward _ (by simp [isOpen_close])

/-- Closing a scope closes no other one. -/
theorem isOpen_releaseBy (a : Arena) (o : SweepOrder) (outside : List Value) (s t : ScopeId) :
    (a.releaseBy o outside s).isOpen t = (decide (t ≠ s) && a.isOpen t) := by
  cases hs : a.scope? s with
  | none =>
    rw [releaseBy, hs]
    by_cases hts : t = s
    · simp [hts, isOpen, hs]
    · simp [hts]
  | some sc =>
    obtain ⟨gone, hg, hf⟩ := frees_closed_releaseBy a o outside hs
    rw [hf.isOpen hg, isOpen_close]

theorem FreeExact.releaseBy (h : a.FreeExact) (o : SweepOrder) (outside : List Value)
    (s : ScopeId) : (a.releaseBy o outside s).FreeExact := by
  cases hs : a.scope? s with
  | none => rwa [Arena.releaseBy, hs]
  | some sc =>
    obtain ⟨gone, -, hf⟩ := frees_closed_releaseBy a o outside hs
    exact hf.free (h.modify s _)

end Sluice.Arena
