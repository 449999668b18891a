import Sluice.Proofs.Arena.Mirror
import Sluice.Proofs.Arena.Opening

/-! Holds are counted for the scope that they are on. A client may take a handle on an empty slot, or open a
scope under one, and give the handle back or close the scope when the slot has another scope; that changes no
count of the other scope. -/
namespace Sluice.Session

open Arena

variable {c d : Session} {s slot : ScopeId} {sc : Scope}

/-- Each scope knows how many handles are on it, and how many scopes hold it as their parent. -/
structure Counted (c : Session) : Prop where
  free : c.arena.FreeExact
  children : c.arena.ChildrenExact
  covered : ∀ {slot}, (c.arena.scope? slot).isSome → ∃ s, c.InPlace s ∧ c.slotOf s = slot
  opened : ∀ {s}, some s ∈ c.handles → s < c.slots.length
  handles : ∀ {s sc}, c.InPlace s → c.arena.scope? (c.slotOf s) = some sc →
    sc.handles = c.handles.count (some s)

theorem counted_empty : Counted {} where
  free := freeExact_empty
  children := childrenExact_empty
  covered := by simp [scope?]
  opened := by simp
  handles hs := absurd hs.1 (Nat.not_lt_zero _)

theorem Counted.tenant?_eq_some (h : c.Counted) :
    c.tenant? slot = some s ↔ c.InPlace s ∧ c.slotOf s = slot := by
  constructor
  · intro hs
    obtain ⟨sc, hsc, -⟩ := Option.map_eq_some_iff.1 hs
    obtain ⟨t, ht, rfl⟩ := h.covered (Option.isSome_iff_exists.2 ⟨sc, hsc⟩)
    rw [tenant?_of_inPlace ht] at hs
    cases hs
    exact ⟨ht, rfl⟩
  · rintro ⟨hs, rfl⟩
    exact tenant?_of_inPlace hs

/-- When no slot has got a scope, those that are there were there before. -/
theorem InPlace.of_fewer (hs : d.InPlace s) (hslots : d.slots = c.slots)
    (hsome : ∀ t, (d.arena.scope? t).isSome → (c.arena.scope? t).isSome) : c.InPlace s := by
  rw [InPlace, slotOf_congr hslots, numberOf_congr hslots, hslots] at hs
  exact ⟨hs.1, hsome _ hs.2.1, hs.2.2⟩

theorem Counted.covered_of_fewer (h : c.Counted) (hslots : d.slots = c.slots)
    (hsome : ∀ t, (d.arena.scope? t).isSome → (c.arena.scope? t).isSome)
    (hslot : (d.arena.scope? slot).isSome) : ∃ s, d.InPlace s ∧ d.slotOf s = slot := by
  obtain ⟨s, hs, rfl⟩ := h.covered (hsome slot hslot)
  refine ⟨s, ?_, by rw [slotOf_congr hslots]⟩
  rw [InPlace, slotOf_congr hslots, numberOf_congr hslots, hslots]
  exact ⟨hs.1, hslot, hs.2.2⟩

/-- Some scopes may have gone; those that are left have their handles. -/
theorem Counted.left (h : c.Counted) (hfree : d.arena.FreeExact) (hchildren : d.arena.ChildrenExact)
    (hslots : d.slots = c.slots) (hhandles : d.handles = c.handles)
    (hold : ∀ {t sc}, d.arena.scope? t = some sc →
      ∃ old, c.arena.scope? t = some old ∧ sc.handles = old.handles) : d.Counted := by
  have hsome : ∀ t, (d.arena.scope? t).isSome → (c.arena.scope? t).isSome := by
    intro t ht
    obtain ⟨sc, hsc⟩ := Option.isSome_iff_exists.1 ht
    obtain ⟨old, hold, -⟩ := hold hsc
    simp [hold]
  refine ⟨hfree, hchildren, h.covered_of_fewer hslots hsome, ?_, ?_⟩
  · intro t ht
    rw [hhandles] at ht
    rw [hslots]
    exact h.opened ht
  · intro t sc ht hsc
    rw [slotOf_congr hslots] at hsc
    obtain ⟨old, hold, heq⟩ := hold hsc
    rw [heq, hhandles]
    exact h.handles (ht.of_fewer hslots hsome) hold

theorem Counted.modify (h : c.Counted) (slot : ScopeId) {f : Scope → Scope} (hf : KeepsLinks f)
    (hhandles : ∀ sc, (f sc).handles = sc.handles) :
    Counted { c with arena := c.arena.modify slot f } := by
  refine h.left (h.free.modify slot f) (h.children.modify slot hf) rfl rfl fun {t sc} ht => ?_
  rw [scope?_modify] at ht
  split at ht
  · obtain ⟨old, hold, rfl⟩ := Option.map_eq_some_iff.1 ht
    exact ⟨old, hold, hhandles old⟩
  · exact ⟨sc, ht, rfl⟩

theorem Counted.frees (h : c.Counted) {gone : ScopeId → Prop} (hf : Frees c.arena d.arena gone)
    (hslots : d.slots = c.slots) (hhandles : d.handles = c.handles) : d.Counted := by
  refine h.left (hf.free h.free) (hf.children h.children) hslots hhandles fun ht => ?_
  obtain ⟨-, n, hold⟩ := hf.scope?_eq_some ht
  exact ⟨_, hold, rfl⟩

theorem Counted.release (h : c.Counted) (s : ScopeId) (o : SweepOrder) :
    (c.step .reclaiming (.release s o)).2.Counted := by
  have hclose : Counted { c with arena := c.arena.close (c.slotOf s) } :=
    h.modify _ ⟨fun _ => rfl, fun _ => rfl, fun _ => rfl⟩ fun _ => rfl
  cases hs : c.arena.scope? (c.slotOf s) with
  | none =>
    have hsame : c.arena.releaseBy o c.values (c.slotOf s) = c.arena := by rw [releaseBy, hs]
    have hf : Frees c.arena (c.arena.releaseBy o c.values (c.slotOf s)) fun _ => False := by
      rw [hsame]
      exact Frees.refl _
    exact h.frees hf rfl rfl
  | some sc =>
    obtain ⟨gone, -, hf⟩ := frees_closed_releaseBy c.arena o c.values hs
    exact hclose.frees hf rfl rfl

/-- There is no handle on a new scope, and none goes to it later that was taken before. -/
theorem Counted.push (h : c.Counted) (parent : Option ScopeId) (running : List ScopeId) :
    Counted { c with
      arena := (c.arena.push parent).2, slots := c.slots ++ [(c.arena.push parent).1], running } := by
  have hp : Pushed c { c with
      arena := (c.arena.push parent).2, slots := c.slots ++ [(c.arena.push parent).1], running }
        parent (c.arena.push parent).1 := pushed h.free rfl rfl
  refine ⟨(h.free.push parent).2.2.2, h.children.push h.free parent, ?_, ?_, ?_⟩
  · intro slot hslot
    by_cases hnew : slot = (c.arena.push parent).1
    · exact ⟨c.slots.length, hp.inPlace_iff.2 (.inl rfl), hp.slotOf_new.trans hnew.symm⟩
    · rw [hp.isSome hnew] at hslot
      obtain ⟨s, hs, rfl⟩ := h.covered hslot
      exact ⟨s, hp.inPlace_iff.2 (.inr hs), hp.slotOf hs.1⟩
  · intro s hs
    rw [hp.length]
    exact Nat.lt_succ_of_lt (h.opened hs)
  · intro s sc hs hsc
    rcases hp.inPlace_iff.1 hs with rfl | hs
    · rw [hp.slotOf_new, hp.self] at hsc
      cases hsc
      exact (List.count_eq_zero.2 fun hmem => Nat.lt_irrefl _ (h.opened hmem)).symm
    · rw [hp.slotOf hs.1] at hsc
      have hne := h.free.ne_push parent hs.2.1
      obtain ⟨n, hn⟩ := hp.others _ hne
      rw [hsc] at hn
      obtain ⟨old, hold, rfl⟩ := Option.map_eq_some_iff.1 hn.symm
      show old.handles = c.handles.count (some s)
      exact h.handles hs hold

/-- A handle counts for the scope in the slot, if there is one. -/
theorem Counted.hold (h : c.Counted) (slot : ScopeId) : Counted { c with
    arena := c.arena.hold slot, handles := c.handles ++ [c.tenant? slot] } := by
  have hscope : ∀ t, (c.arena.hold slot).scope? t = if slot = t then
      (c.arena.scope? t).map fun sc => { sc with handles := sc.handles + 1 } else c.arena.scope? t :=
    fun t => scope?_modify c.arena slot t _
  have hsome : ∀ t, ((c.arena.hold slot).scope? t).isSome → (c.arena.scope? t).isSome := by
    intro t ht
    rw [hscope] at ht
    split at ht <;> simpa using ht
  refine ⟨h.free.modify slot _, h.children.modify slot ⟨fun _ => rfl, fun _ => rfl, fun _ => rfl⟩,
    h.covered_of_fewer rfl hsome, ?_, ?_⟩
  · intro s hs
    rcases List.mem_append.1 hs with hs | hs
    · exact h.opened hs
    · exact (h.tenant?_eq_some.1 (List.mem_singleton.1 hs).symm).1.1
  · intro s sc hs hsc
    have hs : c.InPlace s := hs.of_fewer rfl hsome
    have hsc' := (hscope (c.slotOf s)).symm.trans hsc
    show sc.handles = (c.handles ++ [c.tenant? slot]).count (some s)
    rw [List.count_append, List.count_singleton]
    by_cases hslot : slot = c.slotOf s
    · rw [if_pos hslot] at hsc'
      obtain ⟨old, hold, rfl⟩ := Option.map_eq_some_iff.1 hsc'
      rw [hslot, tenant?_of_inPlace hs, if_pos (beq_self_eq_true _), ← h.handles hs hold]
    · rw [if_neg hslot] at hsc'
      have hother : c.tenant? slot ≠ some s := fun ht => hslot (h.tenant?_eq_some.1 ht).2.symm
      rw [if_neg (by simpa using hother), Nat.add_zero, h.handles hs hsc']

/-- A handle that is given back counts no more for its scope, and it counted for no other one. -/
theorem Counted.handles_unheld (h : c.Counted) {i : Nat} (hs : c.InPlace s)
    (hsc : (c.unheld i).scope? (c.slotOf s) = some sc) :
    sc.handles = (c.handles.eraseIdx i).count (some s) := by
  have hkeep : (c.handles[i]?).join ≠ some s → c.arena.scope? (c.slotOf s) = some sc →
      sc.handles = (c.handles.eraseIdx i).count (some s) := by
    intro hother hsc
    rw [count_eraseIdx, if_neg hother, Nat.sub_zero]
    exact h.handles hs hsc
  rw [unheld] at hsc
  split at hsc
  next t ht =>
    split at hsc
    next hin =>
      rw [Arena.unhold, scope?_modify] at hsc
      by_cases hslot : c.slotOf t = c.slotOf s
      · have hts : t = s := (h.tenant?_eq_some.1 hin).1.inj hs hslot
        rw [if_pos hslot] at hsc
        obtain ⟨old, hold, rfl⟩ := Option.map_eq_some_iff.1 hsc
        rw [count_eraseIdx, ht, hts, if_pos rfl, ← h.handles hs hold]
      · rw [if_neg hslot] at hsc
        refine hkeep ?_ hsc
        rw [ht]
        rintro ⟨⟩
        exact hslot rfl
    next hgone =>
      refine hkeep ?_ hsc
      rw [ht]
      rintro ⟨⟩
      exact hgone (tenant?_of_inPlace hs)
  next hnone => exact hkeep (by simp [hnone]) hsc

theorem Counted.unhold (h : c.Counted) (i : Nat) : Counted { c with
    arena := c.unheld i, handles := c.handles.eraseIdx i } := by
  have hsome : ∀ t, ((c.unheld i).scope? t).isSome → (c.arena.scope? t).isSome := by
    intro t ht
    rcases c.unheld_eq i with heq | ⟨s, heq⟩
    · rwa [heq] at ht
    · rw [heq, Arena.unhold, scope?_modify] at ht
      split at ht <;> simpa using ht
  constructor
  · rcases c.unheld_eq i with heq | ⟨s, heq⟩
    · exact heq ▸ h.free
    · exact heq ▸ h.free.modify s _
  · rcases c.unheld_eq i with heq | ⟨s, heq⟩
    · exact heq ▸ h.children
    · exact heq ▸ h.children.modify s ⟨fun _ => rfl, fun _ => rfl, fun _ => rfl⟩
  · exact h.covered_of_fewer rfl hsome
  · exact fun hs => h.opened (List.mem_of_mem_eraseIdx hs)
  · intro s sc hs hsc
    have hs : c.InPlace s := hs.of_fewer rfl hsome
    exact h.handles_unheld hs hsc

/-- What one request does to the counts, proper or not. -/
theorem counted_step (h : c.Counted) (r : Request) : (c.step .reclaiming r).2.Counted := by
  cases r with
  | push parent => exact h.push _ _
  | hold s => exact h.hold _
  | unhold i => exact h.unhold i
  | makeFn s name params body =>
    have hm := h.modify (c.slotOf s) (f := Scope.noteFn c.arena.nextClosure)
      ⟨fun _ => rfl, fun _ => rfl, fun _ => rfl⟩ fun _ => rfl
    exact ⟨⟨hm.free.nodup, hm.free.mem_iff⟩, hm.children, hm.covered, hm.opened, hm.handles⟩
  | define s name b => exact h.modify _ ⟨fun _ => rfl, fun _ => rfl, fun _ => rfl⟩ fun _ => rfl
  | assign s name v =>
    simp only [step, reply]
    split
    next b hassign =>
      obtain ⟨owner, old, -, rfl⟩ := assign_eq_ok hassign
      exact h.modify owner ⟨fun _ => rfl, fun _ => rfl, fun _ => rfl⟩ fun _ => rfl
    next => exact h
  | release s o => exact h.release s o
  | sweep o => exact h.frees (frees_sweepBy c.arena o c.values) rfl rfl
  | keep v => exact ⟨h.free, h.children, h.covered, h.opened, h.handles⟩
  | forget i => exact ⟨h.free, h.children, h.covered, h.opened, h.handles⟩
  | lookup s name => exact h
  | ownBinding s name => exact h
  | find s name => exact h
  | exports s => exact h

theorem counted_run (h : c.Counted) (script : List Request) : (c.run .reclaiming script).2.Counted := by
  induction script generalizing c with
  | nil => exact h
  | cons r script ih => exact ih (counted_step h r)

/-- The counts are exact. After every script, whether its requests were proper or not, a scope counts the
scopes that hold it as their parent and the handles that are on it. -/
theorem counts_exact (script : List Request) {slot : ScopeId} {sc : Scope}
    (h : (after script).arena.scope? slot = some sc) :
    sc.children = ((after script).arena.under slot).card ∧
      sc.handles = (after script).handles.count ((after script).tenant? slot) := by
  have hc : (after script).Counted := counted_run counted_empty script
  obtain ⟨s, hs, rfl⟩ := hc.covered (Option.isSome_iff_exists.2 ⟨sc, h⟩)
  rw [tenant?_of_inPlace hs]
  exact ⟨(hc.children _ _ h).2, hc.handles hs h⟩

end Sluice.Session
