import Mathlib.Data.Finset.Max
import Sluice.Proofs.Arena.Detached
import Sluice.Proofs.Arena.Rooted
import Sluice.Proofs.Arena.Session

/-! Scopes are freed at once where no functions are made and no handles taken. Then nothing holds a scope but
the scopes under it, so a closed scope goes with the last of these, and the slots in use are those of the open
scopes and of the scopes around them. -/
namespace Sluice

namespace Arena

variable {a b : Arena} {outside : List Value} {s t : ScopeId} {sc : Scope} {l : List ScopeId}
  {gone : ScopeId → Prop} {o : SweepOrder}

/-! ### Arenas without functions and handles -/

/-- Nothing holds a scope but the scopes under it, and these are younger. -/
structure Plain (a : Arena) : Prop where
  handles : ∀ s sc, a.scope? s = some sc → sc.handles = 0
  functions : ∀ s sc, a.scope? s = some sc → sc.functions = []
  older : ∃ age : ScopeId → Nat, ∀ s p, a.parent? s = some p → age p < age s

theorem plain_empty : Plain {} := ⟨by simp [scope?], by simp [scope?], fun _ => 0, by simp [parent?, scope?]⟩

theorem Plain.isHeld_iff (h : a.Plain) (hl : a.Linked []) (hs : a.scope? s = some sc) :
    a.isHeld [] s sc = true ↔ ∃ t, a.parent? t = some s := by
  have hfn : ¬ ∃ c ∈ a.references [], c.scope = s := by
    rintro ⟨c, hc, -⟩
    rcases mem_references.1 hc with ⟨v, hv, -⟩ | ⟨t, st, ht, hc⟩
    · cases hv
    · rw [h.functions t st ht] at hc
      cases hc
  rw [hl.isHeld_iff hs, h.handles s sc hs]
  simp [hfn]

theorem Plain.frees (h : a.Plain) (hf : Frees a b gone) : b.Plain where
  handles s sc hs := by
    obtain ⟨-, n, hold⟩ := hf.scope?_eq_some hs
    have hzero := h.handles s _ hold
    exact hzero
  functions s sc hs := by
    obtain ⟨-, n, hold⟩ := hf.scope?_eq_some hs
    have hnil := h.functions s _ hold
    exact hnil
  older := by
    obtain ⟨age, hage⟩ := h.older
    refine ⟨age, fun s p hp => hage s p ?_⟩
    obtain ⟨sc, hsc, hparent⟩ := parent?_eq_some.1 hp
    obtain ⟨-, n, hold⟩ := hf.scope?_eq_some hsc
    exact parent?_eq_some.2 ⟨_, hold, hparent⟩

theorem Plain.modify (h : a.Plain) (s : ScopeId) {f : Scope → Scope}
    (hparent : ∀ sc, (f sc).parent = sc.parent) (hhandles : ∀ sc, (f sc).handles = sc.handles)
    (hfunctions : ∀ sc, a.scope? s = some sc → (f sc).functions = []) : (a.modify s f).Plain where
  handles t sc ht := by
    rw [scope?_modify] at ht
    split at ht
    · obtain ⟨old, hold, rfl⟩ := Option.map_eq_some_iff.1 ht
      exact (hhandles old).trans (h.handles t old hold)
    · exact h.handles t sc ht
  functions t sc ht := by
    rw [scope?_modify] at ht
    split at ht
    next hst =>
      obtain ⟨old, hold, rfl⟩ := Option.map_eq_some_iff.1 ht
      exact hfunctions old (hst ▸ hold)
    next => exact h.functions t sc ht
  older := by
    obtain ⟨age, hage⟩ := h.older
    exact ⟨age, fun t p hp => hage t p ((parent?_modify a s t hparent).symm.trans hp)⟩

theorem Plain.close (h : a.Plain) (s : ScopeId) : (a.close s).Plain :=
  h.modify s (fun _ => rfl) (fun _ => rfl) fun sc hs => h.functions s sc hs

theorem Plain.push (h : a.Plain) (ha : a.Sound []) (parent : Option ScopeId)
    (hp : ∀ p, parent = some p → (a.scope? p).isSome) : (a.push parent).2.Plain := by
  refine ⟨fun t sc ht => ?_, fun t sc ht => ?_, ?_⟩
  · rcases ha.free.of_scope?_push ht with ⟨-, rfl⟩ | ⟨n, old, hsc, rfl⟩
    · rfl
    · exact h.handles t old hsc
  · rcases ha.free.of_scope?_push ht with ⟨-, rfl⟩ | ⟨n, old, hsc, rfl⟩
    · rfl
    · exact h.functions t old hsc
  · -- the new scope is younger than its parent, and no scope is under it yet
    obtain ⟨age, hage⟩ := h.older
    have hne : ∀ {p}, (a.scope? p).isSome → p ≠ (a.push parent).1 := ha.free.ne_push parent
    refine ⟨Function.update age (a.push parent).1 ((parent.map age).getD 0 + 1), fun t p htp => ?_⟩
    rw [ha.free.parent?_push] at htp
    split at htp
    next hts =>
      subst hts
      rw [Function.update_self, Function.update_of_ne (hne (hp p htp)), htp]
      exact Nat.lt_succ_self _
    next hts =>
      rw [Function.update_of_ne hts, Function.update_of_ne (hne (ha.parent htp))]
      exact hage t p htp

/-! ### Closed scopes with nothing under them -/

/-- The block of the scope has ended, and no scope is under it. -/
def Deserted (a : Arena) (s : ScopeId) : Prop := a.isClosed s = true ∧ ∀ t, a.parent? t ≠ some s

theorem Plain.isHeld_eq_false_iff (h : a.Plain) (hl : a.Linked []) (hs : a.scope? s = some sc) :
    a.isHeld [] s sc = false ↔ ∀ t, a.parent? t ≠ some s := by
  rw [← Bool.not_eq_true, h.isHeld_iff hl hs, not_exists]

/-- When a slot is emptied, only the parent of its scope may lose the last scope under it. -/
theorem Deserted.of_vacate (h : (a.vacate s).Deserted t) :
    a.parent? s = some t ∨ a.Deserted t ∧ t ≠ s := by
  obtain ⟨hclosed, hts⟩ := (frees_vacate a s).isClosed_iff.1 h.1
  by_cases hst : a.parent? s = some t
  · exact .inl hst
  · refine .inr ⟨⟨hclosed, fun u hu => ?_⟩, hts⟩
    have hus : s ≠ u := by
      rintro rfl
      exact hst hu
    exact h.2 u (by rw [parent?_vacate, if_neg hus, hu])

/-- Freeing upward from the only deserted scope leaves none. -/
theorem not_deserted_freeUpward (fuel : Nat) (h : a.Plain) (hl : a.Linked []) (hfree : a.FreeExact)
    (hfuel : a.live ≤ fuel) (hs : a.Deserted s) (honly : ∀ t, a.Deserted t → t = s) :
    ∀ t, ¬ (freeUpward [] fuel a s).Deserted t := by
  induction fuel generalizing a s with
  | zero =>
    obtain ⟨sc, hsc, -⟩ := isClosed_iff.1 hs.1
    rw [live_eq_zero_iff.1 (Nat.le_zero.1 hfuel) s] at hsc
    cases hsc
  | succ fuel ih =>
    obtain ⟨sc, hsc, hclosed⟩ := isClosed_iff.1 hs.1
    have hf := frees_vacate a s
    have hl' : (a.vacate s).Linked [] := hl.frees hf
      (hl.garbage_of_not_held hsc hclosed ((h.isHeld_eq_false_iff hl hsc).2 hs.2))
    have hafter : ∀ t, (a.vacate s).Deserted t → sc.parent = some t := by
      intro t ht
      have hparent := ht.of_vacate.resolve_right fun ht => ht.2 (honly t ht.1)
      rwa [parent?, hsc] at hparent
    rcases freeUpward_succ fuel hsc with ⟨hstop, hstays⟩ | ⟨p, sp, hp, hsp, hclosed', hheld, hup⟩
    · rw [hstop]
      intro t ht
      obtain ⟨st, hst, hopen⟩ := isClosed_iff.1 ht.1
      have hheld := hstays t st (hafter t ht) hst hopen
      rw [((h.frees hf).isHeld_eq_false_iff hl' hst).2 ht.2] at hheld
      cases hheld
    · rw [hup]
      have hunheld := ((h.frees hf).isHeld_eq_false_iff hl' hsp).1 hheld
      refine ih (h.frees hf) hl' (hf.free hfree) ?_ ⟨isClosed_iff.2 ⟨sp, hsp, hclosed'⟩, hunheld⟩
        fun t ht => Option.some.inj ((hafter t ht).symm.trans hp)
      have hlive := hfree.live_vacate hsc
      omega

/-! ### Tidy arenas -/

structure Tidy (a : Arena) : Prop extends Sound a [], Plain a where
  not_deserted : ∀ s, ¬ a.Deserted s

theorem tidy_empty : Tidy {} where
  toSound := sound_empty
  toPlain := plain_empty
  not_deserted s hs := by
    obtain ⟨sc, hsc, -⟩ := isClosed_iff.1 hs.1
    simp [scope?] at hsc

theorem Chain.reaches (h : a.Chain s l) (hs : a.Reaches outside s) (ht : t ∈ l) : a.Reaches outside t := by
  induction h with
  | last => rwa [List.mem_singleton.1 ht]
  | under hsc hp _ ih =>
    rcases List.mem_cons.1 ht with rfl | ht
    · exact hs
    · exact ih (.link hs hsc (Scope.mem_links.2 (.inl hp))) ht

/-- From every scope the scopes outward come to an end. -/
theorem Plain.chain (h : a.Plain) (hl : a.Linked []) (hs : (a.scope? s).isSome) : ∃ l, a.Chain s l := by
  obtain ⟨age, hage⟩ := h.older
  induction hn : age s using Nat.strong_induction_on generalizing s with
  | _ n ih =>
    obtain ⟨sc, hsc⟩ := Option.isSome_iff_exists.1 hs
    cases hp : sc.parent with
    | none => exact ⟨[s], .last hsc hp⟩
    | some p =>
      have hparent : a.parent? s = some p := parent?_eq_some.2 ⟨sc, hsc, hp⟩
      obtain ⟨l, hchain⟩ := ih (age p) (hn ▸ hage s p hparent) (hl.parent hparent) rfl
      exact ⟨s :: l, .under hsc hp hchain⟩

/-- Under each scope, or in its place, is an open one. -/
theorem Tidy.exists_open (h : a.Tidy) (hs : (a.scope? s).isSome) :
    ∃ t l, a.isOpen t = true ∧ a.Chain t l ∧ s ∈ l := by
  classical
  obtain ⟨age, hage⟩ := h.older
  -- The youngest scope from which `s` lies outward: were it closed, one under it would be younger.
  let inside := (Finset.range a.slots.size).filter fun t => ∃ l, a.Chain t l ∧ s ∈ l
  have hinside : ∀ {t l}, a.Chain t l → s ∈ l → t ∈ inside := by
    intro t l hchain hsl
    obtain ⟨st, hst⟩ := Option.isSome_iff_exists.1 (hchain.isSome t hchain.mem_self)
    exact Finset.mem_filter.2 ⟨Finset.mem_range.2 (lt_size_of_scope? hst), l, hchain, hsl⟩
  obtain ⟨ls, hls⟩ := h.toPlain.chain h.toLinked hs
  obtain ⟨t, ht, hyoungest⟩ := inside.exists_max_image age ⟨s, hinside hls hls.mem_self⟩
  obtain ⟨l, hchain, hsl⟩ := (Finset.mem_filter.1 ht).2
  refine ⟨t, l, ?_, hchain, hsl⟩
  obtain ⟨st, hst⟩ := Option.isSome_iff_exists.1 (hchain.isSome t hchain.mem_self)
  by_contra hopen
  have hclosed : a.isClosed t = true := by
    simpa [isClosed, isOpen, hst] using hopen
  have hunder : ∃ u, a.parent? u = some t := by
    by_contra hnone
    exact h.not_deserted t ⟨hclosed, not_exists.1 hnone⟩
  obtain ⟨u, hu⟩ := hunder
  obtain ⟨su, hsu, hp⟩ := parent?_eq_some.1 hu
  have hle := hyoungest u (hinside (.under hsu hp hchain) (List.mem_cons_of_mem u hsl))
  exact Nat.not_lt_of_le hle (hage u t hu)

/-- The slots in use are those of the open scopes and of the scopes around them. -/
theorem Tidy.isSome_iff (h : a.Tidy) :
    (a.scope? s).isSome ↔ ∃ t l, a.isOpen t = true ∧ a.Chain t l ∧ s ∈ l :=
  ⟨h.exists_open, fun ⟨_, _, _, hchain, hs⟩ => hchain.isSome s hs⟩

theorem Tidy.reaches (h : a.Tidy) (hs : (a.scope? s).isSome) : a.Reaches [] s := by
  obtain ⟨t, l, hopen, hchain, hsl⟩ := h.exists_open hs
  obtain ⟨st, hst, hst'⟩ := (Option.any_eq_true _ _).1 hopen
  exact hchain.reaches (.running hst hst') hsl

/-- A push under a scope that is there keeps an arena tidy. -/
theorem Tidy.push (h : a.Tidy) (parent : Option ScopeId)
    (hp : ∀ p, parent = some p → (a.scope? p).isSome) : (a.push parent).2.Tidy where
  toSound := h.toSound.push parent hp
  toPlain := h.toPlain.push h.toSound parent hp
  not_deserted t ht := by
    obtain ⟨st, hst, hclosed⟩ := isClosed_iff.1 ht.1
    rcases h.free.of_scope?_push hst with ⟨-, rfl⟩ | ⟨n, old, hsc, rfl⟩
    · cases hclosed
    · refine h.not_deserted t ⟨isClosed_iff.2 ⟨old, hsc, hclosed⟩, fun u hu => ht.2 u ?_⟩
      obtain ⟨su, hsu, -⟩ := parent?_eq_some.1 hu
      rw [h.free.parent?_push, if_neg (h.free.ne_push parent (by simp [hsu])), hu]

/-- A name may be bound to a value without functions. -/
theorem Tidy.define (h : a.Tidy) (s : ScopeId) (name : String) {b : Binding}
    (hb : b.value.closures = []) : (a.define s name b).Tidy where
  toSound := h.toSound.define s name (by simp [hb])
  toPlain := by
    refine h.toPlain.modify s (fun _ => rfl) (fun _ => rfl) fun sc hs => ?_
    refine List.eq_nil_iff_forall_not_mem.2 fun c hc => ?_
    rcases mem_functions_insert hc with hc | hc
    · rw [hb] at hc
      cases hc
    · rw [h.functions s sc hs] at hc
      cases hc
  not_deserted t ht := by
    refine h.not_deserted t ⟨?_, fun u hu => ht.2 u ((parent?_define ..).trans hu)⟩
    rw [← ht.1, Arena.define, isClosed_modify]
    exact fun _ => rfl

/-- There is nothing to sweep in a tidy arena. -/
theorem Tidy.sweepBy (h : a.Tidy) (o : SweepOrder) : (a.sweepBy o []).Tidy := by
  obtain ⟨hfrees, hsound⟩ := h.toSound.sweepBy o
  have hf : Frees a (a.sweepBy o []) fun _ => False :=
    hfrees.congr fun s => by simpa using fun hs => h.reaches hs
  refine ⟨hsound, h.toPlain.frees hf, fun t ht => h.not_deserted t ⟨?_, fun u hu => ht.2 u ?_⟩⟩
  · exact (hf.isClosed_iff.1 ht.1).1
  · exact (hf.parent? id).trans hu

theorem Deserted.of_close (h : (a.close s).Deserted t) : t = s ∨ a.Deserted t := by
  refine (isClosed_close h.1).imp_right fun hclosed => ⟨hclosed, fun u hu => h.2 u ?_⟩
  exact (parent?_close a s u).trans hu

/-- Closing a scope keeps an arena tidy, whether the scope goes at once or is held. -/
theorem Tidy.release (h : a.Tidy) (o : SweepOrder) (s : ScopeId) : (a.releaseBy o [] s).Tidy := by
  cases hs : a.scope? s with
  | none => rwa [releaseBy, hs]
  | some sc =>
    have hplain := h.toPlain.close s
    have hsc : (a.close s).scope? s = some { sc with isOpen := false } := by simp [Arena.close, hs]
    obtain ⟨gone, -, hf, hsound⟩ := h.toSound.releaseBy hs o
    refine ⟨hsound, hplain.frees hf, ?_⟩
    by_cases hheld : (a.close s).isHeld [] s sc = true
    · have hdetached : (a.detach s).Tidy := by
        refine ⟨h.toSound.detach s, ⟨hplain.handles, hplain.functions, hplain.older⟩, fun t ht => ?_⟩
        rcases Deserted.of_close ht with rfl | ht
        · obtain ⟨u, hu⟩ := (hplain.isHeld_iff (h.toSound.linked_close t) hsc).1 hheld
          exact ht.2 u hu
        · exact h.not_deserted t ht
      by_cases hsweeps : a.sweeps [] s = true
      · rw [releaseBy_of_sweeps hsweeps]
        exact (hdetached.sweepBy o).not_deserted
      · rw [releaseBy_of_held hs hheld hsweeps]
        exact hdetached.not_deserted
    · rw [releaseBy_of_not_held hs hheld]
      have hfree : (a.close s).FreeExact := h.free.modify s _
      refine not_deserted_freeUpward _ hplain (h.toSound.linked_close s) hfree ?_ ⟨?_, ?_⟩ fun t ht => ?_
      · exact hfree.size_eq ▸ Nat.le_add_right _ _
      · exact isClosed_iff.2 ⟨_, hsc, rfl⟩
      · exact (hplain.isHeld_eq_false_iff (h.toSound.linked_close s) hsc).1 (Bool.eq_false_iff.2 hheld)
      · exact ht.of_close.resolve_right (h.not_deserted t)

end Arena

namespace Session

open Arena

variable {c : Session} {s : ScopeId}

/-! ### Scripts without functions and handles -/

/-- The request is one of a client that makes no functions, takes no handles and leaves sweeping to the
arena. A new scope goes under one that is there, open or not. -/
def Frugal (c : Session) : Request → Prop
  | .push parent => ∀ p, parent = some p → (c.arena.scope? (c.slotOf p)).isSome
  | .define _ _ b => b.value.closures = []
  | .assign _ _ v => v.closures = []
  | .release _ _ | .lookup _ _ | .ownBinding _ _ | .find _ _ | .exports _ => True
  | .hold _ | .unhold _ | .makeFn _ _ _ _ | .keep _ | .forget _ | .sweep _ => False

def FrugalRun (c : Session) : List Request → Prop
  | [] => True
  | r :: rs => c.Frugal r ∧ (c.step .reclaiming r).2.FrugalRun rs

structure Neat (c : Session) : Prop where
  tidy : c.arena.Tidy
  values : c.values = []
  running : ∀ slot, c.arena.isOpen slot = true →
    ∃ s ∈ c.running, s < c.slots.length ∧ c.slotOf s = slot

theorem neat_empty : Neat {} := ⟨tidy_empty, rfl, by simp [isOpen, scope?]⟩

theorem Neat.push (h : c.Neat) {parent : Option ScopeId} (hp : c.Frugal (.push parent)) :
    (c.step .reclaiming (.push parent)).2.Neat where
  tidy := by
    refine h.tidy.push _ fun p hpp => ?_
    obtain ⟨q, hq, rfl⟩ := Option.map_eq_some_iff.1 hpp
    exact hp q hq
  values := h.values
  running slot hslot := by
    have hopen := (h.tidy.free.isOpen_push (parent.map c.slotOf)).symm.trans hslot
    rw [Bool.or_eq_true, decide_eq_true_eq] at hopen
    rcases hopen with rfl | hopen
    · refine ⟨c.slots.length, List.mem_cons_self, ?_, ?_⟩ <;> simp [step, reply, slotOf]
    · obtain ⟨s, hs, hlt, rfl⟩ := h.running slot hopen
      refine ⟨s, List.mem_cons_of_mem _ hs, ?_, ?_⟩
      · simpa [step, reply] using Nat.lt_succ_of_lt hlt
      · simp [step, reply, slotOf, List.getElem?_append_left hlt]

theorem Neat.define (h : c.Neat) (slot : ScopeId) (name : String) {b : Binding}
    (hb : b.value.closures = []) : Neat { c with arena := c.arena.define slot name b } where
  tidy := h.tidy.define slot name hb
  values := h.values
  running t ht := h.running t ((isOpen_define ..).symm.trans ht)

theorem Neat.release (h : c.Neat) (s : ScopeId) (o : SweepOrder) :
    (c.step .reclaiming (.release s o)).2.Neat where
  tidy := by
    have htidy := h.tidy.release o (c.slotOf s)
    rwa [← h.values] at htidy
  values := h.values
  running slot hslot := by
    have hopen := (isOpen_releaseBy c.arena o c.values (c.slotOf s) slot).symm.trans hslot
    rw [Bool.and_eq_true, decide_eq_true_eq] at hopen
    obtain ⟨t, ht, hlt, rfl⟩ := h.running slot hopen.2
    have hts : t ≠ s := by
      rintro rfl
      exact hopen.1 rfl
    exact ⟨t, List.mem_filter.2 ⟨ht, decide_eq_true hts⟩, hlt, rfl⟩

/-- One frugal request. -/
theorem Neat.step (h : c.Neat) {r : Request} (hr : c.Frugal r) : (c.step .reclaiming r).2.Neat := by
  have hrename : ∀ v : Value, v.closures = [] → (v.rename c.slotOf).closures = [] := by
    intro v hv
    rw [Value.closures_rename, hv, List.map_nil]
  cases r with
  | push parent => exact h.push hr
  | define s name b => exact h.define (c.slotOf s) name (hrename b.value hr)
  | assign s name v =>
    simp only [Session.step, reply]
    split
    next b hassign =>
      obtain ⟨owner, old, -, rfl⟩ := assign_eq_ok hassign
      exact h.define owner name (hrename v hr)
    next => exact h
  | release s o => exact h.release s o
  | lookup s name => exact h
  | ownBinding s name => exact h
  | find s name => exact h
  | exports s => exact h
  | hold s => cases hr
  | unhold s => cases hr
  | makeFn s name params body => cases hr
  | keep v => cases hr
  | forget i => cases hr
  | sweep o => cases hr

theorem Neat.run (h : c.Neat) {script : List Request} (hscript : c.FrugalRun script) :
    (c.run .reclaiming script).2.Neat := by
  induction script generalizing c with
  | nil => exact h
  | cons r script ih => exact ih (h.step hscript.1) hscript.2

/-- Without functions and handles, scopes are freed promptly. After every frugal script the slots in use are
those of the open scopes and of the scopes from these outward, in whatever order scopes were closed and
whether or not this made the arena sweep; so when every scope has been closed, no slot is in use. -/
theorem freed_promptly (script : List Request) (h : FrugalRun {} script) :
    (∀ slot, ((after script).arena.scope? slot).isSome ↔
      ∃ s l, (after script).arena.isOpen s = true ∧ (after script).arena.Chain s l ∧ slot ∈ l) ∧
    ((after script).running = [] → (after script).arena.live = 0) := by
  have hneat : (after script).Neat := neat_empty.run h
  refine ⟨fun slot => hneat.tidy.isSome_iff, fun hnone => live_eq_zero_iff.2 fun slot => ?_⟩
  rw [← Option.not_isSome_iff_eq_none, hneat.tidy.isSome_iff]
  rintro ⟨t, -, hopen, -⟩
  obtain ⟨s, hs, -⟩ := hneat.running t hopen
  rw [hnone] at hs
  cases hs

/-- A script in which scopes are closed before those under them. The second scope goes with the third, the
fourth gets its slot, and the first goes with the fourth. -/
def outsideInScript : List Request :=
  [.push none, .push (some 0), .define 1 "x" { value := .int 1 }, .push (some 1), .release 1 .plain,
    .assign 2 "x" (.int 2), .release 2 .plain, .push (some 0), .release 0 .plain, .release 3 .plain]

theorem outsideInScript_freed : FrugalRun {} outsideInScript ∧
    (after outsideInScript).slots = [0, 1, 2, 1] ∧ (after outsideInScript).running = [] ∧
    (after outsideInScript).arena.live = 0 := by
  have hfrugal : FrugalRun {} outsideInScript := by
    refine ⟨nofun, ?_, rfl, ?_, trivial, rfl, trivial, ?_, trivial, trivial, trivial⟩ <;>
    · rintro p ⟨⟩
      decide
  exact ⟨hfrugal, by decide, by decide, (freed_promptly outsideInScript hfrugal).2 (by decide)⟩

end Session

end Sluice
