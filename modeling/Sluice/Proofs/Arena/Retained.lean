import Sluice.Proofs.Arena.Detached
import Sluice.Proofs.Arena.Session
import Sluice.Proofs.Arena.Shape

/-! Retained garbage is bounded: at any moment of a script the closed scopes that are still there are fewer
than twice those that the last sweep left, or fewer than 64. -/
namespace Sluice

open Arena

namespace Session

variable {c : Session} {n : Nat}

def sweeps (c : Session) : Request → Bool
  | .release s _ => c.arena.sweeps c.values (c.slotOf s)
  | .sweep _ => true
  | _ => false

/-- How many closed scopes the last sweep left once a request is done, when `n` were left before. -/
def leftAfter (c : Session) (n : Nat) (r : Request) : Nat :=
  if c.sweeps r then (c.step .reclaiming r).2.arena.closedSlots.length else n

/-- How many the last sweep left once a whole script is done. -/
def leftBy (c : Session) (n : Nat) : List Request → Nat
  | [] => n
  | r :: rs => (c.step .reclaiming r).2.leftBy (c.leftAfter n r) rs

/-- What one request does to the list of detached scopes, proper or not. -/
theorem listed_step (h : c.arena.Listed n) (r : Request) :
    (c.step .reclaiming r).2.arena.Listed (c.leftAfter n r) := by
  cases r with
  | push parent => exact h.push _
  | hold s => exact h.modify _ fun _ => rfl
  | unhold i =>
    show (c.unheld i).Listed n
    rcases c.unheld_eq i with heq | ⟨s, heq⟩
    · rwa [heq]
    · rw [heq]
      exact h.modify s fun _ => rfl
  | makeFn s name params body =>
    have hm := h.modify (c.slotOf s) (f := Scope.noteFn c.arena.nextClosure) fun _ => rfl
    exact ⟨⟨hm.free.nodup, hm.free.mem_iff⟩, hm.mem, hm.nextSweep, hm.size_lt⟩
  | define s name b => exact h.modify _ fun _ => rfl
  | assign s name v =>
    simp only [step, reply]
    split
    next b hassign =>
      obtain ⟨owner, old, -, rfl⟩ := assign_eq_ok hassign
      exact h.modify owner fun _ => rfl
    next => exact h
  | release s o =>
    by_cases hs : c.arena.sweeps c.values (c.slotOf s) = true
    · have hleft : c.leftAfter n (.release s o) =
          (c.arena.releaseBy o c.values (c.slotOf s)).closedSlots.length := if_pos hs
      rw [hleft]
      exact h.release_of_sweeps hs
    · have hleft : c.leftAfter n (.release s o) = n := if_neg hs
      rw [hleft]
      exact h.release hs
  | sweep o => exact listed_sweepBy h.free h.mem
  | keep v => exact h
  | forget i => exact h
  | lookup s name => exact h
  | ownBinding s name => exact h
  | find s name => exact h
  | exports s => exact h

theorem listed_run (h : c.arena.Listed n) (script : List Request) :
    (c.run .reclaiming script).2.arena.Listed (c.leftBy n script) := by
  induction script generalizing c n with
  | nil => exact h
  | cons r script ih => exact ih (listed_step h r)

/-- Retained garbage is bounded. After every script, whether its requests were proper or not, the closed
scopes that are still there are on the list of detached scopes, and there are fewer of them than 64 or twice
as many as the last sweep left, whichever is more; so the slots in use are at most that many more than the
open scopes. -/
theorem retained_bounded (script : List Request) :
    (∀ s, (after script).arena.isClosed s = true → s ∈ (after script).arena.detached) ∧
      (after script).arena.closedSlots.length < max 64 (2 * leftBy {} 0 script) ∧
      (after script).arena.live ≤
        (after script).arena.openSlots.length + max 64 (2 * leftBy {} 0 script) := by
  have h : (after script).arena.Listed (leftBy {} 0 script) := listed_run listed_empty script
  have hlt := h.length_closedSlots_lt
  rw [minSweep] at hlt
  refine ⟨h.mem, hlt, ?_⟩
  rw [live_eq]
  omega

theorem leftBy_append (c : Session) (n : Nat) (script rest : List Request) :
    c.leftBy n (script ++ rest) = (c.run .reclaiming script).2.leftBy (c.leftBy n script) rest := by
  induction script generalizing c n with
  | nil => rfl
  | cons r script ih => exact ih _ _

end Session

/-! ### Scopes that only hold themselves -/

namespace Arena

variable {a : Arena} {s : ScopeId} {sc : Scope}

/-- The first scope is open and leads nowhere; the others are closed, and there is no handle on them. -/
structure Littered (a : Arena) : Prop extends Sound a [] where
  first : ∃ sc, a.scope? 0 = some sc ∧ sc.isOpen = true ∧ sc.links = []
  closed : ∀ {s sc}, a.scope? s = some sc → s ≠ 0 → sc.isOpen = false ∧ sc.handles = 0

theorem Littered.eq_zero_of_reaches (h : a.Littered) (hs : a.Reaches [] s) : s = 0 := by
  induction hs with
  | running hs hopen =>
    by_contra hne
    rw [(h.closed hs hne).1] at hopen
    cases hopen
  | handle hs hpos =>
    by_contra hne
    rw [(h.closed hs hne).2] at hpos
    exact Nat.lt_irrefl 0 hpos
  | value hv => cases hv
  | link _ hs ht ih =>
    obtain ⟨first, hfirst, -, hlinks⟩ := h.first
    rw [ih, hfirst] at hs
    cases hs
    rw [hlinks] at ht
    cases ht

theorem Littered.isOpen_iff (h : a.Littered) : a.isOpen s = true ↔ s = 0 := by
  obtain ⟨first, hfirst, hopen, -⟩ := h.first
  constructor
  · intro hs
    obtain ⟨sc, hsc, hopen⟩ := (Option.any_eq_true _ _).1 hs
    by_contra hne
    rw [(h.closed hsc hne).1] at hopen
    cases hopen
  · rintro rfl
    simp [isOpen, hfirst, hopen]

theorem Littered.length_openSlots (h : a.Littered) : a.openSlots.length = 1 := by
  obtain ⟨first, hfirst, -, -⟩ := h.first
  have hzero : 0 ∈ List.range a.slots.size := List.mem_range.2 (lt_size_of_scope? hfirst)
  have hopen : a.openSlots = (List.range a.slots.size).filter (· = 0) := by
    apply List.filter_congr
    intro s _
    rw [Bool.eq_iff_iff, h.isOpen_iff, decide_eq_true_iff]
  rw [hopen, ← List.countP_eq_length_filter]
  exact List.count_eq_one_of_mem List.nodup_range hzero

/-- A sweep leaves the first scope. -/
theorem Littered.sweepBy (h : a.Littered) (o : SweepOrder) :
    (a.sweepBy o []).Littered ∧ (a.sweepBy o []).closedSlots = [] := by
  obtain ⟨hf, hsound⟩ := h.toSound.sweepBy o
  have hzero : ∀ {s sc}, (a.sweepBy o []).scope? s = some sc → s = 0 := by
    intro s sc hs
    obtain ⟨hgone, n, hold⟩ := hf.scope?_eq_some hs
    by_contra hne
    exact hgone ⟨by simp [hold], fun hr => hne (h.eq_zero_of_reaches hr)⟩
  have hswept : (a.sweepBy o []).Littered := by
    refine ⟨hsound, ?_, fun hs hne => absurd (hzero hs) hne⟩
    obtain ⟨first, hfirst, hopen, hlinks⟩ := h.first
    obtain ⟨n, hn⟩ := hf.scope?_kept hfirst fun hg => hg.2 (.running hfirst hopen)
    exact ⟨_, hn, hopen, hlinks⟩
  refine ⟨hswept, List.eq_nil_iff_forall_not_mem.2 fun s hs => ?_⟩
  have hclosed := mem_closedSlots.1 hs
  obtain ⟨sc, hsc, -⟩ := isClosed_iff.1 hclosed
  have hopen := hswept.isOpen_iff.2 (hzero hsc)
  rw [isOpen_eq_false_of_isClosed hclosed] at hopen
  cases hopen

def ownFn (a : Arena) : Closure := ⟨a.nextClosure, none, [], .pipeline [], (a.push (some 0)).1⟩

/-- Open a scope under the first one, and bind a function in it that is made there. -/
def bindOwn (a : Arena) : Arena :=
  ((a.push (some 0)).2.makeClosure (a.push (some 0)).1 none [] (.pipeline [])).2.define
    (a.push (some 0)).1 "f" { value := .fn a.ownFn }

def ownScope (a : Arena) : Scope :=
  { a.fresh (some 0) with vars := [("f", { value := .fn a.ownFn })], firstFn := some a.nextClosure }

theorem fn_makeClosure_push (a : Arena) :
    ((a.push (some 0)).2.makeClosure (a.push (some 0)).1 none [] (.pipeline [])).1 = a.ownFn := by
  rw [makeClosure, nextClosure_push, ownFn]

theorem scope?_bindOwn (h : a.FreeExact) (t : ScopeId) : a.bindOwn.scope? t =
    if t = (a.push (some 0)).1 then some a.ownScope
    else (a.scope? t).map (gain (if 0 = t then 1 else 0)) := by
  obtain ⟨-, hnew, hold, -⟩ := h.push (some 0)
  have hmade (t : ScopeId) : ((a.push (some 0)).2.makeClosure (a.push (some 0)).1 none []
      (.pipeline [])).2.scope? t = ((a.push (some 0)).2.modify (a.push (some 0)).1
        (·.noteFn a.nextClosure)).scope? t := by
    rw [makeClosure, nextClosure_push]
    rfl
  rw [bindOwn, define, scope?_modify, hmade, scope?_modify]
  by_cases ht : t = (a.push (some 0)).1
  · simp [ht, hnew, ownScope, fresh, Scope.noteFn, Table.insert]
  · simp [ht, Ne.symm ht, hold t ht]

theorem scope?_bindOwn_self (h : a.FreeExact) : a.bindOwn.scope? (a.push (some 0)).1 = some a.ownScope := by
  rw [scope?_bindOwn h, if_pos rfl]

theorem detached_bindOwn (a : Arena) : a.bindOwn.detached = a.detached := detached_push a (some 0)

theorem nextSweep_bindOwn (a : Arena) : a.bindOwn.nextSweep = a.nextSweep := nextSweep_push a (some 0)

theorem Littered.sound_bindOwn (h : a.Littered) : a.bindOwn.Sound [] := by
  obtain ⟨first, hfirst, -, -⟩ := h.first
  have hnew := (h.free.push (some 0)).2.1
  have hpushed : (a.push (some 0)).2.Sound [] := h.toSound.push (some 0) (by rintro p ⟨⟩; simp [hfirst])
  have hmade := hpushed.makeClosure (s := (a.push (some 0)).1) (by simp [hnew]) none [] (.pipeline [])
  rw [fn_makeClosure_push] at hmade
  have hbound := hmade.define (a.push (some 0)).1 "f" (b := { value := .fn a.ownFn })
    (fun c hc => mem_references.2 (.inl ⟨_, List.mem_singleton_self _, hc⟩))
  exact hbound.withOutside (by simp)

/-- Once the scope that was opened is closed, it is litter too. -/
theorem Littered.detach_bindOwn (h : a.Littered) : (a.bindOwn.detach (a.push (some 0)).1).Littered := by
  obtain ⟨first, hfirst, hopen, hlinks⟩ := h.first
  have hne : 0 ≠ (a.push (some 0)).1 := h.free.ne_push (some 0) (by simp [hfirst])
  have hscope (t : ScopeId) : (a.bindOwn.detach (a.push (some 0)).1).scope? t =
      if t = (a.push (some 0)).1 then some { a.ownScope with isOpen := false }
      else (a.scope? t).map (gain (if 0 = t then 1 else 0)) := by
    rw [scope?_detach, close, scope?_modify, scope?_bindOwn h.free]
    by_cases ht : t = (a.push (some 0)).1
    · simp [ht]
    · simp [ht, Ne.symm ht]
  constructor
  · exact h.sound_bindOwn.detach _
  · have hfirst' := hscope 0
    rw [if_neg hne, hfirst] at hfirst'
    exact ⟨_, hfirst', hopen, hlinks⟩
  · intro t sc ht hzero
    rw [hscope] at ht
    split at ht
    · cases ht
      exact ⟨rfl, rfl⟩
    · obtain ⟨old, hold, rfl⟩ := Option.map_eq_some_iff.1 ht
      obtain ⟨hclosed, hhandles⟩ := h.closed hold hzero
      exact ⟨hclosed, hhandles⟩

theorem Littered.live_detach_bindOwn (h : a.Littered) :
    (a.bindOwn.detach (a.push (some 0)).1).live = a.live + 1 := by
  have hsize : (a.bindOwn.detach (a.push (some 0)).1).slots.size = (a.push (some 0)).2.slots.size := by
    simp [detach, close, bindOwn, define, makeClosure]
  have hfree : (a.bindOwn.detach (a.push (some 0)).1).free = (a.push (some 0)).2.free := by
    simp [detach, close, bindOwn, define, makeClosure]
  rw [← h.free.live_push (some 0)]
  exact (h.free.push (some 0)).2.2.2.live_eq h.detach_bindOwn.free hsize hfree

/-- Its function holds the scope that was opened. -/
theorem Littered.isHeld_bindOwn (h : a.Littered) :
    (a.bindOwn.close (a.push (some 0)).1).isHeld [] (a.push (some 0)).1 a.ownScope = true := by
  have hself : (a.bindOwn.close (a.push (some 0)).1).scope? (a.push (some 0)).1 =
      some { a.ownScope with isOpen := false } := by
    rw [close, scope?_modify, if_pos rfl, scope?_bindOwn_self h.free]
    rfl
  have hfn : a.ownFn ∈ (a.bindOwn.close (a.push (some 0)).1).references [] :=
    mem_references.2 (.inr ⟨_, _, hself, by simp [Scope.functions, ownScope, Value.closures]⟩)
  exact ((h.sound_bindOwn.linked_close _).isHeld_iff hself).2 (.inr (.inr ⟨_, hfn, rfl⟩))

/-- There are `k` scopes that only hold themselves. -/
structure Pile (a : Arena) (k : Nat) : Prop extends Littered a where
  live : a.live = k + 1
  detached_size : a.detached.size = k
  nextSweep : a.nextSweep = minSweep

theorem pile_first : (({} : Arena).push none).2.Pile 0 := by
  obtain ⟨-, hnew, hold, -⟩ := freeExact_empty.push none
  constructor
  · constructor
    · exact sound_empty.push none (by simp)
    · exact ⟨_, hnew, rfl, rfl⟩
    · intro s sc hs hne
      rw [hold s hne] at hs
      cases hs
  · exact freeExact_empty.live_push none
  · rfl
  · rfl

theorem Pile.sweepBy {k : Nat} (h : a.Pile k) (o : SweepOrder) : (a.sweepBy o []).Pile 0 := by
  obtain ⟨hswept, hnil⟩ := h.toLittered.sweepBy o
  have hkept : (a.keptSlots o []).length = 0 := by
    rw [← length_closedSlots_sweepBy, hnil, List.length_nil]
    intro s hs
    obtain ⟨sc, hsc, hclosed⟩ := isClosed_iff.1 hs
    exact h.detached hsc hclosed
  refine ⟨hswept, ?_, ?_, ?_⟩
  · rw [live_eq, hswept.length_openSlots, hnil, List.length_nil]
  · rw [detached_sweepBy, List.size_toArray, hkept]
  · rw [nextSweep_sweepBy, hkept]
    rfl

theorem Pile.detach_bindOwn {k : Nat} (h : a.Pile k) :
    (a.bindOwn.detach (a.push (some 0)).1).Pile (k + 1) := by
  refine ⟨h.toLittered.detach_bindOwn, ?_, ?_, ?_⟩
  · rw [h.live_detach_bindOwn, h.live]
  · rw [detach, Array.size_push, close, detached_modify, detached_bindOwn, h.detached_size]
  · exact (nextSweep_bindOwn a).trans h.nextSweep

theorem Pile.length_closedSlots {k : Nat} (h : a.Pile k) : a.closedSlots.length = k := by
  have hlive := a.live_eq
  rw [h.live, h.length_openSlots] at hlive
  omega

theorem Pile.sweeps_iff {k : Nat} (h : a.Pile k) :
    a.bindOwn.sweeps [] (a.push (some 0)).1 = true ↔ 64 ≤ k + 1 := by
  rw [Arena.sweeps_iff, scope?_bindOwn_self h.free, detached_bindOwn, nextSweep_bindOwn, h.detached_size,
    h.nextSweep]
  constructor
  · rintro ⟨_, -, -, hlong⟩
    exact hlong
  · intro hlong
    exact ⟨_, rfl, h.isHeld_bindOwn, hlong⟩

/-- The scope is swept at the same time as the 63 before it, or put on the list. -/
theorem Pile.release_bindOwn {k : Nat} (h : a.Pile k) (hk : k < 64) (o : SweepOrder) :
    (a.bindOwn.releaseBy o [] (a.push (some 0)).1).Pile ((k + 1) % 64) := by
  by_cases hlast : k + 1 = 64
  · rw [releaseBy_of_sweeps (h.sweeps_iff.2 (Nat.le_of_eq hlast.symm)), hlast]
    exact h.detach_bindOwn.sweepBy o
  · have hshort : ¬ a.bindOwn.sweeps [] (a.push (some 0)).1 = true := by
      rw [h.sweeps_iff]
      omega
    rw [releaseBy_of_held (scope?_bindOwn_self h.free) h.isHeld_bindOwn hshort, Nat.mod_eq_of_lt (by omega)]
    exact h.detach_bindOwn

end Arena

namespace Session

/-- A scope under the first one, to which nothing refers but a function that is bound in it. -/
def selfHeld (n : Nat) : List Request :=
  [.push (some 0), .makeFn (n + 1) none [] (.pipeline []),
    .define (n + 1) "f" { value := .fn ⟨n, none, [], .pipeline [], n + 1⟩ }, .forget 0]

def littering (n : Nat) : List Request :=
  .push none :: (List.range n).flatMap fun i => selfHeld i ++ [.release (i + 1) .plain]

theorem littering_succ (n : Nat) :
    littering (n + 1) = littering n ++ (selfHeld n ++ [.release (n + 1) .plain]) := by
  simp [littering, List.range_succ]

variable {c : Session} {n : Nat}

structure Piled (c : Session) (n : Nat) : Prop where
  pile : c.arena.Pile (n % 64)
  next : c.arena.nextClosure = n
  length : c.slots.length = n + 1
  first : c.slotOf 0 = 0
  values : c.values = []

theorem Piled.run_selfHeld (h : c.Piled n) : (c.run .reclaiming (selfHeld n)).2 =
    { c with
      arena := c.arena.bindOwn
      slots := c.slots ++ [(c.arena.push (some 0)).1]
      running := c.slots.length :: c.running } := by
  have hnew (s : ScopeId) : (c.slots ++ [s])[n + 1]?.getD 0 = s := by simp [← h.length]
  have hfirst : c.slots[0]?.getD 0 = 0 := by simpa [slotOf] using h.first
  simp [selfHeld, run, step, reply, slotOf, hfirst, hnew, h.values, bindOwn, ownFn, h.next,
    Binding.rename, Value.rename, Closure.rename]

/-- One scope more is opened and closed. -/
theorem Piled.succ (h : c.Piled n) :
    (c.run .reclaiming (selfHeld n ++ [.release (n + 1) .plain])).2.Piled (n + 1) ∧
      c.leftBy 0 (selfHeld n ++ [.release (n + 1) .plain]) = 0 := by
  have hnew : (c.slots ++ [(c.arena.push (some 0)).1])[n + 1]?.getD 0 = (c.arena.push (some 0)).1 := by
    simp [← h.length]
  have hpile := h.pile.release_bindOwn (Nat.mod_lt n (by decide)) .plain
  rw [Nat.mod_add_mod] at hpile
  rw [leftBy_append, run_append, h.run_selfHeld]
  constructor
  · constructor
    · simpa [run, step, reply, Policy.reclaiming, slotOf, hnew, h.values] using hpile
    · simp [run, step, reply, Policy.reclaiming, nextClosure_releaseBy, bindOwn, define, makeClosure, h.next]
    · simp [run, step, reply, h.length]
    · have hpos : 0 < c.slots.length := by rw [h.length]; exact Nat.succ_pos n
      have hfirst := h.first
      rw [slotOf, List.getD_eq_getElem?_getD] at hfirst
      show (c.slots ++ [(c.arena.push (some 0)).1]).getD 0 0 = 0
      rw [List.getD_eq_getElem?_getD, List.getElem?_append_left hpos, hfirst]
    · exact h.values
  · -- A sweep leaves no closed scope, and without one there were none left before.
    have hnone : c.leftBy 0 (selfHeld n) = 0 := rfl
    have hleft : c.arena.bindOwn.sweeps [] (c.arena.push (some 0)).1 = true →
        (c.arena.bindOwn.releaseBy .plain [] (c.arena.push (some 0)).1).closedSlots.length = 0 := by
      intro hs
      have hlong := h.pile.sweeps_iff.1 hs
      rw [hpile.length_closedSlots]
      omega
    simpa [hnone, leftBy, leftAfter, sweeps, step, reply, Policy.reclaiming, slotOf, hnew, h.values]
      using hleft

theorem piled_littering (n : Nat) : (after (littering n)).Piled n ∧ leftBy {} 0 (littering n) = 0 := by
  induction n with
  | zero => exact ⟨⟨pile_first, rfl, rfl, rfl, rfl⟩, rfl⟩
  | succ n ih =>
    obtain ⟨hpiled, hleft⟩ := ih
    rw [littering_succ, after, run_append, leftBy_append, hleft]
    exact hpiled.succ

/-- However many scopes were closed that only hold themselves, those that are still there are the ones since
the last sweep, and a sweep comes after every 64. -/
theorem length_closedSlots_littering (n : Nat) :
    (after (littering n)).arena.closedSlots.length = n % 64 :=
  (piled_littering n).1.pile.length_closedSlots

/-- One scope fewer than allowed. -/
theorem retained_littering :
    (after (littering 127)).arena.closedSlots.length = 63 ∧ leftBy {} 0 (littering 127) = 0 ∧
      (after (littering 127)).arena.closedSlots.length < max 64 (2 * leftBy {} 0 (littering 127)) :=
  ⟨length_closedSlots_littering 127, (piled_littering 127).2, (retained_bounded (littering 127)).2.1⟩

end Session

end Sluice
