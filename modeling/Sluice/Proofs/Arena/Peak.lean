import Mathlib.Order.Bounds.Defs
import Sluice.Proofs.Arena.Chain
import Sluice.Proofs.Arena.Opening
import Sluice.Proofs.Arena.Session

/-! How many slots there are. A slot is in use or on the free list, and a new one is made only when all are
in use, so there are as many as ever were in use at one time. -/
namespace Sluice

namespace Arena

variable {a b : Arena} {outside : List Value} {s : ScopeId}

/-- The slots of `b` are as many as those of `a`, or all of them are in use. -/
structure Resizes (a b : Arena) : Prop where
  free : b.FreeExact
  size_le : a.slots.size ≤ b.slots.size
  size_eq : b.slots.size = a.slots.size ∨ b.slots.size = b.live

theorem FreeExact.resizes (h : b.FreeExact) (hsize : b.slots.size = a.slots.size) : Resizes a b :=
  ⟨h, Nat.le_of_eq hsize.symm, .inl hsize⟩

theorem FreeExact.resizes_push (h : a.FreeExact) (parent : Option ScopeId) :
    Resizes a (a.push parent).2 := by
  have hfree := (h.push parent).2.2.2
  have hsize := size_push a parent
  cases hnil : a.free with
  | nil =>
    refine ⟨hfree, size_le_push a parent, .inr ?_⟩
    rw [hfree.size_eq, free_push, hnil]
    rfl
  | cons s rest =>
    rw [if_neg (by simp [hnil])] at hsize
    exact hfree.resizes hsize

/-- Closing a scope makes no slot and takes none away. -/
theorem size_releaseBy (a : Arena) (o : SweepOrder) (outside : List Value) (s : ScopeId) :
    (a.releaseBy o outside s).slots.size = a.slots.size := by
  cases hs : a.scope? s with
  | none => rw [releaseBy, hs]
  | some sc =>
    obtain ⟨gone, -, hf⟩ := frees_closed_releaseBy a o outside hs
    exact hf.size.trans (size_modify a s _)

/-- A push takes a slot that was empty or a new one, and every scope stays in its slot. -/
theorem FreeExact.push_vacant (h : a.FreeExact) (parent : Option ScopeId) :
    a.scope? (a.push parent).1 = none ∧ ∀ s sc, a.scope? s = some sc →
      ∃ n, (a.push parent).2.scope? s = some { sc with children := n } :=
  ⟨(h.push parent).1, fun _ _ hs => ⟨_, h.scope?_push_of_some parent hs⟩⟩

end Arena

namespace Session

open Arena

variable {c : Session}

/-- What one request does to the slots, proper or not. -/
theorem resizes_step (h : c.arena.FreeExact) (r : Request) :
    Resizes c.arena (c.step .reclaiming r).2.arena := by
  cases r with
  | push parent => exact h.resizes_push _
  | hold s => exact (h.modify _ _).resizes (size_modify ..)
  | unhold i =>
    show Resizes c.arena (c.unheld i)
    rcases c.unheld_eq i with heq | ⟨s, heq⟩ <;> rw [heq]
    · exact h.resizes rfl
    · exact (h.modify _ _).resizes (size_modify ..)
  | makeFn s name params body => exact (h.makeClosure _ name params body).resizes (size_modify ..)
  | define s name b => exact (h.modify _ _).resizes (size_modify ..)
  | assign s name v =>
    simp only [step, reply]
    split
    next b hassign =>
      obtain ⟨owner, old, -, rfl⟩ := assign_eq_ok hassign
      exact (h.modify _ _).resizes (size_modify ..)
    next => exact h.resizes rfl
  | release s o => exact (h.releaseBy o c.values _).resizes (size_releaseBy ..)
  | sweep o =>
    have hf := frees_sweepBy c.arena o c.values
    exact (hf.free h).resizes hf.size
  | keep v => exact h.resizes rfl
  | forget i => exact h.resizes rfl
  | lookup s name => exact h.resizes rfl
  | ownBinding s name => exact h.resizes rfl
  | find s name => exact h.resizes rfl
  | exports s => exact h.resizes rfl

theorem freeExact_run (h : c.arena.FreeExact) (script : List Request) :
    (c.run .reclaiming script).2.arena.FreeExact := by
  induction script generalizing c with
  | nil => exact h
  | cons r script ih => exact ih (resizes_step h r).free

theorem size_le_run (h : c.arena.FreeExact) (script : List Request) :
    c.arena.slots.size ≤ (c.run .reclaiming script).2.arena.slots.size := by
  induction script generalizing c with
  | nil => exact Nat.le_refl _
  | cons r script ih =>
    have hstep := resizes_step h r
    exact hstep.size_le.trans (ih hstep.free)

/-- At no time are more slots in use than there are at the end. -/
theorem live_le_run (h : c.arena.FreeExact) (script : List Request) (n : Nat) :
    (c.run .reclaiming (script.take n)).2.arena.live ≤ (c.run .reclaiming script).2.arena.slots.size := by
  have hn := freeExact_run h (script.take n)
  have hrest := size_le_run hn (script.drop n)
  rw [← run_append, List.take_append_drop] at hrest
  calc (c.run .reclaiming (script.take n)).2.arena.live
      ≤ (c.run .reclaiming (script.take n)).2.arena.slots.size := by
        rw [hn.size_eq]
        exact Nat.le_add_right _ _
    _ ≤ (c.run .reclaiming script).2.arena.slots.size := hrest

/-- Unless there are as many slots as at first, there was a time when all that there are at the end were in
use. -/
theorem size_run (h : c.arena.FreeExact) (script : List Request) :
    (c.run .reclaiming script).2.arena.slots.size = c.arena.slots.size ∨
      ∃ n, (c.run .reclaiming (script.take n)).2.arena.live =
        (c.run .reclaiming script).2.arena.slots.size := by
  induction script generalizing c with
  | nil => exact .inl rfl
  | cons r script ih =>
    have hstep := resizes_step h r
    rcases ih hstep.free with hsize | ⟨n, hn⟩
    · rcases hstep.size_eq with hsame | hlive
      · exact .inl (hsize.trans hsame)
      · exact .inr ⟨1, (hsize.trans hlive).symm⟩
    · exact .inr ⟨n + 1, hn⟩

/-- The free list is exact. After every script, whether its requests were proper or not, each empty slot is
on the list once and nothing else is, so that a slot is in use or on the list; a push takes an empty slot or a
new one and leaves every scope in its slot; and there are as many slots as were in use at some time during the
script, and never were there more in use. -/
theorem free_list_exact (script : List Request) :
    (after script).arena.free.Nodup ∧
      (∀ s, s ∈ (after script).arena.free ↔
        s < (after script).arena.slots.size ∧ (after script).arena.scope? s = none) ∧
      (after script).arena.slots.size = (after script).arena.live + (after script).arena.free.length ∧
      (∀ parent, (after script).arena.scope? ((after script).arena.push parent).1 = none ∧
        ∀ s sc, (after script).arena.scope? s = some sc →
          ∃ n, ((after script).arena.push parent).2.scope? s = some { sc with children := n }) ∧
      IsGreatest (Set.range fun n => (after (script.take n)).arena.live)
        (after script).arena.slots.size := by
  have hempty : Arena.FreeExact ({} : Session).arena := freeExact_empty
  have hfree : (after script).arena.FreeExact := freeExact_run hempty script
  refine ⟨hfree.nodup, hfree.mem_iff, hfree.size_eq, hfree.push_vacant, ?_, ?_⟩
  · rcases size_run hempty script with hsize | hlive
    · exact ⟨0, hsize.symm⟩
    · exact hlive
  · rintro - ⟨n, rfl⟩
    exact live_le_run hempty script n

end Session

end Sluice
