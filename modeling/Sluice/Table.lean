/-! Tables: finite maps as lists of entries, at most one for a key when built by `insert`. -/
namespace Sluice

abbrev Table (κ : Type) (α : Type u) := List (κ × α)

namespace Table

variable {κ : Type} {α : Type u} [DecidableEq κ]

/-- The value of the first entry for `k`. -/
def get? : Table κ α → κ → Option α
  | [], _ => none
  | (k', a) :: t, k => if k' = k then some a else get? t k

def contains (t : Table κ α) (k : κ) : Bool := (t.get? k).isSome

/-- Put `a` in place of the value of `k`, or at the end if there is none. -/
def insert : Table κ α → κ → α → Table κ α
  | [], k, a => [(k, a)]
  | (k', b) :: t, k, a => if k' = k then (k, a) :: t else (k', b) :: insert t k a

/-- Drop every entry for `k`. -/
def erase (t : Table κ α) (k : κ) : Table κ α := t.filter fun e => e.1 ≠ k

attribute [local simp] get? insert

@[simp] theorem get?_nil (k : κ) : get? ([] : Table κ α) k = none := rfl

@[simp] theorem get?_insert_self (t : Table κ α) (k : κ) (a : α) :
    (t.insert k a).get? k = some a := by
  induction t with
  | nil => simp
  | cons e t ih =>
    obtain ⟨k', b⟩ := e
    by_cases h : k' = k <;> simp [h, ih]

theorem get?_insert_of_ne (t : Table κ α) {k k' : κ} (a : α) (h : k' ≠ k) :
    (t.insert k a).get? k' = t.get? k' := by
  induction t with
  | nil => simp [h.symm]
  | cons e t ih =>
    obtain ⟨j, b⟩ := e
    by_cases hj : j = k
    · subst hj; simp [h.symm]
    · by_cases hk : j = k' <;> simp [hj, hk, ih, h]

theorem mem_of_get?_eq_some {t : Table κ α} {k : κ} {a : α} (h : t.get? k = some a) :
    (k, a) ∈ t := by
  induction t with
  | nil => simp at h
  | cons e t ih =>
    obtain ⟨j, b⟩ := e
    by_cases hj : j = k
    · subst hj
      rw [get?, if_pos rfl, Option.some.injEq] at h
      simp [h]
    · rw [get?, if_neg hj] at h
      exact List.mem_cons_of_mem _ (ih h)

theorem mem_insert {t : Table κ α} {k : κ} {a : α} {e : κ × α} (h : e ∈ t.insert k a) :
    e = (k, a) ∨ e ∈ t := by
  induction t with
  | nil => exact .inl (by simpa using h)
  | cons e' t ih =>
    obtain ⟨j, b⟩ := e'
    by_cases hj : j = k
    · rw [insert, if_pos hj, List.mem_cons] at h
      exact h.imp_right (List.mem_cons_of_mem _)
    · rw [insert, if_neg hj, List.mem_cons] at h
      rcases h with rfl | h
      · exact .inr List.mem_cons_self
      · exact (ih h).imp_right (List.mem_cons_of_mem _)

theorem get?_map {β : Type v} (t : Table κ α) (f : α → β) (k : κ) :
    get? (t.map fun e => (e.1, f e.2)) k = (t.get? k).map f := by
  induction t with
  | nil => rfl
  | cons e t ih =>
    obtain ⟨j, b⟩ := e
    by_cases hj : j = k
    · simp [hj]
    · simpa [hj] using ih

theorem insert_map {β : Type v} (t : Table κ α) (f : α → β) (k : κ) (a : α) :
    insert (t.map fun e => (e.1, f e.2)) k (f a) = (t.insert k a).map fun e => (e.1, f e.2) := by
  induction t with
  | nil => rfl
  | cons e t ih =>
    obtain ⟨j, b⟩ := e
    by_cases hj : j = k
    · simp [hj]
    · simpa [hj] using ih

end Table

end Sluice
