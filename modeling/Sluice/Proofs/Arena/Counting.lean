import Mathlib.Data.Finset.Card
import Mathlib.Data.List.Nodup
import Mathlib.Data.List.Perm.Lattice
import Sluice.Scope.Arena

/-! Marks and counts, as a sweep uses them. The main statement is about a list of references to
functions that is split in two: fewer functions are met in the first part alone than in all, for a
given scope, exactly when the second part refers to a function of that scope. -/
namespace Sluice

/-! ### Marks -/

namespace Marks

@[simp] theorem size_add (m : Marks) (s : ScopeId) : (m.add s).size = m.size := by simp [add]

theorem has_add (m : Marks) (s t : ScopeId) :
    (m.add s).has t = true ↔ m.has t = true ∨ t = s ∧ s < m.size := by
  by_cases h : s = t
  · subst h
    by_cases hs : s < m.size
    · simp [has, add, hs]
    · simp [has, add, hs]
  · simp [has, add, h, Ne.symm h]

theorem has_replicate (n : Nat) (s : ScopeId) : has (Array.replicate n false) s = false := by
  by_cases h : s < n <;> simp [has, h]

theorem lt_size_of_has {m : Marks} {s : ScopeId} (h : m.has s = true) : s < m.size := by
  by_contra hs
  simp [has, Array.getElem?_eq_none (Nat.le_of_not_lt hs)] at h

@[simp] theorem size_addAll (m : Marks) (ss : List ScopeId) : (m.addAll ss).size = m.size := by
  induction ss generalizing m with
  | nil => rfl
  | cons s ss ih => exact (ih (m.add s)).trans (m.size_add s)

theorem has_addAll (m : Marks) (ss : List ScopeId) (t : ScopeId) :
    (m.addAll ss).has t = true ↔ m.has t = true ∨ t ∈ ss ∧ t < m.size := by
  induction ss generalizing m with
  | nil => simp [addAll]
  | cons s ss ih =>
    have hs : (m.addAll (s :: ss)).has t = ((m.add s).addAll ss).has t := rfl
    rw [hs, ih, size_add, has_add, List.mem_cons]
    constructor
    · rintro ((h | ⟨rfl, h⟩) | ⟨hm, h⟩)
      · exact .inl h
      · exact .inr ⟨.inl rfl, h⟩
      · exact .inr ⟨.inr hm, h⟩
    · rintro (h | ⟨rfl | hm, h⟩)
      · exact .inl (.inl h)
      · exact .inl (.inr ⟨rfl, h⟩)
      · exact .inr ⟨hm, h⟩

end Marks

/-! ### Counts -/

namespace Tally

private theorem times_modify (t : Tally) (i j : Nat) :
    times (t.modify j (· + 1)) i = t.times i + if j = i ∧ i < t.size then 1 else 0 := by
  rw [times, Array.getElem?_modify]
  by_cases hj : j = i
  · by_cases h : i < t.size <;> simp [times, hj, h]
  · simp [times, hj]

private theorem times_foldl (t : Tally) (is : List Nat) (i : Nat) (h : i < t.size) :
    times (is.foldl (fun t i => t.modify i (· + 1)) t) i = t.times i + is.count i := by
  induction is generalizing t with
  | nil => simp
  | cons j is ih =>
    rw [List.foldl_cons, ih _ (by simpa using h), times_modify, List.count_cons]
    by_cases hj : j = i
    · simp [hj, h]
      omega
    · simp [hj]

private theorem size_foldl (t : Tally) (is : List Nat) :
    (is.foldl (fun t i => t.modify i (· + 1)) t).size = t.size := by
  induction is generalizing t with
  | nil => rfl
  | cons j is ih => rw [List.foldl_cons, ih, Array.size_modify]

theorem times_ofList (n : Nat) (is : List Nat) (i : Nat) :
    (ofList n is).times i = if i < n then is.count i else 0 := by
  by_cases h : i < n
  · rw [ofList, times_foldl _ _ _ (by simpa using h)]
    simp [times, h]
  · have hsize := size_foldl (Array.replicate n 0) is
    rw [Array.size_replicate] at hsize
    simp [ofList, times, h, Array.getElem?_eq_none (hsize.trans_le (Nat.le_of_not_lt h))]

end Tally

/-! ### Functions, each of them once -/

namespace Closure

private structure Found (n : Nat) (cs : List Closure) (seen : Marks) (found : List Closure) : Prop where
  size : seen.size = n
  subset : ∀ c ∈ found, c ∈ cs
  nodup : (found.map (·.id)).Nodup
  seen_iff : ∀ i < n, seen.has i = true ↔ i ∈ found.map (·.id)
  all : ∀ c ∈ cs, c.id ∈ found.map (·.id)

private theorem found_foldl {n : Nat} (cs done : List Closure) (seen : Marks)
    (found : List Closure) (hn : ∀ c ∈ cs, c.id < n) (h : Found n done seen found) :
    ∃ seen', Found n (done ++ cs) seen' (cs.foldl (fun (seen, found) c =>
      if Marks.has seen c.id then (seen, found) else (Marks.add seen c.id, c :: found))
      (seen, found)).2 := by
  induction cs generalizing done seen found with
  | nil => exact ⟨seen, by simpa using h⟩
  | cons c cs ih =>
    have hc : c.id < n := hn c List.mem_cons_self
    have hcs : ∀ d ∈ cs, d.id < n := fun d hd => hn d (List.mem_cons_of_mem _ hd)
    have hsplit : done ++ c :: cs = (done ++ [c]) ++ cs := by simp
    rw [List.foldl_cons, hsplit]
    by_cases hm : Marks.has seen c.id = true
    · simp only [hm, if_true]
      refine ih _ _ _ hcs ⟨h.size, fun d hd => ?_, h.nodup, h.seen_iff, fun d hd => ?_⟩
      · exact List.mem_append_left _ (h.subset d hd)
      · rcases List.mem_append.1 hd with hd | hd
        · exact h.all d hd
        · rw [List.mem_singleton.1 hd]
          exact (h.seen_iff _ hc).1 hm
    · simp only [hm]
      refine ih _ _ _ hcs ⟨by simpa using h.size, fun d hd => ?_, ?_, fun i hi => ?_, fun d hd => ?_⟩
      · rcases List.mem_cons.1 hd with rfl | hd
        · simp
        · exact List.mem_append_left _ (h.subset d hd)
      · rw [List.map_cons, List.nodup_cons]
        exact ⟨fun hmem => hm ((h.seen_iff _ hc).2 hmem), h.nodup⟩
      · rw [Marks.has_add, h.seen_iff i hi, List.map_cons, List.mem_cons, h.size]
        constructor
        · rintro (hi | ⟨rfl, -⟩)
          · exact .inr hi
          · exact .inl rfl
        · rintro (rfl | hi)
          · exact .inr ⟨rfl, hc⟩
          · exact .inl hi
      · rw [List.map_cons, List.mem_cons]
        rcases List.mem_append.1 hd with hd | hd
        · exact .inr (h.all d hd)
        · exact .inl (by rw [List.mem_singleton.1 hd])

variable {n : Nat} {cs : List Closure}

private theorem found_distinct (hn : ∀ c ∈ cs, c.id < n) :
    ∃ seen, Found n cs seen (distinct n cs) := by
  have h : Found n [] (Array.replicate n false) [] :=
    ⟨by simp, by simp, by simp, fun i _ => by simp [Marks.has_replicate], by simp⟩
  simpa [distinct] using found_foldl cs [] _ _ hn h

theorem mem_of_mem_distinct (hn : ∀ c ∈ cs, c.id < n) {c : Closure} (h : c ∈ distinct n cs) :
    c ∈ cs := by
  obtain ⟨_, hf⟩ := found_distinct hn
  exact hf.subset c h

theorem nodup_distinct (hn : ∀ c ∈ cs, c.id < n) : ((distinct n cs).map (·.id)).Nodup := by
  obtain ⟨_, hf⟩ := found_distinct hn
  exact hf.nodup

theorem exists_mem_distinct (hn : ∀ c ∈ cs, c.id < n) {c : Closure} (h : c ∈ cs) :
    ∃ d ∈ distinct n cs, d.id = c.id := by
  obtain ⟨_, hf⟩ := found_distinct hn
  simpa using hf.all c h

def madeIn (cs : List Closure) (s : ScopeId) : Finset Nat :=
  ((cs.filter (·.scope = s)).map (·.id)).toFinset

theorem mem_madeIn {s : ScopeId} {i : Nat} : i ∈ madeIn cs s ↔ ∃ c ∈ cs, c.scope = s ∧ c.id = i := by
  simp [madeIn, and_assoc]

theorem count_scope_eq_card (h : (cs.map (·.id)).Nodup) (s : ScopeId) :
    (cs.map (·.scope)).count s = (madeIn cs s).card := by
  have hnd : ((cs.filter (·.scope = s)).map (·.id)).Nodup := h.sublist (List.filter_sublist.map _)
  rw [madeIn, List.toFinset_card_of_nodup hnd, List.length_map, List.count, List.countP_map,
    List.countP_eq_length_filter]
  rfl

/-- Equal `id`s are those of functions made in one scope. -/
def Agree (cs : List Closure) : Prop := ∀ c ∈ cs, ∀ d ∈ cs, c.id = d.id → c.scope = d.scope

theorem madeIn_distinct (hn : ∀ c ∈ cs, c.id < n) (hid : Agree cs) (s : ScopeId) :
    madeIn (distinct n cs) s = madeIn cs s := by
  ext i
  simp only [mem_madeIn]
  constructor
  · rintro ⟨c, hc, hcs⟩
    exact ⟨c, mem_of_mem_distinct hn hc, hcs⟩
  · rintro ⟨c, hc, rfl, rfl⟩
    obtain ⟨d, hd, hdc⟩ := exists_mem_distinct hn hc
    exact ⟨d, hd, hid d (mem_of_mem_distinct hn hd) c hc hdc, hdc⟩

/-- The functions of `inner` to which nothing but `inner` refers. -/
def onlyIn (n : Nat) (inner refs : List Closure) : List Closure :=
  (distinct n inner).filter fun c =>
    (inner.map (·.id)).count c.id = (refs.map (·.id)).count c.id

variable {inner rest refs : List Closure}

private theorem count_eq_iff (hperm : refs.Perm (inner ++ rest)) (i : Nat) :
    (inner.map (·.id)).count i = (refs.map (·.id)).count i ↔ i ∉ rest.map (·.id) := by
  rw [(hperm.map _).count_eq, List.map_append, List.count_append, ← List.count_eq_zero]
  omega

private theorem madeIn_onlyIn (hperm : refs.Perm (inner ++ rest)) (hn : ∀ c ∈ refs, c.id < n)
    (hid : Agree refs) (s : ScopeId) :
    madeIn (onlyIn n inner refs) s = (madeIn refs s).filter (· ∉ rest.map (·.id)) := by
  have hsub : ∀ c ∈ inner, c ∈ refs := fun c hc => hperm.mem_iff.2 (List.mem_append_left _ hc)
  have hin : ∀ c ∈ inner, c.id < n := fun c hc => hn c (hsub c hc)
  ext i
  rw [Finset.mem_filter, mem_madeIn, mem_madeIn]
  constructor
  · rintro ⟨c, hc, hcs, rfl⟩
    obtain ⟨hc, hcount⟩ := List.mem_filter.1 hc
    rw [decide_eq_true_eq, count_eq_iff hperm] at hcount
    exact ⟨⟨c, hsub c (mem_of_mem_distinct hin hc), hcs, rfl⟩, hcount⟩
  · rintro ⟨⟨c, hc, rfl, rfl⟩, hrest⟩
    have hcin : c ∈ inner := by
      rcases List.mem_append.1 (hperm.mem_iff.1 hc) with h | h
      · exact h
      · exact absurd (List.mem_map_of_mem h) hrest
    obtain ⟨d, hd, hdc⟩ := exists_mem_distinct hin hcin
    have hdref := hsub d (mem_of_mem_distinct hin hd)
    refine ⟨d, List.mem_filter.2 ⟨hd, ?_⟩, hid d hdref c hc hdc, hdc⟩
    rw [decide_eq_true_eq, count_eq_iff hperm, hdc]
    exact hrest

private theorem count_distinct (hn : ∀ c ∈ refs, c.id < n) (hid : Agree refs) (s : ScopeId) :
    ((distinct n refs).map (·.scope)).count s = (madeIn refs s).card := by
  rw [count_scope_eq_card (nodup_distinct hn), madeIn_distinct hn hid]

private theorem count_onlyIn (hperm : refs.Perm (inner ++ rest)) (hn : ∀ c ∈ refs, c.id < n)
    (hid : Agree refs) (s : ScopeId) : ((onlyIn n inner refs).map (·.scope)).count s =
      ((madeIn refs s).filter (· ∉ rest.map (·.id))).card := by
  have hin : ∀ c ∈ inner, c.id < n := fun c hc => hn c (hperm.mem_iff.2 (List.mem_append_left _ hc))
  have hnd : ((onlyIn n inner refs).map (·.id)).Nodup :=
    (nodup_distinct hin).sublist (List.filter_sublist.map _)
  rw [count_scope_eq_card hnd, madeIn_onlyIn hperm hn hid]

theorem count_onlyIn_le (hperm : refs.Perm (inner ++ rest)) (hn : ∀ c ∈ refs, c.id < n)
    (hid : Agree refs) (s : ScopeId) :
    ((onlyIn n inner refs).map (·.scope)).count s ≤ ((distinct n refs).map (·.scope)).count s := by
  rw [count_onlyIn hperm hn hid, count_distinct hn hid]
  exact Finset.card_filter_le _ _

/-- Trial deletion: there are fewer functions of a scope to which only `inner` refers than there
are in all, exactly when the rest refers to one. -/
theorem count_onlyIn_lt_iff (hperm : refs.Perm (inner ++ rest)) (hn : ∀ c ∈ refs, c.id < n)
    (hid : Agree refs) (s : ScopeId) :
    ((onlyIn n inner refs).map (·.scope)).count s < ((distinct n refs).map (·.scope)).count s ↔
      ∃ c ∈ rest, c.scope = s := by
  have hrest : ∀ c ∈ rest, c ∈ refs := fun c hc => hperm.mem_iff.2 (List.mem_append_right _ hc)
  rw [count_onlyIn hperm hn hid, count_distinct hn hid, (Finset.card_filter_le _ _).lt_iff_ne, Ne,
    Finset.card_filter_eq_iff]
  constructor
  · intro hall
    by_contra hno
    refine hall fun i hi hmem => hno ?_
    obtain ⟨c, hc, hcs, rfl⟩ := mem_madeIn.1 hi
    obtain ⟨d, hd, hdc⟩ := List.mem_map.1 hmem
    exact ⟨d, hd, (hid d (hrest d hd) c hc hdc).trans hcs⟩
  · rintro ⟨c, hc, rfl⟩ hall
    exact hall c.id (mem_madeIn.2 ⟨c, hrest c hc, rfl, rfl⟩) (List.mem_map_of_mem hc)

end Closure

end Sluice
