import Mathlib.Data.List.Induction
import Sluice.Proofs.Value.Lens

/-! Sets as finite sets. A set is built element by element, and an element goes in unless it equals one that
went in before. Since equality is an equivalence, what stays is the first of each class, and two sets are
equal if they were built of the same classes. -/
namespace Sluice.Value

variable {S : Value → Prop} {xs ys : List Value} {x : Value}

/-! ### The first of each class -/

/-- The elements that no earlier one equals, in their order. -/
def firsts (xs : List Value) : List Value :=
  (xs.zipIdx.filter fun (x, i) => !(xs.take i).any (beq · x)).map (·.1)

theorem firsts_concat (xs : List Value) (x : Value) :
    firsts (xs ++ [x]) = firsts xs ++ if xs.any (beq · x) then [] else [x] := by
  -- the elements before `x` have the same ones before them
  have hprefix : xs.zipIdx.filter (fun (y, i) => !((xs ++ [x]).take i).any (beq · y)) =
      xs.zipIdx.filter fun (y, i) => !(xs.take i).any (beq · y) := by
    refine List.filter_congr fun (y, i) hi => ?_
    dsimp only
    rw [List.take_append_of_le_length (List.snd_lt_of_mem_zipIdx hi).le]
  rw [firsts, List.zipIdx_append, List.filter_append, hprefix, List.map_append, firsts]
  cases h : xs.any (beq · x) <;> simp [List.filter, h]

theorem mem_of_mem_firsts (h : x ∈ firsts xs) : x ∈ xs := by
  obtain ⟨e, he, rfl⟩ := List.mem_map.1 h
  exact List.fst_mem_of_mem_zipIdx (List.mem_of_mem_filter he)

theorem pairwise_firsts (xs : List Value) : (firsts xs).Pairwise fun a b => beq a b = false := by
  induction xs using List.reverseRecOn with
  | nil => exact .nil
  | append_singleton xs x ih =>
    rw [firsts_concat]
    refine List.pairwise_append.2 ⟨ih, ?_, fun y hy z hz => ?_⟩
    · split
      · exact .nil
      · exact List.pairwise_singleton ..
    · split at hz
      · cases hz
      next hx =>
        rw [List.mem_singleton.1 hz]
        rw [List.any_eq_true] at hx
        exact Bool.eq_false_iff.2 fun h => hx ⟨y, mem_of_mem_firsts hy, h⟩

theorem firsts_eq_self (h : xs.Pairwise fun a b => beq a b = false) : firsts xs = xs := by
  induction xs using List.reverseRecOn with
  | nil => rfl
  | append_singleton xs x ih =>
    obtain ⟨hxs, -, hx⟩ := List.pairwise_append.1 h
    have hnone : xs.any (beq · x) = false :=
      List.any_eq_false.2 fun y hy => Bool.eq_false_iff.1 (hx y hy x List.mem_cons_self)
    rw [firsts_concat, ih hxs, hnone]
    rfl

/-- Each element equals one that stays. -/
theorem exists_mem_firsts (E : EquivOn S (beq · · = true)) (hxs : ∀ x ∈ xs, S x) :
    ∀ x ∈ xs, ∃ y ∈ firsts xs, beq y x = true := by
  induction xs using List.reverseRecOn with
  | nil => exact List.forall_mem_nil _
  | append_singleton xs x ih =>
    rw [List.forall_mem_append, List.forall_mem_singleton] at hxs ⊢
    rw [firsts_concat]
    refine ⟨fun w hw => ?_, ?_⟩
    · obtain ⟨y, hy, hyw⟩ := ih hxs.1 w hw
      exact ⟨y, List.mem_append_left _ hy, hyw⟩
    · by_cases hany : xs.any (beq · x) = true
      · obtain ⟨w, hw, hwx⟩ := List.any_eq_true.1 hany
        obtain ⟨y, hy, hyw⟩ := ih hxs.1 w hw
        have hyx := E.trans (hxs.1 y (mem_of_mem_firsts hy)) (hxs.1 w hw) hxs.2 hyw hwx
        exact ⟨y, List.mem_append_left _ hy, hyx⟩
      · rw [if_neg hany]
        exact ⟨x, List.mem_append_right _ List.mem_cons_self, E.refl hxs.2⟩

/-- What equals an element equals one that stays, so it is enough to look at those. -/
theorem any_firsts (E : EquivOn S (beq · · = true)) (hxs : ∀ x ∈ xs, S x) (hx : S x) :
    (firsts xs).any (beq · x) = xs.any (beq · x) := by
  rw [Bool.eq_iff_iff, List.any_eq_true, List.any_eq_true]
  constructor
  · rintro ⟨y, hy, hyx⟩
    exact ⟨y, mem_of_mem_firsts hy, hyx⟩
  · rintro ⟨w, hw, hwx⟩
    obtain ⟨y, hy, hyw⟩ := exists_mem_firsts E hxs w hw
    exact ⟨y, hy, E.trans (hxs y (mem_of_mem_firsts hy)) (hxs w hw) hx hyw hwx⟩

theorem setOf_eq (E : EquivOn S (beq · · = true)) (hxs : ∀ x ∈ xs, S x) : setOf xs = set (firsts xs) := by
  rw [setOf]
  congr 1
  induction xs using List.reverseRecOn with
  | nil => rfl
  | append_singleton xs x ih =>
    rw [List.forall_mem_append, List.forall_mem_singleton] at hxs
    rw [List.foldl_append, List.foldl_cons, List.foldl_nil, ih hxs.1, insertElem, mem_eq_any,
      any_firsts E hxs.1 hxs.2, firsts_concat]
    split <;> simp

/-! ### Equal sets -/

theorem forall_firsts_iff (E : EquivOn S (beq · · = true)) (hxs : ∀ x ∈ xs, S x) (hys : ∀ y ∈ ys, S y) :
    (∀ x ∈ firsts xs, ∃ y ∈ firsts ys, beq y x = true) ↔ ∀ x ∈ xs, ∃ y ∈ ys, beq x y = true := by
  constructor
  · intro h x hx
    obtain ⟨x', hx', hxx⟩ := exists_mem_firsts E hxs x hx
    obtain ⟨y, hy, hyx⟩ := h x' hx'
    have hy := mem_of_mem_firsts hy
    exact ⟨y, hy, E.symm (hys y hy) (hxs x hx)
      (E.trans (hys y hy) (hxs x' (mem_of_mem_firsts hx')) (hxs x hx) hyx hxx)⟩
  · intro h x hx
    have hx := mem_of_mem_firsts hx
    obtain ⟨y, hy, hxy⟩ := h x hx
    obtain ⟨y', hy', hyy⟩ := exists_mem_firsts E hys y hy
    exact ⟨y', hy', E.trans (hys y' (mem_of_mem_firsts hy')) (hys y hy) (hxs x hx) hyy
      (E.symm (hxs x hx) (hys y hy) hxy)⟩

/-- Sets are compared by size and one way; with no element twice that is as good as both ways. -/
theorem beq_set_firsts_iff (E : EquivOn S (beq · · = true)) (hxs : ∀ x ∈ xs, S x) (hys : ∀ y ∈ ys, S y) :
    beq (set (firsts xs)) (set (firsts ys)) = true ↔
      (∀ x ∈ xs, ∃ y ∈ ys, beq x y = true) ∧ ∀ y ∈ ys, ∃ x ∈ xs, beq y x = true := by
  have hxs' : ∀ x ∈ firsts xs, S x := fun x hx => hxs x (mem_of_mem_firsts hx)
  have hys' : ∀ y ∈ firsts ys, S y := fun y hy => hys y (mem_of_mem_firsts hy)
  have hdistinct : ∀ zs, (firsts zs).Pairwise fun a b => ¬ beq a b = true := fun zs =>
    (pairwise_firsts zs).imp (by simp)
  rw [beq_set_iff, ← forall_firsts_iff E hxs hys, ← forall_firsts_iff E hys hxs]
  constructor
  · intro h
    exact ⟨h.2, (E.covered_symm hxs' hys' (hdistinct xs) h).2⟩
  · rintro ⟨hxy, hyx⟩
    have hle := E.length_le hxs' hys' (hdistinct xs) hxy
    have hge := E.length_le hys' hxs' (hdistinct ys) hyx
    exact ⟨hle.antisymm hge, hxy⟩

/-- Sets are order-free. A set of well-formed elements without doubles holds the first of each class of
equal elements, in the order in which these first occur; built of its elements again it is the same. Two
sets are equal just if each element of one list equals an element of the other and conversely, so neither
the order of the elements nor their repetition makes a difference. -/
theorem setOf_order_free (xs ys : List Value) (hxs : ∀ x ∈ xs, Every children Exact x)
    (hys : ∀ y ∈ ys, Every children Exact y) :
    setOf xs = set (firsts xs) ∧ (∀ vs, setOf xs = set vs → setOf vs = setOf xs) ∧
      ((setOf xs == setOf ys) = true ↔
        (∀ x ∈ xs, ∃ y ∈ ys, (x == y) = true) ∧ ∀ y ∈ ys, ∃ x ∈ xs, (y == x) = true) ∧
      ((∀ v, v ∈ xs ↔ v ∈ ys) → (setOf xs == setOf ys) = true) := by
  have E := equivOn_exact
  have heq : (setOf xs == setOf ys) = true ↔
      (∀ x ∈ xs, ∃ y ∈ ys, (x == y) = true) ∧ ∀ y ∈ ys, ∃ x ∈ xs, (y == x) = true := by
    rw [setOf_eq E hxs, setOf_eq E hys]
    exact beq_set_firsts_iff E hxs hys
  refine ⟨setOf_eq E hxs, fun vs hvs => ?_, heq, fun hmem => ?_⟩
  · rw [setOf_eq E hxs] at hvs ⊢
    obtain rfl := Value.set.inj hvs
    have hfirsts : ∀ x ∈ firsts xs, Every children Exact x := fun x hx => hxs x (mem_of_mem_firsts hx)
    rw [setOf_eq E hfirsts, firsts_eq_self (pairwise_firsts xs)]
  · refine heq.2 ⟨fun x hx => ⟨x, (hmem x).1 hx, E.refl (hxs x hx)⟩, fun y hy => ?_⟩
    exact ⟨y, (hmem y).2 hy, E.refl (hys y hy)⟩

/-- `[{i, j}, {{i, j}: 3}]` -/
def nested (i j : Int64) : List Value := [set [int i, int j], map [(set [int i, int j], int 3)]]

theorem every_exact_nested {i j : Int64} (h : i ≠ j) : ∀ x ∈ nested i j, Every children Exact x := by
  have hmap : Every children Exact (map [(set [int i, int j], int 3)]) := by
    refine .mk (List.pairwise_singleton ..) ?_
    simpa [children] using ⟨every_exact_pair h, every_int trivial⟩
  simpa [nested] using ⟨every_exact_pair h, hmap⟩

theorem setOf_order_free_nested :
    setOf (nested 1 2 ++ nested 2 1) = set (nested 1 2) ∧
      (setOf (nested 1 2 ++ nested 2 1) == setOf (nested 2 1).reverse) = true := by
  have h12 := every_exact_nested (show (1 : Int64) ≠ 2 by decide)
  have h21 := every_exact_nested (show (2 : Int64) ≠ 1 by decide)
  obtain ⟨hfirsts, -, heq, -⟩ := setOf_order_free (nested 1 2 ++ nested 2 1) (nested 2 1).reverse
    (List.forall_mem_append.2 ⟨h12, h21⟩) fun y hy => h21 y (List.mem_reverse.1 hy)
  have hlikes : ((nested 1 2 ++ nested 2 1).all fun x => (nested 2 1).reverse.any (x == ·)) = true := by cbv
  have hlikes' : ((nested 2 1).reverse.all fun y => (nested 1 2 ++ nested 2 1).any (y == ·)) = true := by cbv
  simp only [List.all_eq_true, List.any_eq_true] at hlikes hlikes'
  exact ⟨hfirsts.trans (by cbv), heq.2 ⟨hlikes, hlikes'⟩⟩

end Sluice.Value
