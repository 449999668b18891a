import Sluice.Proofs.Value.Sets

/-! Maps as finite functions. A map is built entry by entry: an entry goes in place of the one whose key equals
its own, or to the end. Since equality is an equivalence, a key finds what was put last under a key equal to
it, the keys are the first of each class, and maps are equal if they send the same keys to equal values. -/
namespace Sluice.Value

variable {S : Value → Prop} {es fs puts : List (Value × Value)} {k v : Value}

/-! ### What was put in -/

def entriesOf (puts : List (Value × Value)) : List (Value × Value) :=
  puts.foldl (fun es e => putEntry es e.1 e.2) []

/-- The value that was put in last under a key equal to the given one. -/
def lastPut? (puts : List (Value × Value)) (k : Value) : Option Value :=
  (puts.reverse.find? (·.1 == k)).map (·.2)

theorem entriesOf_concat (puts : List (Value × Value)) (e : Value × Value) :
    entriesOf (puts ++ [e]) = putEntry (entriesOf puts) e.1 e.2 := List.foldl_concat ..

theorem lastPut?_concat (puts : List (Value × Value)) (e : Value × Value) (k : Value) :
    lastPut? (puts ++ [e]) k = if beq e.1 k then some e.2 else lastPut? puts k := by
  rw [lastPut?, List.reverse_concat]
  by_cases hek : beq e.1 k = true
  · rw [List.find?_cons_of_pos (by exact hek), if_pos hek]
    rfl
  · rw [List.find?_cons_of_neg (by exact hek), if_neg hek]
    rfl

theorem forall_keys_entriesOf (h : ∀ e ∈ puts, S e.1) : ∀ e ∈ entriesOf puts, S e.1 := by
  induction puts using List.reverseRecOn with
  | nil => exact List.forall_mem_nil _
  | append_singleton puts e ih =>
    rw [List.forall_mem_append, List.forall_mem_singleton] at h
    rw [entriesOf_concat]
    exact forall_keys_putEntry (ih h.1) h.2

theorem exact_entriesOf (hputs : ∀ e ∈ puts, Every children Exact e.1 ∧ Every children Exact e.2) :
    Every children Exact (map (entriesOf puts)) := by
  induction puts using List.reverseRecOn with
  | nil => exact .mk .nil (List.forall_mem_nil _)
  | append_singleton puts e ih =>
    rw [List.forall_mem_append, List.forall_mem_singleton] at hputs
    rw [entriesOf_concat]
    exact every_putEntry (ih hputs.1) hputs.2.1 hputs.2.2 (pairwise_putEntry (ih hputs.1).self _ _)

theorem valueAt?_entriesOf (E : EquivOn S (beq · · = true)) (hputs : ∀ e ∈ puts, S e.1) (hk : S k) :
    valueAt? (entriesOf puts) k = lastPut? puts k := by
  induction puts using List.reverseRecOn with
  | nil => rfl
  | append_singleton puts e ih =>
    rw [List.forall_mem_append, List.forall_mem_singleton] at hputs
    have hkeys := forall_keys_entriesOf hputs.1
    rw [entriesOf_concat, lastPut?_concat]
    split
    next hek =>
      rw [← valueAt?_congr E (forall_keys_putEntry hkeys hputs.2) hputs.2 hk hek]
      exact valueAt?_putEntry_self (E.refl hputs.2) _ _
    next hek =>
      rw [valueAt?_putEntry_of_ne E hkeys hputs.2 hk hek, ih hputs.1]

theorem map_fst_putEntry (es : List (Value × Value)) (k v : Value) :
    (putEntry es k v).map (·.1) = insertElem (es.map (·.1)) k := by
  rw [insertElem, mem_eq_any]
  induction es with
  | nil => rfl
  | cons e es ih =>
    rw [putEntry, List.map_cons, List.any_cons]
    cases beq e.1 k with
    | true => rfl
    | false =>
      simp only [Bool.false_eq_true, if_false, Bool.false_or, List.map_cons, ih]
      split <;> rfl

/-- The keys stand in the order of their first use: they are put in as the elements of a set are. -/
theorem map_fst_entriesOf (E : EquivOn S (beq · · = true)) (hputs : ∀ e ∈ puts, S e.1) :
    (entriesOf puts).map (·.1) = firsts (puts.map (·.1)) := by
  have hset : set ((entriesOf puts).map (·.1)) = setOf (puts.map (·.1)) := by
    rw [setOf, List.foldl_map, entriesOf]
    exact congrArg set (List.foldl_hom (List.map (·.1)) fun es e => (map_fst_putEntry es e.1 e.2).symm).symm
  rw [setOf_eq E (List.forall_mem_map.2 hputs)] at hset
  exact Value.set.inj hset

/-! ### Equal maps -/

theorem exists_value_of_beq (E : EquivOn S (beq · · = true)) (hes : ∀ e ∈ es, S e.1) (hfs : ∀ e ∈ fs, S e.1)
    (hk : S k) (h : beq (map es) (map fs) = true) (hv : valueAt? es k = some v) :
    ∃ w, valueAt? fs k = some w ∧ beq w v = true := by
  rw [beq, Bool.and_eq_true, submap_iff] at h
  obtain ⟨e, he, hek, rfl⟩ := entry_of_valueAt? hv
  obtain ⟨w, hw, hwv⟩ := h.2 e he
  exact ⟨w, (valueAt?_congr E hfs (hes e he) hk hek).symm.trans hw, hwv⟩

def Agree (es fs : List (Value × Value)) : Prop :=
  ∀ k, Every children Exact k → Option.Rel (fun v w => (v == w) = true) (valueAt? es k) (valueAt? fs k)

theorem Agree.exists_value (h : Agree es fs) (hk : Every children Exact k) (hv : valueAt? es k = some v) :
    ∃ w, valueAt? fs k = some w ∧ beq v w = true := by
  have hrel := h k hk
  rw [hv] at hrel
  generalize valueAt? fs k = found at hrel
  cases hrel with
  | some hvw => exact ⟨_, rfl, hvw⟩

section Wellformed

variable (hes : Every children Exact (map es)) (hfs : Every children Exact (map fs))

include hes in
theorem exact_of_valueAt? (hv : valueAt? es k = some v) : Every children Exact v := by
  obtain ⟨e, he, -, rfl⟩ := entry_of_valueAt? hv
  exact hes.part (mem_children_map he).2

include hes in
theorem forall_keys_exact : ∀ e ∈ es, Every children Exact e.1 :=
  fun _ he => hes.part (mem_children_map he).1

include hes hfs

theorem Agree.symm (h : Agree es fs) : Agree fs es := by
  intro k hk
  have hrel := h k hk
  cases hv : valueAt? es k <;> cases hw : valueAt? fs k <;> rw [hv, hw] at hrel <;> cases hrel
  case none.none => exact .none
  case some.some hvw =>
    exact .some (equivOn_exact.symm (exact_of_valueAt? hes hv) (exact_of_valueAt? hfs hw) hvw)

theorem Agree.of_beq (h : beq (map es) (map fs) = true) : Agree es fs := by
  have E := equivOn_exact
  have hback := E.symm hes hfs h
  intro k hk
  cases hv : valueAt? es k with
  | some v =>
    obtain ⟨w, hw, hwv⟩ := exists_value_of_beq E (forall_keys_exact hes) (forall_keys_exact hfs) hk h hv
    rw [hw]
    exact .some (E.symm (exact_of_valueAt? hfs hw) (exact_of_valueAt? hes hv) hwv)
  | none =>
    cases hw : valueAt? fs k with
    | none => exact .none
    | some w =>
      obtain ⟨v, hv', -⟩ :=
        exists_value_of_beq E (forall_keys_exact hfs) (forall_keys_exact hes) hk hback hw
      cases hv.symm.trans hv'

/-- The keys are all different, and each has a like of its own in the other map. -/
theorem Agree.length_le (h : Agree es fs) : es.length ≤ fs.length := by
  have E := equivOn_exact
  have hcover : ∀ x ∈ es.map (·.1), ∃ y ∈ fs.map (·.1), beq y x = true := by
    refine List.forall_mem_map.2 fun e he => ?_
    have hfound := valueAt?_of_entry E (forall_keys_exact hes) (forall_keys_exact hes e he) hes.self he
      (E.refl (forall_keys_exact hes e he))
    obtain ⟨w, hw, -⟩ := h.exists_value (forall_keys_exact hes e he) hfound
    obtain ⟨f, hf, hfe, -⟩ := entry_of_valueAt? hw
    exact ⟨f.1, List.mem_map_of_mem hf, hfe⟩
  have hdistinct : (es.map (·.1)).Pairwise fun a b => ¬ beq a b = true :=
    List.pairwise_map.2 (List.Pairwise.imp (by simp) hes.self)
  simpa using E.length_le (List.forall_mem_map.2 (forall_keys_exact hes))
    (List.forall_mem_map.2 (forall_keys_exact hfs)) hdistinct hcover

theorem beq_map_iff : beq (map es) (map fs) = true ↔ Agree es fs := by
  have E := equivOn_exact
  refine ⟨.of_beq hes hfs, fun h => ?_⟩
  rw [beq, Bool.and_eq_true, beq_iff_eq, submap_iff]
  refine ⟨(h.length_le hes hfs).antisymm ((h.symm hes hfs).length_le hfs hes), fun e he => ?_⟩
  have hkey := forall_keys_exact hes e he
  have hfound := valueAt?_of_entry E (forall_keys_exact hes) hkey hes.self he (E.refl hkey)
  obtain ⟨w, hw, hvw⟩ := h.exists_value hkey hfound
  exact ⟨w, hw, E.symm (exact_of_valueAt? hes hfound) (exact_of_valueAt? hfs hw) hvw⟩

end Wellformed

/-- Maps are functions with an order. When well-formed keys and values without doubles are put into a map
one after another, a key has the value that was put in last under a key equal to it; the keys are the
first of each class of equal ones, in the order in which these first occur; and two such maps are equal just
if they send the same keys to equal values, in whatever order these were put in. -/
theorem entriesOf_ordered_function (puts puts' : List (Value × Value))
    (hputs : ∀ e ∈ puts, Every children Exact e.1 ∧ Every children Exact e.2)
    (hputs' : ∀ e ∈ puts', Every children Exact e.1 ∧ Every children Exact e.2) :
    (∀ k, Every children Exact k → valueAt? (entriesOf puts) k = lastPut? puts k) ∧
      (entriesOf puts).map (·.1) = firsts (puts.map (·.1)) ∧
      ((map (entriesOf puts) == map (entriesOf puts')) = true ↔
        Agree (entriesOf puts) (entriesOf puts')) := by
  have E := equivOn_exact
  have hkeys : ∀ e ∈ puts, Every children Exact e.1 := fun e he => (hputs e he).1
  exact ⟨fun k hk => valueAt?_entriesOf E hkeys hk, map_fst_entriesOf E hkeys,
    beq_map_iff (exact_entriesOf hputs) (exact_entriesOf hputs')⟩

/-- `{1, 2}` is put in as `{2, 1}` again, after a key `7`. -/
def putTwice : List (Value × Value) :=
  [(set [int 1, int 2], int 5), (int 7, int 8), (set [int 2, int 1], int 6)]

def putOnce : List (Value × Value) := [(int 7, int 8), (set [int 2, int 1], int 6)]

theorem entriesOf_ordered_function_putTwice :
    (∀ e ∈ putTwice ++ putOnce, Every children Exact e.1 ∧ Every children Exact e.2) ∧
      valueAt? (entriesOf putTwice) (set [int 1, int 2]) = some (int 6) ∧
      (entriesOf putTwice).map (·.1) = [set [int 1, int 2], int 7] ∧
      Agree (entriesOf putTwice) (entriesOf putOnce) := by
  have h12 := every_exact_pair (show (1 : Int64) ≠ 2 by decide)
  have h21 := every_exact_pair (show (2 : Int64) ≠ 1 by decide)
  have hint : ∀ i, Every children Exact (int i) := fun _ => every_int trivial
  have hputs : ∀ e ∈ putTwice ++ putOnce, Every children Exact e.1 ∧ Every children Exact e.2 := by
    simp [putTwice, putOnce, h12, h21, hint]
  obtain ⟨hvalue, hkeys, heq⟩ := entriesOf_ordered_function putTwice putOnce
    (fun e he => hputs e (List.mem_append_left _ he)) fun e he => hputs e (List.mem_append_right _ he)
  have hlast : putTwice.reverse.find? (·.1 == set [int 1, int 2]) =
      some (set [int 2, int 1], int 6) := by cbv
  have hbeq : (map (entriesOf putTwice) == map (entriesOf putOnce)) = true := by
    dsimp only [entriesOf, putTwice, putOnce, List.foldl]
    cbv
  exact ⟨hputs, (hvalue _ h12).trans (congrArg (Option.map Prod.snd) hlast), hkeys.trans (by cbv), heq.1 hbeq⟩

end Sluice.Value
