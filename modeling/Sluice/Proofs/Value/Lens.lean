import Sluice.Proofs.Value.Equivalence
import Sluice.Proofs.Value.Path

/-! Reading what was put in place. A path reads back what was put where it leads to, what is put there last
counts, and to put there what is there already changes nothing. Paths that part ways do not see each
other's changes. For maps this rests on equality of keys being an equivalence, since a key finds the
first entry whose key equals it, both to read and to write. -/
namespace Sluice

open Value

namespace Value

variable {S : Value → Prop} {es : List (Value × Value)} {fs : List (String × Value)} {k k' v w x y z : Value}
  {s t : Step} {steps : List Step}

/-! ### Entries and fields -/

theorem equivOn_exact : EquivOn (Every children Exact) (beq · · = true) where
  refl {a} ha := (equivOn_below (sizeOf a + 1)).refl ⟨ha, Nat.lt_succ_self _⟩
  symm {a b} ha hb := (equivOn_below (sizeOf a + sizeOf b + 1)).symm ⟨ha, by omega⟩ ⟨hb, by omega⟩
  trans {a b c} ha hb hc := (equivOn_below (sizeOf a + sizeOf b + sizeOf c + 1)).trans ⟨ha, by omega⟩
    ⟨hb, by omega⟩ ⟨hc, by omega⟩

/-- Equal keys find the same entry. -/
theorem valueAt?_congr (E : EquivOn S (beq · · = true)) (hes : ∀ e ∈ es, S e.1) (hk : S k) (hk' : S k')
    (h : beq k k' = true) : valueAt? es k = valueAt? es k' := by
  induction es with
  | nil => rfl
  | cons e es ih =>
    rw [List.forall_mem_cons] at hes
    have hsame : beq e.1 k = beq e.1 k' := Bool.eq_iff_iff.2
      ⟨fun he => E.trans hes.1 hk hk' he h, fun he => E.trans hes.1 hk' hk he (E.symm hk hk' h)⟩
    rw [valueAt?, valueAt?, hsame, ih hes.2]

theorem valueAt?_putEntry_self (hk : beq k k = true) (es : List (Value × Value)) (x : Value) :
    valueAt? (putEntry es k x) k = some x := by
  induction es with
  | nil => rw [putEntry, valueAt?, if_pos hk]
  | cons e es ih =>
    rw [putEntry]
    split
    next he => rw [valueAt?, if_pos he]
    next he => rw [valueAt?, if_neg he, ih]

theorem valueAt?_putEntry_of_ne (E : EquivOn S (beq · · = true)) (hes : ∀ e ∈ es, S e.1) (hk : S k)
    (hk' : S k') (h : ¬ beq k k' = true) (x : Value) : valueAt? (putEntry es k x) k' = valueAt? es k' := by
  induction es with
  | nil => simp [putEntry, valueAt?, h]
  | cons e es ih =>
    rw [List.forall_mem_cons] at hes
    rw [putEntry]
    split
    next he =>
      -- an entry that equals both keys would make them equal
      have hne : ¬ beq e.1 k' = true := fun he' =>
        h (E.trans hk hes.1 hk' (E.symm hes.1 hk he) he')
      rw [valueAt?, valueAt?, if_neg hne, if_neg hne]
    next => rw [valueAt?, valueAt?, ih hes.2]

theorem putEntry_putEntry (hk : beq k k = true) (es : List (Value × Value)) (x y : Value) :
    putEntry (putEntry es k x) k y = putEntry es k y := by
  induction es with
  | nil => rw [putEntry, putEntry, putEntry, if_pos hk]
  | cons e es ih =>
    rw [putEntry, putEntry]
    split
    next he => rw [putEntry, if_pos he]
    next he => rw [putEntry, if_neg he, ih]

theorem putEntry_eq_self (h : valueAt? es k = some x) : putEntry es k x = es := by
  induction es with
  | nil => cases h
  | cons e es ih =>
    rw [valueAt?] at h
    rw [putEntry]
    split
    next he =>
      rw [if_pos he] at h
      rw [← Option.some.inj h]
    next he =>
      rw [if_neg he] at h
      rw [ih h]

/-- The keys of the entries stay those that they were, but for a new one. -/
theorem forall_keys_putEntry {P : Value → Prop} (hes : ∀ e ∈ es, P e.1) (hk : P k) :
    ∀ e ∈ putEntry es k x, P e.1 := by
  intro e he
  obtain rfl | ⟨e', he', hfirst, -⟩ := mem_putEntry he
  · exact hk
  · rw [hfirst]
    exact hes e' he'

theorem find?_setField_self {name : String} (h : (fs.find? (·.1 = name)).isSome) (x : Value) :
    ((setField fs name x).find? (·.1 = name)).map (·.2) = some x := by
  induction fs with
  | nil => cases h
  | cons f fs ih =>
    rw [setField]
    split <;> grind

theorem find?_setField_of_ne {name name' : String} (h : name ≠ name') (fs : List (String × Value))
    (x : Value) : (setField fs name x).find? (·.1 = name') = fs.find? (·.1 = name') := by
  induction fs with
  | nil => rfl
  | cons f fs ih =>
    rw [setField]
    split <;> grind

theorem setField_setField (fs : List (String × Value)) (name : String) (x y : Value) :
    setField (setField fs name x) name y = setField fs name y := by
  induction fs with
  | nil => rfl
  | cons f fs ih =>
    rw [setField, setField]
    split
    next hf => rw [setField, if_pos hf]
    next hf => rw [setField, if_neg hf, ih]

theorem setField_eq_self {name : String} (h : (fs.find? (·.1 = name)).map (·.2) = some x) :
    setField fs name x = fs := by
  induction fs with
  | nil => rfl
  | cons f fs ih =>
    rw [setField]
    split <;> grind

end Value

/-! ### One step -/

namespace Step

def keys : Step → List Value
  | index key _ => [key]
  | field _ => []

/-- The steps lead the same way: by equal keys, or to the field of the same name. -/
def Same : Step → Step → Prop
  | index k _, index k' _ => beq k k' = true
  | field m, field n => m.text = n.text
  | _, _ => False

end Step

namespace Value

variable {es : List (Value × Value)} {k k' v w x y z : Value} {s t : Step} {p q steps : List Step}

def keys : Value → List Value
  | map es => es.map (·.1)
  | _ => []

theorem follow_list {items : List Value} {i : Int64} {span : Span} :
    (list items).follow (.index (int i) span) = .ok x ↔
      0 ≤ i.toInt ∧ items[i.toInt.toNat]? = some x := by
  rw [follow, index, element]
  constructor
  · intro h
    cases hn : inBounds i items.length span with
    | error e =>
      rw [hn] at h
      cases h
    | ok n =>
      obtain ⟨⟨hi, hlt⟩, rfl⟩ := inBounds_eq_ok.1 hn
      rw [hn] at h
      refine ⟨hi, (List.getElem?_eq_getElem hlt).trans (congrArg some ?_)⟩
      rw [← List.getD_eq_getElem _ unit hlt]
      exact Except.ok.inj h
  · rintro ⟨hi, hx⟩
    obtain ⟨hlt, rfl⟩ := List.getElem?_eq_some_iff.1 hx
    have hn : inBounds i items.length span = .ok i.toInt.toNat := inBounds_eq_ok.2 ⟨⟨hi, hlt⟩, rfl⟩
    rw [hn]
    exact congrArg Except.ok (List.getD_eq_getElem _ _ hlt)

theorem follow_map {span : Span} :
    (map es).follow (.index k span) = .ok x ↔ valueAt? es k = some x := by
  rw [follow, index]
  cases valueAt? es k <;> simp

theorem follow_struct {type : String} {fs : List (String × Value)} {name : Ident} :
    (struct type fs).follow (.field name) = .ok x ↔ (struct type fs).field? name.text = some x := by
  rw [follow]
  cases (struct type fs).field? name.text <;> simp

/-- What is put in place is read there. -/
theorem follow_withPart (hs : ∀ k ∈ s.keys, beq k k = true) (hx : v.part? s = some x) (y : Value) :
    (v.withPart s y).follow s = .ok y := by
  obtain ⟨items, i, span, rfl, rfl, hi, hx⟩ | ⟨es, k, span, rfl, rfl, -⟩ | ⟨type, fs, name, rfl, rfl, hx⟩ :=
    part?_eq_some hx
  · have hlt := (List.getElem?_eq_some_iff.1 hx).1
    exact follow_list.2 ⟨hi, List.getElem?_set_self hlt⟩
  · exact follow_map.2 (valueAt?_putEntry_self (hs k List.mem_cons_self) es y)
  · have hfield : (fs.find? (·.1 = name.text)).isSome := by
      rw [← Option.isSome_map (f := (·.2))]
      exact Option.isSome_of_eq_some hx
    exact follow_struct.2 (find?_setField_self hfield y)

/-- What can be read where something can be put is what is replaced. -/
theorem follow_of_part? (hpart : v.part? s = some x) (hunit : x ≠ unit) : v.follow s = .ok x := by
  obtain ⟨items, i, span, rfl, rfl, hi, hx⟩ | ⟨es, k, span, rfl, rfl, hx⟩ | ⟨type, fs, name, rfl, rfl, hx⟩ :=
    part?_eq_some hpart
  · exact follow_list.2 ⟨hi, hx⟩
  · -- a key that the map does not have leads to `unit`
    cases hk : valueAt? es k with
    | none =>
      rw [hk, Option.getD_none] at hx
      exact absurd hx hunit
    | some y =>
      rw [hk, Option.getD_some] at hx
      exact follow_map.2 (hk.trans (congrArg some hx.symm))
  · exact follow_struct.2 hx

theorem part?_of_follow (hpart : v.part? s = some x) (hy : v.follow s = .ok y) : x = y := by
  obtain ⟨items, i, span, rfl, rfl, hi, hx⟩ | ⟨es, k, span, rfl, rfl, hx⟩ | ⟨type, fs, name, rfl, rfl, hx⟩ :=
    part?_eq_some hpart
  · exact Option.some.inj (hx.symm.trans (follow_list.1 hy).2)
  · rw [hx, follow_map.1 hy, Option.getD_some]
  · exact Option.some.inj (hx.symm.trans (follow_struct.1 hy))

/-- Something can be put where something was put. -/
theorem part?_withPart (hs : ∀ k ∈ s.keys, beq k k = true) (hx : v.part? s = some x) (y : Value) :
    (v.withPart s y).part? s = some y := by
  have hy := follow_withPart hs hx y
  obtain ⟨items, i, span, rfl, rfl, hi, -⟩ | ⟨es, k, span, rfl, rfl, -⟩ | ⟨type, fs, name, rfl, rfl, -⟩ :=
    part?_eq_some hx
  · exact (if_pos hi).trans (follow_list.1 hy).2
  · exact congrArg (fun u => some (u.getD unit)) (follow_map.1 hy)
  · exact follow_struct.1 hy

/-- What is put in place last counts. -/
theorem withPart_withPart (hs : ∀ k ∈ s.keys, beq k k = true) (hx : v.part? s = some x) (y z : Value) :
    (v.withPart s y).withPart s z = v.withPart s z := by
  obtain ⟨items, i, span, rfl, rfl, -⟩ | ⟨es, k, span, rfl, rfl, -⟩ | ⟨type, fs, name, rfl, rfl, -⟩ :=
    part?_eq_some hx
  · exact congrArg list (List.set_set ..)
  · exact congrArg map (putEntry_putEntry (hs k List.mem_cons_self) es y z)
  · exact congrArg (struct type) (setField_setField fs name.text y z)

/-- To put in place what is there changes nothing. -/
theorem withPart_eq_self (hx : v.part? s = some x) (hy : v.follow s = .ok y) : v.withPart s y = v := by
  obtain ⟨items, i, span, rfl, rfl, -⟩ | ⟨es, k, span, rfl, rfl, -⟩ | ⟨type, fs, name, rfl, rfl, -⟩ :=
    part?_eq_some hx
  · obtain ⟨-, hy⟩ := follow_list.1 hy
    obtain ⟨hlt, rfl⟩ := List.getElem?_eq_some_iff.1 hy
    exact congrArg list (List.set_getElem_self hlt)
  · exact congrArg map (putEntry_eq_self (follow_map.1 hy))
  · exact congrArg (struct type) (setField_eq_self (follow_struct.1 hy))

/-- The keys stay those that they were, but for that of the step. -/
theorem keys_withPart {P : Value → Prop} (hv : ∀ k ∈ v.keys, P k) (hs : ∀ k ∈ s.keys, P k) :
    ∀ k ∈ (v.withPart s y).keys, P k := by
  rw [withPart.eq_def]
  split
  · exact List.forall_mem_nil _
  · rintro k hk
    obtain ⟨e, he, rfl⟩ := List.mem_map.1 hk
    exact forall_keys_putEntry (fun e he => hv e.1 (List.mem_map_of_mem he)) (hs _ List.mem_cons_self) e he
  · exact List.forall_mem_nil _
  · exact hv

/-! ### Paths -/

theorem along_cons : v.along (s :: steps) = .ok y ↔ ∃ x, v.follow s = .ok x ∧ x.along steps = .ok y := by
  rw [along]
  cases v.follow s with
  | ok x => simp [bind, Except.bind]
  | error e => simp [bind, Except.bind]

/-- Whether something can be put where a path leads to does not depend on what it is. -/
theorem exists_replaceAlong {a : Value} (b : Value) (h : v.replaceAlong steps a = .ok w) :
    ∃ u, v.replaceAlong steps b = .ok u := by
  induction steps generalizing v w with
  | nil => exact ⟨b, by rw [replaceAlong]⟩
  | cons s steps ih =>
    obtain ⟨x, y, hx, hy, -⟩ := replaceAlong_cons.1 h
    obtain ⟨z, hz⟩ := ih hy
    exact ⟨v.withPart s z, replaceAlong_cons.2 ⟨x, z, hx, hz, rfl⟩⟩

theorem isOk_replaceAlong {a b : Value} (h : (v.replaceAlong steps a).isOk = true) :
    (v.replaceAlong steps b).isOk = true := by
  cases hw : v.replaceAlong steps a with
  | error e =>
    rw [hw] at h
    cases h
  | ok w =>
    obtain ⟨u, hu⟩ := exists_replaceAlong b hw
    rw [hu]
    rfl

theorem along_of_replaceAlong {a : Value} (hsteps : ∀ s ∈ steps, ∀ k ∈ s.keys, beq k k = true)
    (h : v.replaceAlong steps a = .ok w) : w.along steps = .ok a := by
  induction steps generalizing v w with
  | nil =>
    rw [replaceAlong] at h
    rw [along, Except.ok.inj h]
  | cons s steps ih =>
    rw [List.forall_mem_cons] at hsteps
    obtain ⟨x, y, hx, hy, rfl⟩ := replaceAlong_cons.1 h
    exact along_cons.2 ⟨y, follow_withPart hsteps.1 hx y, ih hsteps.2 hy⟩

theorem replaceAlong_replaceAlong {a : Value} (hsteps : ∀ s ∈ steps, ∀ k ∈ s.keys, beq k k = true)
    (h : v.replaceAlong steps a = .ok w) (b : Value) :
    w.replaceAlong steps b = v.replaceAlong steps b := by
  obtain ⟨u, hu⟩ := exists_replaceAlong b h
  rw [hu]
  induction steps generalizing v w u with
  | nil => rwa [replaceAlong] at hu ⊢
  | cons s steps ih =>
    rw [List.forall_mem_cons] at hsteps
    obtain ⟨x, y, hx, hy, rfl⟩ := replaceAlong_cons.1 h
    obtain ⟨x', z, hx', hz, rfl⟩ := replaceAlong_cons.1 hu
    obtain rfl := Option.some.inj (hx.symm.trans hx')
    refine replaceAlong_cons.2 ⟨y, z, part?_withPart hsteps.1 hx y, ih hsteps.2 hy z hz, ?_⟩
    exact (withPart_withPart hsteps.1 hx y z).symm

theorem replaceAlong_eq_self (hx : v.along steps = .ok x) (h : v.replaceAlong steps x = .ok w) : w = v := by
  induction steps generalizing v w with
  | nil =>
    rw [along] at hx
    rw [replaceAlong, ← hx] at h
    exact (Except.ok.inj h).symm
  | cons s steps ih =>
    obtain ⟨y, hy, hx⟩ := along_cons.1 hx
    obtain ⟨y', z, hy', hz, rfl⟩ := replaceAlong_cons.1 h
    obtain rfl := part?_of_follow hy' hy
    rw [ih hx hz]
    exact withPart_eq_self hy' hy

/-- Paths with well-formed keys without doubles read and put as one place does. Whether something can be put
there does not depend on what it is; it is read there then; what is put there last counts; and to put there
what is there gives the same value, with the same entries and keys in the same order. -/
theorem path_lawful (v : Value) (hsteps : ∀ s ∈ steps, ∀ k ∈ s.keys, Every children Exact k) (a b : Value) :
    (v.replaceAlong steps a).isOk = (v.replaceAlong steps b).isOk ∧
      (∀ w, v.replaceAlong steps a = .ok w →
        w.along steps = .ok a ∧ w.replaceAlong steps b = v.replaceAlong steps b) ∧
      ∀ x w, v.along steps = .ok x → v.replaceAlong steps x = .ok w → w = v := by
  have hsteps' : ∀ s ∈ steps, ∀ k ∈ s.keys, beq k k = true := fun s hs k hk =>
    equivOn_exact.refl (hsteps s hs k hk)
  refine ⟨Bool.eq_iff_iff.2 ⟨fun h => ?_, fun h => ?_⟩, fun w hw => ?_, fun x w => replaceAlong_eq_self⟩
  · exact isOk_replaceAlong h
  · exact isOk_replaceAlong h
  · exact ⟨along_of_replaceAlong hsteps' hw, replaceAlong_replaceAlong hsteps' hw b⟩

theorem every_int {P : Value → Prop} {i : Int64} (h : P (int i)) : Every children P (int i) :=
  .mk h (List.forall_mem_nil _)

/-- A list or a set of integers. -/
theorem every_ints {P : Value → Prop} {l : List Int64} (hchildren : v.children = l.map int) (hv : P v)
    (hint : ∀ i, P (int i)) : Every children P v := by
  refine .mk hv fun u hu => ?_
  rw [hchildren] at hu
  obtain ⟨i, -, rfl⟩ := List.mem_map.1 hu
  exact every_int (hint i)

theorem every_exact_pair {i j : Int64} (h : i ≠ j) : Every children Exact (set [int i, int j]) :=
  every_ints (l := [i, j]) rfl (by simpa [Exact, beq] using h) fun _ => trivial

/-- `{{1, 2}: [5, 6]}` -/
def keyedBySet : Value := map [(set [int 1, int 2], list [int 5, int 6])]

/-- `[{i, j}][n]` -/
def underSet (i j n : Int64) : List Step := [.index (set [int i, int j]) default, .index (int n) default]

theorem underSet_exact {i j : Int64} (h : i ≠ j) (n : Int64) :
    ∀ s ∈ underSet i j n, ∀ k ∈ s.keys, Every children Exact k := by
  simpa [underSet, Step.keys] using ⟨every_exact_pair h, every_int trivial⟩

theorem path_lawful_keyedBySet :
    (∀ s ∈ underSet 2 1 0, ∀ k ∈ s.keys, Every children Exact k) ∧
    ∃ w, keyedBySet.replaceAlong (underSet 2 1 0) (int 7) = .ok w ∧ w.along (underSet 2 1 0) = .ok (int 7) ∧
      w.replaceAlong (underSet 2 1 0) (int 5) = .ok keyedBySet := by
  have hsteps := underSet_exact (show (2 : Int64) ≠ 1 by decide) 0
  obtain ⟨-, hput, -⟩ := path_lawful keyedBySet hsteps (int 7) (int 5)
  have hw : keyedBySet.replaceAlong (underSet 2 1 0) (int 7) =
      .ok (map [(set [int 1, int 2], list [int 7, int 6])]) := by with_unfolding_all rfl
  have hback : keyedBySet.replaceAlong (underSet 2 1 0) (int 5) = .ok keyedBySet := by with_unfolding_all rfl
  obtain ⟨hread, hagain⟩ := hput _ hw
  exact ⟨hsteps, _, hw, hread, hagain.trans hback⟩

/-! ### Paths that part -/

/-- Paths that lead the same way for some steps, perhaps none, and then part ways. -/
inductive Diverge : List Step → List Step → Prop
  | here {s t : Step} {p q : List Step} : ¬ s.Same t → Diverge (s :: p) (t :: q)
  | there {s t : Step} {p q : List Step} : s.Same t → Diverge p q → Diverge (s :: p) (t :: q)

def Floatless : Value → Prop := Every children fun v => ∀ x, v ≠ float x

def KeysAlong (P : Value → Prop) : Value → List Step → Prop
  | _, [] => True
  | v, s :: steps => (∀ k ∈ v.keys, P k) ∧ ∀ x, v.follow s = .ok x → KeysAlong P x steps

theorem every_exact (hregular : Every children Regular v) (hfloatless : v.Floatless) :
    Every children Exact v := by
  induction hregular with
  | @mk v hv _ ih =>
    refine .mk ?_ fun u hu => ih u hu (Every.part hfloatless hu)
    cases v with
    | float x => exact hfloatless.self x rfl
    | set vs => exact hv
    | map es => exact hv
    | _ => trivial

theorem mem_children_of_mem_keys (hk : k ∈ v.keys) : k ∈ v.children := by
  cases v with
  | map es =>
    obtain ⟨e, he, rfl⟩ := List.mem_map.1 hk
    exact (mem_children_map he).1
  | _ => cases hk

theorem mem_children_of_part? (hpart : v.part? s = some x) (hunit : x ≠ unit) : x ∈ v.children := by
  have hfollow := follow_of_part? hpart hunit
  obtain ⟨items, i, span, rfl, rfl, -, hx⟩ | ⟨es, k, span, rfl, rfl, -⟩ | ⟨type, fs, name, rfl, rfl, hx⟩ :=
    part?_eq_some hpart
  · exact List.mem_of_getElem? hx
  · obtain ⟨e, he, -, rfl⟩ := entry_of_valueAt? (follow_map.1 hfollow)
    exact (mem_children_map he).2
  · obtain ⟨f, hf, rfl⟩ := Option.map_eq_some_iff.1 hx
    exact List.mem_map_of_mem (List.mem_of_find?_eq_some hf)

theorem eq_of_beq_int {i : Int64} (hk : k.Exact) (h : beq (int i) k = true) : k = int i := by
  cases congruent_of_beq (a := int i) trivial hk h with
  | atom => rfl

/-- Steps that lead the same way read the same. -/
theorem follow_of_same (hv : ∀ k ∈ v.keys, Every children Exact k) (hs : ∀ k ∈ s.keys, Every children Exact k)
    (ht : ∀ k ∈ t.keys, Every children Exact k) (hsame : s.Same t) (hpart : v.part? s = some x)
    (hy : v.follow s = .ok y) : v.follow t = .ok y := by
  obtain ⟨items, i, span, rfl, rfl, -⟩ | ⟨es, k, span, rfl, rfl, -⟩ | ⟨type, fs, name, rfl, rfl, -⟩ :=
    part?_eq_some hpart
  · cases t with
    | field name => cases hsame
    | index k' span' =>
      obtain rfl := eq_of_beq_int (ht k' List.mem_cons_self).self hsame
      exact follow_list.2 (follow_list.1 hy)
  · cases t with
    | field name => cases hsame
    | index k' span' =>
      have hkeys : ∀ e ∈ es, Every children Exact e.1 := fun e he => hv e.1 (List.mem_map_of_mem he)
      rw [follow_map, ← valueAt?_congr equivOn_exact hkeys (hs k List.mem_cons_self)
        (ht k' List.mem_cons_self) hsame]
      exact follow_map.1 hy
  · cases t with
    | index k' span' => cases hsame
    | field name' =>
      rw [follow_struct, ← show name.text = name'.text from hsame]
      exact follow_struct.1 hy

/-- Another step does not see what is put in place. -/
theorem follow_withPart_of_not_same (hv : ∀ k ∈ v.keys, Every children Exact k)
    (hs : ∀ k ∈ s.keys, Every children Exact k) (ht : ∀ k ∈ t.keys, Every children Exact k)
    (hother : ¬ s.Same t) (hpart : v.part? s = some x) (y : Value) :
    (v.withPart s y).follow t = v.follow t := by
  obtain ⟨items, i, span, rfl, rfl, hi, -⟩ | ⟨es, k, span, rfl, rfl, -⟩ | ⟨type, fs, name, rfl, rfl, -⟩ :=
    part?_eq_some hpart
  · cases t with
    | field name => rfl
    | index k' span' =>
      cases k' with
      | int j =>
        have hne : i ≠ j := by
          rintro rfl
          exact hother (equivOn_exact.refl (hs _ List.mem_cons_self))
        simp only [withPart, follow, index, element, inBounds, List.length_set]
        split
        next hj =>
          have hne' : i.toInt.toNat ≠ j.toInt.toNat := fun heq => hne (Int64.toInt_inj.1 (by omega))
          simp only [List.getD_eq_getElem?_getD, bind, Except.bind, List.getElem?_set_ne hne']
        next => rfl
      | _ => rfl
  · cases t with
    | field name => rfl
    | index k' span' =>
      have hkeys : ∀ e ∈ es, Every children Exact e.1 := fun e he => hv e.1 (List.mem_map_of_mem he)
      rw [withPart, follow, follow, index, index, valueAt?_putEntry_of_ne equivOn_exact hkeys
        (hs k List.mem_cons_self) (ht k' List.mem_cons_self) hother]
  · cases t with
    | index k' span' => cases k' <;> rfl
    | field name' =>
      simp only [withPart, follow, field?, find?_setField_of_ne hother fs y]
      rfl

/-- A path does not see what is put where another path leads to, if they part ways: it leads to the same
value then or to the same fault. The keys of the paths and those that the changed path meets have no
doubles. -/
theorem along_replaceAlong_of_diverge {a : Value} (hv : Every children Regular v)
    (hp : ∀ s ∈ p, ∀ k ∈ s.keys, Every children Exact k) (hq : ∀ t ∈ q, ∀ k ∈ t.keys, Every children Exact k)
    (hkeys : KeysAlong Floatless v p) (hdiverge : Diverge p q) (h : v.replaceAlong p a = .ok w) :
    w.along q = v.along q := by
  induction hdiverge generalizing v w with
  | @here s t p q hother =>
    obtain ⟨x, y, hx, -, rfl⟩ := replaceAlong_cons.1 h
    have hexact : ∀ k ∈ v.keys, Every children Exact k := fun k hk =>
      every_exact (hv.part (mem_children_of_mem_keys hk)) (hkeys.1 k hk)
    rw [along, along, follow_withPart_of_not_same hexact (hp s List.mem_cons_self)
      (hq t List.mem_cons_self) hother hx y]
  | @there s t p q hsame hdiverge ih =>
    rw [List.forall_mem_cons] at hp hq
    obtain ⟨x, y, hx, hy, rfl⟩ := replaceAlong_cons.1 h
    have hexact : ∀ k ∈ v.keys, Every children Exact k := fun k hk =>
      every_exact (hv.part (mem_children_of_mem_keys hk)) (hkeys.1 k hk)
    -- the path goes on from `x`, so `x` was there before
    have hunit : x ≠ unit := by
      rintro rfl
      cases hdiverge <;> exact replaceAlong_unit _ hy
    have hfollow := follow_of_part? hx hunit
    have hrest := ih (hv.part (mem_children_of_part? hx hunit)) hp.2 hq.2 (hkeys.2 x hfollow) hy
    have hkey : ∀ k ∈ s.keys, beq k k = true := fun k hk => equivOn_exact.refl (hp.1 k hk)
    have hexact' : ∀ k ∈ (v.withPart s y).keys, Every children Exact k := keys_withPart hexact hp.1
    have hold := follow_of_same hexact hp.1 hq.1 hsame hx hfollow
    have hnew := follow_of_same hexact' hp.1 hq.1 hsame (part?_withPart hkey hx y) (follow_withPart hkey hx y)
    rw [along, along, hold, hnew]
    exact hrest

theorem regular_keyedBySet : Every children Regular keyedBySet := by
  have hset : Every children Regular (set [int 1, int 2]) :=
    every_ints (l := [1, 2]) rfl (by simp [Regular, beq]) fun _ => trivial
  have hlist : Every children Regular (list [int 5, int 6]) :=
    every_ints (l := [5, 6]) rfl trivial fun _ => trivial
  exact .mk (List.pairwise_singleton ..) (by simp [keyedBySet, children, hset, hlist])

theorem along_replaceAlong_underSet :
    Every children Regular keyedBySet ∧ KeysAlong Floatless keyedBySet (underSet 2 1 0) ∧
      Diverge (underSet 2 1 0) (underSet 1 2 1) ∧
      ∃ w, keyedBySet.replaceAlong (underSet 2 1 0) (int 7) = .ok w ∧
        w.along (underSet 1 2 1) = keyedBySet.along (underSet 1 2 1) := by
  have hkeys : KeysAlong Floatless keyedBySet (underSet 2 1 0) := by
    have hset : (set [int 1, int 2]).Floatless := every_ints (l := [1, 2]) rfl nofun fun _ => nofun
    refine ⟨List.forall_mem_singleton.2 hset, fun x hx => ?_⟩
    have hx' : keyedBySet.follow (.index (set [int 2, int 1]) default) = .ok (list [int 5, int 6]) := by cbv
    obtain rfl := Except.ok.inj (hx.symm.trans hx')
    exact ⟨List.forall_mem_nil _, fun _ _ => trivial⟩
  have hdiverge : Diverge (underSet 2 1 0) (underSet 1 2 1) :=
    .there (by cbv) (.here (by cbv; decide))
  have hw : keyedBySet.replaceAlong (underSet 2 1 0) (int 7) =
      .ok (map [(set [int 1, int 2], list [int 7, int 6])]) := by with_unfolding_all rfl
  exact ⟨regular_keyedBySet, hkeys, hdiverge, _, hw,
    along_replaceAlong_of_diverge regular_keyedBySet (underSet_exact (by decide) 0)
      (underSet_exact (by decide) 1) hkeys hdiverge hw⟩

-- An element twice in a set inside a key, and a change under another key is seen.
example : beq (set [set [int 1, int 1]]) (set [set [int 1, int 2]]) = false ∧
    (map [(set [set [int 1, int 2]], int 5)]).replaceAlong [.index (set [set [int 1, int 1]]) default]
      (int 7) = .ok (map [(set [set [int 1, int 2]], int 7)]) := ⟨by cbv, by cbv⟩

end Value

end Sluice
