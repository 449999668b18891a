import Mathlib.Data.Fintype.EquivFin
import Mathlib.Data.List.Forall2
import Sluice.Proofs.Value.Sane

/-! Equality of values is an equivalence on well-formed values without doubles. Sets and maps are only
compared by size and in one direction; that this is enough rests on their having no element or key twice.
Equality of values is read as a relation between their parts, and from one level of nesting to the next
this stays an equivalence. -/
namespace Sluice

/-! ### Equivalences on some things -/

structure EquivOn {α : Type} (S : α → Prop) (R : α → α → Prop) : Prop where
  refl : ∀ {a}, S a → R a a
  symm : ∀ {a b}, S a → S b → R a b → R b a
  trans : ∀ {a b c}, S a → S b → S c → R a b → R b c → R a c

/-- The lists are of one length, and each of `xs` has its like in `ys`. -/
def Covered {α : Type} (R : α → α → Prop) (xs ys : List α) : Prop :=
  xs.length = ys.length ∧ ∀ x ∈ xs, ∃ y ∈ ys, R y x

namespace EquivOn

variable {α : Type} {S : α → Prop} {R : α → α → Prop} {xs ys : List α}

/-- Names and things, where names have to be the same. -/
theorem named (E : EquivOn S R) : EquivOn (fun f : String × α => S f.2)
    (fun f g => f.1 = g.1 ∧ R f.2 g.2) where
  refl hf := ⟨rfl, E.refl hf⟩
  symm hf hg h := ⟨h.1.symm, E.symm hf hg h.2⟩
  trans hf hg hk h h' := ⟨h.1.trans h'.1, E.trans hf hg hk h.2 h'.2⟩

theorem pairs (E : EquivOn S R) : EquivOn (fun e : α × α => S e.1 ∧ S e.2)
    (fun e f => R e.1 f.1 ∧ R e.2 f.2) where
  refl he := ⟨E.refl he.1, E.refl he.2⟩
  symm he hf h := ⟨E.symm he.1 hf.1 h.1, E.symm he.2 hf.2 h.2⟩
  trans he hf hg h h' := ⟨E.trans he.1 hf.1 hg.1 h.1 h'.1, E.trans he.2 hf.2 hg.2 h.2 h'.2⟩

/-- Lists one by one. -/
theorem forall₂ (E : EquivOn S R) : EquivOn (fun xs : List α => ∀ x ∈ xs, S x) (List.Forall₂ R) where
  refl hxs := List.forall₂_same.2 fun x hx => E.refl (hxs x hx)
  symm := by
    intro xs ys hxs hys h
    induction h with
    | nil => exact .nil
    | cons hR _ ih =>
      rw [List.forall_mem_cons] at hxs hys
      exact .cons (E.symm hxs.1 hys.1 hR) (ih hxs.2 hys.2)
  trans := by
    intro xs ys zs hxs hys hzs h h'
    induction h generalizing zs with
    | nil => exact h'
    | cons hR _ ih =>
      cases h' with
      | cons hR' h' =>
        rw [List.forall_mem_cons] at hxs hys hzs
        exact .cons (E.trans hxs.1 hys.1 hzs.1 hR hR') (ih hxs.2 hys.2 hzs.2 h')

/-- If the things of `xs` are all different, each has a like of its own in `ys`. -/
theorem exists_injective_like (E : EquivOn S R) (hxs : ∀ x ∈ xs, S x) (hys : ∀ y ∈ ys, S y)
    (hdistinct : xs.Pairwise fun a b => ¬ R a b) (hcover : ∀ x ∈ xs, ∃ y ∈ ys, R y x) :
    ∃ like : Fin xs.length → Fin ys.length, Function.Injective like ∧
      ∀ i, R (ys.get (like i)) (xs.get i) := by
  have hlike : ∀ i : Fin xs.length, ∃ j : Fin ys.length, R (ys.get j) (xs.get i) := by
    intro i
    obtain ⟨y, hy, hR⟩ := hcover (xs.get i) (List.get_mem _ _)
    obtain ⟨j, hj, rfl⟩ := List.getElem_of_mem hy
    exact ⟨⟨j, hj⟩, hR⟩
  choose like hlike using hlike
  have hne : ∀ i j, i < j → like i ≠ like j := by
    intro i j hlt heq
    have hi := E.symm (hys _ (List.get_mem _ _)) (hxs _ (List.get_mem _ _)) (hlike i)
    have hj := hlike j
    rw [← heq] at hj
    refine List.pairwise_iff_get.1 hdistinct i j hlt ?_
    exact E.trans (hxs _ (List.get_mem _ _)) (hys _ (List.get_mem _ _)) (hxs _ (List.get_mem _ _)) hi hj
  refine ⟨like, fun i j heq => ?_, hlike⟩
  rcases lt_trichotomy i j with hlt | heq' | hlt
  · exact absurd heq (hne i j hlt)
  · exact heq'
  · exact absurd heq.symm (hne j i hlt)

theorem length_le (E : EquivOn S R) (hxs : ∀ x ∈ xs, S x) (hys : ∀ y ∈ ys, S y)
    (hdistinct : xs.Pairwise fun a b => ¬ R a b) (hcover : ∀ x ∈ xs, ∃ y ∈ ys, R y x) :
    xs.length ≤ ys.length := by
  obtain ⟨like, hinjective, -⟩ := E.exists_injective_like hxs hys hdistinct hcover
  simpa using Fintype.card_le_of_injective like hinjective

/-- With as many things in `ys` as in `xs`, none of `ys` is left over. -/
theorem covered_symm (E : EquivOn S R) (hxs : ∀ x ∈ xs, S x) (hys : ∀ y ∈ ys, S y)
    (hdistinct : xs.Pairwise fun a b => ¬ R a b) (h : Covered R xs ys) : Covered R ys xs := by
  obtain ⟨hlen, hcover⟩ := h
  obtain ⟨like, hinjective, hlike⟩ := E.exists_injective_like hxs hys hdistinct hcover
  have hsurjective := (Finite.injective_iff_surjective_of_equiv (finCongr hlen)).1 hinjective
  refine ⟨hlen.symm, fun y hy => ?_⟩
  obtain ⟨j, hj, rfl⟩ := List.getElem_of_mem hy
  obtain ⟨i, hi⟩ := hsurjective ⟨j, hj⟩
  have hR := hlike i
  rw [hi] at hR
  exact ⟨xs.get i, List.get_mem _ _, E.symm (hys _ hy) (hxs _ (List.get_mem _ _)) hR⟩

/-- Lists of different things up to order. -/
theorem covered (E : EquivOn S R) :
    EquivOn (fun xs : List α => (∀ x ∈ xs, S x) ∧ xs.Pairwise fun a b => ¬ R a b) (Covered R) where
  refl hxs := ⟨rfl, fun x hx => ⟨x, hx, E.refl (hxs.1 x hx)⟩⟩
  symm hxs hys h := E.covered_symm hxs.1 hys.1 hxs.2 h
  trans := by
    intro xs ys zs hxs hys hzs h h'
    refine ⟨h.1.trans h'.1, fun x hx => ?_⟩
    obtain ⟨y, hy, hyx⟩ := h.2 x hx
    obtain ⟨z, hz, hzy⟩ := h'.2 y hy
    exact ⟨z, hz, E.trans (hzs.1 z hz) (hys.1 y hy) (hxs.1 x hx) hzy hyx⟩

end EquivOn

namespace Value

/-! ### Equality as a relation between parts -/

inductive Congruent (R : Value → Value → Prop) : Value → Value → Prop
  /-- A value without parts. -/
  | atom {v : Value} : v.children = [] → (∀ x, v ≠ float x) → Congruent R v v
  | fn {c d : Closure} : c.id = d.id → Congruent R (fn c) (fn d)
  | list {xs ys : List Value} : List.Forall₂ R xs ys → Congruent R (list xs) (list ys)
  | tuple {xs ys : List Value} : List.Forall₂ R xs ys → Congruent R (tuple xs) (tuple ys)
  | set {xs ys : List Value} : Covered R xs ys → Congruent R (set xs) (set ys)
  | map {xs ys : List (Value × Value)} : Covered (fun e f => R e.1 f.1 ∧ R e.2 f.2) xs ys →
    Congruent R (map xs) (map ys)
  | just {x y : Value} : R x y → Congruent R (just x) (just y)
  | struct {name : String} {xs ys : List (String × Value)} :
    List.Forall₂ (fun f g => f.1 = g.1 ∧ R f.2 g.2) xs ys → Congruent R (struct name xs) (struct name ys)
  | variant {enumName name : String} {x y : Value} : R x y →
    Congruent R (variant enumName name (some x)) (variant enumName name (some y))

theorem beqAll_iff {xs ys : List Value} :
    beqAll xs ys = true ↔ List.Forall₂ (beq · · = true) xs ys := by
  induction xs generalizing ys with
  | nil => cases ys <;> simp [beqAll]
  | cons x xs ih => cases ys <;> simp [beqAll, ih]

theorem beqFields_iff {xs ys : List (String × Value)} :
    beqFields xs ys = true ↔ List.Forall₂ (fun f g => f.1 = g.1 ∧ beq f.2 g.2 = true) xs ys := by
  induction xs generalizing ys with
  | nil => cases ys <;> simp [beqFields]
  | cons f xs ih =>
    obtain ⟨m, x⟩ := f
    cases ys with
    | nil => simp [beqFields]
    | cons g ys =>
      obtain ⟨n, y⟩ := g
      simp [beqFields, ih]

theorem subset_iff {xs ys : List Value} :
    subset xs ys = true ↔ ∀ x ∈ xs, ∃ y ∈ ys, beq y x = true := by
  induction xs with
  | nil => simp [subset]
  | cons x xs ih => simp [subset, ih, mem_eq_any]

theorem beq_set_iff {xs ys : List Value} :
    beq (set xs) (set ys) = true ↔ Covered (beq · · = true) xs ys := by
  rw [beq, Bool.and_eq_true, beq_iff_eq, subset_iff]
  exact .rfl

theorem maps_iff {ys : List (Value × Value)} {k v : Value} :
    maps ys k v = true ↔ ∃ u, valueAt? ys k = some u ∧ beq u v = true := by
  induction ys with
  | nil => simp [maps, valueAt?]
  | cons e ys ih =>
    rw [maps, valueAt?]
    split <;> simp [ih]

theorem submap_iff {xs ys : List (Value × Value)} : submap xs ys = true ↔
    ∀ e ∈ xs, ∃ u, valueAt? ys e.1 = some u ∧ beq u e.2 = true := by
  induction xs with
  | nil => simp [submap]
  | cons e xs ih =>
    obtain ⟨k, v⟩ := e
    rw [submap, Bool.and_eq_true, maps_iff, ih, List.forall_mem_cons]

/-! ### From one level of nesting to the next -/

/-- It is no double, in a set no earlier element equals a later one, and in a map no earlier key equals
a later one. -/
def Exact : Value → Prop
  | float _ => False
  | set vs => vs.Pairwise fun a b => beq a b = false
  | map es => es.Pairwise fun a b => beq a.1 b.1 = false
  | _ => True

theorem congruent_of_beq {a b : Value} (ha : a.Exact) (hb : b.Exact) (h : beq a b = true) :
    Congruent (beq · · = true) a b := by
  unfold beq at h
  split at h
  case h_2 | h_4 => exact False.elim ha
  case h_3 => exact False.elim hb
  case h_8 => exact .list (beqAll_iff.1 h)
  case h_9 => exact .tuple (beqAll_iff.1 h)
  case h_10 => exact .set (beq_set_iff.1 (by rwa [beq]))
  case h_11 =>
    rw [Bool.and_eq_true, beq_iff_eq, submap_iff] at h
    refine .map ⟨h.1, fun e he => ?_⟩
    obtain ⟨u, hu, hvalue⟩ := h.2 e he
    obtain ⟨f, hf, hkey, rfl⟩ := entry_of_valueAt? hu
    exact ⟨f, hf, hkey, hvalue⟩
  case h_12 => exact .just h
  case h_15 =>
    rw [Bool.and_eq_true, beq_iff_eq, beqFields_iff] at h
    obtain ⟨rfl, h⟩ := h
    exact .struct h
  case h_16 =>
    rw [Bool.and_eq_true, Bool.and_eq_true, beq_iff_eq, beq_iff_eq] at h
    obtain ⟨⟨rfl, rfl⟩, h⟩ := h
    split at h
    · exact .atom rfl (by simp)
    · exact .variant h
    · cases h
  case h_17 => exact .fn (beq_iff_eq.1 h)
  case h_23 => cases h
  case h_13 | h_14 => exact .atom rfl (by simp)
  all_goals
    obtain rfl := beq_iff_eq.1 h
    exact .atom rfl (by simp)

variable {S : Value → Prop}

/-- Under a key that equals the given one stands the value, for no other key equals it. -/
theorem valueAt?_of_entry (E : EquivOn S (beq · · = true)) {ys : List (Value × Value)}
    {f : Value × Value} {k : Value} (hys : ∀ g ∈ ys, S g.1) (hk : S k)
    (hdistinct : ys.Pairwise fun a b => beq a.1 b.1 = false) (hf : f ∈ ys) (hfk : beq f.1 k = true) :
    valueAt? ys k = some f.2 := by
  induction ys with
  | nil => cases hf
  | cons g ys ih =>
    rw [List.forall_mem_cons] at hys
    rw [List.pairwise_cons] at hdistinct
    rw [valueAt?]
    rcases List.mem_cons.1 hf with rfl | hf
    · rw [if_pos hfk]
    · have hne : ¬ beq g.1 k = true := by
        intro hgk
        have hgf := E.trans hys.1 hk (hys.2 f hf) hgk (E.symm (hys.2 f hf) hk hfk)
        rw [hdistinct.1 f hf] at hgf
        cases hgf
      rw [if_neg hne]
      exact ih hys.2 hdistinct.2 hf

theorem beq_self_of_atom {v : Value} (hchildren : v.children = []) (hfloat : ∀ x, v ≠ float x) :
    beq v v = true := by
  cases v with
  | float x => exact absurd rfl (hfloat x)
  | list vs =>
    obtain rfl : vs = [] := hchildren
    rw [beq, beqAll]
  | tuple vs =>
    obtain rfl : vs = [] := hchildren
    rw [beq, beqAll]
  | set vs =>
    obtain rfl : vs = [] := hchildren
    rw [beq, subset, beq_self_eq_true, Bool.and_self]
  | map es =>
    obtain rfl : es = [] := by
      cases es with
      | nil => rfl
      | cons e es => cases hchildren
    rw [beq, submap, beq_self_eq_true, Bool.and_self]
  | just v => cases hchildren
  | struct name fs =>
    obtain rfl := List.map_eq_nil_iff.1 hchildren
    rw [beq, beqFields, beq_self_eq_true, Bool.and_self]
  | variant enumName name payload =>
    cases payload with
    | none => simp [beq]
    | some v => cases hchildren
  | _ => simp [beq]

def Over (S : Value → Prop) (v : Value) : Prop := v.Exact ∧ ∀ u ∈ v.children, S u

section Over

variable {xs : List Value} {es : List (Value × Value)}

theorem Over.set (h : Over S (set xs)) :
    (∀ x ∈ xs, S x) ∧ xs.Pairwise fun a b => ¬ beq a b = true :=
  ⟨h.2, List.Pairwise.imp (by simp) h.1⟩

theorem Over.map (h : Over S (map es)) : (∀ e ∈ es, S e.1 ∧ S e.2) ∧
    es.Pairwise fun a b => ¬ (beq a.1 b.1 = true ∧ beq a.2 b.2 = true) :=
  ⟨fun _ he => ⟨h.2 _ (mem_children_map he).1, h.2 _ (mem_children_map he).2⟩,
    List.Pairwise.imp (by simp +contextual) h.1⟩

theorem Over.struct {name : String} {fs : List (String × Value)} (h : Over S (struct name fs)) :
    ∀ f ∈ fs, S f.2 := fun _ hf => h.2 _ (List.mem_map_of_mem hf)

theorem Over.variant {enumName name : String} {v : Value}
    (h : Over S (variant enumName name (some v))) : S v := h.2 v List.mem_cons_self

theorem Over.just {v : Value} (h : Over S (just v)) : S v := h.2 v List.mem_cons_self

theorem beq_of_congruent (E : EquivOn S (beq · · = true)) {a b : Value} (ha : Over S a)
    (hb : Over S b) (h : Congruent (beq · · = true) a b) : beq a b = true := by
  cases h with
  | atom hchildren hfloat => exact beq_self_of_atom hchildren hfloat
  | fn h => rw [beq, h, beq_self_eq_true]
  | list h =>
    rw [beq]
    exact beqAll_iff.2 h
  | tuple h =>
    rw [beq]
    exact beqAll_iff.2 h
  | set h => exact beq_set_iff.2 h
  | map h =>
    rw [beq, Bool.and_eq_true, beq_iff_eq, submap_iff]
    refine ⟨h.1, fun e he => ?_⟩
    obtain ⟨f, hf, hkey, hvalue⟩ := h.2 e he
    refine ⟨f.2, ?_, hvalue⟩
    exact valueAt?_of_entry E (fun g hg => (hb.map.1 g hg).1) (ha.map.1 e he).1 hb.1 hf hkey
  | just h =>
    rw [beq]
    exact h
  | struct h =>
    rw [beq, beq_self_eq_true, Bool.true_and]
    exact beqFields_iff.2 h
  | variant h =>
    rw [beq, beq_self_eq_true, beq_self_eq_true]
    exact h

theorem congruent_refl (E : EquivOn S (beq · · = true)) {v : Value} (hv : Over S v) :
    Congruent (beq · · = true) v v := by
  cases v with
  | float x => exact False.elim hv.1
  | list xs => exact .list (E.forall₂.refl hv.2)
  | tuple xs => exact .tuple (E.forall₂.refl hv.2)
  | set xs => exact .set (E.covered.refl hv.set)
  | map es => exact .map (E.pairs.covered.refl hv.map)
  | just v => exact .just (E.refl hv.just)
  | struct name fs => exact .struct (E.named.forall₂.refl hv.struct)
  | variant enumName name payload =>
    cases payload with
    | none => exact .atom rfl nofun
    | some v => exact .variant (E.refl hv.variant)
  | _ => exact .atom rfl nofun

theorem congruent_symm (E : EquivOn S (beq · · = true)) {a b : Value} (ha : Over S a)
    (hb : Over S b) (h : Congruent (beq · · = true) a b) : Congruent (beq · · = true) b a := by
  cases h with
  | atom hchildren hfloat => exact .atom hchildren hfloat
  | fn h => exact .fn h.symm
  | list h => exact .list (E.forall₂.symm ha.2 hb.2 h)
  | tuple h => exact .tuple (E.forall₂.symm ha.2 hb.2 h)
  | set h => exact .set (E.covered.symm ha.set hb.set h)
  | map h => exact .map (E.pairs.covered.symm ha.map hb.map h)
  | just h => exact .just (E.symm ha.just hb.just h)
  | struct h => exact .struct (E.named.forall₂.symm ha.struct hb.struct h)
  | variant h => exact .variant (E.symm ha.variant hb.variant h)

theorem congruent_trans (E : EquivOn S (beq · · = true)) {a b c : Value} (ha : Over S a)
    (hb : Over S b) (hc : Over S c) (h : Congruent (beq · · = true) a b)
    (h' : Congruent (beq · · = true) b c) : Congruent (beq · · = true) a c := by
  cases h' with
  | atom => exact h
  | fn h' =>
    cases h with
    | atom => exact .fn h'
    | fn h => exact .fn (h.trans h')
  | list h' =>
    cases h with
    | atom => exact .list h'
    | list h => exact .list (E.forall₂.trans ha.2 hb.2 hc.2 h h')
  | tuple h' =>
    cases h with
    | atom => exact .tuple h'
    | tuple h => exact .tuple (E.forall₂.trans ha.2 hb.2 hc.2 h h')
  | set h' =>
    cases h with
    | atom => exact .set h'
    | set h => exact .set (E.covered.trans ha.set hb.set hc.set h h')
  | map h' =>
    cases h with
    | atom => exact .map h'
    | map h => exact .map (E.pairs.covered.trans ha.map hb.map hc.map h h')
  | just h' =>
    cases h with
    | atom => exact .just h'
    | just h => exact .just (E.trans ha.just hb.just hc.just h h')
  | struct h' =>
    cases h with
    | atom => exact .struct h'
    | struct h => exact .struct (E.named.forall₂.trans ha.struct hb.struct hc.struct h h')
  | variant h' =>
    cases h with
    | atom => exact .variant h'
    | variant h => exact .variant (E.trans ha.variant hb.variant hc.variant h h')

/-- Equality of what is made up of `S` is an equivalence if equality in `S` is. -/
theorem equivOn_over (E : EquivOn S (beq · · = true)) : EquivOn (Over S) (beq · · = true) where
  refl ha := beq_of_congruent E ha ha (congruent_refl E ha)
  symm ha hb h :=
    beq_of_congruent E hb ha (congruent_symm E ha hb (congruent_of_beq ha.1 hb.1 h))
  trans ha hb hc h h' :=
    beq_of_congruent E ha hc (congruent_trans E ha hb hc (congruent_of_beq ha.1 hb.1 h)
      (congruent_of_beq hb.1 hc.1 h'))

end Over

/-! ### All values -/

theorem sizeOf_lt_of_mem_children {u v : Value} (h : u ∈ v.children) : sizeOf u < sizeOf v := by
  cases v with
  | list vs =>
    have : sizeOf u < sizeOf vs := List.sizeOf_lt_of_mem h
    simp only [list.sizeOf_spec]
    omega
  | tuple vs =>
    have : sizeOf u < sizeOf vs := List.sizeOf_lt_of_mem h
    simp only [tuple.sizeOf_spec]
    omega
  | set vs =>
    have : sizeOf u < sizeOf vs := List.sizeOf_lt_of_mem h
    simp only [set.sizeOf_spec]
    omega
  | map es =>
    obtain ⟨⟨k, w⟩, he, hu⟩ := List.mem_flatMap.1 h
    have := List.sizeOf_lt_of_mem he
    simp only [Prod.mk.sizeOf_spec] at this
    simp only [List.mem_cons, List.not_mem_nil, or_false] at hu
    simp only [map.sizeOf_spec]
    rcases hu with rfl | rfl <;> omega
  | just w =>
    obtain rfl := List.mem_singleton.1 h
    simp only [just.sizeOf_spec]
    omega
  | struct name fs =>
    obtain ⟨⟨n, w⟩, hf, rfl⟩ := List.mem_map.1 h
    have := List.sizeOf_lt_of_mem hf
    simp only [Prod.mk.sizeOf_spec] at this
    simp only [struct.sizeOf_spec]
    omega
  | variant enumName name payload =>
    cases payload with
    | none => cases h
    | some w =>
      obtain rfl := List.mem_singleton.1 h
      simp only [variant.sizeOf_spec, Option.some.sizeOf_spec]
      omega
  | _ => cases h

theorem equivOn_below (n : Nat) :
    EquivOn (fun v => Every children Exact v ∧ sizeOf v < n) (beq · · = true) := by
  induction n with
  | zero => exact ⟨fun h => absurd h.2 (Nat.not_lt_zero _), fun h => absurd h.2 (Nat.not_lt_zero _),
      fun h => absurd h.2 (Nat.not_lt_zero _)⟩
  | succ n ih =>
    have hover : ∀ {v : Value}, Every children Exact v ∧ sizeOf v < n + 1 →
        Over (fun u => Every children Exact u ∧ sizeOf u < n) v := by
      rintro v ⟨hv, hlt⟩
      refine ⟨hv.self, fun u hu => ⟨hv.part hu, ?_⟩⟩
      have := sizeOf_lt_of_mem_children hu
      omega
    have E := equivOn_over ih
    exact ⟨fun ha => E.refl (hover ha), fun ha hb => E.symm (hover ha) (hover hb),
      fun ha hb hc => E.trans (hover ha) (hover hb) (hover hc)⟩

/-- Equality is reflexive, symmetric and transitive between values with no double at any depth, no
element twice in any set, and no key twice in any map. -/
theorem beq_equivalence :
    Equivalence fun a b : { v : Value // Every children Exact v } => (a.1 == b.1) = true where
  refl a := (equivOn_below (sizeOf a.1 + 1)).refl ⟨a.2, Nat.lt_succ_self _⟩
  symm := by
    intro a b h
    refine (equivOn_below (max (sizeOf a.1) (sizeOf b.1) + 1)).symm ⟨a.2, ?_⟩ ⟨b.2, ?_⟩ h <;> omega
  trans := by
    intro a b c h h'
    refine (equivOn_below (max (sizeOf a.1) (max (sizeOf b.1) (sizeOf c.1)) + 1)).trans
      ⟨a.2, ?_⟩ ⟨b.2, ?_⟩ ⟨c.2, ?_⟩ h h' <;> omega

-- With an element twice in one of the sets it is not symmetric.
example : beq (set [int 1, int 1]) (set [int 1, int 2]) = true ∧
    beq (set [int 1, int 2]) (set [int 1, int 1]) = false := ⟨by cbv, by cbv⟩

end Value

end Sluice
