import Mathlib.Data.List.Induction
import Sluice.Adt
import Sluice.Proofs.Typeclass.History

/-! What the index of variants says after any declarations. A name belongs to the latest declaration that
has a variant of that name, as long as this declaration is in force. When it is replaced by one without the
variant, the name belongs to no enum any more, even if another one in force has such a variant. -/
namespace Sluice

namespace Adt

def Has (a : Adt) (v : String) : Prop := v ∈ a.variants.map (·.name)

instance (a : Adt) (v : String) : Decidable (a.Has v) :=
  inferInstanceAs (Decidable (v ∈ a.variants.map (·.name)))

theorem has_iff_exists {a : Adt} {v : String} : a.Has v ↔ ∃ x, a.variant? v = some x := by
  rw [← Option.isSome_iff_exists, variant?, List.find?_isSome, Has, List.mem_map]
  simp

/-! ### Declarations in order, the latest one first -/

/-- The declaration in force for a name. -/
def inForce? (decls : List Adt) (name : String) : Option Adt := decls.find? (·.name = name)

def InForce (decls : List Adt) (a : Adt) : Prop := inForce? decls a.name = some a

instance (decls : List Adt) (a : Adt) : Decidable (InForce decls a) :=
  inferInstanceAs (Decidable (inForce? decls a.name = some a))

/-- The latest declaration, in force or not, that has a variant of this name. -/
def latest? (decls : List Adt) (v : String) : Option Adt := decls.find? (·.Has v)

def latestInForce? (decls : List Adt) (v : String) : Option Adt :=
  decls.find? fun a => a.Has v ∧ InForce decls a

theorem name_of_inForce? {decls : List Adt} {name : String} {a : Adt}
    (h : inForce? decls name = some a) : a.name = name := by
  simpa using List.find?_some h

theorem inForce?_cons (a : Adt) (decls : List Adt) (name : String) :
    inForce? (a :: decls) name = if name = a.name then some a else inForce? decls name := by
  rw [inForce?, List.find?_cons, inForce?]
  by_cases h : name = a.name
  · simp [h]
  · simp [h, Ne.symm h]

theorem latest?_cons (a : Adt) (decls : List Adt) (v : String) :
    latest? (a :: decls) v = if a.Has v then some a else latest? decls v := by
  rw [latest?, List.find?_cons, latest?]
  by_cases h : a.Has v <;> simp [h]

theorem has_of_latest? {decls : List Adt} {v : String} {a : Adt} (h : latest? decls v = some a) :
    a.Has v := by
  simpa using List.find?_some h

/-- The latest declaration that has a variant is the latest one in force that has it, or is replaced. -/
theorem latestInForce?_of_inForce {decls : List Adt} {v : String} {a : Adt}
    (ha : latest? decls v = some a) (hforce : InForce decls a) : latestInForce? decls v = some a := by
  obtain ⟨hhas, before, after, rfl, hbefore⟩ := List.find?_eq_some_iff_append.1 ha
  refine List.find?_eq_some_iff_append.2 ⟨?_, before, after, rfl, fun b hb => ?_⟩
  · simpa [hforce] using hhas
  · have hb := hbefore b hb
    simp_all

theorem latestInForce?_eq_none {decls : List Adt} {v : String} (h : latest? decls v = none) :
    latestInForce? decls v = none := by
  rw [latest?, List.find?_eq_none] at h
  rw [latestInForce?, List.find?_eq_none]
  intro a ha
  have hv := h a ha
  simp_all

end Adt

namespace AdtTable

/-- The table after declarations, of which the latest one comes first. -/
def ofDecls (decls : List Adt) : AdtTable := decls.foldr (fun a t => t.declare a) {}

def owner? (decls : List Adt) (v : String) : Option String :=
  (Adt.latest? decls v).bind fun a => if Adt.InForce decls a then some a.name else none

theorem owner?_eq_some_iff {decls : List Adt} {v name : String} : owner? decls v = some name ↔
    ∃ a, Adt.latest? decls v = some a ∧ Adt.InForce decls a ∧ a.name = name := by
  simp only [owner?, Option.bind_eq_some_iff, Option.ite_none_right_eq_some, Option.some.injEq]

theorem get?_disown (owners : Table String String) (old : Adt) (v : String) :
    (disown owners old).get? v =
      if old.Has v ∧ owners.get? v = some old.name then none else owners.get? v := by
  have hfold (variants : List Variant) (owners : Table String String) :
      (variants.foldl (fun o x => if o.get? x.name = some old.name then o.erase x.name else o)
        owners).get? v =
      if v ∈ variants.map (·.name) ∧ owners.get? v = some old.name then none else owners.get? v := by
    induction variants generalizing owners with
    | nil => simp
    | cons x variants ih =>
      rw [List.foldl_cons, ih]
      by_cases howner : owners.get? x.name = some old.name
      · rw [if_pos howner, Table.get?_erase]
        by_cases hx : v = x.name
        · simp [hx, howner]
        · simp [hx]
      · rw [if_neg howner]
        by_cases hx : v = x.name
        · simp [hx, howner]
        · simp [hx]
  exact hfold old.variants owners

theorem get?_foldl_insert (variants : List Variant) (name : String) (owners : Table String String)
    (v : String) :
    (variants.foldl (fun o x => o.insert x.name name) owners).get? v =
      if v ∈ variants.map (·.name) then some name else owners.get? v := by
  induction variants generalizing owners with
  | nil => rfl
  | cons x variants ih =>
    rw [List.foldl_cons, ih, Table.get?_insert, List.map_cons]
    by_cases hv : v ∈ variants.map (·.name)
    · rw [if_pos hv, if_pos (List.mem_cons_of_mem _ hv)]
    · by_cases hx : v = x.name <;> simp [hv, hx]

structure Follows (t : AdtTable) (decls : List Adt) : Prop where
  adts : ∀ name, t.adts.get? name = Adt.inForce? decls name
  owners : ∀ v, t.owners.get? v = owner? decls v

/-- A declaration without the variant takes the name from the declaration that it replaces, and from no
other one. -/
theorem owner?_cons_of_not_has {a : Adt} {decls : List Adt} {v : String} (ha : ¬ a.Has v) :
    owner? (a :: decls) v =
      if ∃ old, Adt.inForce? decls a.name = some old ∧ old.Has v ∧ owner? decls v = some old.name then none
      else owner? decls v := by
  rw [owner?, owner?, Adt.latest?_cons, if_neg ha]
  cases hlatest : Adt.latest? decls v with
  | none => simp
  | some b =>
    have hb := Adt.has_of_latest? hlatest
    have hne : b ≠ a := by
      rintro rfl
      exact ha hb
    by_cases hname : b.name = a.name
    · have hforce : Adt.InForce (a :: decls) b ↔ False := by
        rw [Adt.InForce, Adt.inForce?_cons, if_pos hname]
        simpa using hne.symm
      by_cases hold : Adt.InForce decls b
      · have hreplaced : ∃ old, Adt.inForce? decls a.name = some old ∧ old.Has v ∧
            b.name = old.name := ⟨b, hname ▸ hold, hb, rfl⟩
        simpa [hforce, hold] using hreplaced
      · simp [hforce, hold]
    · have hforce : Adt.InForce (a :: decls) b ↔ Adt.InForce decls b := by
        rw [Adt.InForce, Adt.inForce?_cons, if_neg hname, Adt.InForce]
      have hkept : ¬ ∃ old, Adt.inForce? decls a.name = some old ∧ old.Has v ∧ b.name = old.name := by
        rintro ⟨old, hold, -, heq⟩
        exact hname (heq.trans (Adt.name_of_inForce? hold))
      by_cases hold : Adt.InForce decls b
      · simpa [hforce, hold] using hkept
      · simp [hforce, hold]

theorem Follows.declare {t : AdtTable} {decls : List Adt} (ht : t.Follows decls) (a : Adt) :
    (t.declare a).Follows (a :: decls) where
  adts name := by
    rw [AdtTable.declare, Table.get?_insert, Adt.inForce?_cons, ht.adts]
  owners v := by
    rw [AdtTable.declare]
    dsimp only
    rw [get?_foldl_insert]
    change (if a.Has v then _ else _) = _
    by_cases ha : a.Has v
    · have hforce : Adt.InForce (a :: decls) a := by
        rw [Adt.InForce, Adt.inForce?_cons, if_pos rfl]
      rw [if_pos ha, owner?, Adt.latest?_cons, if_pos ha]
      simp [hforce]
    · rw [if_neg ha, owner?_cons_of_not_has ha, ht.adts]
      cases hold : Adt.inForce? decls a.name with
      | none => simp [ht.owners]
      | some old => simp [get?_disown, ht.owners]

theorem follows_ofDecls (decls : List Adt) : (ofDecls decls).Follows decls := by
  induction decls with
  | nil => exact ⟨fun _ => rfl, fun _ => rfl⟩
  | cons a decls ih => exact ih.declare a

theorem variant?_eq_some_iff {decls : List Adt} {v : String} {a : Adt} {x : Variant} :
    (ofDecls decls).variant? v = some (a, x) ↔
      Adt.latest? decls v = some a ∧ Adt.InForce decls a ∧ a.variant? v = some x := by
  have ht := follows_ofDecls decls
  simp only [variant?, ht.adts, ht.owners, Option.pure_def, Option.bind_eq_bind, Option.bind_eq_some_iff,
    owner?_eq_some_iff, Option.some.injEq, Prod.mk.injEq]
  constructor
  · rintro ⟨_, ⟨b, hlatest, hforce, rfl⟩, b', hb', y, hy, rfl, rfl⟩
    obtain rfl : b = b' := Option.some.inj (hforce.symm.trans hb')
    exact ⟨hlatest, hforce, hy⟩
  · rintro ⟨hlatest, hforce, hx⟩
    exact ⟨a.name, ⟨a, hlatest, hforce, rfl⟩, a, hforce, x, hx, rfl, rfl⟩

theorem variant?_eq_none {decls : List Adt} {v : String}
    (h : ∀ a, Adt.latest? decls v = some a → ¬ Adt.InForce decls a) : (ofDecls decls).variant? v = none := by
  refine Option.eq_none_iff_forall_ne_some.2 fun p hp => ?_
  obtain ⟨hlatest, hforce, -⟩ := variant?_eq_some_iff.1 hp
  exact h p.1 hlatest hforce

/-- What the index says after any declarations, the latest one first: a variant is found exactly when the
latest declaration that has one of that name is in force, and then it is that one. So the index gives the
latest enum in force that has the variant, unless the latest declaration of all that had it was replaced:
then it gives none. -/
theorem variant?_iff_latest_in_force (decls : List Adt) (v : String) :
    (∀ a x, (ofDecls decls).variant? v = some (a, x) ↔
      Adt.latest? decls v = some a ∧ Adt.InForce decls a ∧ a.variant? v = some x) ∧
    (((ofDecls decls).variant? v).map (·.1) = Adt.latestInForce? decls v ↔
      (∀ a, Adt.latest? decls v = some a → Adt.InForce decls a) ∨ Adt.latestInForce? decls v = none) := by
  refine ⟨fun a x => variant?_eq_some_iff, ?_⟩
  cases hlatest : Adt.latest? decls v with
  | none =>
    rw [variant?_eq_none (by simp [hlatest]), Adt.latestInForce?_eq_none hlatest]
    simp
  | some a =>
    by_cases hforce : Adt.InForce decls a
    · obtain ⟨x, hx⟩ := Adt.has_iff_exists.1 (Adt.has_of_latest? hlatest)
      rw [variant?_eq_some_iff.2 ⟨hlatest, hforce, hx⟩, Adt.latestInForce?_of_inForce hlatest hforce]
      simp [hforce]
    · rw [variant?_eq_none (by simpa [hlatest] using hforce)]
      simpa [hforce] using eq_comm

/-- Two enums have a variant `Red`. The second one is declared again without it, and the first one loses
it as well. -/
example : let lamp : Adt := ⟨"Lamp", .enum [⟨"Red", none⟩], []⟩
    let decls := [⟨"Flag", .enum [⟨"Blue", none⟩], []⟩, ⟨"Flag", .enum [⟨"Red", none⟩], []⟩, lamp]
    (ofDecls decls).variant? "Red" = none ∧ Adt.latestInForce? decls "Red" = some lamp := by
  decide +kernel

end AdtTable

end Sluice
