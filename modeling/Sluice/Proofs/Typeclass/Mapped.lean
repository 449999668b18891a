import Sluice.Typeclass

/-! Registries whose methods are replaced by others. A registry does not look at what its methods are. -/
namespace Sluice

namespace Table

variable {κ : Type} {α β : Type} [DecidableEq κ]

def mapValues (φ : α → β) (t : Table κ α) : Table κ β := t.map fun e => (e.1, φ e.2)

theorem get?_mapValues (φ : α → β) (t : Table κ α) (k : κ) :
    (t.mapValues φ).get? k = (t.get? k).map φ := get?_map t φ k

theorem insert_mapValues (φ : α → β) (t : Table κ α) (k : κ) (a : α) :
    (t.mapValues φ).insert k (φ a) = (t.insert k a).mapValues φ := insert_map t φ k a

theorem contains_mapValues (φ : α → β) (t : Table κ α) (k : κ) :
    (t.mapValues φ).contains k = t.contains k := by
  rw [contains, contains, get?_mapValues, Option.isSome_map]

omit [DecidableEq κ] in
theorem mapValues_congr {φ ψ : α → β} {t : Table κ α} (h : ∀ e ∈ t, φ e.2 = ψ e.2) :
    t.mapValues φ = t.mapValues ψ :=
  List.map_congr_left fun e he => congrArg (Prod.mk e.1) (h e he)

omit [DecidableEq κ] in
theorem mapValues_eq_self {φ : α → α} {t : Table κ α} (h : ∀ e ∈ t, φ e.2 = e.2) : t.mapValues φ = t :=
  (List.map_congr_left fun e he => congrArg (Prod.mk e.1) (h e he)).trans (List.map_id t)

end Table

namespace Registry

variable {F G : Type} {r : Registry F} {φ ψ : F → G}

def map (φ : F → G) (r : Registry F) : Registry G where
  classes := r.classes
  impls := r.impls.mapValues (·.mapValues φ)
  defaults := r.defaults.mapValues (·.mapValues φ)
  owners := r.owners
  adts := r.adts

theorem map_congr (himpls : ∀ e ∈ r.impls, ∀ f ∈ e.2, φ f.2 = ψ f.2)
    (hdefaults : ∀ e ∈ r.defaults, ∀ f ∈ e.2, φ f.2 = ψ f.2) : r.map φ = r.map ψ := by
  rw [map, map, Table.mapValues_congr fun e he => Table.mapValues_congr (himpls e he),
    Table.mapValues_congr fun e he => Table.mapValues_congr (hdefaults e he)]

theorem map_eq_self {φ : F → F} (himpls : ∀ e ∈ r.impls, ∀ f ∈ e.2, φ f.2 = f.2)
    (hdefaults : ∀ e ∈ r.defaults, ∀ f ∈ e.2, φ f.2 = f.2) : r.map φ = r := by
  rw [map, Table.mapValues_eq_self fun e he => Table.mapValues_eq_self (himpls e he),
    Table.mapValues_eq_self fun e he => Table.mapValues_eq_self (hdefaults e he)]

theorem supplied?_map (φ : F → G) (r : Registry F) (typeclass type method : String) :
    (r.map φ).supplied? typeclass type method = (r.supplied? typeclass type method).map φ := by
  have hfind : ∀ t : Option (Table String F), (t.map (·.mapValues φ)).bind (·.get? method) =
      (t.bind (·.get? method)).map φ := by
    intro t
    cases t with
    | none => rfl
    | some t => exact t.get?_mapValues φ method
  rw [supplied?, supplied?, map, Table.get?_mapValues, Table.get?_mapValues, hfind, hfind]
  cases (r.impls.get? (typeclass, type)).bind (·.get? method) <;> rfl

theorem implFor?_map (φ : F → G) (r : Registry F) (method type : String) :
    (r.map φ).implFor? method type = (r.implFor? method type).map φ := by
  show (r.owners.get? method).bind _ = ((r.owners.get? method).bind _).map φ
  cases r.owners.get? method with
  | none => rfl
  | some owner => exact supplied?_map φ r owner type method

theorem addClass_map (φ : F → G) (r : Registry F) (c : Typeclass) :
    (r.map φ).addClass c = (r.addClass c).map (map φ) := by
  have hconflict : (r.map φ).conflict? c = r.conflict? c := rfl
  rw [addClass, addClass, hconflict, map]
  cases c.derives.find? fun d => !r.classes.contains d && d ≠ c.name with
  | some d => rfl
  | none =>
    cases r.conflict? c with
    | some e => rfl
    | none => rfl

theorem methodTable_map (φ : F → G) (c : Typeclass) (typeclass : String) (table : Table String F)
    (methods : List (String × Nat × F)) :
    methodTable c typeclass (table.mapValues φ) (methods.map fun m => (m.1, m.2.1, φ m.2.2)) =
      (methodTable c typeclass table methods).map (Table.mapValues φ) := by
  induction methods generalizing table with
  | nil => rfl
  | cons m rest ih =>
    obtain ⟨name, arity, f⟩ := m
    rw [List.map_cons, methodTable, methodTable]
    cases c.method? name with
    | none => rfl
    | some m =>
      dsimp only
      rw [Table.contains_mapValues, Table.insert_mapValues, ih]
      split
      · rfl
      · split <;> rfl

theorem addImpl_map (φ : F → G) (r : Registry F) (typeclass : String) (type : Option String)
    (methods : List (String × Nat × F)) :
    (r.map φ).addImpl typeclass type (methods.map fun m => (m.1, m.2.1, φ m.2.2)) =
      (r.addImpl typeclass type methods).map (map φ) := by
  rw [addImpl, addImpl, map]
  cases r.classes.get? (canonicalType typeclass) with
  | none => rfl
  | some c =>
    have htable := methodTable_map φ c (canonicalType typeclass) [] methods
    dsimp only
    rw [show ([] : Table String G) = Table.mapValues φ [] from rfl, htable]
    cases methodTable c (canonicalType typeclass) [] methods with
    | error e => rfl
    | ok table =>
      cases type with
      | none =>
        exact congrArg (fun d => Except.ok { r.map φ with defaults := d })
          (Table.insert_mapValues _ r.defaults _ table)
      | some t =>
        exact congrArg (fun i => Except.ok { r.map φ with impls := i })
          (Table.insert_mapValues _ r.impls _ table)

theorem missingMethod?_map (φ : F → G) (r : Registry F) (type : String) (c : Typeclass) (name : String) :
    (r.map φ).missingMethod? type c name = r.missingMethod? type c name := by
  simp only [missingMethod?, supplied?_map, Option.isNone_map]

theorem checkFrom_map (φ : F → G) (r : Registry F) (type : String) (seen pending : List String) :
    (r.map φ).checkFrom type seen pending = r.checkFrom type seen pending := by
  have hclasses : (r.map φ).classes = r.classes := rfl
  fun_induction r.checkFrom type seen pending with
  | case1 => rw [checkFrom]
  | case2 seen name rest hs ih => rw [checkFrom, dif_pos hs, ih]
  | _ =>
    rw [checkFrom, dif_neg ‹_›]
    split <;> simp_all [missingMethod?_map]

theorem checkDerives_map (φ : F → G) (r : Registry F) (type : String) (derives : List String) :
    (r.map φ).checkDerives type derives = r.checkDerives type derives :=
  checkFrom_map φ r type [] derives.reverse

end Registry

end Sluice
