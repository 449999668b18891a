import Sluice.Proofs.Arena.Reclamation
import Sluice.Proofs.Arena.Shape

/-! What an assignment reaches. A name is given its new value in the nearest scope that binds it, and
whoever finds that binding under that name finds the new value; all other bindings stay. -/
namespace Sluice

open Arena

namespace Arena

variable {a b : Arena} {s t owner : ScopeId} {l : List ScopeId} {name x : String} {old new : Binding}
  {v : Value}

def Nearest (a : Arena) (name : String) (l : List ScopeId) (owner : ScopeId) (b : Binding) : Prop :=
  ∃ l₁ l₂, l = l₁ ++ owner :: l₂ ∧ (∀ t ∈ l₁, a.local? t name = none) ∧ a.local? owner name = some b

theorem Nearest.local?_eq (h : a.Nearest name l owner old) : a.local? owner name = some old := by
  obtain ⟨-, -, -, -, hlocal⟩ := h
  exact hlocal

private theorem bindingIn_eq_none : a.bindingIn name t = none ↔ a.local? t name = none :=
  Option.map_eq_none_iff

private theorem bindingIn_eq_some :
    a.bindingIn name t = some (owner, old) ↔ t = owner ∧ a.local? t name = some old := by
  simp [bindingIn, and_left_comm]

theorem findSome?_bindingIn_eq_some :
    l.findSome? (a.bindingIn name) = some (owner, old) ↔ a.Nearest name l owner old := by
  rw [List.findSome?_eq_some_iff]
  constructor
  · rintro ⟨l₁, t, l₂, hl, ht, hnone⟩
    obtain ⟨rfl, hlocal⟩ := bindingIn_eq_some.1 ht
    exact ⟨l₁, l₂, hl, fun u hu => bindingIn_eq_none.1 (hnone u hu), hlocal⟩
  · rintro ⟨l₁, l₂, hl, hnone, hlocal⟩
    exact ⟨l₁, owner, l₂, hl, bindingIn_eq_some.2 ⟨rfl, hlocal⟩, fun u hu => bindingIn_eq_none.2 (hnone u hu)⟩

theorem findSome?_bindingIn_eq_none :
    l.findSome? (a.bindingIn name) = none ↔ ∀ t ∈ l, a.local? t name = none := by
  simp only [List.findSome?_eq_none_iff, bindingIn_eq_none]

/-! ### Another binding in place of one -/

/-- A search ends where it ended before, when a name is bound anew in a scope that binds it already. -/
theorem findFrom_define_bound (h : a.local? owner name = some old) (new : Binding) (x : String)
    (fuel : Nat) (t : ScopeId) :
    (a.define owner name new).findFrom x fuel t =
      (a.findFrom x fuel t).map fun r => if r.1 = owner ∧ x = name then (owner, new) else r := by
  induction fuel generalizing t with
  | zero => rfl
  | succ fuel ih =>
    cases ht : a.shape? t with
    | none =>
      have hgone : a.scope? t = none := by simpa [shape?] using ht
      simp [findFrom, define, hgone]
    | some sh =>
      have hdefine := shape?_define a owner t name new
      rw [ht] at hdefine
      rw [findFrom_of_shape? ht]
      by_cases htowner : owner = t
      · subst htowner
        rw [findFrom_of_shape? (hdefine.trans (if_pos rfl))]
        rw [local?_eq_bind, ht] at h
        by_cases hx : x = name
        · subst hx
          simp [Shape.insert, Table.get?_insert_self, show sh.vars.get? x = some old from h]
        · simp only [Shape.insert, Table.get?_insert_of_ne sh.vars new hx]
          cases sh.vars.get? x with
          | some b => simp [hx]
          | none => cases sh.parent <;> simp [ih]
      · rw [findFrom_of_shape? (hdefine.trans (if_neg htowner))]
        cases sh.vars.get? x with
        | some b => simp [Ne.symm htowner]
        | none => cases sh.parent <;> simp [ih]

theorem find?_define_bound (h : a.local? owner name = some old) (new : Binding) (t : ScopeId) (x : String) :
    (a.define owner name new).find? t x =
      (a.find? t x).map fun r => if r.1 = owner ∧ x = name then (owner, new) else r := by
  have hsize : (a.define owner name new).slots.size = a.slots.size := size_modify _ _ _
  rw [find?, find?, hsize, findFrom_define_bound h]

/-- What a name stands for, after another binding was put in place of one. -/
theorem lookup?_define_bound (h : a.local? owner name = some old) (new : Binding) (t : ScopeId) (x : String) :
    (a.define owner name new).lookup? t x =
      if x = name ∧ (a.find? t x).map Prod.fst = some owner then some new.value else a.lookup? t x := by
  rw [lookup?, lookup?, find?_define_bound h]
  rcases a.find? t x with _ | ⟨u, b⟩
  · simp
  · by_cases hu : u = owner ∧ x = name
    · simp [hu]
    · simp [hu, and_comm]

def flags (a : Arena) (t : ScopeId) (x : String) : Option (Bool × Bool) :=
  (a.local? t x).map fun b => (b.isConst, b.isPub)

theorem flags_define_value (h : a.local? owner name = some old) (v : Value) (t : ScopeId) (x : String) :
    (a.define owner name { old with value := v }).flags t x = a.flags t x := by
  by_cases hbound : t = owner ∧ x = name
  · obtain ⟨rfl, rfl⟩ := hbound
    rw [flags, flags, local?_define_self (isSome_of_local? h), h]
    rfl
  · rw [flags, flags, local?_define_of_ne _ (by tauto)]

/-! ### Assignments -/

theorem assign_eq_undefined_iff : a.assign s name v = .error .undefined ↔ a.find? s name = none := by
  rw [assign]
  rcases a.find? s name with _ | ⟨owner, old⟩
  · simp
  · cases hconst : old.isConst <;> simp [hconst]

theorem assign_eq_const_iff : a.assign s name v = .error .const ↔
    ∃ owner old, a.find? s name = some (owner, old) ∧ old.isConst = true := by
  rw [assign]
  rcases a.find? s name with _ | ⟨owner, old⟩
  · simp
  · cases hconst : old.isConst <;> simp [hconst]

theorem assign_of_variable (h : a.find? s name = some (owner, old)) (hvar : old.isConst = false) :
    a.assign s name v = .ok (a.define owner name { old with value := v }) := by
  simp [assign, h, hvar]

end Arena

namespace Session

/-- From every scope that is there the scopes outward are there, and none comes twice. -/
theorem Mirrors.chain {k c : Session} (h : Mirrors k c) {slot : ScopeId} (hslot : (c.arena.scope? slot).isSome) :
    ∃ l, c.arena.Chain slot l ∧ l.Nodup := by
  obtain ⟨s, hs, rfl⟩ := h.covered hslot
  obtain ⟨l, -, hchain, hl, hnodup⟩ := h.toImage.chain hs
  exact ⟨_, hchain, Image.nodup_map_slotOf hnodup fun t ht => (hl t ht).2⟩

/-- An assignment reaches exactly those who share the binding. Let `l` be the scopes from a scope that is
there outward. If none of them binds the name, or the first that does so has a constant, the assignment
fails and everything is as it was. Otherwise it succeeds, and then every name stands in every scope for what
it stood for, except the assigned one where it was found in that same scope: there it has the new value. What
is constant and what is public stays. -/
theorem assign_reaches_sharers {script : List Request} (h : ValidRun {} script) {c : Session}
    (hc : (run .reclaiming {} script).2 = c) {slot : ScopeId} (hslot : (c.arena.scope? slot).isSome)
    (name : String) (v : Value) :
    ∃ l, c.arena.Chain slot l ∧
      (c.arena.assign slot name v = .error .undefined ↔ ∀ t ∈ l, c.arena.local? t name = none) ∧
      (c.arena.assign slot name v = .error .const ↔
        ∃ owner old, c.arena.Nearest name l owner old ∧ old.isConst = true) ∧
      (∀ e s w, c.slotOf s = slot → w.rename c.slotOf = v → c.arena.assign slot name v = .error e →
        c.step .reclaiming (.assign s name w) = (.assigned (some e), c)) ∧
      ∀ owner old, c.arena.Nearest name l owner old → old.isConst = false →
        ∃ b, c.arena.assign slot name v = .ok b ∧
          (∀ t x, b.lookup? t x =
            if x = name ∧ (c.arena.find? t x).map Prod.fst = some owner then some v
            else c.arena.lookup? t x) ∧
          ∀ t x, b.flags t x = c.arena.flags t x := by
  subst hc
  obtain ⟨l, hchain, hnodup⟩ := (mirrors_empty.run h).2.chain hslot
  have hfind := hchain.find? hnodup name
  refine ⟨l, hchain, ?_, ?_, ?_, ?_⟩
  · rw [assign_eq_undefined_iff, hfind, findSome?_bindingIn_eq_none]
  · simp only [assign_eq_const_iff, hfind, findSome?_bindingIn_eq_some]
  · rintro e s w rfl rfl herror
    simp only [step, reply, herror]
    rfl
  · intro owner old hnearest hvar
    have hlocal := hnearest.local?_eq
    rw [← findSome?_bindingIn_eq_some, ← hfind] at hnearest
    exact ⟨_, assign_of_variable hnearest hvar, lookup?_define_bound hlocal _,
      flags_define_value hlocal v⟩

/-- A script after which slot 1 has its second scope, which sees the variable `x` of the scope outside, and
slot 2 has a scope with a constant `x` of its own. -/
def shadowScript : List Request :=
  [.push none, .push (some 0), .release 1 .plain, .push (some 0), .push (some 0),
    .define 0 "x" { value := .int 1 }, .define 3 "x" { value := .int 2, isConst := true }]

theorem validRun_shadowScript : ValidRun {} shadowScript := by
  have hopen {c : Session} (h : 0 ∈ c.running) : ∀ p, some 0 = some p → c.Reaches p := by
    rintro p ⟨⟩
    exact .running h
  refine ⟨nofun, hopen (by decide), .running (by decide), hopen (by decide), hopen (by decide),
    ⟨.running (by decide), ?_⟩, ⟨.running (by decide), ?_⟩, trivial⟩
  · intro f hf
    cases hf
  · intro f hf
    cases hf

theorem shadowScript_assign : ValidRun {} shadowScript ∧
    ∃ b, (run .reclaiming {} shadowScript).2.arena.assign 1 "x" (.int 5) = .ok b ∧
      b.lookup? 0 "x" = some (.int 5) ∧ b.lookup? 1 "x" = some (.int 5) ∧
      b.lookup? 2 "x" = some (.int 2) := by
  refine ⟨validRun_shadowScript, ?_⟩
  have hslot : ((run .reclaiming {} shadowScript).2.arena.scope? 1).isSome := by decide
  obtain ⟨l, hchain, -, -, -, hassign⟩ :=
    assign_reaches_sharers validRun_shadowScript rfl hslot "x" (.int 5)
  have hnearest : (run .reclaiming {} shadowScript).2.arena.Nearest "x" l 0 { value := .int 1 } := by
    cases hchain with
    | last hs hp =>
      cases hs
      cases hp
    | under hs hp hl =>
      cases hs
      cases hp
      cases hl with
      | last hs hp => exact ⟨[1], [], rfl, by decide, rfl⟩
      | under hs hp hl =>
        cases hs
        cases hp
  obtain ⟨b, hb, hlookup, -⟩ := hassign 0 _ hnearest rfl
  refine ⟨b, hb, ?_, ?_, ?_⟩ <;> rw [hlookup] <;> rfl

end Session

end Sluice
