import Mathlib.Data.List.Nodup
import Mathlib.Data.List.Range
import Sluice.Proofs.Arena.Slots

/-! The scopes from one scope outward. A name is looked for along this chain, and where the chain
ends, so does the search. -/
namespace Sluice.Arena

variable {a : Arena} {s t : ScopeId} {l : List ScopeId}

/-- The scopes from `s` outward, up to one without a parent. -/
inductive Chain (a : Arena) : ScopeId → List ScopeId → Prop where
  | last {s : ScopeId} {sc : Scope} : a.scope? s = some sc → sc.parent = none → Chain a s [s]
  | under {s p : ScopeId} {sc : Scope} {l : List ScopeId} :
    a.scope? s = some sc → sc.parent = some p → Chain a p l → Chain a s (s :: l)

def bindingIn (a : Arena) (name : String) (s : ScopeId) : Option (ScopeId × Binding) :=
  (a.local? s name).map (s, ·)

theorem Chain.findFrom (h : a.Chain s l) (name : String) {fuel : Nat} (hfuel : l.length ≤ fuel) :
    a.findFrom name fuel s = l.findSome? (a.bindingIn name) := by
  induction h generalizing fuel with
  | @last s sc hs hp =>
    obtain ⟨n, rfl⟩ := Nat.exists_eq_add_of_le' hfuel
    rcases hv : sc.vars.get? name with _ | b <;>
      simp [Arena.findFrom, bindingIn, local?, hs, hp, hv]
  | @under s p sc l hs hp hl ih =>
    obtain ⟨n, rfl⟩ := Nat.exists_eq_add_of_le' (Nat.le_trans (Nat.le_add_left 1 l.length) hfuel)
    have hn : l.length ≤ n := Nat.le_of_succ_le_succ hfuel
    rcases hv : sc.vars.get? name with _ | b
    · simp [Arena.findFrom, bindingIn, local?, hs, hp, hv, ih hn]
    · simp [Arena.findFrom, bindingIn, local?, hs, hv]

theorem Chain.mem_self (h : a.Chain s l) : s ∈ l := by
  cases h <;> exact List.mem_cons_self

theorem Chain.isSome (h : a.Chain s l) : ∀ t ∈ l, (a.scope? t).isSome := by
  induction h with
  | last hs _ => simp [hs]
  | under hs _ _ ih => simpa [hs] using ih

theorem Chain.length_le (h : a.Chain s l) (hnd : l.Nodup) : l.length ≤ a.slots.size := by
  have hsub : l ⊆ List.range a.slots.size := by
    intro t ht
    obtain ⟨sc, hsc⟩ := Option.isSome_iff_exists.1 (h.isSome t ht)
    exact List.mem_range.2 (lt_size_of_scope? hsc)
  simpa using (hnd.subperm hsub).length_le

/-- A name is found in the first scope of the chain that binds it. -/
theorem Chain.find? (h : a.Chain s l) (hnd : l.Nodup) (name : String) :
    a.find? s name = l.findSome? (a.bindingIn name) :=
  h.findFrom name (h.length_le hnd)

/-! ### A new value for a name -/

/-- A name is found where it was, when its binding there is replaced. -/
theorem findFrom_define {name : String} {fuel : Nat} {owner : ScopeId} {b : Binding}
    (h : a.findFrom name fuel s = some (owner, b)) (b' : Binding) :
    (a.define owner name b').findFrom name fuel s = some (owner, b') := by
  induction fuel generalizing s with
  | zero => cases h
  | succ fuel ih =>
    rw [findFrom] at h ⊢
    rw [define, scope?_modify]
    cases hs : a.scope? s with
    | none =>
      rw [hs] at h
      cases h
    | some sc =>
      rw [hs] at h
      by_cases howner : owner = s
      · simp [howner]
      · rw [if_neg howner]
        cases hv : sc.vars.get? name with
        | some b₀ =>
          simp only [hv, Option.some.injEq, Prod.mk.injEq] at h
          exact absurd h.1.symm howner
        | none =>
          simp only [hv] at h ⊢
          cases hp : sc.parent with
          | none =>
            rw [hp] at h
            cases h
          | some p =>
            rw [hp] at h
            exact ih h

theorem assign_eq_ok {b : Arena} {name : String} {v : Value} (h : a.assign s name v = .ok b) :
    ∃ owner old, a.find? s name = some (owner, old) ∧
      b = a.define owner name { old with value := v } := by
  rw [assign] at h
  split at h
  next => cases h
  next owner old hfind =>
    split at h
    · cases h
    · cases h
      exact ⟨owner, old, hfind, rfl⟩

/-- Only a variable can be given a new value. -/
theorem isConst_of_assign {b : Arena} {name : String} {v : Value} {owner : ScopeId} {old : Binding}
    (h : a.assign s name v = .ok b) (hfind : a.find? s name = some (owner, old)) :
    old.isConst = false := by
  simp only [assign, hfind] at h
  split at h
  next => cases h
  next hvar => exact Bool.eq_false_iff.2 hvar

/-- After an assignment the name has the new value. -/
theorem lookup?_assign {b : Arena} {name : String} {v : Value} (h : a.assign s name v = .ok b) :
    b.lookup? s name = some v := by
  obtain ⟨owner, old, hfind, rfl⟩ := assign_eq_ok h
  have hsize : (a.define owner name { old with value := v }).slots.size = a.slots.size :=
    size_modify _ _ _
  rw [lookup?, find?, hsize, findFrom_define hfind]
  rfl

end Sluice.Arena
