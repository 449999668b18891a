import Sluice.Proofs.Arena.Chain
import Sluice.Proofs.Eval.Alive

/-! How far a name is seen. From a scope one sees a name in that scope and in those around it, up to the
first that binds it; while a program runs, names are added to scopes and one sees less far. -/
namespace Sluice.Arena

variable {a b d : Arena} {s t p owner : ScopeId} {x name : String} {E E' : ScopeId → Prop}

/-- No scope from `s` up to `t`, which may bind it, binds the name. -/
inductive Sees (a : Arena) (x : String) : ScopeId → ScopeId → Prop where
  | here (s : ScopeId) : Sees a x s s
  | up {s p t : ScopeId} : a.local? s x = none → a.parent? s = some p → Sees a x p t → Sees a x s t

def Fixed (a : Arena) (s : ScopeId) (x : String) : Prop :=
  ∃ v, a.local? s x = some v ∧ v.isConst = true

def flag? (a : Arena) (s : ScopeId) (x : String) : Option Bool := (a.local? s x).map (·.isConst)

theorem fixed_iff_flag? : a.Fixed s x ↔ a.flag? s x = some true := by
  rw [flag?, Option.map_eq_some_iff]
  rfl

theorem flag?_eq_none : a.flag? s x = none ↔ a.local? s x = none := Option.map_eq_none_iff

theorem findFrom_succ (a : Arena) (x : String) (fuel : Nat) (s : ScopeId) :
    a.findFrom x (fuel + 1) s = match a.local? s x with
      | some v => some (s, v)
      | none => (a.parent? s).bind (a.findFrom x fuel) := by
  rw [findFrom, local?, parent?]
  cases a.scope? s with
  | none => rfl
  | some sc =>
    dsimp only [Option.bind_some]
    cases sc.vars.get? x with
    | some v => rfl
    | none => cases sc.parent <;> rfl

/-- Where a name is found, it is seen. -/
theorem sees_of_findFrom {fuel : Nat} {v : Binding} (h : a.findFrom x fuel s = some (owner, v)) :
    a.Sees x s owner := by
  induction fuel generalizing s with
  | zero => cases h
  | succ fuel ih =>
    rw [findFrom_succ] at h
    split at h
    next =>
      cases h
      exact .here _
    next hnone =>
      obtain ⟨p, hp, hfind⟩ := Option.bind_eq_some_iff.1 h
      exact .up hnone hp (ih hfind)

theorem Sees.rooted (h : a.Sees x s t) (hs : a.Rooted s) : a.Rooted t := by
  induction h with
  | here => exact hs
  | up _ hp _ ih => exact ih (.parent hs hp)

/-! ### Names are added -/

/-- What is rooted has all names that it had, and outside of `E` no others and the same constants. -/
structure Grows (E : ScopeId → Prop) (a b : Arena) : Prop where
  steady : Steady a b
  bound : ∀ s x, a.Rooted s → b.local? s x = none → a.local? s x = none
  flag : ∀ s x, a.Rooted s → ¬ E s → b.flag? s x = a.flag? s x

namespace Grows

theorem of_flag (hsteady : Steady a b) (hflag : ∀ s x, a.Rooted s → b.flag? s x = a.flag? s x) :
    Grows E a b where
  steady := hsteady
  bound s x hs hnone := flag?_eq_none.1 ((hflag s x hs).symm.trans (flag?_eq_none.2 hnone))
  flag s x hs _ := hflag s x hs

theorem refl (a : Arena) : Grows E a a := of_flag (.refl a) fun _ _ _ => rfl

theorem mono (h : Grows E a b) (hE : ∀ s, E s → E' s) : Grows E' a b :=
  ⟨h.steady, h.bound, fun s x hs hs' => h.flag s x hs fun hs'' => hs' (hE s hs'')⟩

theorem trans (h : Grows E a b) (h' : Grows E b d) : Grows E a d where
  steady := h.steady.trans h'.steady
  bound s x hs hnone := h.bound s x hs (h'.bound s x (h.steady.rooted hs) hnone)
  flag s x hs hE := (h'.flag s x (h.steady.rooted hs) hE).trans (h.flag s x hs hE)

/-- One saw at least as far before. -/
theorem sees (h : Grows E a b) (hs : a.Rooted s) (hsees : b.Sees x s t) : a.Sees x s t := by
  induction hsees with
  | here => exact .here _
  | @up s p t hnone hp _ ih =>
    have hp' : a.parent? s = some p := (h.steady.parent s hs).symm.trans hp
    exact .up (h.bound s x hs hnone) hp' (ih (.parent hs hp'))

theorem fixed (h : Grows E a b) (hs : a.Rooted s) (hE : ¬ E s) (hfixed : b.Fixed s x) : a.Fixed s x :=
  fixed_iff_flag?.2 ((h.flag s x hs hE).symm.trans (fixed_iff_flag?.1 hfixed))

/-- A name is found where it was, as a constant if it was one. -/
theorem findFrom (h : Grows (fun _ => False) a b) (hs : a.Rooted s) {fuel fuel' : Nat}
    (hfuel : fuel ≤ fuel') {v : Binding} (hfind : a.findFrom x fuel s = some (owner, v)) :
    ∃ v', b.findFrom x fuel' s = some (owner, v') ∧ v'.isConst = v.isConst := by
  induction fuel generalizing s fuel' with
  | zero => cases hfind
  | succ fuel ih =>
    obtain ⟨n, rfl⟩ := Nat.exists_eq_add_of_le' (Nat.le_trans (Nat.le_add_left 1 fuel) hfuel)
    have hflag := h.flag s x hs id
    rw [findFrom_succ] at hfind ⊢
    split at hfind
    next v₀ hv₀ =>
      obtain ⟨rfl, rfl⟩ := Prod.mk.inj (Option.some.inj hfind)
      have hsome : b.flag? s x = some v₀.isConst := by
        rw [hflag, flag?, hv₀]
        rfl
      obtain ⟨v', hv', hconst⟩ := Option.map_eq_some_iff.1 hsome
      rw [hv']
      exact ⟨v', rfl, hconst⟩
    next hnone =>
      have hnone' : b.local? s x = none := flag?_eq_none.1 (hflag.trans (flag?_eq_none.2 hnone))
      obtain ⟨p, hp, hfind⟩ := Option.bind_eq_some_iff.1 hfind
      rw [hnone', h.steady.parent s hs, hp]
      exact ih (.parent hs hp) (Nat.le_of_succ_le_succ hfuel) hfind

theorem find? (h : Grows (fun _ => False) a b) (hs : a.Rooted s) {v : Binding}
    (hfind : a.find? s x = some (owner, v)) :
    ∃ v', b.find? s x = some (owner, v') ∧ v'.isConst = v.isConst :=
  h.findFrom hs h.steady.size hfind

end Grows

/-- A binding makes its own name constant, or none. -/
theorem fixed_define {v : Binding} (h : (a.define s name v).Fixed t x) :
    t = s ∧ x = name ∧ v.isConst = true ∨ ¬ (t = s ∧ x = name) ∧ a.Fixed t x := by
  by_cases hsame : t = s ∧ x = name
  · obtain ⟨rfl, rfl⟩ := hsame
    obtain ⟨b, hb, hconst⟩ := h
    have hopen : (a.scope? t).isSome := by simpa [define] using isSome_of_local? hb
    rw [local?_define_self hopen] at hb
    cases hb
    exact .inl ⟨rfl, rfl, hconst⟩
  · rw [Fixed, local?_define_of_ne v (Classical.not_and_iff_not_or_not.1 hsame)] at h
    exact .inr ⟨hsame, h⟩

theorem grows_define (a : Arena) (s : ScopeId) (name : String) (v : Binding) :
    Grows (· = s) a (a.define s name v) where
  steady := steady_define a s name v
  bound t x ht hnone := by
    by_cases hsame : t = s ∧ x = name
    · obtain ⟨rfl, rfl⟩ := hsame
      cases hb : a.local? t x with
      | none => rfl
      | some b =>
        rw [local?_define_self (isSome_of_local? hb)] at hnone
        cases hnone
    · rwa [local?_define_of_ne v (Classical.not_and_iff_not_or_not.1 hsame)] at hnone
  flag t x _ ht := by rw [flag?, local?_define_of_ne v (.inl ht), flag?]

/-- A new value for a variable changes no names. -/
theorem flag?_assign {v : Value} (h : a.assign s x v = .ok b) (t : ScopeId) (y : String) :
    b.flag? t y = a.flag? t y := by
  obtain ⟨owner, old, hfind, rfl⟩ := assign_eq_ok h
  by_cases hsame : t = owner ∧ y = x
  · obtain ⟨rfl, rfl⟩ := hsame
    have hold : a.local? t y = some old := local?_of_findFrom hfind
    rw [flag?, local?_define_self (isSome_of_local? hold), flag?, hold]
    rfl
  · rw [flag?, local?_define_of_ne _ (Classical.not_and_iff_not_or_not.1 hsame), flag?]

theorem grows_assign {v : Value} (h : a.assign s x v = .ok b) : Grows E a b := by
  refine .of_flag ?_ fun t y _ => flag?_assign h t y
  obtain ⟨owner, old, -, rfl⟩ := assign_eq_ok h
  exact steady_define _ _ _ _

end Sluice.Arena

namespace Sluice.Machine

open Arena

variable {known : List Closure} {m : Machine} {s t : ScopeId} {x : String}

theorem grows_defineAll (m : Machine) (bs : List (String × Value)) :
    Grows (· = m.current) m.arena (m.defineAll bs).arena := by
  induction bs generalizing m with
  | nil => exact .refl _
  | cons b bs ih => exact (grows_define m.arena m.current b.1 _).trans (ih (m.define b.1 b.2))

theorem fixed_defineAll {bs : List (String × Value)} (h : (m.defineAll bs).arena.Fixed t x) :
    m.arena.Fixed t x := by
  induction bs generalizing m with
  | nil => exact h
  | cons b bs ih =>
    rcases fixed_define (ih (m := m.define b.1 b.2) h) with ⟨-, -, hconst⟩ | ⟨-, hfixed⟩
    · cases hconst
    · exact hfixed

theorem parent?_defineAll (m : Machine) (bs : List (String × Value)) (t : ScopeId) :
    (m.defineAll bs).arena.parent? t = m.arena.parent? t := by
  induction bs generalizing m with
  | nil => rfl
  | cons b bs ih => exact (ih (m.define b.1 b.2)).trans (parent?_define ..)

/-- What is seen after the end of a block was seen before. -/
theorem sees_of_exit {scope saved : ScopeId} (h : (m.exit scope saved).arena.Sees x s t) :
    m.arena.Sees x s t := by
  induction h with
  | here => exact .here _
  | @up s p t hnone hp _ ih =>
    obtain ⟨sc, hsc, -⟩ := parent?_eq_some.1 hp
    obtain ⟨hlocal, hparent⟩ := exit_of_isSome m scope saved (Option.isSome_iff_exists.2 ⟨sc, hsc⟩)
    exact .up ((congrFun hlocal x).symm.trans hnone) (hparent.symm.trans hp) ih

end Sluice.Machine
