import Sluice.Proofs.Arena.Holds

/-! Which scopes can be reached, and what it takes to free the others. A scope that nothing holds is
garbage, and so is each ancestor of which it was the last holder. -/
namespace Sluice.Arena

variable {a b d : Arena} {outside : List Value} {s t : ScopeId} {sc : Scope} {gone gone' : ScopeId → Prop}

/-- The scopes that can be reached: those whose block is running or on which there is a handle, those
in which the functions held outside were made, and those to which one of these has a link. -/
inductive Reaches (a : Arena) (outside : List Value) : ScopeId → Prop where
  | running {s : ScopeId} {sc : Scope} : a.scope? s = some sc → sc.isOpen = true → Reaches a outside s
  | handle {s : ScopeId} {sc : Scope} : a.scope? s = some sc → 0 < sc.handles → Reaches a outside s
  | value {v : Value} {s : ScopeId} : v ∈ outside → s ∈ v.scopes → Reaches a outside s
  | link {s t : ScopeId} {sc : Scope} :
    Reaches a outside s → a.scope? s = some sc → t ∈ sc.links → Reaches a outside t

/-- Slots to which no link leads from elsewhere, with scopes whose blocks have ended. -/
structure Garbage (a : Arena) (outside : List Value) (gone : ScopeId → Prop) : Prop where
  closed : ∀ {s sc}, gone s → a.scope? s = some sc → sc.isOpen = false ∧ sc.handles = 0
  value : ∀ {v t}, v ∈ outside → t ∈ v.scopes → ¬ gone t
  link : ∀ {s t sc}, a.scope? s = some sc → ¬ gone s → t ∈ sc.links → ¬ gone t

theorem Garbage.not_gone (h : a.Garbage outside gone) (ht : a.Reaches outside t) : ¬ gone t := by
  induction ht with
  | running hs hopen =>
    intro hg
    rw [(h.closed hg hs).1] at hopen
    exact Bool.false_ne_true hopen
  | handle hs hpos =>
    intro hg
    exact (Nat.ne_of_gt hpos) (h.closed hg hs).2
  | value hv hs => exact h.value hv hs
  | link _ hs ht ih => exact h.link hs ih ht

/-- All that cannot be reached is garbage. -/
theorem garbage_unreached (a : Arena) (outside : List Value) :
    a.Garbage outside fun s => (a.scope? s).isSome ∧ ¬ a.Reaches outside s where
  closed := by
    rintro s sc ⟨-, hs⟩ hsc
    refine ⟨Bool.eq_false_iff.2 fun hopen => hs (.running hsc hopen), ?_⟩
    exact Nat.eq_zero_of_not_pos fun hpos => hs (.handle hsc hpos)
  value := fun hv ht hg => hg.2 (.value hv ht)
  link := by
    intro s t sc hsc hs ht hg
    exact hg.2 (.link (not_not.1 fun hn => hs ⟨by simp [hsc], hn⟩) hsc ht)

/-- A closed scope that nothing holds is garbage by itself. -/
theorem Linked.garbage_of_not_held (h : a.Linked outside) (hs : a.scope? s = some sc)
    (hclosed : sc.isOpen = false) (hheld : a.isHeld outside s sc = false) :
    a.Garbage outside (· = s) := by
  rw [← Bool.not_eq_true, h.isHeld_iff hs] at hheld
  push Not at hheld
  obtain ⟨hhandles, hchildren, hfns⟩ := hheld
  refine ⟨?_, ?_, ?_⟩
  · rintro t sc' rfl ht
    rw [hs] at ht
    cases ht
    exact ⟨hclosed, Nat.eq_zero_of_le_zero hhandles⟩
  · rintro v t hv ht rfl
    obtain ⟨c, hc, hct⟩ := Value.mem_scopes.1 ht
    exact hfns c (mem_references.2 (.inl ⟨v, hv, hc⟩)) hct
  · rintro u t sc' hu - ht rfl
    rcases Scope.mem_links.1 ht with hp | ⟨c, hc, hct⟩
    · exact hchildren u (parent?_eq_some.2 ⟨sc', hu, hp⟩)
    · exact hfns c (mem_references.2 (.inr ⟨u, sc', hu, hc⟩)) hct

/-! ### Emptying slots -/

/-- `b` is `a` with the slots of `gone` emptied; of the others only counts of children change. -/
structure Frees (a b : Arena) (gone : ScopeId → Prop) : Prop where
  size : b.slots.size = a.slots.size
  nextClosure : b.nextClosure = a.nextClosure
  emptied : ∀ s, gone s → b.scope? s = none
  kept : ∀ s, ¬ gone s → ∃ n, b.scope? s = (a.scope? s).map fun sc => { sc with children := n }
  free : a.FreeExact → b.FreeExact
  children : a.ChildrenExact → b.ChildrenExact

theorem Frees.refl (a : Arena) : Frees a a fun _ => False :=
  ⟨rfl, rfl, fun _ => False.elim, fun s _ => ⟨((a.scope? s).map (·.children)).getD 0, by
    rcases a.scope? s with _ | sc <;> rfl⟩, id, id⟩

theorem frees_vacate (a : Arena) (s : ScopeId) : Frees a (a.vacate s) (· = s) := by
  refine ⟨by simp, by simp, ?_, fun t ht => ?_, (·.vacate s), (·.vacate s)⟩
  · rintro _ rfl
    simp
  · rw [scope?_vacate, if_neg (Ne.symm ht)]
    rcases a.scope? t with _ | sc
    · exact ⟨0, rfl⟩
    · exact ⟨_, rfl⟩

theorem Frees.trans (h : Frees a b gone) (h' : Frees b d gone') :
    Frees a d fun s => gone s ∨ gone' s := by
  refine ⟨h'.size.trans h.size, h'.nextClosure.trans h.nextClosure, fun s hs => ?_, fun s hs => ?_,
    fun hf => h'.free (h.free hf), fun hc => h'.children (h.children hc)⟩
  · by_cases hg' : gone' s
    · exact h'.emptied s hg'
    · obtain ⟨n, hn⟩ := h'.kept s hg'
      rw [hn, h.emptied s (hs.resolve_right hg')]
      rfl
  · push Not at hs
    obtain ⟨n, hn⟩ := h.kept s hs.1
    obtain ⟨n', hn'⟩ := h'.kept s hs.2
    exact ⟨n', by rw [hn', hn, Option.map_map]; rfl⟩

theorem Frees.congr (h : Frees a b gone) (hg : ∀ s, gone' s ↔ gone s) : Frees a b gone' :=
  ⟨h.size, h.nextClosure, fun s hs => h.emptied s ((hg s).1 hs),
    fun s hs => h.kept s fun hs' => hs ((hg s).2 hs'), h.free, h.children⟩

theorem frees_foldl_vacate (a : Arena) (l : List ScopeId) : Frees a (l.foldl vacate a) (· ∈ l) := by
  induction l generalizing a with
  | nil => exact (Frees.refl a).congr (by simp)
  | cons s l ih => exact ((frees_vacate a s).trans (ih _)).congr (by simp)

/-- A scope that was kept was there before, with the same bindings and links. -/
theorem Frees.scope?_eq_some (h : Frees a b gone) (hs : b.scope? s = some sc) :
    ¬ gone s ∧ ∃ n, a.scope? s = some { sc with children := n } := by
  have hg : ¬ gone s := fun hg => by simp [h.emptied s hg] at hs
  obtain ⟨n, hn⟩ := h.kept s hg
  rw [hs] at hn
  obtain ⟨old, hold, rfl⟩ := Option.map_eq_some_iff.1 hn.symm
  exact ⟨hg, old.children, hold⟩

theorem Frees.scope?_kept (h : Frees a b gone) (hs : a.scope? s = some sc) (hg : ¬ gone s) :
    ∃ n, b.scope? s = some { sc with children := n } := by
  obtain ⟨n, hn⟩ := h.kept s hg
  exact ⟨n, by rw [hn, hs]; rfl⟩

theorem Frees.references (h : Frees a b gone) {c : Closure} (hc : c ∈ b.references outside) :
    c ∈ a.references outside := by
  rcases mem_references.1 hc with hc | ⟨s, sc, hs, hc⟩
  · exact mem_references.2 (.inl hc)
  · obtain ⟨-, n, hold⟩ := h.scope?_eq_some hs
    exact mem_references.2 (.inr ⟨s, _, hold, hc⟩)

theorem Frees.isUnder (h : Frees a b gone) (hs : ¬ gone s) (ht : ¬ gone t) :
    b.isUnder s t = a.isUnder s t := by
  obtain ⟨n, hn⟩ := h.kept s hs
  obtain ⟨m, hm⟩ := h.kept t ht
  refine isUnder_congr ?_ ?_
  · rw [hn, Option.map_map]
    rfl
  · rw [hm, Option.map_map]
    rfl

/-- Emptying the slots of garbage leaves no link without its scope. -/
theorem Linked.frees (h : a.Linked outside) (hf : Frees a b gone) (hg : a.Garbage outside gone) :
    b.Linked outside where
  under := by
    intro s p hp
    obtain ⟨sc, hsc, hsp⟩ := parent?_eq_some.1 hp
    obtain ⟨hs, n, hold⟩ := hf.scope?_eq_some hsc
    have hpg : ¬ gone p := hg.link hold hs (Scope.mem_links.2 (.inl hsp))
    rw [hf.isUnder hs hpg]
    exact h.under (parent?_eq_some.2 ⟨_, hold, hsp⟩)
  children := hf.children h.children
  made := by
    intro c hc
    obtain ⟨sc, hsc, hmade⟩ := isMade_iff.1 (h.made (hf.references hc))
    have hcg : ¬ gone c.scope := by
      rcases mem_references.1 hc with ⟨v, hv, hc⟩ | ⟨s, sc', hs, hc⟩
      · exact hg.value hv (Value.mem_scopes.2 ⟨c, hc, rfl⟩)
      · obtain ⟨hsg, n, hold⟩ := hf.scope?_eq_some hs
        exact hg.link hold hsg (Scope.mem_links.2 (.inr ⟨c, hc, rfl⟩))
    obtain ⟨m, hm⟩ := hf.scope?_kept hsc hcg
    exact isMade_iff.2 ⟨_, hm, hmade⟩
  id_lt := fun c hc => hf.nextClosure ▸ h.id_lt c (hf.references hc)
  agree := fun c hc d hd => h.agree c (hf.references hc) d (hf.references hd)

/-- What is garbage after some garbage was freed was garbage before. -/
theorem Garbage.trans (hg : a.Garbage outside gone) (hf : Frees a b gone)
    (hg' : b.Garbage outside gone') : a.Garbage outside fun s => gone s ∨ gone' s where
  closed := by
    intro s sc hs hsc
    by_cases h : gone s
    · exact hg.closed h hsc
    · obtain ⟨n, hn⟩ := hf.scope?_kept hsc h
      have hc := hg'.closed (hs.resolve_left h) hn
      exact hc
  value := fun hv ht h => h.elim (hg.value hv ht) (hg'.value hv ht)
  link := by
    intro s t sc hsc hs ht
    push Not at hs
    obtain ⟨n, hn⟩ := hf.scope?_kept hsc hs.1
    exact fun h => h.elim (hg.link hsc hs.1 ht) (hg'.link hn hs.2 ht)

/-! ### Freeing upward -/

/-- After a scope, its parent is freed if it is closed and nothing holds it any more, and otherwise nothing
is. -/
theorem freeUpward_succ (fuel : Nat) (hs : a.scope? s = some sc) :
    (freeUpward outside (fuel + 1) a s = a.vacate s ∧ ∀ p sp, sc.parent = some p →
      (a.vacate s).scope? p = some sp → sp.isOpen = false → (a.vacate s).isHeld outside p sp = true) ∨
    ∃ p sp, sc.parent = some p ∧ (a.vacate s).scope? p = some sp ∧ sp.isOpen = false ∧
      (a.vacate s).isHeld outside p sp = false ∧
      freeUpward outside (fuel + 1) a s = freeUpward outside fuel (a.vacate s) p := by
  rw [freeUpward, hs]
  dsimp only
  cases sc.parent with
  | none => exact .inl ⟨rfl, nofun⟩
  | some p =>
    dsimp only
    cases hsp : (a.vacate s).scope? p with
    | none =>
      refine .inl ⟨rfl, fun q sq hq hsq => ?_⟩
      cases hq
      rw [hsp] at hsq
      cases hsq
    | some sp =>
      dsimp only
      split
      next hup =>
        rw [Bool.and_eq_true, Bool.not_eq_true', Bool.not_eq_true'] at hup
        exact .inr ⟨p, sp, rfl, hsp, hup.1, hup.2, rfl⟩
      next hstays =>
        refine .inl ⟨rfl, fun q sq hq hsq hclosed => ?_⟩
        cases hq
        rw [hsp] at hsq
        cases hsq
        simpa [hclosed] using hstays

/-- A scope that nothing holds is freed together with some of its ancestors, and all of that is
garbage. -/
theorem frees_freeUpward (fuel : Nat) (h : a.Linked outside) (hs : a.scope? s = some sc)
    (hclosed : sc.isOpen = false) (hheld : a.isHeld outside s sc = false) :
    ∃ gone, gone s ∧ a.Garbage outside gone ∧ Frees a (freeUpward outside (fuel + 1) a s) gone := by
  induction fuel generalizing a s sc with
  | zero =>
    refine ⟨(· = s), rfl, h.garbage_of_not_held hs hclosed hheld, ?_⟩
    rcases freeUpward_succ 0 hs with ⟨hstop, -⟩ | ⟨p, -, -, -, -, -, hstop⟩ <;>
    · rw [hstop]
      exact frees_vacate a s
  | succ fuel ih =>
    have hg := h.garbage_of_not_held hs hclosed hheld
    have hf := frees_vacate a s
    rcases freeUpward_succ (fuel + 1) hs with ⟨hstop, -⟩ | ⟨p, sp, -, hsp, hclosed', hheld', hup⟩
    · rw [hstop]
      exact ⟨(· = s), rfl, hg, hf⟩
    · rw [hup]
      obtain ⟨gone, -, hg', hf'⟩ := ih (h.frees hf hg) hsp hclosed' hheld'
      exact ⟨_, .inl rfl, hg.trans hf hg', hf.trans hf'⟩

theorem freeUpward_of_none (fuel : Nat) (hs : a.scope? s = none) : freeUpward outside fuel a s = a := by
  cases fuel with
  | zero => rfl
  | succ fuel => rw [freeUpward, hs]

@[simp] theorem detached_freeUpward (fuel : Nat) (a : Arena) (s : ScopeId) :
    (freeUpward outside fuel a s).detached = a.detached := by
  induction fuel generalizing a s with
  | zero => rfl
  | succ fuel ih =>
    cases hs : a.scope? s with
    | none => rw [freeUpward_of_none _ hs]
    | some sc =>
      rcases freeUpward_succ fuel hs with ⟨hstop, -⟩ | ⟨p, -, -, -, -, -, hup⟩
      · rw [hstop, detached_vacate]
      · rw [hup, ih, detached_vacate]

end Sluice.Arena
