import Sluice.Proofs.Arena.Counting
import Sluice.Proofs.Arena.Slots

/-! Who holds a scope. `Sound` says of an arena that its links lead to scopes that are there and that
its counts are right; every operation keeps it. `Garbage` says of some slots that nothing but the
scopes in them can reach them, and such slots can be emptied. -/
namespace Sluice

theorem Value.mem_scopes {v : Value} {t : ScopeId} : t ∈ v.scopes ↔ ∃ c ∈ v.closures, c.scope = t := by
  simp [Value.scopes]

namespace Scope

theorem mem_captures {sc : Scope} {t : ScopeId} :
    t ∈ sc.captures ↔ ∃ c ∈ sc.functions, c.scope = t := by
  simp only [captures, functions, List.mem_flatMap, Value.mem_scopes]
  constructor
  · rintro ⟨e, he, c, hc, hct⟩
    exact ⟨c, ⟨e, he, hc⟩, hct⟩
  · rintro ⟨c, ⟨e, he, hc⟩, hct⟩
    exact ⟨e, he, c, hc, hct⟩

theorem mem_links {sc : Scope} {t : ScopeId} :
    t ∈ sc.links ↔ sc.parent = some t ∨ ∃ c ∈ sc.functions, c.scope = t := by
  rw [links, List.mem_append, mem_captures, Option.mem_toList]

theorem made_noteFn_self {c : Closure} {id : Nat} (sc : Scope) (hid : c.id = id) :
    (sc.noteFn id).made c = true := by
  simp [made, noteFn, hid]

/-- A function that holds a scope goes on to hold it when another one is made there. -/
theorem made_noteFn {sc : Scope} {c : Closure} (id : Nat) (h : sc.made c = true) :
    (sc.noteFn id).made c = true := by
  obtain ⟨n, hn, hle⟩ := (Option.any_eq_true _ _).1 h
  have hle' : min id n ≤ c.id := (Nat.min_le_right id n).trans (of_decide_eq_true hle)
  simp [made, noteFn, hn, hle']

end Scope

namespace Arena

variable {a b : Arena} {outside : List Value} {s t p : ScopeId} {sc : Scope} {c : Closure}

theorem mem_references : c ∈ a.references outside ↔
    (∃ v ∈ outside, c ∈ v.closures) ∨ ∃ s sc, a.scope? s = some sc ∧ c ∈ sc.functions := by
  rw [references, List.mem_append, List.mem_flatMap, List.mem_flatMap]
  refine or_congr_right ⟨?_, ?_⟩
  · rintro ⟨s, -, hc⟩
    rcases hs : a.scope? s with _ | sc
    · simp [functionsIn, hs] at hc
    · exact ⟨s, sc, hs, by simpa [functionsIn, hs] using hc⟩
  · rintro ⟨s, sc, hs, hc⟩
    exact ⟨s, List.mem_range.2 (lt_size_of_scope? hs), by simpa [functionsIn, hs] using hc⟩

theorem hasClosure_iff : a.hasClosure outside s sc = true ↔
    ∃ c ∈ a.references outside, c.scope = s ∧ sc.made c = true := by
  simp only [hasClosure, Bool.or_eq_true, List.any_eq_true, Array.any_eq_true', Bool.and_eq_true,
    decide_eq_true_eq]
  constructor
  · rintro (⟨v, hv, c, hc, hheld⟩ | ⟨slot, hslot, hs⟩)
    · exact ⟨c, mem_references.2 (.inl ⟨v, hv, hc⟩), hheld⟩
    · obtain ⟨sc', rfl, hs⟩ := (Option.any_eq_true _ _).1 hs
      obtain ⟨c, hc, hheld⟩ := List.any_eq_true.1 hs
      obtain ⟨t, ht⟩ := Array.mem_iff_getElem?.1 hslot
      exact ⟨c, mem_references.2 (.inr ⟨t, sc', by simp [scope?, ht], hc⟩), by simpa using hheld⟩
  · rintro ⟨c, hc, hheld⟩
    rcases mem_references.1 hc with ⟨v, hv, hc⟩ | ⟨t, sc', ht, hc⟩
    · exact .inl ⟨v, hv, c, hc, hheld⟩
    · have hslot : a.slots[t]? = some (some sc') := by simpa [scope?, Option.join_eq_some_iff] using ht
      refine .inr ⟨some sc', Array.mem_of_getElem? hslot, ?_⟩
      rw [Option.any_some, List.any_eq_true]
      exact ⟨c, hc, by simpa using hheld⟩

theorem isMade_iff : a.isMade c = true ↔ ∃ sc, a.scope? c.scope = some sc ∧ sc.made c = true := by
  simp [isMade, Option.any_eq_true]

/-- Scopes hold their parents, functions hold the scopes they were made in, and the counts are right. -/
structure Linked (a : Arena) (outside : List Value) : Prop where
  under : ∀ {s p}, a.parent? s = some p → a.isUnder s p = true
  children : a.ChildrenExact
  made : ∀ {c}, c ∈ a.references outside → a.isMade c = true
  id_lt : ∀ c ∈ a.references outside, c.id < a.nextClosure
  agree : Closure.Agree (a.references outside)

theorem Linked.parent (h : a.Linked outside) (hp : a.parent? s = some p) : (a.scope? p).isSome := by
  obtain ⟨-, sp, -, hsp, -⟩ := isUnder_iff.1 (h.under hp)
  simp [hsp]

theorem Linked.isUnder_iff (h : a.Linked outside) : a.isUnder s p = true ↔ a.parent? s = some p :=
  ⟨parent?_of_isUnder, h.under⟩

/-- An arena that was used rightly, when `outside` are the values held outside of it. -/
structure Sound (a : Arena) (outside : List Value) : Prop extends Linked a outside where
  free : a.FreeExact
  detached : ∀ {s sc}, a.scope? s = some sc → sc.isOpen = false → s ∈ a.detached

theorem sound_empty : Sound {} [] where
  under := by simp [parent?, scope?]
  children := childrenExact_empty
  made := by simp [references]
  id_lt := by simp [references]
  agree := by simp [references, Closure.Agree]
  free := freeExact_empty
  detached := by simp [scope?]

/-- A scope is held by handles, by the scopes under it and by functions made in it. -/
theorem Linked.isHeld_iff (h : a.Linked outside) (hs : a.scope? s = some sc) :
    a.isHeld outside s sc = true ↔
      0 < sc.handles ∨ (∃ t, a.parent? t = some s) ∨ ∃ c ∈ a.references outside, c.scope = s := by
  have hchildren : 0 < sc.children ↔ ∃ t, a.parent? t = some s := by
    rw [(h.children s sc hs).2, Finset.card_pos]
    simp [Finset.Nonempty, h.isUnder_iff]
  have hmade : ∀ c ∈ a.references outside, c.scope = s → sc.made c = true := by
    rintro c hc rfl
    obtain ⟨sc', hs', hmade⟩ := isMade_iff.1 (h.made hc)
    rw [hs] at hs'
    cases hs'
    exact hmade
  have hfns : (sc.firstFn.isSome && a.hasClosure outside s sc) = true ↔
      ∃ c ∈ a.references outside, c.scope = s := by
    rw [Bool.and_eq_true, hasClosure_iff]
    constructor
    · rintro ⟨-, c, hc, hcs, -⟩
      exact ⟨c, hc, hcs⟩
    · rintro ⟨c, hc, hcs⟩
      refine ⟨?_, c, hc, hcs, hmade c hc hcs⟩
      obtain ⟨n, hn, -⟩ := (Option.any_eq_true _ _).1 (hmade c hc hcs)
      rw [hn]
      rfl
  rw [isHeld, Bool.or_eq_true, Bool.or_eq_true, hfns, decide_eq_true_eq, decide_eq_true_eq, gt_iff_lt,
    gt_iff_lt, hchildren, or_assoc, or_left_comm]

/-! ### Operations that free nothing -/

/-- The values outside may change as long as they refer to functions that are there. -/
theorem Linked.withOutside (h : a.Linked outside) {outside' : List Value}
    (hout : ∀ v ∈ outside', ∀ c ∈ v.closures, c ∈ a.references outside) : a.Linked outside' := by
  have hsub : ∀ {c}, c ∈ a.references outside' → c ∈ a.references outside := by
    intro c hc
    rcases mem_references.1 hc with ⟨v, hv, hc⟩ | hc
    · exact hout v hv c hc
    · exact mem_references.2 (.inr hc)
  exact ⟨h.under, h.children, fun hc => h.made (hsub hc), fun c hc => h.id_lt c (hsub hc),
    fun c hc d hd => h.agree c (hsub hc) d (hsub hd)⟩

theorem Sound.withOutside (h : a.Sound outside) {outside' : List Value}
    (hout : ∀ v ∈ outside', ∀ c ∈ v.closures, c ∈ a.references outside) : a.Sound outside' :=
  { h.toLinked.withOutside hout with free := h.free, detached := h.detached }

/-- An arena in which each scope has the same links as before, and is held by the functions that held
it. -/
theorem Linked.sameLinks (h : a.Linked outside) (hnext : a.nextClosure ≤ b.nextClosure)
    (hchildren : b.ChildrenExact) (hparent : ∀ t, b.parent? t = a.parent? t)
    (hunder : ∀ t u, a.isUnder t u = true → b.isUnder t u = true)
    (hmade : ∀ c, a.isMade c = true → b.isMade c = true)
    (hrefs : ∀ {c}, c ∈ b.references outside → c ∈ a.references outside) : b.Linked outside where
  under hp := hunder _ _ (h.under ((hparent _).symm.trans hp))
  children := hchildren
  made hc := hmade _ (h.made (hrefs hc))
  id_lt := fun c hc => (h.id_lt c (hrefs hc)).trans_le hnext
  agree := fun c hc d hd => h.agree c (hrefs hc) d (hrefs hd)

/-- A change to one scope that keeps its links, and does not close it. -/
structure Harmless (f : Scope → Scope) : Prop extends KeepsLinks f where
  made : ∀ sc c, sc.made c = true → (f sc).made c = true

theorem isMade_modify {f : Scope → Scope} (hf : ∀ sc c, sc.made c = true → (f sc).made c = true)
    (h : a.isMade c = true) : (a.modify s f).isMade c = true := by
  obtain ⟨sc, hsc, hmade⟩ := isMade_iff.1 h
  rw [isMade, scope?_modify, hsc]
  split
  · exact hf sc c hmade
  · exact hmade

theorem Linked.modify (h : a.Linked outside) (s : ScopeId) {f : Scope → Scope} (hf : Harmless f)
    (hrefs : ∀ sc, a.scope? s = some sc → ∀ c ∈ (f sc).functions, c ∈ a.references outside) :
    (a.modify s f).Linked outside := by
  refine h.sameLinks (Nat.le_refl _) (h.children.modify s hf.toKeepsLinks)
    (fun t => parent?_modify a s t hf.parent)
    (fun t u => (isUnder_modify a s t u hf.parent hf.number).trans) (fun c => isMade_modify hf.made)
    (fun {c} hc => ?_)
  rcases mem_references.1 hc with hc | ⟨t, sc, ht, hc⟩
  · exact mem_references.2 (.inl hc)
  · rw [scope?_modify] at ht
    split at ht
    next hst =>
      obtain ⟨old, hold, rfl⟩ := Option.map_eq_some_iff.1 ht
      exact hrefs old (hst ▸ hold) c hc
    next => exact mem_references.2 (.inr ⟨t, sc, ht, hc⟩)

theorem Sound.modify (h : a.Sound outside) (s : ScopeId) {f : Scope → Scope} (hf : Harmless f)
    (hopen : ∀ sc, (f sc).isOpen = sc.isOpen)
    (hrefs : ∀ sc, a.scope? s = some sc → ∀ c ∈ (f sc).functions, c ∈ a.references outside) :
    (a.modify s f).Sound outside where
  toLinked := h.toLinked.modify s hf hrefs
  free := h.free.modify s f
  detached := by
    intro t sc ht hclosed
    rw [scope?_modify] at ht
    split at ht
    · obtain ⟨old, hold, rfl⟩ := Option.map_eq_some_iff.1 ht
      exact h.detached hold ((hopen old).symm.trans hclosed)
    · exact h.detached ht hclosed

private theorem mem_of_functions (hs : a.scope? s = some sc) {c : Closure} (hc : c ∈ sc.functions) :
    c ∈ a.references outside := mem_references.2 (.inr ⟨s, sc, hs, hc⟩)

theorem Sound.hold (h : a.Sound outside) (s : ScopeId) : (a.hold s).Sound outside :=
  h.modify s ⟨⟨fun _ => rfl, fun _ => rfl, fun _ => rfl⟩, fun _ _ => id⟩ (fun _ => rfl)
    (fun _ hs _ hc => mem_of_functions hs hc)

theorem Sound.unhold (h : a.Sound outside) (s : ScopeId) : (a.unhold s).Sound outside :=
  h.modify s ⟨⟨fun _ => rfl, fun _ => rfl, fun _ => rfl⟩, fun _ _ => id⟩ (fun _ => rfl)
    (fun _ hs _ hc => mem_of_functions hs hc)

theorem mem_functions_insert {sc : Scope} {name : String} {b : Binding}
    (h : c ∈ Scope.functions { sc with vars := sc.vars.insert name b }) :
    c ∈ b.value.closures ∨ c ∈ sc.functions := by
  obtain ⟨e, he, hc⟩ := List.mem_flatMap.1 h
  rcases Table.mem_insert he with rfl | he
  · exact .inl hc
  · exact .inr (List.mem_flatMap.2 ⟨e, he, hc⟩)

/-- A name may be bound to a value that refers to functions that are there. -/
theorem Sound.define (h : a.Sound outside) (s : ScopeId) (name : String) {b : Binding}
    (hb : ∀ c ∈ b.value.closures, c ∈ a.references outside) : (a.define s name b).Sound outside := by
  refine h.modify s ⟨⟨fun _ => rfl, fun _ => rfl, fun _ => rfl⟩, fun _ _ => id⟩ (fun _ => rfl) (fun sc hs c hc => ?_)
  rcases mem_functions_insert hc with hc | hc
  · exact hb c hc
  · exact mem_of_functions hs hc

theorem FreeExact.mem_references_push (h : a.FreeExact) (parent : Option ScopeId) :
    c ∈ (a.push parent).2.references outside ↔ c ∈ a.references outside := by
  rw [mem_references, mem_references]
  refine or_congr_right ⟨?_, ?_⟩
  · rintro ⟨t, sc, ht, hc⟩
    rcases h.of_scope?_push ht with ⟨-, rfl⟩ | ⟨n, old, hsc, rfl⟩
    · simp at hc
    · exact ⟨t, old, hsc, hc⟩
  · rintro ⟨t, sc, ht, hc⟩
    exact ⟨t, _, h.scope?_push_of_some parent ht, hc⟩

theorem Sound.push (h : a.Sound outside) (parent : Option ScopeId)
    (hp : ∀ p, parent = some p → (a.scope? p).isSome) : (a.push parent).2.Sound outside := by
  have hrefs : ∀ {c}, c ∈ (a.push parent).2.references outside → c ∈ a.references outside :=
    fun hc => (h.free.mem_references_push parent).1 hc
  refine ⟨⟨?_, ?_, ?_, ?_, ?_⟩, (h.free.push parent).2.2.2, ?_⟩
  · intro s p hsp
    rw [h.free.parent?_push] at hsp
    rw [h.children.isUnder_push h.free]
    split at hsp
    next hs => rw [if_pos hs, decide_eq_true hsp, hp p hsp, Bool.and_self]
    next hs => rw [if_neg hs, h.under hsp]
  · exact h.children.push h.free parent
  · intro c hc
    obtain ⟨sc, hsc, hmade⟩ := isMade_iff.1 (h.made (hrefs hc))
    exact isMade_iff.2 ⟨_, h.free.scope?_push_of_some parent hsc, hmade⟩
  · intro c hc
    rw [nextClosure_push]
    exact h.id_lt c (hrefs hc)
  · exact fun c hc d hd => h.agree c (hrefs hc) d (hrefs hd)
  · intro t sc ht hclosed
    rw [detached_push]
    rcases h.free.of_scope?_push ht with ⟨-, rfl⟩ | ⟨n, old, hsc, rfl⟩
    · cases hclosed
    · exact h.detached hsc hclosed

/-- A new function is held outside until it is bound. -/
theorem Sound.makeClosure (h : a.Sound outside) (hs : (a.scope? s).isSome) (name : Option String)
    (params : List String) (body : FnBody) :
    (a.makeClosure s name params body).2.Sound
      (outside ++ [.fn (a.makeClosure s name params body).1]) := by
  have hm : (a.modify s (·.noteFn a.nextClosure)).Sound outside :=
    h.modify s ⟨⟨fun _ => rfl, fun _ => rfl, fun _ => rfl⟩, fun _ _ => Scope.made_noteFn _⟩ (fun _ => rfl)
      (fun _ hs _ hc => mem_of_functions hs hc)
  -- A reference is to the new function, or was there before and has a smaller `id`.
  have hrefs : ∀ {c}, c ∈ (a.makeClosure s name params body).2.references
        (outside ++ [.fn (a.makeClosure s name params body).1]) →
      c = (a.makeClosure s name params body).1 ∨
        c ∈ (a.modify s (·.noteFn a.nextClosure)).references outside := by
    intro c hc
    rcases mem_references.1 hc with ⟨v, hv, hc⟩ | hc
    · rcases List.mem_append.1 hv with hv | hv
      · exact .inr (mem_references.2 (.inl ⟨v, hv, hc⟩))
      · rw [List.mem_singleton.1 hv] at hc
        exact .inl (by simpa [Value.closures] using hc)
    · exact .inr (mem_references.2 (.inr hc))
  refine ⟨⟨hm.under, hm.children, ?_, ?_, ?_⟩, ⟨hm.free.nodup, hm.free.mem_iff⟩, hm.detached⟩
  · intro c hc
    rcases hrefs hc with rfl | hc
    · obtain ⟨sc, hsc⟩ := Option.isSome_iff_exists.1 hs
      have hnew : (a.modify s (·.noteFn a.nextClosure)).scope? s = some (sc.noteFn a.nextClosure) := by
        rw [scope?_modify, if_pos rfl, hsc]
        rfl
      exact isMade_iff.2 ⟨_, hnew, Scope.made_noteFn_self sc rfl⟩
    · exact hm.made hc
  · intro c hc
    rcases hrefs hc with rfl | hc
    · exact Nat.lt_succ_self _
    · exact (hm.id_lt c hc).trans (Nat.lt_succ_self _)
  · intro c hc d hd hcd
    rcases hrefs hc with rfl | hc <;> rcases hrefs hd with rfl | hd
    · rfl
    · exact absurd (hm.id_lt d hd) (hcd ▸ Nat.lt_irrefl _)
    · exact absurd (hm.id_lt c hc) (hcd ▸ Nat.lt_irrefl _)
    · exact hm.agree c hc d hd hcd

end Arena

end Sluice
