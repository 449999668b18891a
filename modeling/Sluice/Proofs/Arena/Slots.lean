import Mathlib.Data.Finset.Card
import Mathlib.Data.Finset.Range
import Sluice.Scope.Arena

/-! What each operation of the arena does to the slots, and two counts that every operation keeps
exact: the free list holds each empty slot once, and a scope knows how many scopes are under it. -/
namespace Sluice.Arena

variable {a : Arena} {s t p : ScopeId} {sc : Scope}

theorem lt_size_of_scope? (h : a.scope? s = some sc) : s < a.slots.size := by
  by_contra hs
  rw [scope?, Array.getElem?_eq_none (Nat.le_of_not_lt hs)] at h
  simp at h

theorem scope?_of_size_le (h : a.slots.size ≤ s) : a.scope? s = none := by
  rw [scope?, Array.getElem?_eq_none h]
  rfl

/-! ### One slot changed -/

@[simp] theorem scope?_modify (a : Arena) (s t : ScopeId) (f : Scope → Scope) :
    (a.modify s f).scope? t = if s = t then (a.scope? t).map f else a.scope? t := by
  by_cases h : s = t
  · subst h
    rcases hs : a.slots[s]? with _ | _ | sc <;> simp [modify, scope?, Array.getElem?_modify, hs]
  · simp [modify, scope?, Array.getElem?_modify, h]

@[simp] theorem size_modify (a : Arena) (s : ScopeId) (f : Scope → Scope) :
    (a.modify s f).slots.size = a.slots.size := by simp [modify]

@[simp] theorem free_modify (a : Arena) (s : ScopeId) (f : Scope → Scope) :
    (a.modify s f).free = a.free := rfl

@[simp] theorem detached_modify (a : Arena) (s : ScopeId) (f : Scope → Scope) :
    (a.modify s f).detached = a.detached := rfl

@[simp] theorem nextClosure_modify (a : Arena) (s : ScopeId) (f : Scope → Scope) :
    (a.modify s f).nextClosure = a.nextClosure := rfl

theorem modify_id (a : Arena) (s : ScopeId) : a.modify s id = a := by
  have hslots : a.slots.modify s (Option.map id) = a.slots := by
    apply Array.ext_getElem?
    intro t
    rw [Array.getElem?_modify]
    split
    · cases a.slots[t]? <;> simp
    · rfl
  rw [modify, hslots]

def gain (n : Nat) (sc : Scope) : Scope := { sc with children := sc.children + n }

def lose (n : Nat) (sc : Scope) : Scope := { sc with children := sc.children - n }

@[simp] theorem gain_zero : gain 0 = id := rfl

@[simp] theorem lose_zero : lose 0 = id := rfl

def parent? (a : Arena) (s : ScopeId) : Option ScopeId := (a.scope? s).bind (·.parent)

theorem parent?_eq_some : a.parent? s = some p ↔ ∃ sc, a.scope? s = some sc ∧ sc.parent = some p := by
  simp [parent?, Option.bind_eq_some_iff]

/-! ### The free list -/

/-- The free list holds each empty slot once and nothing else. -/
structure FreeExact (a : Arena) : Prop where
  nodup : a.free.Nodup
  mem_iff : ∀ s, s ∈ a.free ↔ s < a.slots.size ∧ a.scope? s = none

theorem freeExact_empty : FreeExact {} := ⟨List.nodup_nil, by simp⟩

theorem FreeExact.modify (h : a.FreeExact) (s : ScopeId) (f : Scope → Scope) :
    (a.modify s f).FreeExact := by
  refine ⟨h.nodup, fun t => ?_⟩
  rw [free_modify, h.mem_iff, size_modify, scope?_modify]
  split <;> simp

def noteChild (a : Arena) : Option ScopeId → Arena
  | some p => a.modify p fun sc => { sc with children := sc.children + 1 }
  | none => a

theorem scope?_noteChild (a : Arena) (parent : Option ScopeId) (t : ScopeId) :
    (a.noteChild parent).scope? t = (a.scope? t).map (gain (if parent = some t then 1 else 0)) := by
  cases parent with
  | none => simp [noteChild]
  | some p =>
    by_cases h : p = t
    · simp [noteChild, h]
      rfl
    · simp [noteChild, h]

theorem FreeExact.noteChild (h : a.FreeExact) (parent : Option ScopeId) :
    (a.noteChild parent).FreeExact := by
  cases parent with
  | none => exact h
  | some p => exact h.modify p _

def fresh (a : Arena) (parent : Option ScopeId) : Scope := { parent, number := a.opened }

@[simp] theorem parent_fresh (a : Arena) (parent : Option ScopeId) :
    (a.fresh parent).parent = parent := rfl

@[simp] theorem isOpen_fresh (a : Arena) (parent : Option ScopeId) :
    (a.fresh parent).isOpen = true := rfl

@[simp] theorem vars_fresh (a : Arena) (parent : Option ScopeId) : (a.fresh parent).vars = [] := rfl

@[simp] theorem functions_fresh (a : Arena) (parent : Option ScopeId) :
    (a.fresh parent).functions = [] := rfl

theorem push_eq (a : Arena) (parent : Option ScopeId) :
    a.push parent = match (a.noteChild parent).free with
      | s :: rest => (s, { a.noteChild parent with
          slots := (a.noteChild parent).slots.setIfInBounds s (some (a.fresh parent)), free := rest,
          opened := a.opened + 1 })
      | [] => ((a.noteChild parent).slots.size, { a.noteChild parent with
          slots := (a.noteChild parent).slots.push (some (a.fresh parent)),
          opened := a.opened + 1 }) := by
  cases parent <;> rfl

private theorem scope?_set (a : Arena) (x : Option Scope) (free : List ScopeId) (opened : Nat)
    (hs : s < a.slots.size) (t : ScopeId) :
    scope? { a with slots := a.slots.setIfInBounds s x, free, opened } t =
      if s = t then x else a.scope? t := by
  by_cases h : s = t
  · subst h; simp [scope?, hs]
  · simp [scope?, h]

private theorem scope?_extend (a : Arena) (x : Option Scope) (opened : Nat) :
    scope? { a with slots := a.slots.push x, opened } t =
      if t = a.slots.size then x else a.scope? t := by
  by_cases h : t = a.slots.size <;> simp [scope?, Array.getElem?_push, h]

/-- What a push does: the new scope goes to a slot that was empty, and nothing else changes but
the count of its parent. -/
theorem FreeExact.push (h : a.FreeExact) (parent : Option ScopeId) :
    a.scope? (a.push parent).1 = none ∧
    (a.push parent).2.scope? (a.push parent).1 = some (a.fresh parent) ∧
    (∀ t, t ≠ (a.push parent).1 →
      (a.push parent).2.scope? t = (a.scope? t).map (gain (if parent = some t then 1 else 0))) ∧
    (a.push parent).2.FreeExact := by
  have hb := h.noteChild parent
  have hscope := a.scope?_noteChild parent
  rw [push_eq]
  generalize a.noteChild parent = b at hb hscope ⊢
  have hnone : ∀ t, b.scope? t = none → a.scope? t = none := fun t ht => by
    rw [hscope] at ht
    simpa using ht
  split
  next s rest hf =>
    obtain ⟨hlt, hs⟩ := (hb.mem_iff s).1 (by simp [hf])
    have hnd := hb.nodup
    rw [hf, List.nodup_cons] at hnd
    refine ⟨hnone s hs, by simp [scope?, hlt], fun t ht => ?_, hnd.2, fun t => ?_⟩
    · rw [← hscope]
      rw [scope?_set b _ rest _ hlt, if_neg (Ne.symm ht)]
    · have hmem := hb.mem_iff t
      rw [hf, List.mem_cons] at hmem
      rw [scope?_set b _ rest _ hlt, Array.size_setIfInBounds]
      by_cases hst : s = t
      · subst hst; simp [hnd.1]
      · simpa [hst, Ne.symm hst] using hmem
  next hf =>
    have hs := b.scope?_of_size_le (Nat.le_refl _)
    refine ⟨hnone _ hs, by simp [scope?], fun t ht => ?_, by simp [hf], fun t => ?_⟩
    · rw [← hscope, scope?_extend, if_neg ht]
    · have hmem := hb.mem_iff t
      rw [hf] at hmem ⊢
      rw [scope?_extend, Array.size_push]
      by_cases ht : t = b.slots.size
      · simp [ht]
      · have : t < b.slots.size + 1 ↔ t < b.slots.size :=
          ⟨fun h => Nat.lt_of_le_of_ne (Nat.le_of_lt_succ h) ht, Nat.lt_succ_of_lt⟩
        simpa [ht, this] using hmem

/-- The slot of a new scope is not that of one that is there. -/
theorem FreeExact.ne_push (h : a.FreeExact) (parent : Option ScopeId) (hs : (a.scope? s).isSome) :
    s ≠ (a.push parent).1 := by
  rintro rfl
  rw [(h.push parent).1] at hs
  cases hs

/-- A scope that is there stays in its slot. -/
theorem FreeExact.scope?_push_of_some (h : a.FreeExact) (parent : Option ScopeId)
    (hs : a.scope? s = some sc) :
    (a.push parent).2.scope? s = some (gain (if parent = some s then 1 else 0) sc) := by
  rw [(h.push parent).2.2.1 s (h.ne_push parent (by simp [hs])), hs]
  rfl

/-- A scope after a push is the new one or was there before. -/
theorem FreeExact.of_scope?_push (h : a.FreeExact) {parent : Option ScopeId}
    (hs : (a.push parent).2.scope? s = some sc) :
    s = (a.push parent).1 ∧ sc = a.fresh parent ∨ ∃ n old, a.scope? s = some old ∧ sc = gain n old := by
  obtain ⟨-, hself, hold, -⟩ := h.push parent
  by_cases hnew : s = (a.push parent).1
  · rw [hnew, hself] at hs
    exact .inl ⟨hnew, (Option.some.inj hs).symm⟩
  · rw [hold s hnew] at hs
    obtain ⟨old, hsc, rfl⟩ := Option.map_eq_some_iff.1 hs
    exact .inr ⟨_, old, hsc, rfl⟩

@[simp] theorem detached_push (a : Arena) (parent : Option ScopeId) :
    (a.push parent).2.detached = a.detached := by
  rw [push_eq]
  cases parent <;> simp only [noteChild] <;> split <;> rfl

@[simp] theorem nextClosure_push (a : Arena) (parent : Option ScopeId) :
    (a.push parent).2.nextClosure = a.nextClosure := by
  rw [push_eq]
  cases parent <;> simp only [noteChild] <;> split <;> rfl

@[simp] theorem opened_push (a : Arena) (parent : Option ScopeId) :
    (a.push parent).2.opened = a.opened + 1 := by
  rw [push_eq]
  split <;> rfl

theorem free_push (a : Arena) (parent : Option ScopeId) : (a.push parent).2.free = a.free.tail := by
  have hfree : (a.noteChild parent).free = a.free := by cases parent <;> rfl
  rw [push_eq, ← hfree]
  split
  next hf => rw [hf, List.tail_cons]
  next hf => rw [hf, List.tail_nil]

/-- A new slot is made only if none is empty. -/
theorem size_push (a : Arena) (parent : Option ScopeId) :
    (a.push parent).2.slots.size = if a.free = [] then a.slots.size + 1 else a.slots.size := by
  have hfree : (a.noteChild parent).free = a.free := by cases parent <;> rfl
  have hsize : (a.noteChild parent).slots.size = a.slots.size := by cases parent <;> simp [noteChild]
  rw [push_eq, ← hfree, ← hsize]
  split
  next hf => simp [hf]
  next hf => simp [hf]

theorem size_le_push (a : Arena) (parent : Option ScopeId) :
    a.slots.size ≤ (a.push parent).2.slots.size := by
  rw [size_push]
  split <;> omega

/-! ### Who holds the parent -/

/-- Whether the scope in slot `s` holds the one in slot `t` as its parent: it names this slot, and that one
was there when it was opened. -/
def isUnder (a : Arena) (s t : ScopeId) : Bool :=
  (a.scope? s).any fun sc => sc.parent = some t && (a.scope? t).any (·.number < sc.number)

theorem isUnder_iff : a.isUnder s t = true ↔ ∃ sc st, a.scope? s = some sc ∧ a.scope? t = some st ∧
    sc.parent = some t ∧ st.number < sc.number := by
  simp only [isUnder, Option.any_eq_true, Bool.and_eq_true, decide_eq_true_eq]
  constructor
  · rintro ⟨sc, hsc, hp, st, hst, hlt⟩
    exact ⟨sc, st, hsc, hst, hp, hlt⟩
  · rintro ⟨sc, st, hsc, hst, hp, hlt⟩
    exact ⟨sc, hsc, hp, st, hst, hlt⟩

theorem parent?_of_isUnder (h : a.isUnder s t = true) : a.parent? s = some t := by
  obtain ⟨sc, -, hsc, -, hp, -⟩ := isUnder_iff.1 h
  exact parent?_eq_some.2 ⟨sc, hsc, hp⟩

/-- Which scope holds which is in their parents and numbers. -/
theorem isUnder_congr {b : Arena} (hs : ((b.scope? s).map fun sc => (sc.parent, sc.number)) =
      (a.scope? s).map fun sc => (sc.parent, sc.number))
    (ht : (b.scope? t).map (·.number) = (a.scope? t).map (·.number)) :
    b.isUnder s t = a.isUnder s t := by
  have hunder (d : Arena) : d.isUnder s t = ((d.scope? s).map fun sc => (sc.parent, sc.number)).any
      fun e => e.1 = some t && ((d.scope? t).map (·.number)).any (· < e.2) := by
    rw [isUnder, Option.any_map]
    congr 1
    funext sc
    simp [Option.any_map]
  rw [hunder a, hunder b, hs, ht]

/-! ### A slot emptied -/

private theorem vacate_of_none (h : a.scope? s = none) : a.vacate s = a := by simp [vacate, h]

private theorem vacate_of_some (h : a.scope? s = some sc) :
    a.vacate s = match sc.parent with
      | some p => Arena.modify { a with slots := a.slots.setIfInBounds s none, free := s :: a.free } p
          fun sp => if sp.number < sc.number then { sp with children := sp.children - 1 } else sp
      | none => { a with slots := a.slots.setIfInBounds s none, free := s :: a.free } := by
  cases hp : sc.parent <;> simp [vacate, h, hp]

/-- What emptying a slot does: nothing else changes but the count of the parent, if it was held. -/
theorem scope?_vacate (a : Arena) (s t : ScopeId) :
    (a.vacate s).scope? t =
      if s = t then none else (a.scope? t).map (lose (if a.isUnder s t then 1 else 0)) := by
  cases h : a.scope? s with
  | none =>
    rw [vacate_of_none h]
    by_cases hst : s = t
    · simp [← hst, h]
    · simp [hst, isUnder, h]
  | some sc =>
    have hset := scope?_set a none (s :: a.free) a.opened (lt_size_of_scope? h)
    have hunder : a.isUnder s t = (sc.parent = some t && (a.scope? t).any (·.number < sc.number)) := by
      simp [isUnder, h]
    rw [vacate_of_some h, hunder]
    rcases sc.parent with _ | p
    · rw [hset]
      by_cases hst : s = t <;> simp [hst]
    · rw [scope?_modify, hset]
      by_cases hst : s = t
      · simp [hst]
      · by_cases hpt : p = t
        · subst hpt
          rcases a.scope? p with _ | sp
          · simp [hst]
          · by_cases hlt : sp.number < sc.number <;> simp [hst, hlt, lose]
        · simp [hst, hpt]

@[simp] theorem scope?_vacate_self (a : Arena) (s : ScopeId) : (a.vacate s).scope? s = none := by
  simp [scope?_vacate]

@[simp] theorem size_vacate (a : Arena) (s : ScopeId) :
    (a.vacate s).slots.size = a.slots.size := by
  cases h : a.scope? s with
  | none => rw [vacate_of_none h]
  | some sc =>
    rw [vacate_of_some h]
    rcases sc.parent <;> simp

@[simp] theorem detached_vacate (a : Arena) (s : ScopeId) :
    (a.vacate s).detached = a.detached := by
  cases h : a.scope? s with
  | none => rw [vacate_of_none h]
  | some sc =>
    rw [vacate_of_some h]
    rcases sc.parent <;> rfl

@[simp] theorem nextClosure_vacate (a : Arena) (s : ScopeId) :
    (a.vacate s).nextClosure = a.nextClosure := by
  cases h : a.scope? s with
  | none => rw [vacate_of_none h]
  | some sc =>
    rw [vacate_of_some h]
    rcases sc.parent <;> rfl

@[simp] theorem opened_vacate (a : Arena) (s : ScopeId) : (a.vacate s).opened = a.opened := by
  cases h : a.scope? s with
  | none => rw [vacate_of_none h]
  | some sc =>
    rw [vacate_of_some h]
    rcases sc.parent <;> rfl

theorem free_vacate (h : a.scope? s = some sc) : (a.vacate s).free = s :: a.free := by
  rw [vacate_of_some h]
  rcases sc.parent <;> rfl

theorem FreeExact.vacate (h : a.FreeExact) (s : ScopeId) : (a.vacate s).FreeExact := by
  cases hs : a.scope? s with
  | none => rwa [vacate_of_none hs]
  | some sc =>
    constructor
    · rw [free_vacate hs, List.nodup_cons]
      refine ⟨fun hmem => ?_, h.nodup⟩
      rw [h.mem_iff, hs] at hmem
      simp at hmem
    · intro t
      rw [free_vacate hs, List.mem_cons, h.mem_iff, size_vacate, scope?_vacate]
      by_cases hst : s = t
      · subst hst; simp [lt_size_of_scope? hs]
      · simp [hst, Ne.symm hst]

/-! ### How many slots are in use -/

theorem toList_slots (a : Arena) : a.slots.toList = (List.range a.slots.size).map a.scope? := by
  apply List.ext_getElem
  · simp
  · intro i hi _
    simp [scope?, Array.length_toList ▸ hi]

theorem live_eq_countP (a : Arena) :
    a.live = (List.range a.slots.size).countP fun s => (a.scope? s).isSome := by
  rw [live, ← Array.countP_toList, toList_slots, List.countP_map]
  rfl

theorem live_eq_zero_iff : a.live = 0 ↔ ∀ s, a.scope? s = none := by
  rw [live_eq_countP, List.countP_eq_zero]
  refine ⟨fun h s => ?_, fun h s _ => by simp [h s]⟩
  by_cases hs : s < a.slots.size
  · simpa using h s (List.mem_range.2 hs)
  · exact scope?_of_size_le (Nat.le_of_not_lt hs)

/-- A slot is in use or on the free list. -/
theorem FreeExact.size_eq (h : a.FreeExact) : a.slots.size = a.live + a.free.length := by
  have hfree : a.free.Perm ((List.range a.slots.size).filter fun s => ¬ (a.scope? s).isSome) := by
    refine (List.perm_ext_iff_of_nodup h.nodup (List.nodup_range.filter _)).2 fun s => ?_
    simp [h.mem_iff]
  have hsplit := (List.range a.slots.size).length_eq_countP_add_countP fun s => (a.scope? s).isSome
  rw [hfree.length_eq, live_eq_countP, ← List.countP_eq_length_filter]
  simpa using hsplit

theorem FreeExact.live_vacate (h : a.FreeExact) (hs : a.scope? s = some sc) :
    (a.vacate s).live + 1 = a.live := by
  have hbefore := h.size_eq
  have hafter := (h.vacate s).size_eq
  rw [size_vacate, free_vacate hs, List.length_cons] at hafter
  omega

theorem FreeExact.live_push (h : a.FreeExact) (parent : Option ScopeId) :
    (a.push parent).2.live = a.live + 1 := by
  have hbefore := h.size_eq
  have hafter := (h.push parent).2.2.2.size_eq
  rw [size_push, free_push] at hafter
  cases hfree : a.free with
  | nil =>
    simp [hfree] at hbefore hafter
    omega
  | cons s rest =>
    simp [hfree] at hbefore hafter
    omega

theorem FreeExact.live_eq (h : a.FreeExact) {b : Arena} (hb : b.FreeExact)
    (hsize : b.slots.size = a.slots.size) (hfree : b.free = a.free) : b.live = a.live := by
  have hbefore := h.size_eq
  have hafter := hb.size_eq
  rw [hsize, hfree] at hafter
  omega

/-! ### The scopes under a scope -/

theorem parent?_modify (a : Arena) (s t : ScopeId) {f : Scope → Scope}
    (hf : ∀ sc, (f sc).parent = sc.parent) : (a.modify s f).parent? t = a.parent? t := by
  rw [parent?, scope?_modify]
  split
  · simp [parent?, Option.bind_map, hf]
  · rfl

theorem parent?_define (a : Arena) (s : ScopeId) (name : String) (b : Binding) (t : ScopeId) :
    (a.define s name b).parent? t = a.parent? t := parent?_modify a s t fun _ => rfl

theorem parent?_vacate (a : Arena) (s t : ScopeId) :
    (a.vacate s).parent? t = if s = t then none else a.parent? t := by
  rw [parent?, scope?_vacate]
  split
  · rfl
  · simp [parent?, Option.bind_map, Function.comp_def, lose]

theorem FreeExact.parent?_push (h : a.FreeExact) (parent : Option ScopeId) (t : ScopeId) :
    (a.push parent).2.parent? t = if t = (a.push parent).1 then parent else a.parent? t := by
  obtain ⟨-, hnew, hold, -⟩ := h.push parent
  split
  next ht => simp [parent?, ht, hnew]
  next ht => simp [parent?, hold t ht, Option.bind_map, Function.comp_def, gain]

def under (a : Arena) (s : ScopeId) : Finset ScopeId :=
  (Finset.range a.slots.size).filter fun t => a.isUnder t s = true

@[simp] theorem mem_under : t ∈ a.under s ↔ a.isUnder t s = true := by
  simp only [under, Finset.mem_filter, Finset.mem_range, and_iff_right_iff_imp]
  intro h
  obtain ⟨sc, -, hsc, -⟩ := isUnder_iff.1 h
  exact lt_size_of_scope? hsc

/-- Scopes are numbered as they are opened, and each knows how many scopes hold it as their parent. -/
def ChildrenExact (a : Arena) : Prop :=
  ∀ s sc, a.scope? s = some sc → sc.number < a.opened ∧ sc.children = (a.under s).card

theorem childrenExact_empty : ChildrenExact {} := by simp [ChildrenExact, scope?]

structure KeepsLinks (f : Scope → Scope) : Prop where
  parent : ∀ sc, (f sc).parent = sc.parent
  number : ∀ sc, (f sc).number = sc.number
  children : ∀ sc, (f sc).children = sc.children

theorem isUnder_modify (a : Arena) (s t u : ScopeId) {f : Scope → Scope}
    (hparent : ∀ sc, (f sc).parent = sc.parent) (hnumber : ∀ sc, (f sc).number = sc.number) :
    (a.modify s f).isUnder t u = a.isUnder t u := by
  refine isUnder_congr ?_ ?_
  · rw [scope?_modify]
    split
    · simp [Function.comp_def, hparent, hnumber]
    · rfl
  · rw [scope?_modify]
    split
    · simp [Function.comp_def, hnumber]
    · rfl

theorem ChildrenExact.modify (h : a.ChildrenExact) (s : ScopeId) {f : Scope → Scope} (hf : KeepsLinks f) :
    (a.modify s f).ChildrenExact := by
  have hold : ∀ t sc, (a.modify s f).scope? t = some sc → ∃ old, a.scope? t = some old ∧
      sc.number = old.number ∧ sc.children = old.children := by
    intro t sc ht
    rw [scope?_modify] at ht
    split at ht
    · obtain ⟨old, hold, rfl⟩ := Option.map_eq_some_iff.1 ht
      exact ⟨old, hold, hf.number old, hf.children old⟩
    · exact ⟨sc, ht, rfl, rfl⟩
  intro t sc ht
  obtain ⟨old, hsc, hnumber, hchildren⟩ := hold t sc ht
  have hu : (a.modify s f).under t = a.under t := by
    ext u
    rw [mem_under, mem_under, isUnder_modify a s u t hf.parent hf.number]
  rw [hu, hchildren, hnumber]
  exact h t old hsc

theorem isUnder_vacate (a : Arena) {s t u : ScopeId} (hst : s ≠ t) (hsu : s ≠ u) :
    (a.vacate s).isUnder t u = a.isUnder t u := by
  refine isUnder_congr ?_ ?_
  · rw [scope?_vacate, if_neg hst, Option.map_map]
    rfl
  · rw [scope?_vacate, if_neg hsu, Option.map_map]
    rfl

theorem under_vacate (a : Arena) (hst : s ≠ t) : (a.vacate s).under t = (a.under t).erase s := by
  ext u
  by_cases hsu : s = u
  · simp [← hsu, isUnder]
  · simp [isUnder_vacate a hsu hst, Ne.symm hsu]

theorem ChildrenExact.vacate (h : a.ChildrenExact) (s : ScopeId) : (a.vacate s).ChildrenExact := by
  intro t sc ht
  rw [scope?_vacate] at ht
  split at ht
  · cases ht
  next hst =>
    obtain ⟨old, hsc, rfl⟩ := Option.map_eq_some_iff.1 ht
    obtain ⟨hlt, hchildren⟩ := h t old hsc
    refine ⟨hlt.trans_eq (opened_vacate a s).symm, ?_⟩
    rw [under_vacate a hst]
    by_cases hp : a.isUnder s t = true
    · rw [Finset.card_erase_of_mem (mem_under.2 hp), ← hchildren]
      simp [lose, hp]
    · rw [Finset.erase_eq_of_notMem (by simpa using hp), ← hchildren]
      simp [lose, hp]

/-- A new scope holds its parent, if that is there, and no scope holds the new one. -/
theorem ChildrenExact.isUnder_push (h : a.ChildrenExact) (hfree : a.FreeExact) (parent : Option ScopeId) :
    (a.push parent).2.isUnder s t =
      if s = (a.push parent).1 then decide (parent = some t) && (a.scope? t).isSome
      else a.isUnder s t := by
  obtain ⟨hvacant, hself, hold, -⟩ := hfree.push parent
  by_cases hs : s = (a.push parent).1
  · rw [if_pos hs, isUnder, hs, hself, Option.any_some]
    congr 1
    by_cases ht : t = (a.push parent).1
    · rw [ht, hself, hvacant]
      exact decide_eq_false (Nat.lt_irrefl _)
    · rw [hold t ht, Option.any_map]
      cases hsc : a.scope? t with
      | none => rfl
      | some sc => exact decide_eq_true (h t sc hsc).1
  · rw [if_neg hs]
    by_cases ht : t = (a.push parent).1
    · -- The scopes that were there are older than the new one.
      have hnone : a.isUnder s t = false := by
        rw [isUnder, ht, hvacant]
        cases a.scope? s <;> simp
      rw [hnone, isUnder, hold s hs, ht, hself, Option.any_map]
      cases hsc : a.scope? s with
      | none => rfl
      | some sc =>
        have hle : ¬ a.opened < sc.number := Nat.not_lt_of_lt (h s sc hsc).1
        simp [fresh, gain, hle]
    · refine isUnder_congr ?_ ?_
      · rw [hold s hs, Option.map_map]
        rfl
      · rw [hold t ht, Option.map_map]
        rfl

theorem ChildrenExact.under_push_self (h : a.ChildrenExact) (hfree : a.FreeExact)
    (parent : Option ScopeId) : (a.push parent).2.under (a.push parent).1 = ∅ := by
  have hvacant := (hfree.push parent).1
  ext u
  rw [mem_under, h.isUnder_push hfree, hvacant, isUnder, hvacant]
  cases a.scope? u <;> simp

theorem ChildrenExact.under_push (h : a.ChildrenExact) (hfree : a.FreeExact) (parent : Option ScopeId)
    (ht : (a.scope? t).isSome) : (a.push parent).2.under t =
      if parent = some t then insert (a.push parent).1 (a.under t) else a.under t := by
  have hvacant := (hfree.push parent).1
  ext u
  rw [mem_under, h.isUnder_push hfree]
  by_cases hp : parent = some t
  · rw [if_pos hp, Finset.mem_insert, mem_under]
    by_cases hu : u = (a.push parent).1
    · simp [hu, hp, ht]
    · simp [hu]
  · rw [if_neg hp, mem_under]
    by_cases hu : u = (a.push parent).1
    · simp [hu, hp, isUnder, hvacant]
    · simp [hu]

/-- A push keeps the counts, whatever it is under. -/
theorem ChildrenExact.push (h : a.ChildrenExact) (hfree : a.FreeExact) (parent : Option ScopeId) :
    (a.push parent).2.ChildrenExact := by
  intro t sc ht
  rw [opened_push]
  by_cases hts : t = (a.push parent).1
  · rw [hts, (hfree.push parent).2.1] at ht
    cases ht
    rw [hts, h.under_push_self hfree]
    exact ⟨Nat.lt_succ_self _, rfl⟩
  · rw [(hfree.push parent).2.2.1 t hts] at ht
    obtain ⟨old, hsc, rfl⟩ := Option.map_eq_some_iff.1 ht
    obtain ⟨hlt, hchildren⟩ := h t old hsc
    refine ⟨hlt.trans (Nat.lt_succ_self _), ?_⟩
    have hnew : (a.push parent).1 ∉ a.under t := by simp [isUnder, (hfree.push parent).1]
    rw [h.under_push hfree parent (by simp [hsc])]
    split
    next hp => rw [Finset.card_insert_of_notMem hnew, ← hchildren]; rfl
    next hp => rw [← hchildren]; rfl

end Sluice.Arena
