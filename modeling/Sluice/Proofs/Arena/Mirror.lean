import Mathlib.Data.List.Find
import Sluice.Proofs.Arena.Chain
import Sluice.Proofs.Arena.Session
import Sluice.Proofs.Arena.Sweep

/-! Two sessions with the same client, one on an arena that keeps every scope and one on an arena that
reclaims slots. `Image` says that what is left in the second is a copy of what is in the first, under
the renaming of numbers to slots. -/
namespace Sluice

theorem Value.mem_scopes_rename {v : Value} {f : ScopeId → ScopeId} {t : ScopeId} :
    t ∈ (v.rename f).scopes ↔ ∃ s ∈ v.scopes, f s = t := by
  simp [Value.scopes, Value.closures_rename, Closure.rename]

namespace Session

variable {k c d : Session} {s t slot : ScopeId} {sk sc : Scope} {f : ScopeId → ScopeId}
  {running running' : List ScopeId} {handles handles' : List (Option ScopeId)}

/-! ### Numbers and slots -/

private theorem find?_reverse_range {n : Nat} {p : Nat → Bool} (hs : s < n) (hp : p s = true)
    (hlast : ∀ t, s < t → t < n → p t = false) : (List.range n).reverse.find? p = some s := by
  induction n with
  | zero => exact absurd hs (Nat.not_lt_zero s)
  | succ n ih =>
    rw [List.range_succ, List.reverse_append, List.reverse_singleton, List.singleton_append,
      List.find?_cons]
    rcases Nat.lt_succ_iff_lt_or_eq.1 hs with hlt | rfl
    · rw [hlast n hlt (Nat.lt_succ_self n)]
      exact ih hlt fun t hst htn => hlast t hst (Nat.lt_succ_of_lt htn)
    · rw [hp]

/-- The number of a slot is that of the last push that gave it. -/
theorem numberOf_eq (hs : s < c.slots.length) (hlast : ∀ t, s < t → t < c.slots.length →
    c.slotOf t ≠ c.slotOf s) : c.numberOf (c.slotOf s) = s := by
  rw [numberOf, find?_reverse_range hs (by simp) (by simpa using hlast)]
  rfl

theorem slotOf_congr (hslots : d.slots = c.slots) : d.slotOf = c.slotOf := by
  funext s
  rw [slotOf, slotOf, hslots]

theorem numberOf_congr (hslots : d.slots = c.slots) : d.numberOf = c.numberOf := by
  obtain ⟨_, slots, _, _, _⟩ := c
  subst hslots
  rfl

theorem inPlace_congr (hslots : d.slots = c.slots)
    (hold : ∀ t, (d.arena.scope? t).isSome = (c.arena.scope? t).isSome) :
    d.InPlace s ↔ c.InPlace s := by
  rw [InPlace, InPlace, slotOf_congr hslots, numberOf_congr hslots, hslots, hold]

theorem InPlace.inj (hs : c.InPlace s) (ht : c.InPlace t) (h : c.slotOf s = c.slotOf t) : s = t := by
  rw [← hs.2.2, ← ht.2.2, h]

theorem tenant?_of_inPlace (hs : c.InPlace s) : c.tenant? (c.slotOf s) = some s := by
  obtain ⟨sc, hsc⟩ := Option.isSome_iff_exists.1 hs.2.1
  rw [tenant?, hsc, Option.map_some, hs.2.2]

theorem count_eraseIdx (handles : List (Option ScopeId)) (i : Nat) (s : ScopeId) :
    (handles.eraseIdx i).count (some s) =
      handles.count (some s) - if (handles[i]?).join = some s then 1 else 0 := by
  by_cases hlt : i < handles.length
  · rw [← (List.getElem_cons_eraseIdx_perm hlt).count_eq (some s), List.count_cons,
      List.getElem?_eq_getElem hlt]
    cases handles[i] with
    | none => simp
    | some t => by_cases hts : t = s <;> simp [hts]
  · rw [List.eraseIdx_of_length_le (Nat.le_of_not_lt hlt),
      List.getElem?_eq_none (Nat.le_of_not_lt hlt)]
    rfl

/-! ### A push -/

/-- `d` is `c` after a push under `parent` that gave out `slot`. -/
structure Pushed (c d : Session) (parent : Option ScopeId) (slot : ScopeId) : Prop where
  slots : d.slots = c.slots ++ [slot]
  vacant : c.arena.scope? slot = none
  self : d.arena.scope? slot = some (c.arena.fresh parent)
  others : ∀ t, t ≠ slot → ∃ n, d.arena.scope? t = (c.arena.scope? t).map (Arena.gain n)

theorem pushed (hfree : c.arena.FreeExact) {parent : Option ScopeId}
    (hslots : d.slots = c.slots ++ [(c.arena.push parent).1])
    (harena : d.arena = (c.arena.push parent).2) : Pushed c d parent (c.arena.push parent).1 := by
  obtain ⟨hvacant, hself, hothers, -⟩ := hfree.push parent
  rw [← harena] at hself hothers
  exact ⟨hslots, hvacant, hself, fun t ht => ⟨_, hothers t ht⟩⟩

namespace Pushed

variable {parent : Option ScopeId}

theorem length (h : Pushed c d parent slot) : d.slots.length = c.slots.length + 1 := by
  simp [h.slots]

theorem slotOf (h : Pushed c d parent slot) (hs : s < c.slots.length) : d.slotOf s = c.slotOf s := by
  simp [Session.slotOf, h.slots, List.getElem?_append_left hs]

theorem slotOf_new (h : Pushed c d parent slot) : d.slotOf c.slots.length = slot := by
  simp [Session.slotOf, h.slots]

theorem numberOf_new (h : Pushed c d parent slot) : d.numberOf slot = c.slots.length := by
  have hlast : ∀ t, c.slots.length < t → t < d.slots.length → d.slotOf t ≠ d.slotOf c.slots.length := by
    intro t hst htn
    rw [h.length] at htn
    exact absurd hst (Nat.not_lt_of_le (Nat.le_of_lt_succ htn))
  have hnum := numberOf_eq (by simp [h.length]) hlast
  rwa [h.slotOf_new] at hnum

theorem numberOf (h : Pushed c d parent slot) (ht : t ≠ slot) : d.numberOf t = c.numberOf t := by
  rw [Session.numberOf, Session.numberOf, h.length, List.range_succ, List.reverse_append,
    List.reverse_singleton, List.singleton_append, List.find?_cons, h.slotOf_new,
    decide_eq_false (Ne.symm ht)]
  congr 1
  refine List.find?_congr fun u hu => ?_
  rw [h.slotOf (List.mem_range.1 (List.mem_reverse.1 hu))]

theorem isSome (h : Pushed c d parent slot) (ht : t ≠ slot) :
    (d.arena.scope? t).isSome = (c.arena.scope? t).isSome := by
  obtain ⟨n, hn⟩ := h.others t ht
  rw [hn, Option.isSome_map]

/-- The new scope is in its place, and so are those that were. -/
theorem inPlace_iff (h : Pushed c d parent slot) :
    d.InPlace s ↔ s = c.slots.length ∨ c.InPlace s := by
  by_cases hs : s < c.slots.length
  · have hsn : s ≠ c.slots.length := Nat.ne_of_lt hs
    simp only [InPlace, h.length, h.slotOf hs, hsn, false_or, hs, Nat.lt_succ_of_lt hs, true_and]
    by_cases heq : c.slotOf s = slot
    · rw [heq, h.numberOf_new, h.vacant]
      simp [hsn.symm]
    · rw [h.numberOf heq, h.isSome heq]
  · have hnot : ¬ c.InPlace s := fun hplace => hs hplace.1
    simp only [hnot, or_false]
    constructor
    · intro hplace
      exact Nat.le_antisymm (Nat.le_of_lt_succ (hplace.1.trans_eq h.length)) (Nat.le_of_not_lt hs)
    · rintro rfl
      refine ⟨by simp [h.length], ?_, ?_⟩
      · rw [h.slotOf_new, h.self]
        rfl
      · rw [h.slotOf_new, h.numberOf_new]

end Pushed

/-! ### A session that keeps every scope -/

/-- The slot of a scope is its number, and a parent is older than the scopes under it. -/
structure Fresh (k : Session) : Prop where
  exact : k.arena.FreeExact
  full : k.arena.free = []
  slots : k.slots = List.range k.arena.slots.size
  older : ∀ {s p}, k.arena.parent? s = some p → p < s

theorem Fresh.slotOf (h : k.Fresh) (hs : s < k.slots.length) : k.slotOf s = s := by
  rw [h.slots, List.length_range] at hs
  simp [Session.slotOf, h.slots, hs]

theorem Fresh.numberOf (h : k.Fresh) (hs : s < k.slots.length) : k.numberOf s = s := by
  have hlast : ∀ t, s < t → t < k.slots.length → k.slotOf t ≠ k.slotOf s := by
    intro t hst ht
    rw [h.slotOf hs, h.slotOf ht]
    exact Nat.ne_of_gt hst
  have hnum := numberOf_eq hs hlast
  rwa [h.slotOf hs] at hnum

theorem Fresh.modify (h : k.Fresh) (s : ScopeId) {f : Scope → Scope}
    (hf : ∀ sc, (f sc).parent = sc.parent) (hslots : d.slots = k.slots)
    (harena : d.arena = k.arena.modify s f) : d.Fresh where
  exact := harena ▸ h.exact.modify s f
  full := by rw [harena, Arena.free_modify, h.full]
  slots := by rw [hslots, harena, Arena.size_modify, h.slots]
  older := by
    intro t p ht
    rw [harena, Arena.parent?_modify _ _ _ hf] at ht
    exact h.older ht

/-- A push on an arena without empty slots gives the next number. -/
theorem Fresh.push_eq (h : k.Fresh) (parent : Option ScopeId) :
    k.arena.push parent = (k.slots.length, { k.arena.noteChild parent with
      slots := (k.arena.noteChild parent).slots.push (some (k.arena.fresh parent)),
      opened := k.arena.opened + 1 }) := by
  have hfree : (k.arena.noteChild parent).free = [] := by
    rw [← h.full]
    cases parent <;> rfl
  have hsize : (k.arena.noteChild parent).slots.size = k.slots.length := by
    rw [h.slots, List.length_range]
    cases parent <;> simp [Arena.noteChild]
  rw [Arena.push_eq, hfree, hsize]

theorem Fresh.push (h : k.Fresh) (parent : Option ScopeId)
    (hp : ∀ p, parent = some p → p < k.slots.length) (hslots : d.slots = k.slots ++ [k.slots.length])
    (harena : d.arena = (k.arena.push parent).2) : d.Fresh where
  exact := harena ▸ (h.exact.push parent).2.2.2
  full := by
    rw [harena, h.push_eq, ← h.full]
    cases parent <;> rfl
  slots := by
    rw [hslots, harena, h.push_eq, h.slots, List.length_range, ← List.range_succ]
    cases parent <;> simp [Arena.noteChild]
  older := by
    intro t p ht
    rw [harena, h.exact.parent?_push] at ht
    split at ht
    next hts =>
      rw [hts, h.push_eq]
      exact hp p ht
    next => exact h.older ht

/-! ### Copies -/

/-- `sc` stands for the scope `sk` of number `s`, with the links renamed. -/
structure Copies (running : List ScopeId) (handles : List (Option ScopeId)) (f : ScopeId → ScopeId)
    (s : ScopeId) (sk sc : Scope) : Prop where
  parent : sc.parent = sk.parent.map f
  vars : sc.vars = sk.vars.map fun e => (e.1, e.2.rename f)
  isOpen : sc.isOpen = true ↔ s ∈ running
  handles : sc.handles = handles.count (some s)

theorem Copies.functions (h : Copies running handles f s sk sc) :
    sc.functions = sk.functions.map (·.rename f) := by
  simp [Scope.functions, h.vars, List.flatMap_map, List.map_flatMap, Binding.rename,
    Value.closures_rename]

theorem Copies.mem_links (h : Copies running handles f s sk sc) :
    t ∈ sc.links ↔ ∃ u ∈ sk.links, f u = t := by
  simp only [Scope.mem_links, h.parent, h.functions, List.mem_map, Option.map_eq_some_iff]
  constructor
  · rintro (⟨u, hu, rfl⟩ | ⟨_, ⟨x, hx, rfl⟩, rfl⟩)
    · exact ⟨u, .inl hu, rfl⟩
    · exact ⟨x.scope, .inr ⟨x, hx, rfl⟩, rfl⟩
  · rintro ⟨u, hu | ⟨x, hx, rfl⟩, rfl⟩
    · exact .inl ⟨u, hu, rfl⟩
    · exact .inr ⟨_, ⟨x, hx, rfl⟩, rfl⟩

theorem Copies.congr (h : Copies running handles f s sk sc) {g : ScopeId → ScopeId}
    (hfg : ∀ t ∈ sk.links, f t = g t) : Copies running handles g s sk sc where
  parent := by
    rw [h.parent]
    exact Option.map_congr fun p hp => hfg p (Scope.mem_links.2 (.inl hp))
  vars := by
    rw [h.vars]
    refine List.map_congr_left fun e he => ?_
    have hv : e.2.value.rename f = e.2.value.rename g := Value.rename_congr _ fun x hx =>
      hfg _ (Scope.mem_links.2 (.inr ⟨x, List.mem_flatMap.2 ⟨e, he, hx⟩, rfl⟩))
    rw [Binding.rename, Binding.rename, hv]
  isOpen := h.isOpen
  handles := h.handles

/-- What is left in `c` is a copy of what is in `k`, and all that `k` can reach is left. -/
structure Image (k c : Session) : Prop extends Fresh k where
  length : c.slots.length = k.slots.length
  nextClosure : c.arena.nextClosure = k.arena.nextClosure
  values : c.values = k.values.map (·.rename c.slotOf)
  handles : c.handles = k.handles
  running : ∀ s ∈ k.running, c.InPlace s
  handle : ∀ s, some s ∈ k.handles → c.InPlace s
  value : ∀ v ∈ k.values, ∀ s ∈ v.scopes, c.InPlace s
  link : ∀ {s t sk}, c.InPlace s → k.arena.scope? s = some sk → t ∈ sk.links → c.InPlace t
  copy : ∀ {s}, c.InPlace s → ∃ sk sc, k.arena.scope? s = some sk ∧
    c.arena.scope? (c.slotOf s) = some sc ∧ Copies k.running k.handles c.slotOf s sk sc
  covered : ∀ {slot}, (c.arena.scope? slot).isSome → ∃ s, c.InPlace s ∧ c.slotOf s = slot

theorem image_empty : Image {} {} where
  exact := Arena.freeExact_empty
  full := rfl
  slots := rfl
  older := by simp [Arena.parent?, Arena.scope?]
  length := rfl
  nextClosure := rfl
  values := rfl
  handles := rfl
  running := by simp
  handle := by simp
  value := by simp
  link := fun h => absurd h.1 (Nat.not_lt_zero _)
  copy := fun h => absurd h.1 (Nat.not_lt_zero _)
  covered := by simp [Arena.scope?]

namespace Image

theorem slotOf_eq (h : Image k c) (hs : c.InPlace s) : k.slotOf s = s :=
  h.slotOf (hs.1.trans_eq h.length)

theorem numberOf_eq (h : Image k c) (hs : c.InPlace s) : k.numberOf s = s :=
  h.numberOf (hs.1.trans_eq h.length)

theorem tenant?_eq (h : Image k c) (hs : c.InPlace s) : k.tenant? s = some s := by
  obtain ⟨sk, -, hsk, -⟩ := h.copy hs
  rw [tenant?, hsk, Option.map_some, h.numberOf_eq hs]

/-- What the client can reach has kept its slot. -/
theorem inPlace_of_reaches (h : Image k c) (hs : k.Reaches s) : c.InPlace s := by
  induction hs with
  | running hs => exact h.running _ hs
  | handle hs => exact h.handle _ hs
  | value hv hs => exact h.value _ hv _ hs
  | link _ hs ht ih => exact h.link ih hs ht

theorem inPlace_of_functions (h : Image k c) (hs : c.InPlace s) (hsk : k.arena.scope? s = some sk)
    {x : Closure} (hx : x ∈ sk.functions) : c.InPlace x.scope :=
  h.link hs hsk (Scope.mem_links.2 (.inr ⟨x, hx, rfl⟩))

theorem inPlace_of_available (h : Image k c) {v : Value} (hv : k.Available v) :
    ∀ t ∈ v.scopes, c.InPlace t := by
  intro t ht
  obtain ⟨x, hx, rfl⟩ := Value.mem_scopes.1 ht
  rcases hv x hx with ⟨w, hw, hxw⟩ | ⟨s, sk, hs, hsk, hxs⟩
  · exact h.value w hw _ (Value.mem_scopes.2 ⟨x, hxw, rfl⟩)
  · exact h.inPlace_of_functions (h.inPlace_of_reaches hs) hsk hxs

/-- A value that the client can get at may be bound: its functions are in the arena. -/
theorem mem_references (h : Image k c) {v : Value} (hv : k.Available v) :
    ∀ x ∈ (v.rename c.slotOf).closures, x ∈ c.arena.references c.values := by
  intro y hy
  rw [Value.closures_rename, List.mem_map] at hy
  obtain ⟨x, hx, rfl⟩ := hy
  rw [Arena.mem_references]
  rcases hv x hx with ⟨w, hw, hxw⟩ | ⟨s, sk, hs, hsk, hxs⟩
  · refine .inl ⟨w.rename c.slotOf, ?_, ?_⟩
    · rw [h.values]
      exact List.mem_map_of_mem hw
    · rw [Value.closures_rename]
      exact List.mem_map_of_mem hxw
  · obtain ⟨sk', sc, hsk', hsc, hcopy⟩ := h.copy (h.inPlace_of_reaches hs)
    rw [hsk] at hsk'
    cases hsk'
    refine .inr ⟨_, sc, hsc, ?_⟩
    rw [hcopy.functions]
    exact List.mem_map_of_mem hxs

theorem rename_slotOf (h : Image k c) {v : Value} (hv : ∀ t ∈ v.scopes, c.InPlace t) :
    v.rename k.slotOf = v := by
  refine (Value.rename_congr v fun x hx => ?_).trans (Value.rename_id v)
  exact h.slotOf_eq (hv _ (Value.mem_scopes.2 ⟨x, hx, rfl⟩))

/-- A value in the client's names does not depend on the slots. -/
theorem rename_numberOf (h : Image k c) {v : Value} (hv : ∀ t ∈ v.scopes, c.InPlace t) :
    (v.rename c.slotOf).rename c.numberOf = v.rename k.numberOf := by
  refine Value.rename_rename v fun x hx => ?_
  have hx' := hv _ (Value.mem_scopes.2 ⟨x, hx, rfl⟩)
  rw [hx'.2.2, h.numberOf_eq hx']

/-! ### What keeps the image -/

/-- One scope changed on both sides. -/
theorem modify (h : Image k c) (hs : c.InPlace s) {fk fc : Scope → Scope}
    (hparent : ∀ sk, (fk sk).parent = sk.parent)
    (hlinks : ∀ sk, k.arena.scope? s = some sk → ∀ t ∈ (fk sk).links, c.InPlace t)
    (hrunning : ∀ t ∈ running, c.InPlace t) (hsame : handles' = handles)
    (hhandles : ∀ t, some t ∈ handles → c.InPlace t)
    (hother : ∀ t, t ≠ s → (t ∈ running ↔ t ∈ k.running) ∧
      handles.count (some t) = k.handles.count (some t))
    (hcopy : ∀ sk sc, Copies k.running k.handles c.slotOf s sk sc →
      Copies running handles c.slotOf s (fk sk) (fc sc)) :
    Image { k with arena := k.arena.modify s fk, running, handles }
      { c with arena := c.arena.modify (c.slotOf s) fc, running := running', handles := handles' } := by
  have hplace : ∀ t, InPlace { c with
      arena := c.arena.modify (c.slotOf s) fc, running := running', handles := handles' } t ↔
        c.InPlace t := by
    intro t
    refine inPlace_congr rfl fun u => ?_
    rw [Arena.scope?_modify]
    split <;> simp
  refine ⟨h.toFresh.modify s hparent rfl rfl, h.length, h.nextClosure, h.values, hsame,
    fun t ht => (hplace t).2 (hrunning t ht), fun t ht => (hplace t).2 (hhandles t ht),
    fun v hv t ht => (hplace t).2 (h.value v hv t ht), ?_, ?_, ?_⟩
  · intro u t sk hu hsk ht
    rw [hplace] at hu ⊢
    rw [Arena.scope?_modify] at hsk
    split at hsk
    next hsu =>
      obtain ⟨old, hold, rfl⟩ := Option.map_eq_some_iff.1 hsk
      exact hlinks old (hsu ▸ hold) t ht
    next => exact h.link hu hsk ht
  · intro u hu
    rw [hplace] at hu
    obtain ⟨sk, sc, hsk, hsc, hcopy'⟩ := h.copy hu
    show ∃ sk sc, (k.arena.modify s fk).scope? u = some sk ∧
      (c.arena.modify (c.slotOf s) fc).scope? (c.slotOf u) = some sc ∧
        Copies running handles c.slotOf u sk sc
    by_cases hsu : s = u
    · subst hsu
      exact ⟨fk sk, fc sc, by simp [hsk], by simp [hsc], hcopy sk sc hcopy'⟩
    · have hslot : c.slotOf s ≠ c.slotOf u := fun heq => hsu (hs.inj hu heq)
      obtain ⟨hrun, hcount⟩ := hother u (Ne.symm hsu)
      refine ⟨sk, sc, by simp [hsu, hsk], by simp [hslot, hsc], hcopy'.parent, hcopy'.vars, ?_, ?_⟩
      · rw [hcopy'.isOpen, hrun]
      · rw [hcopy'.handles, hcount]
  · intro slot hslot
    have hslot' : (c.arena.scope? slot).isSome := by
      rw [Arena.scope?_modify] at hslot
      split at hslot <;> simpa using hslot
    obtain ⟨u, hu, huslot⟩ := h.covered hslot'
    exact ⟨u, (hplace u).2 hu, huslot⟩

/-- One scope changed on both sides in how it is held. -/
theorem adjust (h : Image k c) (hs : c.InPlace s) {fk fc : Scope → Scope}
    (hk : ∀ sk, (fk sk).parent = sk.parent ∧ (fk sk).vars = sk.vars)
    (hc : ∀ sc, (fc sc).parent = sc.parent ∧ (fc sc).vars = sc.vars)
    (hrunning : ∀ t ∈ running, c.InPlace t) (hsame : handles' = handles)
    (hhandles : ∀ t, some t ∈ handles → c.InPlace t)
    (hother : ∀ t, t ≠ s → (t ∈ running ↔ t ∈ k.running) ∧
      handles.count (some t) = k.handles.count (some t))
    (hopen : ∀ sc, (sc.isOpen = true ↔ s ∈ k.running) → ((fc sc).isOpen = true ↔ s ∈ running))
    (hcount : ∀ sc, sc.handles = k.handles.count (some s) →
      (fc sc).handles = handles.count (some s)) :
    Image { k with arena := k.arena.modify s fk, running, handles }
      { c with arena := c.arena.modify (c.slotOf s) fc, running := running', handles := handles' } := by
  have hlinks : ∀ sk, (fk sk).links = sk.links := by
    intro sk
    rw [Scope.links, Scope.links, Scope.captures, Scope.captures, (hk sk).1, (hk sk).2]
  refine h.modify hs (fun sk => (hk sk).1) (fun sk hsk t ht => ?_) hrunning hsame hhandles hother
    fun sk sc hcopy => ⟨?_, ?_, hopen sc hcopy.isOpen, hcount sc hcopy.handles⟩
  · rw [hlinks] at ht
    exact h.link hs hsk ht
  · rw [(hc sc).1, (hk sk).1, hcopy.parent]
  · rw [(hc sc).2, (hk sk).2, hcopy.vars]

/-- Other values kept outside. -/
theorem withValues (h : Image k c) {vs : List Value} (hvs : ∀ v ∈ vs, ∀ t ∈ v.scopes, c.InPlace t) :
    Image { k with values := vs } { c with values := vs.map (·.rename c.slotOf) } where
  toFresh := ⟨h.exact, h.full, h.slots, h.older⟩
  length := h.length
  nextClosure := h.nextClosure
  values := rfl
  handles := h.handles
  running := h.running
  handle := h.handle
  value := hvs
  link := h.link
  copy := h.copy
  covered := h.covered

/-- Functions counted on both sides. -/
theorem withCount (h : Image k c) (n : Nat) :
    Image { k with arena := { k.arena with nextClosure := n } }
      { c with arena := { c.arena with nextClosure := n } } where
  toFresh := ⟨⟨h.exact.nodup, h.exact.mem_iff⟩, h.full, h.slots, h.older⟩
  length := h.length
  nextClosure := rfl
  values := h.values
  handles := h.handles
  running := h.running
  handle := h.handle
  value := h.value
  link := h.link
  copy := h.copy
  covered := h.covered

theorem lt_length (h : Image k c) (hs : c.InPlace s) : s < k.slots.length :=
  hs.1.trans_eq h.length

private theorem push_link {k' : Session} (h : Image k c) {parent : Option ScopeId}
    (hp : ∀ p, parent = some p → c.InPlace p) (hk : Pushed k k' parent k.slots.length)
    (hs : s = k.slots.length ∨ c.InPlace s) (hsk : k'.arena.scope? s = some sk) (ht : t ∈ sk.links) :
    c.InPlace t := by
  rcases hs with rfl | hs
  · rw [hk.self] at hsk
    cases hsk
    exact hp t (by simpa [Scope.mem_links] using ht)
  · obtain ⟨n, hn⟩ := hk.others s (Nat.ne_of_lt (h.lt_length hs))
    rw [hn] at hsk
    obtain ⟨old, hold, rfl⟩ := Option.map_eq_some_iff.1 hsk
    exact h.link hs hold ht

private theorem push_copy {k' : Session} (h : Image k c) {parent : Option ScopeId}
    (hp : ∀ p, parent = some p → c.InPlace p) (hk : Pushed k k' parent k.slots.length)
    (hc : Pushed c d (parent.map c.slotOf) slot) (hs : s = k.slots.length ∨ c.InPlace s) :
    ∃ sk sc, k'.arena.scope? s = some sk ∧ d.arena.scope? (d.slotOf s) = some sc ∧
      Copies (k.slots.length :: k.running) k.handles d.slotOf s sk sc := by
  have hsame : ∀ {t}, c.InPlace t → c.slotOf t = d.slotOf t := fun ht => (hc.slotOf ht.1).symm
  have hne : ∀ {t}, c.InPlace t → t ≠ k.slots.length := fun ht => Nat.ne_of_lt (h.lt_length ht)
  rcases hs with rfl | hs
  · have hself := hc.self
    rw [← hc.slotOf_new, h.length] at hself
    refine ⟨_, _, hk.self, hself, ⟨?_, rfl, by simp, ?_⟩⟩
    · exact Option.map_congr fun p hpp => hsame (hp p hpp)
    · exact (List.count_eq_zero.2 fun hmem => hne (h.handle _ hmem) rfl).symm
  · obtain ⟨sk, sc, hsk, hsc, hcopy⟩ := h.copy hs
    have hslot : c.slotOf s ≠ slot := by
      intro heq
      rw [heq, hc.vacant] at hsc
      cases hsc
    have hcopy' := hcopy.congr fun t ht => hsame (h.link hs hsk ht)
    obtain ⟨n, hn⟩ := hk.others s (hne hs)
    obtain ⟨n', hn'⟩ := hc.others _ hslot
    rw [hsk, Option.map_some] at hn
    rw [hsc, Option.map_some, hsame hs] at hn'
    refine ⟨_, _, hn, hn', hcopy'.parent, hcopy'.vars, ?_, hcopy'.handles⟩
    exact hcopy'.isOpen.trans (by simp [hne hs])

/-- A new scope on both sides. -/
theorem push (h : Image k c) (hfree : c.arena.FreeExact) {parent : Option ScopeId}
    (hp : ∀ p, parent = some p → c.InPlace p) :
    Image
      { k with
        arena := (k.arena.push parent).2, slots := k.slots ++ [(k.arena.push parent).1],
        running := k.slots.length :: k.running }
      { c with
        arena := (c.arena.push (parent.map c.slotOf)).2,
        slots := c.slots ++ [(c.arena.push (parent.map c.slotOf)).1], running := running' } := by
  have hnum : (k.arena.push parent).1 = k.slots.length := by rw [h.push_eq]
  have hk : Pushed k { k with
      arena := (k.arena.push parent).2, slots := k.slots ++ [(k.arena.push parent).1],
      running := k.slots.length :: k.running } parent k.slots.length := hnum ▸ pushed h.exact rfl rfl
  have hc : Pushed c { c with
      arena := (c.arena.push (parent.map c.slotOf)).2,
      slots := c.slots ++ [(c.arena.push (parent.map c.slotOf)).1], running := running' }
        (parent.map c.slotOf) (c.arena.push (parent.map c.slotOf)).1 := pushed hfree rfl rfl
  have hplace := fun t => hc.inPlace_iff (s := t)
  rw [h.length] at hplace
  refine ⟨h.toFresh.push parent (fun p hpp => h.lt_length (hp p hpp)) (by rw [hnum]) rfl, ?_, ?_, ?_,
    h.handles, ?_, fun t ht => (hplace t).2 (.inr (h.handle t ht)),
    fun v hv t ht => (hplace t).2 (.inr (h.value v hv t ht)), ?_, ?_, ?_⟩
  · rw [hc.length, hk.length, h.length]
  · show (c.arena.push _).2.nextClosure = (k.arena.push parent).2.nextClosure
    rw [Arena.nextClosure_push, Arena.nextClosure_push, h.nextClosure]
  · refine h.values.trans (List.map_congr_left fun v hv => Value.rename_congr v fun x hx => ?_)
    exact (hc.slotOf (h.value v hv _ (Value.mem_scopes.2 ⟨x, hx, rfl⟩)).1).symm
  · intro t ht
    rcases List.mem_cons.1 ht with rfl | ht
    · exact (hplace _).2 (.inl rfl)
    · exact (hplace t).2 (.inr (h.running t ht))
  · intro s t sk hs hsk ht
    exact (hplace t).2 (.inr (push_link h hp hk ((hplace s).1 hs) hsk ht))
  · intro s hs
    exact push_copy h hp hk hc ((hplace s).1 hs)
  · intro slot hslot
    by_cases heq : slot = (c.arena.push (parent.map c.slotOf)).1
    · exact ⟨k.slots.length, (hplace _).2 (.inl rfl), by rw [← h.length, hc.slotOf_new, heq]⟩
    · rw [hc.isSome heq] at hslot
      obtain ⟨u, hu, rfl⟩ := h.covered hslot
      exact ⟨u, (hplace u).2 (.inr hu), hc.slotOf hu.1⟩

end Image

/-- After some slots were emptied, the scopes of the others are in their places. -/
theorem inPlace_frees {gone : ScopeId → Prop} {b : Arena} (hf : Arena.Frees c.arena b gone) :
    InPlace { c with arena := b, running := running' } s ↔ c.InPlace s ∧ ¬ gone (c.slotOf s) := by
  show s < c.slots.length ∧ (b.scope? (c.slotOf s)).isSome ∧ c.numberOf (c.slotOf s) = s ↔ _
  by_cases hg : gone (c.slotOf s)
  · simp [hf.emptied _ hg, hg]
  · obtain ⟨n, hn⟩ := hf.kept _ hg
    simp [hn, hg, InPlace]

/-- Garbage is freed on one side. -/
theorem Image.frees (h : Image k c) {gone : ScopeId → Prop} {b : Arena}
    (hg : c.arena.Garbage c.values gone) (hf : Arena.Frees c.arena b gone) :
    Image k { c with arena := b, running := running' } := by
  have hrunning : ∀ t ∈ k.running, ¬ gone (c.slotOf t) := by
    intro t ht hgone
    obtain ⟨sk, sc, -, hsc, hcopy⟩ := h.copy (h.running t ht)
    exact Bool.eq_false_iff.1 (hg.closed hgone hsc).1 (hcopy.isOpen.2 ht)
  have hhandle : ∀ t, some t ∈ k.handles → ¬ gone (c.slotOf t) := by
    intro t ht hgone
    obtain ⟨sk, sc, -, hsc, hcopy⟩ := h.copy (h.handle t ht)
    have hzero := (hg.closed hgone hsc).2
    rw [hcopy.handles, List.count_eq_zero] at hzero
    exact hzero ht
  have hvalue : ∀ v ∈ k.values, ∀ t ∈ v.scopes, ¬ gone (c.slotOf t) := by
    intro v hv t ht
    have hmem : v.rename c.slotOf ∈ c.values := by
      rw [h.values]
      exact List.mem_map_of_mem hv
    exact hg.value hmem (Value.mem_scopes_rename.2 ⟨t, ht, rfl⟩)
  refine ⟨h.toFresh, h.length, hf.nextClosure.trans h.nextClosure, h.values, h.handles,
    fun t ht => (inPlace_frees hf).2 ⟨h.running t ht, hrunning t ht⟩,
    fun t ht => (inPlace_frees hf).2 ⟨h.handle t ht, hhandle t ht⟩,
    fun v hv t ht => (inPlace_frees hf).2 ⟨h.value v hv t ht, hvalue v hv t ht⟩, ?_, ?_, ?_⟩
  · intro s t sk hs hsk ht
    obtain ⟨hs, hsg⟩ := (inPlace_frees hf).1 hs
    obtain ⟨sk', sc, hsk', hsc, hcopy⟩ := h.copy hs
    rw [hsk] at hsk'
    cases hsk'
    exact (inPlace_frees hf).2
      ⟨h.link hs hsk ht, hg.link hsc hsg (hcopy.mem_links.2 ⟨t, ht, rfl⟩)⟩
  · intro s hs
    obtain ⟨hs, hsg⟩ := (inPlace_frees hf).1 hs
    obtain ⟨sk, sc, hsk, hsc, hcopy⟩ := h.copy hs
    obtain ⟨n, hn⟩ := hf.scope?_kept hsc hsg
    exact ⟨sk, _, hsk, hn, hcopy.parent, hcopy.vars, hcopy.isOpen, hcopy.handles⟩
  · intro slot hslot
    obtain ⟨sc, hsc⟩ := Option.isSome_iff_exists.1 hslot
    obtain ⟨hsg, n, hold⟩ := hf.scope?_eq_some hsc
    obtain ⟨s, hs, rfl⟩ := h.covered (Option.isSome_iff_exists.2 ⟨_, hold⟩)
    exact ⟨s, (inPlace_frees hf).2 ⟨hs, hsg⟩, rfl⟩

/-! ### What can be reached -/

/-- The same scopes can be reached on both sides. -/
theorem Image.reaches_iff (h : Image k c) (hs : c.InPlace s) :
    c.arena.Reaches c.values (c.slotOf s) ↔ k.Reaches s := by
  constructor
  · intro hr
    generalize hslot : c.slotOf s = slot at hr
    induction hr generalizing s with
    | running hsc hopen =>
      obtain ⟨sk, sc', -, hsc', hcopy⟩ := h.copy hs
      rw [hslot, hsc] at hsc'
      cases hsc'
      exact .running (hcopy.isOpen.1 hopen)
    | handle hsc hpos =>
      obtain ⟨sk, sc', -, hsc', hcopy⟩ := h.copy hs
      rw [hslot, hsc] at hsc'
      cases hsc'
      rw [hcopy.handles, List.count_pos_iff] at hpos
      exact .handle hpos
    | value hv' ht =>
      rw [h.values] at hv'
      obtain ⟨v, hv, rfl⟩ := List.mem_map.1 hv'
      obtain ⟨u, hu, rfl⟩ := Value.mem_scopes_rename.1 ht
      rw [hs.inj (h.value v hv u hu) hslot]
      exact .value hv hu
    | link _ hsc ht ih =>
      obtain ⟨u, hu, rfl⟩ := h.covered (Option.isSome_iff_exists.2 ⟨_, hsc⟩)
      obtain ⟨sk, sc', hsk, hsc', hcopy⟩ := h.copy hu
      rw [hsc] at hsc'
      cases hsc'
      obtain ⟨w, hw, rfl⟩ := hcopy.mem_links.1 ht
      rw [hs.inj (h.link hu hsk hw) hslot]
      exact .link (ih hu rfl) hsk hw
  · intro hr
    induction hr with
    | running ht =>
      obtain ⟨sk, sc, -, hsc, hcopy⟩ := h.copy hs
      exact .running hsc (hcopy.isOpen.2 ht)
    | handle ht =>
      obtain ⟨sk, sc, -, hsc, hcopy⟩ := h.copy hs
      exact .handle hsc (by rwa [hcopy.handles, List.count_pos_iff])
    | value hv ht =>
      refine .value ?_ (Value.mem_scopes_rename.2 ⟨_, ht, rfl⟩)
      rw [h.values]
      exact List.mem_map_of_mem hv
    | link hr hsk ht ih =>
      have hu := h.inPlace_of_reaches hr
      obtain ⟨sk', sc, hsk', hsc, hcopy⟩ := h.copy hu
      rw [hsk] at hsk'
      cases hsk'
      exact .link (ih hu) hsc (hcopy.mem_links.2 ⟨_, ht, rfl⟩)

end Session

end Sluice
