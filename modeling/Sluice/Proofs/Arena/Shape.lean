import Sluice.Proofs.Arena.Chain
import Sluice.Proofs.Arena.Rooted

/-! What a search for a name sees of an arena: the parent of each scope and what it binds. How scopes are
held and how many there are does not matter to it. -/
namespace Sluice

/-- What a search sees of a scope. -/
structure Shape where
  parent : Option ScopeId
  vars : Table String Binding

def Scope.shape (sc : Scope) : Shape := ⟨sc.parent, sc.vars⟩

namespace Shape

def insert (sh : Shape) (name : String) (b : Binding) : Shape := ⟨sh.parent, sh.vars.insert name b⟩

end Shape

namespace Arena

variable {a b : Arena} {s t p : ScopeId} {sh : Shape} {name : String} {outside : List Value}
  {gone : ScopeId → Prop} {r : ScopeId × Binding}

def shape? (a : Arena) (s : ScopeId) : Option Shape := (a.scope? s).map Scope.shape

theorem isSome_shape? : (a.shape? s).isSome = (a.scope? s).isSome := Option.isSome_map

theorem parent?_eq_bind (a : Arena) (s : ScopeId) : a.parent? s = (a.shape? s).bind (·.parent) := by
  rw [shape?, Option.bind_map]
  rfl

theorem local?_eq_bind (a : Arena) (s : ScopeId) (name : String) :
    a.local? s name = (a.shape? s).bind (·.vars.get? name) := by
  rw [shape?, Option.bind_map]
  rfl

theorem exports_eq (a : Arena) (s : ScopeId) : a.exports s =
    (((((a.shape? s).map (·.vars)).getD []).filter (·.2.isPub)).map fun (n, b) =>
      (n, b.value)).mergeSort fun x y => !(y.1 < x.1) := by
  rw [shape?, Option.map_map]
  rfl

/-! ### Searches -/

theorem findFrom_of_shape? (hs : a.shape? s = some sh) (name : String) (fuel : Nat) :
    a.findFrom name (fuel + 1) s = match sh.vars.get? name with
      | some b => some (s, b)
      | none => sh.parent.bind (a.findFrom name fuel) := by
  obtain ⟨sc, hsc, rfl⟩ := Option.map_eq_some_iff.1 hs
  rw [findFrom, hsc]
  dsimp only [Scope.shape]
  cases sc.vars.get? name with
  | some b => rfl
  | none => cases sc.parent <;> rfl

theorem isSome_of_findFrom {fuel : Nat} (h : a.findFrom name fuel s = some r) :
    ∃ n sh, fuel = n + 1 ∧ a.shape? s = some sh := by
  cases fuel with
  | zero => cases h
  | succ n =>
    rw [findFrom] at h
    cases hs : a.scope? s with
    | none =>
      rw [hs] at h
      cases h
    | some sc => exact ⟨n, sc.shape, rfl, by rw [shape?, hs]; rfl⟩

/-- The scopes that a search goes through from `s` to the scope of `r`. -/
inductive Trail (a : Arena) (name : String) (r : ScopeId × Binding) : ScopeId → List ScopeId → Prop
  | here {s : ScopeId} {sh : Shape} {b : Binding} : a.shape? s = some sh → sh.vars.get? name = some b →
    r = (s, b) → Trail a name r s [s]
  | up {s p : ScopeId} {sh : Shape} {l : List ScopeId} : a.shape? s = some sh →
    sh.vars.get? name = none → sh.parent = some p → Trail a name r p l → Trail a name r s (s :: l)

namespace Trail

variable {l : List ScopeId}

theorem isSome (h : Trail a name r s l) : ∀ t ∈ l, (a.scope? t).isSome := by
  induction h with
  | here hs _ _ => simpa [← isSome_shape?] using Option.isSome_of_eq_some hs
  | up hs _ _ _ ih => exact List.forall_mem_cons.2 ⟨isSome_shape? ▸ Option.isSome_of_eq_some hs, ih⟩

/-- From each of its scopes on, a trail is one. -/
theorem suffix (h : Trail a name r s l) (ht : t ∈ l) : ∃ l', Trail a name r t l' ∧ l'.Sublist l := by
  induction h with
  | here hs hget hr =>
    rw [List.mem_singleton.1 ht]
    exact ⟨_, .here hs hget hr, .refl _⟩
  | @up s p sh l hs hget hp hl ih =>
    rcases List.mem_cons.1 ht with rfl | ht
    · exact ⟨_, .up hs hget hp hl, .refl _⟩
    · obtain ⟨l', hl', hsub⟩ := ih ht
      exact ⟨l', hl', hsub.cons s⟩

theorem findFrom (h : Trail a name r s l) {fuel : Nat} (hfuel : l.length ≤ fuel) :
    a.findFrom name fuel s = some r := by
  induction h generalizing fuel with
  | here hs hget hr =>
    obtain ⟨n, rfl⟩ := Nat.exists_eq_add_of_le' hfuel
    rw [List.length_singleton, findFrom_of_shape? hs, hget, hr]
  | @up s p sh l hs hget hp _ ih =>
    obtain ⟨n, rfl⟩ := Nat.exists_eq_add_of_le' (Nat.le_trans (Nat.le_add_left 1 l.length) hfuel)
    rw [findFrom_of_shape? hs, hget, hp]
    exact ih (Nat.le_of_succ_le_succ hfuel)

end Trail

/-- A search that comes back to a scope could have gone on from there at once. -/
theorem exists_trail {fuel : Nat} (h : a.findFrom name fuel s = some r) :
    ∃ l, Trail a name r s l ∧ l.Nodup := by
  induction fuel generalizing s with
  | zero => cases h
  | succ n ih =>
    obtain ⟨-, sh, -, hs⟩ := isSome_of_findFrom h
    rw [findFrom_of_shape? hs] at h
    cases hget : sh.vars.get? name with
    | some b =>
      rw [hget] at h
      cases h
      exact ⟨[s], .here hs hget rfl, List.nodup_singleton s⟩
    | none =>
      rw [hget] at h
      obtain ⟨p, hp, hfind⟩ := Option.bind_eq_some_iff.1 h
      obtain ⟨l, hl, hnodup⟩ := ih hfind
      by_cases hmem : s ∈ l
      · obtain ⟨l', hl', hsub⟩ := hl.suffix hmem
        exact ⟨l', hl', hsub.nodup hnodup⟩
      · exact ⟨s :: l, .up hs hget hp hl, List.nodup_cons.2 ⟨hmem, hnodup⟩⟩

/-- A search of all scopes finds what any search finds. -/
theorem find?_eq_some_iff : a.find? s name = some r ↔ ∃ fuel, a.findFrom name fuel s = some r := by
  refine ⟨fun h => ⟨_, h⟩, fun ⟨fuel, h⟩ => ?_⟩
  obtain ⟨l, hl, hnodup⟩ := exists_trail h
  have hsub : l ⊆ List.range a.slots.size := by
    intro t ht
    obtain ⟨sc, hsc⟩ := Option.isSome_iff_exists.1 (hl.isSome t ht)
    exact List.mem_range.2 (lt_size_of_scope? hsc)
  exact hl.findFrom (by simpa using (hnodup.subperm hsub).length_le)

theorem find?_of_shape? (hs : a.shape? s = some sh) (name : String) :
    a.find? s name = match sh.vars.get? name with
      | some b => some (s, b)
      | none => sh.parent.bind (a.find? · name) := by
  apply Option.ext
  intro r
  rw [find?_eq_some_iff]
  cases hget : sh.vars.get? name with
  | some b =>
    refine ⟨fun ⟨fuel, h⟩ => ?_, fun h => ⟨1, ?_⟩⟩
    · obtain ⟨n, -, rfl, -⟩ := isSome_of_findFrom h
      rwa [findFrom_of_shape? hs, hget] at h
    · rwa [findFrom_of_shape? hs, hget]
  | none =>
    refine ⟨fun ⟨fuel, h⟩ => ?_, fun h => ?_⟩
    · obtain ⟨n, -, rfl, -⟩ := isSome_of_findFrom h
      rw [findFrom_of_shape? hs, hget] at h
      obtain ⟨p, hp, hfind⟩ := Option.bind_eq_some_iff.1 h
      exact Option.bind_eq_some_iff.2 ⟨p, hp, find?_eq_some_iff.2 ⟨n, hfind⟩⟩
    · obtain ⟨p, hp, hfind⟩ := Option.bind_eq_some_iff.1 h
      obtain ⟨n, hn⟩ := find?_eq_some_iff.1 hfind
      exact ⟨n + 1, by rw [findFrom_of_shape? hs, hget]; exact Option.bind_eq_some_iff.2 ⟨p, hp, hn⟩⟩

/-! ### Changes -/

theorem shape?_modify (a : Arena) (s t : ScopeId) {f : Scope → Scope}
    (hf : ∀ sc, (f sc).shape = sc.shape) : (a.modify s f).shape? t = a.shape? t := by
  rw [shape?, scope?_modify]
  split
  · rw [Option.map_map, shape?]
    exact Option.map_congr fun sc _ => hf sc
  · rfl

theorem shape?_define (a : Arena) (s t : ScopeId) (name : String) (b : Binding) :
    (a.define s name b).shape? t = if s = t then (a.shape? t).map (·.insert name b) else a.shape? t := by
  rw [shape?, define, scope?_modify]
  split
  · rw [Option.map_map, shape?, Option.map_map]
    rfl
  · rfl

theorem FreeExact.shape?_push (h : a.FreeExact) (parent : Option ScopeId) (t : ScopeId) :
    (a.push parent).2.shape? t = if t = (a.push parent).1 then some ⟨parent, []⟩ else a.shape? t := by
  obtain ⟨-, hself, hold, -⟩ := h.push parent
  split
  next ht =>
    rw [shape?, ht, hself]
    rfl
  next ht =>
    rw [shape?, hold t ht, Option.map_map]
    rfl

theorem Frees.shape? (hf : Frees a b gone) (ht : (b.scope? t).isSome) : b.shape? t = a.shape? t := by
  obtain ⟨sc, hsc⟩ := Option.isSome_iff_exists.1 ht
  obtain ⟨-, n, hold⟩ := hf.scope?_eq_some hsc
  rw [Arena.shape?, Arena.shape?, hsc, hold]
  rfl

theorem shape?_close (a : Arena) (s t : ScopeId) : (a.close s).shape? t = a.shape? t :=
  shape?_modify a s t fun _ => rfl

/-- What is still there after a scope was closed has the shape that it had. -/
theorem shape?_releaseBy (a : Arena) (o : SweepOrder) (outside : List Value) (s : ScopeId)
    (ht : ((a.releaseBy o outside s).scope? t).isSome) :
    (a.releaseBy o outside s).shape? t = a.shape? t := by
  cases hs : a.scope? s with
  | none => rw [releaseBy, hs]
  | some sc =>
    obtain ⟨gone, -, hf⟩ := frees_closed_releaseBy a o outside hs
    exact (hf.shape? ht).trans (shape?_close a s t)

theorem isHandled_modify (a : Arena) (s t : ScopeId) {f : Scope → Scope}
    (hf : ∀ sc, (f sc).handles = sc.handles) : (a.modify s f).isHandled t = a.isHandled t := by
  rw [isHandled, scope?_modify]
  split
  · rw [Option.any_map, isHandled]
    congr 1
    funext sc
    exact congrArg (decide <| 0 < ·) (hf sc)
  · rfl

theorem isHandled_close (a : Arena) (s t : ScopeId) : (a.close s).isHandled t = a.isHandled t :=
  isHandled_modify a s t fun _ => rfl

theorem isHandled_hold_of_isHandled (h : (a.hold s).isHandled t = true) :
    t = s ∨ a.isHandled t = true := by
  by_cases hts : t = s
  · exact .inl hts
  · rw [isHandled, hold, scope?_modify, if_neg (Ne.symm hts)] at h
    exact .inr h

theorem FreeExact.isHandled_push (h : a.FreeExact) (parent : Option ScopeId) (t : ScopeId) :
    (a.push parent).2.isHandled t = a.isHandled t := by
  obtain ⟨hvacant, hself, hold, -⟩ := h.push parent
  by_cases ht : t = (a.push parent).1
  · rw [isHandled, isHandled, ht, hself, hvacant]
    rfl
  · rw [isHandled, hold t ht, Option.any_map]
    rfl

theorem isHandled_of_releaseBy {o : SweepOrder} (h : (a.releaseBy o outside s).isHandled t = true) :
    a.isHandled t = true := by
  cases hs : a.scope? s with
  | none => rwa [releaseBy, hs] at h
  | some sc =>
    obtain ⟨gone, -, hf⟩ := frees_closed_releaseBy a o outside hs
    obtain ⟨sc', hsc', hpos⟩ := (Option.any_eq_true _ _).1 h
    obtain ⟨-, n, hold⟩ := hf.scope?_eq_some hsc'
    rw [← isHandled_close a s, isHandled, hold]
    exact hpos

theorem nextClosure_releaseBy (a : Arena) (o : SweepOrder) (outside : List Value) (s : ScopeId) :
    (a.releaseBy o outside s).nextClosure = a.nextClosure := by
  cases hs : a.scope? s with
  | none => rw [releaseBy, hs]
  | some sc =>
    obtain ⟨gone, -, hf⟩ := frees_closed_releaseBy a o outside hs
    exact hf.nextClosure

/-! ### What is rooted -/

theorem Rooted.of_push (ha : a.FreeExact) (hp : a.Rooted p) (h : (a.push (some p)).2.Rooted t) :
    t = (a.push (some p)).1 ∨ a.Rooted t := by
  induction h with
  | opened hs =>
    rw [ha.isOpen_push, Bool.or_eq_true, decide_eq_true_eq] at hs
    exact hs.imp_right .opened
  | handled hs => exact .inr (.handled (ha.isHandled_push _ _ ▸ hs))
  | @parent s q _ hq ih =>
    rw [parent?_eq_bind, ha.shape?_push] at hq
    split at hq
    · cases hq
      exact .inr hp
    next hne => exact .inr (.parent (ih.resolve_left hne) ((parent?_eq_bind a s).trans hq))

/-- What is rooted after a scope was closed was rooted before. -/
theorem Rooted.of_releaseBy {o : SweepOrder} (h : (a.releaseBy o outside s).Rooted t) :
    (a.close s).Rooted t := by
  induction h with
  | opened hs =>
    rw [isOpen_releaseBy] at hs
    exact .opened ((isOpen_close a s _).trans hs)
  | handled hs =>
    exact .handled ((isHandled_close a s _).trans (isHandled_of_releaseBy hs))
  | @parent t q _ hq ih =>
    obtain ⟨sc, hsc, -⟩ := parent?_eq_some.1 hq
    have hshape := shape?_releaseBy a o outside s (Option.isSome_of_eq_some hsc)
    refine .parent ih ?_
    rw [parent?_eq_bind, shape?_close, ← hshape, ← parent?_eq_bind, hq]

theorem Rooted.of_close (h : (a.close s).Rooted t) : a.Rooted t := by
  induction h with
  | opened hs =>
    rw [isOpen_close, Bool.and_eq_true] at hs
    exact .opened hs.2
  | handled hs =>
    exact .handled ((isHandled_close a s _).symm.trans hs)
  | parent _ hq ih =>
    rw [parent?_close] at hq
    exact .parent ih hq

/-- When a scope is closed, what is rooted without it stays. -/
theorem Sound.steady_releaseBy (h : a.Sound outside) (o : SweepOrder) (s : ScopeId) :
    Steady (a.close s) (a.releaseBy o outside s) := by
  cases hs : a.scope? s with
  | none =>
    rw [Arena.releaseBy, hs]
    refine ⟨Nat.le_of_eq (size_modify a s _), fun t ht => ?_, fun t ht => ?_, fun t _ => ?_⟩
    · rw [isOpen_close, Bool.and_eq_true] at ht
      exact ht.2
    · exact (isHandled_close a s t).symm.trans ht
    · rw [parent?_close]
  | some sc =>
    obtain ⟨gone, hgarbage, hfrees, -⟩ := h.releaseBy hs o
    exact (Steady.refl (a.close s)).frees hgarbage hfrees

end Arena

end Sluice
