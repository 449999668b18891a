import Sluice.Proofs.Arena.Opening
import Sluice.Proofs.Value.Sane
import Sluice.Program

/-! What a machine has stored, in its scopes and as methods, and what can be asked of it. If all that is
stored is sane, then so is every answer. -/
namespace Sluice

variable {proper : Prop} {Q : Closure → Prop} {P P' : Value → Prop}

/-! ### Scopes -/

namespace Arena

variable {a b : Arena} {s t : ScopeId}

def Stored (P : Value → Prop) (a : Arena) : Prop :=
  ∀ s sc e, a.scope? s = some sc → e ∈ sc.vars → P e.2.value

theorem Stored.mono (h : ∀ v, P v → P' v) (ha : a.Stored P) : a.Stored P' :=
  fun s sc e hs he => h _ (ha s sc e hs he)

/-- Nothing was bound that was not bound before. -/
theorem Stored.of_vars (ha : a.Stored P)
    (h : ∀ s sc, b.scope? s = some sc → sc.vars = [] ∨
      ∃ sc', a.scope? s = some sc' ∧ sc'.vars = sc.vars) : b.Stored P := by
  intro s sc e hs he
  obtain hnil | ⟨sc', hsc', hvars⟩ := h s sc hs
  · rw [hnil] at he
    cases he
  · exact ha s sc' e hsc' (hvars ▸ he)

theorem Stored.modify (ha : a.Stored P) (s : ScopeId) {f : Scope → Scope}
    (hf : ∀ sc, (f sc).vars = sc.vars) : (a.modify s f).Stored P := by
  refine ha.of_vars fun t sc ht => .inr ?_
  rw [scope?_modify] at ht
  split at ht
  · obtain ⟨sc', hsc', rfl⟩ := Option.map_eq_some_iff.1 ht
    exact ⟨sc', hsc', (hf sc').symm⟩
  · exact ⟨sc, ht, rfl⟩

theorem Stored.define (ha : a.Stored P) (s : ScopeId) (name : String) {b : Binding} (hb : P b.value) :
    (a.define s name b).Stored P := by
  intro t sc e ht he
  rw [Arena.define, scope?_modify] at ht
  split at ht
  · obtain ⟨sc', hsc', rfl⟩ := Option.map_eq_some_iff.1 ht
    rcases Table.mem_insert he with rfl | he
    · exact hb
    · exact ha t sc' e hsc' he
  · exact ha t sc e ht he

theorem Stored.push (ha : a.Stored P) (parent : Option ScopeId) : (a.push parent).2.Stored P := by
  have hnote : (a.noteChild parent).Stored P := by
    cases parent with
    | none => exact ha
    | some p => exact ha.modify p fun _ => rfl
  refine hnote.of_vars fun t sc ht => ?_
  rw [push_eq] at ht
  split at ht
  · rename_i s rest _
    have hslot : (a.noteChild parent).slots.setIfInBounds s (some (a.fresh parent)) =
        (a.noteChild parent).slots.modify s fun _ => some (a.fresh parent) := by
      apply Array.ext_getElem?
      intro i
      rw [Array.getElem?_setIfInBounds, Array.getElem?_modify]
      split <;> rename_i hi
      · subst hi
        split <;> simp_all
      · rfl
    dsimp only at ht
    rw [scope?, hslot, Array.getElem?_modify] at ht
    split at ht
    · cases hi : (a.noteChild parent).slots[t]? with
      | none => simp [hi] at ht
      | some slot =>
        simp only [hi, Option.map_some, Option.join_some, Option.some.injEq] at ht
        exact .inl (ht ▸ rfl)
    · exact .inr ⟨sc, ht, rfl⟩
  · dsimp only at ht
    rw [scope?, Array.getElem?_push] at ht
    split at ht
    · simp only [Option.join_some, Option.some.injEq] at ht
      exact .inl (ht ▸ rfl)
    · exact .inr ⟨sc, ht, rfl⟩

theorem Stored.frees {gone : ScopeId → Prop} (ha : a.Stored P) (hf : Frees a b gone) : b.Stored P := by
  refine ha.of_vars fun s sc hs => .inr ?_
  obtain ⟨-, n, hold⟩ := hf.scope?_eq_some hs
  exact ⟨_, hold, rfl⟩

theorem Stored.release (ha : a.Stored P) (outside : List Value) (s : ScopeId) :
    (a.release outside s).Stored P := by
  cases hs : a.scope? s with
  | none => rwa [Arena.release, releaseBy, hs]
  | some sc =>
    obtain ⟨gone, -, hf⟩ := frees_closed_releaseBy a .plain outside hs
    have hclose : (a.close s).Stored P := ha.modify s fun _ => rfl
    exact hclose.frees hf

theorem Stored.local? (ha : a.Stored P) {name : String} {b : Binding}
    (h : a.local? s name = some b) : P b.value := by
  obtain ⟨sc, hs, hb⟩ := Option.bind_eq_some_iff.1 h
  exact ha s sc _ hs (Table.mem_of_get?_eq_some hb)

/-- What is found is bound in the scope where it is found. -/
theorem local?_of_findFrom {name : String} {fuel : Nat} {b : Binding}
    (h : a.findFrom name fuel s = some (t, b)) : a.local? t name = some b := by
  induction fuel generalizing s with
  | zero => cases h
  | succ fuel ih =>
    rw [findFrom] at h
    split at h
    next => cases h
    next sc hs =>
      split at h
      next b' hb =>
        cases h
        rw [Arena.local?, hs]
        exact hb
      next =>
        split at h
        next => exact ih h
        next => cases h

theorem Stored.lookup? (ha : a.Stored P) {name : String} {v : Value}
    (h : a.lookup? s name = some v) : P v := by
  obtain ⟨⟨owner, b⟩, hfind, rfl⟩ := Option.map_eq_some_iff.1 h
  exact ha.local? (local?_of_findFrom hfind)

theorem Stored.exports (ha : a.Stored P) {e : String × Value} (he : e ∈ a.exports s) : P e.2 := by
  rw [Arena.exports] at he
  simp only [List.mem_mergeSort, List.mem_map, List.mem_filter] at he
  obtain ⟨entry, ⟨hentry, -⟩, rfl⟩ := he
  cases hs : a.scope? s with
  | none => simp [hs] at hentry
  | some sc =>
    rw [hs] at hentry
    exact ha s sc entry hs hentry

end Arena

/-! ### Methods -/

namespace Registry

variable {r r' : Registry Value}

structure Stored (P : Value → Prop) (r : Registry Value) : Prop where
  impls : ∀ e ∈ r.impls, ∀ f ∈ e.2, P f.2
  defaults : ∀ e ∈ r.defaults, ∀ f ∈ e.2, P f.2

theorem Stored.mono (h : ∀ v, P v → P' v) (hr : r.Stored P) : r.Stored P' :=
  ⟨fun e he f hf => h _ (hr.impls e he f hf), fun e he f hf => h _ (hr.defaults e he f hf)⟩

theorem mem_methodTable {c : Typeclass} {typeclass : String} {methods : List (String × Nat × Value)}
    {table table' : Table String Value} (h : methodTable c typeclass table methods = .ok table')
    (htable : ∀ f ∈ table, P f.2) (hmethods : ∀ f ∈ methods, P f.2.2) : ∀ f ∈ table', P f.2 := by
  induction methods generalizing table with
  | nil =>
    cases h
    exact htable
  | cons method methods ih =>
    obtain ⟨name, arity, f⟩ := method
    rw [methodTable] at h
    split at h
    · cases h
    · split at h
      · cases h
      · split at h
        · cases h
        · refine ih h (fun e he => ?_) fun e he => hmethods e (List.mem_cons_of_mem _ he)
          rcases Table.mem_insert he with rfl | he
          · exact hmethods _ List.mem_cons_self
          · exact htable e he

theorem Stored.addImpl (hr : r.Stored P) {typeclass : String} {type : Option String}
    {methods : List (String × Nat × Value)} (h : r.addImpl typeclass type methods = .ok r')
    (hmethods : ∀ f ∈ methods, P f.2.2) : r'.Stored P ∧ r'.adts = r.adts := by
  rw [Registry.addImpl] at h
  split at h
  · cases h
  · rename_i c _
    cases htable : methodTable c (canonicalType typeclass) [] methods with
    | error e =>
      rw [htable] at h
      cases h
    | ok table =>
      rw [htable] at h
      have hall := mem_methodTable htable (List.forall_mem_nil _) hmethods
      cases type with
      | none =>
        cases h
        refine ⟨⟨hr.impls, fun e he => ?_⟩, rfl⟩
        rcases Table.mem_insert he with rfl | he
        · exact hall
        · exact hr.defaults e he
      | some t =>
        cases h
        refine ⟨⟨fun e he => ?_, hr.defaults⟩, rfl⟩
        rcases Table.mem_insert he with rfl | he
        · exact hall
        · exact hr.impls e he

theorem Stored.addClass (hr : r.Stored P) {c : Typeclass} (h : r.addClass c = .ok r') :
    r'.Stored P ∧ r'.adts = r.adts := by
  rw [Registry.addClass] at h
  split at h
  · cases h
  · split at h
    · cases h
    · cases h
      exact ⟨⟨hr.impls, hr.defaults⟩, rfl⟩

theorem Stored.implFor? (hr : r.Stored P) {method type : String} {f : Value}
    (h : r.implFor? method type = some f) : P f := by
  obtain ⟨owner, -, h⟩ := Option.bind_eq_some_iff.1 h
  rw [supplied?] at h
  cases hown : (r.impls.get? (owner, type)).bind (·.get? method) with
  | some g =>
    rw [hown] at h
    cases h
    obtain ⟨table, htable, hf⟩ := Option.bind_eq_some_iff.1 hown
    exact hr.impls _ (Table.mem_of_get?_eq_some htable) _ (Table.mem_of_get?_eq_some hf)
  | none =>
    rw [hown] at h
    obtain ⟨table, htable, hf⟩ := Option.bind_eq_some_iff.1 h
    exact hr.defaults _ (Table.mem_of_get?_eq_some htable) _ (Table.mem_of_get?_eq_some hf)

end Registry

/-! ### Questions -/

namespace Machine

variable {m : Machine} {args : List Value}

structure Stored (P : Value → Prop) (m : Machine) : Prop where
  arena : m.arena.Stored P
  registry : m.registry.Stored P

theorem Stored.mono (h : ∀ v, P v → P' v) (hm : m.Stored P) : m.Stored P' :=
  ⟨hm.arena.mono h, hm.registry.mono h⟩

/-- A new function is stored nowhere yet. -/
theorem Stored.makeFn (hm : m.Stored P) (name : Option String) (params : List Param) (body : FnBody) :
    (m.makeFn name params body).2.Stored P := by
  have hclosure : (m.arena.makeClosure m.current name (params.map (·.name.text)) body).2.Stored P :=
    hm.arena.modify m.current (f := Scope.noteFn m.arena.nextClosure) fun _ => rfl
  exact ⟨hclosure.modify m.current fun _ => rfl, hm.registry⟩

theorem Stored.gives_lookup (hm : m.Stored (Value.Sane proper Q)) (id : Ident) :
    Gives (Value.Sane proper Q) (m.lookup id) := by
  rw [lookup]
  split
  next v h => exact hm.arena.lookup? h
  next =>
    split
    · exact Value.sane_atom rfl fun _ => trivial
    · exact nofun

theorem Stored.gives_placeholder (hm : m.Stored (Value.Sane proper Q)) (span : Span) :
    Gives (Value.Sane proper Q) (m.placeholder span) := by
  rw [placeholder]
  split
  next v h => exact hm.arena.lookup? h
  next => exact nofun

theorem Stored.gives_exported (hm : m.Stored P) (source : String) (name : Ident) :
    Gives P (m.exported source name) := by
  rw [exported]
  split
  next => exact nofun
  next =>
    split
    next h => exact hm.arena.local? h
    next => exact nofun

theorem Stored.gives_member (hm : m.Stored (Value.Sane proper Q)) {base : Value}
    (hbase : base.Sane proper Q) (name : Ident) : Gives (Value.Sane proper Q) (m.member base name) := by
  rw [member.eq_def]
  split
  · exact hm.gives_exported _ _
  · split
    next h => exact hbase.field? h
    next => exact nofun
  · exact nofun

theorem Stored.gives_members (hm : m.Stored (Value.Sane proper Q)) {base : Value}
    (hbase : base.Sane proper Q) (names : List Ident) :
    Gives (Value.Sane proper Q) (m.members base names) := by
  induction names generalizing base with
  | nil => exact hbase
  | cons name names ih => exact (hm.gives_member hbase name).bind fun v hv => ih hv

theorem Stored.gives_imports (hm : m.Stored P) (source : Ident) (names : Option (List Ident))
    (span : Span) : Gives (fun found => ∀ e ∈ found, P e.2) (m.imports source names span) := by
  rw [imports]
  split
  next => exact nofun
  next scope _ =>
    dsimp only
    cases names with
    | none => exact fun e he => hm.arena.exports he
    | some names =>
      dsimp only
      induction names with
      | nil => exact List.forall_mem_nil _
      | cons n names ih =>
        rw [List.mapM_cons]
        refine Gives.bind (P := fun e => P e.2) ?_ fun e he => ih.bind fun es hes => ?_
        · split
          next h => exact hm.arena.exports (List.mem_of_find?_eq_some h)
          next => exact nofun
        · exact List.forall_mem_cons.2 ⟨he, hes⟩

theorem Stored.gives_implementation (hm : m.Stored P) (method : String) (args : List Value)
    (span : Span) : Gives P (Runner.implementation m method args span) := by
  rw [Runner.implementation.eq_def]
  split
  · exact fun h => by cases h
  · split
    next h => exact hm.registry.implFor? h
    next => exact fun h => by cases h

theorem Stored.gives_memberCall (hm : m.Stored (Value.Sane proper Q)) {receiver : Value}
    (hreceiver : receiver.Sane proper Q) (method : Ident) (hargs : ∀ v ∈ args, v.Sane proper Q) :
    Gives (fun p => p.1.Sane proper Q ∧ ∀ v ∈ p.2, v.Sane proper Q)
      (Runner.memberCall m receiver method args) := by
  have hall : ∀ v ∈ receiver :: args, v.Sane proper Q := List.forall_mem_cons.2 ⟨hreceiver, hargs⟩
  rw [Runner.memberCall.eq_def]
  split
  · exact (hm.gives_exported _ _).bind fun f hf => ⟨hf, hargs⟩
  · split
    next h => exact ⟨hreceiver.field? h, hargs⟩
    next =>
      split
      next h => exact ⟨hm.arena.lookup? h, hall⟩
      next =>
        split
        · exact ⟨Value.sane_atom rfl fun _ => trivial, hall⟩
        · exact nofun

theorem gives_firstMatch {v : Value} (hv : v.Sane proper Q) (arms : List MatchArm) (span : Span) :
    Gives (fun p => Pattern.AllSane proper Q p.1 ∧ p.2 ∈ arms ∧
      p.2.pat.bindings? m.registry.adts v = some p.1) (Runner.firstMatch m v arms span) := by
  rw [Runner.firstMatch]
  split
  next found h =>
    obtain ⟨arm, harm, hfound⟩ := List.exists_of_findSome?_eq_some h
    obtain ⟨bs, hbs, rfl⟩ := Option.map_eq_some_iff.1 hfound
    exact ⟨Pattern.allSane_bindings? _ hv hbs, harm, hbs⟩
  next => exact nofun

theorem Stored.mainFn? (hm : m.Stored P) {scope : ScopeId} {c : Closure}
    (h : m.mainFn? scope = some c) : P (.fn c) ∧ c.params = [] := by
  rw [Machine.mainFn?] at h
  split at h
  next hlocal =>
    split at h
    next hempty =>
      cases h
      exact ⟨hm.arena.local? hlocal, by simpa using hempty⟩
    next => cases h
  next => cases h

/-- All that is there at the start is sane. -/
theorem stored_start (args : List String) (maxDepth : Nat) (w : World) :
    (start args maxDepth w).Stored (Value.Sane proper Q) := by
  have hargs : (Value.list (args.map .str)).Sane proper Q := by
    refine Value.sane_list.2 fun v hv => ?_
    obtain ⟨s, -, rfl⟩ := List.mem_map.1 hv
    exact Value.sane_atom rfl fun _ => trivial
  have hnames : ∀ e ∈ initialNames args, e.2.value.Sane proper Q := by
    intro e he
    simp only [initialNames, List.mem_append, List.mem_cons, List.not_mem_nil, or_false,
      List.mem_map] at he
    obtain ((rfl | rfl | rfl | rfl) | ⟨name, -, rfl⟩) | rfl := he
    · exact Value.sane_atom rfl fun _ => trivial
    · exact Value.sane_atom rfl fun _ => trivial
    · exact Value.sane_atom rfl fun _ => trivial
    · exact Value.sane_atom rfl fun _ => trivial
    · exact Value.sane_atom rfl fun _ => trivial
    · exact hargs
  have hfold : ∀ (l : List (String × Binding)) (a : Arena) (s : ScopeId),
      (∀ e ∈ l, e.2.value.Sane proper Q) → a.Stored (Value.Sane proper Q) →
      (l.foldl (fun a e => a.define s e.1 e.2) a).Stored (Value.Sane proper Q) := by
    intro l
    induction l with
    | nil => exact fun a s _ ha => ha
    | cons e l ih =>
      intro a s hl ha
      exact ih _ s (fun e' he' => hl e' (List.mem_cons_of_mem _ he'))
        (ha.define s e.1 (hl e List.mem_cons_self))
  have hempty : ({} : Arena).Stored (Value.Sane proper Q) := by
    intro s sc e hs
    simp [Arena.scope?] at hs
  exact ⟨hfold _ _ _ hnames (hempty.push none), ⟨by simp [start], by simp [start]⟩⟩

end Machine

end Sluice
