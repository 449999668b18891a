import Sluice.Proofs.Eval.AgreeRules

/-! Compositions that are deferred. The function that such a composition makes runs the stages a call
deeper, in a scope of its own under the one where it was made. That scope stays without bindings, since
a stage binds names in blocks only. So a call of the function does what running the stages where it was
made does. -/
namespace Sluice

/-- How functions and scopes of one machine correspond to those of another. -/
structure Renaming where
  /-- The functions that there are. -/
  made : List Closure
  number : Nat → Nat
  place : ScopeId → ScopeId

namespace Renaming

def fn (ρ : Renaming) (c : Closure) : Closure := { c with id := ρ.number c.id, scope := ρ.place c.scope }

def value (ρ : Renaming) (v : Value) : Value := v.mapFns ρ.fn

def found (ρ : Renaming) (r : ScopeId × Binding) : ScopeId × Binding :=
  (ρ.place r.1, { r.2 with value := ρ.value r.2.value })

def Has (ρ : Renaming) (v : Value) : Prop := v.Sane False (· ∈ ρ.made)

/-- The machines differ in nothing but the identity of functions and scopes. -/
structure Relates (ρ : Renaming) (m m' : Machine) : Prop where
  alive : m.Alive ρ.made
  stored : m.Stored ρ.Has
  /-- Different functions stay different. -/
  numbers : ∀ c ∈ ρ.made, ∀ d ∈ ρ.made, ρ.number c.id = ρ.number d.id → c.id = d.id
  /-- From wherever a name is looked for, it is found in the same place and bound to the same value. -/
  find? : ∀ s, m.arena.Rooted s → ∀ name, m'.arena.find? (ρ.place s) name = (m.arena.find? s name).map ρ.found
  /-- Scopes in the same place show the same. -/
  places : ∀ s t, m.arena.Rooted s → m.arena.Rooted t → ρ.place s = ρ.place t →
    ∀ name, m.arena.find? s name = m.arena.find? t name
  modules : m'.modules = m.modules.mapValues ρ.place
  exports : ∀ e ∈ m.modules, m'.arena.exports (ρ.place e.2) = (m.arena.exports e.2).map (Prod.map id ρ.value)
  registry : m'.registry = m.registry.map ρ.value
  world : m'.world = m.world

structure Fixes (ρ : Renaming) (a : Arena) (m : Machine) : Prop where
  number : ∀ i < a.nextClosure, ρ.number i = i
  rooted : ∀ s, a.Rooted s → m.arena.Rooted s
  place : ∀ s, a.Rooted s → ρ.place s = s

end Renaming

/-- Two runs end in the same way, up to the identity of functions and scopes that were not in the arena;
unless one of them runs into the limit on the depth of calls. -/
inductive SameEnd (a : Arena) : (r r' : EStateM.Result Interrupt Machine Value) → Prop
  | ok {v : Value} {m m' : Machine} (ρ : Renaming) :
    ρ.Fixes a m → ρ.Relates m m' → ρ.Has v → SameEnd a (.ok v m) (.ok (ρ.value v) m')
  | error {i : Interrupt} {m m' : Machine} (ρ : Renaming) :
    ρ.Fixes a m → ρ.Relates m m' → SameEnd a (.error i m) (.error i m')
  | deep {i : Interrupt} {m : Machine} {r' : EStateM.Result Interrupt Machine Value} :
    i.TooDeep → SameEnd a (.error i m) r'
  | deep' {i : Interrupt} {m' : Machine} {r : EStateM.Result Interrupt Machine Value} :
    i.TooDeep → SameEnd a r (.error i m')

namespace Machine

variable {known known' : List Closure} {m m' : Machine} {v : Value}

/-- The value is one of this machine: the functions in it are among those that have been made. -/
def Has (m : Machine) (v : Value) : Prop :=
  ∃ known, m.Alive known ∧ m.Stored (Value.Sane False (· ∈ known)) ∧ v.Sane False (· ∈ known)

/-- What an evaluation ends with is a value of the machine. -/
theorem Reachable.has (hm : m.Reachable) {x : Entry} {n : Nat} (h : x.run (.ofFuel n) m = .ok v m') :
    m'.Has v := by
  obtain ⟨known, halive, hhoused, hstored⟩ := hm.housed
  have hobeys := Housing.lawful.obeys_ofFuel (P := fun _ _ => True) (fun _ _ _ _ => trivial) .outOfFuel n
  have hok : housing.Ok ⟨known, m⟩ := ⟨⟨halive, hhoused⟩, hstored⟩
  obtain ⟨-, hend⟩ := Housing.lawful.entry hobeys hok (Housing.admits _ x)
  rw [h] at hend
  obtain ⟨known', hok', -, hv⟩ := hend
  exact ⟨known', hok'.inv.1, hok'.stored, hv⟩

/-- Functions that nothing refers to need not be counted. -/
theorem Alive.mono (h : m.Alive known') (hknown : known ⊆ known') : m.Alive known where
  sound := h.sound.withOutside fun w hw c hc => by
    obtain ⟨d, hd, rfl⟩ := List.mem_map.1 hw
    rw [List.mem_singleton.1 hc]
    exact mem_references_of_known (hknown hd)
  held c hc := h.held c (hknown hc)
  current := h.current
  root := h.root

/-- In `k` all is as in `o`, except that functions may have been made there since, and that another scope
may be the innermost one. -/
structure Repeats (drop : Nat → Nat) (k o : Machine) : Prop where
  shape : ∀ t, k.arena.shape? t = o.arena.shape? t
  opened : ∀ t, k.arena.isOpen t = o.arena.isOpen t
  handled : ∀ t, k.arena.isHandled t = true → t = o.current ∨ o.arena.isHandled t = true
  steady : Arena.Steady o.arena k.arena
  ids : ∀ i < o.arena.nextClosure, drop i = i
  next : ∀ n, drop (k.arena.nextClosure + n) = o.arena.nextClosure + n
  root : k.root = o.root
  modules : k.modules = o.modules
  registry : k.registry = o.registry
  world : k.world = o.world

/-- A scope is opened in `k` under what is the innermost scope of `o`. -/
theorem Repeats.enter {drop : Nat → Nat} {k o : Machine} (hr : k.Repeats drop o) (hk : k.Alive known)
    (ho : o.Alive known) : k.arena.Rooted o.current ∧ Alive known (k.enter o.current) ∧
      Arena.Steady k.arena (k.enter o.current).arena := by
  have hp : k.arena.Rooted o.current := .opened ((hr.opened _).trans ho.current)
  exact ⟨hp, hk.enter (hk.isSome_of_rooted hp)⟩

end Machine

namespace Folding

variable {drop : Nat → Nat} {known : List Closure} {k o : Machine} {v : Value}

def start (drop : Nat → Nat) (known : List Closure) (k o : Machine) :
    Folding drop (k.enter o.current).current where
  inner := k.enter o.current
  outer := o
  made := known
  fold := Function.update id (k.enter o.current).current o.current

section Start

variable (hk : k.Alive known) (ho : o.Alive known) (hr : k.Repeats drop o)

include hk

theorem start_fold {t : ScopeId} (ht : k.arena.Rooted t) : (start drop known k o).fold t = t :=
  Function.update_of_ne (hk.ne_enter o.current ht) _ _

include ho hr

theorem start_fn {c : Closure} (hc : c ∈ known) : (start drop known k o).fn c = c := by
  have hid : drop c.id = c.id := hr.ids _ (ho.sound.id_lt c (Machine.mem_references_of_known hc))
  rw [fn, hid, start_fold hk (hk.rooted_known hc)]

theorem start_value (hv : v.Sane False (· ∈ known)) : (start drop known k o).value v = v :=
  Value.mapFns_eq_self hv fun _ hc => start_fn hk ho hr hc

theorem folds_start (hstored : k.Stored (Value.Sane False (· ∈ known))) :
    Arena.Folds (k.enter o.current).current (start drop known k o).fold (start drop known k o).binding
      (k.enter o.current).arena o.arena := by
  have hfree := hk.sound.free
  obtain ⟨hp, -⟩ := hr.enter hk ho
  have hhollow : (start drop known k o).fold (k.enter o.current).current = o.current :=
    Function.update_self _ _ _
  have hopen : ∀ t, (k.enter o.current).arena.isOpen t =
      (decide (t = (k.enter o.current).current) || k.arena.isOpen t) :=
    fun _ => hfree.isOpen_push (some o.current)
  have hshape : ∀ t, (k.enter o.current).arena.shape? t =
      if t = (k.enter o.current).current then some ⟨some o.current, []⟩ else k.arena.shape? t :=
    hfree.shape?_push (some o.current)
  have hback : ∀ {t}, (k.enter o.current).arena.Rooted t → t ≠ (k.enter o.current).current → k.arena.Rooted t :=
    fun ht hne => (Arena.Rooted.of_push hfree hp ht).resolve_left hne
  refine ⟨fun t ht => ?_, fun t ht => ?_, fun t ht hne => ?_, fun t u ht hu hth huh heq => ?_, ?_,
    o.current, ?_, (hk.ne_enter _ hp), (start_fold hk hp).trans hhollow.symm⟩
  · rw [hopen, Bool.or_eq_true, decide_eq_true_eq] at ht
    rcases ht with rfl | ht
    · rw [hhollow]
      exact ho.current
    · rw [start_fold hk (.opened ht), ← hr.opened]
      exact ht
  · have hheld : k.arena.isHandled t = true := (hfree.isHandled_push (some o.current) t).symm.trans ht
    rw [start_fold hk (.handled hheld), hhollow]
    exact hr.handled t hheld
  · have ht' := hback ht hne
    rw [start_fold hk ht', ← hr.shape, hshape, if_neg hne]
    refine Option.map_id'.symm.trans (Option.map_congr fun sh hsh => ?_)
    obtain ⟨sc, hsc, rfl⟩ := Option.map_eq_some_iff.1 hsh
    have hparent : sc.parent.map (start drop known k o).fold = sc.parent := by
      refine (Option.map_congr fun p hp => start_fold hk (.parent ht' ?_)).trans Option.map_id'
      rw [Arena.parent?_eq_bind, hsh]
      exact hp
    have hvars : sc.vars.mapValues (start drop known k o).binding = sc.vars := by
      refine Table.mapValues_eq_self fun e he => ?_
      rw [binding, start_value hk ho hr (hstored.arena t sc e hsc he)]
    rw [Shape.map, Scope.shape, hparent, hvars]
  · rwa [start_fold hk (hback ht hth), start_fold hk (hback hu huh)] at heq
  · rw [hopen, decide_eq_true rfl, Bool.true_or]
  · rw [hshape, if_pos rfl]

theorem ok_start (hhoused : k.Housed) (hstored : k.Stored (Value.Sane False (· ∈ known))) :
    (start drop known k o).Ok := by
  obtain ⟨-, halive, hsteady⟩ := hr.enter hk ho
  have hhollow : (start drop known k o).fold (k.enter o.current).current = o.current :=
    Function.update_self _ _ _
  have hmade : known.map (start drop known k o).fn = known :=
    (List.map_congr_left fun c hc => start_fn hk ho hr hc).trans (List.map_id _)
  have hnext : (k.enter o.current).arena.nextClosure = k.arena.nextClosure :=
    Arena.nextClosure_push k.arena (some o.current)
  have hids : ∀ c ∈ known, drop c.id = c.id := fun c hc =>
    hr.ids _ (ho.sound.id_lt c (Machine.mem_references_of_known hc))
  have hvalue : ∀ v, v.Sane False (· ∈ known) → (start drop known k o).value v = v := fun v hv =>
    start_value hk ho hr hv
  refine ⟨halive, ?_, ⟨hstored.arena.push (some o.current), hstored.registry⟩, folds_start hk ho hr hstored,
    fun c hc d hd heq => ?_, fun n => ?_, hhollow.symm, ?_, ?_,
    hhoused.steady hsteady rfl, fun e he => hk.ne_enter _ (.opened (hhoused e he)), ?_, hr.world.symm⟩
  · show o.Alive (known.map (start drop known k o).fn)
    rw [hmade]
    exact ho
  · rw [← hids c hc, ← hids d hd]
    exact heq
  · show drop ((k.enter o.current).arena.nextClosure + n) = o.arena.nextClosure + n
    rw [hnext, hr.next]
  · exact hr.root.symm.trans (start_fold hk hk.rooted_root).symm
  · refine hr.modules.symm.trans (Table.mapValues_eq_self fun e he => ?_).symm
    exact start_fold hk (.opened (hhoused e he))
  · refine hr.registry.symm.trans (Registry.map_eq_self (fun e he f hf => ?_) fun e he f hf => ?_).symm
    · exact hvalue _ (hstored.registry.impls e he f hf)
    · exact hvalue _ (hstored.registry.defaults e he f hf)

end Start

def toRenaming {hollow : ScopeId} (σ : Folding drop hollow) : Renaming := ⟨σ.made, drop, σ.fold⟩

section End

variable {τ : Folding drop (k.enter o.current).current} (hk : k.Alive known) (ho : o.Alive known)
  (hr : k.Repeats drop o) (hτ : τ.Ok) (hafter : (start drop known k o).After τ)

include hk ho hr hτ hafter

theorem exit_end : Machine.Alive τ.made (τ.inner.exit (k.enter o.current).current k.current) ∧
    Arena.Steady k.arena (τ.inner.exit (k.enter o.current).current k.current).arena := by
  obtain ⟨-, -, hsteady⟩ := hr.enter hk ho
  obtain ⟨halive, hlasts, -, -⟩ := hk.exit hτ.alive hafter.made hafter.root (hsteady.trans hafter.steady)
    (hk.vacant_enter o.current)
  exact ⟨halive, hlasts.steady⟩

theorem fixes_end (d : Nat) : τ.toRenaming.Fixes o.arena
    { τ.inner.exit (k.enter o.current).current k.current with depth := d } where
  number := hr.ids
  rooted s hs := (exit_end hk ho hr hτ hafter).2.rooted (hr.steady.rooted hs)
  place s hs := by
    obtain ⟨-, -, hsteady⟩ := hr.enter hk ho
    have hs' := hr.steady.rooted hs
    exact (hafter.fold s (hsteady.rooted hs')).trans (start_fold hk hs')

theorem relates_end (hhoused : k.Housed) (d : Nat) :
    τ.toRenaming.Relates { τ.inner.exit (k.enter o.current).current k.current with depth := d } τ.outer := by
  obtain ⟨halive, -⟩ := exit_end hk ho hr hτ hafter
  have hb : (τ.inner.exit (k.enter o.current).current k.current).arena.Linked [] :=
    halive.sound.toLinked.withOutside (List.forall_mem_nil _)
  have hfind : ∀ {s}, (τ.inner.exit (k.enter o.current).current k.current).arena.Rooted s → ∀ name,
      (τ.inner.exit (k.enter o.current).current k.current).arena.find? s name = τ.inner.arena.find? s name :=
    fun hs name => Arena.find?_releaseBy hb hs name
  have hback : ∀ {s}, (τ.inner.exit (k.enter o.current).current k.current).arena.Rooted s →
      τ.inner.arena.Rooted s := fun hs => hs.of_releaseBy.of_close
  have hhoused' := hhoused.exit hk (hr.enter hk ho).2.1 hτ.housed hafter.houses
  have halive' := (halive.idle { τ.inner.exit (k.enter o.current).current k.current with depth := d } rfl rfl
    rfl).1
  refine ⟨halive', ⟨hτ.stored.arena.release [] _, hτ.stored.registry⟩, hτ.ids,
    fun s hs name => ?_, fun s t hs ht heq name => ?_, hτ.modules, fun e he => ?_, hτ.registry, hτ.world⟩
  · exact (hτ.folds.find? (hback hs) name).trans (congrArg (Option.map _) (hfind hs name).symm)
  · exact (hfind hs name).trans ((hτ.folds.find?_eq_of_eq (hback hs) (hback ht) heq name).trans
      (hfind ht name).symm)
  · have hshape := Arena.shape?_releaseBy τ.inner.arena .plain [] (k.enter o.current).current
      (Arena.isSome_of_isOpen (hhoused' e he))
    have hexports : (τ.inner.exit (k.enter o.current).current k.current).arena.exports e.2 =
        τ.inner.arena.exports e.2 := by
      rw [Arena.exports_eq, Arena.exports_eq, ← hshape]
      rfl
    refine (hτ.folds.exports (.opened (hτ.housed e he)) (hτ.lodged e he) fun _ => ⟨rfl, rfl⟩).trans ?_
    exact congrArg _ hexports.symm

end End

/-- Computations that agree end in the same way, also if something is put back at the end of one of them. -/
theorem sameEnd_of_agree {hollow : ScopeId} {σ : Folding drop hollow} {x y : Eval Value} (h : Agree σ x y Same)
    (leave : Machine → Machine)
    (hleave : ∀ τ, τ.Ok → σ.After τ → τ.toRenaming.Fixes σ.outer.arena (leave τ.inner) ∧
      τ.toRenaming.Relates (leave τ.inner) τ.outer)
    {r : EStateM.Result Interrupt Machine Value}
    (hx : r = match x σ.inner with
      | .ok v n => .ok v (leave n)
      | .error i n => .error i (leave n)) : SameEnd σ.outer.arena r (y σ.outer) := by
  cases h with
  | ok τ hi ho hτ hafter hv =>
    obtain ⟨hv, rfl⟩ := hv
    obtain ⟨hfixes, hrelates⟩ := hleave τ hτ hafter
    rw [hx, hi, ho]
    exact .ok τ.toRenaming hfixes hrelates hv
  | error τ hi ho hτ hafter =>
    obtain ⟨hfixes, hrelates⟩ := hleave τ hτ hafter
    rw [hx, hi, ho]
    exact .error τ.toRenaming hfixes hrelates
  | deep hi hdeep =>
    rw [hx, hi]
    exact .deep hdeep
  | deep' ho hdeep =>
    rw [ho]
    exact .deep' hdeep

end Folding

/-- A call of the function of a composition. -/
theorem call_pipeline {c : Closure} {stages : List Expr} (hbody : c.body = .pipeline stages) (args : List Value)
    (span : Span) (n : Nat) : (Runner.ofFuel (n + 2)).call (.fn c) args span =
      Eval.deeper span (Eval.inScope c.scope ((Runner.ofFuel n).callStages stages args span)) := by
  show (Runner.ofFuel (n + 1)).callFn c args span = _
  rw [Runner.callFn, hbody]
  show Eval.deeper span ((Runner.ofFuel n).bodyRule c args span) = _
  rw [Runner.bodyRule, hbody]

/-- A call runs the stages like the machine of which it repeats the scopes. -/
theorem sameEnd_call {drop : Nat → Nat} {known : List Closure} {k o : Machine} (hk : k.Alive known)
    (ho : o.Alive known) (hr : k.Repeats drop o) (hhoused : k.Housed)
    (hstored : k.Stored (Value.Sane False (· ∈ known))) {c : Closure} {stages : List Expr}
    (hbody : c.body = .pipeline stages) (hscope : c.scope = o.current) {args : List Value}
    (hargs : ∀ v ∈ args, v.Sane False (· ∈ known)) (span : Span) (n : Nat) :
    SameEnd o.arena ((Runner.ofFuel (n + 2)).call (.fn c) args span k)
      ((Runner.ofFuel n).callStages stages args span o) := by
  rw [call_pipeline hbody, hscope]
  by_cases hdeep : k.maxDepth ≤ k.depth
  · rw [Eval.deeper, if_pos hdeep]
    exact .deep rfl
  have hk' := (hk.idle { k with depth := k.depth + 1 } rfl rfl rfl).1
  have hr' : Machine.Repeats drop { k with depth := k.depth + 1 } o :=
    ⟨hr.shape, hr.opened, hr.handled, hr.steady, hr.ids, hr.next, hr.root, hr.modules, hr.registry, hr.world⟩
  have hstart := Folding.ok_start hk' ho hr' hhoused ⟨hstored.arena, hstored.registry⟩
  have hsame : (Folding.start drop known { k with depth := k.depth + 1 } o).SameAll args args := by
    refine ⟨hargs, ((List.map_congr_left fun v hv => ?_).trans (List.map_id args)).symm⟩
    exact Folding.start_value hk' ho hr' (hargs v hv)
  refine Folding.sameEnd_of_agree ((Folding.follows_ofFuel drop _ n).callStages stages span hstart hsame)
    (fun n => { n.exit (k.enter o.current).current k.current with depth := k.depth }) (fun τ hτ hafter => ?_) ?_
  · exact ⟨Folding.fixes_end hk' ho hr' hτ hafter k.depth,
      Folding.relates_end hk' ho hr' hτ hafter hhoused k.depth⟩
  · rw [Eval.deeper, if_neg hdeep]
    dsimp only [Eval.inScope, Folding.start]
    cases (Runner.ofFuel n).callStages stages args span _ <;> rfl

/-! ### Deferred compositions -/

/-- The machine on which a function was made and the one before. -/
theorem Machine.Alive.repeats_makeFn {known : List Closure} {m : Machine} (h : m.Alive known)
    (name : Option String) (params : List Param) (body : FnBody) :
    (m.makeFn name params body).2.Repeats
      (fun i => if i < m.arena.nextClosure then i else i - 1) m where
  shape := m.shape?_makeFn name params body
  opened := m.isOpen_makeFn name params body
  handled _ ht := m.isHandled_of_makeFn ht
  steady := (h.makeFn name params body).2.steady
  ids i hi := if_pos hi
  next n := by
    show (if m.arena.nextClosure + 1 + n < m.arena.nextClosure then _ else m.arena.nextClosure + 1 + n - 1) = _
    rw [if_neg (by omega)]
    omega
  root := rfl
  modules := rfl
  registry := rfl
  world := rfl

/-- A machine and the same machine with another innermost scope. -/
theorem Machine.repeats_within (m : Machine) (s : ScopeId) : m.Repeats id { m with current := s } where
  shape _ := rfl
  opened _ := rfl
  handled _ ht := .inr ht
  steady := .refl _
  ids _ _ := rfl
  next _ := rfl
  root := rfl
  modules := rfl
  registry := rfl
  world := rfl

/-- The function of a deferred composition. -/
theorem Machine.Alive.sameEnd_deferred {known : List Closure} {m : Machine} (h : m.Alive known)
    (hhoused : m.Housed) (hstored : m.Stored (Value.Sane False (· ∈ known))) (stages : List Expr)
    {args : List Value} (hargs : ∀ v ∈ args, v.Sane False (· ∈ known)) (span : Span) (n : Nat) :
    SameEnd m.arena ((Runner.ofFuel (n + 2)).call (m.makeFn none [] (.pipeline stages)).1 args span
        (m.makeFn none [] (.pipeline stages)).2)
      ((Runner.ofFuel n).callStages stages args span m) := by
  obtain ⟨halive, hlasts⟩ := h.makeFn none [] (.pipeline stages)
  exact sameEnd_call (halive.mono (List.subset_append_left _ _)) h (h.repeats_makeFn none [] (.pipeline stages))
    (hhoused.steady hlasts.steady rfl) (hstored.makeFn none [] (.pipeline stages)) rfl rfl hargs span n

/-- A deferred composition agrees with the immediate one. Its evaluation makes a function, a call of which
with an argument does what the stages do with the argument where the composition was evaluated, and a call
of which without argument does what the immediate composition does there. That is so right after the
evaluation, and in all later states in which the block of the composition is still running. -/
theorem deferred_agrees {m : Machine} (hm : m.Reachable) (stages : List Expr) (span : Span) (n : Nat) :
    ∃ c m₁, (Runner.ofFuel (n + 1)).expr (.compose stages .deferred span) m = .ok (.fn c) m₁ ∧
      c.scope = m.current ∧
      (∀ k callSpan,
        (∀ v, m.Has v → SameEnd m.arena ((Runner.ofFuel (k + 2)).call (.fn c) [v] callSpan m₁)
          ((Runner.ofFuel k).sendThrough stages v m)) ∧
        SameEnd m.arena ((Runner.ofFuel (k + 2)).call (.fn c) [] callSpan m₁)
          ((Runner.ofFuel (k + 1)).expr (.compose stages .immediate span) m)) ∧
      ∀ m', m'.Reachable → m'.arena.isOpen c.scope = true → ∀ k callSpan,
        (∀ v, m'.Has v → SameEnd m'.arena ((Runner.ofFuel (k + 2)).call (.fn c) [v] callSpan m')
          ((Runner.ofFuel k).sendThrough stages v { m' with current := c.scope })) ∧
        SameEnd m'.arena ((Runner.ofFuel (k + 2)).call (.fn c) [] callSpan m')
          ((Runner.ofFuel (k + 1)).expr (.compose stages .immediate span) { m' with current := c.scope }) := by
  obtain ⟨known, halive, hhoused, hstored⟩ := hm.housed
  refine ⟨(m.arena.makeClosure m.current none [] (.pipeline stages)).1, (m.makeFn none [] (.pipeline stages)).2,
    rfl, rfl, fun k callSpan => ⟨fun v hv => ?_, ?_⟩, fun m' hm' hopen k callSpan => ?_⟩
  · obtain ⟨known', halive', hstored', hv⟩ := hv
    exact halive'.sameEnd_deferred hhoused hstored' stages (List.forall_mem_singleton.2 hv) callSpan k
  · exact halive.sameEnd_deferred hhoused hstored stages (List.forall_mem_nil _) callSpan k
  · obtain ⟨later, hlater, hhoused', hstored'⟩ := hm'.housed
    have hcall : ∀ {w args}, m'.Alive w → m'.Stored (Value.Sane False (· ∈ w)) →
        (∀ v ∈ args, v.Sane False (· ∈ w)) →
        SameEnd m'.arena ((Runner.ofFuel (k + 2)).call
            (.fn (m.arena.makeClosure m.current none [] (.pipeline stages)).1) args callSpan m')
          ((Runner.ofFuel k).callStages stages args callSpan { m' with current := m.current }) := by
      intro w args hw hwstored hargs
      have hwithin : Machine.Alive w { m' with current := m.current } := ⟨hw.sound, hw.held, hopen, hw.root⟩
      exact sameEnd_call hw hwithin (m'.repeats_within m.current) hhoused' hwstored rfl rfl hargs callSpan k
    refine ⟨fun v hv => ?_, hcall hlater hstored' (List.forall_mem_nil _)⟩
    obtain ⟨w, hw, hwstored, hv⟩ := hv
    exact hcall hw hwstored (List.forall_mem_singleton.2 hv)

/-- A function that doubles its argument, and a stage that adds one. -/
def doubleThenAddOne : List Expr :=
  [.lambda [⟨⟨"x", default⟩, none, default⟩] none
      ⟨[.expr (.binary (.var ⟨"x", default⟩) .mul (.lit (.int 2) default) default) default], default⟩ default,
    .binary (.placeholder default) .add (.lit (.int 1) default) default]

/-- Both the call of the deferred composition and the stages end in `7`. -/
theorem doubleThenAddOne_agrees :
    ∃ c m₁, (Runner.ofFuel 1).expr (.compose doubleThenAddOne .deferred default) (.start [] 2 {}) =
        .ok (.fn c) m₁ ∧
      SameEnd (Machine.start [] 2 {}).arena ((Runner.ofFuel 7).call (.fn c) [.int 3] default m₁)
        ((Runner.ofFuel 5).sendThrough doubleThenAddOne (.int 3) (.start [] 2 {})) ∧
      SameEnd m₁.arena ((Runner.ofFuel 7).call (.fn c) [.int 3] default m₁)
        ((Runner.ofFuel 5).sendThrough doubleThenAddOne (.int 3) { m₁ with current := c.scope }) ∧
      (((Runner.ofFuel 7).call (.fn c) [.int 3] default).outcome m₁).1.toOption.map Value.repr = some "7" ∧
      (((Runner.ofFuel 5).sendThrough doubleThenAddOne (.int 3)).outcome (.start [] 2 {})).1.toOption.map
        Value.repr = some "7" := by
  have hthree : ∀ {m : Machine}, m.Reachable → m.Has (.int 3) := by
    intro m hm
    obtain ⟨known, halive, -, hstored⟩ := hm.housed
    exact ⟨known, halive, hstored, Value.sane_atom rfl fun _ => trivial⟩
  obtain ⟨c, m₁, heval, -, hcall, hlater⟩ := deferred_agrees (.start [] 2 {}) doubleThenAddOne default 0
  have hreach : m₁.Reachable := by
    have hafter := Machine.Reachable.after (.expr (.compose doubleThenAddOne .deferred default)) 1
      (.start [] 2 {})
    have hend := Eval.after_of_ok heval
    exact hend ▸ hafter
  have hmade : c = ((Machine.start [] 2 {}).arena.makeClosure 0 none [] (.pipeline doubleThenAddOne)).1 ∧
      m₁ = ((Machine.start [] 2 {}).makeFn none [] (.pipeline doubleThenAddOne)).2 := by
    cases heval
    exact ⟨rfl, rfl⟩
  have hopen : m₁.arena.isOpen c.scope = true := by
    rw [hmade.1, hmade.2]
    decide +kernel
  refine ⟨c, m₁, heval, (hcall 5 default).1 _ (hthree (.start [] 2 {})),
    (hlater m₁ hreach hopen 5 default).1 _ (hthree hreach), ?_, by decide +kernel⟩
  rw [hmade.1, hmade.2]
  decide +kernel

end Sluice
