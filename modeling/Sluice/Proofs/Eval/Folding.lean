import Sluice.Proofs.Arena.Folded
import Sluice.Proofs.Eval.Housed
import Sluice.Proofs.Eval.Restore
import Sluice.Proofs.Value.Relabelled

/-! Two machines that run the same with one scope more or less. The inner one has an open scope without
bindings that the outer one does not have, and may count its functions otherwise. What is in a scope of the
inner machine is in a scope of the outer one, with every function replaced by the one made in its stead. -/
namespace Sluice

namespace Machine

variable {t : ScopeId}

/-! ### A function is made -/

theorem shape?_makeFn (m : Machine) (name : Option String) (params : List Param) (body : FnBody)
    (t : ScopeId) : (m.makeFn name params body).2.arena.shape? t = m.arena.shape? t := by
  have hcapture : (m.arena.makeClosure m.current name (params.map (·.name.text)) body).2.shape? t =
      m.arena.shape? t :=
    Arena.shape?_modify m.arena m.current t (f := Scope.noteFn m.arena.nextClosure) fun _ => rfl
  rw [← hcapture]
  exact Arena.shape?_modify _ m.current t (f := fun sc => { sc with handles := sc.handles + 1 }) fun _ => rfl

/-- A new function adds a handle on the innermost scope. -/
theorem isHandled_of_makeFn (m : Machine) {name : Option String} {params : List Param} {body : FnBody}
    (h : (m.makeFn name params body).2.arena.isHandled t = true) :
    t = m.current ∨ m.arena.isHandled t = true := by
  refine (Arena.isHandled_hold_of_isHandled h).imp_right fun ht => ?_
  have hcapture : (m.arena.makeClosure m.current name (params.map (·.name.text)) body).2.isHandled t =
      m.arena.isHandled t :=
    Arena.isHandled_modify m.arena m.current t (f := Scope.noteFn m.arena.nextClosure) fun _ => rfl
  exact hcapture.symm.trans ht

end Machine

/-- Two machines, the functions that the inner one has made, and where its scopes are in the outer one.
Which functions take the place of which is fixed from the start by `drop`. -/
structure Folding (drop : Nat → Nat) (hollow : ScopeId) where
  inner : Machine
  outer : Machine
  made : List Closure
  fold : ScopeId → ScopeId

namespace Folding

variable {drop : Nat → Nat} {hollow s t p : ScopeId} {σ τ υ : Folding drop hollow} {v : Value} {b : Binding}

def fn (σ : Folding drop hollow) (c : Closure) : Closure := { c with id := drop c.id, scope := σ.fold c.scope }

def value (σ : Folding drop hollow) (v : Value) : Value := v.mapFns σ.fn

def binding (σ : Folding drop hollow) (b : Binding) : Binding := { b with value := σ.value b.value }

def Has (σ : Folding drop hollow) (v : Value) : Prop := v.Sane False (· ∈ σ.made)

def on (σ : Folding drop hollow) (m m' : Machine) : Folding drop hollow := { σ with inner := m, outer := m' }

/-- The outer machine is the inner one without its hollow scope. -/
structure Ok (σ : Folding drop hollow) : Prop where
  alive : σ.inner.Alive σ.made
  alive' : σ.outer.Alive (σ.made.map σ.fn)
  stored : σ.inner.Stored σ.Has
  folds : Arena.Folds hollow σ.fold σ.binding σ.inner.arena σ.outer.arena
  ids : ∀ c ∈ σ.made, ∀ d ∈ σ.made, drop c.id = drop d.id → c.id = d.id
  /-- Functions that are yet to be made are counted in step. -/
  next : ∀ n, drop (σ.inner.arena.nextClosure + n) = σ.outer.arena.nextClosure + n
  current : σ.outer.current = σ.fold σ.inner.current
  root : σ.outer.root = σ.fold σ.inner.root
  modules : σ.outer.modules = σ.inner.modules.mapValues σ.fold
  housed : σ.inner.Housed
  /-- The hollow scope is that of no module. -/
  lodged : ∀ e ∈ σ.inner.modules, e.2 ≠ hollow
  registry : σ.outer.registry = σ.inner.registry.map σ.value
  world : σ.outer.world = σ.inner.world

structure Grows (σ τ : Folding drop hollow) : Prop where
  made : σ.made ⊆ τ.made
  root : τ.inner.root = σ.inner.root
  steady : Arena.Steady σ.inner.arena τ.inner.arena
  root' : τ.outer.root = σ.outer.root
  steady' : Arena.Steady σ.outer.arena τ.outer.arena
  fold : ∀ t, σ.inner.arena.Rooted t → τ.fold t = σ.fold t
  houses : σ.inner.Houses τ.inner

structure After (σ τ : Folding drop hollow) : Prop extends Grows σ τ where
  current : τ.inner.current = σ.inner.current

namespace Grows

theorem refl (σ : Folding drop hollow) : Grows σ σ :=
  ⟨List.Subset.refl _, rfl, .refl _, rfl, .refl _, fun _ _ => rfl, .of_eq rfl⟩

theorem trans (h : Grows σ τ) (h' : Grows τ υ) : Grows σ υ where
  made := List.Subset.trans h.made h'.made
  root := h'.root.trans h.root
  steady := h.steady.trans h'.steady
  root' := h'.root'.trans h.root'
  steady' := h.steady'.trans h'.steady'
  fold t ht := (h'.fold t (h.steady.rooted ht)).trans (h.fold t ht)
  houses := h.houses.trans h.steady h'.houses

theorem fn (h : Grows σ τ) (hσ : σ.Ok) {c : Closure} (hc : c ∈ σ.made) : τ.fn c = σ.fn c := by
  rw [Folding.fn, h.fold _ (hσ.alive.rooted_known hc), Folding.fn]

theorem has (h : Grows σ τ) (hv : σ.Has v) : τ.Has v := hv.mono fun _ hc => h.made hc

theorem value (h : Grows σ τ) (hσ : σ.Ok) (hv : σ.Has v) : τ.value v = σ.value v :=
  Value.mapFns_congr hv fun _ hc => h.fn hσ hc

theorem map_made (h : Grows σ τ) (hσ : σ.Ok) : σ.made.map τ.fn = σ.made.map σ.fn :=
  List.map_congr_left fun _ hc => h.fn hσ hc

theorem map_made_subset (h : Grows σ τ) (hσ : σ.Ok) : σ.made.map σ.fn ⊆ τ.made.map τ.fn := by
  rw [← h.map_made hσ]
  exact List.map_subset _ h.made

end Grows

namespace After

theorem refl (σ : Folding drop hollow) : After σ σ := ⟨.refl σ, rfl⟩

theorem trans (h : After σ τ) (h' : After τ υ) : After σ υ :=
  ⟨h.toGrows.trans h'.toGrows, h'.current.trans h.current⟩

end After

theorem Has.closures (hv : σ.Has v) : ∀ c ∈ v.closures, c ∈ σ.made := fun _ hc => hv.closure hc

/-- The functions of a value of the outer machine have been made there. -/
theorem Has.closures_value (hv : σ.Has v) : ∀ c ∈ (σ.value v).closures, c ∈ σ.made.map σ.fn := by
  have hmapped : (σ.value v).Sane False (· ∈ σ.made.map σ.fn) :=
    hv.mapFns fun c hc => List.mem_map_of_mem hc
  exact fun c hc => hmapped.closure hc

namespace Ok

theorem rooted_fn (h : σ.Ok) {c : Closure} (hc : c ∈ σ.made) : σ.inner.arena.Rooted c.scope :=
  h.alive.rooted_known hc

theorem rooted_current (h : σ.Ok) : σ.inner.arena.Rooted σ.inner.current := h.alive.rooted_current

theorem rooted_root (h : σ.Ok) : σ.inner.arena.Rooted σ.inner.root := h.alive.rooted_root

theorem relabels (h : σ.Ok) : Closure.Relabels (· ∈ σ.made) σ.fn where
  name _ := rfl
  id c d hc hd := ⟨h.ids c hc d hd, congrArg drop⟩

/-- A function that is made counts on both sides as the next one. -/
theorem drop_next (h : σ.Ok) : drop σ.inner.arena.nextClosure = σ.outer.arena.nextClosure := h.next 0

/-! ### Questions -/

theorem adts (h : σ.Ok) : σ.outer.registry.adts = σ.inner.registry.adts := by
  rw [h.registry]
  rfl

theorem lookup? (h : σ.Ok) (name : String) : σ.outer.arena.lookup? σ.outer.current name =
    (σ.inner.arena.lookup? σ.inner.current name).map σ.value := by
  rw [Arena.lookup?, Arena.lookup?, h.current, h.folds.find? h.rooted_current, Option.map_map,
    Option.map_map]
  rfl

theorem lookup (h : σ.Ok) (id : Ident) : σ.outer.lookup id = (σ.inner.lookup id).map σ.value := by
  rw [Machine.lookup, Machine.lookup, h.lookup?, h.modules, Table.contains_mapValues]
  cases σ.inner.arena.lookup? σ.inner.current id.text with
  | some v => rfl
  | none =>
    dsimp only [Option.map]
    split <;> rfl

theorem placeholder (h : σ.Ok) (span : Span) :
    σ.outer.placeholder span = (σ.inner.placeholder span).map σ.value := by
  rw [Machine.placeholder, Machine.placeholder, h.lookup?]
  cases σ.inner.arena.lookup? σ.inner.current "_" <;> rfl

theorem exported (h : σ.Ok) (source : String) (name : Ident) :
    σ.outer.exported source name = (σ.inner.exported source name).map σ.value := by
  rw [Machine.exported, Machine.exported, h.modules, Table.get?_mapValues]
  cases hscope : σ.inner.modules.get? source with
  | none => rfl
  | some scope =>
    have hmem := Table.mem_of_get?_eq_some hscope
    dsimp only [Option.map]
    rw [h.folds.local? (.opened (h.housed _ hmem)) (h.lodged _ hmem)]
    rcases σ.inner.arena.local? scope name.text with _ | ⟨v, isConst, _ | _⟩ <;> rfl

theorem member (h : σ.Ok) (base : Value) (name : Ident) :
    σ.outer.member (σ.value base) name = (σ.inner.member base name).map σ.value := by
  have hother : (σ.value base).tag = base.tag := Value.tag_mapFns σ.fn base
  cases base with
  | module source => exact h.exported source name
  | struct type fields =>
    have hfield := Value.field?_mapFns σ.fn (.struct type fields) name.text
    rw [Value.mapFns] at hfield
    rw [value, Value.mapFns, Machine.member, Machine.member, hfield]
    cases (Value.struct type fields).field? name.text <;> rfl
  | _ => exact congrArg (fun tag => Except.error (Fault.noFields tag name)) hother

theorem members (h : σ.Ok) (base : Value) (names : List Ident) :
    σ.outer.members (σ.value base) names = (σ.inner.members base names).map σ.value := by
  induction names generalizing base with
  | nil => rfl
  | cons name names ih =>
    rw [Machine.members, Machine.members, h.member]
    cases σ.inner.member base name with
    | error e => rfl
    | ok v => exact ih v

theorem imports (h : σ.Ok) (source : Ident) (names : Option (List Ident)) (span : Span) :
    σ.outer.imports source names span =
      (σ.inner.imports source names span).map (List.map (Prod.map id σ.value)) := by
  rw [Machine.imports, Machine.imports, h.modules, Table.get?_mapValues]
  cases hscope : σ.inner.modules.get? source.text with
  | none => rfl
  | some scope =>
    have hmem := Table.mem_of_get?_eq_some hscope
    have hexports : σ.outer.arena.exports (σ.fold scope) =
        (σ.inner.arena.exports scope).map (Prod.map id σ.value) :=
      h.folds.exports (.opened (h.housed _ hmem)) (h.lodged _ hmem) fun _ => ⟨rfl, rfl⟩
    dsimp only [Option.map]
    rw [hexports]
    cases names with
    | none => rfl
    | some names =>
      dsimp only
      induction names with
      | nil => rfl
      | cons n names ih =>
        rw [List.mapM_cons, List.mapM_cons, ih, List.find?_map]
        simp only [Function.comp_def, Prod.map_fst, id]
        cases (σ.inner.arena.exports scope).find? (·.1 = n.text) with
        | none => rfl
        | some e =>
          dsimp only [Option.map]
          cases List.mapM (m := Except Fault) _ names <;> rfl

theorem implementation (h : σ.Ok) (method : String) (args : List Value) (span : Span) :
    Runner.implementation σ.outer method (args.map σ.value) span =
      (Runner.implementation σ.inner method args span).map σ.value := by
  cases args with
  | nil => rfl
  | cons receiver args =>
    have htag : (σ.value receiver).tag = receiver.tag := Value.tag_mapFns σ.fn receiver
    have howner : (σ.inner.registry.map σ.value).ownerOf? method = σ.inner.registry.ownerOf? method := rfl
    rw [List.map_cons, Runner.implementation, Runner.implementation, h.registry, htag,
      Registry.implFor?_map, howner]
    cases σ.inner.registry.implFor? method receiver.tag <;> rfl

private theorem memberCall_eq (m : Machine) {receiver : Value} (method : Ident) (args : List Value)
    (hreceiver : ∀ source, receiver ≠ .module source) :
    Runner.memberCall m receiver method args = match receiver.field? method.text with
      | some f => .ok (f, args)
      | none =>
        match m.arena.lookup? m.current method.text with
        | some f => .ok (f, receiver :: args)
        | none =>
          if (m.registry.ownerOf? method.text).isSome then .ok (.method method.text, receiver :: args)
          else .error (.noMethod receiver.tag method) := by
  cases receiver with
  | module source => exact (hreceiver source rfl).elim
  | _ => rfl

theorem memberCall (h : σ.Ok) (receiver : Value) (method : Ident) (args : List Value) :
    Runner.memberCall σ.outer (σ.value receiver) method (args.map σ.value) =
      (Runner.memberCall σ.inner receiver method args).map (Prod.map σ.value (List.map σ.value)) := by
  by_cases hmodule : ∃ source, receiver = .module source
  · obtain ⟨source, rfl⟩ := hmodule
    show (do return (← σ.outer.exported source method, args.map σ.value) : Except Fault _) =
      Except.map _ (do return (← σ.inner.exported source method, args))
    rw [h.exported]
    cases σ.inner.exported source method <;> rfl
  · have hreceiver : ∀ source, receiver ≠ .module source := fun source hr => hmodule ⟨source, hr⟩
    have hreceiver' : ∀ source, σ.value receiver ≠ .module source := by
      intro source hr
      cases receiver <;> simp [value, Value.mapFns] at hr
      exact hreceiver _ rfl
    have hfield : (σ.value receiver).field? method.text = (receiver.field? method.text).map σ.value :=
      Value.field?_mapFns σ.fn receiver method.text
    have htag : (σ.value receiver).tag = receiver.tag := Value.tag_mapFns σ.fn receiver
    have howner : σ.outer.registry.ownerOf? method.text = σ.inner.registry.ownerOf? method.text := by
      rw [h.registry]
      rfl
    rw [memberCall_eq _ _ _ hreceiver', memberCall_eq _ _ _ hreceiver, hfield, h.lookup?, htag, howner]
    cases receiver.field? method.text with
    | some f => rfl
    | none =>
      cases σ.inner.arena.lookup? σ.inner.current method.text with
      | some f => rfl
      | none =>
        dsimp only [Option.map]
        split <;> rfl

theorem firstMatch (h : σ.Ok) {v : Value} (hv : σ.Has v) (arms : List MatchArm) (span : Span) :
    Runner.firstMatch σ.outer (σ.value v) arms span =
      (Runner.firstMatch σ.inner v arms span).map (Prod.map (List.map (Prod.map id σ.value)) id) := by
  have hfind : (arms.findSome? fun arm =>
        (arm.pat.bindings? σ.outer.registry.adts (σ.value v)).map (·, arm)) =
      (arms.findSome? fun arm => (arm.pat.bindings? σ.inner.registry.adts v).map (·, arm)).map
        (Prod.map (List.map (Prod.map id σ.value)) id) := by
    rw [List.map_findSome?]
    congr 1
    funext arm
    rw [h.adts, value, Pattern.bindings?_mapFns h.relabels arm.pat hv, Option.map_map, Function.comp_apply,
      Option.map_map]
    rfl
  have hrepr : (σ.value v).repr = v.repr := Value.repr_mapFns h.relabels.name v
  rw [Runner.firstMatch, Runner.firstMatch, hfind]
  cases arms.findSome? fun arm => (arm.pat.bindings? σ.inner.registry.adts v).map (·, arm) with
  | some found => rfl
  | none => exact congrArg Except.error (by rw [Fault.noArmMatches, hrepr, Fault.noArmMatches])

theorem assigned (h : σ.Ok) (root : Ident) (steps : List Step) (op : Option BinaryOp) (span : Span) :
    Runner.assigned σ.outer root (steps.map (Step.mapFns σ.fn)) op span =
      (Runner.assigned σ.inner root steps op span).map (Option.map σ.value) := by
  rw [Runner.assigned, Runner.assigned, h.current, h.folds.find? h.rooted_current, List.isEmpty_map]
  cases σ.inner.arena.find? σ.inner.current root.text with
  | some found =>
    dsimp only [Option.map, binding]
    split <;> rfl
  | none =>
    dsimp only [Option.map]
    split <;> rfl

/-! ### Changes -/

/-- A change that is not about scopes. -/
theorem idle (h : σ.Ok) (m m' : Machine) (harena : m.arena = σ.inner.arena)
    (hcurrent : m.current = σ.inner.current) (hroot : m.root = σ.inner.root)
    (hmodules : m.modules = σ.inner.modules) (harena' : m'.arena = σ.outer.arena)
    (hcurrent' : m'.current = σ.outer.current) (hroot' : m'.root = σ.outer.root)
    (hmodules' : m'.modules = σ.outer.modules) (hr : m.registry.Stored σ.Has)
    (hr' : m'.registry = m.registry.map σ.value) (hw : m'.world = m.world) :
    (σ.on m m').Ok ∧ σ.After (σ.on m m') := by
  obtain ⟨halive, hlasts⟩ := h.alive.idle m harena hcurrent hroot
  obtain ⟨halive', hlasts'⟩ := h.alive'.idle m' harena' hcurrent' hroot'
  obtain ⟨arena, current, root, registry, modules, world, depth, maxDepth⟩ := m
  obtain ⟨arena', current', root', registry', modules', world', depth', maxDepth'⟩ := m'
  dsimp only at harena hcurrent hroot hmodules harena' hcurrent' hroot' hmodules'
  subst harena hcurrent hroot hmodules harena' hcurrent' hroot' hmodules'
  exact ⟨⟨halive, halive', ⟨h.stored.arena, hr⟩, h.folds, h.ids, h.next, h.current, h.root, h.modules,
    h.housed, h.lodged, hr', hw⟩, ⟨List.Subset.refl _, rfl, hlasts.steady, rfl, hlasts'.steady,
    fun _ _ => rfl, .of_eq rfl⟩, rfl⟩

/-- A name is bound in a scope that is not hollow. -/
theorem define (h : σ.Ok) (ht : σ.inner.arena.Rooted t) (hne : t ≠ hollow) (name : String)
    (hb : σ.Has b.value) :
    (σ.on { σ.inner with arena := σ.inner.arena.define t name b }
      { σ.outer with arena := σ.outer.arena.define (σ.fold t) name (σ.binding b) }).Ok ∧
    σ.After (σ.on { σ.inner with arena := σ.inner.arena.define t name b }
      { σ.outer with arena := σ.outer.arena.define (σ.fold t) name (σ.binding b) }) := by
  obtain ⟨halive, hlasts⟩ := h.alive.define t name hb.closures
  obtain ⟨halive', hlasts'⟩ := h.alive'.define (σ.fold t) name (b := σ.binding b) hb.closures_value
  exact ⟨⟨halive, halive', ⟨h.stored.arena.define t name hb, h.stored.registry⟩,
    h.folds.define ht hne name b, h.ids, h.next, h.current, h.root, h.modules,
    h.housed.steady hlasts.steady rfl, h.lodged, h.registry, h.world⟩, ⟨List.Subset.refl _, rfl,
    hlasts.steady, rfl, hlasts'.steady, fun _ _ => rfl, .of_eq rfl⟩, rfl⟩

end Ok

def makeFn (σ : Folding drop hollow) (name : Option String) (params : List Param) (body : FnBody) :
    Folding drop hollow where
  inner := (σ.inner.makeFn name params body).2
  outer := (σ.outer.makeFn name params body).2
  made := σ.made ++ [(σ.inner.arena.makeClosure σ.inner.current name (params.map (·.name.text)) body).1]
  fold := σ.fold

def enter (σ : Folding drop hollow) (parent : ScopeId) : Folding drop hollow where
  inner := σ.inner.enter parent
  outer := σ.outer.enter (σ.fold parent)
  made := σ.made
  fold := Function.update σ.fold (σ.inner.enter parent).current (σ.outer.enter (σ.fold parent)).current

namespace Ok

/-- The new function takes the place of the one that the outer machine makes. -/
theorem fn_makeFn (h : σ.Ok) (name : Option String) (params : List Param) (body : FnBody) :
    σ.fn (σ.inner.arena.makeClosure σ.inner.current name (params.map (·.name.text)) body).1 =
      (σ.outer.arena.makeClosure σ.outer.current name (params.map (·.name.text)) body).1 := by
  rw [Arena.makeClosure, Arena.makeClosure, fn]
  dsimp only
  rw [h.drop_next, h.current]

/-- It counts as no other. -/
theorem ids_makeFn (h : σ.Ok) (name : Option String) (params : List Param) (body : FnBody) :
    ∀ c ∈ (σ.makeFn name params body).made, ∀ d ∈ (σ.makeFn name params body).made,
      drop c.id = drop d.id → c.id = d.id := by
  have hfresh : ∀ c ∈ σ.made, drop c.id ≠ drop σ.inner.arena.nextClosure := by
    intro c hc heq
    have hlt := h.alive'.sound.id_lt _ (Machine.mem_references_of_known (List.mem_map_of_mem hc))
    rw [h.drop_next] at heq
    exact Nat.lt_irrefl _ (heq ▸ hlt)
  intro c hc d hd heq
  rcases List.mem_append.1 hc with hc | hc <;> rcases List.mem_append.1 hd with hd | hd
  · exact h.ids c hc d hd heq
  · rw [List.mem_singleton.1 hd] at heq
    exact (hfresh c hc heq).elim
  · rw [List.mem_singleton.1 hc] at heq
    exact (hfresh d hd heq.symm).elim
  · rw [List.mem_singleton.1 hc, List.mem_singleton.1 hd]

theorem folds_makeFn (h : σ.Ok) (name : Option String) (params : List Param) (body : FnBody) :
    Arena.Folds hollow σ.fold σ.binding (σ.inner.makeFn name params body).2.arena
      (σ.outer.makeFn name params body).2.arena := by
  obtain ⟨halive', hlasts'⟩ := h.alive'.makeFn name params body
  have hhandled : ∀ t, (σ.inner.makeFn name params body).2.arena.isHandled t = true →
      t = σ.inner.current ∨ σ.inner.arena.isHandled t = true := fun t ht => σ.inner.isHandled_of_makeFn ht
  refine h.folds.sameShapes (σ.inner.shape?_makeFn name params body)
    (σ.inner.isOpen_makeFn name params body) (fun t ht => ?_) (σ.outer.shape?_makeFn name params body)
    (σ.outer.isOpen_makeFn name params body) fun t ht => ?_
  · rcases hhandled t ht with rfl | ht
    · exact h.rooted_current
    · exact .handled ht
  · rcases hhandled t ht with rfl | ht
    · -- the new function holds the innermost scope
      have hnew := halive'.held _ (List.mem_append_right _ List.mem_cons_self)
      rw [← h.current]
      exact .inr hnew
    · exact (h.folds.handled t ht).imp_right (hlasts'.steady.handled _)

theorem makeFn (h : σ.Ok) (name : Option String) (params : List Param) (body : FnBody) :
    (σ.makeFn name params body).Ok ∧ σ.After (σ.makeFn name params body) ∧
      (σ.makeFn name params body).Has (σ.inner.makeFn name params body).1 ∧
      (σ.outer.makeFn name params body).1 =
        (σ.makeFn name params body).value (σ.inner.makeFn name params body).1 := by
  obtain ⟨halive, hlasts⟩ := h.alive.makeFn name params body
  obtain ⟨halive', hlasts'⟩ := h.alive'.makeFn name params body
  have hclosure := h.fn_makeFn name params body
  have hmade : (σ.makeFn name params body).made.map (σ.makeFn name params body).fn = σ.made.map σ.fn ++
      [(σ.outer.arena.makeClosure σ.outer.current name (params.map (·.name.text)) body).1] := by
    rw [← hclosure]
    exact List.map_append
  have hold : σ.made ⊆ (σ.makeFn name params body).made := List.subset_append_left _ _
  have hstored := h.stored.makeFn name params body
  have hvalue : (σ.makeFn name params body).Has (σ.inner.makeFn name params body).1 :=
    Value.sane_atom rfl (List.mem_append_right _ List.mem_cons_self)
  refine ⟨⟨halive, ?_, hstored.mono fun v hv => hv.mono fun _ hc => hold hc, h.folds_makeFn name params body,
    h.ids_makeFn name params body, fun n => ?_, h.current, h.root, h.modules,
    h.housed.steady hlasts.steady rfl, h.lodged, h.registry, h.world⟩, ⟨⟨hold, rfl, hlasts.steady, rfl,
    hlasts'.steady, fun _ _ => rfl, .of_eq rfl⟩, rfl⟩, hvalue, congrArg Value.fn hclosure.symm⟩
  · rw [hmade]
    exact halive'
  · show drop (σ.inner.arena.nextClosure + 1 + n) = σ.outer.arena.nextClosure + 1 + n
    rw [Nat.add_assoc, h.next, Nat.add_assoc]

/-! ### Scopes -/

theorem ne_enter (h : σ.Ok) (parent : ScopeId) (ht : σ.inner.arena.Rooted t) :
    t ≠ (σ.inner.enter parent).current := h.alive.ne_enter parent ht

theorem fold_enter (h : σ.Ok) (parent : ScopeId) (ht : σ.inner.arena.Rooted t) :
    (σ.enter parent).fold t = σ.fold t := Function.update_of_ne (h.ne_enter parent ht) _ _

theorem grows_enter (h : σ.Ok) (hp : σ.inner.arena.Rooted p) : σ.Grows (σ.enter p) := by
  obtain ⟨-, hsteady⟩ := h.alive.enter (h.alive.isSome_of_rooted hp)
  obtain ⟨-, hsteady'⟩ := h.alive'.enter (h.alive'.isSome_of_rooted (h.folds.rooted hp))
  exact ⟨List.Subset.refl _, rfl, hsteady, rfl, hsteady', fun t ht => h.fold_enter p ht,
    .of_eq rfl⟩

theorem enter (h : σ.Ok) (hp : σ.inner.arena.Rooted p) : (σ.enter p).Ok := by
  have hgrows := h.grows_enter hp
  obtain ⟨halive, hsteady⟩ := h.alive.enter (h.alive.isSome_of_rooted hp)
  obtain ⟨halive', -⟩ := h.alive'.enter (h.alive'.isSome_of_rooted (h.folds.rooted hp))
  have hnew : (σ.enter p).fold (σ.inner.enter p).current = (σ.outer.enter (σ.fold p)).current :=
    Function.update_self _ _ _
  have hfolds : Arena.Folds hollow (σ.enter p).fold (σ.enter p).binding σ.inner.arena σ.outer.arena := by
    refine h.folds.congr (fun t ht => h.fold_enter p ht) fun t sh e hsh he => ?_
    obtain ⟨sc, hsc, rfl⟩ := Option.map_eq_some_iff.1 hsh
    rw [binding, hgrows.value h (h.stored.arena t sc e hsc he), binding]
  have hpush := hfolds.push h.alive.sound h.alive'.sound hp (by rw [h.fold_enter p hp]; exact hnew)
  rw [h.fold_enter p hp] at hpush
  have hstored : (σ.inner.enter p).arena.Stored σ.Has := h.stored.arena.push (some p)
  have hnext : (σ.inner.enter p).arena.nextClosure = σ.inner.arena.nextClosure :=
    Arena.nextClosure_push σ.inner.arena (some p)
  have hnext' : (σ.outer.enter (σ.fold p)).arena.nextClosure = σ.outer.arena.nextClosure :=
    Arena.nextClosure_push σ.outer.arena (some (σ.fold p))
  refine ⟨halive, ?_, ⟨hstored, h.stored.registry⟩, hpush, h.ids, fun n => ?_, hnew.symm, ?_, ?_,
    h.housed.steady hsteady rfl, h.lodged, ?_, h.world⟩
  · have hmade : (σ.enter p).made.map (σ.enter p).fn = σ.made.map σ.fn := hgrows.map_made h
    rw [hmade]
    exact halive'
  · show drop ((σ.inner.enter p).arena.nextClosure + n) = (σ.outer.enter (σ.fold p)).arena.nextClosure + n
    rw [hnext, hnext', h.next]
  · exact h.root.trans (h.fold_enter p h.rooted_root).symm
  · exact h.modules.trans (Table.mapValues_congr fun e he =>
      (h.fold_enter p (.opened (h.housed e he))).symm)
  · exact h.registry.trans (Registry.map_congr
      (fun e he f hf => (hgrows.value h (h.stored.registry.impls e he f hf)).symm)
      fun e he f hf => (hgrows.value h (h.stored.registry.defaults e he f hf)).symm)

/-- A block that began in `σ` ends on both sides. -/
theorem exit (h : σ.Ok) (hp : σ.inner.arena.Rooted p) (hτ : τ.Ok) (hafter : (σ.enter p).After τ) :
    (τ.on (τ.inner.exit (σ.inner.enter p).current σ.inner.current)
      (τ.outer.exit (σ.outer.enter (σ.fold p)).current σ.outer.current)).Ok ∧
    σ.After (τ.on (τ.inner.exit (σ.inner.enter p).current σ.inner.current)
      (τ.outer.exit (σ.outer.enter (σ.fold p)).current σ.outer.current)) := by
  have hgrows : σ.Grows τ := (h.grows_enter hp).trans hafter.toGrows
  have hcurrent : τ.inner.current = (σ.inner.enter p).current := hafter.current
  have hfold : τ.fold (σ.inner.enter p).current = (σ.outer.enter (σ.fold p)).current :=
    (hafter.fold _ (h.enter hp).rooted_current).trans (Function.update_self _ _ _)
  have hhollow : σ.inner.arena.Rooted hollow := h.folds.rooted_hollow
  obtain ⟨halive, hlasts, -, -⟩ := h.alive.exit hτ.alive hgrows.made hgrows.root hgrows.steady
    (h.alive.vacant_enter p)
  obtain ⟨halive', hlasts', -, -⟩ := h.alive'.exit hτ.alive' (hgrows.map_made_subset h) hgrows.root'
    hgrows.steady' (h.alive'.vacant_enter (σ.fold p))
  have hopen : τ.inner.arena.isOpen (σ.inner.enter p).current = true := hcurrent ▸ hτ.alive.current
  have hfolds : Arena.Folds hollow τ.fold τ.binding
      (τ.inner.exit (σ.inner.enter p).current σ.inner.current).arena
      (τ.outer.exit (σ.outer.enter (σ.fold p)).current σ.outer.current).arena := by
    have hb : (τ.inner.exit (σ.inner.enter p).current σ.inner.current).arena.Linked [] :=
      halive.sound.toLinked.withOutside (List.forall_mem_nil _)
    have hb' : (τ.outer.exit (σ.outer.enter (σ.fold p)).current σ.outer.current).arena.Linked [] :=
      halive'.sound.toLinked.withOutside (List.forall_mem_nil _)
    rw [← hfold] at hb' ⊢
    refine hτ.folds.release (o := .plain) (hτ.alive'.sound.withOutside (List.forall_mem_nil _)) hb hb'
      (.opened hopen) (h.ne_enter p hhollow).symm (fun hparent => ?_)
      (Arena.isSome_of_isOpen (hlasts.steady.opened _ h.folds.running))
    rw [hgrows.steady.parent _ hhollow] at hparent
    exact h.ne_enter p (.parent hhollow hparent) rfl
  refine ⟨⟨halive, halive', ⟨hτ.stored.arena.release [] _, hτ.stored.registry⟩, hfolds, hτ.ids, fun n => ?_,
    ?_, hτ.root, hτ.modules, h.housed.exit h.alive (h.enter hp).alive hτ.housed hafter.houses, hτ.lodged,
    hτ.registry, hτ.world⟩, ⟨hgrows.made, hlasts.root, hlasts.steady, hlasts'.root, hlasts'.steady, hgrows.fold,
    hgrows.houses⟩, rfl⟩
  · have hnext : (τ.inner.arena.releaseBy .plain [] (σ.inner.enter p).current).nextClosure =
        τ.inner.arena.nextClosure := Arena.nextClosure_releaseBy ..
    have hnext' : (τ.outer.arena.releaseBy .plain [] (σ.outer.enter (σ.fold p)).current).nextClosure =
        τ.outer.arena.nextClosure := Arena.nextClosure_releaseBy ..
    show drop ((τ.inner.arena.releaseBy .plain [] (σ.inner.enter p).current).nextClosure + n) =
      (τ.outer.arena.releaseBy .plain [] (σ.outer.enter (σ.fold p)).current).nextClosure + n
    rw [hnext, hnext', hτ.next]
  · exact h.current.trans (hgrows.fold _ h.rooted_current).symm

end Ok

def enterModule (σ : Folding drop hollow) (name : String) : Folding drop hollow :=
  (σ.enter σ.inner.root).on (σ.inner.enterModule name) (σ.outer.enterModule name)

namespace Ok

theorem outer_enterModule (h : σ.Ok) (name : String) :
    σ.outer.enterModule name = { σ.outer.enter (σ.fold σ.inner.root) with
      modules := σ.outer.modules.insert name (σ.outer.enter (σ.fold σ.inner.root)).current } := by
  rw [Machine.enterModule, h.root]

theorem grows_enterModule (h : σ.Ok) (name : String) : σ.Grows (σ.enterModule name) := by
  have hentered := h.grows_enter h.rooted_root
  refine ⟨hentered.made, hentered.root, hentered.steady, rfl, ?_, hentered.fold,
    h.alive.houses_enterModule name⟩
  show Arena.Steady σ.outer.arena (σ.outer.enterModule name).arena
  rw [h.outer_enterModule]
  exact hentered.steady'

theorem enterModule (h : σ.Ok) (name : String) : (σ.enterModule name).Ok := by
  have hentered := h.enter h.rooted_root
  have hnew : (σ.enter σ.inner.root).fold (σ.inner.enter σ.inner.root).current =
      (σ.outer.enter (σ.fold σ.inner.root)).current := Function.update_self _ _ _
  rw [Folding.enterModule, h.outer_enterModule]
  refine ⟨(hentered.alive.idle (σ.inner.enterModule name) rfl rfl rfl).1,
    (hentered.alive'.idle { σ.outer.enter (σ.fold σ.inner.root) with
      modules := σ.outer.modules.insert name _ } rfl rfl rfl).1,
    ⟨hentered.stored.arena, hentered.stored.registry⟩, hentered.folds, hentered.ids, hentered.next,
    hentered.current, hentered.root, ?_,
    h.housed.enterModule hentered.alive (h.grows_enter h.rooted_root).steady name, fun e he => ?_,
    hentered.registry, hentered.world⟩
  · show Table.insert (σ.enter σ.inner.root).outer.modules name _ = _
    rw [hentered.modules, ← hnew]
    exact Table.insert_mapValues _ _ _ _
  · rcases Table.mem_insert he with rfl | he
    · exact (h.ne_enter _ h.folds.rooted_hollow).symm
    · exact h.lodged e he

/-- A module that began in `σ` ends on both sides. Its scope stays. -/
theorem leave {name : String} (h : σ.Ok) (hτ : τ.Ok) (hafter : (σ.enterModule name).After τ) :
    (τ.on { τ.inner with current := σ.inner.current } { τ.outer with current := σ.outer.current }).Ok ∧
    σ.After (τ.on { τ.inner with current := σ.inner.current }
      { τ.outer with current := σ.outer.current }) := by
  have hgrows := (h.grows_enterModule name).trans hafter.toGrows
  obtain ⟨halive, -⟩ := h.alive.leave hτ.alive hgrows.made hgrows.root hgrows.steady
  obtain ⟨halive', -⟩ := h.alive'.leave hτ.alive' (hgrows.map_made_subset h) hgrows.root' hgrows.steady'
  exact ⟨⟨halive, halive', ⟨hτ.stored.arena, hτ.stored.registry⟩, hτ.folds, hτ.ids, hτ.next,
    h.current.trans (hgrows.fold _ h.rooted_current).symm, hτ.root, hτ.modules, hτ.housed, hτ.lodged,
    hτ.registry, hτ.world⟩, ⟨hgrows.made, hgrows.root, hgrows.steady, hgrows.root', hgrows.steady', hgrows.fold,
    hgrows.houses⟩, rfl⟩

end Ok

end Folding

end Sluice
