import Sluice.Proofs.Eval.Folding
import Sluice.Proofs.Eval.Watch

/-! Computations that agree on a machine and on the same machine without its hollow scope. Both end in the
same way, and again in such machines, unless one of them runs into the limit on the depth of calls, which
the other may be a call further from. -/
namespace Sluice

def Interrupt.TooDeep : Interrupt → Prop
  | fault f => f.kind = .callDepthExceeded
  | _ => False

namespace Folding

variable {drop : Nat → Nat} {hollow s t p : ScopeId} {σ τ : Folding drop hollow} {v v' w w' : Value}
  {vs vs' : List Value} {α β γ δ : Type}

/-! ### Values on both sides -/

def Same (σ : Folding drop hollow) (v v' : Value) : Prop := σ.Has v ∧ v' = σ.value v

def SameAll (σ : Folding drop hollow) (vs vs' : List Value) : Prop := (∀ v ∈ vs, σ.Has v) ∧ vs' = vs.map σ.value

def SameNamed (σ : Folding drop hollow) (bs bs' : List (String × Value)) : Prop :=
  (∀ b ∈ bs, σ.Has b.2) ∧ bs' = bs.map (Prod.map id σ.value)

def SameSteps (σ : Folding drop hollow) (steps steps' : List Step) : Prop :=
  (∀ s ∈ steps, s.Sane False (· ∈ σ.made)) ∧ steps' = steps.map (Step.mapFns σ.fn)

inductive SameFlow (σ : Folding drop hollow) : Flow → Flow → Prop
  | value {v v' : Value} : σ.Same v v' → SameFlow σ (.value v) (.value v')
  | ret {v v' : Value} (span : Span) : σ.Same v v' → SameFlow σ (.ret v span) (.ret v' span)
  | leave (span : Span) : SameFlow σ (.leave span) (.leave span)
  | next (span : Span) : SameFlow σ (.next span) (.next span)

theorem Same.grows (h : σ.Same v v') (hσ : σ.Ok) (hgrows : σ.Grows τ) : τ.Same v v' :=
  ⟨hgrows.has h.1, h.2.trans (hgrows.value hσ h.1).symm⟩

theorem SameAll.grows (h : σ.SameAll vs vs') (hσ : σ.Ok) (hgrows : σ.Grows τ) : τ.SameAll vs vs' :=
  ⟨fun v hv => hgrows.has (h.1 v hv),
    h.2.trans (List.map_congr_left fun v hv => (hgrows.value hσ (h.1 v hv)).symm)⟩

theorem SameNamed.grows {bs bs' : List (String × Value)} (h : σ.SameNamed bs bs') (hσ : σ.Ok)
    (hgrows : σ.Grows τ) : τ.SameNamed bs bs' :=
  ⟨fun b hb => hgrows.has (h.1 b hb), h.2.trans (List.map_congr_left fun b hb =>
    congrArg (Prod.mk b.1) (hgrows.value hσ (h.1 b hb)).symm)⟩

theorem SameSteps.grows {steps steps' : List Step} (h : σ.SameSteps steps steps') (hσ : σ.Ok)
    (hgrows : σ.Grows τ) : τ.SameSteps steps steps' := by
  refine ⟨fun s hs => ?_, h.2.trans (List.map_congr_left fun s hs => ?_)⟩
  · have hstep := h.1 s hs
    cases s with
    | index key span => exact hgrows.has hstep
    | field name => trivial
  · have hstep := h.1 s hs
    cases s with
    | index key span => exact congrArg (Step.index · span) (hgrows.value hσ hstep).symm
    | field name => rfl

theorem Same.after (h : σ.Same v v') (hσ : σ.Ok) (hafter : σ.After τ) : τ.Same v v' :=
  h.grows hσ hafter.toGrows

theorem SameAll.after (h : σ.SameAll vs vs') (hσ : σ.Ok) (hafter : σ.After τ) : τ.SameAll vs vs' :=
  h.grows hσ hafter.toGrows

theorem Same.unit (σ : Folding drop hollow) : σ.Same .unit .unit :=
  ⟨Value.sane_atom rfl fun _ => trivial, rfl⟩

theorem Same.bool (σ : Folding drop hollow) (b : Bool) : σ.Same (.bool b) (.bool b) :=
  ⟨Value.sane_atom rfl fun _ => trivial, rfl⟩

theorem SameAll.nil (σ : Folding drop hollow) : σ.SameAll [] [] := ⟨List.forall_mem_nil _, rfl⟩

theorem SameAll.cons (h : σ.Same v v') (hs : σ.SameAll vs vs') : σ.SameAll (v :: vs) (v' :: vs') :=
  ⟨List.forall_mem_cons.2 ⟨h.1, hs.1⟩, by rw [h.2, hs.2]; rfl⟩

theorem SameAll.of_nil (h : σ.SameAll [] vs') : vs' = [] := h.2

theorem SameAll.of_cons (h : σ.SameAll (v :: vs) vs') :
    ∃ w ws, vs' = w :: ws ∧ σ.Same v w ∧ σ.SameAll vs ws :=
  ⟨_, _, h.2, ⟨h.1 v List.mem_cons_self, rfl⟩, fun u hu => h.1 u (List.mem_cons_of_mem _ hu), rfl⟩

theorem SameNamed.of_nil {bs' : List (String × Value)} (h : σ.SameNamed [] bs') : bs' = [] := h.2

theorem SameNamed.of_cons {name : String} {bs bs' : List (String × Value)}
    (h : σ.SameNamed ((name, v) :: bs) bs') :
    ∃ w cs, bs' = (name, w) :: cs ∧ σ.Same v w ∧ σ.SameNamed bs cs :=
  ⟨_, _, h.2, ⟨h.1 _ List.mem_cons_self, rfl⟩, fun b hb => h.1 b (List.mem_cons_of_mem _ hb), rfl⟩

theorem SameFlow.on {flow flow' : Flow} (h : σ.SameFlow flow flow') (m m' : Machine) :
    (σ.on m m').SameFlow flow flow' := by
  cases h with
  | value hv => exact .value hv
  | ret span hv => exact .ret span hv
  | leave span => exact .leave span
  | next span => exact .next span

/-- The innermost scope is not the hollow one, and names can be bound in it. -/
def Inside (σ : Folding drop hollow) : Prop := σ.inner.current ≠ hollow

theorem Inside.after (h : σ.Inside) (hafter : σ.After τ) : τ.Inside := by
  rw [Inside, hafter.current]
  exact h

/-! ### Agreement -/

/-- Run on the inner and on the outer machine, two computations end in the same way, and in results of
which `Q` holds; or one of them runs into the limit on the depth of calls. -/
inductive Agree (σ : Folding drop hollow) (x : Eval α) (x' : Eval β)
    (Q : Folding drop hollow → α → β → Prop) : Prop
  | ok {a : α} {b : β} (τ : Folding drop hollow) : x σ.inner = .ok a τ.inner → x' σ.outer = .ok b τ.outer →
    τ.Ok → σ.After τ → Q τ a b → Agree σ x x' Q
  | error {i : Interrupt} (τ : Folding drop hollow) : x σ.inner = .error i τ.inner →
    x' σ.outer = .error i τ.outer → τ.Ok → σ.After τ → Agree σ x x' Q
  | deep {i : Interrupt} {m : Machine} : x σ.inner = .error i m → i.TooDeep → Agree σ x x' Q
  | deep' {i : Interrupt} {m : Machine} : x' σ.outer = .error i m → i.TooDeep → Agree σ x x' Q

namespace Agree

variable {x y : Eval α} {x' y' : Eval β} {f : α → Eval γ} {f' : β → Eval δ}
  {Q Q' : Folding drop hollow → α → β → Prop} {R : Folding drop hollow → γ → δ → Prop}

theorem congr (h : Agree σ x x' Q) (hx : y σ.inner = x σ.inner) (hx' : y' σ.outer = x' σ.outer) :
    Agree σ y y' Q := by
  cases h with
  | ok τ hi ho hτ hafter hQ => exact .ok τ (hx.trans hi) (hx'.trans ho) hτ hafter hQ
  | error τ hi ho hτ hafter => exact .error τ (hx.trans hi) (hx'.trans ho) hτ hafter
  | deep hi hdeep => exact .deep (hx.trans hi) hdeep
  | deep' ho hdeep => exact .deep' (hx'.trans ho) hdeep

theorem pure {a : α} {b : β} (hσ : σ.Ok) (h : Q σ a b) : Agree σ (Pure.pure a) (Pure.pure b) Q :=
  .ok σ rfl rfl hσ (.refl σ) h

theorem throw (i : Interrupt) (hσ : σ.Ok) :
    Agree σ (MonadExcept.throw i : Eval α) (MonadExcept.throw i : Eval β) Q :=
  .error σ rfl rfl hσ (.refl σ)

theorem fault {g g' : Fault} (hσ : σ.Ok) (hg : g' = g) :
    Agree σ (Eval.fault g : Eval α) (Eval.fault g' : Eval β) Q := by
  rw [hg]
  exact throw _ hσ

theorem bind (h : Agree σ x x' Q)
    (hf : ∀ τ a b, τ.Ok → σ.After τ → Q τ a b → Agree τ (f a) (f' b) R) :
    Agree σ (x >>= f) (x' >>= f') R := by
  cases h with
  | ok τ hi ho hτ hafter hQ =>
    have hnext := hf τ _ _ hτ hafter hQ
    cases hnext with
    | ok υ hi' ho' hυ hafter' hR =>
      exact .ok υ ((Eval.bind_of_ok hi).trans hi') ((Eval.bind_of_ok ho).trans ho') hυ
        (hafter.trans hafter') hR
    | error υ hi' ho' hυ hafter' =>
      exact .error υ ((Eval.bind_of_ok hi).trans hi') ((Eval.bind_of_ok ho).trans ho') hυ
        (hafter.trans hafter')
    | deep hi' hdeep => exact .deep ((Eval.bind_of_ok hi).trans hi') hdeep
    | deep' ho' hdeep => exact .deep' ((Eval.bind_of_ok ho).trans ho') hdeep
  | error τ hi ho hτ hafter => exact .error τ (Eval.bind_of_error hi) (Eval.bind_of_error ho) hτ hafter
  | deep hi hdeep => exact .deep (Eval.bind_of_error hi) hdeep
  | deep' ho hdeep => exact .deep' (Eval.bind_of_error ho) hdeep

/-- What needs no state, and gives on one side what `μ` makes of what it gives on the other. -/
theorem of {z : Except Fault α} {z' : Except Fault β} {μ : α → β} (hσ : σ.Ok) (hz : z' = z.map μ)
    (hQ : ∀ a, z = .ok a → Q σ a (μ a)) : Agree σ (Eval.of z) (Eval.of z') Q := by
  subst hz
  cases z with
  | ok a => exact .ok σ rfl rfl hσ (.refl σ) (hQ a rfl)
  | error g => exact .error σ rfl rfl hσ (.refl σ)

theorem query {q : Machine → Except Fault α} {q' : Machine → Except Fault β} {μ : α → β} (hσ : σ.Ok)
    (hq : q' σ.outer = (q σ.inner).map μ) (hQ : ∀ a, q σ.inner = .ok a → Q σ a (μ a)) :
    Agree σ (Eval.query q) (Eval.query q') Q :=
  (of hσ hq hQ).congr rfl rfl

/-- What gives a value. -/
theorem value {z z' : Except Fault Value} (hσ : σ.Ok) (hz : z' = z.map σ.value) (hgives : Gives σ.Has z) :
    Agree σ (Eval.of z) (Eval.of z') Same := by
  refine of hσ hz fun v hv => ⟨?_, rfl⟩
  rwa [hv] at hgives

/-- A question to which a value is the answer. -/
theorem answer {q q' : Machine → Except Fault Value} (hσ : σ.Ok)
    (hq : q' σ.outer = (q σ.inner).map σ.value) (hgives : Gives σ.Has (q σ.inner)) :
    Agree σ (Eval.query q) (Eval.query q') Same :=
  (value hσ hq hgives).congr rfl rfl

/-- A loop over a list. -/
theorem forM {f : γ → Eval PUnit} (l : List γ) (hσ : σ.Ok)
    (hf : ∀ c ∈ l, ∀ τ, τ.Ok → σ.After τ → Agree τ (f c) (f c) fun _ _ _ => True) :
    Agree σ (l.forM f) (l.forM f) fun _ _ _ => True := by
  induction l generalizing σ with
  | nil => exact pure hσ trivial
  | cons c l ih =>
    refine (hf c List.mem_cons_self σ hσ (.refl σ)).bind fun τ _ _ hτ hafter _ => ih hτ ?_
    exact fun c hc υ hυ hafter' => hf c (List.mem_cons_of_mem _ hc) υ hυ (hafter.trans hafter')

/-! ### Brackets -/

/-- Brackets run something from another state and put something back, whatever happens. -/
theorem bracket {z : Eval α} {z' : Eval β} {start : Folding drop hollow} (leave leave' : Machine → Machine)
    (hz : z σ.inner = match x start.inner with
      | .ok a m => .ok a (leave m)
      | .error i m => .error i (leave m))
    (hz' : z' σ.outer = match x' start.outer with
      | .ok a m => .ok a (leave' m)
      | .error i m => .error i (leave' m))
    (hx : Agree start x x' Q)
    (hleave : ∀ τ, τ.Ok → start.After τ → (τ.on (leave τ.inner) (leave' τ.outer)).Ok ∧
      σ.After (τ.on (leave τ.inner) (leave' τ.outer)))
    (hQ : ∀ τ m m' a b, Q τ a b → Q' (τ.on m m') a b) : Agree σ z z' Q' := by
  cases hx with
  | ok τ hi ho hτ hafter h =>
    obtain ⟨hok, hafter'⟩ := hleave τ hτ hafter
    exact .ok (τ.on (leave τ.inner) (leave' τ.outer)) (by rw [hz, hi]; rfl) (by rw [hz', ho]; rfl) hok
      hafter' (hQ τ _ _ _ _ h)
  | error τ hi ho hτ hafter =>
    obtain ⟨hok, hafter'⟩ := hleave τ hτ hafter
    exact .error (τ.on (leave τ.inner) (leave' τ.outer)) (by rw [hz, hi]; rfl) (by rw [hz', ho]; rfl) hok
      hafter'
  | deep hi hdeep => exact .deep (by rw [hz, hi]) hdeep
  | deep' ho hdeep => exact .deep' (by rw [hz', ho]) hdeep

theorem inScope (hσ : σ.Ok) (hp : σ.inner.arena.Rooted p)
    (hx : (σ.enter p).Ok → σ.Grows (σ.enter p) → (σ.enter p).Inside → Agree (σ.enter p) x x' Q)
    (hQ : ∀ τ m m' a b, Q τ a b → Q (τ.on m m') a b) :
    Agree σ (Eval.inScope p x) (Eval.inScope (σ.fold p) x') Q :=
  bracket (·.exit (σ.inner.enter p).current σ.inner.current)
    (·.exit (σ.outer.enter (σ.fold p)).current σ.outer.current) rfl rfl
    (hx (hσ.enter hp) (hσ.grows_enter hp) (hσ.ne_enter p hσ.folds.rooted_hollow).symm)
    (fun _ hτ hafter => hσ.exit hp hτ hafter) hQ

theorem inBlock (hσ : σ.Ok)
    (hx : ∀ τ, τ.Ok → σ.Grows τ → τ.Inside → Agree τ x x' Q)
    (hQ : ∀ τ m m' a b, Q τ a b → Q (τ.on m m') a b) : Agree σ (Eval.inBlock x) (Eval.inBlock x') Q := by
  have hscope : Agree σ (Eval.inScope σ.inner.current x) (Eval.inScope (σ.fold σ.inner.current) x') Q :=
    inScope hσ hσ.rooted_current (hx _) hQ
  refine hscope.congr rfl ?_
  show Eval.inScope σ.outer.current x' σ.outer = _
  rw [hσ.current]

theorem inModule (name : String) (hσ : σ.Ok) (hx : ∀ τ, τ.Ok → τ.Inside → Agree τ x x' Q)
    (hQ : ∀ τ m m' a b, Q τ a b → Q (τ.on m m') a b) :
    Agree σ (Eval.inModule name x) (Eval.inModule name x') Q :=
  bracket ({ · with current := σ.inner.current }) ({ · with current := σ.outer.current }) rfl rfl
    (hx _ (hσ.enterModule name) (hσ.ne_enter _ hσ.folds.rooted_hollow).symm)
    (fun _ hτ hafter => hσ.leave hτ hafter) hQ

theorem deeper (span : Span) (hσ : σ.Ok) (hx : ∀ τ, τ.Ok → σ.After τ → Agree τ x x' Q)
    (hQ : ∀ τ m m' a b, Q τ a b → Q (τ.on m m') a b) :
    Agree σ (Eval.deeper span x) (Eval.deeper span x') Q := by
  by_cases hi : σ.inner.maxDepth ≤ σ.inner.depth
  · exact .deep (i := .fault (.callTooDeep σ.inner.maxDepth span)) (if_pos hi) rfl
  by_cases ho : σ.outer.maxDepth ≤ σ.outer.depth
  · exact .deep' (i := .fault (.callTooDeep σ.outer.maxDepth span)) (if_pos ho) rfl
  obtain ⟨hok, hafter⟩ := hσ.idle { σ.inner with depth := σ.inner.depth + 1 }
      { σ.outer with depth := σ.outer.depth + 1 } rfl rfl rfl rfl rfl rfl rfl rfl hσ.stored.registry
    hσ.registry hσ.world
  refine bracket ({ · with depth := σ.inner.depth }) ({ · with depth := σ.outer.depth }) ?_ ?_
    (hx _ hok hafter) (fun τ hτ hafter' => ?_) hQ
  · exact if_neg hi
  · exact if_neg ho
  obtain ⟨hok', hback⟩ := hτ.idle { τ.inner with depth := σ.inner.depth }
      { τ.outer with depth := σ.outer.depth } rfl rfl rfl rfl rfl rfl rfl rfl hτ.stored.registry
    hτ.registry hτ.world
  exact ⟨hok', hafter.trans (hafter'.trans hback)⟩

/-! ### Changes -/

/-- A name is bound in the innermost scope. -/
theorem bindM {m m' : Binding} (name : String) (hσ : σ.Ok) (hin : σ.Inside) (hm : σ.Has m.value)
    (hm' : m' = σ.binding m) :
    Agree σ (modify fun n => n.bind name m) (modify fun n => n.bind name m') fun _ (_ : Unit) (_ : Unit) =>
      True := by
  obtain ⟨hok, hafter⟩ := hσ.define hσ.rooted_current hin name hm
  refine .ok (a := ()) (b := ()) _ rfl ?_ hok hafter trivial
  rw [hm', ← hσ.current]
  rfl

theorem define (name : String) (hσ : σ.Ok) (hin : σ.Inside) (hv : σ.Same v v') :
    Agree σ (Eval.define name v) (Eval.define name v') fun _ _ _ => True :=
  bindM name hσ hin hv.1 (by rw [binding, hv.2])

theorem bindName (name : String) (isPub : Bool) (hσ : σ.Ok) (hin : σ.Inside) (hv : σ.Same v v') :
    Agree σ (Eval.bindName name v isPub) (Eval.bindName name v' isPub) fun _ _ _ => True :=
  bindM name hσ hin hv.1 (by rw [binding, hv.2])

theorem makeFn (name : Option String) (params : List Param) (body : FnBody) (hσ : σ.Ok) :
    Agree σ (Eval.makeFn name params body) (Eval.makeFn name params body) Same := by
  obtain ⟨hok, hafter, hhas, hvalue⟩ := hσ.makeFn name params body
  exact .ok (σ.makeFn name params body) rfl rfl hok hafter ⟨hhas, hvalue⟩

/-- A change of the registry that does not look at what the methods are. -/
theorem register (span : Span) {u u' : Registry Value → Except RegistrationError (Registry Value)} (hσ : σ.Ok)
    (hu : u' (σ.inner.registry.map σ.value) = (u σ.inner.registry).map (·.map σ.value))
    (hstored : ∀ r, u σ.inner.registry = .ok r → r.Stored σ.Has) :
    Agree σ (Eval.register span u) (Eval.register span u') fun _ _ _ => True := by
  rw [← hσ.registry] at hu
  cases h : u σ.inner.registry with
  | ok r =>
    rw [h] at hu
    obtain ⟨hok, hafter⟩ := hσ.idle { σ.inner with registry := r }
      { σ.outer with registry := r.map σ.value } rfl rfl rfl rfl rfl rfl rfl rfl (hstored r h) rfl
      hσ.world
    refine .ok (a := ()) (b := ()) _ ?_ ?_ hok hafter trivial
    · rw [Eval.register, h]
      rfl
    · rw [Eval.register, hu]
      rfl
  | error e =>
    rw [h] at hu
    refine .error (i := .fault (.refused e span)) σ ?_ ?_ hσ (.refl σ)
    · rw [Eval.register, h]
    · rw [Eval.register, hu]
      rfl

/-! ### Declarations -/

theorem declareAdt (adt : Adt) (hσ : σ.Ok) :
    Agree σ (Eval.declareAdt adt) (Eval.declareAdt adt) fun _ _ _ => True := by
  obtain ⟨hok, hafter⟩ := hσ.idle
    { σ.inner with registry := { σ.inner.registry with adts := σ.inner.registry.adts.declare adt } }
    { σ.outer with registry := { σ.outer.registry with adts := σ.outer.registry.adts.declare adt } }
    rfl rfl rfl rfl rfl rfl rfl rfl ⟨hσ.stored.registry.impls, hσ.stored.registry.defaults⟩
    (by rw [hσ.registry]; rfl) hσ.world
  exact .ok (a := ()) (b := ()) _ rfl rfl hok hafter trivial

theorem declareType (st : Stmt) (hσ : σ.Ok) (hin : σ.Inside) :
    Agree σ (Eval.declareType st) (Eval.declareType st) fun _ _ _ => True := by
  cases st with
  | typeclass d =>
    refine (register _ hσ (Registry.addClass_map σ.value σ.inner.registry (.ofDef d)) fun r hr =>
      (hσ.stored.registry.addClass hr).1).bind fun τ _ _ hτ hafter _ => ?_
    refine forM _ hτ fun sig _ υ hυ hafter' => ?_
    exact bindName _ _ hυ ((hin.after hafter).after hafter') ⟨Value.sane_atom rfl fun _ => trivial, rfl⟩
  | struct d =>
    refine (declareAdt _ hσ).bind fun τ _ _ hτ hafter _ => ?_
    exact bindName _ _ hτ (hin.after hafter) ⟨Value.sane_atom rfl False.elim, rfl⟩
  | enum d =>
    refine (forM _ hσ fun variant _ τ hτ hafter => bindName _ _ hτ (hin.after hafter) ?_).bind
      fun τ _ _ hτ _ _ => declareAdt _ hτ
    rw [Eval.variantValue]
    split <;> exact ⟨Value.sane_atom rfl fun _ => trivial, rfl⟩
  | _ => exact pure hσ trivial

theorem declareFn (st : Stmt) (hσ : σ.Ok) (hin : σ.Inside) :
    Agree σ (Eval.declareFn st) (Eval.declareFn st) fun _ _ _ => True := by
  cases st with
  | fn d =>
    exact (makeFn _ _ _ hσ).bind fun τ _ _ hτ hafter hv => bindName _ _ hτ (hin.after hafter) hv
  | _ => exact pure hσ trivial

/-- The methods of an implementation are made. -/
theorem makeMethods (methods : List FnDecl) (hσ : σ.Ok) :
    Agree σ (methods.mapM fun f => return (f.name.text, f.params.length, ← Eval.makeNamedFn f))
      (methods.mapM fun f => return (f.name.text, f.params.length, ← Eval.makeNamedFn f))
      fun τ found found' => (∀ f ∈ found, τ.Has f.2.2) ∧
        found' = found.map fun f => (f.1, f.2.1, τ.value f.2.2) := by
  induction methods generalizing σ with
  | nil => exact pure hσ ⟨List.forall_mem_nil _, rfl⟩
  | cons d methods ih =>
    rw [List.mapM_cons]
    refine bind (Q := fun τ f f' => τ.Has f.2.2 ∧ f' = (f.1, f.2.1, τ.value f.2.2)) ?_
      fun τ f f' hτ _ hf => ?_
    · refine (makeFn (some d.name.text) d.params (.block d.body) hσ).bind fun τ v v' hτ _ hv => pure hτ ?_
      exact ⟨hv.1, by rw [hv.2]⟩
    · refine (ih hτ).bind fun υ found found' hυ hafter hfound => pure hυ ⟨?_, ?_⟩
      · exact List.forall_mem_cons.2 ⟨hafter.has hf.1, hfound.1⟩
      · rw [hf.2, hfound.2, List.map_cons, hafter.value hτ hf.1]

theorem declareImpl (st : Stmt) (hσ : σ.Ok) :
    Agree σ (Eval.declareImpl st) (Eval.declareImpl st) fun _ _ _ => True := by
  cases st with
  | impl d =>
    refine (makeMethods d.methods hσ).bind fun τ found found' hτ _ hfound => ?_
    obtain ⟨hhas, rfl⟩ := hfound
    exact register _ hτ (Registry.addImpl_map τ.value τ.inner.registry _ _ found) fun r hr =>
      (hτ.stored.registry.addImpl hr hhas).1
  | _ => exact pure hσ trivial

theorem validate (name : String) (span : Span) (hσ : σ.Ok) :
    Agree σ (Eval.validate name span) (Eval.validate name span) fun _ _ _ => True := by
  have hadts : (σ.inner.registry.map σ.value).adts = σ.inner.registry.adts := rfl
  refine register span hσ ?_ fun r hr => ?_
  · rw [hadts]
    cases σ.inner.registry.adts.get? name with
    | none => rfl
    | some adt =>
      dsimp only
      rw [Registry.checkDerives_map]
      cases σ.inner.registry.checkDerives name adt.derives <;> rfl
  · have hsame : r = σ.inner.registry := by
      split at hr
      next adt _ =>
        cases hcheck : σ.inner.registry.checkDerives name adt.derives with
        | ok _ =>
          rw [hcheck] at hr
          cases hr
          rfl
        | error e =>
          rw [hcheck] at hr
          cases hr
      next =>
        cases hr
        rfl
    exact hsame ▸ hσ.stored.registry

theorem checkDerives (st : Stmt) (hσ : σ.Ok) :
    Agree σ (Eval.checkDerives st) (Eval.checkDerives st) fun _ _ _ => True := by
  cases st with
  | struct d =>
    rw [Eval.checkDerives]
    split
    · exact pure hσ trivial
    · exact validate _ _ hσ
  | enum d =>
    rw [Eval.checkDerives]
    split
    · exact pure hσ trivial
    · exact validate _ _ hσ
  | _ => exact pure hσ trivial

theorem declare (stmts : List Stmt) (hσ : σ.Ok) (hin : σ.Inside) :
    Agree σ (Eval.declare stmts) (Eval.declare stmts) fun _ _ _ => True := by
  refine (forM stmts hσ fun st _ τ hτ hafter => declareType st hτ (hin.after hafter)).bind
    fun τ₁ _ _ hτ₁ hafter₁ _ => ?_
  refine (forM stmts hτ₁ fun st _ τ hτ hafter =>
    declareFn st hτ ((hin.after hafter₁).after hafter)).bind fun τ₂ _ _ hτ₂ _ _ => ?_
  refine (forM stmts hτ₂ fun st _ τ hτ _ => declareImpl st hτ).bind fun τ₃ _ _ hτ₃ _ _ => ?_
  exact forM stmts hτ₃ fun st _ τ hτ _ => checkDerives st hτ

end Agree

end Folding

end Sluice
