import Sluice.Proofs.Eval.Agree
import Sluice.Proofs.Eval.Obey

/-! The rules agree on a machine and on the same machine without its hollow scope: what a rule does with a
runner whose steps agree agrees. By induction on the fuel so does every run. -/
namespace Sluice

namespace Folding

variable {drop : Nat → Nat} {hollow : ScopeId} {σ τ : Folding drop hollow} {v v' : Value}
  {args args' : List Value} {bs bs' : List (String × Value)} {r : Runner}

theorem tag_value (σ : Folding drop hollow) (v : Value) : (σ.value v).tag = v.tag := Value.tag_mapFns σ.fn v

theorem repr_value (σ : Folding drop hollow) (v : Value) : (σ.value v).repr = v.repr := by
  have hname : ∀ c, (σ.fn c).name = c.name := fun _ => rfl
  exact Value.repr_mapFns hname v

structure Follows (drop : Nat → Nat) (hollow : ScopeId) (r : Runner) : Prop where
  expr : ∀ {σ : Folding drop hollow} (e : Expr), σ.Ok → Agree σ (r.expr e) (r.expr e) Same
  stmt : ∀ {σ : Folding drop hollow} (s : Stmt), σ.Ok → σ.Inside → Agree σ (r.stmt s) (r.stmt s) SameFlow
  call : ∀ {σ : Folding drop hollow} {f f' : Value} {args args' : List Value} (span : Span), σ.Ok →
    σ.Same f f' → σ.SameAll args args' → Agree σ (r.call f args span) (r.call f' args' span) Same
  body : ∀ {σ : Folding drop hollow} {c : Closure} {args args' : List Value} (span : Span), σ.Ok → c ∈ σ.made →
    σ.SameAll args args' → Agree σ (r.body c args span) (r.body (σ.fn c) args' span) Same

namespace Agree

/-! ### Names -/

theorem bindAll (names : List String) (hσ : σ.Ok) (hin : σ.Inside) (hargs : σ.SameAll args args') :
    Agree σ (Runner.bindAll names args) (Runner.bindAll names args') fun _ _ _ => True := by
  induction names generalizing σ args args' with
  | nil => exact pure hσ trivial
  | cons name names ih =>
    cases args with
    | nil =>
      rw [hargs.of_nil]
      exact pure hσ trivial
    | cons v vs =>
      obtain ⟨w, ws, rfl, hv, hrest⟩ := hargs.of_cons
      refine (define name hσ hin hv).bind fun τ _ _ hτ hafter _ => ?_
      exact ih hτ (hin.after hafter) (hrest.after hσ hafter)

theorem bindNames (seen : List String) (span : Span) (hσ : σ.Ok) (hin : σ.Inside) (hbs : σ.SameNamed bs bs') :
    Agree σ (Runner.bindNames seen span bs) (Runner.bindNames seen span bs') fun _ _ _ => True := by
  induction bs generalizing σ seen bs' with
  | nil =>
    rw [hbs.of_nil]
    exact pure hσ trivial
  | cons b rest ih =>
    obtain ⟨name, v⟩ := b
    obtain ⟨w, cs, rfl, hv, hrest⟩ := hbs.of_cons
    rw [Runner.bindNames, Runner.bindNames]
    split
    · exact fault hσ rfl
    · refine (define name hσ hin hv).bind fun τ _ _ hτ hafter _ => ?_
      exact ih _ hτ (hin.after hafter) (hrest.grows hσ hafter.toGrows)

theorem defineEach (hσ : σ.Ok) (hin : σ.Inside) (hbs : σ.SameNamed bs bs') :
    Agree σ (bs.forM fun (name, v) => Eval.define name v) (bs'.forM fun (name, v) => Eval.define name v)
      fun _ _ _ => True := by
  induction bs generalizing σ bs' with
  | nil =>
    rw [hbs.of_nil]
    exact pure hσ trivial
  | cons b rest ih =>
    obtain ⟨w, cs, rfl, hv, hrest⟩ := hbs.of_cons
    refine (define b.1 hσ hin hv).bind fun τ _ _ hτ hafter _ => ?_
    exact ih hτ (hin.after hafter) (hrest.grows hσ hafter.toGrows)

end Agree

namespace Follows

open Agree

variable (h : Follows drop hollow r)

include h

/-! ### Blocks -/

theorem runFrom (stmts : List Stmt) (hσ : σ.Ok) (hin : σ.Inside) (hlast : σ.Same v v') :
    Agree σ (r.runFrom v stmts) (r.runFrom v' stmts) SameFlow := by
  induction stmts generalizing σ v v' with
  | nil => exact Agree.pure hσ (.value hlast)
  | cons s rest ih =>
    rw [Runner.runFrom, Runner.runFrom]
    split
    · exact ih hσ hin (.unit σ)
    · refine (h.stmt s hσ hin).bind fun τ flow flow' hτ hafter hflow => ?_
      cases hflow with
      | value hv => exact ih hτ (hin.after hafter) hv
      | ret span hv => exact Agree.pure hτ (.ret span hv)
      | leave span => exact Agree.pure hτ (.leave span)
      | next span => exact Agree.pure hτ (.next span)

theorem runStmts (stmts : List Stmt) (hσ : σ.Ok) (hin : σ.Inside) :
    Agree σ (r.runStmts stmts) (r.runStmts stmts) SameFlow :=
  (declare stmts hσ hin).bind fun τ _ _ hτ hafter _ => h.runFrom stmts hτ (hin.after hafter) (.unit τ)

theorem runBlock (b : Block) (hσ : σ.Ok) : Agree σ (r.runBlock b) (r.runBlock b) SameFlow :=
  inBlock hσ (fun _ hτ _ hin => h.runStmts b.stmts hτ hin) fun _ m m' _ _ hflow => hflow.on m m'

/-! ### Calls -/

theorem exprs (es : List Expr) (hσ : σ.Ok) : Agree σ (r.exprs es) (r.exprs es) SameAll := by
  induction es generalizing σ with
  | nil => exact Agree.pure hσ (.nil σ)
  | cons e es ih =>
    refine (h.expr e hσ).bind fun τ v v' hτ _ hv => (ih hτ).bind fun υ vs vs' hυ hafter hvs => ?_
    exact Agree.pure hυ (.cons (hv.after hτ hafter) hvs)

/-- A stage of a composition that mentions `_`. -/
theorem stage (e : Expr) (hσ : σ.Ok) (hv : σ.Same v v') :
    Agree σ (Eval.inBlock do Eval.define "_" v; r.expr e) (Eval.inBlock do Eval.define "_" v'; r.expr e)
      Same :=
  inBlock hσ (fun _ hτ hgrows hin => (define "_" hτ hin (hv.grows hσ hgrows)).bind
    fun _ _ _ hυ _ _ => h.expr e hυ) fun _ _ _ _ _ hu => hu

theorem sendThrough (stages : List Expr) (hσ : σ.Ok) (hv : σ.Same v v') :
    Agree σ (r.sendThrough stages v) (r.sendThrough stages v') Same := by
  induction stages generalizing σ v v' with
  | nil => exact Agree.pure hσ hv
  | cons e rest ih =>
    rw [Runner.sendThrough, Runner.sendThrough]
    split
    · exact (h.stage e hσ hv).bind fun τ _ _ hτ _ hu => ih hτ hu
    · refine (h.expr e hσ).bind fun τ f f' hτ hafter hf => ?_
      refine (h.call e.span hτ hf (.cons (hv.after hσ hafter) (.nil τ))).bind fun υ _ _ hυ _ hu => ?_
      exact ih hυ hu

theorem runStages (stages : List Expr) (hσ : σ.Ok) :
    Agree σ (r.runStages stages) (r.runStages stages) Same := by
  cases stages with
  | nil => exact Agree.pure hσ (.unit σ)
  | cons first rest => exact (h.expr first hσ).bind fun τ _ _ hτ _ hv => h.sendThrough rest hτ hv

theorem callStages (stages : List Expr) (span : Span) (hσ : σ.Ok) (hargs : σ.SameAll args args') :
    Agree σ (r.callStages stages args span) (r.callStages stages args' span) Same := by
  obtain ⟨hargs, rfl⟩ := hargs
  rcases args with _ | ⟨seed, _ | ⟨w, args⟩⟩
  · exact h.runStages stages hσ
  · exact h.sendThrough stages hσ ⟨hargs seed List.mem_cons_self, rfl⟩
  · exact Agree.fault hσ (by simp)

theorem runBody (params : List String) (body : Block) (hσ : σ.Ok) (hin : σ.Inside)
    (hargs : σ.SameAll args args') :
    Agree σ (r.runBody params args body) (r.runBody params args' body) Same := by
  refine (bindAll params hσ hin hargs).bind fun τ _ _ hτ hafter _ => ?_
  refine (h.runStmts body.stmts hτ (hin.after hafter)).bind fun υ flow flow' hυ _ hflow => ?_
  cases hflow with
  | value hv => exact Agree.pure hυ hv
  | ret span hv => exact Agree.pure hυ hv
  | leave span => exact Agree.fault hυ rfl
  | next span => exact Agree.fault hυ rfl

theorem bodyRule {c : Closure} (span : Span) (hσ : σ.Ok) (hc : c ∈ σ.made) (hargs : σ.SameAll args args') :
    Agree σ (r.bodyRule c args span) (r.bodyRule (σ.fn c) args' span) Same := by
  have hscope := hσ.rooted_fn hc
  cases hbody : c.body with
  | block body =>
    have hbody' : (σ.fn c).body = .block body := hbody
    rw [Runner.bodyRule, Runner.bodyRule, hbody, hbody']
    exact inScope hσ hscope (fun hτ hgrows hin => h.runBody c.params body hτ hin (hargs.grows hσ hgrows))
      fun _ _ _ _ _ hv => hv
  | pipeline stages =>
    have hbody' : (σ.fn c).body = .pipeline stages := hbody
    rw [Runner.bodyRule, Runner.bodyRule, hbody, hbody']
    exact inScope hσ hscope (fun hτ hgrows _ => h.callStages stages span hτ (hargs.grows hσ hgrows))
      fun _ _ _ _ _ hv => hv

theorem callFn {c : Closure} (span : Span) (hσ : σ.Ok) (hc : c ∈ σ.made) (hargs : σ.SameAll args args') :
    Agree σ (r.callFn c args span) (r.callFn (σ.fn c) args' span) Same := by
  have hdeeper : Agree σ (Eval.deeper span (r.body c args span))
      (Eval.deeper span (r.body (σ.fn c) args' span)) Same := by
    refine deeper span hσ (fun τ hτ hafter => ?_) fun _ _ _ _ _ hv => hv
    have hfn : τ.fn c = σ.fn c := hafter.fn hσ hc
    rw [← hfn]
    exact h.body span hτ (hafter.made hc) (hargs.after hσ hafter)
  cases hbody : c.body with
  | block body =>
    have hbody' : (σ.fn c).body = .block body := hbody
    have hlength : args'.length = args.length := by rw [hargs.2, List.length_map]
    have hparams : (σ.fn c).params = c.params := rfl
    have hname : (σ.fn c).name = c.name := rfl
    rw [Runner.callFn, Runner.callFn, hbody, hbody']
    dsimp only
    rw [hlength, hparams, hname]
    split
    · exact hdeeper
    · exact Agree.fault hσ rfl
  | pipeline stages =>
    have hbody' : (σ.fn c).body = .pipeline stages := hbody
    rw [Runner.callFn, Runner.callFn, hbody, hbody']
    exact hdeeper

omit h in
theorem hostCall (name : String) (span : Span) (hσ : σ.Ok) (hargs : σ.SameAll args args') :
    Agree σ (Runner.hostCall name args span) (Runner.hostCall name args' span) Same := by
  have hi := hostCall_eq name args span σ.inner
  have ho := hostCall_eq name args' span σ.outer
  have hcall : Host.call name args' σ.outer.world = Host.call name args σ.inner.world := by
    rw [hargs.2, hσ.world]
    exact Host.call_mapFns hσ.relabels.name name args σ.inner.world
  rw [hcall] at ho
  obtain ⟨hok, hafter⟩ := hσ.idle { σ.inner with world := (Host.call name args σ.inner.world).2 }
    { σ.outer with world := (Host.call name args σ.inner.world).2 } rfl rfl rfl rfl rfl rfl rfl rfl
    hσ.stored.registry hσ.registry rfl
  cases hresult : (Host.call name args σ.inner.world).1 with
  | ok v =>
    rw [hresult] at hi ho
    -- the host makes no functions
    have hnone : v.Sane False fun _ => False := Value.sane_hostCall hresult
    have hsame : σ.value v = v := Value.mapFns_eq_self hnone fun _ hc => hc.elim
    exact .ok _ hi ho hok hafter ⟨hnone.mono fun _ hc => hc.elim, hsame.symm⟩
  | error e =>
    rw [hresult] at hi ho
    cases e <;> exact .error _ hi ho hok hafter

theorem callRule {f f' : Value} (span : Span) (hσ : σ.Ok) (hf : σ.Same f f') (hargs : σ.SameAll args args') :
    Agree σ (r.callRule f args span) (r.callRule f' args' span) Same := by
  obtain ⟨hf, rfl⟩ := hf
  have hfault : ∀ {g : Value}, Agree σ (Eval.fault (.notCallable g span) : Eval Value)
      (Eval.fault (.notCallable (σ.value g) span) : Eval Value) Same := fun {g} =>
    Agree.fault hσ (by rw [Fault.notCallable, repr_value, Fault.notCallable])
  cases f with
  | fn c => exact h.callFn span hσ hf.self hargs
  | builtin b =>
    obtain ⟨hargs, rfl⟩ := hargs
    exact Agree.value hσ (Value.apply_mapFns hσ.relabels b hargs span) (Value.gives_builtin b hargs span)
  | host name => exact hostCall name span hσ hargs
  | constructor c =>
    obtain ⟨hargs, rfl⟩ := hargs
    exact Agree.value hσ (Value.build_mapFns σ.fn c args span) (Value.gives_build hf hargs span)
  | method name =>
    have hquery : Agree σ (Eval.query (Runner.implementation · name args span))
        (Eval.query (Runner.implementation · name args' span)) fun τ g g' => τ = σ ∧ σ.Same g g' := by
      rw [hargs.2]
      refine Agree.query hσ (hσ.implementation name args span) fun g hg => ⟨rfl, ?_, rfl⟩
      have hgives := hσ.stored.gives_implementation name args span
      rwa [hg] at hgives
    refine hquery.bind fun τ g g' hτ _ hg => ?_
    obtain ⟨rfl, hg⟩ := hg
    exact h.call span hτ hg hargs
  | _ => exact hfault

theorem callExpr (callee : Expr) (es : List Expr) (span : Span) (hσ : σ.Ok) :
    Agree σ (r.callExpr callee es span) (r.callExpr callee es span) Same := by
  have hplain : Agree σ (r.expr callee >>= fun f => r.exprs es >>= fun args => r.call f args span)
      (r.expr callee >>= fun f => r.exprs es >>= fun args => r.call f args span) Same := by
    refine (h.expr callee hσ).bind fun τ f f' hτ _ hf => (h.exprs es hτ).bind fun υ _ _ hυ hafter hargs => ?_
    exact h.call span hυ (hf.after hτ hafter) hargs
  cases callee with
  | member base names memberSpan =>
    rw [Runner.callExpr]
    split
    next method _ =>
      refine (h.expr base hσ).bind fun τ b b' hτ _ hb => ?_
      obtain ⟨hb, rfl⟩ := hb
      have hmembers : Agree τ (Eval.query (·.members b names.dropLast))
          (Eval.query (·.members (τ.value b) names.dropLast)) Same :=
         Agree.answer hτ (hτ.members b _) (hτ.stored.gives_members hb _)
      refine hmembers.bind fun τ₁ receiver receiver' hτ₁ _ hmember => ?_
      refine (h.exprs es hτ₁).bind fun τ₂ args args' hτ₂ hafter hargs => ?_
      obtain ⟨hreceiver, rfl⟩ := hmember.after hτ₁ hafter
      obtain ⟨hargs, rfl⟩ := hargs
      have hmethod : Agree τ₂ (Eval.query (Runner.memberCall · receiver method args))
          (Eval.query (Runner.memberCall · (τ₂.value receiver) method (args.map τ₂.value)))
          fun τ c c' => τ.Same c.1 c'.1 ∧ τ.SameAll c.2 c'.2 := by
        refine Agree.query hτ₂ (hτ₂.memberCall receiver method args) fun c hc => ?_
        have hgives := hτ₂.stored.gives_memberCall hreceiver method hargs
        rw [hc] at hgives
        exact ⟨⟨hgives.1, rfl⟩, hgives.2, rfl⟩
      exact hmethod.bind fun τ₃ c c' hτ₃ _ hc => h.call span hτ₃ hc.1 hc.2
    next => exact hplain
  | _ => exact hplain

/-! ### Expressions -/

theorem truth (op : BinaryOp) (e : Expr) (hσ : σ.Ok) :
    Agree σ (r.truth op e) (r.truth op e) fun _ b b' => b' = b := by
  refine (h.expr e hσ).bind fun τ v v' hτ _ hv => ?_
  obtain ⟨-, rfl⟩ := hv
  have hfault : Fault.notBool op (τ.value v) e.span = .notBool op v e.span := by
    rw [Fault.notBool, tag_value, Fault.notBool]
  cases v with
  | bool b => exact Agree.pure hτ rfl
  | _ => exact Agree.fault hτ hfault

theorem binaryExpr (lhs : Expr) (op : BinaryOp) (rhs : Expr) (span : Span) (hσ : σ.Ok) :
    Agree σ (r.binaryExpr lhs op rhs span) (r.binaryExpr lhs op rhs span) Same := by
  have hstrict : Agree σ
      (r.expr lhs >>= fun a => r.expr rhs >>= fun b => Eval.of (Value.binary op a b span))
      (r.expr lhs >>= fun a => r.expr rhs >>= fun b => Eval.of (Value.binary op a b span)) Same := by
    refine (h.expr lhs hσ).bind fun τ a a' hτ _ ha => (h.expr rhs hτ).bind fun υ b b' hυ hafter hb => ?_
    obtain ⟨ha', rfl⟩ := ha.after hτ hafter
    obtain ⟨hb, rfl⟩ := hb
    exact Agree.value hυ (Value.binary_mapFns hυ.relabels op span ha' hb) (Value.gives_binary op span ha' hb)
  have hright : ∀ {τ : Folding drop hollow}, τ.Ok → Agree τ
      (r.truth op rhs >>= fun b => Pure.pure (Value.bool b))
      (r.truth op rhs >>= fun b => Pure.pure (Value.bool b)) Same := fun hτ =>
    (h.truth op rhs hτ).bind fun υ b b' hυ _ hb => by
      rw [hb]
      exact Agree.pure hυ (.bool υ b)
  cases op with
  | and =>
    refine (h.truth .and lhs hσ).bind fun τ b b' hτ _ hb => ?_
    rw [hb]
    cases b with
    | true => exact hright hτ
    | false => exact Agree.pure hτ (.bool τ false)
  | or =>
    refine (h.truth .or lhs hσ).bind fun τ b b' hτ _ hb => ?_
    rw [hb]
    cases b with
    | true => exact Agree.pure hτ (.bool τ true)
    | false => exact hright hτ
  | _ => exact hstrict

theorem rangeExpr (lo hi : Expr) (span : Span) (hσ : σ.Ok) :
    Agree σ (r.rangeExpr lo hi span) (r.rangeExpr lo hi span) Same := by
  refine (h.expr lo hσ).bind fun τ a a' hτ _ ha => (h.expr hi hτ).bind fun υ b b' hυ hafter hb => ?_
  obtain ⟨-, rfl⟩ := ha.after hτ hafter
  obtain ⟨-, rfl⟩ := hb
  have hfault : Fault.notRangeBounds (υ.value a) (υ.value b) span = .notRangeBounds a b span := by
    rw [Fault.notRangeBounds, tag_value, tag_value, Fault.notRangeBounds]
  by_cases hints : ∃ m n, a = .int m ∧ b = .int n
  · obtain ⟨m, n, rfl, rfl⟩ := hints
    have hnone : (Value.list (Runner.range m n)).Sane False fun _ => False := Value.sane_range m n
    have hsame : υ.value (.list (Runner.range m n)) = .list (Runner.range m n) :=
      Value.mapFns_eq_self hnone fun _ hc => hc.elim
    exact Agree.pure hυ ⟨hnone.mono fun _ hc => hc.elim, hsame.symm⟩
  · cases a <;> cases b <;> first
      | exact (hints ⟨_, _, rfl, rfl⟩).elim
      | exact Agree.fault hυ hfault

/-- The entries of a map so far, on both sides. -/
theorem mapEntries {entries entries' : List (Value × Value)} (es : List (Expr × Expr)) (hσ : σ.Ok)
    (hentries : σ.Same (.map entries) (.map entries')) :
    Agree σ (r.mapEntries entries es) (r.mapEntries entries' es)
      fun τ found found' => τ.Same (.map found) (.map found') := by
  induction es generalizing σ entries entries' with
  | nil => exact Agree.pure hσ hentries
  | cons e es ih =>
    refine (h.expr e.1 hσ).bind fun τ k k' hτ hafter hk => ?_
    refine (h.expr e.2 hτ).bind fun υ v v' hυ hafter' hv => ih hυ ?_
    obtain ⟨hentries, heq⟩ := hentries.after hσ (hafter.trans hafter')
    obtain ⟨hk', rfl⟩ := hk.after hτ hafter'
    obtain ⟨hv, rfl⟩ := hv
    rw [value, Value.mapFns, Value.mapFnsEntries_eq_map, Value.map.injEq] at heq
    rw [heq]
    refine ⟨hentries.putEntry hk' hv, congrArg Value.map ?_⟩
    rw [Value.mapFnsEntries_eq_map]
    exact Value.putEntry_mapFns hυ.relabels (fun e he => (hentries.entry he).1) hk' v

theorem exprRule (e : Expr) (hσ : σ.Ok) : Agree σ (r.exprRule e) (r.exprRule e) Same := by
  cases e with
  | lit l span =>
    exact Agree.pure hσ ⟨Value.sane_literal l, (Value.mapFns_ofLiteral σ.fn l).symm⟩
  | var id => exact Agree.answer hσ (hσ.lookup id) (hσ.stored.gives_lookup id)
  | placeholder span => exact Agree.answer hσ (hσ.placeholder span) (hσ.stored.gives_placeholder span)
  | paren inner span => exact h.expr inner hσ
  | index base key span =>
    refine (h.expr base hσ).bind fun τ b b' hτ _ hb => (h.expr key hτ).bind fun υ k k' hυ hafter hk => ?_
    obtain ⟨hb', rfl⟩ := hb.after hτ hafter
    obtain ⟨hk, rfl⟩ := hk
    exact Agree.value hυ (Value.index_mapFns hυ.relabels hb' hk span) (hb'.gives_index k span)
  | member base names span =>
    refine (h.expr base hσ).bind fun τ b b' hτ _ hb => ?_
    obtain ⟨hb, rfl⟩ := hb
    exact Agree.answer hτ (hτ.members b names) (hτ.stored.gives_members hb names)
  | unary op operand span =>
    refine (h.expr operand hσ).bind fun τ v v' hτ _ hv => ?_
    obtain ⟨-, rfl⟩ := hv
    exact Agree.value hτ (Value.unary_mapFns τ.fn op v span) (Value.gives_unary op v span)
  | binary lhs op rhs span => exact h.binaryExpr lhs op rhs span hσ
  | call callee args span => exact h.callExpr callee args span hσ
  | list items span =>
    refine (h.exprs items hσ).bind fun τ vs vs' hτ _ hvs => Agree.pure hτ ⟨Value.sane_list.2 hvs.1, ?_⟩
    rw [hvs.2, value, Value.mapFns, Value.mapFnsAll_eq_map]
    rfl
  | tuple elems span =>
    refine (h.exprs elems hσ).bind fun τ vs vs' hτ _ hvs => Agree.pure hτ ⟨?_, ?_⟩
    · exact Value.sane_tuple False.elim hvs.1
    · rw [hvs.2, value, Value.mapFns, Value.mapFnsAll_eq_map]
      rfl
  | range lo hi span => exact h.rangeExpr lo hi span hσ
  | map entries span =>
    have hempty : σ.Same (.map []) (.map []) :=
      ⟨Value.sane_map (fun _ => .nil) (List.forall_mem_nil _), rfl⟩
    exact (h.mapEntries entries hσ hempty).bind fun τ _ _ hτ _ hfound => Agree.pure hτ hfound
  | lambda params type body span => exact Agree.makeFn none params (.block body) hσ
  | compose stages mode span =>
    cases mode with
    | deferred => exact Agree.makeFn none [] (.pipeline stages) hσ
    | immediate => exact h.runStages stages hσ

/-! ### Assignments -/

theorem place (target : Expr) (hσ : σ.Ok) :
    Agree σ (r.place target) (r.place target) fun τ p p' => p'.1 = p.1 ∧ τ.SameSteps p.2 p'.2 := by
  induction target using Runner.place.induct generalizing σ with
  | case1 id => exact Agree.pure hσ ⟨rfl, List.forall_mem_nil _, rfl⟩
  | case2 inner span ih => exact ih hσ
  | case3 base key span ih =>
    refine (ih hσ).bind fun τ p p' hτ _ hp => (h.expr key hτ).bind fun υ k k' hυ hafter hk => ?_
    obtain ⟨hroot, hsteps⟩ := hp
    obtain ⟨hsteps, heq⟩ := hsteps.grows hτ hafter.toGrows
    refine Agree.pure hυ ⟨hroot, fun s hs => ?_, ?_⟩
    · rcases List.mem_append.1 hs with hs | hs
      · exact hsteps s hs
      · rw [List.mem_singleton.1 hs]
        exact hk.1
    · rw [heq, hk.2, List.map_append]
      rfl
  | case4 base names span ih =>
    refine (ih hσ).bind fun τ p p' hτ _ hp => Agree.pure hτ ⟨hp.1, fun s hs => ?_, ?_⟩
    · rcases List.mem_append.1 hs with hs | hs
      · exact hp.2.1 s hs
      · obtain ⟨name, -, rfl⟩ := List.mem_map.1 hs
        trivial
    · rw [hp.2.2, List.map_append, List.map_map]
      rfl
  | case5 e hvar hparen hindex hmember =>
    cases e with
    | var id => exact (hvar id rfl).elim
    | paren inner span => exact (hparen inner span rfl).elim
    | index base key span => exact (hindex base key span rfl).elim
    | member base names span => exact (hmember base names span rfl).elim
    | _ => exact Agree.fault hσ rfl

omit h in
theorem updated_value {old rhs : Value} {steps : List Step} (op : Option BinaryOp) (span : Span) (hσ : σ.Ok)
    (hold : σ.Has old) (hsteps : ∀ s ∈ steps, s.Sane False (· ∈ σ.made)) (hrhs : σ.Has rhs) :
    Runner.updated (σ.value old) (steps.map (Step.mapFns σ.fn)) op (σ.value rhs) span =
      (Runner.updated old steps op rhs span).map σ.value := by
  cases op with
  | none => exact Value.replaceAlong_mapFns hσ.relabels hold hsteps rhs
  | some op =>
    have halong := Value.along_mapFns hσ.relabels hold hsteps
    have hgives := hold.gives_along steps
    rw [Runner.updated, Runner.updated]
    dsimp only [value]
    rw [halong]
    cases hx : old.along steps with
    | error e => rfl
    | ok x =>
      rw [hx] at hgives
      have hbinary := Value.binary_mapFns hσ.relabels op span hgives hrhs
      show (Value.binary op (Value.mapFns σ.fn x) (Value.mapFns σ.fn rhs) span >>= _) =
        Except.map σ.value (Value.binary op x rhs span >>= _)
      rw [hbinary]
      cases hleaf : Value.binary op x rhs span with
      | error e => rfl
      | ok leaf => exact Value.replaceAlong_mapFns hσ.relabels hold hsteps leaf

omit h in
theorem reassign (root : Ident) (span : Span) (hσ : σ.Ok) (hv : σ.Same v v') :
    Agree σ (Runner.reassign root v span) (Runner.reassign root v' span) fun _ _ _ => True := by
  obtain ⟨hv, rfl⟩ := hv
  have hfind := hσ.folds.find? hσ.rooted_current root.text
  rw [← hσ.current] at hfind
  -- the nearest binding decides
  have hunset : ∀ {m : Machine} {u : Value},
      (∀ owner b, m.arena.find? m.current root.text = some (owner, b) → b.isConst = true) →
      Runner.reassign root u span m = .error (.fault (.notReassignable root.text span)) m := by
    intro m u hconst
    rw [Runner.reassign, Arena.assign]
    cases hfound : m.arena.find? m.current root.text with
    | none => rfl
    | some found =>
      dsimp only
      rw [if_pos (hconst found.1 found.2 hfound)]
  have hset : ∀ {m : Machine} {u : Value} {owner : ScopeId} {b : Binding},
      m.arena.find? m.current root.text = some (owner, b) → b.isConst = false →
      Runner.reassign root u span m =
        .ok () { m with arena := m.arena.define owner root.text { b with value := u } } := by
    intro m u owner b hfound hconst
    rw [Runner.reassign, Arena.assign, hfound]
    dsimp only
    rw [hconst]
    rfl
  by_cases hvar : ∃ owner b, σ.inner.arena.find? σ.inner.current root.text = some (owner, b) ∧ b.isConst = false
  · obtain ⟨owner, b, hfound, hconst⟩ := hvar
    rw [hfound] at hfind
    obtain ⟨howner, hne⟩ := hσ.folds.rooted_of_find? hσ.rooted_current hfound
    obtain ⟨hok, hafter⟩ := hσ.define howner hne root.text (b := { b with value := v }) hv
    exact .ok (a := ()) (b := ()) _ (hset hfound hconst) (hset hfind hconst) hok hafter trivial
  · have hconst : ∀ owner b, σ.inner.arena.find? σ.inner.current root.text = some (owner, b) →
        b.isConst = true := fun owner b hfound => by
      by_contra hnot
      exact hvar ⟨owner, b, hfound, Bool.eq_false_iff.2 hnot⟩
    refine .error σ (hunset hconst) (hunset fun owner b hmapped => ?_) hσ (.refl σ)
    obtain ⟨found, hfound, heq⟩ := Option.map_eq_some_iff.1 (hfind.symm.trans hmapped)
    cases heq
    exact hconst found.1 found.2 hfound

theorem assign (target : Expr) (op : Option BinaryOp) (e : Expr) (span : Span) (hσ : σ.Ok) (hin : σ.Inside) :
    Agree σ (r.assign target op e span) (r.assign target op e span) fun _ _ _ => True := by
  refine (h.place target hσ).bind fun τ p p' hτ hafter hp => ?_
  obtain ⟨_, steps⟩ := p
  obtain ⟨root, steps'⟩ := p'
  dsimp only at hp
  obtain ⟨rfl, hsteps⟩ := hp
  have hassigned : Agree τ (Eval.query (Runner.assigned · root steps op span))
      (Eval.query (Runner.assigned · root steps' op span))
      fun υ old old' => υ = τ ∧ (∀ v ∈ old, τ.Has v) ∧ old' = old.map τ.value := by
    rw [hsteps.2]
    refine Agree.query hτ (hτ.assigned root steps op span) fun old hold => ⟨rfl, ?_, rfl⟩
    rintro v rfl
    obtain ⟨owner, b, hfind, -, heq⟩ | ⟨-, heq⟩ := Discipline.Lawful.assigned_eq_ok hold
    · cases heq
      exact hτ.stored.arena.local? (Arena.local?_of_findFrom hfind)
    · cases heq
  refine hassigned.bind fun τ old old' hτ _ hold => ?_
  obtain ⟨rfl, hold, rfl⟩ := hold
  refine (h.expr e hτ).bind fun υ rhs rhs' hυ hafter' hrhs => ?_
  have hin' := (hin.after hafter).after hafter'
  cases old with
  | none => exact define root.text hυ hin' hrhs
  | some old =>
    obtain ⟨hrhs, rfl⟩ := hrhs
    have hold' := hold old rfl
    obtain ⟨hsteps', rfl⟩ := hsteps.grows hτ hafter'.toGrows
    have hupdated : Agree υ (Eval.of (Runner.updated old steps op rhs span))
        (Eval.of (Runner.updated (τ.value old) (steps.map (Step.mapFns υ.fn)) op (υ.value rhs) span)) Same := by
      rw [← hafter'.value hτ hold']
      exact Agree.value hυ (updated_value op span hυ (hafter'.has hold') hsteps' hrhs)
        (Discipline.Lawful.gives_updated op span (hafter'.has hold') hsteps' hrhs)
    exact hupdated.bind fun ρ v v' hρ _ hv => reassign root span hρ hv

theorem defineVar (name : Ident) (isConst isPub : Bool) (e : Expr) (span : Span) (hσ : σ.Ok)
    (hin : σ.Inside) :
    Agree σ (r.defineVar name isConst isPub e span) (r.defineVar name isConst isPub e span)
      fun _ _ _ => True := by
  have hlocal := hσ.folds.local? hσ.rooted_current hin name.text
  rw [← hσ.current] at hlocal
  have hconst : (σ.outer.arena.local? σ.outer.current name.text).any (·.isConst) =
      (σ.inner.arena.local? σ.inner.current name.text).any (·.isConst) := by
    rw [hlocal, Option.any_map]
    rfl
  have hget : ∀ m : Machine, r.defineVar name isConst isPub e span m =
      (if (m.arena.local? m.current name.text).any (·.isConst) then
        Eval.fault (.constRedefined name.text span)
      else r.expr e >>= fun v => modify fun m => m.bind name.text ⟨v, isConst, isPub⟩ : Eval Unit) m :=
    fun _ => rfl
  have hboth : Agree σ
      (if (σ.inner.arena.local? σ.inner.current name.text).any (·.isConst) then
        Eval.fault (.constRedefined name.text span)
      else r.expr e >>= fun v => modify fun m => m.bind name.text ⟨v, isConst, isPub⟩ : Eval Unit)
      (if (σ.inner.arena.local? σ.inner.current name.text).any (·.isConst) then
        Eval.fault (.constRedefined name.text span)
      else r.expr e >>= fun v => modify fun m => m.bind name.text ⟨v, isConst, isPub⟩ : Eval Unit)
      fun _ _ _ => True := by
    split
    · exact Agree.fault hσ rfl
    · refine (h.expr e hσ).bind fun τ v v' hτ hafter hv => ?_
      exact bindM name.text hτ (hin.after hafter) hv.1 (by rw [binding, hv.2])
  refine hboth.congr (hget _) ((hget _).trans ?_)
  rw [hconst]

omit h in
theorem runUse (source : Ident) (names : Option (List Ident)) (span : Span) (hσ : σ.Ok) (hin : σ.Inside) :
    Agree σ (Runner.runUse source names span) (Runner.runUse source names span) fun _ _ _ => True := by
  have himports : Agree σ (Eval.query (·.imports source names span)) (Eval.query (·.imports source names span))
      SameNamed := by
    refine Agree.query hσ (hσ.imports source names span) fun found hfound => ⟨?_, rfl⟩
    have hgives := hσ.stored.gives_imports source names span
    rwa [hfound] at hgives
  exact himports.bind fun τ bs bs' hτ hafter hbs => defineEach hτ (hin.after hafter) hbs

/-! ### Statements -/

theorem condition (e : Expr) (hσ : σ.Ok) : Agree σ (r.condition e) (r.condition e) fun _ b b' => b' = b := by
  refine (h.expr e hσ).bind fun τ v v' hτ _ hv => ?_
  obtain ⟨-, rfl⟩ := hv
  have hfault : Fault.notACondition (τ.value v) e.span = .notACondition v e.span := by
    rw [Fault.notACondition, tag_value, Fault.notACondition]
  cases v with
  | bool b => exact Agree.pure hτ rfl
  | _ => exact Agree.fault hτ hfault

theorem runRound (pat : Pattern) (body : Block) (span : Span) (hσ : σ.Ok) (hv : σ.Same v v') :
    Agree σ (r.runRound pat body span v) (r.runRound pat body span v') SameFlow := by
  refine inBlock hσ (fun τ hτ hgrows hin => ?_) fun _ m m' _ _ hflow => hflow.on m m'
  obtain ⟨hhas, rfl⟩ := hv.grows hσ hgrows
  have hbindings := @Pattern.bindings?_mapFns _ _ _ τ.inner.registry.adts hτ.relabels pat v hhas
  have hfault : Fault.elementMismatch (τ.value v) span = .elementMismatch v span := by
    rw [Fault.elementMismatch, repr_value, Fault.elementMismatch]
  refine Agree.bind (Q := SameNamed) ?_ fun τ₁ bs bs' hτ₁ hafter hbs => ?_
  · refine @Agree.query _ _ τ _ _ _ _ _ (List.map (Prod.map id τ.value)) hτ ?_ fun bs hbs => ⟨?_, rfl⟩
    · rw [hτ.adts, hfault]
      dsimp only [value]
      rw [hbindings]
      cases pat.bindings? τ.inner.registry.adts v <;> rfl
    · cases hfound : pat.bindings? τ.inner.registry.adts v with
      | none =>
        rw [hfound] at hbs
        cases hbs
      | some found =>
        rw [hfound] at hbs
        cases hbs
        exact Pattern.allSane_bindings? pat hhas hfound
  · refine (bindNames [] pat.span hτ₁ (hin.after hafter) hbs).bind fun τ₂ _ _ hτ₂ hafter' _ => ?_
    exact h.runStmts body.stmts hτ₂ ((hin.after hafter).after hafter')

theorem runFor (pat : Pattern) (body : Block) (span : Span) (hσ : σ.Ok) (hargs : σ.SameAll args args') :
    Agree σ (r.runFor pat body span args) (r.runFor pat body span args') SameFlow := by
  induction args generalizing σ args' with
  | nil =>
    rw [hargs.of_nil]
    exact Agree.pure hσ (.value (.unit σ))
  | cons v vs ih =>
    obtain ⟨w, ws, rfl, hv, hrest⟩ := hargs.of_cons
    refine (h.runRound pat body span hσ hv).bind fun τ flow flow' hτ hafter hflow => ?_
    have hnext := ih hτ (hrest.after hσ hafter)
    cases hflow with
    | value _ => exact hnext
    | next _ => exact hnext
    | leave _ => exact Agree.pure hτ (.value (.unit τ))
    | ret s hv => exact Agree.pure hτ (.ret s hv)

theorem runWhile (test : Expr) (body : Block) (rounds : Nat) (hσ : σ.Ok) :
    Agree σ (r.runWhile test body rounds) (r.runWhile test body rounds) SameFlow := by
  induction rounds generalizing σ with
  | zero => exact Agree.throw _ hσ
  | succ rounds ih =>
    refine (h.condition test hσ).bind fun τ b b' hτ _ hb => ?_
    rw [hb]
    cases b with
    | false => exact Agree.pure hτ (.value (.unit τ))
    | true =>
      refine (h.runBlock body hτ).bind fun υ flow flow' hυ _ hflow => ?_
      cases hflow with
      | value _ => exact ih hυ
      | next _ => exact ih hυ
      | leave _ => exact Agree.pure hυ (.value (.unit υ))
      | ret s hv => exact Agree.pure hυ (.ret s hv)

theorem runCond (otherwise : Option Block) (branches : List (Expr × Block)) (hσ : σ.Ok) :
    Agree σ (r.runCond otherwise branches) (r.runCond otherwise branches) SameFlow := by
  induction branches generalizing σ with
  | nil =>
    cases otherwise with
    | none => exact Agree.pure hσ (.value (.unit σ))
    | some b => exact h.runBlock b hσ
  | cons p branches ih =>
    refine (h.condition p.1 hσ).bind fun τ b b' hτ _ hb => ?_
    rw [hb]
    cases b with
    | true => exact h.runBlock p.2 hτ
    | false => exact ih hτ

theorem runArm (arm : MatchArm) (hσ : σ.Ok) (hbs : σ.SameNamed bs bs') :
    Agree σ (r.runArm bs arm) (r.runArm bs' arm) SameFlow := by
  refine inBlock hσ (fun τ hτ hgrows hin => ?_) fun _ m m' _ _ hflow => hflow.on m m'
  refine (bindNames [] arm.pat.span hτ hin (hbs.grows hσ hgrows)).bind fun υ _ _ hυ hafter _ => ?_
  split
  next e _ => exact (h.expr e hυ).bind fun ρ _ _ hρ _ hv => Agree.pure hρ (.value hv)
  next b _ => exact h.runStmts b.stmts hυ (hin.after hafter)

theorem runSelect (scrutinee : Expr) (arms : List MatchArm) (span : Span) (hσ : σ.Ok) :
    Agree σ (r.runSelect scrutinee arms span) (r.runSelect scrutinee arms span) SameFlow := by
  refine (h.expr scrutinee hσ).bind fun τ v v' hτ _ hv => ?_
  obtain ⟨hv, rfl⟩ := hv
  have hmatch : Agree τ (Eval.query (Runner.firstMatch · v arms span))
      (Eval.query (Runner.firstMatch · (τ.value v) arms span))
      fun υ found found' => υ.SameNamed found.1 found'.1 ∧ found'.2 = found.2 := by
    refine Agree.query hτ (hτ.firstMatch hv arms span) fun found hfound => ⟨⟨?_, rfl⟩, rfl⟩
    have hgives := Machine.gives_firstMatch (m := τ.inner) hv arms span
    rw [hfound] at hgives
    exact hgives.1
  refine hmatch.bind fun υ found found' hυ _ hfound => ?_
  obtain ⟨bs, arm⟩ := found
  obtain ⟨bs', arm'⟩ := found'
  obtain ⟨hbs, harm⟩ := hfound
  dsimp only at harm
  rw [harm]
  exact h.runArm arm hυ hbs

omit h in
theorem moduleValue {flow flow' : Flow} (hσ : σ.Ok) (hflow : σ.SameFlow flow flow') :
    Agree σ (Runner.moduleValue flow) (Runner.moduleValue flow') Same := by
  cases hflow with
  | value hv => exact Agree.pure hσ hv
  | ret span hv => exact Agree.fault hσ rfl
  | leave span => exact Agree.fault hσ rfl
  | next span => exact Agree.fault hσ rfl

theorem runSubmodule (name : Ident) (body : Block) (hσ : σ.Ok) :
    Agree σ (r.runSubmodule name body) (r.runSubmodule name body) fun _ _ _ => True := by
  have hmodule := inModule name.text hσ (fun _ hτ hin => h.runStmts body.stmts hτ hin)
    fun _ m m' _ _ hflow => hflow.on m m'
  refine hmodule.bind fun τ _ _ hτ _ hflow => ?_
  exact (moduleValue hτ hflow).bind fun υ _ _ hυ _ _ => Agree.pure hυ trivial

theorem stmtRule (s : Stmt) (hσ : σ.Ok) (hin : σ.Inside) : Agree σ (r.stmtRule s) (r.stmtRule s) SameFlow := by
  have hdone : ∀ {x : Eval Unit}, Agree σ x x (fun _ _ _ => True) →
      Agree σ (x >>= fun _ => Pure.pure (Flow.value .unit)) (x >>= fun _ => Pure.pure (Flow.value .unit))
        SameFlow := fun hx => hx.bind fun τ _ _ hτ _ _ => Agree.pure hτ (.value (.unit τ))
  cases s with
  | var name type isConst isPub value span => exact hdone (h.defineVar name isConst isPub value span hσ hin)
  | assign target op value span => exact hdone (h.assign target op value span hσ hin)
  | use source names span => exact hdone (runUse source names span hσ hin)
  | fn d => exact Agree.pure hσ (.value (.unit σ))
  | struct d => exact Agree.pure hσ (.value (.unit σ))
  | enum d => exact Agree.pure hσ (.value (.unit σ))
  | typeclass d => exact Agree.pure hσ (.value (.unit σ))
  | impl d => exact Agree.pure hσ (.value (.unit σ))
  | forIn pat iter body span =>
    refine (h.expr iter hσ).bind fun τ v v' hτ _ hv => ?_
    obtain ⟨hv, rfl⟩ := hv
    have hitems : Agree τ (Eval.of (v.items iter.span)) (Eval.of ((τ.value v).items iter.span)) SameAll := by
      refine Agree.of hτ (Value.items_mapFns τ.fn v iter.span) fun vs hvs => ⟨?_, rfl⟩
      have hgives := hv.gives_items iter.span
      rwa [hvs] at hgives
    exact hitems.bind fun υ _ _ hυ _ hvs => h.runFor pat body span hυ hvs
  | cond branches otherwise span => exact h.runCond otherwise branches hσ
  | loop test body span => exact h.runWhile test body r.rounds hσ
  | select scrutinee arms span => exact h.runSelect scrutinee arms span hσ
  | submodule name body span => exact hdone (h.runSubmodule name body hσ)
  | ret value span =>
    cases value with
    | none => exact Agree.pure hσ (.ret span (.unit σ))
    | some e => exact (h.expr e hσ).bind fun τ _ _ hτ _ hv => Agree.pure hτ (.ret span hv)
  | leave span => exact Agree.pure hσ (.leave span)
  | next span => exact Agree.pure hσ (.next span)
  | expr e span => exact (h.expr e hσ).bind fun τ _ _ hτ _ hv => Agree.pure hτ (.value hv)

end Follows

/-- Runs agree. -/
theorem follows_ofFuel (drop : Nat → Nat) (hollow : ScopeId) (fuel : Nat) :
    Follows drop hollow (.ofFuel fuel) := by
  induction fuel with
  | zero => exact ⟨fun _ hσ => .throw _ hσ, fun _ hσ _ => .throw _ hσ, fun _ hσ _ _ => .throw _ hσ,
      fun _ hσ _ _ => .throw _ hσ⟩
  | succ fuel ih =>
    exact ⟨fun e hσ => ih.exprRule e hσ, fun s hσ hin => ih.stmtRule s hσ hin,
      fun span hσ hf hargs => ih.callRule span hσ hf hargs,
      fun span hσ hc hargs => ih.bodyRule span hσ hc hargs⟩

end Folding

end Sluice
