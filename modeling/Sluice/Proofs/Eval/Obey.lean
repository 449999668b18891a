import Sluice.Proofs.Arena.Chain
import Sluice.Proofs.Eval.Discipline
import Sluice.Proofs.Eval.Rules

/-! The rules obey a discipline: what a rule does with two runners that do the same and obey is again the
same and obeys. By induction on the fuel so does every run, and what the discipline gives holds wherever
a job begins. -/
namespace Sluice

variable {W : Type} {D : Discipline W} {σ : Config W} {r r' : Runner}

def Flow.values : Flow → List Value
  | value v | ret v _ => [v]
  | leave _ | next _ => []

namespace Discipline

def Flows (D : Discipline W) (σ : Config W) (l : List Stmt) (flow : Flow) : Prop :=
  (∀ v ∈ flow.values, D.V σ v) ∧ ∀ v, flow = .value v → D.Rest σ l

structure Obeys (D : Discipline W) (r r' : Runner) : Prop where
  expr : ∀ {σ e}, D.Ok σ → D.Term σ e →
    D.Does .expr (r.expr e) (r'.expr e) σ fun v σ' => D.V σ' v
  stmt : ∀ {σ s l}, D.Ok σ → D.Rest σ (s :: l) →
    D.Does .stmt (r.stmt s) (r'.stmt s) σ fun flow σ' => D.Flows σ' l flow
  call : ∀ {σ f args} span, D.Ok σ → D.V σ f → (∀ v ∈ args, D.V σ v) →
    D.Does .expr (r.call f args span) (r'.call f args span) σ fun v σ' => D.V σ' v
  body : ∀ {σ c args} span, D.Ok σ → D.Fn σ c → (∀ v ∈ args, D.V σ v) →
    (∀ b, c.body = .block b → args.length = c.params.length) →
    D.Does .expr (r.body c args span) (r'.body c args span) σ fun v σ' => D.V σ' v
  rounds : r.rounds = r'.rounds

namespace Lawful

variable (H : D.Lawful) (h : D.Obeys r r')

/-! ### Names -/

theorem bindAll_eq (names : List String) (vs : List Value) (m : Machine) :
    Runner.bindAll names vs m = .ok () (m.defineAll (names.zip vs)) := by
  induction names generalizing vs m with
  | nil => rfl
  | cons name names ih =>
    cases vs with
    | nil => rfl
    | cons v vs =>
      exact (Eval.define_bind name v _ m).trans (ih vs (m.define name v))

/-- The names of a pattern are bound one by one, up to one that comes twice. -/
theorem bindNames_eq (seen : List String) (span : Span) (bs : List (String × Value)) (m : Machine) :
    Runner.bindNames seen span bs m = .ok () (m.defineAll bs) ∨
      ∃ bs' name, bs' ⊆ bs ∧ Runner.bindNames seen span bs m =
        .error (.fault (.boundTwice name span)) (m.defineAll bs') := by
  induction bs generalizing seen m with
  | nil => exact .inl rfl
  | cons b rest ih =>
    obtain ⟨name, v⟩ := b
    rw [Runner.bindNames]
    split
    · exact .inr ⟨[], name, List.nil_subset _, rfl⟩
    · rw [Eval.define_bind]
      obtain hok | ⟨bs', name', hsub, herror⟩ := ih (name :: seen) (m.define name v)
      · exact .inl hok
      · exact .inr ⟨(name, v) :: bs', name', List.cons_subset_cons _ hsub, herror⟩

theorem forM_define_eq (bs : List (String × Value)) (m : Machine) :
    (bs.forM fun b => Eval.define b.1 b.2) m = .ok () (m.defineAll bs) := by
  induction bs generalizing m with
  | nil => rfl
  | cons b bs ih =>
    exact (Eval.define_bind b.1 b.2 _ m).trans (ih (m.define b.1 b.2))

include H h

/-! ### Blocks -/

theorem runFrom {last : Value} (stmts : List Stmt) (hσ : D.Ok σ) (hrest : D.Rest σ stmts)
    (hlast : D.V σ last) : D.Does .stmt (r.runFrom last stmts) (r'.runFrom last stmts) σ
      fun flow σ' => ∀ v ∈ flow.values, D.V σ' v := by
  induction stmts generalizing σ last with
  | nil => exact H.pure hσ (List.forall_mem_singleton.2 hlast)
  | cons s rest ih =>
    rw [Runner.runFrom, Runner.runFrom]
    split
    next hdecl =>
      have hbinds : s.binds = false := by cases s <;> first | rfl | cases hdecl
      exact ih hσ (H.rest_pass hrest (H.sub_refl σ) hbinds) (Value.sane_atom rfl fun _ => trivial)
    next =>
      refine H.bind (h.stmt hσ hrest) fun flow σ' hσ' _ hflow => ?_
      cases flow with
      | value v => exact ih hσ' (hflow.2 v rfl) (hflow.1 v List.mem_cons_self)
      | _ => exact H.pure hσ' hflow.1

theorem runStmts {stmts : List Stmt} (hσ : D.Ok σ) (hdecl : D.Decl σ stmts []) :
    D.Does .stmt (r.runStmts stmts) (r'.runStmts stmts) σ
      fun flow σ' => ∀ v ∈ flow.values, D.V σ' v :=
  H.bind (H.declare hσ hdecl) fun _ _ hσ' _ hrest =>
    H.runFrom h stmts hσ' hrest (Value.sane_atom rfl fun _ => trivial)

theorem runBlock {b : Block} (hσ : D.Ok σ)
    (hbody : D.Body σ σ.machine.current (.block b.stmts)) :
    D.Does .expr (r.runBlock b) (r'.runBlock b) σ fun flow σ' => ∀ v ∈ flow.values, D.V σ' v := by
  rw [Runner.runBlock, Runner.runBlock]
  exact H.inBlock [] Flow.values hσ hbody (List.forall_mem_nil _) rfl rfl fun _ hσ' hstarts _ =>
    H.runStmts h hσ' (hstarts rfl)

/-! ### Calls -/

theorem exprs (es : List Expr) (hσ : D.Ok σ) (hes : ∀ e ∈ es, D.Term σ e) :
    D.Does .expr (r.exprs es) (r'.exprs es) σ
      fun vs σ' => (∀ v ∈ vs, D.V σ' v) ∧ vs.length = es.length := by
  induction es generalizing σ with
  | nil => exact H.pure hσ ⟨List.forall_mem_nil _, rfl⟩
  | cons e es ih =>
    refine H.bind (h.expr hσ (hes e List.mem_cons_self)) fun v σ₁ hσ₁ hsub₁ hv => ?_
    refine H.bind (ih hσ₁ fun e' he' => H.expr_mono hsub₁ (hes e' (List.mem_cons_of_mem _ he')))
      fun vs σ₂ hσ₂ hsub₂ hvs => H.pure hσ₂ ⟨?_, congrArg (· + 1) hvs.2⟩
    exact List.forall_mem_cons.2 ⟨H.value_mono hsub₂ hv, hvs.1⟩

theorem stage {e : Expr} {acc : Value} (hσ : D.Ok σ) (he : D.Term σ e) (hacc : D.V σ acc) :
    D.Does .expr (Eval.inBlock do Eval.define "_" acc; r.expr e)
      (Eval.inBlock do Eval.define "_" acc; r'.expr e) σ fun v σ' => D.V σ' v := by
  refine (H.inBlock [("_", acc)] (fun v => [v]) hσ (H.expr_hole he)
    (List.forall_mem_singleton.2 hacc) rfl rfl fun σ' hσ' hstarts _ => ?_).mono
    fun v σ' _ _ hv => hv v List.mem_cons_self
  exact (H.stmt_of_expr (h.expr hσ' (hstarts rfl))).mono fun v σ' _ _ hv =>
    List.forall_mem_singleton.2 hv.2

theorem sendThrough (stages : List Expr) {acc : Value} (hσ : D.Ok σ)
    (hstages : ∀ e ∈ stages, D.Term σ e) (hacc : D.V σ acc) :
    D.Does .expr (r.sendThrough stages acc) (r'.sendThrough stages acc) σ fun v σ' => D.V σ' v := by
  induction stages generalizing σ acc with
  | nil => exact H.pure hσ hacc
  | cons e rest ih =>
    have he := hstages e List.mem_cons_self
    have hnext : ∀ v σ', D.Ok σ' → D.After .expr σ σ' → D.V σ' v →
        D.Does .expr (r.sendThrough rest v) (r'.sendThrough rest v) σ' fun v σ' => D.V σ' v :=
      fun v σ' hσ' hsub hv =>
        ih hσ' (fun e' he' => H.expr_mono hsub (hstages e' (List.mem_cons_of_mem _ he'))) hv
    rw [Runner.sendThrough, Runner.sendThrough]
    split
    · exact H.bind (H.stage h hσ he hacc) hnext
    · refine H.bind (h.expr hσ he) fun f σ₁ hσ₁ hsub₁ hf => ?_
      refine H.bind (h.call _ hσ₁ hf (List.forall_mem_singleton.2 (H.value_mono hsub₁ hacc)))
        fun v σ₂ hσ₂ hsub₂ hv => hnext v σ₂ hσ₂ (H.sub_trans hsub₁ hsub₂) hv

theorem runStages (stages : List Expr) (hσ : D.Ok σ) (hstages : ∀ e ∈ stages, D.Term σ e) :
    D.Does .expr (r.runStages stages) (r'.runStages stages) σ fun v σ' => D.V σ' v := by
  cases stages with
  | nil => exact H.pure hσ (Value.sane_atom rfl fun _ => trivial)
  | cons first rest =>
    refine H.bind (h.expr hσ (hstages first List.mem_cons_self)) fun seed σ₁ hσ₁ hsub hseed => ?_
    exact H.sendThrough h rest hσ₁
      (fun e he => H.expr_mono hsub (hstages e (List.mem_cons_of_mem _ he))) hseed

theorem callStages (stages : List Expr) {args : List Value} (span : Span) (hσ : D.Ok σ)
    (hstages : ∀ e ∈ stages, D.Term σ e) (hargs : ∀ v ∈ args, D.V σ v) :
    D.Does .expr (r.callStages stages args span) (r'.callStages stages args span) σ
      fun v σ' => D.V σ' v := by
  rcases args with _ | ⟨seed, _ | ⟨v, args⟩⟩
  · exact H.runStages h stages hσ hstages
  · exact H.sendThrough h stages hσ hstages (hargs seed List.mem_cons_self)
  · exact H.fault hσ nofun

theorem bodyRule {c : Closure} {args : List Value} (span : Span) (hσ : D.Ok σ) (hc : D.Fn σ c)
    (hargs : ∀ v ∈ args, D.V σ v) (hlen : ∀ b, c.body = .block b → args.length = c.params.length) :
    D.Does .expr (r.bodyRule c args span) (r'.bodyRule c args span) σ fun v σ' => D.V σ' v := by
  have hbody := H.call hσ.inv hc
  rw [Closure.task] at hbody
  rw [Runner.bodyRule, Runner.bodyRule]
  split
  next body hblock =>
    rw [hblock] at hbody
    have hrun : ∀ (r : Runner) m, r.runBody c.params args body m = _ := fun r m =>
      Eval.bind_of_ok (bindAll_eq c.params args m)
    refine (H.inScope (c.params.zip args) (fun v => [v]) hσ hbody
      (fun b hb => hargs _ (List.of_mem_zip hb).2) (hrun r _) (hrun r' _)
      fun σ' hσ' hstarts _ => ?_).mono fun v σ' _ _ hv => hv v List.mem_cons_self
    have hbinds : (c.params.zip args).map (·.1) = c.params :=
      List.map_fst_zip (Nat.le_of_eq (hlen body hblock).symm)
    refine H.bind (H.runStmts h hσ' (hstarts hbinds)) fun flow σ₁ hσ₁ _ hflow => ?_
    cases flow with
    | value v => exact H.pure hσ₁ hflow
    | ret v span => exact H.pure hσ₁ hflow
    | leave span => exact H.fault hσ₁ fun h => by cases h
    | next span => exact H.fault hσ₁ fun h => by cases h
  next stages hpipe =>
    rw [hpipe] at hbody
    refine (H.inScope [] (fun v => [v]) hσ hbody (List.forall_mem_nil _) rfl rfl
      fun σ' hσ' hstarts hmono => ?_).mono fun v σ' _ _ hv => hv v List.mem_cons_self
    refine (H.stmt_of_expr (H.callStages h stages span hσ' (hstarts rfl)
      fun v hv => hmono v (hargs v hv))).mono fun v σ' _ _ hv => List.forall_mem_singleton.2 hv.2

theorem callFn {c : Closure} {args : List Value} (span : Span) (hσ : D.Ok σ) (hc : D.Fn σ c)
    (hargs : ∀ v ∈ args, D.V σ v) :
    D.Does .expr (r.callFn c args span) (r'.callFn c args span) σ fun v σ' => D.V σ' v := by
  have hdeeper : (∀ b, c.body = .block b → args.length = c.params.length) →
      D.Does .expr (Eval.deeper span (r.body c args span)) (Eval.deeper span (r'.body c args span)) σ
        fun v σ' => D.V σ' v := by
    intro hlen
    refine (H.deeper span (fun v => [v]) hσ fun σ' hσ' hsub => ?_).mono
      fun v σ' _ _ hv => hv v List.mem_cons_self
    have hc' := H.fn_mono (H.run_of_sub hsub) hc
    exact (h.body span hσ' hc' (H.values_mono (k := .expr) hsub hargs) hlen).mono
      fun v σ' _ _ hv => List.forall_mem_singleton.2 hv
  rw [Runner.callFn, Runner.callFn]
  split
  next b hblock =>
    split
    next hlen => exact hdeeper fun _ _ => hlen
    next => exact H.fault hσ fun h => by cases h
  next stages hpipe =>
    refine hdeeper fun b hblock => ?_
    rw [hpipe] at hblock
    cases hblock

omit h in
theorem hostCall (name : String) (args : List Value) (span : Span) (hσ : D.Ok σ) :
    D.Does .expr (Runner.hostCall name args span) (Runner.hostCall name args span) σ
      fun v σ' => D.V σ' v := by
  obtain ⟨hok, hsub⟩ := H.ok_idle
    (m := { σ.machine with world := (Host.call name args σ.machine.world).2 }) hσ rfl rfl rfl rfl rfl
    hσ.stored.registry
  have heq := hostCall_eq name args span σ.machine
  cases hresult : (Host.call name args σ.machine.world).1 with
  | ok v =>
    rw [hresult] at heq
    exact does_of_ok _ heq heq hok hsub (Value.sane_hostCall hresult)
  | error e =>
    rw [hresult] at heq
    cases e with
    | exit code => exact does_of_error _ heq heq (.inr nofun) hok hsub
    | _ => exact does_of_error _ heq heq (fine_of_kind nofun) hok hsub

theorem callRule {f : Value} {args : List Value} (span : Span) (hσ : D.Ok σ) (hf : D.V σ f)
    (hargs : ∀ v ∈ args, D.V σ v) :
    D.Does .expr (r.callRule f args span) (r'.callRule f args span) σ fun v σ' => D.V σ' v := by
  have hof : ∀ {z : Except Fault Value}, Gives (D.V σ) z →
      D.Does .expr (Eval.of z) (Eval.of z) σ fun v σ' => D.V σ' v := fun hz =>
    (H.of hσ hz).mono fun v σ' _ _ hv => hv.2 ▸ hv.1
  cases f with
  | fn c => exact H.callFn h span hσ hf.self hargs
  | builtin b => exact hof (Value.gives_builtin b hargs span)
  | host name => exact H.hostCall name args span hσ
  | constructor c => exact hof (Value.gives_build hf hargs span)
  | method name =>
    refine H.bind (H.query hσ (hσ.stored.gives_implementation name args span))
      fun f σ' hσ' hsub hf => ?_
    obtain ⟨hf, rfl⟩ := hf
    exact h.call span hσ' hf hargs
  | _ => exact H.fault hσ nofun

theorem callExpr {callee : Expr} {args : List Expr} (span : Span) (hσ : D.Ok σ)
    (hcall : D.Term σ (.call callee args span)) :
    D.Does .expr (r.callExpr callee args span) (r'.callExpr callee args span) σ
      fun v σ' => D.V σ' v := by
  have hcallee : D.Term σ callee := H.expr_part hcall (by simp [Expr.parts])
  have hargs : ∀ e ∈ args, D.Term σ e := fun e he => H.expr_part hcall (by simp [Expr.parts, he])
  have hplain : D.Does .expr
      (r.expr callee >>= fun f => r.exprs args >>= fun args => r.call f args span)
      (r'.expr callee >>= fun f => r'.exprs args >>= fun args => r'.call f args span) σ
      fun v σ' => D.V σ' v := by
    refine H.bind (h.expr hσ hcallee) fun f σ₁ hσ₁ hsub₁ hf => ?_
    refine H.bind (H.exprs h args hσ₁ fun e he => H.expr_mono hsub₁ (hargs e he))
      fun vs σ₂ hσ₂ hsub₂ hvs => ?_
    exact h.call span hσ₂ (H.value_mono hsub₂ hf) hvs.1
  cases callee with
  | member base names memberSpan =>
    have hbase : D.Term σ base := H.expr_part hcallee (by simp [Expr.parts])
    rw [Runner.callExpr, Runner.callExpr]
    split
    · rename_i method _
      refine H.bind (h.expr hσ hbase) fun b σ₁ hσ₁ hsub₁ hb => ?_
      refine H.bind (H.query hσ₁ (hσ₁.stored.gives_members hb names.dropLast))
        fun receiver σ₂ hσ₂ _ hreceiver => ?_
      obtain ⟨hreceiver, rfl⟩ := hreceiver
      refine H.bind (H.exprs h args hσ₂ fun e he => H.expr_mono hsub₁ (hargs e he))
        fun vs σ₃ hσ₃ hsub₃ hvs => ?_
      refine H.bind (H.query hσ₃ (hσ₃.stored.gives_memberCall (H.value_mono hsub₃ hreceiver) method
        hvs.1)) fun p σ₄ hσ₄ _ hp => ?_
      obtain ⟨⟨hf, hall⟩, rfl⟩ := hp
      exact h.call span hσ₄ hf hall
    · exact hplain
  | _ => exact hplain

/-! ### Expressions -/

theorem truth (op : BinaryOp) {e : Expr} (hσ : D.Ok σ) (he : D.Term σ e) :
    D.Does .expr (r.truth op e) (r'.truth op e) σ fun _ _ => True := by
  refine H.bind (h.expr hσ he) fun v σ' hσ' _ _ => ?_
  cases v with
  | bool b => exact H.pure hσ' trivial
  | _ => exact H.fault hσ' nofun

theorem binaryExpr {lhs rhs : Expr} (op : BinaryOp) (span : Span) (hσ : D.Ok σ)
    (hlhs : D.Term σ lhs) (hrhs : D.Term σ rhs) :
    D.Does .expr (r.binaryExpr lhs op rhs span) (r'.binaryExpr lhs op rhs span) σ
      fun v σ' => D.V σ' v := by
  have hstrict : D.Does .expr
      (r.expr lhs >>= fun a => r.expr rhs >>= fun b => Eval.of (Value.binary op a b span))
      (r'.expr lhs >>= fun a => r'.expr rhs >>= fun b => Eval.of (Value.binary op a b span)) σ
      fun v σ' => D.V σ' v := by
    refine H.bind (h.expr hσ hlhs) fun a σ₁ hσ₁ hsub₁ ha => ?_
    refine H.bind (h.expr hσ₁ (H.expr_mono hsub₁ hrhs)) fun b σ₂ hσ₂ hsub₂ hb => ?_
    exact (H.of hσ₂ (Value.gives_binary op span (H.value_mono hsub₂ ha) hb)).mono
      fun v σ' _ _ hv => hv.2 ▸ hv.1
  have hbool : ∀ {σ'} (b : Bool), D.Ok σ' →
      D.Does .expr (Pure.pure (Value.bool b)) (Pure.pure (Value.bool b)) σ' fun v σ' => D.V σ' v :=
    fun b hσ' => H.pure hσ' (Value.sane_atom rfl fun _ => trivial)
  have hright : ∀ {σ'}, D.Ok σ' → D.After .expr σ σ' → D.Does .expr
      (r.truth op rhs >>= fun b => Pure.pure (Value.bool b))
      (r'.truth op rhs >>= fun b => Pure.pure (Value.bool b)) σ' fun v σ' => D.V σ' v :=
    fun hσ' hsub => H.bind (H.truth h op hσ' (H.expr_mono hsub hrhs)) fun b _ hσ'' _ _ => hbool b hσ''
  cases op with
  | and =>
    refine H.bind (H.truth h .and hσ hlhs) fun b σ' hσ' hsub _ => ?_
    cases b with
    | true => exact hright hσ' hsub
    | false => exact hbool false hσ'
  | or =>
    refine H.bind (H.truth h .or hσ hlhs) fun b σ' hσ' hsub _ => ?_
    cases b with
    | true => exact hbool true hσ'
    | false => exact hright hσ' hsub
  | _ => exact hstrict

theorem rangeExpr {lo hi : Expr} (span : Span) (hσ : D.Ok σ) (hlo : D.Term σ lo)
    (hhi : D.Term σ hi) :
    D.Does .expr (r.rangeExpr lo hi span) (r'.rangeExpr lo hi span) σ fun v σ' => D.V σ' v := by
  refine H.bind (h.expr hσ hlo) fun a σ₁ hσ₁ hsub₁ _ => ?_
  refine H.bind (h.expr hσ₁ (H.expr_mono hsub₁ hhi)) fun b σ₂ hσ₂ _ _ => ?_
  split
  · exact H.pure hσ₂ (Value.sane_range _ _)
  · exact H.fault hσ₂ nofun

theorem mapEntries {entries : List (Value × Value)} (es : List (Expr × Expr)) (hσ : D.Ok σ)
    (hentries : D.V σ (.map entries)) (hes : ∀ e ∈ es, D.Term σ e.1 ∧ D.Term σ e.2) :
    D.Does .expr (r.mapEntries entries es) (r'.mapEntries entries es) σ
      fun found σ' => D.V σ' (.map found) := by
  induction es generalizing σ entries with
  | nil => exact H.pure hσ hentries
  | cons e es ih =>
    obtain ⟨hkey, hvalue⟩ := hes e List.mem_cons_self
    refine H.bind (h.expr hσ hkey) fun k σ₁ hσ₁ hsub₁ hk => ?_
    refine H.bind (h.expr hσ₁ (H.expr_mono hsub₁ hvalue)) fun v σ₂ hσ₂ hsub₂ hv => ?_
    have hsub := H.sub_trans hsub₁ hsub₂
    refine ih hσ₂ ?_ fun e' he' => ?_
    · exact Value.Sane.putEntry (H.value_mono (k := .expr) hsub hentries) (H.value_mono hsub₂ hk) hv
    · obtain ⟨hkey', hvalue'⟩ := hes e' (List.mem_cons_of_mem _ he')
      exact ⟨H.expr_mono hsub hkey', H.expr_mono hsub hvalue'⟩

theorem exprRule {e : Expr} (hσ : D.Ok σ) (he : D.Term σ e) :
    D.Does .expr (r.exprRule e) (r'.exprRule e) σ fun v σ' => D.V σ' v := by
  have hquery : ∀ {q : Machine → Except Fault Value} {σ}, D.Ok σ → Gives (D.V σ) (q σ.machine) →
      D.Does .expr (Eval.query q) (Eval.query q) σ fun v σ' => D.V σ' v := fun hσ hq =>
    (H.query hσ hq).mono fun v σ' _ _ hv => hv.2 ▸ hv.1
  have hof : ∀ {z : Except Fault Value} {σ}, D.Ok σ → Gives (D.V σ) z →
      D.Does .expr (Eval.of z) (Eval.of z) σ fun v σ' => D.V σ' v := fun hσ hz =>
    (H.of hσ hz).mono fun v σ' _ _ hv => hv.2 ▸ hv.1
  have hpart : ∀ {e'}, e' ∈ e.parts → D.Term σ e' := fun h' => H.expr_part he h'
  cases e with
  | lit l span => exact H.pure hσ (Value.sane_literal l)
  | var id => exact hquery hσ (hσ.stored.gives_lookup id)
  | placeholder span => exact hquery hσ (hσ.stored.gives_placeholder span)
  | paren inner span => exact h.expr hσ (hpart (by simp [Expr.parts]))
  | index base key span =>
    refine H.bind (h.expr hσ (hpart (by simp [Expr.parts]))) fun b σ₁ hσ₁ hsub₁ hb => ?_
    refine H.bind (h.expr hσ₁ (H.expr_mono hsub₁ (hpart (by simp [Expr.parts]))))
      fun k σ₂ hσ₂ hsub₂ _ => ?_
    exact hof hσ₂ ((H.value_mono hsub₂ hb).gives_index k span)
  | member base names span =>
    refine H.bind (h.expr hσ (hpart (by simp [Expr.parts]))) fun b σ₁ hσ₁ _ hb => ?_
    exact hquery hσ₁ (hσ₁.stored.gives_members hb names)
  | unary op operand span =>
    refine H.bind (h.expr hσ (hpart (by simp [Expr.parts]))) fun v σ₁ hσ₁ _ _ => ?_
    exact hof hσ₁ (Value.gives_unary op v span)
  | binary lhs op rhs span =>
    exact H.binaryExpr h op span hσ (hpart (by simp [Expr.parts])) (hpart (by simp [Expr.parts]))
  | call callee args span => exact H.callExpr h span hσ he
  | list items span =>
    refine H.bind (H.exprs h items hσ fun e' he' => hpart he') fun vs σ' hσ' _ hvs => ?_
    exact H.pure hσ' (Value.sane_list.2 hvs.1)
  | tuple elems span =>
    refine H.bind (H.exprs h elems hσ fun e' he' => hpart he') fun vs σ' hσ' _ hvs => ?_
    exact H.pure hσ' (Value.sane_tuple (fun hp => hvs.2 ▸ H.expr_tuple hp he) hvs.1)
  | range lo hi span =>
    exact H.rangeExpr h span hσ (hpart (by simp [Expr.parts])) (hpart (by simp [Expr.parts]))
  | map entries span =>
    have hentries : ∀ e' ∈ entries, D.Term σ e'.1 ∧ D.Term σ e'.2 := fun e' he' =>
      ⟨hpart (List.mem_flatMap.2 ⟨e', he', by simp⟩), hpart (List.mem_flatMap.2 ⟨e', he', by simp⟩)⟩
    have hempty : D.V σ (.map []) := Value.sane_map (fun _ => .nil) (List.forall_mem_nil _)
    exact H.bind (H.mapEntries h entries hσ hempty hentries) fun vs σ' hσ' _ hvs => H.pure hσ' hvs
  | lambda params ret body span => exact H.makeFnM none hσ (H.expr_lambda he)
  | compose stages mode span =>
    cases mode with
    | deferred =>
      have hmakes : D.Makes σ (([] : List Param).map (·.name.text)) (.pipeline stages) :=
        H.expr_deferred he
      exact H.makeFnM none hσ hmakes
    | immediate => exact H.runStages h stages hσ fun e' he' => hpart he'

/-! ### Assignments -/

theorem place (target : Expr) (hσ : D.Ok σ) (htarget : D.Term σ target) :
    D.Does .expr (r.place target) (r'.place target) σ fun p σ' =>
      target.root? = some p.1 ∧ ∀ s ∈ p.2, s.Sane D.proper (D.Fn σ') := by
  induction target using Runner.place.induct generalizing σ with
  | case1 id => exact H.pure hσ ⟨rfl, List.forall_mem_nil _⟩
  | case2 inner span ih => exact ih hσ (H.expr_part htarget (by simp [Expr.parts]))
  | case3 base key span ih =>
    refine H.bind (ih hσ (H.expr_part htarget (by simp [Expr.parts]))) fun p σ₁ hσ₁ hsub₁ hp => ?_
    have hpart : key ∈ (Expr.index base key span).parts := by simp [Expr.parts]
    have hkey := H.expr_mono hsub₁ (H.expr_part htarget hpart)
    refine H.bind (h.expr hσ₁ hkey) fun k σ₂ hσ₂ hsub₂ hk => H.pure hσ₂ ⟨hp.1, fun s hs => ?_⟩
    rcases List.mem_append.1 hs with hs | hs
    · have hold := hp.2 s hs
      cases s with
      | index key span => exact H.value_mono hsub₂ hold
      | field name => trivial
    · rw [List.mem_singleton.1 hs]
      exact hk
  | case4 base names span ih =>
    refine H.bind (ih hσ (H.expr_part htarget (by simp [Expr.parts]))) fun p σ₁ hσ₁ _ hp =>
      H.pure hσ₁ ⟨hp.1, fun s hs => ?_⟩
    rcases List.mem_append.1 hs with hs | hs
    · exact hp.2 s hs
    · obtain ⟨name, -, rfl⟩ := List.mem_map.1 hs
      trivial
  | case5 e hvar hparen hindex hmember =>
    cases e with
    | var id => exact (hvar id rfl).elim
    | paren inner span => exact (hparen inner span rfl).elim
    | index base key span => exact (hindex base key span rfl).elim
    | member base names span => exact (hmember base names span rfl).elim
    | _ => exact H.fault hσ fun h => by cases h

omit H h in
theorem gives_updated {old rhs : Value} {steps : List Step} {proper : Prop} {Q : Closure → Prop}
    (op : Option BinaryOp) (span : Span) (hold : old.Sane proper Q)
    (hsteps : ∀ s ∈ steps, s.Sane proper Q) (hrhs : rhs.Sane proper Q) :
    Gives (Value.Sane proper Q) (Runner.updated old steps op rhs span) := by
  have hleaf : ∀ {leaf : Value}, leaf.Sane proper Q →
      Gives (Value.Sane proper Q) (old.replaceAlong steps leaf) := fun hl =>
    hold.gives_replaceAlong hsteps hl
  cases op with
  | none => exact hleaf hrhs
  | some op =>
    exact (hold.gives_along steps).bind fun x hx => (Value.gives_binary op span hx hrhs).bind
      fun leaf hl => hleaf hl

omit h in
/-- The right-hand side has been evaluated, and the variable is given its new value. -/
theorem reassign {σ₀ σ₁ : Config W} {target value : Expr} {op : Option BinaryOp} {l : List Stmt}
    {root : Ident} {owner : ScopeId} {b : Binding} {v : Value} (span : Span) (hσ₁ : D.Inv σ₁)
    (hσ : D.Ok σ) (hrest : D.Rest σ₀ (.assign target op value span :: l)) (hsub : D.Sub σ₀ σ₁)
    (hsub' : D.Sub σ₁ σ) (hroot : target.root? = some root)
    (hfind : σ₁.machine.arena.find? σ₁.machine.current root.text = some (owner, b))
    (hconst : b.isConst = false) (hv : D.V σ v) :
    D.Does .stmt (Runner.reassign root v span) (Runner.reassign root v span) σ
      fun _ σ' => D.Rest σ' l := by
  cases hassign : σ.machine.arena.assign σ.machine.current root.text v with
  | ok arena =>
    obtain ⟨w, hinv, hrun, hrest'⟩ :=
      H.assign_old hσ₁ hσ.inv hrest hsub hsub' hroot hfind hconst hv hassign
    have heval : Runner.reassign root v span σ.machine = .ok () { σ.machine with arena } := by
      rw [Runner.reassign, hassign]
    have hmono : ∀ v, D.V σ v → D.V ⟨w, { σ.machine with arena }⟩ v := fun v hv =>
      H.value_mono (k := .stmt) hrun hv
    obtain ⟨o, old, -, rfl⟩ := Arena.assign_eq_ok hassign
    exact does_of_ok w heval heval ⟨hinv, (hσ.stored.arena.mono hmono).define _ _ (hmono v hv),
      hσ.stored.registry.mono hmono⟩ hrun hrest'
  | error e =>
    have hlenient := H.assign_lost hσ₁ hσ.inv hrest hsub hsub' hroot hfind hconst hassign
    have heval : Runner.reassign root v span σ.machine =
        .error (.fault (.notReassignable root.text span)) σ.machine := by
      rw [Runner.reassign, hassign]
    exact does_of_error σ.known heval heval (.inl hlenient) hσ (H.after_refl .stmt σ)

omit H h in
/-- The variable is found and is not constant, or it is to be made. -/
theorem assigned_eq_ok {m : Machine} {root : Ident} {steps : List Step} {op : Option BinaryOp}
    {span : Span} {old : Option Value} (h : Runner.assigned m root steps op span = .ok old) :
    (∃ owner b, m.arena.find? m.current root.text = some (owner, b) ∧ b.isConst = false ∧
      old = some b.value) ∨ m.arena.find? m.current root.text = none ∧ old = none := by
  rw [Runner.assigned] at h
  split at h
  next owner b hfind =>
    split at h
    · cases h
    next hconst =>
      cases h
      exact .inl ⟨owner, b, hfind, by simpa using hconst, rfl⟩
  next hfind =>
    split at h <;> cases h
    exact .inr ⟨hfind, rfl⟩

omit H h in
theorem assigned_eq_error {m : Machine} {root : Ident} {steps : List Step} {op : Option BinaryOp}
    {span : Span} {f : Fault} (h : Runner.assigned m root steps op span = .error f) :
    (∃ owner b, m.arena.find? m.current root.text = some (owner, b) ∧ b.isConst = true) ∨
      f.kind ≠ .constReassignment := by
  rw [Runner.assigned] at h
  split at h
  next owner b hfind =>
    split at h
    next hconst => exact .inl ⟨owner, b, hfind, hconst⟩
    · cases h
  next =>
    split at h <;> cases h
    exact .inr nofun

theorem assign {target value : Expr} {op : Option BinaryOp} {span : Span} {l : List Stmt}
    (hσ : D.Ok σ) (hrest : D.Rest σ (.assign target op value span :: l)) :
    D.Does .stmt (r.assign target op value span) (r'.assign target op value span) σ
      fun _ σ' => D.Rest σ' l := by
  have htarget : D.Term σ target := H.rest_expr hrest (H.sub_refl σ) (by simp [Stmt.exprs])
  refine H.bind (H.stmt_of_expr (H.place h target hσ htarget)) fun p σ₁ hσ₁ _ hp => ?_
  obtain ⟨root, steps⟩ := p
  obtain ⟨hsub₁, hroot, hsteps⟩ := hp
  have hvalue : D.Term σ₁ value := H.rest_expr hrest hsub₁ (by simp [Stmt.exprs])
  refine H.bind (H.ask hσ₁ fun f hf => ?_) fun old σ₁ hσ₁' _ hold => ?_
  · obtain ⟨owner, b, hfind, hconst⟩ | hkind := assigned_eq_error hf
    · exact .inl (H.assign_const hσ₁.inv hrest hsub₁ hroot hfind hconst)
    · exact fine_of_kind hkind
  obtain ⟨hassigned, rfl⟩ := hold
  refine H.bind (H.stmt_of_expr (h.expr hσ₁' hvalue)) fun rhs σ₂ hσ₂ _ hrhs => ?_
  obtain ⟨hsub₂, hrhs⟩ := hrhs
  obtain ⟨owner, b, hfind, hconst, rfl⟩ | ⟨hfind, rfl⟩ := assigned_eq_ok hassigned
  · have hb : D.V σ₁ b.value := hσ₁.stored.arena.local? (Arena.local?_of_findFrom hfind)
    have hsteps₂ : ∀ s ∈ steps, s.Sane D.proper (D.Fn σ₂) := by
      intro s hs
      have hstep := hsteps s hs
      cases s with
      | index key span => exact H.value_mono (k := .expr) hsub₂ hstep
      | field name => trivial
    refine H.bind (H.of hσ₂ (gives_updated op span (H.value_mono (k := .expr) hsub₂ hb) hsteps₂ hrhs))
      fun v σ₃ hσ₃ _ hv => ?_
    obtain ⟨hv, rfl⟩ := hv
    exact H.reassign span hσ₁.inv hσ₃ hrest hsub₁ hsub₂ hroot hfind hconst hv
  · obtain ⟨w, hinv, hrun, hrest'⟩ := H.assign_new hσ₁.inv hσ₂.inv hrest hsub₁ hsub₂ hroot hfind hrhs
    exact does_of_ok w rfl rfl (H.ok_bind hσ₂ hrhs hinv hrun) hrun hrest'

theorem defineVar {name : Ident} {type : Option TypeExpr} {isConst isPub : Bool} {value : Expr}
    {span : Span} {l : List Stmt} (hσ : D.Ok σ)
    (hrest : D.Rest σ (.var name type isConst isPub value span :: l)) :
    D.Does .stmt (r.defineVar name isConst isPub value span)
      (r'.defineVar name isConst isPub value span) σ fun _ σ' => D.Rest σ' l := by
  have hget : ∀ r : Runner, r.defineVar name isConst isPub value span σ.machine =
      (if (σ.machine.arena.local? σ.machine.current name.text).any (·.isConst) then
        Eval.fault (.constRedefined name.text span)
      else r.expr value >>= fun v => modify fun m => m.bind name.text ⟨v, isConst, isPub⟩ : Eval Unit)
      σ.machine := fun _ => rfl
  refine Does.congr ?_ (hget r).symm (hget r').symm
  split
  next hany =>
    obtain ⟨b, hb, hconst⟩ := (Option.any_eq_true _ _).1 hany
    exact H.throw hσ (.inl (H.var_const hσ.inv hrest hb hconst))
  next hany =>
    have hnone : ∀ b, σ.machine.arena.local? σ.machine.current name.text = some b →
        b.isConst = false := by
      intro b hb
      rw [hb] at hany
      simpa using hany
    have hvalue : D.Term σ value := H.rest_expr hrest (H.sub_refl σ) (by simp [Stmt.exprs])
    refine H.bind (H.stmt_of_expr (h.expr hσ hvalue)) fun v σ₁ hσ₁ _ hv => ?_
    obtain ⟨w, hinv, hrun, hrest'⟩ := H.var_bind hσ.inv hrest hnone hv.1 hσ₁.inv hv.2
    exact does_of_ok (a := ()) w rfl rfl (H.ok_bind hσ₁ hv.2 hinv hrun) hrun hrest'

omit h in
theorem runUse {source : Ident} {names : Option (List Ident)} {span : Span} {l : List Stmt}
    (hσ : D.Ok σ) (hrest : D.Rest σ (.use source names span :: l)) :
    D.Does .stmt (Runner.runUse source names span) (Runner.runUse source names span) σ
      fun _ σ' => D.Rest σ' l := by
  have hgives := hσ.stored.gives_imports source names span
  refine H.bind (H.ask hσ fun f hf => ?_) fun found σ' hσ' _ hfound => ?_
  · rw [hf] at hgives
    exact fine_of_kind hgives
  obtain ⟨hfound, rfl⟩ := hfound
  rw [hfound] at hgives
  obtain ⟨w, hinv, hrun, hrest'⟩ := H.use hσ.inv hrest hfound hgives
  have hmono : ∀ v, D.V σ' v → D.V ⟨w, σ'.machine.defineAll found⟩ v := fun v hv =>
    H.value_mono (k := .stmt) hrun hv
  obtain ⟨harena, hregistry, -⟩ := arena_defineAll (hσ.stored.arena.mono hmono)
    fun b hb => hmono _ (hgives b hb)
  refine does_of_ok w (forM_define_eq found _) (forM_define_eq found _) ⟨hinv, harena, ?_⟩ hrun hrest'
  rw [hregistry]
  exact hσ.stored.registry.mono hmono

/-! ### Statements -/

theorem condition {e : Expr} (hσ : D.Ok σ) (he : D.Term σ e) :
    D.Does .expr (r.condition e) (r'.condition e) σ fun _ _ => True := by
  refine H.bind (h.expr hσ he) fun v σ' hσ' _ _ => ?_
  cases v with
  | bool b => exact H.pure hσ' trivial
  | _ => exact H.fault hσ' nofun

omit h in
/-- The names of a match are bound in a new scope, and then `x` runs in it. -/
theorem matched {pat : Pattern} {body : ArmBody} {v : Value} {bs : List (String × Value)}
    {x y x₁ y₁ : Eval Flow} (span : Span) (hσ : D.Ok σ)
    (hbody : D.Body σ σ.machine.current (.arm pat body)) (hv : D.V σ v)
    (hbs : pat.bindings? σ.machine.registry.adts v = some bs)
    (hx : x₁ (σ.machine.enter σ.machine.current) =
      (Runner.bindNames [] span bs >>= fun _ => x) (σ.machine.enter σ.machine.current))
    (hy : y₁ (σ.machine.enter σ.machine.current) =
      (Runner.bindNames [] span bs >>= fun _ => y) (σ.machine.enter σ.machine.current))
    (hrun : ∀ σ', D.Ok σ' → D.Starts σ' (.arm pat body) →
      D.Does .stmt x y σ' fun flow σ' => ∀ v ∈ flow.values, D.V σ' v) :
    D.Does .expr (Eval.inBlock x₁) (Eval.inBlock y₁) σ
      fun flow σ' => ∀ v ∈ flow.values, D.V σ' v := by
  have hall : ∀ b ∈ bs, D.V σ b.2 := Pattern.allSane_bindings? pat hv hbs
  obtain hok | ⟨bs', name, hsub, herror⟩ :=
    bindNames_eq [] span bs (σ.machine.enter σ.machine.current)
  · exact H.inBlock bs Flow.values hσ hbody hall (hx.trans (Eval.bind_of_ok hok))
      (hy.trans (Eval.bind_of_ok hok)) fun σ' hσ' hstarts _ => hrun σ' hσ' (hstarts ⟨v, hbs⟩)
  · exact H.inBlock (x := Eval.fault (.boundTwice name span))
      (y := Eval.fault (.boundTwice name span)) bs' Flow.values hσ hbody
      (fun b hb => hall b (hsub hb)) (hx.trans (Eval.bind_of_error herror))
      (hy.trans (Eval.bind_of_error herror)) fun σ' hσ' _ _ => H.fault hσ' nofun

theorem runRound {pat : Pattern} {body : Block} {item : Value} (span : Span) (hσ : D.Ok σ)
    (hbody : D.Body σ σ.machine.current (.arm pat (.block body))) (hitem : D.V σ item) :
    D.Does .expr (r.runRound pat body span item) (r'.runRound pat body span item) σ
      fun flow σ' => ∀ v ∈ flow.values, D.V σ' v := by
  rw [Runner.runRound, Runner.runRound]
  -- the pattern is matched in the new scope, against the types there were outside
  cases hbs : pat.bindings? (σ.machine.enter σ.machine.current).registry.adts item with
  | some bs =>
    exact H.matched pat.span hσ hbody hitem hbs (Eval.bind_of_ok (by simp only [Eval.query, hbs, Eval.of]))
      (Eval.bind_of_ok (by simp only [Eval.query, hbs, Eval.of])) fun σ' hσ' hstarts => H.runStmts h hσ' hstarts
  | none =>
    exact H.inBlock (x := Eval.fault (.elementMismatch item span))
      (y := Eval.fault (.elementMismatch item span)) [] Flow.values hσ hbody (List.forall_mem_nil _)
      (Eval.bind_of_error (by simp only [Eval.query, hbs, Eval.of]; rfl))
      (Eval.bind_of_error (by simp only [Eval.query, hbs, Eval.of]; rfl))
      fun σ' hσ' _ _ => H.fault hσ' fun h => by cases h

theorem runFor {pat : Pattern} {body : Block} {span : Span} (items : List Value) (hσ : D.Ok σ)
    (hbody : ∀ σ', D.Sub σ σ' → D.Body σ' σ'.machine.current (.arm pat (.block body)))
    (hitems : ∀ v ∈ items, D.V σ v) :
    D.Does .expr (r.runFor pat body span items) (r'.runFor pat body span items) σ
      fun flow σ' => ∀ v ∈ flow.values, D.V σ' v := by
  induction items generalizing σ with
  | nil => exact H.pure hσ (List.forall_mem_singleton.2 (Value.sane_atom rfl fun _ => trivial))
  | cons item items ih =>
    refine H.bind (H.runRound h span hσ (hbody σ (H.sub_refl σ)) (hitems item List.mem_cons_self))
      fun flow σ₁ hσ₁ hsub hflow => ?_
    have hnext := ih hσ₁ (fun σ' hsub' => hbody σ' (H.sub_trans hsub hsub'))
      (H.values_mono hsub fun v hv => hitems v (List.mem_cons_of_mem _ hv))
    cases flow with
    | value v => exact hnext
    | next s => exact hnext
    | leave s => exact H.pure hσ₁ (List.forall_mem_singleton.2 (Value.sane_atom rfl fun _ => trivial))
    | ret v s => exact H.pure hσ₁ hflow

theorem runWhile {test : Expr} {body : Block} (rounds : Nat) (hσ : D.Ok σ)
    (htest : ∀ σ', D.Sub σ σ' → D.Term σ' test)
    (hbody : ∀ σ', D.Sub σ σ' → D.Body σ' σ'.machine.current (.block body.stmts)) :
    D.Does .expr (r.runWhile test body rounds) (r'.runWhile test body rounds) σ
      fun flow σ' => ∀ v ∈ flow.values, D.V σ' v := by
  have hunit : ∀ {σ'}, D.Ok σ' → D.Does .expr (Pure.pure (Flow.value .unit))
      (Pure.pure (Flow.value .unit)) σ' fun flow σ' => ∀ v ∈ flow.values, D.V σ' v := fun hσ' =>
    H.pure hσ' (List.forall_mem_singleton.2 (Value.sane_atom rfl fun _ => trivial))
  induction rounds generalizing σ with
  | zero => exact H.throw hσ (.inr nofun)
  | succ rounds ih =>
    refine H.bind (H.condition h hσ (htest σ (H.sub_refl σ))) fun b σ₁ hσ₁ hsub₁ _ => ?_
    cases b with
    | false => exact hunit hσ₁
    | true =>
      refine H.bind (H.runBlock h hσ₁ (hbody σ₁ hsub₁)) fun flow σ₂ hσ₂ hsub₂ hflow => ?_
      have hnext := ih hσ₂ (fun σ' hsub => htest σ' (H.sub_trans hsub₁ (H.sub_trans hsub₂ hsub)))
        fun σ' hsub => hbody σ' (H.sub_trans hsub₁ (H.sub_trans hsub₂ hsub))
      cases flow with
      | value v => exact hnext
      | next s => exact hnext
      | leave s => exact hunit hσ₂
      | ret v s => exact H.pure hσ₂ hflow

theorem runCond {otherwise : Option Block} (branches : List (Expr × Block)) (hσ : D.Ok σ)
    (htests : ∀ σ', D.Sub σ σ' → ∀ p ∈ branches, D.Term σ' p.1)
    (hbodies : ∀ σ', D.Sub σ σ' → ∀ p ∈ branches,
      D.Body σ' σ'.machine.current (.block p.2.stmts))
    (hlast : ∀ σ', D.Sub σ σ' → ∀ b ∈ otherwise, D.Body σ' σ'.machine.current (.block b.stmts)) :
    D.Does .expr (r.runCond otherwise branches) (r'.runCond otherwise branches) σ
      fun flow σ' => ∀ v ∈ flow.values, D.V σ' v := by
  induction branches generalizing σ with
  | nil =>
    cases otherwise with
    | none => exact H.pure hσ (List.forall_mem_singleton.2 (Value.sane_atom rfl fun _ => trivial))
    | some b => exact H.runBlock h hσ (hlast σ (H.sub_refl σ) b rfl)
  | cons p branches ih =>
    refine H.bind (H.condition h hσ (htests σ (H.sub_refl σ) p List.mem_cons_self))
      fun b σ₁ hσ₁ hsub₁ _ => ?_
    cases b with
    | true => exact H.runBlock h hσ₁ (hbodies σ₁ hsub₁ p List.mem_cons_self)
    | false =>
      exact ih hσ₁
        (fun σ' hsub q hq => htests σ' (H.sub_trans hsub₁ hsub) q (List.mem_cons_of_mem _ hq))
        (fun σ' hsub q hq => hbodies σ' (H.sub_trans hsub₁ hsub) q (List.mem_cons_of_mem _ hq))
        fun σ' hsub b hb => hlast σ' (H.sub_trans hsub₁ hsub) b hb

theorem runArm {arm : MatchArm} {v : Value} {bs : List (String × Value)} (hσ : D.Ok σ)
    (hbody : D.Body σ σ.machine.current (.arm arm.pat arm.body)) (hv : D.V σ v)
    (hbs : arm.pat.bindings? σ.machine.registry.adts v = some bs) :
    D.Does .expr (r.runArm bs arm) (r'.runArm bs arm) σ
      fun flow σ' => ∀ v ∈ flow.values, D.V σ' v := by
  refine H.matched arm.pat.span hσ hbody hv hbs rfl rfl fun σ' hσ' hstarts => ?_
  split
  next e hexpr =>
    rw [hexpr] at hstarts
    refine H.bind (H.stmt_of_expr (h.expr hσ' hstarts)) fun v σ₁ hσ₁ _ hv => H.pure hσ₁ ?_
    exact List.forall_mem_singleton.2 hv.2
  next b hblock =>
    rw [hblock] at hstarts
    exact H.runStmts h hσ' hstarts

theorem runSelect {scrutinee : Expr} {arms : List MatchArm} (span : Span) (hσ : D.Ok σ)
    (hscrutinee : D.Term σ scrutinee)
    (harms : ∀ σ', D.Sub σ σ' → ∀ arm ∈ arms,
      D.Body σ' σ'.machine.current (.arm arm.pat arm.body)) :
    D.Does .expr (r.runSelect scrutinee arms span) (r'.runSelect scrutinee arms span) σ
      fun flow σ' => ∀ v ∈ flow.values, D.V σ' v := by
  refine H.bind (h.expr hσ hscrutinee) fun v σ₁ hσ₁ hsub hv => ?_
  refine H.bind (H.query hσ₁ (Machine.gives_firstMatch hv arms span)) fun p σ₂ hσ₂ _ hp => ?_
  obtain ⟨⟨-, harm, hbs⟩, rfl⟩ := hp
  exact H.runArm h hσ₂ (harms σ₂ hsub p.2 harm) hv hbs

omit h in
theorem moduleValue {flow : Flow} {k : Extent} (hσ : D.Ok σ) (hflow : ∀ v ∈ flow.values, D.V σ v) :
    D.Does k (Runner.moduleValue flow) (Runner.moduleValue flow) σ fun v σ' => D.V σ' v := by
  cases flow with
  | value v => exact H.pure hσ (hflow v List.mem_cons_self)
  | ret v span => exact H.fault hσ nofun
  | leave span => exact H.fault hσ nofun
  | next span => exact H.fault hσ nofun

theorem runSubmodule {name : Ident} {body : Block} (hσ : D.Ok σ) (hmod : D.Mod σ body.stmts) :
    D.Does .expr (r.runSubmodule name body) (r'.runSubmodule name body) σ fun _ _ => True :=
  H.bind (H.inModule Flow.values hσ hmod fun _ hσ' hdecl => H.runStmts h hσ' hdecl)
    fun _ _ hσ' _ hflow => H.bind (H.moduleValue hσ' hflow) fun _ _ hσ'' _ _ => H.pure hσ'' trivial

theorem runModule {md : Module} (hσ : D.Ok σ) (hmod : D.Mod σ md.body.stmts) :
    D.Does .expr (r.runModule md) (r'.runModule md) σ fun v σ' => D.V σ' v := by
  refine (H.inModule (fun v => [v]) hσ hmod fun σ' hσ' hdecl => ?_).mono
    fun v σ' _ _ hv => hv v List.mem_cons_self
  refine H.bind (H.runStmts h hσ' hdecl) fun flow σ₁ hσ₁ _ hflow => ?_
  refine H.bind (H.moduleValue hσ₁ hflow) fun last σ₂ hσ₂ _ hlast => ?_
  have hget : ∀ (f : Machine → Eval Value) (m : Machine), (get >>= f) m = f m m := fun _ _ => rfl
  refine Does.congr ?_ (hget _ _).symm (hget _ _).symm
  split
  next c hmain =>
    have hc := (hσ₂.stored.mainFn? hmain).1
    exact (H.stmt_of_expr (H.callFn h md.span hσ₂ hc.self (List.forall_mem_nil _))).mono
      fun v σ' _ _ hv => List.forall_mem_singleton.2 hv.2
  next => exact H.pure hσ₂ (List.forall_mem_singleton.2 hlast)

theorem stmtRule {s : Stmt} {l : List Stmt} (hσ : D.Ok σ) (hrest : D.Rest σ (s :: l)) :
    D.Does .stmt (r.stmtRule s) (r'.stmtRule s) σ fun flow σ' => D.Flows σ' l flow := by
  -- a statement that binds nothing leaves what follows it as it was
  have hpass : s.binds = false → D.Does .expr (r.stmtRule s) (r'.stmtRule s) σ
      (fun flow σ' => ∀ v ∈ flow.values, D.V σ' v) →
      D.Does .stmt (r.stmtRule s) (r'.stmtRule s) σ fun flow σ' => D.Flows σ' l flow :=
    fun hbinds hdoes => (H.stmt_of_expr hdoes).mono fun flow σ' _ _ hflow =>
      ⟨hflow.2, fun _ _ => H.rest_pass hrest hflow.1 hbinds⟩
  have hunit : ∀ {x y : Eval Unit}, D.Does .stmt x y σ (fun _ σ' => D.Rest σ' l) →
      D.Does .stmt (x >>= fun _ => Pure.pure (Flow.value .unit))
        (y >>= fun _ => Pure.pure (Flow.value .unit)) σ fun flow σ' => D.Flows σ' l flow :=
    fun hdoes => H.bind hdoes fun _ σ' hσ' _ hrest' => H.pure hσ'
      ⟨List.forall_mem_singleton.2 (Value.sane_atom rfl fun _ => trivial), fun _ _ => hrest'⟩
  have hdone : ∀ {σ'}, D.Ok σ' → D.Does .expr (Pure.pure (Flow.value .unit))
      (Pure.pure (Flow.value .unit)) σ' fun flow σ' => ∀ v ∈ flow.values, D.V σ' v := fun hσ' =>
    H.pure hσ' (List.forall_mem_singleton.2 (Value.sane_atom rfl fun _ => trivial))
  cases s with
  | var name type isConst isPub value span => exact hunit (H.defineVar h hσ hrest)
  | assign target op value span => exact hunit (H.assign h hσ hrest)
  | use source names span => exact hunit (H.runUse hσ hrest)
  | fn d => exact hpass rfl (hdone hσ)
  | struct d => exact hpass rfl (hdone hσ)
  | enum d => exact hpass rfl (hdone hσ)
  | typeclass d => exact hpass rfl (hdone hσ)
  | impl d => exact hpass rfl (hdone hσ)
  | forIn pat iter body span =>
    refine hpass rfl ?_
    have hiter : D.Term σ iter := H.rest_expr hrest (H.sub_refl σ) (by simp [Stmt.exprs])
    refine H.bind (h.expr hσ hiter) fun v σ₁ hσ₁ hsub₁ hv => ?_
    refine H.bind (H.of hσ₁ (hv.gives_items iter.span)) fun items σ₂ hσ₂ _ hitems => ?_
    obtain ⟨hitems, rfl⟩ := hitems
    have harm : (pat, .block body) ∈ (Stmt.forIn pat iter body span).arms := by simp [Stmt.arms]
    exact H.runFor h items hσ₂ (fun σ' hsub => H.rest_arm hrest (H.sub_trans hsub₁ hsub) harm) hitems
  | cond branches otherwise span =>
    refine hpass rfl (H.runCond h branches hσ (fun σ' hsub p hp => ?_) (fun σ' hsub p hp => ?_)
      fun σ' hsub b hb => ?_)
    · exact H.rest_expr hrest hsub (List.mem_map_of_mem hp)
    · exact H.rest_block hrest hsub (List.mem_append_left _ (List.mem_map_of_mem hp))
    · exact H.rest_block hrest hsub (List.mem_append_right _ (Option.mem_toList.2 hb))
  | loop test body span =>
    refine hpass rfl ?_
    have hloop := H.runWhile h r.rounds hσ (fun σ' hsub => H.rest_expr hrest (e := test) hsub
      (by simp [Stmt.exprs])) fun σ' hsub => H.rest_block hrest (b := body) hsub
      (by simp [Stmt.blocks])
    rw [Runner.stmtRule, Runner.stmtRule, ← h.rounds]
    exact hloop
  | select scrutinee arms span =>
    refine hpass rfl (H.runSelect h span hσ (H.rest_expr hrest (H.sub_refl σ) (by simp [Stmt.exprs]))
      fun σ' hsub arm harm => ?_)
    exact H.rest_arm hrest hsub (List.mem_map_of_mem harm)
  | submodule name body span =>
    exact hpass rfl (H.bind (H.runSubmodule h hσ (H.rest_module hrest)) fun _ _ hσ' _ _ => hdone hσ')
  | ret value span =>
    cases value with
    | none => exact hpass rfl (H.pure hσ (List.forall_mem_singleton.2
        (Value.sane_atom rfl fun _ => trivial)))
    | some e =>
      have he : D.Term σ e := H.rest_expr hrest (H.sub_refl σ) (by simp [Stmt.exprs])
      exact hpass rfl (H.bind (h.expr hσ he) fun v σ' hσ' _ hv =>
        H.pure hσ' (List.forall_mem_singleton.2 hv))
  | leave span => exact hpass rfl (H.pure hσ (List.forall_mem_nil _))
  | next span => exact hpass rfl (H.pure hσ (List.forall_mem_nil _))
  | expr e span =>
    have he : D.Term σ e := H.rest_expr hrest (H.sub_refl σ) (by simp [Stmt.exprs])
    exact hpass rfl (H.bind (h.expr hσ he) fun v σ' hσ' _ hv =>
      H.pure hσ' (List.forall_mem_singleton.2 hv))

end Lawful

end Discipline

/-! ### Runs -/

/-- Run a job; its value ends it as that of a statement would. -/
def Job.run (r : Runner) : Job → Eval Flow
  | expr e => do return .value (← r.expr e)
  | stmt s => r.stmt s
  | call f args span => do return .value (← r.call f args span)
  | body c args span => do return .value (← r.body c args span)

def Job.values : Job → List Value
  | call f args _ => f :: args
  | body c args _ => .fn c :: args
  | _ => []

inductive Machine.ReachableBy (X : Entry → Prop) : Machine → Prop where
  | start (args : List String) (maxDepth : Nat) (w : World) : ReachableBy X (.start args maxDepth w)
  | after {m : Machine} {x : Entry} (fuel : Nat) :
    X x → ReachableBy X m → ReachableBy X ((x.run (.ofFuel fuel)).after m)
  | during {m m' : Machine} {x : Entry} (fuel : Nat) :
    X x → ReachableBy X m → Meets (fun _ m₁ => m₁ = m') (Entry.run · x) fuel m → ReachableBy X m'

theorem Machine.Reachable.reachableBy {m : Machine} (hm : m.Reachable) :
    m.ReachableBy fun _ => True := by
  induction hm with
  | start args maxDepth w => exact .start args maxDepth w
  | after x n _ ih => exact .after n trivial ih
  | during x n _ hmeets ih => exact .during n trivial ih hmeets

/-- The job begins in the state `m'` at some point of the run from `m`. -/
def Begins {α : Type} (j : Job) (m' : Machine) (run : Runner → Eval α) (fuel : Nat) (m : Machine) :
    Prop := Meets (fun j' m₁ => j' = j ∧ m₁ = m') run fuel m

namespace Discipline

def Ready (D : Discipline W) (σ : Config W) : Job → Prop
  | .expr e => D.Term σ e
  | .stmt s => ∃ l, D.Rest σ (s :: l)
  | .call f args _ => D.V σ f ∧ ∀ v ∈ args, D.V σ v
  | .body c args _ => D.Fn σ c ∧ (∀ v ∈ args, D.V σ v) ∧
    ∀ b, c.body = .block b → args.length = c.params.length

def Admits (D : Discipline W) (σ : Config W) : Entry → Prop
  | .expr e => D.Term σ e
  | .module md => D.Mod σ md.body.stmts

theorem Does.ok_after {α : Type} {k : Extent} {x y : Eval α}
    {Q : α → Config W → Prop} (h : D.Does k x y σ Q) :
    ∃ w, D.Ok ⟨w, y.after σ.machine⟩ ∧ D.After k σ ⟨w, y.after σ.machine⟩ := by
  obtain ⟨-, hend⟩ := h
  cases hy : y σ.machine with
  | ok a m =>
    rw [hy] at hend
    obtain ⟨w, hok, hafter, -⟩ := hend
    rw [Eval.after_of_ok hy]
    exact ⟨w, hok, hafter⟩
  | error i m =>
    rw [hy] at hend
    obtain ⟨-, w, hok, hafter⟩ := hend
    rw [Eval.after_of_error hy]
    exact ⟨w, hok, hafter⟩

namespace Lawful

variable (H : D.Lawful) {P : Job → Machine → Prop} {j : Job} {x : Entry} {n : Nat}

include H

theorem obeys_zero : D.Obeys (.ofFuel 0) (.ofFuel 0) :=
  ⟨fun hσ _ => H.throw hσ (.inr nofun), fun hσ _ => H.throw hσ (.inr nofun),
    fun _ hσ _ _ => H.throw hσ (.inr nofun), fun _ hσ _ _ _ => H.throw hσ (.inr nofun), rfl⟩

/-- A watch for something that the discipline gives does not stop a run. -/
theorem obeys_ofFuel (hP : ∀ j σ, D.Ok σ → D.Ready σ j → P j σ.machine) (i : Interrupt) (n : Nat) :
    D.Obeys (.watched P i n) (.ofFuel n) := by
  have hwatched : ∀ {α : Type} {σ : Config W} {j : Job} {k : Extent} {x y : Eval α}
      {Q : α → Config W → Prop}, D.Ok σ → D.Ready σ j → D.Does k x y σ Q →
      D.Does k (Eval.watched P i j x) y σ Q := fun hσ hj hx =>
    hx.congr (if_pos (hP _ _ hσ hj)).symm rfl
  induction n with
  | zero => exact H.obeys_zero
  | succ n ih =>
    exact ⟨fun hσ he => hwatched hσ he (H.exprRule ih hσ he),
      fun hσ hrest => hwatched hσ ⟨_, hrest⟩ (H.stmtRule ih hσ hrest),
      fun span hσ hf hargs => hwatched hσ ⟨hf, hargs⟩ (H.callRule ih span hσ hf hargs),
      fun span hσ hc hargs hlen => hwatched hσ ⟨hc, hargs, hlen⟩ (H.bodyRule ih span hσ hc hargs hlen),
      rfl⟩

theorem job (h : D.Obeys r r') (hσ : D.Ok σ) (hj : D.Ready σ j) :
    D.Does .stmt (j.run r) (j.run r') σ fun flow σ' => ∀ v ∈ flow.values, D.V σ' v := by
  have hvalue : ∀ {x y : Eval Value}, D.Does .expr x y σ (fun v σ' => D.V σ' v) →
      D.Does .stmt (x >>= fun v => Pure.pure (Flow.value v)) (y >>= fun v => Pure.pure (Flow.value v)) σ
        fun flow σ' => ∀ v ∈ flow.values, D.V σ' v := fun hx =>
    H.bind (H.stmt_of_expr hx) fun v σ' hσ' _ hv => H.pure hσ' (List.forall_mem_singleton.2 hv.2)
  cases j with
  | expr e => exact hvalue (h.expr hσ hj)
  | stmt s =>
    obtain ⟨l, hrest⟩ := hj
    exact (h.stmt hσ hrest).mono fun flow σ' _ _ hflow => hflow.1
  | call f args span => exact hvalue (h.call span hσ hj.1 hj.2)
  | body c args span => exact hvalue (h.body span hσ hj.1 hj.2.1 hj.2.2)

theorem entry (h : D.Obeys r r') (hσ : D.Ok σ) (hx : D.Admits σ x) :
    D.Does .expr (x.run r) (x.run r') σ fun v σ' => D.V σ' v := by
  cases x with
  | expr e => exact h.expr hσ hx
  | module md => exact H.runModule h hσ hx

/-- What the discipline gives holds wherever a job begins. -/
theorem always (hP : ∀ j σ, D.Ok σ → D.Ready σ j → P j σ.machine) (n : Nat) (hσ : D.Ok σ)
    (hx : D.Admits σ x) : Always P (Entry.run · x) n σ.machine :=
  fun i => (H.entry (H.obeys_ofFuel hP i n) hσ hx).1

theorem always_job (hP : ∀ j σ, D.Ok σ → D.Ready σ j → P j σ.machine) (n : Nat) (hσ : D.Ok σ)
    (hj : D.Ready σ j) : Always P (Job.run · j) n σ.machine :=
  fun i => (H.job (H.obeys_ofFuel hP i n) hσ hj).1

/-- A job that begins can be done. -/
theorem ready_of_begins {m : Machine} (hσ : D.Ok σ) (hx : D.Admits σ x)
    (hj : Begins j m (Entry.run · x) n σ.machine) : ∃ w, D.Ok ⟨w, m⟩ ∧ D.Ready ⟨w, m⟩ j := by
  refine Classical.byContradiction fun hnone => hj (H.always (fun j' σ' hσ' hready => ?_) n hσ hx)
  rintro ⟨rfl, rfl⟩
  exact hnone ⟨σ'.known, hσ', hready⟩

/-- The invariant holds in every state of a run, if all that is run is admitted. -/
theorem reachable {X : Entry → Prop} {m : Machine} (hadmits : ∀ x σ, X x → D.Ok σ → D.Admits σ x)
    (hstart : ∀ args maxDepth w, ∃ k, D.Ok ⟨k, .start args maxDepth w⟩) (hm : m.ReachableBy X) :
    ∃ k, D.Ok ⟨k, m⟩ := by
  induction hm with
  | start args maxDepth w => exact hstart args maxDepth w
  | @after m x n hx _ ih =>
    obtain ⟨k, hok⟩ := ih
    have hobeys := H.obeys_ofFuel (P := fun _ _ => True) (fun _ _ _ _ => trivial) .outOfFuel n
    obtain ⟨k', hok', -⟩ := (H.entry hobeys hok (hadmits x _ hx hok)).ok_after
    exact ⟨k', hok'⟩
  | @during m m' x n hx _ hmeets ih =>
    obtain ⟨k, hok⟩ := ih
    refine Classical.byContradiction fun hnone =>
      hmeets (H.always (fun _ σ' hσ' _ => ?_) n hok (hadmits x _ hx hok))
    rintro rfl
    exact hnone ⟨σ'.known, hσ'⟩

end Lawful

end Discipline

end Sluice
