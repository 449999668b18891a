import Sluice.Proofs.Eval.Watch

/-! What holds of every computation. A property of families of computations that each way in which
programs are put together respects holds of what a rule does with runners of which it holds, and then of
everything that can be run. Of a family of one it is a property of runs; families of several compare
them. -/
namespace Sluice

/-- The question is about names, types and methods only. -/
def Machine.Inward {α : Type} (q : Machine → Except Fault α) : Prop :=
  ∀ m world depth maxDepth, q { m with world, depth, maxDepth } = q m

variable {ι : Type} {P : {α : Type} → (ι → Eval α) → Prop} {α β : Type} {r : ι → Runner}

/-- `P` is respected by the ways in which the rules put computations together, apart from host calls and the
scopes of calls and modules. -/
structure Compositional (P : {α : Type} → (ι → Eval α) → Prop) : Prop where
  query : ∀ {α : Type} {q : Machine → Except Fault α}, Machine.Inward q → P fun _ => Eval.query q
  outOfFuel : ∀ {α : Type}, P fun _ => (throw .outOfFuel : Eval α)
  bind : ∀ {α β : Type} {x : ι → Eval α} {f : ι → α → Eval β}, P x → (∀ a, P fun i => f i a) →
    P fun i => x i >>= f i
  bindName : ∀ name b, P fun _ => modify (·.bind name b)
  makeFn : ∀ name params body, P fun _ => Eval.makeFn name params body
  reassign : ∀ root v span, P fun _ => Runner.reassign root v span
  register : ∀ span u, P fun _ => Eval.register span u
  declareAdt : ∀ a, P fun _ => Eval.declareAdt a
  inBlock : ∀ {α : Type} {x : ι → Eval α}, P x → P fun i => Eval.inBlock (x i)
  deeper : ∀ {α : Type} {x : ι → Eval α} (span : Span), P x → P fun i => Eval.deeper span (x i)

def Runner.moduleBody (r : Runner) (md : Module) : Eval Value := do
  let flow ← r.runStmts md.body.stmts
  let last ← Runner.moduleValue flow
  let main ← Eval.query fun m => .ok (m.mainFn? m.current)
  match main with
  | some c => r.callFn c [] md.span
  | none => pure last

theorem Runner.rounds_watched {Q : Job → Machine → Prop} {stop : Interrupt} (n : Nat) :
    (Runner.watched Q stop n).rounds = n - 1 := by cases n <;> rfl

structure Related (P : {α : Type} → (ι → Eval α) → Prop) (r : ι → Runner) : Prop where
  expr : ∀ e, P fun i => (r i).expr e
  stmt : ∀ s, P fun i => (r i).stmt s
  call : ∀ f args span, P fun i => (r i).call f args span
  body : ∀ c args span, P fun i => (r i).body c args span

theorem Machine.inward_members (base : Value) (names : List Ident) : Inward (·.members base names) := by
  intro m world depth maxDepth
  induction names generalizing base with
  | nil => rfl
  | cons name rest ih =>
    show (m.member base name >>= fun v => _) = (m.member base name >>= fun v => _)
    exact bind_congr fun v => ih v

namespace Compositional

variable (C : Compositional P)

include C

theorem of (x : Except Fault α) : P fun _ => Eval.of x :=
  C.query (q := fun _ => x) fun _ _ _ _ => rfl

theorem pure (a : α) : P fun _ => Pure.pure a := C.of (.ok a)

theorem fault (f : Fault) : P fun _ => (Eval.fault f : Eval α) := C.of (.error f)

theorem define (name : String) (v : Value) : P fun _ => Eval.define name v :=
  C.bindName name _

/-! ### Declarations -/

theorem forM {l : List β} {f : ι → β → Eval PUnit} (h : ∀ b, P fun i => f i b) :
    P fun i => l.forM (f i) := by
  induction l with
  | nil => exact C.pure _
  | cons b l ih => exact C.bind (h b) fun _ => ih

theorem mapM {l : List β} {f : ι → β → Eval α} (h : ∀ b, P fun i => f i b) :
    P fun i => l.mapM (f i) := by
  induction l with
  | nil => exact C.pure _
  | cons b l ih =>
    simp only [List.mapM_cons]
    exact C.bind (h b) fun _ => C.bind ih fun _ => C.pure _

theorem declareType (s : Stmt) : P fun _ => Eval.declareType s := by
  cases s with
  | typeclass d => exact C.bind (C.register _ _) fun _ => C.forM fun _ => C.bindName _ _
  | struct d => exact C.bind (C.declareAdt _) fun _ => C.bindName _ _
  | enum d => exact C.bind (C.forM fun _ => C.bindName _ _) fun _ => C.declareAdt _
  | _ => exact C.pure _

theorem makeNamedFn (d : FnDecl) : P fun _ => Eval.makeNamedFn d := C.makeFn _ _ _

theorem declareFn (s : Stmt) : P fun _ => Eval.declareFn s := by
  cases s with
  | fn d => exact C.bind (C.makeNamedFn d) fun _ => C.bindName _ _
  | _ => exact C.pure _

theorem declareImpl (s : Stmt) : P fun _ => Eval.declareImpl s := by
  cases s with
  | impl d =>
    refine C.bind (C.mapM fun f => ?_) fun _ => C.register _ _
    exact C.bind (C.makeNamedFn f) fun _ => C.pure _
  | _ => exact C.pure _

theorem checkDerives (s : Stmt) : P fun _ => Eval.checkDerives s := by
  cases s with
  | struct d =>
    rw [Eval.checkDerives]
    split
    · exact C.pure _
    · exact C.register _ _
  | enum d =>
    rw [Eval.checkDerives]
    split
    · exact C.pure _
    · exact C.register _ _
  | _ => exact C.pure _

theorem declare (stmts : List Stmt) : P fun _ => Eval.declare stmts :=
  C.bind (C.forM C.declareType) fun _ => C.bind (C.forM C.declareFn) fun _ =>
    C.bind (C.forM C.declareImpl) fun _ => C.forM C.checkDerives

variable (h : Related P r)

include h

/-! ### Calls -/

theorem runFrom (last : Value) (stmts : List Stmt) :
    P fun i => (r i).runFrom last stmts := by
  induction stmts generalizing last with
  | nil => exact C.pure _
  | cons s rest ih =>
    simp only [Runner.runFrom]
    split
    · exact ih _
    · refine C.bind (h.stmt s) fun flow => ?_
      cases flow with
      | value v => exact ih v
      | _ => exact C.pure _

theorem runStmts (stmts : List Stmt) : P fun i => (r i).runStmts stmts :=
  C.bind (C.declare stmts) fun _ => C.runFrom h _ stmts

theorem runBlock (b : Block) : P fun i => (r i).runBlock b :=
  C.inBlock (C.runStmts h b.stmts)

theorem exprs (es : List Expr) : P fun i => (r i).exprs es := by
  induction es with
  | nil => exact C.pure _
  | cons e rest ih => exact C.bind (h.expr e) fun _ => C.bind ih fun _ => C.pure _

theorem sendThrough (stages : List Expr) (acc : Value) :
    P fun i => (r i).sendThrough stages acc := by
  induction stages generalizing acc with
  | nil => exact C.pure _
  | cons stage rest ih =>
    simp only [Runner.sendThrough]
    split
    · exact C.bind (C.inBlock (C.bind (C.define _ _) fun _ => h.expr stage)) ih
    · exact C.bind (h.expr stage) fun f => C.bind (h.call f _ _) ih

theorem runStages (stages : List Expr) : P fun i => (r i).runStages stages := by
  cases stages with
  | nil => exact C.pure _
  | cons first rest => exact C.bind (h.expr first) fun seed => C.sendThrough h rest seed

theorem callStages (stages : List Expr) (args : List Value) (span : Span) :
    P fun i => (r i).callStages stages args span := by
  rcases args with _ | ⟨seed, _ | ⟨v, args⟩⟩
  · exact C.runStages h stages
  · exact C.sendThrough h stages seed
  · exact C.fault _

omit h in
theorem bindAll (names : List String) (vs : List Value) :
    P fun _ => Runner.bindAll names vs := by
  induction names generalizing vs with
  | nil => exact C.pure _
  | cons name names ih =>
    cases vs with
    | nil => exact C.pure _
    | cons v vs => exact C.bind (C.define name v) fun _ => ih vs

theorem runBody (params : List String) (args : List Value) (body : Block) :
    P fun i => (r i).runBody params args body := by
  refine C.bind (C.bindAll params args) fun _ => C.bind (C.runStmts h body.stmts) fun flow => ?_
  cases flow with
  | value v => exact C.pure _
  | ret v span => exact C.pure _
  | leave span => exact C.fault _
  | next span => exact C.fault _

/-- What a body runs, given what comes of the scope in which it does. -/
theorem bodyRule {Q : (ι → Eval Value) → Prop} (c : Closure) (args : List Value) (span : Span)
    (hscope : ∀ x : ι → Eval Value, P x → Q fun i => Eval.inScope c.scope (x i)) :
    Q fun i => (r i).bodyRule c args span := by
  simp only [Runner.bodyRule]
  split
  · exact hscope _ (C.runBody h _ _ _)
  · exact hscope _ (C.callStages h _ _ _)

theorem callFn (c : Closure) (args : List Value) (span : Span) :
    P fun i => (r i).callFn c args span := by
  simp only [Runner.callFn]
  split
  · split
    · exact C.deeper span (h.body c args span)
    · exact C.fault _
  · exact C.deeper span (h.body c args span)

/-- What a call runs, if it is of no host function. -/
theorem callRule (f : Value) (args : List Value) (span : Span) (hf : ∀ name, f ≠ .host name) :
    P fun i => (r i).callRule f args span := by
  cases f with
  | fn c => exact C.callFn h c args span
  | builtin b => exact C.of _
  | host name => exact absurd rfl (hf name)
  | constructor c => exact C.of _
  | method name => exact C.bind (C.query fun _ _ _ _ => rfl) fun f => h.call f args span
  | _ => exact C.fault _

theorem callExpr (callee : Expr) (args : List Expr) (span : Span) :
    P fun i => (r i).callExpr callee args span := by
  have hplain : ∀ callee : Expr, P fun i =>
      (r i).expr callee >>= fun f => (r i).exprs args >>= fun args => (r i).call f args span := fun callee =>
    C.bind (h.expr callee) fun f => C.bind (C.exprs h args) fun _ => h.call f _ span
  cases callee with
  | member base names memberSpan =>
    simp only [Runner.callExpr]
    split
    · exact C.bind (h.expr base) fun _ =>
        C.bind (C.query (Machine.inward_members _ _)) fun _ => C.bind (C.exprs h args) fun _ =>
          C.bind (C.query fun _ _ _ _ => rfl) fun _ => h.call _ _ _
    · exact hplain _
  | _ => exact hplain _

/-! ### Expressions -/

theorem truth (op : BinaryOp) (e : Expr) : P fun i => (r i).truth op e := by
  refine C.bind (h.expr e) fun v => ?_
  cases v with
  | bool b => exact C.pure _
  | _ => exact C.fault _

theorem binaryExpr (lhs : Expr) (op : BinaryOp) (rhs : Expr) (span : Span) :
    P fun i => (r i).binaryExpr lhs op rhs span := by
  have hstrict : P fun i =>
      (r i).expr lhs >>= fun a => (r i).expr rhs >>= fun b => Eval.of (Value.binary op a b span) :=
    C.bind (h.expr lhs) fun _ => C.bind (h.expr rhs) fun _ => C.of _
  cases op with
  | and =>
    refine C.bind (C.truth h _ lhs) fun b => ?_
    cases b with
    | true => exact C.bind (C.truth h _ rhs) fun _ => C.pure _
    | false => exact C.pure _
  | or =>
    refine C.bind (C.truth h _ lhs) fun b => ?_
    cases b with
    | true => exact C.pure _
    | false => exact C.bind (C.truth h _ rhs) fun _ => C.pure _
  | _ => exact hstrict

theorem rangeExpr (lo hi : Expr) (span : Span) :
    P fun i => (r i).rangeExpr lo hi span := by
  refine C.bind (h.expr lo) fun a => C.bind (h.expr hi) fun b => ?_
  split
  · exact C.pure _
  · exact C.fault _

theorem mapEntries (entries : List (Value × Value)) (es : List (Expr × Expr)) :
    P fun i => (r i).mapEntries entries es := by
  induction es generalizing entries with
  | nil => exact C.pure _
  | cons e rest ih => exact C.bind (h.expr e.1) fun _ => C.bind (h.expr e.2) fun _ => ih _

theorem exprRule (e : Expr) : P fun i => (r i).exprRule e := by
  cases e with
  | lit l span => exact C.pure _
  | var id => exact C.query fun _ _ _ _ => rfl
  | placeholder span => exact C.query fun _ _ _ _ => rfl
  | paren inner span => exact h.expr inner
  | index base key span =>
    exact C.bind (h.expr base) fun _ => C.bind (h.expr key) fun _ => C.of _
  | member base names span =>
    exact C.bind (h.expr base) fun _ => C.query (Machine.inward_members _ _)
  | unary op operand span => exact C.bind (h.expr operand) fun _ => C.of _
  | binary lhs op rhs span => exact C.binaryExpr h lhs op rhs span
  | call callee args span => exact C.callExpr h callee args span
  | list items span => exact C.bind (C.exprs h items) fun _ => C.pure _
  | tuple elems span => exact C.bind (C.exprs h elems) fun _ => C.pure _
  | range lo hi span => exact C.rangeExpr h lo hi span
  | map entries span => exact C.bind (C.mapEntries h [] entries) fun _ => C.pure _
  | lambda params ret body span => exact C.makeFn _ _ _
  | compose stages mode span =>
    cases mode with
    | deferred => exact C.makeFn _ _ _
    | immediate => exact C.runStages h stages

/-! ### Statements -/

omit h in
theorem bindNames (seen : List String) (span : Span) (bs : List (String × Value)) :
    P fun _ => Runner.bindNames seen span bs := by
  induction bs generalizing seen with
  | nil => exact C.pure _
  | cons b rest ih =>
    rw [Runner.bindNames]
    split
    · exact C.fault _
    · exact C.bind (C.define _ _) fun _ => ih _

theorem place (target : Expr) : P fun i => (r i).place target := by
  induction target using Runner.place.induct with
  | case1 id => exact C.pure _
  | case2 inner span ih => exact ih
  | case3 base key span ih =>
    exact C.bind ih fun _ => C.bind (h.expr key) fun _ => C.pure _
  | case4 base names span ih => exact C.bind ih fun _ => C.pure _
  | case5 e hvar hparen hindex hmember =>
    cases e with
    | var id => exact (hvar id rfl).elim
    | paren inner span => exact (hparen inner span rfl).elim
    | index base key span => exact (hindex base key span rfl).elim
    | member base names span => exact (hmember base names span rfl).elim
    | _ => exact C.fault _

theorem assignRule (target : Expr) (op : Option BinaryOp) (value : Expr) (span : Span) :
    P fun i => (r i).assign target op value span := by
  refine C.bind (C.place h target) fun p => C.bind (C.query fun _ _ _ _ => rfl) fun old =>
    C.bind (h.expr value) fun rhs => ?_
  cases old with
  | none => exact C.define _ _
  | some old => exact C.bind (C.of _) fun _ => C.reassign _ _ _

omit C h in
/-- Whether the name is a constant is the one thing that a definition asks of the state. -/
theorem defineVar_eq (r : Runner) (name : Ident) (isConst isPub : Bool) (value : Expr) (span : Span) :
    r.defineVar name isConst isPub value span =
      Eval.query (fun m => .ok ((m.arena.local? m.current name.text).any (·.isConst))) >>= fun const =>
        if const then Eval.fault (.constRedefined name.text span)
        else r.expr value >>= fun v => modify (·.bind name.text ⟨v, isConst, isPub⟩) := rfl

theorem defineVar (name : Ident) (isConst isPub : Bool) (value : Expr) (span : Span) :
    P fun i => (r i).defineVar name isConst isPub value span := by
  simp only [defineVar_eq]
  refine C.bind (C.query fun _ _ _ _ => rfl) fun const => ?_
  cases const with
  | true => exact C.fault _
  | false => exact C.bind (h.expr value) fun _ => C.bindName _ _

theorem condition (e : Expr) : P fun i => (r i).condition e := by
  refine C.bind (h.expr e) fun v => ?_
  cases v with
  | bool b => exact C.pure _
  | _ => exact C.fault _

theorem runRound (pat : Pattern) (body : Block) (span : Span) (item : Value) :
    P fun i => (r i).runRound pat body span item :=
  C.inBlock (C.bind (C.query fun _ _ _ _ => rfl) fun _ =>
    C.bind (C.bindNames _ _ _) fun _ => C.runStmts h _)

theorem runFor (pat : Pattern) (body : Block) (span : Span) (items : List Value) :
    P fun i => (r i).runFor pat body span items := by
  induction items with
  | nil => exact C.pure _
  | cons item rest ih =>
    refine C.bind (C.runRound h pat body span item) fun flow => ?_
    cases flow with
    | value v => exact ih
    | next s => exact ih
    | leave s => exact C.pure _
    | ret v s => exact C.pure _

theorem runWhile (test : Expr) (body : Block) (rounds : Nat) :
    P fun i => (r i).runWhile test body rounds := by
  induction rounds with
  | zero => exact C.outOfFuel
  | succ rounds ih =>
    refine C.bind (C.condition h test) fun b => ?_
    cases b with
    | false => exact C.pure _
    | true =>
      refine C.bind (C.runBlock h body) fun flow => ?_
      cases flow with
      | value v => exact ih
      | next s => exact ih
      | leave s => exact C.pure _
      | ret v s => exact C.pure _

theorem runCond (otherwise : Option Block) (branches : List (Expr × Block)) :
    P fun i => (r i).runCond otherwise branches := by
  induction branches with
  | nil =>
    cases otherwise with
    | none => exact C.pure _
    | some b => exact C.runBlock h b
  | cons branch rest ih =>
    refine C.bind (C.condition h branch.1) fun b => ?_
    cases b with
    | true => exact C.runBlock h branch.2
    | false => exact ih

theorem runArm (bindings : List (String × Value)) (arm : MatchArm) :
    P fun i => (r i).runArm bindings arm := by
  refine C.inBlock (C.bind (C.bindNames _ _ _) fun _ => ?_)
  split
  · exact C.bind (h.expr _) fun _ => C.pure _
  · exact C.runStmts h _

theorem runSelect (scrutinee : Expr) (arms : List MatchArm) (span : Span) :
    P fun i => (r i).runSelect scrutinee arms span :=
  C.bind (h.expr scrutinee) fun _ => C.bind (C.query fun _ _ _ _ => rfl) fun _ => C.runArm h _ _

omit h in
theorem runUse (source : Ident) (names : Option (List Ident)) (span : Span) :
    P fun _ => Runner.runUse source names span :=
  C.bind (C.query fun _ _ _ _ => rfl) fun _ => C.forM fun _ => C.define _ _

omit h in
theorem moduleValue (flow : Flow) : P fun _ => Runner.moduleValue flow := by
  cases flow with
  | value v => exact C.pure _
  | ret v span => exact C.fault _
  | leave span => exact C.fault _
  | next span => exact C.fault _

/-- Loops of runners with the same number of rounds. -/
theorem loops {n : Nat} (hn : ∀ i, (r i).rounds = n) (test : Expr) (body : Block) :
    P fun i => (r i).runWhile test body (r i).rounds := by
  simp only [hn]
  exact C.runWhile h test body n

/-- What a statement runs, if it opens no module. -/
theorem stmtRule (hloop : ∀ test body, P fun i => (r i).runWhile test body (r i).rounds) (s : Stmt)
    (hs : ∀ name body span, s ≠ .submodule name body span) : P fun i => (r i).stmtRule s := by
  cases s with
  | var name type isConst isPub value span =>
    exact C.bind (C.defineVar h name isConst isPub value span) fun _ => C.pure _
  | assign target op value span => exact C.bind (C.assignRule h target op value span) fun _ => C.pure _
  | forIn pat iter body span =>
    exact C.bind (h.expr iter) fun _ => C.bind (C.of _) fun _ => C.runFor h _ _ _ _
  | cond branches otherwise span => exact C.runCond h otherwise branches
  | loop test body span => exact hloop test body
  | select scrutinee arms span => exact C.runSelect h scrutinee arms span
  | use source names span => exact C.bind (C.runUse source names span) fun _ => C.pure _
  | submodule name body span => exact absurd rfl (hs name body span)
  | ret value span =>
    cases value with
    | none => exact C.pure _
    | some e => exact C.bind (h.expr e) fun _ => C.pure _
  | expr e span => exact C.bind (h.expr e) fun _ => C.pure _
  | _ => exact C.pure _

theorem moduleBody (md : Module) : P fun i => (r i).moduleBody md := by
  refine C.bind (C.runStmts h _) fun flow => C.bind (C.moduleValue flow) fun last =>
    C.bind (C.query fun _ _ _ _ => rfl) fun main => ?_
  cases main with
  | some c => exact C.callFn h c [] md.span
  | none => exact C.pure _

omit h in
theorem related_zero : Related P fun _ => .ofFuel 0 :=
  ⟨fun _ => C.outOfFuel, fun _ => C.outOfFuel, fun _ _ _ => C.outOfFuel, fun _ _ _ => C.outOfFuel⟩

end Compositional

/-! ### Runs -/

structure Pervasive (P : {α : Type} → (ι → Eval α) → Prop) : Prop extends Compositional P where
  inScope : ∀ {α : Type} {x : ι → Eval α} (parent : ScopeId), P x →
    P fun i => Eval.inScope parent (x i)
  inModule : ∀ {α : Type} {x : ι → Eval α} (name : String), P x →
    P fun i => Eval.inModule name (x i)

def Job.CallsHost : Job → Prop
  | .call (.host _) _ _ => True
  | _ => False

namespace Pervasive

variable (V : Pervasive P)

include V

theorem stmtRule (h : Related P r)
    (hloop : ∀ test body, P fun i => (r i).runWhile test body (r i).rounds) (s : Stmt) :
    P fun i => (r i).stmtRule s := by
  cases s with
  | submodule name body span =>
    refine V.bind (V.bind (V.inModule _ (V.runStmts h _)) fun flow => ?_) fun _ => V.pure _
    exact V.bind (V.moduleValue flow) fun _ => V.pure _
  | _ => exact V.toCompositional.stmtRule h hloop _ nofun

theorem bodyRule (h : Related P r) (c : Closure) (args : List Value) (span : Span) :
    P fun i => (r i).bodyRule c args span :=
  V.toCompositional.bodyRule h c args span fun _ => V.inScope c.scope

/-- Runs under watches, given what these do to the jobs and to host calls. -/
theorem related_watched {Q : ι → Job → Machine → Prop} {stop : ι → Interrupt}
    (hjob : ∀ {α : Type} (j : Job) {x : ι → Eval α}, ¬ j.CallsHost → P x →
      P fun i => Eval.watched (Q i) (stop i) j (x i))
    (hhost : ∀ name args span,
      P fun i => Eval.watched (Q i) (stop i) (.call (.host name) args span)
        (Runner.hostCall name args span)) (n : Nat) :
    Related P fun i => .watched (Q i) (stop i) n := by
  induction n with
  | zero => exact V.related_zero
  | succ n ih =>
    refine ⟨fun e => hjob (.expr e) not_false (V.exprRule ih e),
      fun s => hjob (.stmt s) not_false (V.stmtRule ih (V.loops ih fun _ => Runner.rounds_watched n) s),
      fun f args span => ?_,
      fun c args span => hjob (.body c args span) not_false (V.bodyRule ih c args span)⟩
    cases f with
    | host name => exact hhost name args span
    | _ => exact hjob (.call _ args span) not_false (V.callRule ih _ args span nofun)

theorem related_ofFuel (hhost : ∀ name args span, P fun _ => Runner.hostCall name args span)
    (n : Nat) : Related P fun _ => .ofFuel n := by
  have hsame : ∀ {α : Type} (j : Job) (x : Eval α),
      Eval.watched (fun _ _ => True) .outOfFuel j x = x := fun j x => funext fun m => if_pos trivial
  have hrelated : Related P fun _ => .watched (fun _ _ => True) .outOfFuel n :=
    V.related_watched (fun j x _ hx => by simpa only [hsame] using hx)
      (fun name args span => by simpa only [hsame] using hhost name args span) n
  simpa only [Runner.watched_eq_ofFuel fun _ _ => trivial] using hrelated

theorem entry (h : Related P r) (e : Entry) : P fun i => e.run (r i) := by
  cases e with
  | expr e => exact h.expr e
  | module md => exact V.inModule md.name (V.moduleBody h md)

end Pervasive

end Sluice
