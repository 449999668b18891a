import Sluice.Program
import Sluice.Proofs.ReadBack.Parse

/-! Reading back what was written: the text of a value, run as a program, has that value. -/
namespace Sluice

/-- The names in written values mean what they mean at the start. -/
structure Machine.Knows (m : Machine) : Prop where
  just : ∀ span, m.lookup ⟨"Just", span⟩ = .ok (.builtin .just)
  nothing : ∀ span, m.lookup ⟨"Nothing", span⟩ = .ok .nothing

namespace Value

theorem nesting_pos (v : Value) : 0 < v.nesting := by
  unfold nesting
  split <;> first | omega | split <;> omega

/-- A new key goes to the end. -/
theorem putEntry_of_new {es : List (Value × Value)} {k : Value} (h : ∀ e ∈ es, beq e.1 k = false)
    (v : Value) : putEntry es k v = es ++ [(k, v)] := by
  induction es with
  | nil => rfl
  | cons e es ih =>
    obtain ⟨hfirst, hothers⟩ := List.forall_mem_cons.1 h
    rw [putEntry, hfirst, ih hothers]
    rfl

end Value

namespace Runner

variable {r : Runner} {m : Machine}

theorem exprs_of_denotes (xs : List (Expr × Value)) (h : ∀ x ∈ xs, r.expr x.1 m = .ok x.2 m) :
    r.exprs (xs.map (·.1)) m = .ok (xs.map (·.2)) m := by
  induction xs with
  | nil => rfl
  | cons x xs ih =>
    obtain ⟨hfirst, hothers⟩ := List.forall_mem_cons.1 h
    simp only [List.map_cons, exprs, bind, EStateM.bind, hfirst, ih hothers]
    rfl

theorem mapEntries_of_denotes (xs : List ((Expr × Value) × (Expr × Value)))
    (hk : ∀ x ∈ xs, r.expr x.1.1 m = .ok x.1.2 m) (hv : ∀ x ∈ xs, r.expr x.2.1 m = .ok x.2.2 m)
    (hkeys : xs.Pairwise fun x y => Value.beq x.1.2 y.1.2 = false) (entries : List (Value × Value))
    (hentries : ∀ e ∈ entries, ∀ x ∈ xs, Value.beq e.1 x.1.2 = false) :
    r.mapEntries entries (xs.map fun x => (x.1.1, x.2.1)) m =
      .ok (entries ++ xs.map fun x => (x.1.2, x.2.2)) m := by
  induction xs generalizing entries with
  | nil => rw [List.map_nil, List.map_nil, List.append_nil]; rfl
  | cons x xs ih =>
    obtain ⟨hkey, hkothers⟩ := List.forall_mem_cons.1 hk
    obtain ⟨hval, hvothers⟩ := List.forall_mem_cons.1 hv
    obtain ⟨hnew, hrest⟩ := List.pairwise_cons.1 hkeys
    have hput := Value.putEntry_of_new (fun e he => hentries e he x List.mem_cons_self) x.2.2
    have hothers : ∀ e ∈ entries ++ [(x.1.2, x.2.2)], ∀ y ∈ xs, Value.beq e.1 y.1.2 = false := by
      intro e he y hy
      rcases List.mem_append.1 he with he | he
      · exact hentries e he y (List.mem_cons_of_mem _ hy)
      · rw [List.mem_singleton.1 he]
        exact hnew y hy
    simp only [List.map_cons, mapEntries, bind, EStateM.bind, hkey, hval, hput,
      ih hkothers hvothers hrest _ hothers, List.append_assoc, List.singleton_append]

theorem expr_succ (n : Nat) (e : Expr) : (ofFuel (n + 1)).expr e = (ofFuel n).exprRule e := rfl

/-- What denotes a value evaluates to it, and changes nothing. -/
theorem expr_of_denotes {e : Expr} {v : Value} (h : Denotes e v) (hm : m.Knows) {n : Nat}
    (hn : v.nesting ≤ n) : (ofFuel (n + 1)).expr e m = .ok v m := by
  rw [expr_succ]
  induction h generalizing n with
  | lit l span => rfl
  | neg k s span =>
    have hpos := (Value.int (-k)).nesting_pos
    obtain ⟨n, rfl⟩ : ∃ k, n = k + 1 := ⟨n - 1, by omega⟩
    rfl
  | list xs span h ih =>
    rw [Value.nesting] at hn
    obtain ⟨n, rfl⟩ : ∃ k, n = k + 1 := ⟨n - 1, by omega⟩
    have hitems := exprs_of_denotes xs (r := ofFuel (n + 1)) (m := m) fun x hx =>
      ih x hx (Nat.le_trans (Value.nesting_le_nestingAll (List.mem_map_of_mem hx))
        (Nat.le_of_succ_le_succ hn))
    simp only [exprRule, bind, EStateM.bind, hitems]
    rfl
  | tuple xs span h ih =>
    rw [Value.nesting] at hn
    obtain ⟨n, rfl⟩ : ∃ k, n = k + 1 := ⟨n - 1, by omega⟩
    have hitems := exprs_of_denotes xs (r := ofFuel (n + 1)) (m := m) fun x hx =>
      ih x hx (Nat.le_trans (Value.nesting_le_nestingAll (List.mem_map_of_mem hx))
        (Nat.le_of_succ_le_succ hn))
    simp only [exprRule, bind, EStateM.bind, hitems]
    rfl
  | map xs span hkeys hk hv ihk ihv =>
    rw [Value.nesting] at hn
    obtain ⟨n, rfl⟩ : ∃ k, n = k + 1 := ⟨n - 1, by omega⟩
    have hnest : ∀ x ∈ xs, max x.1.2.nesting x.2.2.nesting ≤ n := by
      intro x hx
      have hmem := List.mem_map_of_mem (f := fun x : (Expr × Value) × (Expr × Value) => (x.1.2, x.2.2)) hx
      exact Nat.le_trans (Value.nesting_le_nestingEntries hmem) (Nat.le_of_succ_le_succ hn)
    have hentries := mapEntries_of_denotes xs (r := ofFuel (n + 1)) (m := m)
      (fun x hx => ihk x hx (Nat.le_trans (Nat.le_max_left ..) (hnest x hx)))
      (fun x hx => ihv x hx (Nat.le_trans (Nat.le_max_right ..) (hnest x hx))) hkeys []
      (List.forall_mem_nil _)
    simp only [exprRule, bind, EStateM.bind, hentries]
    rfl
  | just e v s span h ih =>
    rw [Value.nesting] at hn
    have hpos := v.nesting_pos
    obtain ⟨n, rfl⟩ : ∃ k, n = k + 1 := ⟨n - 1, by omega⟩
    have hcallee : (ofFuel (n + 1)).expr (.var ⟨"Just", s⟩) m = .ok (.builtin .just) m := by
      simp only [expr_succ, exprRule, Eval.query, hm.just]
      rfl
    have harg : (ofFuel (n + 1)).expr e m = .ok v m := ih (by omega)
    simp only [exprRule, callExpr, exprs, bind, EStateM.bind, hcallee, harg]
    rfl
  | nothing s =>
    simp only [exprRule, Eval.query, hm.nothing]
    rfl

end Runner

def Machine.inModule (m : Machine) (name : String) : Machine :=
  { m.enter m.root with modules := (m.enter m.root).modules.insert name (m.enter m.root).current }

theorem knows_start (args : List String) (maxDepth : Nat) (w : World) (name : String) :
    ((Machine.start args maxDepth w).inModule name).Knows := ⟨fun _ => rfl, fun _ => rfl⟩

/-- A statement that is an expression alone. -/
theorem Runner.runStmts_of_expr {n : Nat} {e : Expr} {v : Value} {m : Machine} (s : Span)
    (he : (ofFuel n).expr e m = .ok v m) : (ofFuel (n + 1)).runStmts [.expr e s] m = .ok (.value v) m := by
  have hdeclare : Eval.declare [.expr e s] = pure () := rfl
  have hstmt : (ofFuel (n + 1)).stmt (.expr e s) m = .ok (.value v) m := by
    show (ofFuel n).stmtRule (.expr e s) m = _
    simp only [stmtRule, bind, EStateM.bind, he]
    rfl
  simp [runStmts, hdeclare, runFrom, Stmt.isDeclaration, bind, EStateM.bind, pure, EStateM.pure, hstmt]

/-- A module of one expression ends in its value. -/
theorem runModule_of_expr {n : Nat} {e : Expr} {v : Value} {args : List String} {maxDepth : Nat}
    {w : World} {name : String} (s span : Span)
    (he : (Runner.ofFuel n).expr e ((Machine.start args maxDepth w).inModule name) =
      .ok v ((Machine.start args maxDepth w).inModule name)) :
    (Runner.ofFuel (n + 1)).runModule ⟨name, ⟨[.expr e s], span⟩, span⟩ (.start args maxDepth w) =
      .ok v { (Machine.start args maxDepth w).inModule name with
        current := (Machine.start args maxDepth w).current } := by
  have hstmts := Runner.runStmts_of_expr s he
  have hmain : ((Machine.start args maxDepth w).inModule name).mainFn?
      ((Machine.start args maxDepth w).inModule name).current = none := rfl
  have hget : ∀ m, (get : Eval Machine) m = .ok m m := fun _ => rfl
  unfold Machine.inModule at hstmts hmain ⊢
  simp [Runner.runModule, Eval.inModule, bind, EStateM.bind, hstmts, Runner.moduleValue, pure, EStateM.pure,
    hget, hmain]

/-- The text of a value that is not nested too deeply is a module, and running it gives the value back,
whatever the settings and the world, if the trace of the world can be finished. -/
theorem run_repr_eq (v : Value) (hv : v.Readable) (hnest : v.nesting ≤ Parser.maxNesting) (file : String) :
    ∃ md, Module.read file v.repr = .ok md ∧ ∀ (config : Settings) (w u : World),
      w.finish .ok = (.ok (), u) → md.run config w = (.ok v, u) := by
  obtain ⟨ts, here, hscan, hts⟩ := Token.scan_repr hv
  obtain ⟨e, span, hmodule, hden⟩ := Parser.module_of_readable hv hnest hts here (moduleName file)
  refine ⟨⟨moduleName file, ⟨[.expr e e.span], span⟩, span⟩, ?_, ?_⟩
  · simp [Module.read, hscan, hmodule, Except.mapError, bind, Except.bind]
  · intro config w u hfinish
    have hfuel : v.nesting ≤ fuel - 2 := Nat.le_trans hnest (by decide)
    have he := Runner.expr_of_denotes hden
      (knows_start config.args config.maxDepth w (moduleName file)) hfuel
    have hrun := runModule_of_expr e.span span he
    have hsteps : fuel - 2 + 1 + 1 = fuel := rfl
    rw [hsteps] at hrun
    simp only [Module.run, Eval.outcome, hrun, runStatus]
    rw [show ((Machine.start config.args config.maxDepth w).inModule (moduleName file)).world = w from rfl,
      hfinish]

def nestedData : Value :=
  .list [.int (-3), .tuple [.str "say \"hi\"\n", .char '\\'],
    .map [(.just (.int 0), .bool true), (.nothing, .tuple [])]]

theorem nestedData_readable : nestedData.Readable := by
  have hint : (Value.int (-3)).Readable := .int _ (by decide)
  have hpair : (Value.tuple [.str "say \"hi\"\n", .char '\\']).Readable := by
    refine .tuple _ (by decide) (List.forall_mem_cons.2 ⟨.str _ fun c hc => ?_,
      List.forall_mem_singleton.2 (.char _ (by decide))⟩)
    have hall : ("say \"hi\"\n".toList.all fun c => decide (Lexeme.Plain '"' c)) = true := rfl
    exact of_decide_eq_true (List.all_eq_true.1 hall c hc)
  have hmap : (Value.map [(.just (.int 0), .bool true), (.nothing, .tuple [])]).Readable := by
    refine .map _ (by simp [Value.beq]) ?_ ?_
    · exact List.forall_mem_cons.2 ⟨.just _ (.int _ (by decide)), List.forall_mem_singleton.2 .nothing⟩
    · exact List.forall_mem_cons.2 ⟨.bool _,
        List.forall_mem_singleton.2 (.tuple _ (by decide) (List.forall_mem_nil _))⟩
  exact .list _ (List.forall_mem_cons.2 ⟨hint, List.forall_mem_cons.2 ⟨hpair,
    List.forall_mem_singleton.2 hmap⟩⟩)

theorem nestedData_runs : nestedData.Readable ∧ nestedData.nesting ≤ Parser.maxNesting ∧
    ∃ md, Module.read "data.sl" nestedData.repr = .ok md ∧ md.run {} {} = (.ok nestedData, {}) := by
  have hnest : nestedData.nesting ≤ Parser.maxNesting := by decide
  obtain ⟨md, hread, hrun⟩ := run_repr_eq nestedData nestedData_readable hnest "data.sl"
  exact ⟨nestedData_readable, hnest, md, hread, hrun {} {} {} rfl⟩

end Sluice
