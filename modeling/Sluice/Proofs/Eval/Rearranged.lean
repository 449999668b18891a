import Sluice.Program

/-! The order of declarations. Those of a block are made in four passes before its other statements run,
and each pass looks at statements of one kind, so it does not matter how the kinds are mixed in the text: a
function, a type or an implementation can be used above the place where it stands. -/
namespace Sluice

/-- The statements of a block that are treated alike. Each of the first three kinds is declared in a pass
of its own; clauses of derived typeclasses are looked at in the order of the types that have them. -/
inductive Stmt.Kind where
  | type
  | fn
  | impl
  | plain
deriving DecidableEq

def Stmt.kind : Stmt → Stmt.Kind
  | .typeclass _ | .struct _ | .enum _ => .type
  | .fn _ => .fn
  | .impl _ => .impl
  | _ => .plain

/-- The same statements, with those of one kind in the same order. -/
def Rearranged (ss ts : List Stmt) : Prop :=
  ∀ k, ss.filter (·.kind = k) = ts.filter (·.kind = k)

variable {ss ts : List Stmt} {s : Stmt}

theorem Stmt.isDeclaration_eq_false_iff : s.isDeclaration = false ↔ s.kind = .plain := by
  cases s <;> simp [isDeclaration, kind]

theorem Rearranged.append {ss' ts' : List Stmt} (h : Rearranged ss ts) (h' : Rearranged ss' ts') :
    Rearranged (ss ++ ss') (ts ++ ts') := fun k => by
  rw [List.filter_append, List.filter_append, h k, h' k]

theorem Rearranged.refl (ss : List Stmt) : Rearranged ss ss := fun _ => rfl

/-- A statement can change places with statements of other kinds. -/
theorem rearranged_move (h : ∀ t ∈ ss, t.kind ≠ s.kind) : Rearranged (s :: ss) (ss ++ [s]) := by
  intro k
  by_cases hk : s.kind = k
  · have hnone : ss.filter (·.kind = k) = [] := by
      simpa [List.filter_eq_nil_iff] using fun t ht => hk ▸ h t ht
    simp [List.filter_append, hnone, hk]
  · simp [List.filter_append, hk]

namespace Eval

variable {step : Stmt → Eval Unit} {k : Stmt.Kind}

/-- A pass that has nothing to do for statements of other kinds only meets those of its own. -/
theorem forM_filter (hskip : ∀ s : Stmt, s.kind ≠ k → step s = pure ()) (ss : List Stmt) :
    ss.forM step = (ss.filter (·.kind = k)).forM step := by
  induction ss with
  | nil => rfl
  | cons s ss ih =>
    by_cases hs : s.kind = k
    · rw [List.filter_cons_of_pos (by simpa using hs)]
      exact congrArg (step s >>= fun _ => ·) ih
    · rw [List.filter_cons_of_neg (by simpa using hs), ← ih]
      change (step s >>= fun _ => ss.forM step) = _
      rw [hskip s hs, pure_bind]

theorem forM_rearranged (hskip : ∀ s : Stmt, s.kind ≠ k → step s = pure ()) (h : Rearranged ss ts) :
    ss.forM step = ts.forM step := by
  rw [forM_filter hskip ss, forM_filter hskip ts, h k]

theorem declareType_skip (h : s.kind ≠ .type) : declareType s = pure () := by
  cases s <;> first | rfl | exact absurd rfl h

theorem declareFn_skip (h : s.kind ≠ .fn) : declareFn s = pure () := by
  cases s <;> first | rfl | exact absurd rfl h

theorem declareImpl_skip (h : s.kind ≠ .impl) : declareImpl s = pure () := by
  cases s <;> first | rfl | exact absurd rfl h

theorem checkDerives_skip (h : s.kind ≠ .type) : checkDerives s = pure () := by
  cases s <;> first | rfl | exact absurd rfl h

theorem declare_rearranged (h : Rearranged ss ts) : declare ss = declare ts := by
  rw [declare, declare, forM_rearranged (fun _ => declareType_skip) h,
    forM_rearranged (fun _ => declareFn_skip) h, forM_rearranged (fun _ => declareImpl_skip) h,
    forM_rearranged (fun _ => checkDerives_skip) h]

end Eval

namespace Runner

/-- Before a statement that is no declaration, declarations are not noticed, and neither is the value so
far. -/
theorem runFrom_filter (r : Runner) (hs : s.kind = .plain) (ss : List Stmt) (v w : Value) :
    r.runFrom v (ss ++ [s]) = r.runFrom w (ss.filter (·.kind = .plain) ++ [s]) := by
  induction ss generalizing v w with
  | nil => simp [runFrom, Stmt.isDeclaration_eq_false_iff.mpr hs]
  | cons t ss ih =>
    by_cases ht : t.kind = .plain
    · rw [List.filter_cons_of_pos (by simpa using ht)]
      simp only [List.cons_append, runFrom, Stmt.isDeclaration_eq_false_iff.mpr ht]
      refine congrArg (r.stmt t >>= ·) (funext fun flow => ?_)
      cases flow with
      | value v => exact ih v v
      | _ => rfl
    · have hdeclares : t.isDeclaration = true :=
        Bool.of_not_eq_false (mt Stmt.isDeclaration_eq_false_iff.mp ht)
      rw [List.filter_cons_of_neg (by simpa using ht), List.cons_append, runFrom, if_pos hdeclares]
      exact ih .unit w

/-- Two blocks that differ in how declarations are mixed with other statements, and end with the same
statement, do the same from every state: they have the same outcome and lead to the same state, with the
same output. -/
theorem runStmts_rearranged (r : Runner) (h : Rearranged ss ts) (hs : ss.getLast? = some s)
    (ht : ts.getLast? = some s) (hlast : s.isDeclaration = false) : r.runStmts ss = r.runStmts ts := by
  have hplain := Stmt.isDeclaration_eq_false_iff.mp hlast
  obtain ⟨ss', rfl⟩ := List.getLast?_eq_some_iff.mp hs
  obtain ⟨ts', rfl⟩ := List.getLast?_eq_some_iff.mp ht
  have hrest : ss'.filter (·.kind = .plain) = ts'.filter (·.kind = .plain) := by
    have := h .plain
    simpa [List.filter_append, hplain] using this
  rw [runStmts, runStmts, Eval.declare_rearranged h]
  refine congrArg (Eval.declare (ts' ++ [s]) >>= ·) (funext fun _ => ?_)
  rw [runFrom_filter r hplain ss' .unit .unit, hrest, ← runFrom_filter r hplain ts' .unit .unit]

/-- `fn one() { 1 }` -/
def oneFn : Stmt :=
  .fn ⟨⟨"one", default⟩, [], none, ⟨[.expr (.lit (.int 1) default) default], default⟩, false, default⟩

/-- `one()` -/
def oneCall : Stmt := .expr (.call (.var ⟨"one", default⟩) [] default) default

/-- The function can be called above its text. -/
theorem runStmts_calledAbove : Rearranged [oneFn, oneCall, oneCall] [oneCall, oneFn, oneCall] ∧
    (∀ r : Runner, r.runStmts [oneFn, oneCall, oneCall] = r.runStmts [oneCall, oneFn, oneCall]) ∧
    (((ofFuel 10).runBody [] [] ⟨[oneCall, oneFn, oneCall], default⟩).outcome
      (.start [] 10 {})).1.toOption.map Value.repr = some "1" := by
  have hmove : Rearranged [oneFn, oneCall] [oneCall, oneFn] := rearranged_move (by decide)
  have h : Rearranged [oneFn, oneCall, oneCall] [oneCall, oneFn, oneCall] := hmove.append (.refl [oneCall])
  exact ⟨h, fun r => runStmts_rearranged r h rfl rfl rfl, by decide +kernel⟩

end Runner

end Sluice
