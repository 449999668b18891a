import Sluice.Proofs.Arena.Chain
import Sluice.Proofs.Eval.Watch
import Sluice.Proofs.Value.Path

/-! Assignment to an element or a field. The value of the variable is rebuilt from a copy that was taken
before the right-hand side is evaluated, so what the right-hand side did to other parts of the variable
is lost. -/
namespace Sluice

variable {α β : Type} {m m' : Machine}

theorem Eval.bind_eq_ok {x : Eval α} {f : α → Eval β} {b : β} (h : (x >>= f) m = .ok b m') :
    ∃ a m₁, x m = .ok a m₁ ∧ f a m₁ = .ok b m' := by
  have hbind : EStateM.bind x f m = .ok b m' := h
  rw [EStateM.bind] at hbind
  cases hx : x m with
  | ok a m₁ =>
    rw [hx] at hbind
    exact ⟨a, m₁, rfl, hbind⟩
  | error i m₁ =>
    rw [hx] at hbind
    cases hbind

theorem Eval.of_eq_ok {x : Except Fault α} {a : α} (h : Eval.of x m = .ok a m') :
    x = .ok a ∧ m = m' := by
  cases x with
  | ok b =>
    cases h
    exact ⟨rfl, rfl⟩
  | error e => cases h

theorem Eval.exists_eq_ok {x : Eval α} (h : (x.outcome m).1.isOk = true) :
    ∃ a, x m = .ok a (x.after m) := by
  rw [after, outcome] at *
  cases hx : x m with
  | ok a m₁ => exact ⟨a, rfl⟩
  | error i m₁ =>
    rw [hx] at h
    cases h

namespace Runner

variable {r : Runner} {target value : Expr} {span : Span}

/-- An assignment along a path changes a variable that there is. -/
theorem assigned_eq_ok {root : Ident} {steps : List Step} {old : Option Value} (hsteps : steps ≠ [])
    (h : assigned m root steps none span = .ok old) :
    ∃ v, old = some v ∧ m.arena.lookup? m.current root.text = some v := by
  rw [assigned] at h
  split at h
  next owner b hfind =>
    split at h
    · cases h
    · cases h
      exact ⟨b.value, rfl, by rw [Arena.lookup?, hfind]; rfl⟩
  next =>
    split at h
    next hplain =>
      rw [Bool.and_eq_true, List.isEmpty_iff] at hplain
      exact absurd hplain.2 hsteps
    next => cases h

theorem reassign_eq_ok {root : Ident} {v : Value} {u : Unit} (h : reassign root v span m = .ok u m') :
    ∃ arena, m.arena.assign m.current root.text v = .ok arena ∧ m' = { m with arena } := by
  rw [reassign] at h
  split at h
  next arena hassign =>
    cases h
    exact ⟨arena, hassign, rfl⟩
  next => cases h

def hasStep : Expr → Bool
  | .paren inner _ => hasStep inner
  | .index _ _ _ => true
  | .member base names _ => !names.isEmpty || hasStep base
  | _ => false

theorem steps_ne_nil {root : Ident} {steps : List Step} (htarget : hasStep target = true)
    (h : r.place target m = .ok (root, steps) m') : steps ≠ [] := by
  induction target using hasStep.induct generalizing root steps m' with
  | case1 inner span ih => exact ih htarget h
  | case2 base key span =>
    obtain ⟨p, m₁, -, h⟩ := Eval.bind_eq_ok h
    obtain ⟨k, m₂, -, h⟩ := Eval.bind_eq_ok h
    cases h
    simp
  | case3 base names span ih =>
    obtain ⟨p, m₁, hbase, h⟩ := Eval.bind_eq_ok h
    cases h
    rw [hasStep, Bool.or_eq_true, Bool.not_eq_true', List.isEmpty_eq_false_iff] at htarget
    rcases htarget with hnames | hbase'
    · simp [hnames]
    · simp [ih hbase' hbase]
  | case4 e hparen hindex hmember =>
    cases e with
    | paren inner span => exact (hparen inner span rfl).elim
    | index base key span => exact (hindex base key span rfl).elim
    | member base names span => exact (hmember base names span rfl).elim
    | _ => cases htarget

/-- The steps of an assignment along a path: the keys of the target, the copy of the variable, the
right-hand side, the new value. -/
theorem assign_eq_ok {u : Unit} (htarget : hasStep target = true)
    (h : r.assign target none value span m = .ok u m') :
    ∃ root steps m₁ old rhs m₂ v arena, r.place target m = .ok (root, steps) m₁ ∧
      m₁.arena.lookup? m₁.current root.text = some old ∧ r.expr value m₁ = .ok rhs m₂ ∧
      old.replaceAlong steps rhs = .ok v ∧
      m₂.arena.assign m₂.current root.text v = .ok arena ∧ m' = { m₂ with arena } := by
  obtain ⟨⟨root, steps⟩, m₁, hplace, h⟩ := Eval.bind_eq_ok h
  obtain ⟨old?, m₁', hquery, h⟩ := Eval.bind_eq_ok h
  obtain ⟨hassigned, rfl⟩ := Eval.of_eq_ok hquery
  obtain ⟨rhs, m₂, hrhs, h⟩ := Eval.bind_eq_ok h
  obtain ⟨old, rfl, hlookup⟩ := assigned_eq_ok (steps_ne_nil htarget hplace) hassigned
  obtain ⟨v, m₂', hof, h⟩ := Eval.bind_eq_ok h
  obtain ⟨hupdated, rfl⟩ := Eval.of_eq_ok hof
  obtain ⟨arena, hwrite, hm'⟩ := reassign_eq_ok h
  exact ⟨root, steps, m₁, old, rhs, m₂, v, arena, hplace, hlookup, hrhs, hupdated, hwrite, hm'⟩

end Runner

/-- What an assignment along a path does when it completes: the variable has the value it had before the
right-hand side was evaluated, with the addressed place replaced. This is the value that it had after
the right-hand side was evaluated, with the place replaced, exactly when the right-hand side changed
nothing of it but that place. -/
theorem assign_rebuilds_earlier_value (n : Nat) (target value : Expr) (span : Span)
    (htarget : Runner.hasStep target = true)
    (hok : (((Runner.ofFuel (n + 1)).stmt (.assign target none value span)).outcome m).1.isOk = true) :
    ∃ root steps m₁ old rhs m₂ now v, (Runner.ofFuel n).place target m = .ok (root, steps) m₁ ∧
      m₁.arena.lookup? m₁.current root.text = some old ∧
      (Runner.ofFuel n).expr value m₁ = .ok rhs m₂ ∧
      m₂.arena.lookup? m₂.current root.text = some now ∧
      (((Runner.ofFuel (n + 1)).stmt (.assign target none value span)).after m).arena.lookup?
        (((Runner.ofFuel (n + 1)).stmt (.assign target none value span)).after m).current
          root.text = some v ∧
      old.replaceAlong steps rhs = .ok v ∧
      (now.replaceAlong steps rhs = .ok v ↔ Value.SameOff steps old now) := by
  obtain ⟨flow, hstmt⟩ := Eval.exists_eq_ok hok
  obtain ⟨u, m', hassign, hflow⟩ := Eval.bind_eq_ok hstmt
  obtain ⟨-, hafter⟩ := EStateM.Result.ok.inj hflow
  rw [← hafter]
  obtain ⟨root, steps, m₁, old, rhs, m₂, v, arena, hplace, hold, hrhs, hnew, hwrite, rfl⟩ :=
    Runner.assign_eq_ok htarget hassign
  obtain ⟨owner, b, hfind, -⟩ := Arena.assign_eq_ok hwrite
  have hnow : m₂.arena.lookup? m₂.current root.text = some b.value := by
    rw [Arena.lookup?, hfind]
    rfl
  exact ⟨root, steps, m₁, old, rhs, m₂, b.value, v, hplace, hold, hrhs, hnow,
    Arena.lookup?_assign hwrite, hnew, Value.replaceAlong_eq_iff_sameOff hnew⟩

/-- `x = [1, 2]` -/
def twoElements : Stmt :=
  .assign (.var ⟨"x", default⟩) none (.list [.lit (.int 1) default, .lit (.int 2) default] default) default

def elementOfX (i : Int64) : Expr := .index (.var ⟨"x", default⟩) (.lit (.int i) default) default

/-- A call of a function that does `x[1] = 9` and returns `5`. -/
def changesSecond : Expr :=
  .call (.lambda [] none ⟨[.assign (elementOfX 1) none (.lit (.int 9) default) default,
    .ret (some (.lit (.int 5) default)) default], default⟩ default) [] default

def afterTwoElements : Machine := ((Runner.ofFuel 4).stmt twoElements).after (.start [] 1 {})

def shownX (m : Machine) : Option String := (m.arena.lookup? m.current "x").map Value.display

/-- The value of `x` after the call, with the first element replaced by what the call returns. -/
def shownUpdate : Option String :=
  match (Runner.ofFuel 8).expr changesSecond afterTwoElements with
  | .ok rhs m => (m.arena.lookup? m.current "x").bind fun now =>
    (now.replaceAlong [.index (.int 0) default] rhs).toOption.map Value.display
  | .error _ _ => none

/-- An assignment of that call to `x[0]`: the call makes `x` to `[1, 9]`, and then the assignment makes
it to `[5, 2]`, which is `[1, 2]` and not `[1, 9]` with the first element replaced. -/
theorem changesSecond_lost :
    ∃ old rhs now v : Value, now.display = "[1, 9]" ∧ v.display = "[5, 2]" ∧
      old.replaceAlong [.index (.int 0) default] rhs = .ok v ∧
      now.replaceAlong [.index (.int 0) default] rhs ≠ .ok v ∧
      ¬ Value.SameOff [.index (.int 0) default] old now := by
  obtain ⟨root, steps, m₁, old, rhs, m₂, now, v, hplace, hold, hrhs, hnow, hv, hnew, hiff⟩ :=
    assign_rebuilds_earlier_value (m := afterTwoElements) 8 (elementOfX 0) changesSecond default
      (by decide) (by decide +kernel)
  have hplace' : (Runner.ofFuel 8).place (elementOfX 0) afterTwoElements =
      .ok (⟨"x", default⟩, [.index (.int 0) default]) afterTwoElements := rfl
  rw [hplace] at hplace'
  cases hplace'
  have hupdate : shownUpdate = some "[5, 9]" := by decide +kernel
  rw [shownUpdate, hrhs] at hupdate
  rw [← Eval.after_of_ok hrhs] at hnow hupdate
  have hshown : shownX (((Runner.ofFuel 8).expr changesSecond).after afterTwoElements) =
      some "[1, 9]" := by decide +kernel
  have hshown' : shownX (((Runner.ofFuel 9).stmt
      (.assign (elementOfX 0) none changesSecond default)).after afterTwoElements) =
        some "[5, 2]" := by decide +kernel
  rw [shownX, hnow] at hshown
  rw [shownX, hv] at hshown'
  have hlost : now.replaceAlong [.index (.int 0) default] rhs ≠ .ok v := by
    intro heq
    simp only [hnow, heq, Option.bind_some, Except.toOption] at hupdate
    rw [hshown'] at hupdate
    exact absurd (Option.some.inj hupdate) (by decide)
  exact ⟨old, rhs, now, v, Option.some.inj hshown, Option.some.inj hshown', hnew, hlost,
    fun hsame => hlost (hiff.2 hsame)⟩

end Sluice
