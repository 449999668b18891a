import Sluice.Program

/-! Runs under watch. A watched run is stopped where a job begins in a state in which it should not.
Nothing in a program catches an interrupt, so a watch that makes no difference never stopped the run:
this says of the states in the middle of a run what cannot be seen at its end. -/
namespace Sluice

def Eval.after (x : Eval α) (m : Machine) : Machine := (x.outcome m).2

variable {α : Type} {m m' : Machine}

theorem Eval.after_of_ok {x : Eval α} {a : α} (h : x m = .ok a m') : x.after m = m' := by
  rw [after, outcome, h]

theorem Eval.after_of_error {x : Eval α} {i : Interrupt} (h : x m = .error i m') :
    x.after m = m' := by
  rw [after, outcome, h]

theorem Eval.after_congr {x y : Eval α} (h : x m = y m') : x.after m = y.after m' := by
  rw [after, after, outcome, outcome, h]

theorem Eval.bind_of_ok {β : Type} {x : Eval α} {f : α → Eval β} {a : α} (h : x m = .ok a m') :
    (x >>= f) m = f a m' := by
  show EStateM.bind x f m = _
  rw [EStateM.bind, h]

theorem Eval.bind_of_error {β : Type} {x : Eval α} {f : α → Eval β} {i : Interrupt}
    (h : x m = .error i m') : (x >>= f) m = .error i m' := by
  show EStateM.bind x f m = _
  rw [EStateM.bind, h]

/-- What a runner is asked to do. The depth of calls grows only where a body begins. -/
inductive Job where
  | expr (e : Expr)
  | stmt (s : Stmt)
  | call (f : Value) (args : List Value) (span : Span)
  | body (c : Closure) (args : List Value) (span : Span)

open Classical in
/-- Stop with `i` where a job begins and `P` does not hold. -/
noncomputable def Eval.watched (P : Job → Machine → Prop) (i : Interrupt) (j : Job) (x : Eval α) :
    Eval α := fun m => if P j m then x m else .error i m

noncomputable def Runner.watched (P : Job → Machine → Prop) (i : Interrupt) : (fuel : Nat) → Runner
  | 0 => ofFuel 0
  | fuel + 1 =>
    { expr := fun e => Eval.watched P i (.expr e) ((watched P i fuel).exprRule e)
      stmt := fun s => Eval.watched P i (.stmt s) ((watched P i fuel).stmtRule s)
      call := fun f args span =>
        Eval.watched P i (.call f args span) ((watched P i fuel).callRule f args span)
      body := fun c args span =>
        Eval.watched P i (.body c args span) ((watched P i fuel).bodyRule c args span)
      rounds := fuel }

/-- A watch for what holds anyway stops nothing. -/
theorem Runner.watched_eq_ofFuel {P : Job → Machine → Prop} (hP : ∀ j m, P j m) (i : Interrupt)
    (fuel : Nat) : Runner.watched P i fuel = .ofFuel fuel := by
  have hwatched : ∀ {α : Type} (j : Job) (x : Eval α), Eval.watched P i j x = x :=
    fun j x => funext fun m => if_pos (hP j m)
  induction fuel with
  | zero => rfl
  | succ fuel ih => simp only [watched, ofFuel, hwatched, ih]

/-- At no point of the run from `m` does a job begin where `P` does not hold. -/
def Always (P : Job → Machine → Prop) (run : Runner → Eval α) (fuel : Nat) (m : Machine) : Prop :=
  ∀ i, run (.watched P i fuel) m = run (.ofFuel fuel) m

def Meets (P : Job → Machine → Prop) (run : Runner → Eval α) (fuel : Nat) (m : Machine) : Prop :=
  ¬ Always (fun j m => ¬ P j m) run fuel m

/-- What can be run from outside. -/
inductive Entry where
  | expr (e : Expr)
  | module (md : Module)

def Entry.run (r : Runner) : Entry → Eval Value
  | expr e => r.expr e
  | module md => r.runModule md

/-- The states of runs: between what is run from outside, and at each job on the way. -/
inductive Machine.Reachable : Machine → Prop where
  | start (args : List String) (maxDepth : Nat) (w : World) : Reachable (.start args maxDepth w)
  | after {m : Machine} (x : Entry) (fuel : Nat) :
    Reachable m → Reachable ((x.run (.ofFuel fuel)).after m)
  | during {m m' : Machine} (x : Entry) (fuel : Nat) :
    Reachable m → Meets (fun _ m₁ => m₁ = m') (Entry.run · x) fuel m → Reachable m'

end Sluice
