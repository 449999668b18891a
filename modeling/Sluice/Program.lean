import Sluice.Eval
import Sluice.Source

/-! Whole programs: a module is run from the start, or expressions one after the other. -/
namespace Sluice

/-- The fuel that programs are given. No computation that ends in practice needs so much. -/
def fuel : Nat := 0x4000000000000000

structure Settings where
  /-- The value of the constant `args`. -/
  args : List String := []
  /-- How many calls may be in progress. -/
  maxDepth : Nat := 1000

inductive RunError where
  | interrupt (i : Interrupt)
  /-- The program ended well, but its trace could not be finished. -/
  | trace (e : TraceError)
deriving DecidableEq, Repr

def Eval.outcome (x : Eval α) (m : Machine) : Except Interrupt α × Machine :=
  match x m with
  | .ok a m => (.ok a, m)
  | .error e m => (.error e, m)

/-! ### Modules -/

/-- The function without parameters that a scope names `main`. -/
def Machine.mainFn? (m : Machine) (scope : ScopeId) : Option Closure :=
  match m.arena.local? scope "main" with
  | some ⟨.fn c, _, _⟩ => if c.params.isEmpty then some c else none
  | _ => none

/-- Run a module, and then its `main` if it has one. The value is that of `main`, or else that of
the last statement. -/
def Runner.runModule (r : Runner) (md : Module) : Eval Value :=
  Eval.inModule md.name do
    let flow ← r.runStmts md.body.stmts
    let last ← Runner.moduleValue flow
    let m ← get
    match m.mainFn? m.current with
    | some c => r.callFn c [] md.span
    | none => pure last

def runStatus : Except Interrupt Value → TraceStatus
  | .ok _ => .ok
  | .error (.exit _) => .exit
  | .error _ => .error

def World.finish (w : World) (status : TraceStatus) : Except TraceError Unit × World :=
  match w.tracer with
  | none => (.ok (), w)
  | some t =>
    let (result, t, files) := t.finish w.files status
    (result, { w with tracer := some t, files })

/-- Run a module from the start. -/
def Module.run (md : Module) (config : Settings) (w : World) : Except RunError Value × World :=
  let (result, m) :=
    ((Runner.ofFuel fuel).runModule md).outcome (.start config.args config.maxDepth w)
  let (finished, w) := m.world.finish (runStatus result)
  let result := match result, finished with
    | .error i, _ => .error (.interrupt i)
    | .ok _, .error e => .error (.trace e)
    | .ok v, .ok _ => .ok v
  (result, w)

/-! ### Sessions -/

/-- The expression that a module consists of. -/
def Module.expr? (md : Module) : Option Expr :=
  match md.body.stmts with
  | [.expr e _] => some e
  | _ => none

def Machine.eval (m : Machine) (e : Expr) : Except Interrupt Value × Machine :=
  ((Runner.ofFuel fuel).expr e).outcome m

end Sluice
