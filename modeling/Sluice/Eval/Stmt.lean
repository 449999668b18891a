import Sluice.Eval.Assign
import Sluice.Eval.Call
import Sluice.Pattern.Match

/-! The rules for statements. -/
namespace Sluice.Runner

variable (r : Runner)

/-- Bind the names of a pattern; none may come twice. -/
def bindNames (seen : List String) (span : Span) : List (String × Value) → Eval Unit
  | [] => pure ()
  | (name, v) :: rest =>
    if name ∈ seen then .fault (.boundTwice name span)
    else do
      Eval.define name v
      bindNames (name :: seen) span rest

/-- A definition. A constant of the same scope is not replaced. -/
def defineVar (name : Ident) (isConst isPub : Bool) (value : Expr) (span : Span) : Eval Unit := do
  let m ← get
  if (m.arena.local? m.current name.text).any (·.isConst) then
    Eval.fault (.constRedefined name.text span)
  else do
    let v ← r.expr value
    modify fun m => m.bind name.text ⟨v, isConst, isPub⟩

def condition (e : Expr) : Eval Bool := do
  match ← r.expr e with
  | .bool b => pure b
  | v => .fault (.notACondition v e.span)

def runRound (pat : Pattern) (body : Block) (span : Span) (item : Value) : Eval Flow :=
  Eval.inBlock do
    let bindings ← Eval.query fun m =>
      match pat.bindings? m.registry.adts item with
      | some bs => .ok bs
      | none => .error (.elementMismatch item span)
    bindNames [] pat.span bindings
    r.runStmts body.stmts

def runFor (pat : Pattern) (body : Block) (span : Span) : List Value → Eval Flow
  | [] => pure (.value .unit)
  | item :: rest => do
    match ← r.runRound pat body span item with
    | .value _ | .next _ => runFor pat body span rest
    | .leave _ => pure (.value .unit)
    | .ret v s => pure (.ret v s)

def runWhile (test : Expr) (body : Block) : (rounds : Nat) → Eval Flow
  | 0 => throw .outOfFuel
  | rounds + 1 => do
    if ← r.condition test then
      match ← r.runBlock body with
      | .value _ | .next _ => runWhile test body rounds
      | .leave _ => pure (.value .unit)
      | .ret v s => pure (.ret v s)
    else pure (.value .unit)

/-- The first branch whose condition holds. -/
def runCond (otherwise : Option Block) : List (Expr × Block) → Eval Flow
  | [] =>
    match otherwise with
    | some b => r.runBlock b
    | none => pure (.value .unit)
  | (test, body) :: rest => do
    if ← r.condition test then r.runBlock body else runCond otherwise rest

def runArm (bindings : List (String × Value)) (arm : MatchArm) : Eval Flow :=
  Eval.inBlock do
    bindNames [] arm.pat.span bindings
    match arm.body with
    | .expr e => return .value (← r.expr e)
    | .block b => r.runStmts b.stmts

/-- The first arm whose pattern matches, with what it binds. -/
def firstMatch (m : Machine) (v : Value) (arms : List MatchArm) (span : Span) :
    Except Fault (List (String × Value) × MatchArm) :=
  match arms.findSome? fun arm => (arm.pat.bindings? m.registry.adts v).map (·, arm) with
  | some found => .ok found
  | none => .error (.noArmMatches v span)

def runSelect (scrutinee : Expr) (arms : List MatchArm) (span : Span) : Eval Flow := do
  let v ← r.expr scrutinee
  let (bindings, arm) ← Eval.query (firstMatch · v arms span)
  r.runArm bindings arm

def runUse (source : Ident) (names : Option (List Ident)) (span : Span) : Eval Unit := do
  let found ← Eval.query (·.imports source names span)
  found.forM fun (name, v) => Eval.define name v

/-- The value of a module; control cannot leave it. -/
def moduleValue : Flow → Eval Value
  | .value v => pure v
  | .ret _ span => .fault (.strayReturn span)
  | .leave span | .next span => .fault (.strayLoopControl span)

def runSubmodule (name : Ident) (body : Block) : Eval Unit := do
  let flow ← Eval.inModule name.text (r.runStmts body.stmts)
  discard (moduleValue flow)

def stmtRule : Stmt → Eval Flow
  | .var name _ isConst isPub value span => do
    r.defineVar name isConst isPub value span
    return .value .unit
  | .assign target op value span => do
    r.assign target op value span
    return .value .unit
  | .fn _ | .struct _ | .enum _ | .typeclass _ | .impl _ => pure (.value .unit)
  | .forIn pat iter body span => do
    let v ← r.expr iter
    let items ← Eval.of (v.items iter.span)
    r.runFor pat body span items
  | .cond branches otherwise _ => r.runCond otherwise branches
  | .loop test body _ => r.runWhile test body r.rounds
  | .select scrutinee arms span => r.runSelect scrutinee arms span
  | .use source names span => do
    runUse source names span
    return .value .unit
  | .submodule name body _ => do
    r.runSubmodule name body
    return .value .unit
  | .ret none span => pure (.ret .unit span)
  | .ret (some e) span => do return .ret (← r.expr e) span
  | .leave span => pure (.leave span)
  | .next span => pure (.next span)
  | .expr e _ => do return .value (← r.expr e)

end Sluice.Runner
