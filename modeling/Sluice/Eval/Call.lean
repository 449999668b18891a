import Sluice.Eval.Declare

/-! Blocks, calls and compositions. -/
namespace Sluice.Runner

variable (r : Runner)

/-- Run statements one after the other; `last` is the value so far. -/
def runFrom (last : Value) : List Stmt → Eval Flow
  | [] => pure (.value last)
  | s :: rest =>
    if s.isDeclaration then runFrom .unit rest
    else do
      match ← r.stmt s with
      | .value v => runFrom v rest
      | flow => pure flow

/-- Run statements in the innermost scope. The value is that of the last one. -/
def runStmts (stmts : List Stmt) : Eval Flow := do
  Eval.declare stmts
  r.runFrom .unit stmts

def runBlock (b : Block) : Eval Flow := Eval.inBlock (r.runStmts b.stmts)

def exprs : List Expr → Eval (List Value)
  | [] => pure []
  | e :: rest => do
    let v ← r.expr e
    let vs ← exprs rest
    return v :: vs

/-- Send a value through the stages of a composition. A stage that mentions `_` is evaluated
with the value under that name, any other one is called. -/
def sendThrough : List Expr → Value → Eval Value
  | [], acc => pure acc
  | stage :: rest, acc => do
    let v ←
      if stage.hasHole then
        Eval.inBlock do
          Eval.define "_" acc
          r.expr stage
      else do
        let f ← r.expr stage
        r.call f [acc] stage.span
    sendThrough rest v

/-- Evaluate the first stage of a composition and send its value through the others. -/
def runStages : List Expr → Eval Value
  | [] => pure .unit
  | first :: rest => do
    let seed ← r.expr first
    r.sendThrough rest seed

/-- Call a composition. An argument goes through all stages; without one the first stage gives
the value. -/
def callStages (stages : List Expr) (args : List Value) (span : Span) : Eval Value :=
  match args with
  | [] => r.runStages stages
  | [seed] => r.sendThrough stages seed
  | args => .fault (.composedArgs args.length span)

def bindAll : List String → List Value → Eval Unit
  | name :: names, v :: vs => do
    Eval.define name v
    bindAll names vs
  | _, _ => pure ()

def runBody (params : List String) (args : List Value) (body : Block) : Eval Value := do
  bindAll params args
  match ← r.runStmts body.stmts with
  | .value v | .ret v _ => pure v
  | .leave span | .next span => .fault (.strayLoopControl span)

/-- Run the body of a function in a new scope under the one it was made in. -/
def bodyRule (c : Closure) (args : List Value) (span : Span) : Eval Value :=
  match c.body with
  | .block body => Eval.inScope c.scope (r.runBody c.params args body)
  | .pipeline stages => Eval.inScope c.scope (r.callStages stages args span)

/-- Call a function. A composition counts its arguments itself. -/
def callFn (c : Closure) (args : List Value) (span : Span) : Eval Value :=
  match c.body with
  | .block _ =>
    if args.length = c.params.length then Eval.deeper span (r.body c args span)
    else .fault (.wrongArgCount (c.name.getD "<lambda>") c.params.length args.length span)
  | .pipeline _ => Eval.deeper span (r.body c args span)

def hostCall (name : String) (args : List Value) (span : Span) : Eval Value := fun m =>
  let ⟨arena, current, root, registry, modules, world, depth, maxDepth⟩ := m
  match Host.call name args world with
  | (result, world) =>
    let m := ⟨arena, current, root, registry, modules, world, depth, maxDepth⟩
    match result with
    | .ok v => .ok v m
    | .error (.exit code) => .error (.exit code) m
    | .error e => .error (.fault (.hostFailed name e.message span)) m

/-- The implementation of a method for the type of its first argument. -/
def implementation (m : Machine) (method : String) (args : List Value) (span : Span) :
    Except Fault Value :=
  match args with
  | [] => .error (.noReceiver method span)
  | receiver :: _ =>
    match m.registry.implFor? method receiver.tag with
    | some f => .ok f
    | none =>
      let owner := ((m.registry.ownerOf? method).map (·.name)).getD "?"
      .error (.notImplemented owner method receiver.tag span)

def methodCall (method : String) (args : List Value) (span : Span) : Eval Value := do
  let f ← Eval.query (implementation · method args span)
  r.call f args span

def callRule (f : Value) (args : List Value) (span : Span) : Eval Value :=
  match f with
  | .fn c => r.callFn c args span
  | .builtin b => .of (b.apply args span)
  | .host name => hostCall name args span
  | .constructor c => .of (c.build args span)
  | .method name => r.methodCall name args span
  | v => .fault (.notCallable v span)

/-- What `receiver.method(args)` calls: an export of a module, the value of a field, or else a
function in scope or a method, which take the receiver as their first argument. -/
def memberCall (m : Machine) (receiver : Value) (method : Ident) (args : List Value) :
    Except Fault (Value × List Value) :=
  match receiver with
  | .module source => do return (← m.exported source method, args)
  | receiver =>
    match receiver.field? method.text with
    | some f => .ok (f, args)
    | none =>
      match m.arena.lookup? m.current method.text with
      | some f => .ok (f, receiver :: args)
      | none =>
        if (m.registry.ownerOf? method.text).isSome then
          .ok (.method method.text, receiver :: args)
        else .error (.noMethod receiver.tag method)

def callExpr (callee : Expr) (args : List Expr) (span : Span) : Eval Value :=
  match callee with
  | .member base names memberSpan =>
    match names.getLast? with
    | some method => do
      let base ← r.expr base
      let receiver ← Eval.query (·.members base names.dropLast)
      let args ← r.exprs args
      let (f, args) ← Eval.query (memberCall · receiver method args)
      r.call f args span
    | none => do
      let f ← r.expr (.member base names memberSpan)
      let args ← r.exprs args
      r.call f args span
  | callee => do
    let f ← r.expr callee
    let args ← r.exprs args
    r.call f args span

end Sluice.Runner
