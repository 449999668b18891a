import Sluice.Host
import Sluice.Scope.Arena
import Sluice.Value.Construct

/-! The state of a running program, and what can be asked of it without running anything. -/
namespace Sluice

structure Machine where
  arena : Arena
  /-- The innermost scope. -/
  current : ScopeId
  /-- The scope of the names that every program has. -/
  root : ScopeId
  registry : Registry Value := {}
  /-- The scopes of the modules by name. -/
  modules : Table String ScopeId := []
  world : World
  /-- How many calls of functions are in progress. -/
  depth : Nat := 0
  /-- How many calls may be in progress. -/
  maxDepth : Nat

namespace Machine

/-- The names that every program has. The arguments of the program are a constant. -/
def initialNames (args : List String) : List (String × Binding) :=
  [("Just", ⟨.builtin .just, false, false⟩), ("Nothing", ⟨.nothing, false, false⟩),
    ("Set", ⟨.builtin .set, false, false⟩), ("len", ⟨.builtin .len, false, false⟩)] ++
  Host.names.map (fun name => (name, ⟨.host name, false, false⟩)) ++
  [("args", ⟨.list (args.map .str), true, false⟩)]

/-- The state before anything ran. -/
def start (args : List String) (maxDepth : Nat) (world : World) : Machine :=
  let (root, arena) := ({} : Arena).push none
  { arena := (initialNames args).foldl (fun a (name, b) => a.define root name b) arena
    current := root, root, world, maxDepth }

/-! ### Names -/

/-- Bind a name in the innermost scope. -/
def bind (m : Machine) (name : String) (b : Binding) : Machine :=
  { m with arena := m.arena.define m.current name b }

def define (m : Machine) (name : String) (v : Value) : Machine := m.bind name ⟨v, false, false⟩

/-- What a name stands for: its nearest binding, or else the module of that name. -/
def lookup (m : Machine) (id : Ident) : Except Fault Value :=
  match m.arena.lookup? m.current id.text with
  | some v => .ok v
  | none =>
    if m.modules.contains id.text then .ok (.module id.text)
    else .error (.undefinedVariable id.text id.span)

def placeholder (m : Machine) (span : Span) : Except Fault Value :=
  match m.arena.lookup? m.current "_" with
  | some v => .ok v
  | none => .error (.strayPlaceholder span)

/-- A public name of a module. -/
def exported (m : Machine) (source : String) (name : Ident) : Except Fault Value :=
  match m.modules.get? source with
  | none => .error (.unknownModule source name.span)
  | some scope =>
    match m.arena.local? scope name.text with
    | some ⟨v, _, true⟩ => .ok v
    | _ => .error (.notExported source name.text name.span)

/-- `base.name` -/
def member (m : Machine) (base : Value) (name : Ident) : Except Fault Value :=
  match base with
  | .module source => m.exported source name
  | .struct type fields =>
    match (Value.struct type fields).field? name.text with
    | some v => .ok v
    | none => .error (.noField type name)
  | v => .error (.noFields v.tag name)

/-- `base.name₁.name₂…` -/
def members (m : Machine) (base : Value) : List Ident → Except Fault Value
  | [] => .ok base
  | name :: rest => do m.members (← m.member base name) rest

/-- The names that an import brings in: those asked for, or all public ones. -/
def imports (m : Machine) (source : Ident) (names : Option (List Ident)) (span : Span) :
    Except Fault (List (String × Value)) :=
  match m.modules.get? source.text with
  | none => .error (.unknownModule source.text span)
  | some scope =>
    let exports := m.arena.exports scope
    match names with
    | none => .ok exports
    | some names => names.mapM fun n =>
      match exports.find? (·.1 = n.text) with
      | some e => .ok e
      | none => .error (.notExported source.text n.text n.span)

/-! ### Functions and scopes -/

/-- Make a function in the innermost scope. A handle on the scope is taken with it, which is never given
back: a run keeps each scope in which a function was made to its end, whether or not the function can still
be reached. What a name leads to is the same as when a scope goes with the last of its functions, but how
many scopes there are is not. That is for the arena and its clients to say. -/
def makeFn (m : Machine) (name : Option String) (params : List Param) (body : FnBody) :
    Value × Machine :=
  let (c, arena) := m.arena.makeClosure m.current name (params.map (·.name.text)) body
  (.fn c, { m with arena := arena.hold m.current })

def enter (m : Machine) (parent : ScopeId) : Machine :=
  let (scope, arena) := m.arena.push (some parent)
  { m with arena, current := scope }

/-- Close the innermost scope and go back to `saved`. The arena is told of no values outside, because those
hold no scope that has no handle on it. -/
def exit (m : Machine) (scope saved : ScopeId) : Machine :=
  { m with arena := m.arena.release [] scope, current := saved }

end Machine

end Sluice
