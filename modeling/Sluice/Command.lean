import Sluice.Ast.Show
import Sluice.ConstCheck
import Sluice.Program

/-! The commands: run a file, check it, or show its tokens or its syntax tree. -/
namespace Sluice

inductive Format where
  | pretty | json
deriving DecidableEq, Repr

inductive Command where
  | run (file : String) (trace : Option String) (args : List String)
  | check (file : String)
  | tokens (file : String)
  | parse (file : String) (format : Format)
deriving DecidableEq, Repr

inductive CommandError where
  | unreadable (path : String) (cause : IoError)
  | tooLarge (bytes : Nat)
  | source (e : SourceError)
  | check (errors : List CheckError)
  | noTraceFile (path : String) (cause : IoError)
  | run (e : RunError)

structure Outcome where
  code : Nat := 0
  stdout : String := ""
  stderr : String := ""
  files : Files
  /-- The trace that was asked for, and the place of its file. -/
  trace : Option (Place × List TraceRecord) := none

namespace CommandError

def message : CommandError → String
  | unreadable path cause => s!"error: reading `{path}`: {cause.message}"
  | tooLarge bytes => s!"error: source file exceeds 1MB limit ({bytes} bytes)"
  | source (.parse e) =>
    s!"error[ParseError]: expected {e.expected}, found {e.found} at {e.line}:{e.col}"
  | source (.lex e) => s!"error[LexError]: {e.kind.message} at {e.line}:{e.col}"
  | check errors => "\n".intercalate (errors.map fun e => "error[ConstReassignment]: " ++ e.message)
  | noTraceFile path cause => s!"error: creating trace file `{path}`: {cause.message}"
  | run (.interrupt (.fault f)) => s!"error[{f.kind.name}]: {f.message} at {f.span.place}"
  | run (.interrupt (.exit code)) => s!"exit({code})"
  | run (.interrupt .outOfFuel) => "error: the program takes too many steps"
  | run (.trace e) => s!"error: {(HostError.trace e).message}"

/-- A program that asks to end does so silently, with the lowest 8 bits of its code. -/
def outcome (files : Files) : CommandError → Outcome
  | run (.interrupt (.exit code)) => { code := (code % 256).toNat, files }
  | e => { code := 1, stderr := e.message ++ "\n", files }

end CommandError

namespace Command

/-! ### Arguments -/

def inlineValue? (name arg : String) : Option String :=
  let head := (name ++ "=").toList
  if head.isPrefixOf arg.toList && head.length < arg.toList.length then
    some (String.ofList (arg.toList.drop head.length))
  else none

def setOnce (v : String) : Option String × List String → Option (Option String × List String)
  | (none, others) => some (some v, others)
  | (some _, _) => none

/-- The value of an option among arguments, and the other arguments. It stands in the argument
after the name, or in the same one after `=`. An option that comes twice or lacks its value is an
error. -/
def takeOption (name : String) : List String → Option (Option String × List String)
  | [] => some (none, [])
  | a :: rest =>
    match inlineValue? name a with
    | some v => (takeOption name rest).bind (setOnce v)
    | none =>
      if a = name then
        match rest with
        | v :: rest => (takeOption name rest).bind (setOnce v)
        | [] => none
      else (takeOption name rest).map fun (v, others) => (v, a :: others)

def splitDashes (args : List String) : List String × List String :=
  (args.takeWhile (· ≠ "--"), (args.dropWhile (· ≠ "--")).drop 1)

def single? : List String → Option String
  | [a] => some a
  | _ => none

/-- `run FILE [--trace PATH] [-- ARGS…]`, `check FILE`, `tokens FILE` or
`parse FILE [--format pretty|json]`. After `--` the last three take no options. -/
def ofArgs? : List String → Option Command
  | "run" :: rest => do
    let (before, args) := splitDashes rest
    let (trace, others) ← takeOption "--trace" before
    return run (← single? others) trace args
  | "check" :: rest => do
    let (before, after) := splitDashes rest
    return check (← single? (before ++ after))
  | "tokens" :: rest => do
    let (before, after) := splitDashes rest
    return tokens (← single? (before ++ after))
  | "parse" :: rest => do
    let (before, after) := splitDashes rest
    let (format, others) ← takeOption "--format" before
    let format ← match format with
      | none | some "pretty" => some Format.pretty
      | some "json" => some Format.json
      | some _ => none
    return parse (← single? (others ++ after)) format
  | _ => none

/-! ### Execution -/

def maxSourceSize : Nat := 1000000

def load (files : Files) (path : String) : Except CommandError String := do
  let src ← (files.read path).mapError (.unreadable path)
  if maxSourceSize < src.utf8ByteSize then throw (.tooLarge src.utf8ByteSize)
  return src

def loadModule (files : Files) (path : String) : Except CommandError Module := do
  (Module.read path (← load files path)).mapError .source

def loadChecked (files : Files) (path : String) : Except CommandError Module := do
  let md ← loadModule files path
  let errors := md.checkConsts
  if errors.isEmpty then return md else throw (.check errors)

def showTokens (ts : List Token) : String :=
  String.join (ts.map fun t => t.span.place ++ "\t" ++ t.kind.labelled ++ "\n")

def showModule (format : Format) (md : Module) : String :=
  match format with
  | .pretty => md.outline.pretty "" ++ "\n"
  | .json => md.outline.toJson.pretty "" ++ "\n"

/-- What a run leaves behind. What was printed and written stays if it fails. -/
def runOutcome (result : Except RunError Value) (w : World) (farewell : String) : Outcome :=
  let o : Outcome := match result with
    | .ok _ => { stderr := farewell, files := w.files }
    | .error e => (CommandError.run e).outcome w.files
  { o with stdout := w.out.text }

def runUntraced (files : Files) (args : List String) (md : Module) : Outcome :=
  let (result, w) := md.run { args } { files }
  runOutcome result w ""

/-- Run a module and leave its trace in the file `path`, which is made before the run. -/
def runTraced (now : Moment) (files : Files) (file path : String) (args : List String)
    (md : Module) : Except CommandError Outcome := do
  let place ← (files.placeToWrite path).mapError (.noTraceFile path)
  let tracer : Tracer := { time := now, file := some { place } }
  let (tracer, files) ← (tracer.start (files.put place "") file).mapError fun e => .run (.trace e)
  let (result, w) := md.run { args } { tracer := some tracer, files }
  let records := ((w.tracer.map (·.records)).getD []).reverse
  return { runOutcome result w s!"Trace written to {path}\n" with trace := some (place, records) }

def execute (now : Moment) (files : Files) : Command → Except CommandError Outcome
  | run file none args => do return runUntraced files args (← loadChecked files file)
  | run file (some path) args => do
    runTraced now files file path args (← loadChecked files file)
  | check file => do
    let _ ← loadChecked files file
    return { stdout := s!"{file}: ok\n", files }
  | tokens file => do
    let ts ← (Token.scan (← load files file)).mapError fun e => .source (.lex e)
    return { stdout := showTokens ts, files }
  | parse file format => do
    return { stdout := showModule format (← loadModule files file), files }

/-! ### What a command opens -/

/-- The path of a host call that opens a file. -/
def hostPath? : TraceRecord → Option String
  | .effect _ "read" [.str path] _ => some path
  | .effect _ "write" [_, .str path] _ => some path
  | _ => none

def programPaths (files : Files) (args : List String) (md : Module) : List String :=
  let (_, w) := md.run { args } { tracer := some {}, files }
  ((w.tracer.map (·.records)).getD []).filterMap hostPath?

/-- The paths that a program opens while its trace goes to `path`. -/
def tracedPaths (now : Moment) (files : Files) (file path : String) (args : List String)
    (md : Module) : List String :=
  match runTraced now files file path args md with
  | .ok { trace := some (_, records), .. } => records.filterMap hostPath?
  | _ => []

/-- The paths that a command opens when it finds `files`. A run depends on nothing else, so what
it finds there decides what it opens next. -/
def paths (now : Moment) (files : Files) : Command → List String
  | run file trace args =>
    [file] ++ trace.toList ++
      match loadChecked files file, trace with
      | .ok md, none => programPaths files args md
      | .ok md, some path => tracedPaths now files file path args md
      | .error _, _ => []
  | check file | tokens file | parse file _ => [file]

def outcome (now : Moment) (files : Files) (c : Command) : Outcome :=
  match c.execute now files with
  | .ok o => o
  | .error e => e.outcome files

end Command

end Sluice
