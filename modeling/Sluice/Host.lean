import Sluice.Printf
import Sluice.Trace

/-! Host functions: the only ways in which a program touches the world. -/
namespace Sluice

/-- Where printed text goes. -/
structure Sink where
  text : String := ""
  /-- How many bytes are still taken, if that is limited. -/
  room : Option Nat := none
  flushFails : Bool := false

namespace Sink

/-- The part of a text that `n` bytes hold. A character that is cut shows as one that could not
be read. -/
def cut (n : Nat) : List Char → List Char
  | [] => []
  | c :: r =>
    if c.utf8Size ≤ n then c :: cut (n - c.utf8Size) r
    else if 0 < n then ['\ufffd'] else []

/-- Write a text: all of it, or as much as there is room for. -/
def write (s : Sink) (t : String) : Except IoError Unit × Sink :=
  match s.room with
  | none => (.ok (), { s with text := s.text ++ t })
  | some n =>
    if t.utf8ByteSize ≤ n then
      (.ok (), { s with text := s.text ++ t, room := some (n - t.utf8ByteSize) })
    else
      (.error .sinkFull, { s with text := s.text ++ String.ofList (cut n t.toList), room := some 0 })

def flush (s : Sink) : Except IoError Unit :=
  if s.flushFails then .error .flushRefused else .ok ()

end Sink

structure World where
  out : Sink := {}
  tracer : Option Tracer := none
  files : Files := {}

/-- What a host call can end in, other than a value. -/
inductive HostError where
  | unknownFunction (name : String)
  | typeError (detail : String)
  | format (e : Printf.Error)
  | io (operation : String) (cause : IoError)
  | trace (e : TraceError)
  /-- The program asked to end. -/
  | exit (code : Int)
deriving DecidableEq, Repr

namespace HostError

def message : HostError → String
  | unknownFunction name => s!"unknown host function: {name}"
  | typeError detail => s!"type error: {detail}"
  | format e => match e with
    | .wrongType .. => s!"type error: {e.message}"
    | _ => s!"format error: {e.message}"
  | io operation cause => s!"I/O error: {operation}: {cause.message}"
  | trace e => s!"trace write error (execution aborted): {e.message}"
  | exit code => s!"exit({code})"

/-- What the trace says of a call that ended so. -/
def traceResult : HostError → TraceResult
  | exit code => .of .exit (.int code)
  | e => .of .error (.str e.message)

end HostError

namespace Host

def names : List String := ["exit", "print", "printf", "read", "write"]

/-- Write a text to the output on behalf of `operation`. -/
def emit (operation text : String) (w : World) : Except HostError Value × World :=
  let ⟨out, tracer, files⟩ := w
  match out.write text with
  | (.ok _, out) => (.ok .unit, ⟨out, tracer, files⟩)
  | (.error e, out) => (.error (.io operation e), ⟨out, tracer, files⟩)

def print (args : List Value) (w : World) : Except HostError Value × World :=
  emit "print" (" ".intercalate (args.map Value.display) ++ "\n") w

def printf (args : List Value) (w : World) : Except HostError Value × World :=
  match args with
  | .str fmt :: args =>
    match Printf.format fmt args with
    | .ok text => emit "printf" text w
    | .error e => (.error (.format e), w)
  | _ => (.error (.typeError "printf: expected String format"), w)

def read (args : List Value) (w : World) : Except HostError Value × World :=
  match args with
  | [.str path] =>
    match w.files.read path with
    | .ok s => (.ok (.str s), w)
    | .error e => (.error (.io "read" e), w)
  | _ => (.error (.typeError "read: expected String path"), w)

def write (args : List Value) (w : World) : Except HostError Value × World :=
  match args with
  | [data, .str path] =>
    match w.files.write path data.display with
    | .ok files => (.ok .unit, { w with files })
    | .error e => (.error (.io "write" e), w)
  | _ => (.error (.typeError "write: expected (data, String path)"), w)

/-- The exit code that the arguments give; it has to fit 32 bits. -/
def exitCode (args : List Value) : Except HostError Int :=
  match args with
  | [] => .ok 0
  | [.int n] =>
    if -2147483648 ≤ n.toInt ∧ n.toInt ≤ 2147483647 then .ok n.toInt
    else .error (.typeError s!"exit: code {n.toInt} out of range")
  | _ => .error (.typeError "exit: expected Int code")

def exit (args : List Value) (w : World) : Except HostError Value × World :=
  match exitCode args with
  | .error e => (.error e, w)
  | .ok code =>
    match w.out.flush with
    | .ok _ => (.error (.exit code), w)
    | .error e => (.error (.io "exit" e), w)

/-- The host function of a name. -/
def function? (name : String) : Option (List Value → World → Except HostError Value × World) :=
  match name with
  | "print" => some print
  | "printf" => some printf
  | "read" => some read
  | "write" => some write
  | "exit" => some exit
  | _ => none

/-- What the trace says of a finished call. -/
def traceResult : Except HostError Value → TraceResult
  | .ok v => .of .ok (.ofValue v)
  | .error e => e.traceResult

/-- Call a host function and record the call. -/
def call (name : String) (args : List Value) (w : World) : Except HostError Value × World :=
  match function? name with
  | none => (.error (.unknownFunction name), w)
  | some f =>
    match f args w with
    | (result, ⟨out, none, files⟩) => (result, ⟨out, none, files⟩)
    | (result, ⟨out, some tracer, files⟩) =>
      match tracer.effect files name args (traceResult result) with
      | (.ok _, tracer, files) => (result, ⟨out, some tracer, files⟩)
      | (.error e, tracer, files) => (.error (.trace e), ⟨out, some tracer, files⟩)

end Host

end Sluice
