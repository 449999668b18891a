import Sluice.Digest
import Sluice.Files
import Sluice.Json
import Sluice.Moment
import Sluice.Value.Show

/-! The trace of a run: one record for each call of a host function, between a header and a
footer. -/
namespace Sluice

/-- A value in a trace. Values with parts are shown as text. -/
inductive TraceDatum where
  | int (n : Int)
  | float (x : Float)
  | char (c : Char)
  | str (s : String)
  | bool (b : Bool)
  | unit
  | repr (s : String)

namespace TraceDatum

def ofValue : Value → TraceDatum
  | .int n => int n.toInt
  | .float x => float x
  | .char c => char c
  | .str s => str s
  | .bool b => bool b
  | .unit => unit
  | v => repr v.repr

/-- The text by which a value is measured and hashed. -/
def text : TraceDatum → String
  | int n => toString n
  | float x => Decimal.Layout.program.write x
  | char c => c.toString
  | str s | repr s => s
  | bool b => if b then "true" else "false"
  | unit => "()"

/-- The size in bytes up to which values are shown in full. -/
def inlineLimit : Nat := 1024

/-- An argument in a trace: a large one is replaced by its hash. -/
def ofArgument (v : Value) : TraceDatum :=
  let t := ofValue v
  if inlineLimit < t.text.utf8ByteSize then str (Digest.ofText t.text) else t

/-- A value under the letter of its kind. -/
def toJson (v : TraceDatum) : Json :=
  let tagged (kind : String) (j : Json) := Json.obj [("t", .str kind), ("v", j)]
  match v with
  | int n => tagged "Int" (.int n)
  | float x => tagged "Float" (.float x)
  | char c => tagged "Char" (.str c.toString)
  | str s => tagged "Str" (.str s)
  | bool b => tagged "Bool" (.bool b)
  | unit => .obj [("t", .str "Unit")]
  | repr s => tagged "Repr" (.str s)

end TraceDatum

/-- How a host call or a run ended. -/
inductive TraceStatus where
  | ok | error | exit
deriving DecidableEq, Repr

namespace TraceStatus

def ofCall : TraceStatus → String
  | ok => "ok"
  | error => "error"
  | exit => "exit"

def ofProgram : TraceStatus → String
  | ok => "success"
  | error => "error"
  | exit => "exit"

end TraceStatus

/-- What a host call gave. `value` is left out when it is large. -/
structure TraceResult where
  status : TraceStatus
  value : Option TraceDatum
  hash : String
  size : Nat

def TraceResult.of (status : TraceStatus) (v : TraceDatum) : TraceResult where
  status := status
  value := if v.text.utf8ByteSize ≤ TraceDatum.inlineLimit then some v else none
  hash := Digest.ofText v.text
  size := v.text.utf8ByteSize

def TraceResult.toJson (o : TraceResult) : Json :=
  .obj ([("status", .str o.status.ofCall)] ++
    (o.value.map fun v => ("value", v.toJson)).toList ++
    [("value_hash", .str o.hash), ("value_size", .int o.size)])

inductive TraceRecord where
  | header (program : String)
  | effect (seq : Nat) (operation : String) (inputs : List TraceDatum) (output : TraceResult)
  | footer (effectCount : Nat) (status : TraceStatus)

namespace TraceRecord

def schemaVersion : String := "1"

/-- A record as one JSON object. With a time it also tells when it was made and, of a call, how
long that took; time stands still in a run. -/
def toJson (time : Option Moment) (r : TraceRecord) : Json :=
  let timestamp := (time.map fun t => ("timestamp", Json.str t.text)).toList
  let duration := (time.map fun _ => ("duration_ms", Json.int 0)).toList
  match r with
  | header program =>
    .obj ([("record", .str "header"), ("schema_version", .str schemaVersion)] ++ timestamp ++
      [("program", .str program)])
  | effect seq operation inputs output =>
    .obj ([("record", .str "effect"), ("seq", .int seq)] ++ timestamp ++
      [("operation", .str operation), ("inputs", .arr (inputs.map TraceDatum.toJson)),
        ("output", output.toJson)] ++ duration)
  | footer effectCount status =>
    .obj ([("record", .str "footer")] ++ timestamp ++
      [("effect_count", .int effectCount), ("program_status", .str status.ofProgram)])

/-- The line of a record in a file. -/
def line (time : Moment) (r : TraceRecord) : String := (r.toJson (some time)).compact

end TraceRecord

inductive TraceError where
  | writeRecord (cause : IoError)
  | flush (cause : IoError)
deriving DecidableEq, Repr

def TraceError.message : TraceError → String
  | writeRecord cause => s!"write record: {cause.message}"
  | flush cause => s!"flush trace: {cause.message}"

/-- A file that a trace goes to by way of a buffer. -/
structure TraceFile where
  place : Place
  /-- How many bytes have gone to the file. -/
  offset : Nat := 0
  /-- What has not gone to the file yet. -/
  buffer : String := ""

namespace TraceFile

def capacity : Nat := 8192

/-- Write past the buffer. -/
def put (t : TraceFile) (files : Files) (s : String) : TraceFile × Files :=
  ({ t with offset := t.offset + s.utf8ByteSize }, files.overwrite t.place t.offset s)

def flush (t : TraceFile) (files : Files) : TraceFile × Files :=
  if t.buffer.isEmpty then (t, files) else { t with buffer := "" }.put files t.buffer

/-- Write a text. The buffer is emptied if it has no room for all of it, and what would fill it
alone goes past it. -/
def write (t : TraceFile) (files : Files) (s : String) : TraceFile × Files :=
  if s.utf8ByteSize < capacity then
    if t.buffer.utf8ByteSize + s.utf8ByteSize ≤ capacity then
      ({ t with buffer := t.buffer ++ s }, files)
    else
      let (t, files) := t.flush files
      ({ t with buffer := s }, files)
  else
    let (t, files) := t.flush files
    t.put files s

end TraceFile

/-- A trace being written. -/
structure Tracer where
  /-- Records, the last one first. -/
  records : List TraceRecord := []
  /-- How many effects there were. -/
  seq : Nat := 0
  /-- How many records can still be written, if that is limited. -/
  room : Option Nat := none
  flushFails : Bool := false
  /-- The time that records bear in a file. -/
  time : Moment := {}
  /-- The file that the records go to, if they go to one. -/
  file : Option TraceFile := none

namespace Tracer

/-- Put the line of a record into the file of the trace. -/
def writeLine (t : Tracer) (files : Files) (r : TraceRecord) : Tracer × Files :=
  match t.file with
  | none => (t, files)
  | some file =>
    let (file, files) := file.write files (r.line t.time)
    let (file, files) := file.write files "\n"
    ({ t with file := some file }, files)

def write (t : Tracer) (files : Files) (r : TraceRecord) : Except TraceError (Tracer × Files) :=
  match t.room with
  | none => .ok ({ t with records := r :: t.records }.writeLine files r)
  | some 0 => .error (.writeRecord .sinkFull)
  | some (n + 1) => .ok ({ t with records := r :: t.records, room := some n }.writeLine files r)

def start (t : Tracer) (files : Files) (program : String) : Except TraceError (Tracer × Files) :=
  t.write files (.header program)

/-- Record an effect. It is counted whether or not it can be written. -/
def effect (t : Tracer) (files : Files) (operation : String) (args : List Value)
    (output : TraceResult) : Except TraceError Unit × Tracer × Files :=
  let next := { t with seq := t.seq + 1 }
  match next.write files (.effect t.seq operation (args.map .ofArgument) output) with
  | .ok (t, files) => (.ok (), t, files)
  | .error e => (.error e, next, files)

def flush (t : Tracer) (files : Files) : Except TraceError Unit × Tracer × Files :=
  if t.flushFails then (.error (.flush .flushRefused), t, files)
  else
    match t.file with
    | none => (.ok (), t, files)
    | some file =>
      let (file, files) := file.flush files
      (.ok (), { t with file := some file }, files)

def finish (t : Tracer) (files : Files) (status : TraceStatus) :
    Except TraceError Unit × Tracer × Files :=
  match t.write files (.footer t.seq status) with
  | .error e => (.error e, t, files)
  | .ok (t, files) => t.flush files

end Tracer

end Sluice
