import Sluice.Command
import Std.Time.DateTime.Timestamp

/-! The command line. Files are looked up on disk as a command comes to ask for them, the
command is carried out on what was found, and then the files that it changed are written. -/
namespace Sluice.CommandLine

def usage : String := "\n".intercalate
  ["usage: sluice run FILE [--trace PATH] [-- ARGS...]",
    "       sluice check FILE",
    "       sluice tokens FILE",
    "       sluice parse FILE [--format pretty|json]", ""]

def pathOf (p : Place) : String := "/".intercalate p

/-- Add what lies at a place on disk: a directory, a file or nothing. -/
def look (files : Files) (p : Place) : IO Files := do
  try
    let real ← IO.FS.realPath (pathOf p)
    if ← real.isDir then return { files with dirs := p :: files.dirs }
    else
      let bytes ← IO.FS.readBinFile real
      return { files with entries := files.entries.insert p bytes }
  catch _ => return files

/-- Look at every place on the way that a path takes. -/
def probe (files : Files) (path : String) : IO Files := do
  match Place.ofPath path with
  | .error _ => return files
  | .ok (start, names) =>
    let (_, files) ← names.foldlM (fun (here, files) name => do
      let next := Place.step here name
      return (next, ← look files next)) (start, files)
    return files

/-- Find all files that a command opens. -/
partial def gather (now : Moment) (c : Command) (known : List String) (files : Files) :
    IO Files := do
  match (c.paths now files).filter (· ∉ known) with
  | [] => return files
  | paths => gather now c (paths ++ known) (← paths.foldlM probe files)

def store (before after : Files) : IO Unit :=
  after.entries.forM fun (p, bytes) => do
    unless before.entries.get? p == some bytes do IO.FS.writeBinFile (pathOf p) bytes

def now : IO Moment := do
  let t ← Std.Time.Timestamp.now
  return ⟨t.toMillisecondsSinceUnixEpoch.val.toNat⟩

end Sluice.CommandLine

open Sluice CommandLine in
def main (args : List String) : IO UInt32 := do
  match Command.ofArgs? args with
  | none =>
    IO.eprint usage
    return 2
  | some c =>
    let now ← now
    let files ← gather now c [] {}
    let o := c.outcome now files
    store files o.files
    IO.print o.stdout
    IO.eprint o.stderr
    return o.code.toUInt32
