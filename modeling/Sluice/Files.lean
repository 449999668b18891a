import Sluice.Table

/-! The files that a program can reach, and how paths lead to them. -/
namespace Sluice

inductive IoError where
  | notFound
  | isDirectory
  | notDirectory
  | nulInName
  | nameTooLong
  | notText
  | sinkFull
  | flushRefused
deriving DecidableEq, Repr

def IoError.message : IoError → String
  | notFound => "No such file or directory (os error 2)"
  | isDirectory => "Is a directory (os error 21)"
  | notDirectory => "Not a directory (os error 20)"
  | nameTooLong => "File name too long (os error 36)"
  | nulInName => "file name contained an unexpected NUL byte"
  | notText => "stream did not contain valid UTF-8"
  | sinkFull => "sink full"
  | flushRefused => "flush refused"

/-- The place of a file: the names that lead to it from the working directory, without detours.
A place above that directory starts with `..`, and one below the root directory with `/`. -/
abbrev Place := List String

namespace Place

def top : Place := ["/"]

/-- Whether the place is the working directory, one above it or the root directory. These are
always there. -/
def isAncestor (p : Place) : Bool := p = top || p.all (· = "..")

/-- Where a name leads from a directory. -/
def step (here : Place) (name : String) : Place :=
  match name with
  | "" | "." => here
  | ".." => if here = top then here else if here.isAncestor then here ++ [".."] else here.dropLast
  | name => here ++ [name]

def maxName : Nat := 255

def maxPath : Nat := 4095

/-- The names in a path, and the place where they start. -/
def ofPath (path : String) : Except IoError (Place × List String) :=
  if path.toList.contains '\x00' then .error .nulInName
  else if maxPath < path.utf8ByteSize then .error .nameTooLong
  else if path.isEmpty then .error .notFound
  else .ok (if path.toList.head? = some '/' then top else [], path.splitOn "/")

end Place

structure Files where
  entries : Table Place ByteArray := []
  /-- Directories, besides those that a file lies in. -/
  dirs : List Place := []

namespace Files

def isDirectory (f : Files) (p : Place) : Bool :=
  p.isAncestor || f.dirs.contains p ||
    f.entries.any fun (q, _) => p.length < q.length && p.isPrefixOf q

/-- Follow names from `here`; all but the last one have to be directories. -/
def walk (f : Files) (here : Place) : List String → Except IoError Place
  | [] => .ok here
  | name :: rest =>
    if f.isDirectory here then
      if Place.maxName < name.utf8ByteSize then .error .nameTooLong
      else walk f (here.step name) rest
    else if f.entries.contains here then .error .notDirectory
    else .error .notFound

def resolve (f : Files) (path : String) : Except IoError Place := do
  let (here, names) ← Place.ofPath path
  f.walk here names

def read (f : Files) (path : String) : Except IoError String := do
  let p ← f.resolve path
  if f.isDirectory p then throw .isDirectory
  match f.entries.get? p with
  | some bytes =>
    match String.fromUTF8? bytes with
    | some s => return s
    | none => throw .notText
  | none => throw .notFound

/-- The place of a file that is to be written, there or not. A path that ends in a slash names a
directory, so its last name is not looked up. -/
def placeToWrite (f : Files) (path : String) : Except IoError Place := do
  let (here, names) ← Place.ofPath path
  if names.getLast? = some "" then
    let _ ← f.walk here ((names.reverse.dropWhile (· = "")).reverse.dropLast ++ [""])
    throw .isDirectory
  let p ← f.walk here names
  if f.isDirectory p then throw .isDirectory
  return p

/-- Let a place hold a text and nothing else. -/
def put (f : Files) (p : Place) (s : String) : Files :=
  { f with entries := f.entries.insert p s.toUTF8 }

def write (f : Files) (path : String) (s : String) : Except IoError Files := do
  return f.put (← f.placeToWrite path) s

/-- `old` with `new` in place of the bytes from `offset` on. A gap before them is filled with
zeros. -/
def overwritten (old : ByteArray) (offset : Nat) (new : ByteArray) : ByteArray :=
  old.extract 0 offset ++ ⟨Array.replicate (offset - old.size) 0⟩ ++ new ++
    old.extract (offset + new.size) old.size

/-- Write a text into a file from `offset` on, and leave the rest of it. -/
def overwrite (f : Files) (p : Place) (offset : Nat) (s : String) : Files :=
  let old := (f.entries.get? p).getD .empty
  { f with entries := f.entries.insert p (overwritten old offset s.toUTF8) }

end Files

end Sluice
