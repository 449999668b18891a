import Sluice.Parser.Module

/-! From the text of a file to its module. -/
namespace Sluice

inductive SourceError where
  | lex (e : LexError)
  | parse (e : ParseError)
deriving DecidableEq, Repr

def SourceError.message : SourceError → String
  | .lex e => e.message
  | .parse e => e.message

/-- The last part of a path that names a file; `.` and empty parts do not count. -/
def fileName? (path : String) : Option String :=
  match ((path.splitOn "/").filter fun part => part ≠ "" && part ≠ ".").getLast? with
  | some ".." | none => none
  | some part => some part

/-- A file name without what follows its last dot; a dot in front does not count. -/
def stem (name : String) : String :=
  match name.toList.reverse.dropWhile (· ≠ '.') with
  | [] | ['.'] => name
  | _ :: before => String.ofList before.reverse

/-- The module of a file is named after the file. -/
def moduleName (file : String) : String := ((fileName? file).map stem).getD file

def Module.read (file src : String) : Except SourceError Module := do
  let tokens ← (Token.scan src).mapError .lex
  (Parser.module (moduleName file) tokens).mapError .parse

end Sluice
