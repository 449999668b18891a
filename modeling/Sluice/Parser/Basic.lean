import Sluice.Ast
import Sluice.Token

/-! What every part of the grammar is read with. A parse is given a list of tokens and hands
back a shorter one, so that each function says in its type that it uses at least one token. -/
namespace Sluice

/-- Why a list of tokens is no module: what was expected where, and what stood there. -/
structure ParseError where
  expected : String
  found : String
  line : Nat
  col : Nat
deriving DecidableEq, Repr

def ParseError.message (e : ParseError) : String :=
  s!"parse error at {e.line}:{e.col}: expected {e.expected}, found {e.found}"

namespace Parser

abbrev Tokens := List Token

/-- What was read from `whole`, and the tokens that are left. -/
structure Parsed (α : Type) (whole : Tokens) where
  value : α
  rest : Tokens
  shorter : rest.length < whole.length

abbrev Result (α : Type) (whole : Tokens) := Except ParseError (Parsed α whole)

section Shorter

variable {a b c d e : Tokens}

/-- What is left after two steps is shorter, and so on below. -/
theorem shorter_two (h₁ : b.length < a.length) (h₂ : c.length < b.length) :
    c.length < a.length := Nat.lt_trans h₂ h₁

theorem shorter_three (h₁ : b.length < a.length) (h₂ : c.length < b.length)
    (h₃ : d.length < c.length) : d.length < a.length := shorter_two (shorter_two h₁ h₂) h₃

theorem shorter_four (h₁ : b.length < a.length) (h₂ : c.length < b.length)
    (h₃ : d.length < c.length) (h₄ : e.length < d.length) : e.length < a.length :=
  shorter_two (shorter_three h₁ h₂ h₃) h₄

/-- A step may be one that skips nothing. -/
theorem shorter_skip (h₁ : b.length < a.length) (h₂ : c.length ≤ b.length) :
    c.length < a.length := Nat.lt_of_le_of_lt h₂ h₁

end Shorter

/-- The next token; past the end it is an `eof`. -/
def peek (ts : Tokens) : Token := ts.headD ⟨.eof, default⟩

def failAt {α : Type} (span : Span) (expected found : String) : Except ParseError α :=
  .error ⟨expected, found, span.line, span.col⟩

def fail {α : Type} (expected : String) (ts : Tokens) : Except ParseError α :=
  failAt (peek ts).span expected (peek ts).kind.describe

def next : (ts : Tokens) → Option (Parsed Token ts)
  | t :: r => some ⟨t, r, Nat.lt_succ_self _⟩
  | [] => none

def eat (s : Symbol) : (ts : Tokens) → Option (Parsed Span ts)
  | ⟨.symbol s', span⟩ :: r => if s' = s then some ⟨span, r, Nat.lt_succ_self _⟩ else none
  | _ => none

def eatWord (k : Keyword) : (ts : Tokens) → Option (Parsed Span ts)
  | ⟨.keyword k', span⟩ :: r => if k' = k then some ⟨span, r, Nat.lt_succ_self _⟩ else none
  | _ => none

def expect (s : Symbol) (what : String) (ts : Tokens) : Result Span ts :=
  match eat s ts with
  | some p => .ok p
  | none => fail what ts

def expectWord (k : Keyword) (what : String) (ts : Tokens) : Result Span ts :=
  match eatWord k ts with
  | some p => .ok p
  | none => fail what ts

def isAt (s : Symbol) (ts : Tokens) : Bool := (eat s ts).isSome

def ident : (ts : Tokens) → Result Ident ts
  | ⟨.ident name, span⟩ :: r => .ok ⟨⟨name, span⟩, r, Nat.lt_succ_self _⟩
  | ts => fail "identifier" ts

/-- A type is named by an identifier or a built-in type name. -/
def typeName : (ts : Tokens) → Result Ident ts
  | ⟨.ident name, span⟩ :: r | ⟨.typeName name, span⟩ :: r =>
    .ok ⟨⟨name, span⟩, r, Nat.lt_succ_self _⟩
  | ts => fail "type name" ts

def literal? : Token.Kind → Option Literal
  | .int v => some (.int v)
  | .float v => some (.float v)
  | .str s => some (.str s)
  | .char c => some (.char c)
  | .keyword .true => some (.bool true)
  | .keyword .false => some (.bool false)
  | .keyword .null => some .null
  | _ => none

def endsStmt : Token.Kind → Bool
  | .stmtEnd | .symbol .semicolon => true
  | _ => false

/-- What may stand between the members of a `{ … }` list. -/
def separates : Token.Kind → Bool
  | .symbol .comma => true
  | k => endsStmt k

/-- The tokens after those of the class `p`. -/
def skip (p : Token.Kind → Bool) (ts : Tokens) : { r : Tokens // r.length ≤ ts.length } :=
  ⟨ts.dropWhile (p ·.kind), (List.dropWhile_sublist _).length_le⟩

end Parser

end Sluice
