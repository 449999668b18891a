import Sluice.Token

/-! From source text to tokens. A lexeme is read from the text alone; which line ends count as
ends of statements is decided beside it, from the tokens seen so far. -/
namespace Sluice

inductive LexError.Kind where
  | unexpectedChar (c : Char)
  | unterminatedString
  | unterminatedChar
  | badCharLiteral
  | malformedNumber (text : String)
  | intOverflow (text : String)
deriving DecidableEq, Repr

structure LexError where
  kind : LexError.Kind
  line : Nat
  col : Nat
deriving DecidableEq, Repr

namespace LexError

def Kind.message : Kind → String
  | unexpectedChar c => s!"unexpected character {Text.quotedChar c}"
  | unterminatedString => "unterminated string literal"
  | unterminatedChar => "unterminated char literal"
  | badCharLiteral => "char literal must hold exactly one character"
  | malformedNumber t => s!"malformed number literal `{t}` (digits required on both sides of '.')"
  | intOverflow t => s!"integer literal `{t}` out of range"

def message (e : LexError) : String := s!"lex error at {e.line}:{e.col}: {e.kind.message}"

end LexError

/-- The first lexeme of the text `c :: cs`: its kind, what it holds after `c`, and what follows
it. -/
structure Lexeme (c : Char) (cs : List Char) where
  kind : Token.Kind
  tail : List Char
  rest : List Char
  split : tail ++ rest = cs

namespace Lexeme

variable {c : Char} {cs : List Char}

theorem rest_length_le (l : Lexeme c cs) : l.rest.length ≤ cs.length := by
  have h := congrArg List.length l.split
  simp only [List.length_append] at h
  omega

/-- The character that `c` stands for after a backslash. -/
def unescape (c : Char) : Char :=
  match c with
  | 'n' => '\n'
  | 't' => '\t'
  | 'r' => '\r'
  | '0' => '\x00'
  | c => c

/-- What was read of a string literal: its value, its text and what follows. -/
structure Body where
  value : List Char
  text : List Char
  rest : List Char

/-- Read a string literal up to its closing quote. `value` and `used` hold, last first, the
characters it stands for and the text read so far. Only an ASCII character may follow a backslash;
at any other the program breaks off. -/
def stringBody : (cs value used : List Char) → Option Body
  | [], _, _ => none
  | '"' :: r, value, used => some ⟨value.reverse, ('"' :: used).reverse, r⟩
  | ['\\'], _, _ => none
  | '\\' :: e :: r, value, used =>
    if e.toNat < 128 then stringBody r (unescape e :: value) (e :: '\\' :: used) else none
  | c :: r, value, used => stringBody r (c :: value) (c :: used)

theorem stringBody_split {cs value used : List Char} {b : Body}
    (h : stringBody cs value used = some b) : b.text ++ b.rest = used.reverse ++ cs := by
  fun_induction stringBody cs value used with
  | case1 => simp at h
  | case2 => simp at h; subst h; simp
  | case3 => simp at h
  | case4 _ _ _ _ _ ih => simpa using ih h
  | case5 => simp at h
  | case6 _ _ _ _ _ _ _ ih => simpa using ih h

/-- Read a character literal after its opening quote: the character and the length of the rest
of the literal. Here too, only ASCII characters may follow a backslash. -/
def charBody (cs : List Char) : Except LexError.Kind (Char × Nat) :=
  match cs with
  | [] => .error .unterminatedChar
  | '\n' :: _ => .error .unterminatedChar
  | '\'' :: _ => .error .badCharLiteral
  | ['\\'] => .error .unterminatedChar
  | '\\' :: e :: r => if e.toNat < 128 then closed (unescape e) 3 r else .error .badCharLiteral
  | c :: r => closed c 2 r
where
  /-- Only a quote may follow the character. -/
  closed (c : Char) (n : Nat) : List Char → Except LexError.Kind (Char × Nat)
    | '\'' :: _ => .ok (c, n)
    | [] | '\n' :: _ => .error .unterminatedChar
    | _ :: _ => .error .badCharLiteral

def isWordChar (c : Char) : Bool := c.isAlphanum || c = '_'

/-- The number that a list of decimal digits writes. -/
def natOfDigits (ds : List Char) : Nat := ds.foldl (fun n c => 10 * n + (c.toNat - '0'.toNat)) 0

def maxInt : Nat := 0x7fffffffffffffff

/-- The kind of a number without a point. -/
def intKind (ds : List Char) : Except LexError.Kind Token.Kind :=
  if natOfDigits ds ≤ maxInt then .ok (.int (Int64.ofNat (natOfDigits ds)))
  else .error (.intOverflow (String.ofList ds))

/-- The lexeme of `c` and the next `n` characters. -/
def take (kind : Token.Kind) (n : Nat) : Lexeme c cs :=
  ⟨kind, cs.take n, cs.drop n, List.take_append_drop ..⟩

/-- The lexeme of `c` and all that follows it in the class `p`. -/
def takeWhile (kind : Token.Kind) (p : Char → Bool) : Lexeme c cs :=
  ⟨kind, cs.takeWhile p, cs.dropWhile p, List.takeWhile_append_dropWhile⟩

/-- Read a number that starts with the digit `c`. A point makes it a fraction, which needs digits
after it, unless a second point follows. -/
def readNumber (c : Char) (cs : List Char) : Except LexError.Kind (Lexeme c cs) :=
  let whole := c :: cs.takeWhile Char.isDigit
  match h : cs.dropWhile Char.isDigit with
  | '.' :: r =>
    if r.head? = some '.' then return takeWhile (← intKind whole) Char.isDigit
    else match r.takeWhile Char.isDigit with
      | [] => .error (.malformedNumber (String.ofList (whole ++ ['.'])))
      | frac => .ok
        { kind := .float (Decimal.read whole frac)
          tail := cs.takeWhile Char.isDigit ++ '.' :: r.takeWhile Char.isDigit
          rest := r.dropWhile Char.isDigit
          split := by
            rw [List.append_assoc, List.cons_append, List.takeWhile_append_dropWhile, ← h,
              List.takeWhile_append_dropWhile] }
  | _ => return takeWhile (← intKind whole) Char.isDigit

def read (c : Char) (cs : List Char) : Except LexError.Kind (Lexeme c cs) :=
  match cs.head?.bind (Symbol.ofPair? c), Symbol.ofChar? c with
  | some s, _ => .ok (take (.symbol s) 1)
  | none, some s =>
    if s = .dot ∧ cs.head?.any Char.isDigit then
      .error (.malformedNumber (String.ofList (c :: cs.take 1)))
    else .ok (take (.symbol s) 0)
  | none, none =>
    if c = '"' then
      match h : stringBody cs [] [] with
      | none => .error .unterminatedString
      | some b => .ok ⟨.str (String.ofList b.value), b.text, b.rest, stringBody_split h⟩
    else if c = '\'' then return (fun (v, n) => take (.char v) n) (← charBody cs)
    else if c.isDigit then readNumber c cs
    else if c.isAlpha || c = '_' then
      .ok (takeWhile (.ofWord (String.ofList (c :: cs.takeWhile isWordChar))) isWordChar)
    else .error (.unexpectedChar c)

end Lexeme

inductive Delim where
  | paren | bracket | brace
deriving DecidableEq, Repr

/-- What the tokens so far say about the next line end. -/
structure LineState where
  /-- Brackets that are open, innermost first. -/
  delims : List Delim := []
  /-- Whether the last token leaves the statement open. -/
  continues : Bool := true
  /-- How many `<` of type arguments such as `List<Int>` are open. -/
  typeArgs : Nat := 0
  /-- Where the last token ends, if it can be the head of a type with arguments. -/
  typeHead : Option Nat := none
deriving DecidableEq, Repr

namespace LineState

/-- Whether a line end here ends a statement: not inside `(` or `[`, nor after a token that
leaves the statement open. -/
def breaksLine (l : LineState) : Bool :=
  !l.continues && match l.delims with
    | .paren :: _ | .bracket :: _ => false
    | _ => true

/-- Brackets open after a token. A closing bracket closes whichever one is innermost. -/
def nextDelims (ds : List Delim) : Token.Kind → List Delim
  | .symbol .lparen => .paren :: ds
  | .symbol .lbracket => .bracket :: ds
  | .symbol .lbrace => .brace :: ds
  | .symbol .rparen | .symbol .rbracket | .symbol .rbrace => ds.tail
  | _ => ds

/-- Type arguments open after a token: a `<` right behind a type name opens one. -/
def nextTypeArgs (l : LineState) (t : Token) : Nat :=
  match t.kind with
  | .symbol .less => if l.typeHead = some t.span.start then l.typeArgs + 1 else l.typeArgs
  | .symbol .greater => l.typeArgs - 1
  | .stmtEnd | .symbol .semicolon | .symbol .lbrace | .symbol .rbrace => 0
  | _ => l.typeArgs

/-- A built-in type or a capitalised name can head a type with arguments. -/
def headsType : Token.Kind → Bool
  | .typeName _ => true
  | .ident name => name.toList.head?.any Char.isUpper
  | _ => false

/-- Whether a statement is open after a token. A `>` that closes type arguments ends a type. -/
def leavesOpen (l : LineState) : Token.Kind → Bool
  | .stmtEnd | .symbol .semicolon | .symbol .lbrace => true
  | .symbol .greater => l.typeArgs = 0
  | k => k.wantsOperand

def next (l : LineState) (t : Token) : LineState where
  delims := nextDelims l.delims t.kind
  continues := l.leavesOpen t.kind
  typeArgs := l.nextTypeArgs t
  typeHead := if headsType t.kind then some t.span.stop else none

end LineState

def isBlank (c : Char) : Bool := c = ' ' || c = '\t' || c = '\r' || c = '\x0c'

/-- What lies between two tokens: where it ends, the text after it, and the point before the
line end that ended it, if one did. -/
structure Gap where
  pos : Position
  rest : List Char
  lineEnd : Option Position

namespace Gap

/-- Skip blanks, comments and, unless `breaks`, line ends. -/
def skip (breaks inComment : Bool) (p : Position) : List Char → Gap
  | [] => ⟨p, [], none⟩
  | c :: r =>
    if c = '\n' then
      if breaks then ⟨p.advance c, r, some p⟩ else skip breaks false (p.advance c) r
    else if inComment || isBlank c then skip breaks inComment (p.advance c) r
    else if c = '/' && r.head? = some '/' then skip breaks true (p.advance c) r
    else ⟨p, c :: r, none⟩

theorem rest_skip_le (breaks inComment : Bool) (p : Position) (cs : List Char) :
    (skip breaks inComment p cs).rest.length ≤ cs.length := by
  fun_induction skip breaks inComment p cs with
  | case1 => exact Nat.le_refl _
  | case2 => exact Nat.le_succ _
  | case3 _ _ _ _ ih => exact Nat.le_succ_of_le ih
  | case4 _ _ _ _ _ _ ih => exact Nat.le_succ_of_le ih
  | case5 _ _ _ _ _ _ _ ih => exact Nat.le_succ_of_le ih
  | case6 => exact Nat.le_refl _

/-- A line end is taken off the text. -/
theorem rest_skip_lt (breaks inComment : Bool) (p : Position) (cs : List Char)
    (h : (skip breaks inComment p cs).lineEnd.isSome) :
    (skip breaks inComment p cs).rest.length < cs.length := by
  fun_induction skip breaks inComment p cs with
  | case1 => simp at h
  | case2 => exact Nat.lt_succ_self _
  | case3 => exact Nat.lt_succ_of_le (rest_skip_le ..)
  | case4 => exact Nat.lt_succ_of_le (rest_skip_le ..)
  | case5 => exact Nat.lt_succ_of_le (rest_skip_le ..)
  | case6 => simp at h

end Gap

namespace Token

/-- The tokens of `cs`, which starts at `p`, after those of `seen` (last first). -/
def scanFrom (l : LineState) (p : Position) (cs : List Char) (seen : List Token) :
    Except LexError (List Token) :=
  match hg : Gap.skip l.breaksLine false p cs with
  | ⟨q, rest, some start⟩ =>
    let t : Token := ⟨.stmtEnd, start.spanTo q⟩
    scanFrom (l.next t) q rest (t :: seen)
  | ⟨q, [], none⟩ =>
    let here := q.spanTo q
    let ends := if l.continues then [⟨.eof, here⟩] else [⟨.stmtEnd, here⟩, ⟨.eof, here⟩]
    .ok (seen.reverse ++ ends)
  | ⟨q, c :: r, none⟩ =>
    match Lexeme.read c r with
    | .error k => .error ⟨k, q.line, q.col⟩
    | .ok lx =>
      let e := q.after (c :: lx.tail)
      let t : Token := ⟨lx.kind, q.spanTo e⟩
      scanFrom (l.next t) e lx.rest (t :: seen)
termination_by cs.length
decreasing_by
  · have h := Gap.rest_skip_lt l.breaksLine false p cs
    rw [hg] at h
    exact h rfl
  · have h := Gap.rest_skip_le l.breaksLine false p cs
    have := lx.rest_length_le
    rw [hg] at h
    simp only [List.length_cons] at h
    omega

/-- The tokens of a source text; the last one is the only `eof`. -/
def scan (src : String) : Except LexError (List Token) := scanFrom {} .zero src.toList []

end Token

end Sluice
