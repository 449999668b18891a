import Sluice.Decimal
import Sluice.Span
import Sluice.Text.Quoted

/-! Tokens: punctuation, keywords, names and literals, each with the span it covers. -/
namespace Sluice

/-- Punctuation and operators written with signs. -/
inductive Symbol where
  | lparen | rparen | lbrace | rbrace | lbracket | rbracket
  | comma | colon | semicolon | dot | dotDot
  | arrow | fatArrow
  | assign | plusAssign | minusAssign | starAssign | slashAssign | percentAssign | caretAssign
  | plus | minus | star | slash | percent | caret
  | equal | notEqual | less | lessEqual | greater | greaterEqual
  | andAnd | orOr | pipe | bang
deriving DecidableEq, Repr, Inhabited

namespace Symbol

def label : Symbol → String
  | lparen => "LParen" | rparen => "RParen"
  | lbrace => "LBrace" | rbrace => "RBrace"
  | lbracket => "LBracket" | rbracket => "RBracket"
  | comma => "Comma" | colon => "Colon" | semicolon => "Semicolon"
  | dot => "Dot" | dotDot => "DotDot"
  | arrow => "Arrow" | fatArrow => "FatArrow"
  | assign => "Eq" | plusAssign => "PlusEq" | minusAssign => "MinusEq"
  | starAssign => "StarEq" | slashAssign => "SlashEq" | percentAssign => "PercentEq"
  | caretAssign => "CaretEq"
  | plus => "Plus" | minus => "Minus" | star => "Star" | slash => "Slash"
  | percent => "Percent" | caret => "Caret"
  | equal => "EqEq" | notEqual => "BangEq"
  | less => "Lt" | lessEqual => "Le" | greater => "Gt" | greaterEqual => "Ge"
  | andAnd => "AndAnd" | orOr => "OrOr" | pipe => "Pipe" | bang => "Bang"

/-- Signs of two characters; they win over the sign that their first character is. -/
def ofPair? (a b : Char) : Option Symbol :=
  match a, b with
  | '&', '&' => some andAnd
  | '|', '|' => some orOr
  | '=', '=' => some equal
  | '=', '>' => some fatArrow
  | '!', '=' => some notEqual
  | '<', '=' => some lessEqual
  | '>', '=' => some greaterEqual
  | '-', '>' => some arrow
  | '+', '=' => some plusAssign
  | '-', '=' => some minusAssign
  | '*', '=' => some starAssign
  | '/', '=' => some slashAssign
  | '%', '=' => some percentAssign
  | '^', '=' => some caretAssign
  | '.', '.' => some dotDot
  | _, _ => none

def ofChar? (c : Char) : Option Symbol :=
  match c with
  | '(' => some lparen
  | ')' => some rparen
  | '{' => some lbrace
  | '}' => some rbrace
  | '[' => some lbracket
  | ']' => some rbracket
  | ',' => some comma
  | ':' => some colon
  | ';' => some semicolon
  | '.' => some dot
  | '+' => some plus
  | '-' => some minus
  | '*' => some star
  | '/' => some slash
  | '%' => some percent
  | '^' => some caret
  | '=' => some assign
  | '<' => some less
  | '>' => some greater
  | '!' => some bang
  | '|' => some pipe
  | _ => none

/-- Signs that cannot end an expression. -/
def wantsOperand : Symbol → Bool
  | lparen | rparen | lbrace | rbrace | lbracket | rbracket | semicolon => false
  | _ => true

end Symbol

inductive Keyword where
  | and | or | xor | not | shiftl | shiftr
  | break | classWord | const | continue | derives | doWord | else | enum | false | for | fn
  | if | import | impl | in | match | module | null | pub | return | struct | true
  | typeclass | while
deriving DecidableEq, Repr, Inhabited

namespace Keyword

def all : List (String × Keyword) :=
  [("and", .and), ("or", .or), ("xor", .xor), ("not", .not), ("shiftl", .shiftl),
   ("shiftr", .shiftr), ("break", .break), ("class", .classWord), ("const", .const),
   ("continue", .continue), ("derives", .derives), ("do", .doWord), ("else", .else),
   ("enum", .enum), ("false", .false), ("for", .for), ("fn", .fn), ("if", .if),
   ("import", .import), ("impl", .impl), ("in", .in), ("match", .match), ("module", .module),
   ("null", .null), ("pub", .pub), ("return", .return), ("struct", .struct), ("true", .true),
   ("typeclass", .typeclass), ("while", .while)]

def ofWord? (word : String) : Option Keyword := all.lookup word

def label : Keyword → String
  | .and => "KwAnd" | .or => "KwOr" | .xor => "KwXor" | .not => "KwNot"
  | .shiftl => "KwShiftl" | .shiftr => "KwShiftr"
  | .break => "KwBreak" | .classWord => "KwClass" | .const => "KwConst" | .continue => "KwContinue"
  | .derives => "KwDerives" | .doWord => "KwDo" | .else => "KwElse" | .enum => "KwEnum"
  | .false => "KwFalse" | .for => "KwFor" | .fn => "KwFn" | .if => "KwIf"
  | .import => "KwImport" | .impl => "KwImpl" | .in => "KwIn" | .match => "KwMatch"
  | .module => "KwModule" | .null => "KwNull" | .pub => "KwPub" | .return => "KwReturn"
  | .struct => "KwStruct" | .true => "KwTrue" | .typeclass => "KwTypeclass"
  | .while => "KwWhile"

/-- Words that are operators. -/
def wantsOperand : Keyword → Bool
  | .and | .or | .xor | .not | .shiftl | .shiftr => .true
  | _ => .false

end Keyword

def builtinTypes : List String := ["Bool", "Char", "Double", "Float", "Int", "Integer", "String"]

inductive Token.Kind where
  /-- End of the source. -/
  | eof
  /-- End of a statement at the end of a line. -/
  | stmtEnd
  | symbol (s : Symbol)
  | keyword (k : Keyword)
  | ident (name : String)
  | typeName (name : String)
  | int (value : Int64)
  | float (value : Float)
  | char (value : Char)
  | str (value : String)
deriving Repr, Inhabited

structure Token where
  kind : Token.Kind
  span : Span
deriving Repr, Inhabited

namespace Token.Kind

/-- Whether a line that ends in this token goes on in the next one. -/
def wantsOperand : Kind → Bool
  | symbol s => s.wantsOperand
  | keyword k => k.wantsOperand
  | _ => false

def label : Kind → String
  | eof => "Eof"
  | stmtEnd => "StmtEnd"
  | symbol s => s.label
  | keyword k => k.label
  | ident _ => "Ident"
  | typeName _ => "TypeName"
  | int _ => "Int"
  | float _ => "Float"
  | char _ => "Char"
  | str _ => "Str"

/-- The label with what the token holds. -/
def labelled (k : Kind) : String :=
  match k with
  | ident s | typeName s | str s => k.label ++ "(" ++ Text.quoted s ++ ")"
  | int v => k.label ++ "(" ++ toString v.toInt ++ ")"
  | float v => k.label ++ "(" ++ Decimal.Layout.program.write v ++ ")"
  | char c => k.label ++ "(" ++ Text.quotedChar c ++ ")"
  | k => k.label

def describe : Kind → String
  | eof => "end of input"
  | stmtEnd => "end of statement"
  | ident s => s!"identifier `{s}`"
  | typeName s => s!"type `{s}`"
  | int v => s!"integer `{v.toInt}`"
  | float v => s!"float `{Decimal.Layout.plain.write v}`"
  | str s => s!"string {Text.quoted s}"
  | char c => s!"char {Text.quotedChar c}"
  | symbol s => s.label
  | keyword k => k.label

/-- What a word is: a reserved word, a built-in type or a name. -/
def ofWord (word : String) : Kind :=
  match Keyword.ofWord? word with
  | some k => keyword k
  | none => if word ∈ builtinTypes then typeName word else ident word

end Token.Kind

end Sluice
