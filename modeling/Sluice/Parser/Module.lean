import Sluice.Parser.Declaration
import Sluice.Parser.Pattern
import Sluice.Token.Lexer

/-! Expressions, statements, blocks and modules. Binary operators are read by precedence
climbing; `depth` counts the blocks and expressions around the one being read. -/
namespace Sluice.Parser

def maxNesting : Nat := 128

/-- The binary operator that a token is, and how tightly it binds. -/
def binaryOp? : Token.Kind → Option (BinaryOp × Nat)
  | .symbol .orOr => some (.or, 4)
  | .symbol .andAnd => some (.and, 6)
  | .symbol .equal => some (.eq, 8)
  | .symbol .notEqual => some (.ne, 8)
  | .symbol .less => some (.lt, 8)
  | .symbol .lessEqual => some (.le, 8)
  | .symbol .greater => some (.gt, 8)
  | .symbol .greaterEqual => some (.ge, 8)
  | .keyword .or => some (.bitOr, 10)
  | .keyword .xor => some (.bitXor, 12)
  | .keyword .and => some (.bitAnd, 14)
  | .keyword .shiftl => some (.shl, 16)
  | .keyword .shiftr => some (.shr, 16)
  | .symbol .plus => some (.add, 18)
  | .symbol .minus => some (.sub, 18)
  | .symbol .star => some (.mul, 20)
  | .symbol .slash => some (.div, 20)
  | .symbol .percent => some (.rem, 20)
  | .symbol .caret => some (.pow, 24)
  | _ => none

/-- How tightly `|` binds: looser than every operator. -/
def pipePower : Nat := 2

/-- How tightly prefix operators bind: looser than `^` only. -/
def unaryPower : Nat := 22

def unaryOp? : Token.Kind → Option UnaryOp
  | .symbol .bang => some .not
  | .keyword .not => some .bitNot
  | .symbol .minus => some .neg
  | _ => none

/-- The assignment that a token starts: its operator, if it is a compound one. -/
def assignOp? : Token.Kind → Option (Option BinaryOp)
  | .symbol .assign => some none
  | .symbol .plusAssign => some (some .add)
  | .symbol .minusAssign => some (some .sub)
  | .symbol .starAssign => some (some .mul)
  | .symbol .slashAssign => some (some .div)
  | .symbol .percentAssign => some (some .rem)
  | .symbol .caretAssign => some (some .pow)
  | _ => none

/-- Names, elements and fields can be assigned to. -/
def isAssignable : Expr → Bool
  | .var _ | .index .. | .member .. => true
  | _ => false

/-- `lhs | stage`: a chain of stages is one composition. -/
def addStage (lhs stage : Expr) : Expr :=
  match lhs with
  | .compose stages mode span => .compose (stages ++ [stage]) mode (span.through stage.span)
  | first => .compose [first, stage] .immediate (first.span.through stage.span)

/-- `base.name`: a chain of names is one access. -/
def addMember (base : Expr) (name : Ident) : Expr :=
  match base with
  | .member inner names span => .member inner (names ++ [name]) (span.through name.span)
  | base => .member base [name] (base.span.through name.span)

/-- A composition that is bound to a name becomes a function. -/
def defer : Expr → Expr
  | .compose stages _ span => .compose stages .deferred span
  | e => e

/-- What may follow `return` without a value. -/
def endsReturn : Token.Kind → Bool
  | .stmtEnd | .symbol .semicolon | .symbol .rbrace | .eof => true
  | _ => false

/-- Whether the statements of a block end here: at `}` for a block, at the end of the source for
a module. -/
def isBlockEnd (inner : Bool) : Token.Kind → Bool
  | .symbol .rbrace => inner
  | .eof => !inner
  | _ => false

/-- Take an `else`, on this line or the next. -/
def eatElse (ts : Tokens) : Option (Parsed Span ts) :=
  match ts with
  | ⟨.stmtEnd, _⟩ :: r => (eatWord .else r).map fun ⟨s, r', h⟩ => ⟨s, r', Nat.lt_succ_of_lt h⟩
  | ts => eatWord .else ts

/-- The type that an implementation is for, after `for`. -/
def implTarget (whole ts : Tokens) (h : ts.length < whole.length) :
    Result (Option Ident) whole := do
  match eatWord .for ts with
  | some ⟨_, ts₁, h₁⟩ =>
    let ⟨t, ts₂, h₂⟩ ← typeName ts₁
    return ⟨some t, ts₂, shorter_three h h₁ h₂⟩
  | none => return ⟨none, ts, h⟩

mutual

/-- An expression whose operators bind at least as tightly as `power`. -/
def expr (depth power : Nat) (ts : Tokens) : Result Expr ts := do
  if maxNesting ≤ depth then fail s!"nesting depth at most {maxNesting}" ts
  else
    let ⟨first, ts₁, h₁⟩ ← operand (depth + 1) ts
    operators (depth + 1) power ts first ts₁ h₁
termination_by 8 * ts.length + 2
decreasing_by all_goals omega

/-- The suffixes and operators after `lhs`. -/
def operators (depth power : Nat) (whole : Tokens) (lhs : Expr) (ts : Tokens)
    (h : ts.length < whole.length) : Result Expr whole := do
  let some ⟨⟨kind, _⟩, r, hr⟩ := next ts | return ⟨lhs, ts, h⟩
  match kind with
  | .symbol .lparen =>
    let ⟨(args, stop), ts₁, h₁⟩ ← callArgs depth ts [] r hr
    operators depth power whole (.call lhs args (lhs.span.through stop)) ts₁ (by omega)
  | .symbol .lbracket =>
    let ⟨key, ts₁, h₁⟩ ← expr depth 0 r
    let ⟨stop, ts₂, h₂⟩ ← expect .rbracket "`]`" ts₁
    operators depth power whole (.index lhs key (lhs.span.through stop)) ts₂ (by omega)
  | .symbol .dot =>
    let ⟨name, ts₁, h₁⟩ ← ident r
    operators depth power whole (addMember lhs name) ts₁ (by omega)
  | .symbol .pipe =>
    if pipePower < power then return ⟨lhs, ts, h⟩
    else
      let ⟨stage, ts₁, h₁⟩ ← expr depth (pipePower + 1) r
      operators depth power whole (addStage lhs stage) ts₁ (by omega)
  | kind =>
    match binaryOp? kind with
    | none => return ⟨lhs, ts, h⟩
    | some (op, p) =>
      if p < power then return ⟨lhs, ts, h⟩
      else
        let ⟨rhs, ts₁, h₁⟩ ← expr depth (p + 1) r
        operators depth power whole (.binary lhs op rhs (lhs.span.through rhs.span)) ts₁ (by omega)
termination_by 8 * ts.length + 6
decreasing_by all_goals omega

/-- Arguments up to and with the closing parenthesis, and its place. -/
def callArgs (depth : Nat) (whole : Tokens) (seen : List Expr) (ts : Tokens)
    (h : ts.length < whole.length) : Result (List Expr × Span) whole := do
  if let some ⟨stop, ts₁, h₁⟩ := eat .rparen ts then
    return ⟨(seen.reverse, stop), ts₁, shorter_two h h₁⟩
  let ⟨arg, ts₁, h₁⟩ ← expr depth 0 ts
  match eat .comma ts₁ with
  | some ⟨_, ts₂, h₂⟩ => callArgs depth whole (arg :: seen) ts₂ (shorter_three h h₁ h₂)
  | none =>
    let ⟨stop, ts₂, h₂⟩ ← expect .rparen "`)` or `,`" ts₁
    return ⟨((arg :: seen).reverse, stop), ts₂, shorter_three h h₁ h₂⟩
termination_by 8 * ts.length + 6
decreasing_by all_goals omega

/-- An expression before its suffixes and operators. -/
def operand (depth : Nat) (ts : Tokens) : Result Expr ts := do
  let some ⟨⟨kind, span⟩, r, h⟩ := next ts | fail "expression" ts
  if let some op := unaryOp? kind then
    let ⟨e, ts₁, h₁⟩ ← expr depth unaryPower r
    return ⟨.unary op e (span.through e.span), ts₁, by omega⟩
  if let some l := literal? kind then
    return ⟨.lit l span, r, h⟩
  match kind with
  | .ident "_" => return ⟨.placeholder span, r, h⟩
  | .ident name => return ⟨.var ⟨name, span⟩, r, h⟩
  | .symbol .lparen =>
    let ⟨(elems, trailing), ts₁, h₁⟩ ← exprList depth ts [] false r h
    let ⟨stop, ts₂, h₂⟩ ← expect .rparen "`)`" ts₁
    match elems, trailing with
    | [_], true => failAt stop "tuple with 0 or at least 2 elements" "one-element tuple"
    | [e], false => return ⟨.paren e (span.through stop), ts₂, by omega⟩
    | es, _ => return ⟨.tuple es (span.through stop), ts₂, by omega⟩
  | .symbol .lbracket =>
    if let some ⟨stop, ts₁, h₁⟩ := eat .rbracket r then
      return ⟨.list [] (span.through stop), ts₁, by omega⟩
    let ⟨first, ts₁, h₁⟩ ← expr depth 0 r
    if let some ⟨_, ts₂, h₂⟩ := eat .dotDot ts₁ then
      let ⟨hi, ts₃, h₃⟩ ← expr depth 0 ts₂
      let ⟨stop, ts₄, h₄⟩ ← expect .rbracket "`]`" ts₃
      return ⟨.range first hi (span.through stop), ts₄, by omega⟩
    let ⟨items, ts₂, h₂⟩ ← listItems depth r [first] ts₁ h₁
    let ⟨stop, ts₃, h₃⟩ ← expect .rbracket "`]` or `,`" ts₂
    return ⟨.list items (span.through stop), ts₃, by omega⟩
  | .symbol .lbrace =>
    let ⟨entries, ts₁, h₁⟩ ← mapEntries depth ts [] r h
    let ⟨stop, ts₂, h₂⟩ ← expect .rbrace "`\x7d`" ts₁
    return ⟨.map entries (span.through stop), ts₂, by omega⟩
  | .keyword .fn =>
    let ⟨ps, ts₁, h₁⟩ ← params r
    let ⟨result, ts₂, h₂⟩ ← typeAfter .arrow r ts₁ h₁
    let ⟨body, ts₃, h₃⟩ ← block depth ts₂
    return ⟨.lambda ps result body (span.through body.span), ts₃, by omega⟩
  | _ => fail "expression" ts
termination_by 8 * ts.length + 1
decreasing_by all_goals omega

/-- Expressions with commas between them up to `)`, and whether a comma came last. -/
def exprList (depth : Nat) (whole : Tokens) (seen : List Expr) (trailing : Bool) (ts : Tokens)
    (h : ts.length < whole.length) : Result (List Expr × Bool) whole := do
  if isAt .rparen ts then return ⟨(seen.reverse, trailing), ts, h⟩
  let ⟨e, ts₁, h₁⟩ ← expr depth 0 ts
  match eat .comma ts₁ with
  | some ⟨_, ts₂, h₂⟩ => exprList depth whole (e :: seen) true ts₂ (by omega)
  | none => return ⟨((e :: seen).reverse, false), ts₁, by omega⟩
termination_by 8 * ts.length + 6
decreasing_by all_goals omega

/-- The items of a list after the first, up to `]`. -/
def listItems (depth : Nat) (whole : Tokens) (seen : List Expr) (ts : Tokens)
    (h : ts.length < whole.length) : Result (List Expr) whole := do
  let some ⟨_, ts₁, h₁⟩ := eat .comma ts | return ⟨seen.reverse, ts, h⟩
  if isAt .rbracket ts₁ then return ⟨seen.reverse, ts₁, by omega⟩
  let ⟨e, ts₂, h₂⟩ ← expr depth 0 ts₁
  listItems depth whole (e :: seen) ts₂ (by omega)
termination_by 8 * ts.length + 6
decreasing_by all_goals omega

/-- The entries `key: value` of a map, up to `}`. -/
def mapEntries (depth : Nat) (whole : Tokens) (seen : List (Expr × Expr)) (ts : Tokens)
    (h : ts.length < whole.length) : Result (List (Expr × Expr)) whole := do
  let ⟨ts₀, h₀⟩ := skip separates ts
  if isAt .rbrace ts₀ then return ⟨seen.reverse, ts₀, by omega⟩
  let ⟨key, ts₁, h₁⟩ ← expr depth 0 ts₀
  let ⟨_, ts₂, h₂⟩ ← expect .colon "`:`" ts₁
  let ⟨value, ts₃, h₃⟩ ← expr depth 0 ts₂
  mapEntries depth whole ((key, value) :: seen) ts₃ (by omega)
termination_by 8 * ts.length + 6
decreasing_by all_goals omega

/-- `{ stmt* }` -/
def block (depth : Nat) (ts : Tokens) : Result Block ts := do
  if maxNesting ≤ depth then fail s!"nesting depth at most {maxNesting}" ts
  else
    let ⟨start, ts₁, h₁⟩ ← expect .lbrace "`\x7b`" ts
    let ⟨body, ts₂, h₂⟩ ← stmts (depth + 1) true ts [] ts₁ h₁
    let ⟨stop, ts₃, h₃⟩ ← expect .rbrace "`\x7d`" ts₂
    return ⟨⟨body, start.through stop⟩, ts₃, by omega⟩
termination_by 8 * ts.length
decreasing_by all_goals omega

/-- Statements up to the end of the block. -/
def stmts (depth : Nat) (inner : Bool) (whole : Tokens) (seen : List Stmt) (ts : Tokens)
    (h : ts.length < whole.length) : Result (List Stmt) whole := do
  let ⟨ts₀, h₀⟩ := skip endsStmt ts
  let kind := (peek ts₀).kind
  if isBlockEnd inner kind || isBlockEnd false kind then return ⟨seen.reverse, ts₀, by omega⟩
  else
    let ⟨s, ts₁, h₁⟩ ← stmt depth ts₀
    let kind := (peek ts₁).kind
    if endsStmt kind || isBlockEnd inner kind then
      stmts depth inner whole (s :: seen) ts₁ (by omega)
    else fail "end of statement" ts₁
termination_by 8 * ts.length + 7
decreasing_by all_goals omega

def stmt (depth : Nat) (ts : Tokens) : Result Stmt ts := do
  let some ⟨⟨kind, span⟩, r, h⟩ := next ts | exprStmt depth ts
  match kind with
  | .keyword .pub =>
    match peek r with
    | ⟨.keyword .fn, _⟩ =>
      let ⟨d, ts₁, h₁⟩ ← fnDecl depth r
      return ⟨.fn ⟨d.name, d.params, d.result, d.body, true, span.through d.span⟩, ts₁, by omega⟩
    | _ =>
      let ⟨s, ts₁, h₁⟩ ← varDef depth span true r
      return ⟨s, ts₁, by omega⟩
  | .keyword .const => varDef depth span false ts
  | .keyword .fn =>
    match peek r with
    | ⟨.ident _, _⟩ =>
      let ⟨d, ts₁, h₁⟩ ← fnDecl depth ts
      return ⟨.fn d, ts₁, h₁⟩
    | _ => exprStmt depth ts
  | .keyword .struct =>
    let ⟨d, ts₁, h₁⟩ ← structDef ts
    return ⟨.struct d, ts₁, h₁⟩
  | .keyword .enum =>
    let ⟨d, ts₁, h₁⟩ ← enumDef ts
    return ⟨.enum d, ts₁, h₁⟩
  | .keyword .typeclass =>
    let ⟨d, ts₁, h₁⟩ ← typeclassDef ts
    return ⟨.typeclass d, ts₁, h₁⟩
  | .keyword .impl =>
    let ⟨name, ts₁, h₁⟩ ← typeName r
    let ⟨target, ts₂, h₂⟩ ← implTarget r ts₁ h₁
    let ⟨_, ts₃, h₃⟩ ← expect .lbrace "`\x7b`" ts₂
    let ⟨methods, ts₄, h₄⟩ ← implMethods depth ts₂ [] ts₃ h₃
    let ⟨stop, ts₅, h₅⟩ ← expect .rbrace "`\x7d`" ts₄
    return ⟨.impl ⟨name, target, methods, span.through stop⟩, ts₅, by omega⟩
  | .keyword .for =>
    let ⟨pat, ts₁, h₁⟩ ← pattern r
    let ⟨_, ts₂, h₂⟩ ← expectWord .in "`in`" ts₁
    let ⟨iter, ts₃, h₃⟩ ← expr depth 0 ts₂
    let ⟨body, ts₄, h₄⟩ ← block depth ts₃
    return ⟨.forIn pat iter body (span.through body.span), ts₄, by omega⟩
  | .keyword .if =>
    let ⟨(branches, otherwise, stop), ts₁, h₁⟩ ← branches depth ts [] r h
    return ⟨.cond branches otherwise (span.through stop), ts₁, h₁⟩
  | .keyword .while =>
    let ⟨test, ts₁, h₁⟩ ← expr depth 0 r
    let ⟨body, ts₂, h₂⟩ ← block depth ts₁
    return ⟨.loop test body (span.through body.span), ts₂, by omega⟩
  | .keyword .match =>
    let ⟨scrutinee, ts₁, h₁⟩ ← expr depth 0 r
    let ⟨_, ts₂, h₂⟩ ← expect .lbrace "`\x7b`" ts₁
    let ⟨arms, ts₃, h₃⟩ ← matchArms depth ts₁ [] ts₂ h₂
    let ⟨stop, ts₄, h₄⟩ ← expect .rbrace "`\x7d`" ts₃
    return ⟨.select scrutinee arms (span.through stop), ts₄, by omega⟩
  | .keyword .import => importStmt ts
  | .keyword .module =>
    let ⟨name, ts₁, h₁⟩ ← ident r
    let ⟨body, ts₂, h₂⟩ ← block depth ts₁
    return ⟨.submodule name body (span.through body.span), ts₂, by omega⟩
  | .keyword .return =>
    if endsReturn (peek r).kind then return ⟨.ret none span, r, h⟩
    else
      let ⟨e, ts₁, h₁⟩ ← expr depth 0 r
      return ⟨.ret (some e) (span.through e.span), ts₁, by omega⟩
  | .keyword .break => return ⟨.leave span, r, h⟩
  | .keyword .continue => return ⟨.next span, r, h⟩
  | .keyword .classWord | .keyword .doWord => fail "statement (keyword is reserved)" ts
  | .ident _ =>
    if isAt .colon r then varDef depth span false ts else exprStmt depth ts
  | _ => exprStmt depth ts
termination_by 8 * ts.length + 5
decreasing_by all_goals omega

/-- `[const] name [: Type] = value` -/
def varDef (depth : Nat) (start : Span) (isPub : Bool) (ts : Tokens) : Result Stmt ts := do
  let (isConst, ⟨name, ts₁, h₁⟩) ← match eatWord .const ts with
    | some ⟨_, r, hr⟩ =>
      let ⟨name, ts₁, h₁⟩ ← ident r
      pure (true, (⟨name, ts₁, by omega⟩ : Parsed Ident ts))
    | none => pure (false, ← ident ts)
  let ⟨type, ts₂, h₂⟩ ← typeAfter .colon ts ts₁ h₁
  let ⟨_, ts₃, h₃⟩ ← expect .assign "`=`" ts₂
  let ⟨value, ts₄, h₄⟩ ← expr depth 0 ts₃
  return ⟨.var name type isConst isPub (defer value) (start.through value.span), ts₄, by omega⟩
termination_by 8 * ts.length + 4
decreasing_by all_goals omega

def exprStmt (depth : Nat) (ts : Tokens) : Result Stmt ts := do
  let ⟨e, ts₁, h₁⟩ ← expr depth 0 ts
  let some ⟨⟨kind, _⟩, ts₂, h₂⟩ := next ts₁ | return ⟨.expr e e.span, ts₁, h₁⟩
  match assignOp? kind with
  | none => return ⟨.expr e e.span, ts₁, h₁⟩
  | some op =>
    if isAssignable e then
      let ⟨value, ts₃, h₃⟩ ← expr depth 0 ts₂
      return ⟨.assign e op (defer value) (e.span.through value.span), ts₃, by omega⟩
    else failAt e.span "assignable target (name, element or field)" "expression"
termination_by 8 * ts.length + 4
decreasing_by all_goals omega

/-- `fn name(params) [-> Type] { … }` -/
def fnDecl (depth : Nat) (ts : Tokens) : Result FnDecl ts := do
  let ⟨start, ts₁, h₁⟩ ← expectWord .fn "`fn`" ts
  let ⟨name, ts₂, h₂⟩ ← ident ts₁
  let ⟨ps, ts₃, h₃⟩ ← params ts₂
  let ⟨result, ts₄, h₄⟩ ← typeAfter .arrow ts₂ ts₃ h₃
  let ⟨body, ts₅, h₅⟩ ← block depth ts₄
  return ⟨⟨name, ps, result, body, false, start.through body.span⟩, ts₅, by omega⟩
termination_by 8 * ts.length + 4
decreasing_by all_goals omega

/-- The methods of an implementation, up to `}`. -/
def implMethods (depth : Nat) (whole : Tokens) (seen : List FnDecl) (ts : Tokens)
    (h : ts.length < whole.length) : Result (List FnDecl) whole := do
  let ⟨ts₀, h₀⟩ := skip separates ts
  if isAt .rbrace ts₀ then return ⟨seen.reverse, ts₀, by omega⟩
  let ⟨d, ts₁, h₁⟩ ← fnDecl depth ts₀
  implMethods depth whole (d :: seen) ts₁ (by omega)
termination_by 8 * ts.length + 6
decreasing_by all_goals omega

/-- The branches of a conditional after `if`, the block of its `else`, and where it ends. An
`else` may stand on the line after the block before it. -/
def branches (depth : Nat) (whole : Tokens) (seen : List (Expr × Block)) (ts : Tokens)
    (h : ts.length < whole.length) :
    Result (List (Expr × Block) × Option Block × Span) whole := do
  let ⟨test, ts₁, h₁⟩ ← expr depth 0 ts
  let ⟨body, ts₂, h₂⟩ ← block depth ts₁
  let seen := (test, body) :: seen
  match eatElse ts₂ with
  | none => return ⟨(seen.reverse, none, body.span), ts₂, by omega⟩
  | some ⟨_, ts₃, h₃⟩ =>
    match eatWord .if ts₃ with
    | some ⟨_, ts₄, h₄⟩ => branches depth whole seen ts₄ (by omega)
    | none =>
      let ⟨last, ts₄, h₄⟩ ← block depth ts₃
      return ⟨(seen.reverse, some last, last.span), ts₄, by omega⟩
termination_by 8 * ts.length + 6
decreasing_by all_goals omega

/-- The arms `pattern => body` of a match, up to `}`. -/
def matchArms (depth : Nat) (whole : Tokens) (seen : List MatchArm) (ts : Tokens)
    (h : ts.length < whole.length) : Result (List MatchArm) whole := do
  let ⟨ts₀, h₀⟩ := skip separates ts
  if isAt .rbrace ts₀ then return ⟨seen.reverse, ts₀, by omega⟩
  let ⟨pat, ts₁, h₁⟩ ← pattern ts₀
  let ⟨_, ts₂, h₂⟩ ← expect .fatArrow "`=>`" ts₁
  if isAt .lbrace ts₂ then
    let ⟨b, ts₃, h₃⟩ ← block depth ts₂
    matchArms depth whole (⟨pat, .block b, pat.span.through b.span⟩ :: seen) ts₃ (by omega)
  else
    let ⟨e, ts₃, h₃⟩ ← expr depth 0 ts₂
    matchArms depth whole (⟨pat, .expr e, pat.span.through e.span⟩ :: seen) ts₃ (by omega)
termination_by 8 * ts.length + 6
decreasing_by all_goals omega

end

def module (name : String) (ts : Tokens) : Except ParseError Module := do
  let start := (peek ts).span
  let ⟨body, rest, _⟩ ← stmts 0 false (peek ts :: ts) [] ts (Nat.lt_succ_self _)
  let span := start.through (peek rest).span
  return ⟨name, ⟨body, span⟩, span⟩

end Sluice.Parser
