import Sluice.Parser.Basic

/-! Patterns. -/
namespace Sluice.Parser

/-- A negative number, after its sign. -/
def negative (start : Span) (ts : Tokens) : Result Pattern ts :=
  match next ts with
  | some ⟨⟨.int v, stop⟩, r, h⟩ => .ok ⟨.literal (.int (-v)) (start.through stop), r, h⟩
  | some ⟨⟨.float v, stop⟩, r, h⟩ => .ok ⟨.literal (.float (-v)) (start.through stop), r, h⟩
  | _ => fail "number after `-` in pattern" ts

mutual

def pattern (ts : Tokens) : Result Pattern ts := do
  let some ⟨⟨kind, span⟩, r, h⟩ := next ts | fail "pattern" ts
  match kind with
  | .ident "_" => return ⟨.wildcard span, r, h⟩
  | .ident "Nothing" => return ⟨.nothing span, r, h⟩
  | .ident "Just" =>
    let ⟨_, ts₁, h₁⟩ ← expect .lparen "`(`" r
    let ⟨inner, ts₂, h₂⟩ ← pattern ts₁
    let ⟨stop, ts₃, h₃⟩ ← expect .rparen "`)`" ts₂
    return ⟨.just inner (span.through stop), ts₃, by omega⟩
  | .ident text =>
    let name : Ident := ⟨text, span⟩
    if let some ⟨_, ts₁, h₁⟩ := eat .lparen r then
      let ⟨(fields, _), ts₂, h₂⟩ ← patternList r [] false ts₁ h₁
      let ⟨stop, ts₃, h₃⟩ ← expect .rparen "`)`" ts₂
      return ⟨.variant name fields (span.through stop), ts₃, by omega⟩
    if let some ⟨_, ts₁, h₁⟩ := eat .lbrace r then
      let ⟨fields, ts₂, h₂⟩ ← fieldPatterns r [] ts₁ h₁
      let ⟨stop, ts₃, h₃⟩ ← expect .rbrace "`\x7d`" ts₂
      return ⟨.record name fields (span.through stop), ts₃, by omega⟩
    return ⟨.name name, r, h⟩
  | .symbol .lparen =>
    let ⟨(elems, trailing), ts₁, h₁⟩ ← patternList ts [] false r h
    let ⟨stop, ts₂, h₂⟩ ← expect .rparen "`)`" ts₁
    match elems, trailing with
    | [_], true => failAt stop "tuple pattern with 0 or at least 2 elements" "one-element tuple"
    | [p], false => return ⟨p, ts₂, by omega⟩
    | ps, _ => return ⟨.tuple ps (span.through stop), ts₂, by omega⟩
  | .symbol .minus =>
    let ⟨p, ts₁, h₁⟩ ← negative span r
    return ⟨p, ts₁, by omega⟩
  | kind =>
    match literal? kind with
    | some l => return ⟨.literal l span, r, h⟩
    | none => fail "pattern" ts
termination_by 2 * ts.length
decreasing_by all_goals omega

/-- Patterns with commas between them up to `)`, and whether a comma came last. -/
def patternList (whole : Tokens) (seen : List Pattern) (trailing : Bool) (ts : Tokens)
    (h : ts.length < whole.length) : Result (List Pattern × Bool) whole := do
  if isAt .rparen ts then return ⟨(seen.reverse, trailing), ts, h⟩
  let ⟨p, ts₁, h₁⟩ ← pattern ts
  match eat .comma ts₁ with
  | some ⟨_, ts₂, h₂⟩ => patternList whole (p :: seen) true ts₂ (by omega)
  | none => return ⟨((p :: seen).reverse, false), ts₁, by omega⟩
termination_by 2 * ts.length + 1
decreasing_by all_goals omega

/-- The fields `x` and `y: p` of a record pattern, up to `}`. -/
def fieldPatterns (whole : Tokens) (seen : List (Ident × Pattern)) (ts : Tokens)
    (h : ts.length < whole.length) : Result (List (Ident × Pattern)) whole := do
  let ⟨ts₀, h₀⟩ := skip separates ts
  if isAt .rbrace ts₀ then return ⟨seen.reverse, ts₀, by omega⟩
  let ⟨name, ts₁, h₁⟩ ← ident ts₀
  match eat .colon ts₁ with
  | some ⟨_, ts₂, h₂⟩ =>
    let ⟨p, ts₃, h₃⟩ ← pattern ts₂
    fieldPatterns whole ((name, p) :: seen) ts₃ (by omega)
  | none => fieldPatterns whole ((name, .name name) :: seen) ts₁ (by omega)
termination_by 2 * ts.length + 1
decreasing_by all_goals omega

end

end Sluice.Parser
