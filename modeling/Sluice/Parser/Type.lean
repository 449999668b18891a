import Sluice.Parser.Basic

/-! Types, parameter lists and `derives` clauses. -/
namespace Sluice.Parser

mutual

/-- A type: `fn(A) -> B`, `(A, B)` or a name with optional arguments. -/
def typeExpr (ts : Tokens) : Result TypeExpr ts := do
  let start := (peek ts).span
  if let some ⟨_, ts₁, h₁⟩ := eatWord .fn ts then
    let ⟨_, ts₂, h₂⟩ ← expect .lparen "`(`" ts₁
    let ⟨params, ts₃, h₃⟩ ← typeList .rparen ts₁ [] ts₂ h₂
    let ⟨_, ts₄, h₄⟩ ← expect .rparen "`)`" ts₃
    let ⟨_, ts₅, h₅⟩ ← expect .arrow "`->`" ts₄
    let ⟨result, ts₆, h₆⟩ ← typeExpr ts₅
    return ⟨.arrow params result (start.through result.span), ts₆, by omega⟩
  if let some ⟨_, ts₁, h₁⟩ := eat .lparen ts then
    let ⟨elems, ts₂, h₂⟩ ← typeList .rparen ts [] ts₁ h₁
    let ⟨stop, ts₃, h₃⟩ ← expect .rparen "`)`" ts₂
    return ⟨.tuple elems (start.through stop), ts₃, by omega⟩
  let ⟨name, ts₁, h₁⟩ ← typeName ts
  if let some ⟨_, ts₂, h₂⟩ := eat .less ts₁ then
    let ⟨args, ts₃, h₃⟩ ← typeList .greater ts₁ [] ts₂ h₂
    let ⟨stop, ts₄, h₄⟩ ← expect .greater "`>`" ts₃
    return ⟨.named name args (start.through stop), ts₄, by omega⟩
  return ⟨.named name [] (start.through name.span), ts₁, h₁⟩
termination_by 2 * ts.length
decreasing_by all_goals omega

/-- Types with commas between them, up to `close`; `seen` holds those read before, last first. -/
def typeList (close : Symbol) (whole : Tokens) (seen : List TypeExpr) (ts : Tokens)
    (h : ts.length < whole.length) : Result (List TypeExpr) whole := do
  if isAt close ts then return ⟨seen.reverse, ts, h⟩
  let ⟨t, ts₁, h₁⟩ ← typeExpr ts
  match eat .comma ts₁ with
  | some ⟨_, ts₂, h₂⟩ => typeList close whole (t :: seen) ts₂ (by omega)
  | none => return ⟨(t :: seen).reverse, ts₁, by omega⟩
termination_by 2 * ts.length + 1
decreasing_by all_goals omega

end

def typeAfter (mark : Symbol) (whole ts : Tokens) (h : ts.length < whole.length) :
    Result (Option TypeExpr) whole := do
  match eat mark ts with
  | some ⟨_, ts₁, h₁⟩ =>
    let ⟨t, ts₂, h₂⟩ ← typeExpr ts₁
    return ⟨some t, ts₂, by omega⟩
  | none => return ⟨none, ts, h⟩

/-- Parameters up to the closing parenthesis; no two of one name. -/
def paramList (whole : Tokens) (seen : List Param) (ts : Tokens) (h : ts.length < whole.length) :
    Result (List Param) whole := do
  if isAt .rparen ts then return ⟨seen.reverse, ts, h⟩
  let ⟨name, ts₁, h₁⟩ ← ident ts
  if seen.any (·.name.text = name.text) then
    failAt name.span "distinct parameter names" s!"duplicate parameter `{name.text}`"
  let ⟨type, ts₂, h₂⟩ ← typeAfter .colon ts ts₁ h₁
  let param : Param := ⟨name, type, match type with
    | some t => name.span.through t.span
    | none => name.span⟩
  match eat .comma ts₂ with
  | some ⟨_, ts₃, h₃⟩ => paramList whole (param :: seen) ts₃ (by omega)
  | none => return ⟨(param :: seen).reverse, ts₂, by omega⟩
termination_by ts.length
decreasing_by omega

/-- `(a, b: Int)` -/
def params (ts : Tokens) : Result (List Param) ts := do
  let ⟨_, ts₁, h₁⟩ ← expect .lparen "`(`" ts
  let ⟨ps, ts₂, h₂⟩ ← paramList ts [] ts₁ h₁
  let ⟨_, ts₃, h₃⟩ ← expect .rparen "`)`" ts₂
  return ⟨ps, ts₃, by omega⟩

/-- Names with commas between them, at least one. -/
def nameList (whole : Tokens) (seen : List Ident) (ts : Tokens) (h : ts.length < whole.length) :
    Result (List Ident) whole := do
  let ⟨name, ts₁, h₁⟩ ← typeName ts
  match eat .comma ts₁ with
  | some ⟨_, ts₂, h₂⟩ => nameList whole (name :: seen) ts₂ (by omega)
  | none => return ⟨(name :: seen).reverse, ts₁, by omega⟩
termination_by ts.length
decreasing_by omega

/-- An optional `derives [A, B]`; the brackets may be left out. -/
def derivesClause (whole ts : Tokens) (h : ts.length < whole.length) :
    Result (List Ident) whole := do
  match eatWord .derives ts with
  | none => return ⟨[], ts, h⟩
  | some ⟨_, ts₁, h₁⟩ =>
    match eat .lbracket ts₁ with
    | none => nameList whole [] ts₁ (by omega)
    | some ⟨_, ts₂, h₂⟩ =>
      let ⟨names, ts₃, h₃⟩ ← nameList whole [] ts₂ (by omega)
      let ⟨_, ts₄, h₄⟩ ← expect .rbracket "`]`" ts₃
      return ⟨names, ts₄, by omega⟩

end Sluice.Parser
