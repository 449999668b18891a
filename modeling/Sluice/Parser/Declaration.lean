import Sluice.Parser.Type

/-! Declarations of structs, enums and typeclasses, and imports. -/
namespace Sluice.Parser

/-- The fields of a struct, up to `}`; no two of one name. -/
def structFields (whole : Tokens) (seen : List FieldDef) (ts : Tokens)
    (h : ts.length < whole.length) : Result (List FieldDef) whole := do
  let ⟨ts₀, h₀⟩ := skip separates ts
  have hr := shorter_skip h h₀
  if isAt .rbrace ts₀ then return ⟨seen.reverse, ts₀, hr⟩
  let ⟨name, ts₁, h₁⟩ ← ident ts₀
  if seen.any (·.name.text = name.text) then
    failAt name.span "distinct field names" s!"duplicate field `{name.text}`"
  let ⟨_, ts₂, h₂⟩ ← expect .colon "`:`" ts₁
  let ⟨type, ts₃, h₃⟩ ← typeExpr ts₂
  structFields whole (⟨name, type⟩ :: seen) ts₃ (shorter_four hr h₁ h₂ h₃)
termination_by ts.length
decreasing_by omega

/-- `struct Point { x: Int, y: Int }` -/
def structDef (ts : Tokens) : Result StructDef ts := do
  let ⟨start, ts₁, h₁⟩ ← expectWord .struct "`struct`" ts
  let ⟨name, ts₂, h₂⟩ ← typeName ts₁
  let ⟨derives, ts₃, h₃⟩ ← derivesClause ts₁ ts₂ h₂
  let ⟨_, ts₄, h₄⟩ ← expect .lbrace "`\x7b`" ts₃
  let ⟨fields, ts₅, h₅⟩ ← structFields ts₃ [] ts₄ h₄
  let ⟨stop, ts₆, h₆⟩ ← expect .rbrace "`\x7d`" ts₅
  return ⟨⟨name, fields, derives, start.through stop⟩, ts₆, by omega⟩

/-- The payload of a variant: several types make a tuple. -/
def payload (name : Ident) (whole ts : Tokens) (h : ts.length < whole.length) :
    Result (Option TypeExpr) whole := do
  match eat .lparen ts with
  | none => return ⟨none, ts, h⟩
  | some ⟨_, ts₁, h₁⟩ =>
    let ⟨types, ts₂, h₂⟩ ← typeList .rparen ts [] ts₁ h₁
    let ⟨stop, ts₃, h₃⟩ ← expect .rparen "`)`" ts₂
    match types with
    | [] => failAt stop "payload type" "`)`"
    | [t] => return ⟨some t, ts₃, shorter_three h h₂ h₃⟩
    | types => return ⟨some (.tuple types (name.span.through stop)), ts₃, shorter_three h h₂ h₃⟩

/-- The variants of an enum, up to `}`; no two of one name. -/
def enumMembers (whole : Tokens) (seen : List EnumMember) (ts : Tokens)
    (h : ts.length < whole.length) : Result (List EnumMember) whole := do
  let ⟨ts₀, h₀⟩ := skip separates ts
  have hr := shorter_skip h h₀
  if isAt .rbrace ts₀ then return ⟨seen.reverse, ts₀, hr⟩
  let ⟨name, ts₁, h₁⟩ ← ident ts₀
  if seen.any (·.name.text = name.text) then
    failAt name.span "distinct variant names" s!"duplicate variant `{name.text}`"
  let ⟨type, ts₂, h₂⟩ ← payload name ts₀ ts₁ h₁
  enumMembers whole (⟨name, type⟩ :: seen) ts₂ (shorter_two hr h₂)
termination_by ts.length
decreasing_by omega

/-- `enum Shape { Circle(Float), Empty }` -/
def enumDef (ts : Tokens) : Result EnumDef ts := do
  let ⟨start, ts₁, h₁⟩ ← expectWord .enum "`enum`" ts
  let ⟨name, ts₂, h₂⟩ ← typeName ts₁
  let ⟨derives, ts₃, h₃⟩ ← derivesClause ts₁ ts₂ h₂
  let ⟨_, ts₄, h₄⟩ ← expect .lbrace "`\x7b`" ts₃
  let ⟨members, ts₅, h₅⟩ ← enumMembers ts₃ [] ts₄ h₄
  let ⟨stop, ts₆, h₆⟩ ← expect .rbrace "`\x7d`" ts₅
  return ⟨⟨name, members, derives, start.through stop⟩, ts₆, by omega⟩

/-- The methods that a typeclass requires, up to `}`; each has a receiver. -/
def methodSigs (whole : Tokens) (seen : List MethodSig) (ts : Tokens)
    (h : ts.length < whole.length) : Result (List MethodSig) whole := do
  let ⟨ts₀, h₀⟩ := skip separates ts
  have hr := shorter_skip h h₀
  if isAt .rbrace ts₀ then return ⟨seen.reverse, ts₀, hr⟩
  let ⟨_, ts₁, h₁⟩ ← expectWord .fn "`fn`" ts₀
  let ⟨name, ts₂, h₂⟩ ← ident ts₁
  let ⟨ps, ts₃, h₃⟩ ← params ts₂
  if ps.isEmpty then
    failAt name.span "at least one parameter (the dispatch receiver)"
      s!"method `{name.text}` with no parameters"
  let ⟨result, ts₄, h₄⟩ ← typeAfter .arrow ts₂ ts₃ h₃
  methodSigs whole (⟨name, ps, result⟩ :: seen) ts₄ (shorter_four hr h₁ h₂ h₄)
termination_by ts.length
decreasing_by omega

/-- `typeclass Show { fn show(self) -> String }` -/
def typeclassDef (ts : Tokens) : Result TypeclassDef ts := do
  let ⟨start, ts₁, h₁⟩ ← expectWord .typeclass "`typeclass`" ts
  let ⟨name, ts₂, h₂⟩ ← typeName ts₁
  let ⟨derives, ts₃, h₃⟩ ← derivesClause ts₁ ts₂ h₂
  let ⟨_, ts₄, h₄⟩ ← expect .lbrace "`\x7b`" ts₃
  let ⟨methods, ts₅, h₅⟩ ← methodSigs ts₃ [] ts₄ h₄
  let ⟨stop, ts₆, h₆⟩ ← expect .rbrace "`\x7d`" ts₅
  return ⟨⟨name, methods, derives, start.through stop⟩, ts₆, by omega⟩

def importNames (whole : Tokens) (seen : List Ident) (ts : Tokens)
    (h : ts.length < whole.length) : Result (List Ident) whole := do
  let ⟨ts₀, h₀⟩ := skip separates ts
  have hr := shorter_skip h h₀
  if isAt .rbrace ts₀ then return ⟨seen.reverse, ts₀, hr⟩
  let ⟨name, ts₁, h₁⟩ ← typeName ts₀
  importNames whole (name :: seen) ts₁ (shorter_two hr h₁)
termination_by ts.length
decreasing_by omega

/-- `import geometry` or `import geometry {area, Point}` -/
def importStmt (ts : Tokens) : Result Stmt ts := do
  let ⟨start, ts₁, h₁⟩ ← expectWord .import "`import`" ts
  let ⟨source, ts₂, h₂⟩ ← ident ts₁
  match eat .lbrace ts₂ with
  | none => return ⟨.use source none (start.through source.span), ts₂, shorter_two h₁ h₂⟩
  | some ⟨_, ts₃, h₃⟩ =>
    let ⟨names, ts₄, h₄⟩ ← importNames ts₂ [] ts₃ h₃
    let ⟨stop, ts₅, h₅⟩ ← expect .rbrace "`\x7d`" ts₄
    return ⟨.use source (some names) (start.through stop), ts₅, shorter_four h₁ h₂ h₄ h₅⟩

end Sluice.Parser
