import Sluice.Proofs.Parser.InStep

/-! Types, parameters, declarations and patterns that are parsed side by side. -/
namespace Sluice.Parser

variable {f : Span → Span} {more : Option Tokens} {all ts ts' : Tokens} {loose : Bool} {ds : List Delim}

/-! ### Where nothing can be read -/

def Fails {α : Type} (x : Except ParseError α) : Prop := ∃ e, x = .error e

theorem Fails.carries {α β : Type} {R : α → β → Prop} {x : Except ParseError α} (h : Fails x)
    (y : Except ParseError β) : Carries R x y := by
  obtain ⟨e, rfl⟩ := h
  exact carries_error e

theorem Fails.bind {α β : Type} {x : Except ParseError α} (h : Fails x) (g : α → Except ParseError β) :
    Fails (x >>= g) := by
  obtain ⟨e, rfl⟩ := h
  exact ⟨e, rfl⟩

theorem Spent.cases (h : Spent ts) : ts = [] ∨ ∃ k span r, ts = ⟨k, span⟩ :: r ∧
    (k = .eof ∨ k = .stmtEnd ∨ k = .symbol .semicolon) := by
  cases ts with
  | nil => exact .inl rfl
  | cons t r =>
    refine .inr ⟨t.kind, t.span, r, rfl, ?_⟩
    rcases h t rfl with hk | hk
    · exact .inl hk
    · exact .inr (kind_of_endsStmt hk)

theorem Spent.isAt_eq_false (h : Spent ts) (s : Symbol) (hs : s ≠ .semicolon) :
    isAt s ts = false := by
  rcases h.cases with rfl | ⟨_, _, _, rfl, rfl | rfl | rfl⟩ <;> simp [isAt, eat, hs.symm]

theorem Spent.fails_ident (h : Spent ts) : Fails (ident ts) := by
  rcases h.cases with rfl | ⟨_, _, _, rfl, rfl | rfl | rfl⟩ <;> exact ⟨_, rfl⟩

theorem Spent.fails_typeName (h : Spent ts) : Fails (typeName ts) := by
  rcases h.cases with rfl | ⟨_, _, _, rfl, rfl | rfl | rfl⟩ <;> exact ⟨_, rfl⟩

theorem Spent.fails_expectWord (h : Spent ts) (k : Keyword) (what : String) :
    Fails (expectWord k what ts) := by
  rcases h.cases with rfl | ⟨_, _, _, rfl, rfl | rfl | rfl⟩ <;> exact ⟨_, rfl⟩

theorem Spent.fails_typeExpr (h : Spent ts) : Fails (typeExpr ts) := by
  rw [typeExpr]
  rcases h.cases with rfl | ⟨_, _, _, rfl, rfl | rfl | rfl⟩ <;>
    exact ⟨_, rfl⟩

/-! ### Types -/

mutual

theorem carries_typeExpr (hf : Through f) (ts ts' : Tokens) {loose : Bool} {ds : List Delim}
    (h : Sync f more all loose ds ts ts') :
    Carries (Agrees f more all true ds (TypeExpr.respan f)) (typeExpr ts) (typeExpr ts') := by
  rcases h.step.spent_or_peek_span with hspent | hstart
  · exact hspent.fails_typeExpr.carries _
  rw [typeExpr, typeExpr, hstart]
  rcases eatWord_cases .fn h with ⟨hx, hy⟩ | ⟨_, ts₁, ts₁', h₁, h₁', hx, hy, hs₁⟩
  · rw [hx, hy]
    dsimp only
    rcases eat_cases .lparen nofun h with ⟨hx, hy⟩ | ⟨_, ts₁, ts₁', h₁, h₁', hx, hy, hs₁⟩
    · rw [hx, hy]
      dsimp only
      refine (carries_typeName h).step fun name ts₁ h₁ ts₁' h₁' hs₁ => ?_
      dsimp only
      rcases eat_cases .less nofun hs₁ with ⟨hx, hy⟩ | ⟨_, ts₂, ts₂', h₂, h₂', hx, hy, hs₂⟩
      · rw [hx, hy]
        refine carries_pure ⟨?_, hs₁.loosen⟩
        simp [TypeExpr.respan, hf _ _, Ident.respan]
      · rw [hx, hy]
        dsimp only
        refine (carries_typeList hf .greater ts₁ ts₁' [] ts₂ ts₂' h₂ h₂' hs₂ nofun).step fun args ts₃ h₃ ts₃' h₃' hs₃ => ?_
        refine (carries_expect .greater nofun _ hs₃).step fun stop ts₄ h₄ ts₄' h₄' hs₄ => ?_
        refine carries_pure ⟨?_, hs₄.loosen⟩
        simp [TypeExpr.respan, hf _ _]
    · rw [hx, hy]
      dsimp only
      refine (carries_typeList hf .rparen ts ts' [] ts₁ ts₁' h₁ h₁' hs₁ nofun).step fun elems ts₂ h₂ ts₂' h₂' hs₂ => ?_
      refine (carries_expect .rparen nofun _ hs₂).step fun stop ts₃ h₃ ts₃' h₃' hs₃ => ?_
      refine carries_pure ⟨?_, hs₃.loosen⟩
      simp [TypeExpr.respan, hf _ _]
  · rw [hx, hy]
    dsimp only
    refine (carries_expect .lparen nofun _ hs₁).step fun _ ts₂ h₂ ts₂' h₂' hs₂ => ?_
    dsimp only
    refine (carries_typeList hf .rparen ts₁ ts₁' [] ts₂ ts₂' h₂ h₂' hs₂ nofun).step fun params ts₃ h₃ ts₃' h₃' hs₃ => ?_
    dsimp only
    refine (carries_expect .rparen nofun _ hs₃).step fun _ ts₄ h₄ ts₄' h₄' hs₄ => ?_
    dsimp only
    refine (carries_expect .arrow nofun _ hs₄).step fun _ ts₅ h₅ ts₅' h₅' hs₅ => ?_
    dsimp only
    refine (carries_typeExpr hf ts₅ ts₅' hs₅).step fun result ts₆ h₆ ts₆' h₆' hs₆ => ?_
    refine carries_pure ⟨?_, hs₆.loosen⟩
    simp [TypeExpr.respan, hf _ _]
termination_by 2 * ts.length
decreasing_by all_goals omega

theorem carries_typeList (hf : Through f) (close : Symbol) (whole whole' : Tokens) (seen : List TypeExpr) (ts ts' : Tokens)
    (h : ts.length < whole.length) (h' : ts'.length < whole'.length) {loose : Bool} {ds : List Delim}
    (hs : Sync f more all loose ds ts ts') (hclose : close ≠ .semicolon) :
    Carries (Agrees f more all true ds (List.map (TypeExpr.respan f))) (typeList close whole seen ts h)
      (typeList close whole' (seen.map (TypeExpr.respan f)) ts' h') := by
  rw [typeList, typeList, isAt_eq close hclose hs]
  split
  · refine carries_pure ⟨?_, hs.loosen⟩
    simp
  · refine (carries_typeExpr hf ts ts' hs).step fun t ts₁ h₁ ts₁' h₁' hs₁ => ?_
    dsimp only
    rcases eat_cases .comma nofun hs₁ with ⟨hx, hy⟩ | ⟨_, ts₂, ts₂', h₂, h₂', hx, hy, hs₂⟩
    · rw [hx, hy]
      refine carries_pure ⟨?_, hs₁.loosen⟩
      simp
    · rw [hx, hy]
      exact carries_typeList hf close whole whole' (t :: seen) ts₂ ts₂' _ _ hs₂ hclose
termination_by 2 * ts.length + 1
decreasing_by all_goals omega

end

theorem carries_typeAfter (hf : Through f) (mark : Symbol) (hmark : mark ≠ .semicolon)
    (hdelims : LineState.nextDelims ds (.symbol mark) = ds) {whole whole' : Tokens}
    (h : ts.length < whole.length) (h' : ts'.length < whole'.length)
    (hs : Sync f more all loose ds ts ts') :
    Carries (Agrees f more all true ds (Option.map (TypeExpr.respan f))) (typeAfter mark whole ts h)
      (typeAfter mark whole' ts' h') := by
  rw [typeAfter, typeAfter]
  rcases eat_cases mark hmark hs with ⟨hx, hy⟩ | ⟨_, ts₁, ts₁', h₁, h₁', hx, hy, hs₁⟩
  · rw [hx, hy]
    exact carries_pure ⟨rfl, hs.loosen⟩
  · rw [hx, hy]
    dsimp only
    rw [hdelims] at hs₁
    refine (carries_typeExpr hf ts₁ ts₁' hs₁).step fun t ts₂ h₂ ts₂' h₂' hs₂ => ?_
    exact carries_pure ⟨rfl, hs₂⟩

/-! ### Names -/

theorem carries_paramList (hf : Through f) (whole whole' : Tokens) (seen : List Param) (ts ts' : Tokens)
    (h : ts.length < whole.length) (h' : ts'.length < whole'.length) {loose : Bool}
    (hs : Sync f more all loose ds ts ts') :
    Carries (Agrees f more all true ds (List.map (Param.respan f))) (paramList whole seen ts h)
      (paramList whole' (seen.map (Param.respan f)) ts' h') := by
  rw [paramList, paramList, isAt_eq .rparen nofun hs]
  split
  · refine carries_pure ⟨?_, hs.loosen⟩
    simp
  · refine (carries_ident hs).step fun name ts₁ h₁ ts₁' h₁' hs₁ => ?_
    have hany : (seen.map (Param.respan f)).any (fun p => p.name.text = (name.respan f).text) =
        seen.any fun p => p.name.text = name.text := List.any_map
    dsimp only
    rw [hany]
    split
    · exact carries_error _
    · refine (carries_typeAfter hf .colon nofun rfl h₁ h₁' hs₁).step fun type ts₂ h₂ ts₂' h₂' hs₂ => ?_
      dsimp only
      rcases eat_cases .comma nofun hs₂ with ⟨hx, hy⟩ | ⟨_, ts₃, ts₃', h₃, h₃', hx, hy, hs₃⟩
      · rw [hx, hy]
        refine carries_pure ⟨?_, hs₂⟩
        cases type <;> simp [Param.respan, Ident.respan, hf _ _]
      · rw [hx, hy]
        cases type with
        | none => exact carries_paramList hf whole whole' (⟨name, none, _⟩ :: seen) ts₃ ts₃' _ _ hs₃
        | some t =>
          have hspan : (name.respan f).span.through (t.respan f).span = f (name.span.through t.span) := by
            rw [hf, TypeExpr.span_respan, Ident.respan]
          simp only [Option.map_some, hspan]
          exact carries_paramList hf whole whole' (⟨name, some t, _⟩ :: seen) ts₃ ts₃' _ _ hs₃
termination_by ts.length
decreasing_by all_goals omega

theorem carries_params (hf : Through f) (hs : Sync f more all loose ds ts ts') :
    Carries (Agrees f more all true ds (List.map (Param.respan f))) (params ts) (params ts') := by
  rw [params, params]
  refine (carries_expect .lparen nofun _ hs).step fun _ ts₁ h₁ ts₁' h₁' hs₁ => ?_
  refine (carries_paramList hf ts ts' [] ts₁ ts₁' h₁ h₁' hs₁).step fun ps ts₂ h₂ ts₂' h₂' hs₂ => ?_
  refine (carries_expect .rparen nofun _ hs₂).step fun _ ts₃ h₃ ts₃' h₃' hs₃ => ?_
  exact carries_pure ⟨rfl, hs₃.loosen⟩

theorem carries_nameList (whole whole' : Tokens) (seen : List Ident) (ts ts' : Tokens)
    (h : ts.length < whole.length) (h' : ts'.length < whole'.length) {loose : Bool}
    (hs : Sync f more all loose ds ts ts') :
    Carries (Agrees f more all true ds (List.map (Ident.respan f))) (nameList whole seen ts h)
      (nameList whole' (seen.map (Ident.respan f)) ts' h') := by
  rw [nameList, nameList]
  refine (carries_typeName hs).step fun name ts₁ h₁ ts₁' h₁' hs₁ => ?_
  dsimp only
  rcases eat_cases .comma nofun hs₁ with ⟨hx, hy⟩ | ⟨_, ts₂, ts₂', h₂, h₂', hx, hy, hs₂⟩
  · rw [hx, hy]
    refine carries_pure ⟨?_, hs₁.loosen⟩
    simp
  · rw [hx, hy]
    exact carries_nameList whole whole' (name :: seen) ts₂ ts₂' _ _ hs₂
termination_by ts.length
decreasing_by omega

theorem carries_derivesClause {whole whole' : Tokens} (h : ts.length < whole.length)
    (h' : ts'.length < whole'.length) (hs : Sync f more all loose ds ts ts') :
    Carries (Agrees f more all true ds (List.map (Ident.respan f))) (derivesClause whole ts h)
      (derivesClause whole' ts' h') := by
  rw [derivesClause, derivesClause]
  rcases eatWord_cases .derives hs with ⟨hx, hy⟩ | ⟨_, ts₁, ts₁', h₁, h₁', hx, hy, hs₁⟩
  · rw [hx, hy]
    exact carries_pure ⟨rfl, hs.loosen⟩
  · rw [hx, hy]
    dsimp only
    rcases eat_cases .lbracket nofun hs₁ with ⟨hx, hy⟩ | ⟨_, ts₂, ts₂', h₂, h₂', hx, hy, hs₂⟩
    · rw [hx, hy]
      exact carries_nameList whole whole' [] ts₁ ts₁' _ _ hs₁
    · rw [hx, hy]
      dsimp only
      refine (carries_nameList whole whole' [] ts₂ ts₂' _ _ hs₂).step fun names ts₃ h₃ ts₃' h₃' hs₃ => ?_
      refine (carries_expect .rbracket nofun _ hs₃).step fun _ ts₄ h₄ ts₄' h₄' hs₄ => ?_
      exact carries_pure ⟨rfl, hs₄.loosen⟩

/-! ### Declarations -/

theorem carries_structFields (hf : Through f) (whole whole' : Tokens) (seen : List FieldDef)
    (ts ts' : Tokens) (h : ts.length < whole.length) (h' : ts'.length < whole'.length) {loose : Bool}
    (hs : Sync f more all loose ds ts ts') :
    Carries (Agrees f more all true ds (List.map (FieldDef.respan f))) (structFields whole seen ts h)
      (structFields whole' (seen.map (FieldDef.respan f)) ts' h') := by
  have hskip := (skip separates ts).2
  rw [structFields, structFields]
  dsimp only
  rcases hs.skip_separates with hs₀ | hspent
  · rw [isAt_eq .rbrace nofun hs₀]
    split
    · refine carries_pure ⟨?_, hs₀⟩
      simp
    · refine (carries_ident hs₀).step fun name ts₁ h₁ ts₁' h₁' hs₁ => ?_
      have hany : (seen.map (FieldDef.respan f)).any (fun d => d.name.text = (name.respan f).text) =
          seen.any fun d => d.name.text = name.text := List.any_map
      dsimp only
      rw [hany]
      split
      · exact carries_error _
      · refine (carries_expect .colon nofun _ hs₁).step fun _ ts₂ h₂ ts₂' h₂' hs₂ => ?_
        dsimp only
        refine (carries_typeExpr hf ts₂ ts₂' hs₂).step fun type ts₃ h₃ ts₃' h₃' hs₃ => ?_
        exact carries_structFields hf whole whole' (⟨name, type⟩ :: seen) ts₃ ts₃' _ _ hs₃
  · rw [hspent.isAt_eq_false .rbrace nofun]
    exact (hspent.fails_ident.bind _).carries _
termination_by ts.length
decreasing_by omega

theorem carries_structDef (hf : Through f) (hs : Sync f more all loose ds ts ts') :
    Carries (Agrees f more all false ds (StructDef.respan f)) (structDef ts) (structDef ts') := by
  rw [structDef, structDef]
  refine (carries_expectWord .struct _ hs).step fun start ts₁ h₁ ts₁' h₁' hs₁ => ?_
  refine (carries_typeName hs₁).step fun name ts₂ h₂ ts₂' h₂' hs₂ => ?_
  refine (carries_derivesClause h₂ h₂' hs₂).step fun derives ts₃ h₃ ts₃' h₃' hs₃ => ?_
  refine (carries_expect .lbrace nofun _ hs₃).step fun _ ts₄ h₄ ts₄' h₄' hs₄ => ?_
  refine (carries_structFields hf ts₃ ts₃' [] ts₄ ts₄' h₄ h₄' hs₄).step
    fun fields ts₅ h₅ ts₅' h₅' hs₅ => ?_
  refine (carries_expect .rbrace nofun _ hs₅).step fun stop ts₆ h₆ ts₆' h₆' hs₆ => ?_
  exact carries_pure ⟨by simp [StructDef.respan, hf _ _], hs₆⟩

theorem carries_payload (hf : Through f) (name : Ident) {whole whole' : Tokens}
    (h : ts.length < whole.length) (h' : ts'.length < whole'.length)
    (hs : Sync f more all loose ds ts ts') :
    Carries (Agrees f more all true ds (Option.map (TypeExpr.respan f))) (payload name whole ts h)
      (payload (name.respan f) whole' ts' h') := by
  rw [payload, payload]
  rcases eat_cases .lparen nofun hs with ⟨hx, hy⟩ | ⟨_, ts₁, ts₁', h₁, h₁', hx, hy, hs₁⟩
  · rw [hx, hy]
    exact carries_pure ⟨rfl, hs.loosen⟩
  · rw [hx, hy]
    dsimp only
    refine (carries_typeList hf .rparen ts ts' [] ts₁ ts₁' h₁ h₁' hs₁ nofun).step
      fun types ts₂ h₂ ts₂' h₂' hs₂ => ?_
    refine (carries_expect .rparen nofun _ hs₂).step fun stop ts₃ h₃ ts₃' h₃' hs₃ => ?_
    match types with
    | [] => exact carries_error _
    | [t] => exact carries_pure ⟨rfl, hs₃.loosen⟩
    | t :: u :: types =>
      refine carries_pure ⟨?_, hs₃.loosen⟩
      simp [TypeExpr.respan, hf _ _, Ident.respan]

theorem carries_enumMembers (hf : Through f) (whole whole' : Tokens) (seen : List EnumMember)
    (ts ts' : Tokens) (h : ts.length < whole.length) (h' : ts'.length < whole'.length) {loose : Bool}
    (hs : Sync f more all loose ds ts ts') :
    Carries (Agrees f more all true ds (List.map (EnumMember.respan f))) (enumMembers whole seen ts h)
      (enumMembers whole' (seen.map (EnumMember.respan f)) ts' h') := by
  have hskip := (skip separates ts).2
  rw [enumMembers, enumMembers]
  dsimp only
  rcases hs.skip_separates with hs₀ | hspent
  · rw [isAt_eq .rbrace nofun hs₀]
    split
    · refine carries_pure ⟨?_, hs₀⟩
      simp
    · refine (carries_ident hs₀).step fun name ts₁ h₁ ts₁' h₁' hs₁ => ?_
      have hany : (seen.map (EnumMember.respan f)).any (fun d => d.name.text = (name.respan f).text) =
          seen.any fun d => d.name.text = name.text := List.any_map
      dsimp only
      rw [hany]
      split
      · exact carries_error _
      · refine (carries_payload hf name h₁ h₁' hs₁).step fun type ts₂ h₂ ts₂' h₂' hs₂ => ?_
        exact carries_enumMembers hf whole whole' (⟨name, type⟩ :: seen) ts₂ ts₂' _ _ hs₂
  · rw [hspent.isAt_eq_false .rbrace nofun]
    exact (hspent.fails_ident.bind _).carries _
termination_by ts.length
decreasing_by omega

theorem carries_enumDef (hf : Through f) (hs : Sync f more all loose ds ts ts') :
    Carries (Agrees f more all false ds (EnumDef.respan f)) (enumDef ts) (enumDef ts') := by
  rw [enumDef, enumDef]
  refine (carries_expectWord .enum _ hs).step fun start ts₁ h₁ ts₁' h₁' hs₁ => ?_
  refine (carries_typeName hs₁).step fun name ts₂ h₂ ts₂' h₂' hs₂ => ?_
  refine (carries_derivesClause h₂ h₂' hs₂).step fun derives ts₃ h₃ ts₃' h₃' hs₃ => ?_
  refine (carries_expect .lbrace nofun _ hs₃).step fun _ ts₄ h₄ ts₄' h₄' hs₄ => ?_
  refine (carries_enumMembers hf ts₃ ts₃' [] ts₄ ts₄' h₄ h₄' hs₄).step
    fun members ts₅ h₅ ts₅' h₅' hs₅ => ?_
  refine (carries_expect .rbrace nofun _ hs₅).step fun stop ts₆ h₆ ts₆' h₆' hs₆ => ?_
  exact carries_pure ⟨by simp [EnumDef.respan, hf _ _], hs₆⟩

theorem carries_methodSigs (hf : Through f) (whole whole' : Tokens) (seen : List MethodSig)
    (ts ts' : Tokens) (h : ts.length < whole.length) (h' : ts'.length < whole'.length) {loose : Bool}
    (hs : Sync f more all loose ds ts ts') :
    Carries (Agrees f more all true ds (List.map (MethodSig.respan f))) (methodSigs whole seen ts h)
      (methodSigs whole' (seen.map (MethodSig.respan f)) ts' h') := by
  have hskip := (skip separates ts).2
  rw [methodSigs, methodSigs]
  dsimp only
  rcases hs.skip_separates with hs₀ | hspent
  · rw [isAt_eq .rbrace nofun hs₀]
    split
    · refine carries_pure ⟨?_, hs₀⟩
      simp
    · refine (carries_expectWord .fn _ hs₀).step fun _ ts₁ h₁ ts₁' h₁' hs₁ => ?_
      dsimp only
      refine (carries_ident hs₁).step fun name ts₂ h₂ ts₂' h₂' hs₂ => ?_
      dsimp only
      refine (carries_params hf hs₂).step fun ps ts₃ h₃ ts₃' h₃' hs₃ => ?_
      dsimp only
      rw [List.isEmpty_map]
      split
      · exact carries_error _
      · refine (carries_typeAfter hf .arrow nofun rfl h₃ h₃' hs₃).step fun result ts₄ h₄ ts₄' h₄' hs₄ => ?_
        exact carries_methodSigs hf whole whole' (⟨name, ps, result⟩ :: seen) ts₄ ts₄' _ _ hs₄
  · rw [hspent.isAt_eq_false .rbrace nofun]
    exact ((hspent.fails_expectWord _ _).bind _).carries _
termination_by ts.length
decreasing_by omega

theorem carries_typeclassDef (hf : Through f) (hs : Sync f more all loose ds ts ts') :
    Carries (Agrees f more all false ds (TypeclassDef.respan f)) (typeclassDef ts)
      (typeclassDef ts') := by
  rw [typeclassDef, typeclassDef]
  refine (carries_expectWord .typeclass _ hs).step fun start ts₁ h₁ ts₁' h₁' hs₁ => ?_
  refine (carries_typeName hs₁).step fun name ts₂ h₂ ts₂' h₂' hs₂ => ?_
  refine (carries_derivesClause h₂ h₂' hs₂).step fun derives ts₃ h₃ ts₃' h₃' hs₃ => ?_
  refine (carries_expect .lbrace nofun _ hs₃).step fun _ ts₄ h₄ ts₄' h₄' hs₄ => ?_
  refine (carries_methodSigs hf ts₃ ts₃' [] ts₄ ts₄' h₄ h₄' hs₄).step
    fun methods ts₅ h₅ ts₅' h₅' hs₅ => ?_
  refine (carries_expect .rbrace nofun _ hs₅).step fun stop ts₆ h₆ ts₆' h₆' hs₆ => ?_
  exact carries_pure ⟨by simp [TypeclassDef.respan, hf _ _], hs₆⟩

theorem carries_importNames (whole whole' : Tokens) (seen : List Ident) (ts ts' : Tokens)
    (h : ts.length < whole.length) (h' : ts'.length < whole'.length) {loose : Bool}
    (hs : Sync f more all loose ds ts ts') :
    Carries (Agrees f more all true ds (List.map (Ident.respan f))) (importNames whole seen ts h)
      (importNames whole' (seen.map (Ident.respan f)) ts' h') := by
  have hskip := (skip separates ts).2
  rw [importNames, importNames]
  dsimp only
  rcases hs.skip_separates with hs₀ | hspent
  · rw [isAt_eq .rbrace nofun hs₀]
    split
    · refine carries_pure ⟨?_, hs₀⟩
      simp
    · refine (carries_typeName hs₀).step fun name ts₁ h₁ ts₁' h₁' hs₁ => ?_
      exact carries_importNames whole whole' (name :: seen) ts₁ ts₁' _ _ hs₁
  · rw [hspent.isAt_eq_false .rbrace nofun]
    exact (hspent.fails_typeName.bind _).carries _
termination_by ts.length
decreasing_by omega

theorem carries_importStmt (hf : Through f) (hs : Sync f more all loose ds ts ts') :
    Carries (Agrees f more all false ds (Stmt.respan f)) (importStmt ts) (importStmt ts') := by
  rw [importStmt, importStmt]
  refine (carries_expectWord .import _ hs).step fun start ts₁ h₁ ts₁' h₁' hs₁ => ?_
  refine (carries_ident hs₁).step fun source ts₂ h₂ ts₂' h₂' hs₂ => ?_
  dsimp only
  rcases eat_cases .lbrace nofun hs₂ with ⟨hx, hy⟩ | ⟨_, ts₃, ts₃', h₃, h₃', hx, hy, hs₃⟩
  · rw [hx, hy]
    exact carries_pure ⟨by simp [Stmt.respan, hf _ _, Ident.respan], hs₂⟩
  · rw [hx, hy]
    dsimp only
    refine (carries_importNames ts₂ ts₂' [] ts₃ ts₃' h₃ h₃' hs₃).step
      fun names ts₄ h₄ ts₄' h₄' hs₄ => ?_
    refine (carries_expect .rbrace nofun _ hs₄).step fun stop ts₅ h₅ ts₅' h₅' hs₅ => ?_
    exact carries_pure ⟨by simp [Stmt.respan, hf _ _], hs₅⟩

/-! ### Patterns -/

theorem Spent.fails_pattern (h : Spent ts) : Fails (pattern ts) := by
  rw [pattern]
  rcases h.cases with rfl | ⟨_, _, _, rfl, rfl | rfl | rfl⟩ <;> exact ⟨_, rfl⟩

theorem neutral_of_literal {k : Token.Kind} {l : Literal} (h : literal? k = some l) :
    (∀ ds, LineState.nextDelims ds k = ds) ∧ rests k = true := by
  unfold literal? at h
  split at h <;> first | exact ⟨fun _ => rfl, rfl⟩ | cases h

theorem carries_negative (hf : Through f) (start : Span) (hs : Sync f more all loose ds ts ts') :
    Carries (Agrees f more all true ds (Pattern.respan f)) (negative start ts)
      (negative (f start) ts') := by
  rcases hs.step.spent_or_cons with hspent | ⟨⟨kind, span⟩, r, r', rfl, rfl, hkind, hstep⟩
  · refine Fails.carries ?_ _
    rcases hspent.cases with rfl | ⟨_, _, _, rfl, rfl | rfl | rfl⟩ <;> exact ⟨_, rfl⟩
  · cases kind with
    | int v => exact carries_ok ⟨by simp [Pattern.respan, hf _ _], (hs.next r' hkind hstep).loosen⟩
    | float v => exact carries_ok ⟨by simp [Pattern.respan, hf _ _], (hs.next r' hkind hstep).loosen⟩
    | _ => exact carries_error _

mutual

theorem carries_pattern (hf : Through f) (ts ts' : Tokens) {loose : Bool} {ds : List Delim}
    (hs : Sync f more all loose ds ts ts') :
    Carries (Agrees f more all true ds (Pattern.respan f)) (pattern ts) (pattern ts') := by
  rcases hs.step.spent_or_cons with hspent | ⟨⟨kind, span⟩, r, r', hts, hts', hkind, hstep⟩
  · exact hspent.fails_pattern.carries _
  have hlen : r.length < ts.length := by
    rw [hts]
    exact Nat.lt_succ_self _
  rw [hts, hts'] at hs ⊢
  have hs₀ := hs.next r' hkind hstep
  rw [pattern, pattern]
  dsimp only [next, Token.respan]
  split
  · exact carries_pure ⟨rfl, hs₀.loosen⟩
  · exact carries_pure ⟨rfl, hs₀.loosen⟩
  · refine (carries_expect .lparen nofun _ hs₀).step fun _ ts₁ h₁ ts₁' h₁' hs₁ => ?_
    dsimp only
    refine (carries_pattern hf ts₁ ts₁' hs₁).step fun inner ts₂ h₂ ts₂' h₂' hs₂ => ?_
    refine (carries_expect .rparen nofun _ hs₂).step fun stop ts₃ h₃ ts₃' h₃' hs₃ => ?_
    exact carries_pure ⟨by simp [Pattern.respan, hf _ _], hs₃.loosen⟩
  · rcases eat_cases .lparen nofun hs₀ with ⟨hx, hy⟩ | ⟨_, ts₁, ts₁', h₁, h₁', hx, hy, hs₁⟩
    · rw [hx, hy]
      dsimp only
      rcases eat_cases .lbrace nofun hs₀ with ⟨hx, hy⟩ | ⟨_, ts₁, ts₁', h₁, h₁', hx, hy, hs₁⟩
      · rw [hx, hy]
        exact carries_pure ⟨rfl, hs₀.loosen⟩
      · rw [hx, hy]
        dsimp only
        refine (carries_fieldPatterns hf r r' [] ts₁ ts₁' h₁ h₁' hs₁).step
          fun fields ts₂ h₂ ts₂' h₂' hs₂ => ?_
        refine (carries_expect .rbrace nofun _ hs₂).step fun stop ts₃ h₃ ts₃' h₃' hs₃ => ?_
        exact carries_pure ⟨by simp [Pattern.respan, hf _ _, Ident.respan], hs₃.loosen⟩
    · rw [hx, hy]
      dsimp only
      refine (carries_patternList hf r r' [] false ts₁ ts₁' h₁ h₁' hs₁).step
        fun ⟨fields, _⟩ ts₂ h₂ ts₂' h₂' hs₂ => ?_
      refine (carries_expect .rparen nofun _ hs₂).step fun stop ts₃ h₃ ts₃' h₃' hs₃ => ?_
      exact carries_pure ⟨by simp [Pattern.respan, hf _ _, Ident.respan], hs₃.loosen⟩
  · refine (carries_patternList hf _ _ [] false r r' _ _ hs₀).step
      fun ⟨elems, trailing⟩ ts₁ h₁ ts₁' h₁' hs₁ => ?_
    dsimp only
    refine (carries_expect .rparen nofun _ hs₁).step fun stop ts₂ h₂ ts₂' h₂' hs₂ => ?_
    dsimp only
    match elems, trailing with
    | [_], true => exact carries_error _
    | [p], false => exact carries_pure ⟨rfl, hs₂.loosen⟩
    | [], _ => exact carries_pure ⟨by simp [Pattern.respan, hf _ _], hs₂.loosen⟩
    | p :: q :: ps, _ => exact carries_pure ⟨by simp [Pattern.respan, hf _ _], hs₂.loosen⟩
  · refine (carries_negative hf span hs₀).step fun p ts₁ h₁ ts₁' h₁' hs₁ => ?_
    exact carries_pure ⟨rfl, hs₁⟩
  · split
    next hl =>
      rw [(neutral_of_literal hl).1] at hs₀
      exact carries_pure ⟨rfl, hs₀.loosen⟩
    · exact carries_error _
termination_by 2 * ts.length
decreasing_by all_goals omega

theorem carries_patternList (hf : Through f) (whole whole' : Tokens) (seen : List Pattern)
    (trailing : Bool) (ts ts' : Tokens) (h : ts.length < whole.length) (h' : ts'.length < whole'.length)
    {loose : Bool} {ds : List Delim} (hs : Sync f more all loose ds ts ts') :
    Carries (Agrees f more all true ds fun p => (p.1.map (Pattern.respan f), p.2))
      (patternList whole seen trailing ts h)
      (patternList whole' (seen.map (Pattern.respan f)) trailing ts' h') := by
  rw [patternList, patternList, isAt_eq .rparen nofun hs]
  split
  · refine carries_pure ⟨?_, hs.loosen⟩
    simp
  · refine (carries_pattern hf ts ts' hs).step fun p ts₁ h₁ ts₁' h₁' hs₁ => ?_
    dsimp only
    rcases eat_cases .comma nofun hs₁ with ⟨hx, hy⟩ | ⟨_, ts₂, ts₂', h₂, h₂', hx, hy, hs₂⟩
    · rw [hx, hy]
      refine carries_pure ⟨?_, hs₁⟩
      simp
    · rw [hx, hy]
      exact carries_patternList hf whole whole' (p :: seen) true ts₂ ts₂' _ _ hs₂
termination_by 2 * ts.length + 1
decreasing_by all_goals omega

theorem carries_fieldPatterns (hf : Through f) (whole whole' : Tokens) (seen : List (Ident × Pattern))
    (ts ts' : Tokens) (h : ts.length < whole.length) (h' : ts'.length < whole'.length) {loose : Bool}
    {ds : List Delim} (hs : Sync f more all loose ds ts ts') :
    Carries (Agrees f more all true ds (List.map fun p => (p.1.respan f, p.2.respan f)))
      (fieldPatterns whole seen ts h)
      (fieldPatterns whole' (seen.map fun p => (p.1.respan f, p.2.respan f)) ts' h') := by
  have hskip := (skip separates ts).2
  rw [fieldPatterns, fieldPatterns]
  dsimp only
  rcases hs.skip_separates with hs₀ | hspent
  · rw [isAt_eq .rbrace nofun hs₀]
    split
    · refine carries_pure ⟨?_, hs₀⟩
      simp
    · refine (carries_ident hs₀).step fun name ts₁ h₁ ts₁' h₁' hs₁ => ?_
      dsimp only
      rcases eat_cases .colon nofun hs₁ with ⟨hx, hy⟩ | ⟨_, ts₂, ts₂', h₂, h₂', hx, hy, hs₂⟩
      · rw [hx, hy]
        exact carries_fieldPatterns hf whole whole' ((name, .name name) :: seen) ts₁ ts₁' _ _ hs₁
      · rw [hx, hy]
        dsimp only
        refine (carries_pattern hf ts₂ ts₂' hs₂).step fun p ts₃ h₃ ts₃' h₃' hs₃ => ?_
        exact carries_fieldPatterns hf whole whole' ((name, p) :: seen) ts₃ ts₃' _ _ hs₃
  · rw [hspent.isAt_eq_false .rbrace nofun]
    exact (hspent.fails_ident.bind _).carries _
termination_by 2 * ts.length + 1
decreasing_by all_goals omega

end

end Sluice.Parser
