import Sluice.Proofs.Parser.Below
import Sluice.Proofs.Parser.LaidTree
import Sluice.Proofs.Parser.RepeatsTree

/-! What the readers take of the tokens of a source. None of them takes the end of the source or looks behind it,
and each of them takes a token; whatever a reader has gone down into it has come up from again, so that what it
reads is all that its depth matters to. A module takes everything up to the end. -/
namespace Sluice.Parser

/-- A reader on the tokens `front` of a source with the end `last`, at any depth `d`. Whatever stands behind the
end, it complains in one way, or it takes some of the tokens of `front` and leaves the others. What it has read
fits at `d`; at another depth the reader reads the same, or stops at the limit if that does not fit there. -/
def Consumes {α : Type} (fits : Nat → α → Prop) (read : Nat → (ts : Tokens) → Result α ts) (front : Tokens)
    (last : Token) : Prop :=
  ∀ d ≤ maxNesting, (∃ e, ∀ more, read d (front ++ last :: more) = .error e) ∨
    ∃ v used rest, used ≠ [] ∧ used ++ rest = front ∧ fits d v ∧ ∀ d' ≤ maxNesting, ∀ more,
      (fits d' v → ∃ h, read d' (front ++ last :: more) = .ok ⟨v, rest ++ last :: more, h⟩) ∧
      (¬ fits d' v → TooDeep (read d' (front ++ last :: more)))

structure Consumption (front : Tokens) (last : Token) : Prop where
  module : ∀ name, (∃ e, ∀ more, Parser.module name (front ++ last :: more) = .error e) ∨
    ∃ md h, (∀ more, Parser.module name (front ++ last :: more) = .ok md) ∧
      stmts 0 false (peek (front ++ [last]) :: (front ++ [last])) [] (front ++ [last]) (Nat.lt_succ_self _) =
        .ok ⟨md.body.stmts, [last], h⟩
  stmt : Consumes (fun d s => Fits d (.stmt s)) Parser.stmt front last
  varDef : ∀ start isPub,
    Consumes (fun d s => Fits d (.stmt s)) (fun d => Parser.varDef d start isPub) front last
  exprStmt : Consumes (fun d s => Fits d (.stmt s)) Parser.exprStmt front last
  importStmt : Consumes (fun d s => Fits d (.stmt s)) (fun _ => Parser.importStmt) front last
  fnDecl : Consumes (fun d g => Fits (d + 1) (.block g.body)) Parser.fnDecl front last
  structDef : Consumes (fun _ _ => True) (fun _ => Parser.structDef) front last
  enumDef : Consumes (fun _ _ => True) (fun _ => Parser.enumDef) front last
  typeclassDef : Consumes (fun _ _ => True) (fun _ => Parser.typeclassDef) front last
  block : Consumes (fun d b => Fits (d + 1) (.block b)) Parser.block front last
  expr : ∀ power, Consumes (fun d e => Fits (d + 1) (.expr e)) (fun d => Parser.expr d power) front last
  operand : Consumes (fun d e => Fits d (.expr e)) Parser.operand front last
  pattern : Consumes (fun _ _ => True) (fun _ => Parser.pattern) front last
  typeExpr : Consumes (fun _ _ => True) (fun _ => Parser.typeExpr) front last

variable {α : Type} {front : Tokens} {last : Token}

/-- Some of the tokens before the end are taken if the end is still ahead. -/
theorem exists_eq_append {r : Tokens} (hr : r <:+ front ++ [last])
    (hg : Guarded r) : ∃ used rest, used ++ rest = front ∧ r = rest ++ [last] := by
  obtain ⟨used, hused⟩ := hr
  rcases List.eq_nil_or_concat r with rfl | ⟨rest, t, rfl⟩
  · obtain ⟨t, ht, -⟩ := hg
    cases ht
  · rw [List.concat_eq_append, ← List.append_assoc] at hused
    obtain ⟨hfront, ht⟩ := List.append_inj' hused rfl
    obtain rfl := List.singleton_inj.1 ht
    exact ⟨used, rest, hfront, List.concat_eq_append⟩

/-- A reader that reads again whatever is behind, and stays within its tokens, takes one at least. -/
theorem consumes {fits : Nat → α → Prop} {read : Nat → (ts : Tokens) → Result α ts}
    (hlast : last.kind = .eof)
    (hrepeats : ∀ {more : Tokens} {same : Prop} {d d' : Nat}, (same → d' = d) → d' ≤ maxNesting →
      ∀ ts, Guarded ts → Repeats more same True (fits d') (read d ts) (read d' (ts ++ more)))
    (hsuffix : ∀ d ts, Yields (fun p => p.rest <:+ ts) (read d ts)) : Consumes fits read front last := by
  intro d hd
  have hg : Guarded (front ++ [last]) := guarded_of_eof hlast
  have hagain (more : Tokens) : Repeats more True True (fits d) (read d (front ++ [last]))
      (read d (front ++ [last] ++ more)) := hrepeats (fun _ => rfl) hd _ hg
  cases hread : read d (front ++ [last]) with
  | error e =>
    refine .inl ⟨e, fun more => ?_⟩
    rw [List.append_cons]
    exact (hagain more).error hread trivial trivial
  | ok p =>
    obtain ⟨hgrest, -⟩ := (hagain []).ok hread
    have hfits := (hagain []).fits hread trivial
    obtain ⟨used, rest, hused, hrest⟩ := exists_eq_append (hsuffix _ _ _ hread) hgrest
    obtain ⟨v, r, hr⟩ := p
    obtain rfl : r = rest ++ [last] := hrest
    refine .inr ⟨v, used, rest, ?_, hused, hfits, fun d' hd' more => ?_⟩
    · rintro rfl
      obtain rfl : rest = front := hused
      exact Nat.lt_irrefl _ hr
    · have hother : Repeats more False True (fits d') (read d (front ++ [last]))
          (read d' (front ++ [last] ++ more)) := hrepeats False.elim hd' _ hg
      obtain ⟨-, hok, hdeep⟩ := hother.ok hread
      rw [List.append_cons front, List.append_cons rest]
      exact ⟨fun hv => ⟨_, (hok hv).2⟩, fun hv => (hdeep trivial hv).1⟩

/-- A definition behind its name takes the tokens in their order. -/
theorem suffix_varRest (depth : Nat) (start : Span) (isConst isPub : Bool) (name : Ident) {ts ts₁ : Tokens}
    (h₁ : ts₁.length < ts.length) (hts₁ : ts₁ <:+ ts) :
    Yields (fun p => p.rest <:+ ts) (do
      let ⟨type, ts₂, h₂⟩ ← typeAfter .colon ts ts₁ h₁
      let ⟨_, ts₃, h₃⟩ ← expect .assign "`=`" ts₂
      let ⟨value, ts₄, h₄⟩ ← expr depth 0 ts₃
      return ⟨.var name type isConst isPub (defer value) (start.through value.span), ts₄,
        shorter_three h₂ h₃ h₄⟩ : Result Stmt ts) := by
  refine (lays_typeAfter .colon ts ts₁ h₁).step fun type ts₂ h₂ htype => ?_
  refine (took_expect _ _ _).step fun _ ts₃ h₃ hassign => ?_
  refine (lays_expr depth 0 ts₃).step fun value ts₄ h₄ hvalue => yields_pure ?_
  exact hvalue.suffix.trans (hassign.suffix.trans (htype.row.le.trans hts₁))

theorem suffix_varDef (depth : Nat) (start : Span) (isPub : Bool) (ts : Tokens) :
    Yields (fun p => p.rest <:+ ts) (varDef depth start isPub ts) := by
  rw [varDef]
  split
  next r hr heat =>
    exact (lays_ident r).step fun name ts₁ h₁ hname => suffix_varRest depth start true isPub name
      (shorter_two hr h₁) (hname.suffix.trans (took_of_eatWord heat).suffix)
  next =>
    exact (lays_ident ts).step fun name ts₁ h₁ hname =>
      suffix_varRest depth start false isPub name h₁ hname.suffix

/-- A module is what it is whatever stands behind its end. -/
theorem module_append {ts : Tokens} (hg : Guarded ts) (name : String) (more : Tokens) :
    module name (ts ++ more) = module name ts := by
  obtain ⟨t, r, rfl⟩ := hg.exists_cons
  have hagain : Repeats more True True _ _ _ := repeats_stmts (fun _ => rfl) hg (Nat.zero_le maxNesting) false
    (t :: t :: r) (Nat.lt_succ_self _)
  rw [module, module]
  dsimp only [peek, List.headD_cons, List.cons_append] at hagain ⊢
  cases hstmts : stmts 0 false (t :: t :: r) [] (t :: r) (Nat.lt_succ_self _) with
  | error e =>
    rw [hagain.error hstmts trivial trivial]
    rfl
  | ok p =>
    obtain ⟨hgrest, hok, -⟩ := hagain.ok hstmts
    have hfits := hagain.fits hstmts trivial
    have hpeek : (p.rest ++ more).headD ⟨.eof, default⟩ = p.rest.headD ⟨.eof, default⟩ :=
      hgrest.peek_append more
    rw [(hok hfits).2]
    show Except.ok _ = Except.ok _
    simp only [Parsed.append, hpeek]

/-- The statements of a source are all of it. -/
theorem module_consumes (hfront : ∀ t ∈ front, t.kind ≠ .eof) (hlast : last.kind = .eof) (name : String) :
    (∃ e, ∀ more, module name (front ++ last :: more) = .error e) ∨
      ∃ md h, (∀ more, module name (front ++ last :: more) = .ok md) ∧
        stmts 0 false (peek (front ++ [last]) :: (front ++ [last])) [] (front ++ [last]) (Nat.lt_succ_self _) =
          .ok ⟨md.body.stmts, [last], h⟩ := by
  have hagain (more : Tokens) : module name (front ++ last :: more) = module name (front ++ [last]) := by
    rw [List.append_cons, module_append (guarded_of_eof hlast)]
  simp only [hagain]
  rw [module]
  cases hstmts : stmts 0 false (peek (front ++ [last]) :: (front ++ [last])) [] (front ++ [last])
      (Nat.lt_succ_self _) with
  | error e => exact .inl ⟨e, fun _ => rfl⟩
  | ok p =>
    obtain ⟨hrest, -⟩ := reach_of_stmts hfront hlast hstmts
    obtain ⟨body, r, hr⟩ := p
    obtain rfl : r = [last] := hrest
    exact .inr ⟨_, hr, fun _ => rfl, rfl⟩

theorem consumption_of_no_eof (hfront : ∀ t ∈ front, t.kind ≠ .eof) (hlast : last.kind = .eof) :
    Consumption front last where
  module := module_consumes hfront hlast
  stmt := consumes hlast (fun hsame hd' _ hg => repeats_stmt hsame hg hd')
    fun d ts => (lays_stmt d ts).imp fun _ h => h.suffix
  varDef start isPub := consumes hlast
    (fun hsame hd' _ hg => repeats_varDef hsame hg hd' start isPub)
    fun d ts => suffix_varDef d start isPub ts
  exprStmt := consumes hlast (fun hsame hd' _ hg => repeats_exprStmt hsame hg hd')
    fun d ts => (lays_exprStmt d ts).imp fun _ h => h.suffix
  importStmt := consumes hlast (fun _ hd' _ hg => repeats_importStmt hd' hg)
    fun _ ts => (lays_importStmt ts).imp fun _ h => h.suffix
  fnDecl := consumes hlast (fun hsame _ _ hg => repeats_fnDecl hsame hg)
    fun d ts => (lays_fnDecl d ts).imp fun _ h => h.suffix
  structDef := consumes hlast (fun _ _ _ hg => repeats_structDef hg)
    fun _ ts => (lays_structDef ts).imp fun _ h => h.suffix
  enumDef := consumes hlast (fun _ _ _ hg => repeats_enumDef hg)
    fun _ ts => (lays_enumDef ts).imp fun _ h => h.suffix
  typeclassDef := consumes hlast (fun _ _ _ hg => repeats_typeclassDef hg)
    fun _ ts => (lays_typeclassDef ts).imp fun _ h => h.suffix
  block := consumes hlast (fun hsame _ _ hg => repeats_block hsame hg)
    fun d ts => (lays_block d ts).imp fun _ h => h.suffix
  expr power := consumes hlast (fun hsame _ _ hg => repeats_expr hsame hg power)
    fun d ts => (lays_expr d power ts).imp fun _ h => h.suffix
  operand := consumes hlast (fun hsame hd' _ hg => repeats_operand hsame hg hd')
    fun d ts => (lays_operand d ts).imp fun _ h => h.suffix
  pattern := consumes hlast (fun _ _ ts hg => repeats_pattern ts hg)
    fun _ ts => (lays_pattern ts).imp fun _ h => h.le
  typeExpr := consumes hlast (fun _ _ ts hg => repeats_typeExpr ts hg)
    fun _ ts => (lays_typeExpr ts).imp fun _ h => h.suffix

/-- Tokens that stand nowhere in a text: `x = -(y)` and then an operator that is missing its operand. -/
def placeless : Tokens :=
  [.ident "x", .symbol .assign, .symbol .minus, .symbol .lparen, .ident "y", .symbol .rparen, .stmtEnd,
    .ident "x", .symbol .star].map (⟨·, default⟩)

theorem placeless_consumption : (∀ t ∈ placeless, t.kind ≠ .eof) ∧
    Consumption placeless ⟨.eof, default⟩ ∧ Consumption (placeless.take 7) ⟨.eof, default⟩ ∧
    (module "m" (placeless ++ [⟨.eof, default⟩])).toOption = none ∧
    (module "m" (placeless.take 7 ++ [⟨.eof, default⟩])).toOption.map (·.body.stmts.length) = some 1 := by
  have hnone : ∀ t ∈ placeless, t.kind ≠ .eof := by simp [placeless]
  refine ⟨hnone, consumption_of_no_eof hnone rfl, ?_, by decide +kernel, by decide +kernel⟩
  exact consumption_of_no_eof (fun t ht => hnone t (List.mem_of_mem_take ht)) rfl

end Sluice.Parser
