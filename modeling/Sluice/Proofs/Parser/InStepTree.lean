import Sluice.Proofs.Parser.InStepParts

/-! Expressions and statements that are parsed side by side. -/
namespace Sluice.Parser

variable {f : Span → Span} {more : Option Tokens} {all ts ts' : Tokens} {loose : Bool} {ds : List Delim}

/-! ### Operators, assignments and chains -/

theorem neutral_of_unaryOp {k : Token.Kind} {op : UnaryOp} (h : unaryOp? k = some op) (ds : List Delim) :
    LineState.nextDelims ds k = ds := by
  unfold unaryOp? at h
  split at h <;> first | rfl | cases h

theorem neutral_of_binaryOp {k : Token.Kind} {q : BinaryOp × Nat} (h : binaryOp? k = some q)
    (ds : List Delim) : LineState.nextDelims ds k = ds := by
  unfold binaryOp? at h
  split at h <;> first | rfl | cases h

theorem neutral_of_assignOp {k : Token.Kind} {op : Option BinaryOp} (h : assignOp? k = some op)
    (ds : List Delim) : LineState.nextDelims ds k = ds := by
  unfold assignOp? at h
  split at h <;> first | rfl | cases h

theorem addStage_respan (hf : Through f) (lhs stage : Expr) :
    addStage (lhs.respan f) (stage.respan f) = (addStage lhs stage).respan f := by
  have hspan (s : Span) : (f s).through (stage.respan f).span = f (s.through stage.span) := by
    rw [hf, Expr.span_respan]
  cases lhs with
  | compose stages mode span => simp [addStage, Expr.respan, hf _ _]
  | _ => exact congrArg (Expr.compose _ .immediate) (hspan _)

theorem addMember_respan (hf : Through f) (base : Expr) (name : Ident) :
    addMember (base.respan f) (name.respan f) = (addMember base name).respan f := by
  cases base with
  | member inner names span => simp [addMember, Expr.respan, Ident.respan, hf _ _]
  | _ => exact congrArg (Expr.member _ _) (hf _ _).symm

theorem defer_respan (e : Expr) : defer (e.respan f) = (defer e).respan f := by
  cases e <;> rfl

theorem isAssignable_respan (e : Expr) : isAssignable (e.respan f) = isAssignable e := by
  cases e <;> rfl

/-! ### Where nothing can be read -/

theorem InStep.spent (h : InStep f more ts ts') (hspent : Spent ts) : Spent ts' := by
  cases h with
  | nil => exact hspent
  | cons t h =>
    rintro _ ⟨⟩
    exact hspent t rfl
  | stop ht ht' =>
    rintro _ ⟨⟩
    exact .inr (ht' ▸ ht)

theorem Spent.operators_eq (hspent : Spent ts) (depth power : Nat) (whole : Tokens) (lhs : Expr)
    (h : ts.length < whole.length) : operators depth power whole lhs ts h = .ok ⟨lhs, ts, h⟩ := by
  rw [operators]
  rcases hspent.cases with rfl | ⟨_, _, _, rfl, rfl | rfl | rfl⟩ <;> rfl

theorem Spent.fails_operand (hspent : Spent ts) (depth : Nat) : Fails (operand depth ts) := by
  rw [operand]
  rcases hspent.cases with rfl | ⟨_, _, _, rfl, rfl | rfl | rfl⟩ <;> exact ⟨_, rfl⟩

theorem Spent.fails_expr (hspent : Spent ts) (depth power : Nat) : Fails (expr depth power ts) := by
  rw [expr]
  split
  · exact ⟨_, rfl⟩
  · exact (hspent.fails_operand _).bind _

theorem Spent.fails_stmt (hspent : Spent ts) (depth : Nat) : Fails (stmt depth ts) := by
  have hexpr : Fails (exprStmt depth ts) := by
    rw [exprStmt]
    exact (hspent.fails_expr _ _).bind _
  rw [stmt]
  rcases hspent.cases with rfl | ⟨_, _, _, rfl, rfl | rfl | rfl⟩ <;> exact hexpr

theorem Spent.fails_fnDecl (hspent : Spent ts) (depth : Nat) : Fails (fnDecl depth ts) := by
  rw [fnDecl]
  exact (hspent.fails_expectWord _ _).bind _

theorem fails_expect_of_eof (s : Symbol) (what : String) (h : (peek ts).kind = .eof) :
    Fails (expect s what ts) := by
  cases ts with
  | nil => exact ⟨_, rfl⟩
  | cons t r =>
    obtain ⟨k, span⟩ := t
    cases h
    exact ⟨_, rfl⟩

/-! ### Lookahead -/

theorem eatElse_cases (hs : Sync f more all loose ds ts ts') :
    (eatElse ts = none ∧ eatElse ts' = none) ∨ ∃ span r r' hr hr', eatElse ts = some ⟨span, r, hr⟩ ∧
      eatElse ts' = some ⟨f span, r', hr'⟩ ∧ Sync f more all true ds r r' := by
  have hplain : (eatWord .else ts = none ∧ eatWord .else ts' = none) ∨ ∃ span r r' hr hr',
      eatWord .else ts = some ⟨span, r, hr⟩ ∧ eatWord .else ts' = some ⟨f span, r', hr'⟩ ∧
        Sync f more all true ds r r' := by
    rcases eatWord_cases .else hs with hnone | ⟨span, r, r', hr, hr', hx, hy, hsync⟩
    · exact .inl hnone
    · exact .inr ⟨span, r, r', hr, hr', hx, hy, hsync.loosen⟩
  obtain ⟨hstep, hreach⟩ := hs
  cases hstep with
  | nil => exact .inl ⟨rfl, rfl⟩
  | @cons _ r r' t hstep =>
    obtain ⟨k, span⟩ := t
    cases k with
    | stmtEnd =>
      have hnext : Sync f more all _ ds r r' := ⟨hstep, hreach.next nofun⟩
      rcases eatWord_cases .else hnext with ⟨hx, hy⟩ | ⟨span, r₂, r₂', hr, hr', hx, hy, hsync⟩
      · refine .inl ⟨?_, ?_⟩ <;> simp [eatElse, Token.respan, hx, hy]
      · refine .inr ⟨span, r₂, r₂', Nat.lt_succ_of_lt hr, Nat.lt_succ_of_lt hr', ?_, ?_, hsync.loosen⟩ <;>
          simp [eatElse, Token.respan, hx, hy]
    | _ => exact hplain
  | @stop t t' last rest ht ht' hlast hmore =>
    obtain ⟨k, span⟩ := t
    obtain ⟨k', span'⟩ := t'
    obtain ⟨klast, spanLast⟩ := last
    cases hlast
    rcases kind_of_endsStmt ht with rfl | rfl <;> cases ht'
    · refine .inl ⟨rfl, ?_⟩
      simp [eatElse, hmore]
    · exact .inl ⟨rfl, rfl⟩

theorem carries_implTarget {whole whole' : Tokens} (h : ts.length < whole.length)
    (h' : ts'.length < whole'.length) (hs : Sync f more all loose ds ts ts') :
    Carries (Agrees f more all true ds (Option.map (Ident.respan f))) (implTarget whole ts h)
      (implTarget whole' ts' h') := by
  rw [implTarget, implTarget]
  rcases eatWord_cases .for hs with ⟨hx, hy⟩ | ⟨_, ts₁, ts₁', h₁, h₁', hx, hy, hs₁⟩
  · rw [hx, hy]
    exact carries_pure ⟨rfl, hs.loosen⟩
  · rw [hx, hy]
    dsimp only
    refine (carries_typeName hs₁).step fun t ts₂ h₂ ts₂' h₂' hs₂ => ?_
    exact carries_pure ⟨rfl, hs₂.loosen⟩

/-- As `Carries`, but results of the first computation that are `E` need not be matched. -/
def CarriesUnless {α β : Type} (E : α → Prop) (R : α → β → Prop) (x : Except ParseError α)
    (y : Except ParseError β) : Prop := ∀ a, x = .ok a → E a ∨ ∃ b, y = .ok b ∧ R a b

section CarriesUnless

variable {α β α' β' : Type} {E : α → Prop} {R : α → β → Prop} {R' : α' → β' → Prop}
  {x : Except ParseError α} {y : Except ParseError β} {g : α → Except ParseError α'}
  {g' : β → Except ParseError β'}

theorem Carries.unless (h : Carries R x y) : CarriesUnless E R x y := fun a ha => .inr (h a ha)

theorem CarriesUnless.bind (hx : CarriesUnless E R x y) (he : ∀ a, E a → Fails (g a))
    (hg : ∀ a b, R a b → Carries R' (g a) (g' b)) : Carries R' (x >>= g) (y >>= g') := by
  cases x with
  | error e => exact nofun
  | ok a =>
    rcases hx a rfl with hE | ⟨b, rfl, hab⟩
    · exact (he a hE).carries _
    · exact hg a b hab

theorem Carries.stepUnless {α₀ : Type} {g₀ : α₀ → α₀} {whole whole' : Tokens} {x : Result α₀ whole}
    {y : Result α₀ whole'} {k : Parsed α₀ whole → Except ParseError α}
    {k' : Parsed α₀ whole' → Except ParseError β} (hx : Carries (Agrees f more all loose ds g₀) x y)
    (hk : ∀ v r h r' h', Sync f more all loose ds r r' →
      CarriesUnless E R (k ⟨v, r, h⟩) (k' ⟨g₀ v, r', h'⟩)) : CarriesUnless E R (x >>= k) (y >>= k') := by
  cases x with
  | error e => exact nofun
  | ok p =>
    obtain ⟨⟨v', r', h'⟩, rfl, hv, hsync⟩ := hx p rfl
    obtain rfl : v' = g₀ p.value := hv
    exact hk p.value p.rest p.shorter r' h' hsync

end CarriesUnless

/-! ### One step -/

structure Shorter (f : Span → Span) (more : Option Tokens) (all : Tokens) (n : Nat) : Prop where
  expr {depth power : Nat} {r r' : Tokens} {loose : Bool} {ds : List Delim} : r.length < n →
    Sync f more all loose ds r r' →
    Carries (Agrees f more all false ds (Expr.respan f)) (expr depth power r) (expr depth power r')
  operators {depth power : Nat} {whole whole' : Tokens} {lhs : Expr} {r r' : Tokens} {ds : List Delim} :
    r.length < n → ∀ (h : r.length < whole.length) (h' : r'.length < whole'.length),
    Sync f more all false ds r r' →
    Carries (Agrees f more all false ds (Expr.respan f)) (operators depth power whole lhs r h)
      (operators depth power whole' (lhs.respan f) r' h')
  callArgs {depth : Nat} {whole whole' : Tokens} {seen : List Expr} {r r' : Tokens} {loose : Bool}
    {ds : List Delim} : r.length < n →
    ∀ (h : r.length < whole.length) (h' : r'.length < whole'.length),
    Sync f more all loose (.paren :: ds) r r' →
    Carries (Agrees f more all false ds fun p => (p.1.map (Expr.respan f), f p.2))
      (callArgs depth whole seen r h) (callArgs depth whole' (seen.map (Expr.respan f)) r' h')
  exprList {depth : Nat} {whole whole' : Tokens} {seen : List Expr} {trailing : Bool} {r r' : Tokens}
    {loose : Bool} {ds : List Delim} : r.length < n →
    ∀ (h : r.length < whole.length) (h' : r'.length < whole'.length), Sync f more all loose ds r r' →
    Carries (Agrees f more all true ds fun p => (p.1.map (Expr.respan f), p.2))
      (exprList depth whole seen trailing r h)
      (exprList depth whole' (seen.map (Expr.respan f)) trailing r' h')
  listItems {depth : Nat} {whole whole' : Tokens} {seen : List Expr} {r r' : Tokens} {loose : Bool}
    {ds : List Delim} : r.length < n →
    ∀ (h : r.length < whole.length) (h' : r'.length < whole'.length), Sync f more all loose ds r r' →
    Carries (Agrees f more all true ds (List.map (Expr.respan f))) (listItems depth whole seen r h)
      (listItems depth whole' (seen.map (Expr.respan f)) r' h')
  mapEntries {depth : Nat} {whole whole' : Tokens} {seen : List (Expr × Expr)} {r r' : Tokens}
    {loose : Bool} {ds : List Delim} : r.length < n →
    ∀ (h : r.length < whole.length) (h' : r'.length < whole'.length), Sync f more all loose ds r r' →
    Carries (Agrees f more all true ds (List.map fun e => (e.1.respan f, e.2.respan f)))
      (mapEntries depth whole seen r h)
      (mapEntries depth whole' (seen.map fun e => (e.1.respan f, e.2.respan f)) r' h')
  block {depth : Nat} {r r' : Tokens} {loose : Bool} {ds : List Delim} : r.length < n →
    Sync f more all loose ds r r' →
    Carries (Agrees f more all false ds (Block.respan f)) (block depth r) (block depth r')
  /-- The statements of a block are read on both sides, or the first list runs out before the block ends. -/
  stmts {depth : Nat} {whole whole' : Tokens} {seen : List Stmt} {r r' : Tokens} {loose : Bool}
    {ds : List Delim} : r.length < n →
    ∀ (h : r.length < whole.length) (h' : r'.length < whole'.length), Sync f more all loose ds r r' →
    CarriesUnless (fun p => (peek p.rest).kind = .eof)
      (Agrees f more all true ds (List.map (Stmt.respan f))) (stmts depth true whole seen r h)
      (stmts depth true whole' (seen.map (Stmt.respan f)) r' h')
  varDef {depth : Nat} {start : Span} {isPub : Bool} {r r' : Tokens} {loose : Bool} {ds : List Delim} :
    r.length < n → Sync f more all loose ds r r' →
    Carries (Agrees f more all false ds (Stmt.respan f)) (varDef depth start isPub r)
      (varDef depth (f start) isPub r')
  fnDecl {depth : Nat} {r r' : Tokens} {loose : Bool} {ds : List Delim} : r.length < n →
    Sync f more all loose ds r r' →
    Carries (Agrees f more all false ds (FnDecl.respan f)) (fnDecl depth r) (fnDecl depth r')
  implMethods {depth : Nat} {whole whole' : Tokens} {seen : List FnDecl} {r r' : Tokens} {loose : Bool}
    {ds : List Delim} : r.length < n →
    ∀ (h : r.length < whole.length) (h' : r'.length < whole'.length), Sync f more all loose ds r r' →
    Carries (Agrees f more all true ds (List.map (FnDecl.respan f))) (implMethods depth whole seen r h)
      (implMethods depth whole' (seen.map (FnDecl.respan f)) r' h')
  branches {depth : Nat} {whole whole' : Tokens} {seen : List (Expr × Block)} {r r' : Tokens}
    {loose : Bool} {ds : List Delim} : r.length < n →
    ∀ (h : r.length < whole.length) (h' : r'.length < whole'.length), Sync f more all loose ds r r' →
    Carries (Agrees f more all false ds fun p => (p.1.map (fun q => (q.1.respan f, q.2.respan f)),
        p.2.1.map (Block.respan f), f p.2.2)) (branches depth whole seen r h)
      (branches depth whole' (seen.map fun q => (q.1.respan f, q.2.respan f)) r' h')
  matchArms {depth : Nat} {whole whole' : Tokens} {seen : List MatchArm} {r r' : Tokens} {loose : Bool}
    {ds : List Delim} : r.length < n →
    ∀ (h : r.length < whole.length) (h' : r'.length < whole'.length), Sync f more all loose ds r r' →
    Carries (Agrees f more all true ds (List.map (MatchArm.respan f))) (matchArms depth whole seen r h)
      (matchArms depth whole' (seen.map (MatchArm.respan f)) r' h')

theorem Shorter.mono {m n : Nat} (H : Shorter f more all n) (h : m ≤ n) : Shorter f more all m where
  expr hlt := H.expr (hlt.trans_le h)
  operators hlt := H.operators (hlt.trans_le h)
  callArgs hlt := H.callArgs (hlt.trans_le h)
  exprList hlt := H.exprList (hlt.trans_le h)
  listItems hlt := H.listItems (hlt.trans_le h)
  mapEntries hlt := H.mapEntries (hlt.trans_le h)
  block hlt := H.block (hlt.trans_le h)
  stmts hlt := H.stmts (hlt.trans_le h)
  varDef hlt := H.varDef (hlt.trans_le h)
  fnDecl hlt := H.fnDecl (hlt.trans_le h)
  implMethods hlt := H.implMethods (hlt.trans_le h)
  branches hlt := H.branches (hlt.trans_le h)
  matchArms hlt := H.matchArms (hlt.trans_le h)

section Shorter

-- One lemma for each reader. What it calls on the same tokens comes before it, the rest is in `H`.
variable (H : Shorter f more all ts.length) (hf : Through f) (depth : Nat)

include H

theorem carries_listItems_of {whole whole' : Tokens} (seen : List Expr)
    (h : ts.length < whole.length) (h' : ts'.length < whole'.length)
    (hs : Sync f more all loose ds ts ts') :
    Carries (Agrees f more all true ds (List.map (Expr.respan f))) (listItems depth whole seen ts h)
      (listItems depth whole' (seen.map (Expr.respan f)) ts' h') := by
  rw [listItems, listItems]
  rcases eat_cases .comma (by decide) hs with ⟨hx, hy⟩ | ⟨_, ts₁, ts₁', h₁, h₁', hx, hy, hs₁⟩
  · rw [hx, hy]
    exact carries_pure ⟨by simp, hs.loosen⟩
  · rw [hx, hy]
    dsimp only
    rw [isAt_eq .rbracket (by decide) hs₁]
    split
    · exact carries_pure ⟨by simp, hs₁⟩
    · refine (H.expr h₁ hs₁).step fun e ts₂ h₂ ts₂' h₂' hs₂ => ?_
      exact H.listItems (h₂.trans h₁) _ _ hs₂

/-- A definition behind `pub`. -/
theorem carries_pubVar_of (span : Span) {r r' : Tokens} (hlt : r.length < ts.length)
    (hs : Sync f more all loose ds r r') :
    Carries (Agrees f more all false ds (Stmt.respan f))
      (do
        let ⟨s, ts₁, h₁⟩ ← varDef depth span true r
        return ⟨s, ts₁, Nat.lt_succ_of_lt h₁⟩ : Result Stmt (⟨.keyword .pub, span⟩ :: r))
      (do
        let ⟨s, ts₁, h₁⟩ ← varDef depth (f span) true r'
        return ⟨s, ts₁, Nat.lt_succ_of_lt h₁⟩ : Result Stmt (⟨.keyword .pub, f span⟩ :: r')) := by
  refine (H.varDef hlt hs).step fun _ _ _ _ _ hs₁ => ?_
  exact carries_pure ⟨rfl, hs₁⟩

include hf

theorem carries_operators_of (power : Nat) {whole whole' : Tokens} (lhs : Expr)
    (h : ts.length < whole.length) (h' : ts'.length < whole'.length)
    (hs : Sync f more all false ds ts ts') :
    Carries (Agrees f more all false ds (Expr.respan f)) (operators depth power whole lhs ts h)
      (operators depth power whole' (lhs.respan f) ts' h') := by
  rcases hs.step.spent_or_cons with hspent | ⟨⟨kind, span⟩, r, r', hts, hts', hkind, hstep⟩
  · rw [hspent.operators_eq, (hs.step.spent hspent).operators_eq]
    exact carries_ok ⟨rfl, hs⟩
  have hlen : r.length < ts.length := by
    rw [hts]
    exact Nat.lt_succ_self _
  simp only [hts, hts'] at hs ⊢
  have hstop : Carries (Agrees f more all false ds (Expr.respan f))
      (pure ⟨lhs, _, hts ▸ h⟩ : Result Expr whole) (pure ⟨lhs.respan f, _, hts' ▸ h'⟩ : Result Expr whole') :=
    carries_pure ⟨rfl, hs⟩
  have hs₀ := hs.next r' hkind hstep
  rw [operators, operators]
  dsimp only [next, Token.respan]
  split
  · refine (H.callArgs hlen _ _ hs₀).step fun p ts₁ h₁ ts₁' h₁' hs₁ => ?_
    obtain ⟨args, stop⟩ := p
    have hcall : Expr.call (lhs.respan f) (args.map (Expr.respan f)) ((lhs.respan f).span.through (f stop)) =
        (Expr.call lhs args (lhs.span.through stop)).respan f := by
      simp [Expr.respan, hf _ _]
    have hargs : ts₁.length < r.length + 1 := h₁
    dsimp only
    rw [hcall]
    exact H.operators (by omega) _ _ hs₁
  · refine (H.expr hlen hs₀).step fun key ts₁ h₁ ts₁' h₁' hs₁ => ?_
    dsimp only
    refine (carries_expect .rbracket (by decide) _ hs₁).step fun stop ts₂ h₂ ts₂' h₂' hs₂ => ?_
    have hindex : Expr.index (lhs.respan f) (key.respan f) ((lhs.respan f).span.through (f stop)) =
        (Expr.index lhs key (lhs.span.through stop)).respan f := by
      simp [Expr.respan, hf _ _]
    dsimp only
    rw [hindex]
    exact H.operators (by omega) _ _ hs₂
  · refine (carries_ident hs₀).step fun name ts₁ h₁ ts₁' h₁' hs₁ => ?_
    dsimp only
    rw [addMember_respan hf]
    exact H.operators (by omega) _ _ hs₁
  · split
    · exact hstop
    · refine (H.expr hlen hs₀).step fun stage ts₁ h₁ ts₁' h₁' hs₁ => ?_
      dsimp only
      rw [addStage_respan hf]
      exact H.operators (by omega) _ _ hs₁
  · split
    · exact hstop
    next op p hop =>
      split
      · exact hstop
      · rw [neutral_of_binaryOp hop] at hs₀
        refine (H.expr hlen hs₀).step fun rhs ts₁ h₁ ts₁' h₁' hs₁ => ?_
        have hbinary : Expr.binary (lhs.respan f) op (rhs.respan f)
            ((lhs.respan f).span.through (rhs.respan f).span) =
            (Expr.binary lhs op rhs (lhs.span.through rhs.span)).respan f := by
          simp [Expr.respan, hf _ _]
        dsimp only
        rw [hbinary]
        exact H.operators (by omega) _ _ hs₁

theorem carries_operand_of (hs : Sync f more all loose ds ts ts') :
    Carries (Agrees f more all false ds (Expr.respan f)) (operand depth ts) (operand depth ts') := by
  rcases hs.step.spent_or_cons with hspent | ⟨⟨kind, span⟩, r, r', hts, hts', hkind, hstep⟩
  · exact (hspent.fails_operand depth).carries _
  have hlen : r.length < ts.length := by
    rw [hts]
    exact Nat.lt_succ_self _
  rw [hts, hts'] at hs ⊢
  have hs₀ := hs.next r' hkind hstep
  rw [operand, operand]
  dsimp only [next, Token.respan]
  split
  next op hop =>
    rw [neutral_of_unaryOp hop] at hs₀
    refine (H.expr hlen hs₀).step fun e ts₁ h₁ ts₁' h₁' hs₁ => ?_
    exact carries_pure ⟨by simp [Expr.respan, hf _ _], hs₁⟩
  next =>
  split
  next l hl =>
    rw [(neutral_of_literal hl).1, (neutral_of_literal hl).2] at hs₀
    exact carries_pure ⟨rfl, hs₀⟩
  next =>
  split
  · exact carries_pure ⟨rfl, hs₀⟩
  · exact carries_pure ⟨rfl, hs₀⟩
  · refine (H.exprList hlen _ _ hs₀).step fun p ts₁ h₁ ts₁' h₁' hs₁ => ?_
    obtain ⟨elems, trailing⟩ := p
    dsimp only
    refine (carries_expect .rparen (by decide) _ hs₁).step fun stop ts₂ h₂ ts₂' h₂' hs₂ => ?_
    dsimp only
    rcases elems with _ | ⟨e, _ | ⟨e', es⟩⟩
    · exact carries_pure ⟨by simp [Expr.respan, hf _ _], hs₂⟩
    · cases trailing
      · exact carries_pure ⟨by simp [Expr.respan, hf _ _], hs₂⟩
      · exact carries_error _
    · exact carries_pure ⟨by simp [Expr.respan, hf _ _], hs₂⟩
  · rcases eat_cases .rbracket (by decide) hs₀ with ⟨hx, hy⟩ | ⟨stop, ts₁, ts₁', h₁, h₁', hx, hy, hs₁⟩
    · rw [hx, hy]
      dsimp only
      refine (H.expr hlen hs₀).step fun first ts₁ h₁ ts₁' h₁' hs₁ => ?_
      dsimp only
      rcases eat_cases .dotDot (by decide) hs₁ with ⟨hx, hy⟩ | ⟨_, ts₂, ts₂', h₂, h₂', hx, hy, hs₂⟩
      · rw [hx, hy]
        dsimp only
        refine (H.listItems (h₁.trans hlen) h₁ h₁' hs₁).step fun items ts₂ h₂ ts₂' h₂' hs₂ => ?_
        refine (carries_expect .rbracket (by decide) _ hs₂).step fun stop ts₃ h₃ ts₃' h₃' hs₃ => ?_
        exact carries_pure ⟨by simp [Expr.respan, hf _ _], hs₃⟩
      · rw [hx, hy]
        dsimp only
        refine (H.expr (h₂.trans (h₁.trans hlen)) hs₂).step fun hi ts₃ h₃ ts₃' h₃' hs₃ => ?_
        refine (carries_expect .rbracket (by decide) _ hs₃).step fun stop ts₄ h₄ ts₄' h₄' hs₄ => ?_
        exact carries_pure ⟨by simp [Expr.respan, hf _ _], hs₄⟩
    · rw [hx, hy]
      exact carries_pure ⟨by simp [Expr.respan, hf _ _], hs₁⟩
  · refine (H.mapEntries hlen _ _ hs₀).step fun entries ts₁ h₁ ts₁' h₁' hs₁ => ?_
    refine (carries_expect .rbrace (by decide) _ hs₁).step fun stop ts₂ h₂ ts₂' h₂' hs₂ => ?_
    exact carries_pure ⟨by simp [Expr.respan, hf _ _], hs₂⟩
  · refine (carries_params hf hs₀).step fun ps ts₁ h₁ ts₁' h₁' hs₁ => ?_
    dsimp only
    refine (carries_typeAfter hf .arrow (by decide) rfl h₁ h₁' hs₁).step fun result ts₂ h₂ ts₂' h₂' hs₂ => ?_
    dsimp only
    refine (H.block (h₂.trans hlen) hs₂).step fun body ts₃ h₃ ts₃' h₃' hs₃ => ?_
    exact carries_pure ⟨by simp [Expr.respan, hf _ _], hs₃⟩
  · exact carries_error _

theorem carries_expr_of (power : Nat) (hs : Sync f more all loose ds ts ts') :
    Carries (Agrees f more all false ds (Expr.respan f)) (expr depth power ts) (expr depth power ts') := by
  rw [expr, expr]
  split
  · exact carries_error _
  · refine (carries_operand_of H hf (depth + 1) hs).step fun first ts₁ h₁ ts₁' h₁' hs₁ => ?_
    exact H.operators h₁ h₁ h₁' hs₁

theorem carries_callArgs_of {whole whole' : Tokens} (seen : List Expr)
    (h : ts.length < whole.length) (h' : ts'.length < whole'.length)
    (hs : Sync f more all loose (.paren :: ds) ts ts') :
    Carries (Agrees f more all false ds fun p => (p.1.map (Expr.respan f), f p.2))
      (callArgs depth whole seen ts h) (callArgs depth whole' (seen.map (Expr.respan f)) ts' h') := by
  rw [callArgs, callArgs]
  rcases eat_cases .rparen (by decide) hs with ⟨hx, hy⟩ | ⟨stop, ts₁, ts₁', h₁, h₁', hx, hy, hs₁⟩
  · rw [hx, hy]
    dsimp only
    refine (carries_expr_of H hf depth 0 hs).step fun arg ts₁ h₁ ts₁' h₁' hs₁ => ?_
    dsimp only
    rcases eat_cases .comma (by decide) hs₁ with ⟨hx, hy⟩ | ⟨_, ts₂, ts₂', h₂, h₂', hx, hy, hs₂⟩
    · rw [hx, hy]
      dsimp only
      refine (carries_expect .rparen (by decide) _ hs₁).step fun stop ts₂ h₂ ts₂' h₂' hs₂ => ?_
      exact carries_pure ⟨by simp, hs₂⟩
    · rw [hx, hy]
      exact H.callArgs (h₂.trans h₁) _ _ hs₂
  · rw [hx, hy]
    exact carries_pure ⟨by simp, hs₁⟩

theorem carries_exprList_of {whole whole' : Tokens} (seen : List Expr) (trailing : Bool)
    (h : ts.length < whole.length) (h' : ts'.length < whole'.length)
    (hs : Sync f more all loose ds ts ts') :
    Carries (Agrees f more all true ds fun p => (p.1.map (Expr.respan f), p.2))
      (exprList depth whole seen trailing ts h)
      (exprList depth whole' (seen.map (Expr.respan f)) trailing ts' h') := by
  rw [exprList, exprList, isAt_eq .rparen (by decide) hs]
  split
  · exact carries_pure ⟨by simp, hs.loosen⟩
  · refine (carries_expr_of H hf depth 0 hs).step fun e ts₁ h₁ ts₁' h₁' hs₁ => ?_
    dsimp only
    rcases eat_cases .comma (by decide) hs₁ with ⟨hx, hy⟩ | ⟨_, ts₂, ts₂', h₂, h₂', hx, hy, hs₂⟩
    · rw [hx, hy]
      exact carries_pure ⟨by simp, hs₁.loosen⟩
    · rw [hx, hy]
      exact H.exprList (h₂.trans h₁) _ _ hs₂

theorem carries_mapEntries_of {whole whole' : Tokens} (seen : List (Expr × Expr))
    (h : ts.length < whole.length) (h' : ts'.length < whole'.length)
    (hs : Sync f more all loose ds ts ts') :
    Carries (Agrees f more all true ds (List.map fun e => (e.1.respan f, e.2.respan f)))
      (mapEntries depth whole seen ts h)
      (mapEntries depth whole' (seen.map fun e => (e.1.respan f, e.2.respan f)) ts' h') := by
  have hskip := (skip separates ts).2
  rw [mapEntries, mapEntries]
  dsimp only
  rcases hs.skip_separates with hs₀ | hspent
  · rw [isAt_eq .rbrace (by decide) hs₀]
    split
    · exact carries_pure ⟨by simp, hs₀⟩
    · refine (carries_expr_of (H.mono hskip) hf depth 0 hs₀).step fun key ts₁ h₁ ts₁' h₁' hs₁ => ?_
      dsimp only
      refine (carries_expect .colon (by decide) _ hs₁).step fun _ ts₂ h₂ ts₂' h₂' hs₂ => ?_
      dsimp only
      refine (H.expr (by omega) hs₂).step fun value ts₃ h₃ ts₃' h₃' hs₃ => ?_
      dsimp only
      exact H.mapEntries (by omega) _ _ hs₃
  · rw [hspent.isAt_eq_false .rbrace (by decide)]
    exact ((hspent.fails_expr depth 0).bind _).carries _

theorem carries_block_of (hs : Sync f more all loose ds ts ts') :
    Carries (Agrees f more all false ds (Block.respan f)) (block depth ts) (block depth ts') := by
  rw [block, block]
  split
  · exact carries_error _
  · refine (carries_expect .lbrace (by decide) _ hs).step fun start ts₁ h₁ ts₁' h₁' hs₁ => ?_
    dsimp only
    refine (H.stmts h₁ h₁ h₁' hs₁).bind ?_ ?_
    · rintro ⟨body, ts₂, h₂⟩ heof
      exact (fails_expect_of_eof .rbrace _ heof).bind _
    · rintro ⟨body, ts₂, h₂⟩ ⟨body', ts₂', h₂'⟩ ⟨hbody, hs₂⟩
      obtain rfl : body' = body.map (Stmt.respan f) := hbody
      refine (carries_expect .rbrace (by decide) _ hs₂).step fun stop ts₃ h₃ ts₃' h₃' hs₃ => ?_
      exact carries_pure ⟨by simp [Block.respan, hf _ _], hs₃⟩

/-- With or without `const`, the rest of a definition is read the same way. -/
theorem carries_varRest_of (start : Span) (isConst isPub : Bool) (name : Ident) {ts₁ ts₁' : Tokens}
    (h₁ : ts₁.length < ts.length) (h₁' : ts₁'.length < ts'.length) (hs₁ : Sync f more all false ds ts₁ ts₁') :
    Carries (Agrees f more all false ds (Stmt.respan f))
      (do
        let ⟨type, ts₂, h₂⟩ ← typeAfter .colon ts ts₁ h₁
        let ⟨_, ts₃, h₃⟩ ← expect .assign "`=`" ts₂
        let ⟨value, ts₄, h₄⟩ ← expr depth 0 ts₃
        return ⟨.var name type isConst isPub (defer value) (start.through value.span), ts₄,
          h₄.trans (h₃.trans h₂)⟩ : Result Stmt ts)
      (do
        let ⟨type, ts₂, h₂⟩ ← typeAfter .colon ts' ts₁' h₁'
        let ⟨_, ts₃, h₃⟩ ← expect .assign "`=`" ts₂
        let ⟨value, ts₄, h₄⟩ ← expr depth 0 ts₃
        return ⟨.var (name.respan f) type isConst isPub (defer value) ((f start).through value.span), ts₄,
          h₄.trans (h₃.trans h₂)⟩ : Result Stmt ts') := by
  refine (carries_typeAfter hf .colon (by decide) rfl h₁ h₁' hs₁).step fun type ts₂ h₂ ts₂' h₂' hs₂ => ?_
  refine (carries_expect .assign (by decide) _ hs₂).step fun _ ts₃ h₃ ts₃' h₃' hs₃ => ?_
  refine (H.expr (h₃.trans h₂) hs₃).step fun value ts₄ h₄ ts₄' h₄' hs₄ => ?_
  exact carries_pure ⟨by simp [Stmt.respan, defer_respan, hf _ _], hs₄⟩

theorem carries_varDef_of (start : Span) (isPub : Bool) (hs : Sync f more all loose ds ts ts') :
    Carries (Agrees f more all false ds (Stmt.respan f)) (varDef depth start isPub ts)
      (varDef depth (f start) isPub ts') := by
  rw [varDef, varDef]
  rcases eatWord_cases .const hs with ⟨hx, hy⟩ | ⟨_, r, r', hr, hr', hx, hy, hs₀⟩
  · rw [hx, hy]
    exact (carries_ident hs).step fun name ts₁ h₁ ts₁' h₁' hs₁ =>
      carries_varRest_of H hf depth start false isPub name h₁ h₁' hs₁
  · rw [hx, hy]
    exact (carries_ident hs₀).step fun name ts₁ h₁ ts₁' h₁' hs₁ =>
      carries_varRest_of H hf depth start true isPub name (h₁.trans hr) (h₁'.trans hr') hs₁

theorem carries_exprStmt_of (hs : Sync f more all loose ds ts ts') :
    Carries (Agrees f more all false ds (Stmt.respan f)) (exprStmt depth ts) (exprStmt depth ts') := by
  rw [exprStmt, exprStmt]
  refine (carries_expr_of H hf depth 0 hs).step fun e ts₁ h₁ ts₁' h₁' hs₁ => ?_
  have hexpr : Carries (Agrees f more all false ds (Stmt.respan f))
      (pure ⟨.expr e e.span, ts₁, h₁⟩ : Result Stmt ts)
      (pure ⟨.expr (e.respan f) (e.respan f).span, ts₁', h₁'⟩ : Result Stmt ts') :=
    carries_pure ⟨by simp [Stmt.respan], hs₁⟩
  rcases hs₁.step.spent_or_cons with hspent | ⟨⟨kind, span⟩, r, r', rfl, rfl, hkind, hstep⟩
  · rcases hspent.cases with rfl | ⟨_, _, _, rfl, rfl | rfl | rfl⟩ <;>
      rcases (hs₁.step.spent hspent).cases with rfl | ⟨_, _, _, rfl, rfl | rfl | rfl⟩ <;> exact hexpr
  · have hlen : r.length + 1 < ts.length := h₁
    dsimp only [next, Token.respan]
    split
    · exact hexpr
    next op hop =>
      have hs₂ := hs₁.next r' hkind hstep
      rw [neutral_of_assignOp hop] at hs₂
      rw [isAssignable_respan]
      split
      · refine (H.expr (by omega) hs₂).step fun value ts₃ h₃ ts₃' h₃' hs₃ => ?_
        exact carries_pure ⟨by simp [Stmt.respan, defer_respan, hf _ _], hs₃⟩
      · exact carries_error _

theorem carries_fnDecl_of (hs : Sync f more all loose ds ts ts') :
    Carries (Agrees f more all false ds (FnDecl.respan f)) (fnDecl depth ts) (fnDecl depth ts') := by
  rw [fnDecl, fnDecl]
  refine (carries_expectWord .fn _ hs).step fun start ts₁ h₁ ts₁' h₁' hs₁ => ?_
  dsimp only
  refine (carries_ident hs₁).step fun name ts₂ h₂ ts₂' h₂' hs₂ => ?_
  dsimp only
  refine (carries_params hf hs₂).step fun ps ts₃ h₃ ts₃' h₃' hs₃ => ?_
  dsimp only
  refine (carries_typeAfter hf .arrow (by decide) rfl h₃ h₃' hs₃).step fun result ts₄ h₄ ts₄' h₄' hs₄ => ?_
  dsimp only
  refine (H.block (h₄.trans (h₂.trans h₁)) hs₄).step fun body ts₅ h₅ ts₅' h₅' hs₅ => ?_
  exact carries_pure ⟨by simp [FnDecl.respan, hf _ _], hs₅⟩

theorem carries_stmt_of (hs : Sync f more all loose ds ts ts') :
    Carries (Agrees f more all false ds (Stmt.respan f)) (stmt depth ts) (stmt depth ts') := by
  rcases hs.step.spent_or_cons with hspent | ⟨⟨kind, span⟩, r, r', hts, hts', hkind, hstep⟩
  · exact (hspent.fails_stmt depth).carries _
  have hlen : r.length < ts.length := by
    rw [hts]
    exact Nat.lt_succ_self _
  have hexpr := carries_exprStmt_of H hf depth hs
  have hvar := carries_varDef_of H hf depth span false hs
  have hfn := carries_fnDecl_of H hf depth hs
  rw [hts, hts'] at hs hexpr hvar hfn ⊢
  have hs₀ := hs.next r' hkind hstep
  have hpeek := hstep.peek_kind
  rw [stmt, stmt]
  dsimp only [next, Token.respan]
  split
  · have hpub := carries_pubVar_of H depth span hlen hs₀
    generalize peek r = t, peek r' = t' at hpeek ⊢
    obtain ⟨k, s⟩ := t
    obtain ⟨k', s'⟩ := t'
    obtain rfl : k' = k := hpeek
    cases k' with
    | keyword w =>
      cases w with
      | fn =>
        refine (H.fnDecl hlen hs₀).step fun d ts₁ h₁ ts₁' h₁' hs₁ => ?_
        obtain ⟨name, params, result, body, isPub, s⟩ := d
        exact carries_pure ⟨by simp [Stmt.respan, FnDecl.respan, hf _ _], hs₁⟩
      | _ => exact hpub
    | _ => exact hpub
  · exact hvar
  · generalize peek r = t, peek r' = t' at hpeek ⊢
    obtain ⟨k, s⟩ := t
    obtain ⟨k', s'⟩ := t'
    obtain rfl : k' = k := hpeek
    cases k' with
    | ident name => exact hfn.step fun d ts₁ h₁ ts₁' h₁' hs₁ => carries_pure ⟨rfl, hs₁⟩
    | _ => exact hexpr
  · refine (carries_structDef hf hs).step fun d ts₁ h₁ ts₁' h₁' hs₁ => ?_
    exact carries_pure ⟨rfl, hs₁⟩
  · refine (carries_enumDef hf hs).step fun d ts₁ h₁ ts₁' h₁' hs₁ => ?_
    exact carries_pure ⟨rfl, hs₁⟩
  · refine (carries_typeclassDef hf hs).step fun d ts₁ h₁ ts₁' h₁' hs₁ => ?_
    exact carries_pure ⟨rfl, hs₁⟩
  · refine (carries_typeName hs₀).step fun name ts₁ h₁ ts₁' h₁' hs₁ => ?_
    dsimp only
    refine (carries_implTarget h₁ h₁' hs₁).step fun target ts₂ h₂ ts₂' h₂' hs₂ => ?_
    dsimp only
    refine (carries_expect .lbrace (by decide) _ hs₂).step fun _ ts₃ h₃ ts₃' h₃' hs₃ => ?_
    dsimp only
    refine (H.implMethods (by omega) h₃ h₃' hs₃).step
      fun methods ts₄ h₄ ts₄' h₄' hs₄ => ?_
    refine (carries_expect .rbrace (by decide) _ hs₄).step fun stop ts₅ h₅ ts₅' h₅' hs₅ => ?_
    exact carries_pure ⟨by simp [Stmt.respan, ImplDef.respan, hf _ _], hs₅⟩
  · refine (carries_pattern hf r r' hs₀).step fun pat ts₁ h₁ ts₁' h₁' hs₁ => ?_
    dsimp only
    refine (carries_expectWord .in _ hs₁).step fun _ ts₂ h₂ ts₂' h₂' hs₂ => ?_
    dsimp only
    refine (H.expr (h₂.trans (h₁.trans hlen)) hs₂).step fun iter ts₃ h₃ ts₃' h₃' hs₃ => ?_
    dsimp only
    refine (H.block (h₃.trans (h₂.trans (h₁.trans hlen))) hs₃).step fun body ts₄ h₄ ts₄' h₄' hs₄ => ?_
    exact carries_pure ⟨by simp [Stmt.respan, hf _ _], hs₄⟩
  · refine (H.branches hlen _ _ hs₀).step fun p ts₁ h₁ ts₁' h₁' hs₁ => ?_
    obtain ⟨branches, otherwise, stop⟩ := p
    exact carries_pure ⟨by simp [hf _ _], hs₁⟩
  · refine (H.expr hlen hs₀).step fun test ts₁ h₁ ts₁' h₁' hs₁ => ?_
    dsimp only
    refine (H.block (h₁.trans hlen) hs₁).step fun body ts₂ h₂ ts₂' h₂' hs₂ => ?_
    exact carries_pure ⟨by simp [Stmt.respan, hf _ _], hs₂⟩
  · refine (H.expr hlen hs₀).step fun scrutinee ts₁ h₁ ts₁' h₁' hs₁ => ?_
    dsimp only
    refine (carries_expect .lbrace (by decide) _ hs₁).step fun _ ts₂ h₂ ts₂' h₂' hs₂ => ?_
    dsimp only
    refine (H.matchArms (h₂.trans (h₁.trans hlen)) h₂ h₂' hs₂).step
      fun arms ts₃ h₃ ts₃' h₃' hs₃ => ?_
    refine (carries_expect .rbrace (by decide) _ hs₃).step fun stop ts₄ h₄ ts₄' h₄' hs₄ => ?_
    exact carries_pure ⟨by simp [Stmt.respan, hf _ _], hs₄⟩
  · exact carries_importStmt hf hs
  · refine (carries_ident hs₀).step fun name ts₁ h₁ ts₁' h₁' hs₁ => ?_
    dsimp only
    refine (H.block (h₁.trans hlen) hs₁).step fun body ts₂ h₂ ts₂' h₂' hs₂ => ?_
    exact carries_pure ⟨by simp [Stmt.respan, hf _ _], hs₂⟩
  · rw [hpeek]
    split
    · exact carries_pure ⟨rfl, hs₀⟩
    · refine (H.expr hlen hs₀).step fun e ts₁ h₁ ts₁' h₁' hs₁ => ?_
      exact carries_pure ⟨by simp [Stmt.respan, hf _ _], hs₁⟩
  · exact carries_pure ⟨rfl, hs₀⟩
  · exact carries_pure ⟨rfl, hs₀⟩
  · exact carries_error _
  · exact carries_error _
  · rw [isAt_eq .colon (by decide) hs₀]
    split
    · exact hvar
    · exact hexpr
  · exact hexpr

theorem carries_stmts_of {whole whole' : Tokens} (seen : List Stmt)
    (h : ts.length < whole.length) (h' : ts'.length < whole'.length)
    (hs : Sync f more all loose ds ts ts') :
    CarriesUnless (fun p => (peek p.rest).kind = .eof)
      (Agrees f more all true ds (List.map (Stmt.respan f))) (stmts depth true whole seen ts h)
      (stmts depth true whole' (seen.map (Stmt.respan f)) ts' h') := by
  have hskip := (skip endsStmt ts).2
  rw [stmts, stmts]
  dsimp only
  rcases hs.skip_endsStmt with hs₀ | ⟨heof, -⟩
  · rw [hs₀.step.peek_kind]
    split
    · exact (carries_pure ⟨by simp, hs₀.loosen⟩).unless
    · refine (carries_stmt_of (H.mono hskip) hf depth hs₀).stepUnless fun s ts₁ h₁ ts₁' h₁' hs₁ => ?_
      dsimp only
      rw [hs₁.step.peek_kind]
      split
      · exact H.stmts (by omega) _ _ hs₁
      · exact (carries_error _).unless
  · rw [heof]
    rintro _ ⟨⟩
    exact .inl heof

theorem carries_implMethods_of {whole whole' : Tokens} (seen : List FnDecl)
    (h : ts.length < whole.length) (h' : ts'.length < whole'.length)
    (hs : Sync f more all loose ds ts ts') :
    Carries (Agrees f more all true ds (List.map (FnDecl.respan f))) (implMethods depth whole seen ts h)
      (implMethods depth whole' (seen.map (FnDecl.respan f)) ts' h') := by
  have hskip := (skip separates ts).2
  rw [implMethods, implMethods]
  dsimp only
  rcases hs.skip_separates with hs₀ | hspent
  · rw [isAt_eq .rbrace (by decide) hs₀]
    split
    · exact carries_pure ⟨by simp, hs₀⟩
    · refine (carries_fnDecl_of (H.mono hskip) hf depth hs₀).step fun d ts₁ h₁ ts₁' h₁' hs₁ => ?_
      dsimp only
      exact H.implMethods (by omega) _ _ hs₁
  · rw [hspent.isAt_eq_false .rbrace (by decide)]
    exact ((hspent.fails_fnDecl depth).bind _).carries _

theorem carries_branches_of {whole whole' : Tokens} (seen : List (Expr × Block))
    (h : ts.length < whole.length) (h' : ts'.length < whole'.length)
    (hs : Sync f more all loose ds ts ts') :
    Carries (Agrees f more all false ds fun p => (p.1.map (fun q => (q.1.respan f, q.2.respan f)),
        p.2.1.map (Block.respan f), f p.2.2)) (branches depth whole seen ts h)
      (branches depth whole' (seen.map fun q => (q.1.respan f, q.2.respan f)) ts' h') := by
  rw [branches, branches]
  refine (carries_expr_of H hf depth 0 hs).step fun test ts₁ h₁ ts₁' h₁' hs₁ => ?_
  dsimp only
  refine (H.block h₁ hs₁).step fun body ts₂ h₂ ts₂' h₂' hs₂ => ?_
  dsimp only
  rcases eatElse_cases hs₂ with ⟨hx, hy⟩ | ⟨_, ts₃, ts₃', h₃, h₃', hx, hy, hs₃⟩
  · rw [hx, hy]
    exact carries_pure ⟨by simp, hs₂⟩
  · rw [hx, hy]
    dsimp only
    rcases eatWord_cases .if hs₃ with ⟨hx, hy⟩ | ⟨_, ts₄, ts₄', h₄, h₄', hx, hy, hs₄⟩
    · rw [hx, hy]
      dsimp only
      refine (H.block (by omega) hs₃).step fun last ts₄ h₄ ts₄' h₄' hs₄ => ?_
      exact carries_pure ⟨by simp, hs₄⟩
    · rw [hx, hy]
      exact H.branches (by omega) _ _ hs₄

theorem carries_matchArms_of {whole whole' : Tokens} (seen : List MatchArm)
    (h : ts.length < whole.length) (h' : ts'.length < whole'.length)
    (hs : Sync f more all loose ds ts ts') :
    Carries (Agrees f more all true ds (List.map (MatchArm.respan f))) (matchArms depth whole seen ts h)
      (matchArms depth whole' (seen.map (MatchArm.respan f)) ts' h') := by
  have hskip := (skip separates ts).2
  rw [matchArms, matchArms]
  dsimp only
  rcases hs.skip_separates with hs₀ | hspent
  · rw [isAt_eq .rbrace (by decide) hs₀]
    split
    · exact carries_pure ⟨by simp, hs₀⟩
    · refine (carries_pattern hf _ _ hs₀).step fun pat ts₁ h₁ ts₁' h₁' hs₁ => ?_
      dsimp only
      refine (carries_expect .fatArrow (by decide) _ hs₁).step fun _ ts₂ h₂ ts₂' h₂' hs₂ => ?_
      dsimp only
      rw [isAt_eq .lbrace (by decide) hs₂]
      split
      · refine (H.block (by omega) hs₂).step fun b ts₃ h₃ ts₃' h₃' hs₃ => ?_
        have harm : MatchArm.mk (pat.respan f) (.block (b.respan f))
            ((pat.respan f).span.through (b.respan f).span) =
            (MatchArm.mk pat (.block b) (pat.span.through b.span)).respan f := by
          simp [MatchArm.respan, ArmBody.respan, hf _ _]
        dsimp only
        rw [harm]
        exact H.matchArms (by omega) _ _ hs₃
      · refine (H.expr (by omega) hs₂).step fun e ts₃ h₃ ts₃' h₃' hs₃ => ?_
        have harm : MatchArm.mk (pat.respan f) (.expr (e.respan f))
            ((pat.respan f).span.through (e.respan f).span) =
            (MatchArm.mk pat (.expr e) (pat.span.through e.span)).respan f := by
          simp [MatchArm.respan, ArmBody.respan, hf _ _]
        dsimp only
        rw [harm]
        exact H.matchArms (by omega) _ _ hs₃
  · rw [hspent.isAt_eq_false .rbrace (by decide)]
    exact ((hspent.fails_pattern).bind _).carries _

end Shorter

/-! ### All pieces -/

/-- By induction on a bound for the number of tokens: each reader goes on with fewer of them, or is one of
the steps above. -/
theorem shorter (hf : Through f) (n : Nat) : Shorter f more all n := by
  induction n with
  | zero => constructor <;> intros <;> omega
  | succ n ih =>
    have H : ∀ {ts : Tokens}, ts.length < n + 1 → Shorter f more all ts.length := fun hlt =>
      ih.mono (Nat.le_of_lt_succ hlt)
    exact {
      expr := fun hlt hs => carries_expr_of (H hlt) hf _ _ hs
      operators := fun hlt h h' hs => carries_operators_of (H hlt) hf _ _ _ h h' hs
      callArgs := fun hlt h h' hs => carries_callArgs_of (H hlt) hf _ _ h h' hs
      exprList := fun hlt h h' hs => carries_exprList_of (H hlt) hf _ _ _ h h' hs
      listItems := fun hlt h h' hs => carries_listItems_of (H hlt) _ _ h h' hs
      mapEntries := fun hlt h h' hs => carries_mapEntries_of (H hlt) hf _ _ h h' hs
      block := fun hlt hs => carries_block_of (H hlt) hf _ hs
      stmts := fun hlt h h' hs => carries_stmts_of (H hlt) hf _ _ h h' hs
      varDef := fun hlt hs => carries_varDef_of (H hlt) hf _ _ _ hs
      fnDecl := fun hlt hs => carries_fnDecl_of (H hlt) hf _ hs
      implMethods := fun hlt h h' hs => carries_implMethods_of (H hlt) hf _ _ h h' hs
      branches := fun hlt h h' hs => carries_branches_of (H hlt) hf _ _ h h' hs
      matchArms := fun hlt h h' hs => carries_matchArms_of (H hlt) hf _ _ h h' hs }

theorem carries_stmt (hf : Through f) (depth : Nat) (hs : Sync f more all loose ds ts ts') :
    Carries (Agrees f more all false ds (Stmt.respan f)) (stmt depth ts) (stmt depth ts') :=
  carries_stmt_of (shorter hf ts.length) hf depth hs

end Sluice.Parser
