import Sluice.Proofs.Parser.Repeats
import Sluice.Proofs.Parser.Wellformed

/-! Expressions and statements that are read again. -/
namespace Sluice.Parser

variable {more : Tokens}

theorem kind_ne_eof_of_unaryOp {k : Token.Kind} {op : UnaryOp} (h : unaryOp? k = some op) : k ≠ .eof := by
  rintro rfl
  cases h

theorem kind_ne_eof_of_binaryOp {k : Token.Kind} {q : BinaryOp × Nat} (h : binaryOp? k = some q) : k ≠ .eof := by
  rintro rfl
  cases h

theorem kind_ne_eof_of_assignOp {k : Token.Kind} {op : Option BinaryOp} (h : assignOp? k = some op) :
    k ≠ .eof := by
  rintro rfl
  cases h

theorem eatElse_append {ts : Tokens} (hg : Guarded ts) (more : Tokens) :
    (eatElse ts = none ∧ eatElse (ts ++ more) = none) ∨ ∃ span r hr hr', eatElse ts = some ⟨span, r, hr⟩ ∧
      eatElse (ts ++ more) = some ⟨span, r ++ more, hr'⟩ ∧ Guarded r := by
  have hplain := eatWord_append .else hg more
  obtain ⟨⟨k, span⟩, r, rfl⟩ := hg.exists_cons
  cases k with
  | stmtEnd =>
    rcases eatWord_append .else (hg.tail (by simp)) more with ⟨hx, hy⟩ | ⟨span, r', hr, hr', hx, hy, hg'⟩
    · refine .inl ⟨?_, ?_⟩ <;> simp [eatElse, hx, hy]
    · refine .inr ⟨span, r', Nat.lt_succ_of_lt hr, Nat.lt_succ_of_lt hr', ?_, ?_, hg'⟩ <;>
        simp [eatElse, hx, hy]
  | _ => exact hplain

theorem repeats_implTarget {same M : Prop} {ts whole : Tokens} (h : ts.length < whole.length)
    (h' : (ts ++ more).length < (whole ++ more).length) (hg : Guarded ts) :
    Repeats more same M (fun _ => M) (implTarget whole ts h) (implTarget (whole ++ more) (ts ++ more) h') := by
  rw [implTarget, implTarget]
  rcases eatWord_append .for hg more with ⟨hx, hy⟩ | ⟨_, ts₁, h₁, h₁', hx, hy, hg₁⟩ <;> rw [hx, hy] <;>
    dsimp only
  · exact repeats_pure hg .rfl
  · refine (repeats_typeName hg₁).step fun t ts₂ h₂ h₂' hg₂ => ?_
    exact repeats_pure hg₂ .rfl

theorem forall_mem_reverse_cons {α : Type} {p : α → Prop} {a : α} {l : List α} :
    (∀ x ∈ (a :: l).reverse, p x) ↔ (∀ x ∈ l, p x) ∧ p a := by
  simp only [List.mem_reverse, List.forall_mem_cons]
  exact and_comm

/-- Only a chain can have no stages, and none is read. -/
theorem addMember_ne (base : Expr) (name : Ident) (mode : ComposeMode) (span : Span) :
    addMember base name ≠ .compose [] mode span := by
  cases base <;> exact nofun

theorem addStage_ne (lhs stage : Expr) (mode : ComposeMode) (span : Span) :
    addStage lhs stage ≠ .compose [] mode span := by
  cases lhs with
  | compose stages => cases stages <;> exact nofun
  | _ => exact nofun

/-- A reader that counts: past the limit it does not start, and otherwise it does what it does one level down. -/
theorem repeats_limited {α : Type} {same : Prop} {d d' : Nat} (hsame : same → d' = d) {ts : Tokens}
    (hg : Guarded ts) {N : Nat → α → Prop} {x : Result α ts} {y : Nat → Result α (ts ++ more)}
    (hread : ∀ {same : Prop} {d' : Nat}, (same → d' = d) → d' < maxNesting →
      Repeats more same True (N d') x (y d'))
    (hN : ∀ d' v, N d' v → d' < maxNesting) :
    Repeats more same True (N d')
      (if maxNesting ≤ d then fail s!"nesting depth at most {maxNesting}" ts else x)
      (if maxNesting ≤ d' then fail s!"nesting depth at most {maxNesting}" (ts ++ more) else y d') := by
  by_cases hd : maxNesting ≤ d
  · rw [if_pos hd]
    refine ⟨nofun, ?_⟩
    rintro _ ⟨⟩ - hs
    rw [if_pos (hsame hs ▸ hd), hg.fail_append]
    rfl
  · rw [if_neg hd]
    by_cases hd' : maxNesting ≤ d'
    · rw [if_pos hd']
      exact (hread (fun _ : True => rfl) (Nat.lt_of_not_le hd)).tooDeep ⟨_, rfl, rfl⟩
        (fun v hv => Nat.not_lt.2 hd' (hN d' v hv)) (fun hs => hd (hsame hs ▸ hd'))
    · rw [if_neg hd']
      exact hread hsame (Nat.lt_of_not_le hd')

structure RepeatsBelow (more : Tokens) (n : Nat) : Prop where
  expr {same : Prop} {d d' power : Nat} {ts : Tokens} : ts.length < n → (same → d' = d) → Guarded ts →
    Repeats more same True (fun e => Fits (d' + 1) (.expr e)) (expr d power ts) (expr d' power (ts ++ more))
  operators {same : Prop} {d d' power : Nat} {whole ts : Tokens} {lhs : Expr} : ts.length < n →
    (same → d' = d) → d' ≤ maxNesting → (∀ mode span, lhs ≠ .compose [] mode span) →
    ∀ (h : ts.length < whole.length) (h' : (ts ++ more).length < (whole ++ more).length), Guarded ts →
    Repeats more same (Fits d' (.expr lhs)) (fun e => Fits d' (.expr e)) (operators d power whole lhs ts h)
      (operators d' power (whole ++ more) lhs (ts ++ more) h')
  callArgs {same : Prop} {d d' : Nat} {whole ts : Tokens} {seen : List Expr} : ts.length < n →
    (same → d' = d) → ∀ (h : ts.length < whole.length) (h' : (ts ++ more).length < (whole ++ more).length),
    Guarded ts →
    Repeats more same (∀ e ∈ seen, Fits (d' + 1) (.expr e)) (fun p => ∀ e ∈ p.1, Fits (d' + 1) (.expr e))
      (callArgs d whole seen ts h) (callArgs d' (whole ++ more) seen (ts ++ more) h')
  exprList {same : Prop} {d d' : Nat} {whole ts : Tokens} {seen : List Expr} {trailing : Bool} :
    ts.length < n → (same → d' = d) →
    ∀ (h : ts.length < whole.length) (h' : (ts ++ more).length < (whole ++ more).length), Guarded ts →
    Repeats more same (∀ e ∈ seen, Fits (d' + 1) (.expr e)) (fun p => ∀ e ∈ p.1, Fits (d' + 1) (.expr e))
      (exprList d whole seen trailing ts h) (exprList d' (whole ++ more) seen trailing (ts ++ more) h')
  listItems {same : Prop} {d d' : Nat} {whole ts : Tokens} {seen : List Expr} : ts.length < n →
    (same → d' = d) → ∀ (h : ts.length < whole.length) (h' : (ts ++ more).length < (whole ++ more).length),
    Guarded ts →
    Repeats more same (∀ e ∈ seen, Fits (d' + 1) (.expr e)) (fun es => ∀ e ∈ es, Fits (d' + 1) (.expr e))
      (listItems d whole seen ts h) (listItems d' (whole ++ more) seen (ts ++ more) h')
  mapEntries {same : Prop} {d d' : Nat} {whole ts : Tokens} {seen : List (Expr × Expr)} : ts.length < n →
    (same → d' = d) → ∀ (h : ts.length < whole.length) (h' : (ts ++ more).length < (whole ++ more).length),
    Guarded ts →
    Repeats more same (∀ q ∈ seen, Fits (d' + 1) (.expr q.1) ∧ Fits (d' + 1) (.expr q.2))
      (fun qs => ∀ q ∈ qs, Fits (d' + 1) (.expr q.1) ∧ Fits (d' + 1) (.expr q.2))
      (mapEntries d whole seen ts h) (mapEntries d' (whole ++ more) seen (ts ++ more) h')
  block {same : Prop} {d d' : Nat} {ts : Tokens} : ts.length < n → (same → d' = d) → Guarded ts →
    Repeats more same True (fun b => Fits (d' + 1) (.block b)) (block d ts) (block d' (ts ++ more))
  stmts {same : Prop} {d d' : Nat} {inner : Bool} {whole ts : Tokens} {seen : List Stmt} : ts.length < n →
    (same → d' = d) → d' ≤ maxNesting →
    ∀ (h : ts.length < whole.length) (h' : (ts ++ more).length < (whole ++ more).length), Guarded ts →
    Repeats more same (∀ s ∈ seen, Fits d' (.stmt s)) (fun body => ∀ s ∈ body, Fits d' (.stmt s))
      (stmts d inner whole seen ts h) (stmts d' inner (whole ++ more) seen (ts ++ more) h')
  varDef {same : Prop} {d d' : Nat} {start : Span} {isPub : Bool} {ts : Tokens} : ts.length < n →
    (same → d' = d) → d' ≤ maxNesting → Guarded ts →
    Repeats more same True (fun s => Fits d' (.stmt s)) (varDef d start isPub ts)
      (varDef d' start isPub (ts ++ more))
  fnDecl {same : Prop} {d d' : Nat} {ts : Tokens} : ts.length < n → (same → d' = d) → Guarded ts →
    Repeats more same True (fun g => Fits (d' + 1) (.block g.body)) (fnDecl d ts) (fnDecl d' (ts ++ more))
  implMethods {same : Prop} {d d' : Nat} {whole ts : Tokens} {seen : List FnDecl} : ts.length < n →
    (same → d' = d) → ∀ (h : ts.length < whole.length) (h' : (ts ++ more).length < (whole ++ more).length),
    Guarded ts →
    Repeats more same (∀ g ∈ seen, Fits (d' + 1) (.block g.body))
      (fun gs => ∀ g ∈ gs, Fits (d' + 1) (.block g.body)) (implMethods d whole seen ts h)
      (implMethods d' (whole ++ more) seen (ts ++ more) h')
  branches {same : Prop} {d d' : Nat} {whole ts : Tokens} {seen : List (Expr × Block)} : ts.length < n →
    (same → d' = d) → ∀ (h : ts.length < whole.length) (h' : (ts ++ more).length < (whole ++ more).length),
    Guarded ts →
    Repeats more same (∀ q ∈ seen, Fits (d' + 1) (.expr q.1) ∧ Fits (d' + 1) (.block q.2))
      (fun p => (∀ q ∈ p.1, Fits (d' + 1) (.expr q.1) ∧ Fits (d' + 1) (.block q.2)) ∧
        ∀ b ∈ p.2.1, Fits (d' + 1) (.block b))
      (branches d whole seen ts h) (branches d' (whole ++ more) seen (ts ++ more) h')
  matchArms {same : Prop} {d d' : Nat} {whole ts : Tokens} {seen : List MatchArm} : ts.length < n →
    (same → d' = d) → d' ≤ maxNesting →
    ∀ (h : ts.length < whole.length) (h' : (ts ++ more).length < (whole ++ more).length), Guarded ts →
    Repeats more same (∀ a ∈ seen, Fits d' (.arm a)) (fun arms => ∀ a ∈ arms, Fits d' (.arm a))
      (matchArms d whole seen ts h) (matchArms d' (whole ++ more) seen (ts ++ more) h')

theorem RepeatsBelow.mono {m n : Nat} (H : RepeatsBelow more n) (h : m ≤ n) : RepeatsBelow more m where
  expr hlt := H.expr (Nat.lt_of_lt_of_le hlt h)
  operators hlt := H.operators (Nat.lt_of_lt_of_le hlt h)
  callArgs hlt := H.callArgs (Nat.lt_of_lt_of_le hlt h)
  exprList hlt := H.exprList (Nat.lt_of_lt_of_le hlt h)
  listItems hlt := H.listItems (Nat.lt_of_lt_of_le hlt h)
  mapEntries hlt := H.mapEntries (Nat.lt_of_lt_of_le hlt h)
  block hlt := H.block (Nat.lt_of_lt_of_le hlt h)
  stmts hlt := H.stmts (Nat.lt_of_lt_of_le hlt h)
  varDef hlt := H.varDef (Nat.lt_of_lt_of_le hlt h)
  fnDecl hlt := H.fnDecl (Nat.lt_of_lt_of_le hlt h)
  implMethods hlt := H.implMethods (Nat.lt_of_lt_of_le hlt h)
  branches hlt := H.branches (Nat.lt_of_lt_of_le hlt h)
  matchArms hlt := H.matchArms (Nat.lt_of_lt_of_le hlt h)

section RepeatsBelow

-- One lemma for each reader. What it calls on the same tokens comes before it, the rest is in `H`.
variable {same : Prop} {d d' : Nat} {ts : Tokens} (H : RepeatsBelow more ts.length) (hsame : same → d' = d)

include H hsame

theorem repeats_operators_of (hd' : d' ≤ maxNesting) (power : Nat) (whole : Tokens) (lhs : Expr)
    (hlhs : ∀ mode span, lhs ≠ .compose [] mode span) (h : ts.length < whole.length)
    (h' : (ts ++ more).length < (whole ++ more).length) (hg : Guarded ts) :
    Repeats more same (Fits d' (.expr lhs)) (fun e => Fits d' (.expr e)) (operators d power whole lhs ts h)
      (operators d' power (whole ++ more) lhs (ts ++ more) h') := by
  have hstop : Repeats more same (Fits d' (.expr lhs)) (fun e => Fits d' (.expr e))
      (pure ⟨lhs, ts, h⟩ : Result Expr whole) (pure ⟨lhs, ts ++ more, h'⟩) := repeats_pure hg .rfl
  obtain ⟨⟨kind, span⟩, r, hts⟩ := hg.exists_cons
  have hlen : r.length < ts.length := by simp [hts]
  simp only [hts] at hg hstop ⊢
  rw [operators, operators]
  dsimp only [next, List.cons_append]
  split
  · refine ((H.callArgs (by omega) hsame _ _ (hg.tail (by simp))).after (List.forall_mem_nil _) _).step
      fun p ts₁ h₁ h₁' hg₁ => ?_
    obtain ⟨args, stop⟩ := p
    have hargs : ts₁.length < r.length + 1 := h₁
    dsimp only
    refine (H.operators (by omega) hsame hd' (by rintro _ _ ⟨⟩) _ _ hg₁).given ?_
    simp [fits_call, hd']
  · refine ((H.expr (by omega) hsame (hg.tail (by simp))).after trivial _).step fun key ts₁ h₁ h₁' hg₁ => ?_
    dsimp only
    refine (repeats_expect .rbracket _ hg₁).step fun stop ts₂ h₂ h₂' hg₂ => ?_
    dsimp only
    refine (H.operators (by omega) hsame hd' (by rintro _ _ ⟨⟩) _ _ hg₂).given ?_
    simp [fits_index, hd']
  · refine (repeats_ident (hg.tail (by simp))).step fun name ts₁ h₁ h₁' hg₁ => ?_
    dsimp only
    exact (H.operators (by omega) hsame hd' (addMember_ne lhs name) _ _ hg₁).given fits_addMember
  · split
    · exact hstop
    · refine ((H.expr (by omega) hsame (hg.tail (by simp))).after trivial _).step fun stage ts₁ h₁ h₁' hg₁ => ?_
      dsimp only
      refine (H.operators (by omega) hsame hd' (addStage_ne lhs stage) _ _ hg₁).given ?_
      simp [fits_addStage hlhs, hd']
  · split
    · exact hstop
    next op p hop =>
      split
      · exact hstop
      · have hr := hg.tail (kind_ne_eof_of_binaryOp hop)
        refine ((H.expr (by omega) hsame hr).after trivial _).step fun rhs ts₁ h₁ h₁' hg₁ => ?_
        dsimp only
        refine (H.operators (by omega) hsame hd' (by rintro _ _ ⟨⟩) _ _ hg₁).given ?_
        simp [fits_binary, hd']

theorem repeats_listItems_of (whole : Tokens) (seen : List Expr) (h : ts.length < whole.length)
    (h' : (ts ++ more).length < (whole ++ more).length) (hg : Guarded ts) :
    Repeats more same (∀ e ∈ seen, Fits (d' + 1) (.expr e)) (fun es => ∀ e ∈ es, Fits (d' + 1) (.expr e))
      (listItems d whole seen ts h) (listItems d' (whole ++ more) seen (ts ++ more) h') := by
  rw [listItems, listItems]
  rcases eat_append .comma hg more with ⟨hx, hy⟩ | ⟨_, ts₁, h₁, h₁', hx, hy, hg₁⟩ <;> rw [hx, hy] <;>
    dsimp only
  · exact repeats_pure hg (by simp)
  · rw [isAt_append .rbracket hg₁]
    split
    · exact repeats_pure hg₁ (by simp)
    · refine ((H.expr (by omega) hsame hg₁).after trivial _).step fun e ts₂ h₂ h₂' hg₂ => ?_
      refine (H.listItems (by omega) hsame _ _ hg₂).given ?_
      simp [and_comm]

/-- A block once it is within the limit. -/
theorem repeats_braces_of (hd' : d' < maxNesting) (hg : Guarded ts) :
    Repeats more same True (fun b => Fits (d' + 1) (.block b))
      (do
        let ⟨start, ts₁, h₁⟩ ← expect .lbrace "`\x7b`" ts
        let ⟨body, ts₂, h₂⟩ ← stmts (d + 1) true ts [] ts₁ h₁
        let ⟨stop, ts₃, h₃⟩ ← expect .rbrace "`\x7d`" ts₂
        return ⟨⟨body, start.through stop⟩, ts₃, shorter_two h₂ h₃⟩ : Result Block ts)
      (do
        let ⟨start, ts₁, h₁⟩ ← expect .lbrace "`\x7b`" (ts ++ more)
        let ⟨body, ts₂, h₂⟩ ← stmts (d' + 1) true (ts ++ more) [] ts₁ h₁
        let ⟨stop, ts₃, h₃⟩ ← expect .rbrace "`\x7d`" ts₂
        return ⟨⟨body, start.through stop⟩, ts₃, shorter_two h₂ h₃⟩ : Result Block (ts ++ more)) := by
  have hsame' := fun hs => congrArg (· + 1) (hsame hs)
  refine (repeats_expect .lbrace _ hg).step fun start ts₁ h₁ h₁' hg₁ => ?_
  refine ((H.stmts (by omega) hsame' hd' h₁ h₁' hg₁).given (by simp)).step
    fun body ts₂ h₂ h₂' hg₂ => ?_
  refine (repeats_expect .rbrace _ hg₂).step fun stop ts₃ h₃ h₃' hg₃ => ?_
  exact repeats_pure hg₃ (by simp [fits_block, Nat.succ_le_of_lt hd'])

theorem repeats_block_of (hg : Guarded ts) :
    Repeats more same True (fun b => Fits (d' + 1) (.block b)) (block d ts) (block d' (ts ++ more)) := by
  rw [block, block]
  exact repeats_limited hsame hg (fun hsame hd' => repeats_braces_of H hsame hd' hg) fun _ _ hb => hb.le

theorem repeats_operand_of (hd' : d' ≤ maxNesting) (hg : Guarded ts) :
    Repeats more same True (fun e => Fits d' (.expr e)) (operand d ts) (operand d' (ts ++ more)) := by
  obtain ⟨⟨kind, span⟩, r, hts⟩ := hg.exists_cons
  have hlen : r.length < ts.length := by simp [hts]
  rw [hts] at hg ⊢
  rw [operand, operand]
  dsimp only [next, List.cons_append]
  split
  next op hop =>
    refine (H.expr (by omega) hsame (hg.tail (kind_ne_eof_of_unaryOp hop))).step fun e ts₁ h₁ h₁' hg₁ => ?_
    exact repeats_pure hg₁ (by simp [fits_unary, hd'])
  next =>
  split
  next l hl => exact repeats_pure (hg.tail (kind_ne_eof_of_literal hl)) (by simp [fits_lit, hd'])
  next =>
  split
  · exact repeats_pure (hg.tail (by simp)) (by simp [fits_placeholder, hd'])
  · exact repeats_pure (hg.tail (by simp)) (by simp [fits_var, hd'])
  · refine ((H.exprList (by omega) hsame _ _ (hg.tail (by simp))).given (by simp)).step
      fun p ts₁ h₁ h₁' hg₁ => ?_
    obtain ⟨elems, trailing⟩ := p
    dsimp only
    refine (repeats_expect .rparen _ hg₁).step fun stop ts₂ h₂ h₂' hg₂ => ?_
    dsimp only
    rcases elems with _ | ⟨e, _ | ⟨e', es⟩⟩
    · exact repeats_pure hg₂ (by simp [fits_tuple, hd'])
    · cases trailing
      · exact repeats_pure hg₂ (by simp [fits_paren, hd'])
      · exact repeats_error _
    · exact repeats_pure hg₂ (by simp [fits_tuple, hd'])
  · have hr : Guarded r := hg.tail (by simp)
    rcases eat_append .rbracket hr more with ⟨hx, hy⟩ | ⟨stop, ts₁, h₁, h₁', hx, hy, hg₁⟩ <;> rw [hx, hy] <;>
      dsimp only
    · refine (H.expr (by omega) hsame hr).step fun first ts₁ h₁ h₁' hg₁ => ?_
      dsimp only
      rcases eat_append .dotDot hg₁ more with ⟨hx, hy⟩ | ⟨_, ts₂, h₂, h₂', hx, hy, hg₂⟩ <;> rw [hx, hy] <;>
        dsimp only
      · refine ((H.listItems (by omega) hsame h₁ h₁' hg₁).given (by simp)).step
          fun items ts₂ h₂ h₂' hg₂ => ?_
        refine (repeats_expect .rbracket _ hg₂).step fun stop ts₃ h₃ h₃' hg₃ => ?_
        exact repeats_pure hg₃ (by simp [fits_list, hd'])
      · refine ((H.expr (by omega) hsame hg₂).after trivial _).step fun hi ts₃ h₃ h₃' hg₃ => ?_
        refine (repeats_expect .rbracket _ hg₃).step fun stop ts₄ h₄ h₄' hg₄ => ?_
        exact repeats_pure hg₄ (by simp [fits_range, hd'])
    · exact repeats_pure hg₁ (by simp [fits_list, hd'])
  · refine ((H.mapEntries (by omega) hsame _ _ (hg.tail (by simp))).given (by simp)).step
      fun entries ts₁ h₁ h₁' hg₁ => ?_
    refine (repeats_expect .rbrace _ hg₁).step fun stop ts₂ h₂ h₂' hg₂ => ?_
    exact repeats_pure hg₂ (by simp [fits_map, hd'])
  · refine (repeats_params (hg.tail (by simp))).step fun ps ts₁ h₁ h₁' hg₁ => ?_
    dsimp only
    refine (repeats_typeAfter .arrow h₁ h₁' hg₁).step fun result ts₂ h₂ h₂' hg₂ => ?_
    dsimp only
    refine (H.block (by omega) hsame hg₂).step fun body ts₃ h₃ h₃' hg₃ => ?_
    exact repeats_pure hg₃ (by simp [fits_lambda, hd'])
  · exact repeats_fail hg _

/-- An operand and what goes on behind it, once they are within the limit. -/
theorem repeats_operation_of (hd' : d' < maxNesting) (power : Nat) (hg : Guarded ts) :
    Repeats more same True (fun e => Fits (d' + 1) (.expr e))
      (do
        let ⟨first, ts₁, h₁⟩ ← operand (d + 1) ts
        operators (d + 1) power ts first ts₁ h₁ : Result Expr ts)
      (do
        let ⟨first, ts₁, h₁⟩ ← operand (d' + 1) (ts ++ more)
        operators (d' + 1) power (ts ++ more) first ts₁ h₁ : Result Expr (ts ++ more)) := by
  have hsame' := fun hs => congrArg (· + 1) (hsame hs)
  refine (repeats_operand_of H hsame' hd' hg).stepOk fun first ts₁ h₁ h₁' hfirst hg₁ => ?_
  refine H.operators (by omega) hsame' hd' ?_ h₁ h₁' hg₁
  rintro mode span rfl
  cases (yields_operand _ _ _ hfirst).2

theorem repeats_expr_of (power : Nat) (hg : Guarded ts) :
    Repeats more same True (fun e => Fits (d' + 1) (.expr e)) (expr d power ts)
      (expr d' power (ts ++ more)) := by
  rw [expr, expr]
  exact repeats_limited hsame hg (fun hsame hd' => repeats_operation_of H hsame hd' power hg)
    fun _ _ he => he.le

theorem repeats_callArgs_of (whole : Tokens) (seen : List Expr) (h : ts.length < whole.length)
    (h' : (ts ++ more).length < (whole ++ more).length) (hg : Guarded ts) :
    Repeats more same (∀ e ∈ seen, Fits (d' + 1) (.expr e)) (fun p => ∀ e ∈ p.1, Fits (d' + 1) (.expr e))
      (callArgs d whole seen ts h) (callArgs d' (whole ++ more) seen (ts ++ more) h') := by
  rw [callArgs, callArgs]
  rcases eat_append .rparen hg more with ⟨hx, hy⟩ | ⟨stop, ts₁, h₁, h₁', hx, hy, hg₁⟩ <;> rw [hx, hy] <;>
    dsimp only
  · refine ((repeats_expr_of H hsame 0 hg).after trivial _).step fun arg ts₁ h₁ h₁' hg₁ => ?_
    dsimp only
    rcases eat_append .comma hg₁ more with ⟨hx, hy⟩ | ⟨_, ts₂, h₂, h₂', hx, hy, hg₂⟩ <;> rw [hx, hy] <;>
      dsimp only
    · refine (repeats_expect .rparen _ hg₁).step fun stop ts₂ h₂ h₂' hg₂ => ?_
      exact repeats_pure hg₂ forall_mem_reverse_cons
    · refine (H.callArgs (by omega) hsame _ _ hg₂).given ?_
      simp [and_comm]
  · exact repeats_pure hg₁ (by simp)

theorem repeats_exprList_of (whole : Tokens) (seen : List Expr) (trailing : Bool)
    (h : ts.length < whole.length) (h' : (ts ++ more).length < (whole ++ more).length) (hg : Guarded ts) :
    Repeats more same (∀ e ∈ seen, Fits (d' + 1) (.expr e)) (fun p => ∀ e ∈ p.1, Fits (d' + 1) (.expr e))
      (exprList d whole seen trailing ts h) (exprList d' (whole ++ more) seen trailing (ts ++ more) h') := by
  rw [exprList, exprList, isAt_append .rparen hg]
  split
  · exact repeats_pure hg (by simp)
  · refine ((repeats_expr_of H hsame 0 hg).after trivial _).step fun e ts₁ h₁ h₁' hg₁ => ?_
    dsimp only
    rcases eat_append .comma hg₁ more with ⟨hx, hy⟩ | ⟨_, ts₂, h₂, h₂', hx, hy, hg₂⟩ <;> rw [hx, hy] <;>
      dsimp only
    · exact repeats_pure hg₁ forall_mem_reverse_cons
    · refine (H.exprList (by omega) hsame _ _ hg₂).given ?_
      simp [and_comm]

theorem repeats_mapEntries_of (whole : Tokens) (seen : List (Expr × Expr)) (h : ts.length < whole.length)
    (h' : (ts ++ more).length < (whole ++ more).length) (hg : Guarded ts) :
    Repeats more same (∀ q ∈ seen, Fits (d' + 1) (.expr q.1) ∧ Fits (d' + 1) (.expr q.2))
      (fun qs => ∀ q ∈ qs, Fits (d' + 1) (.expr q.1) ∧ Fits (d' + 1) (.expr q.2))
      (mapEntries d whole seen ts h) (mapEntries d' (whole ++ more) seen (ts ++ more) h') := by
  have hskip := (skip separates ts).2
  have hg₀ : Guarded (skip separates ts).1 := guarded_skip rfl hg
  rw [mapEntries, mapEntries, skip_append rfl hg]
  dsimp only
  rw [isAt_append .rbrace hg₀]
  split
  · exact repeats_pure hg₀ (by simp)
  · refine ((repeats_expr_of (H.mono hskip) hsame 0 hg₀).after trivial _).step
      fun key ts₁ h₁ h₁' hg₁ => ?_
    dsimp only
    refine (repeats_expect .colon _ hg₁).step fun _ ts₂ h₂ h₂' hg₂ => ?_
    dsimp only
    refine ((H.expr (by omega) hsame hg₂).after trivial _).step fun value ts₃ h₃ h₃' hg₃ => ?_
    refine (H.mapEntries (by omega) hsame _ _ hg₃).given ?_
    simp only [List.forall_mem_cons]
    tauto

/-- A definition behind its name. -/
theorem repeats_varRest_of (hd' : d' ≤ maxNesting) (start : Span) (isConst isPub : Bool) (name : Ident)
    {ts₁ : Tokens} (h₁ : ts₁.length < ts.length) (h₁' : (ts₁ ++ more).length < (ts ++ more).length)
    (hg₁ : Guarded ts₁) :
    Repeats more same True (fun s => Fits d' (.stmt s))
      (do
        let ⟨type, ts₂, h₂⟩ ← typeAfter .colon ts ts₁ h₁
        let ⟨_, ts₃, h₃⟩ ← expect .assign "`=`" ts₂
        let ⟨value, ts₄, h₄⟩ ← expr d 0 ts₃
        return ⟨.var name type isConst isPub (defer value) (start.through value.span), ts₄,
          shorter_three h₂ h₃ h₄⟩ : Result Stmt ts)
      (do
        let ⟨type, ts₂, h₂⟩ ← typeAfter .colon (ts ++ more) (ts₁ ++ more) h₁'
        let ⟨_, ts₃, h₃⟩ ← expect .assign "`=`" ts₂
        let ⟨value, ts₄, h₄⟩ ← expr d' 0 ts₃
        return ⟨.var name type isConst isPub (defer value) (start.through value.span), ts₄,
          shorter_three h₂ h₃ h₄⟩ : Result Stmt (ts ++ more)) := by
  refine (repeats_typeAfter .colon h₁ h₁' hg₁).step fun type ts₂ h₂ h₂' hg₂ => ?_
  refine (repeats_expect .assign _ hg₂).step fun _ ts₃ h₃ h₃' hg₃ => ?_
  refine (H.expr (by omega) hsame hg₃).step fun value ts₄ h₄ h₄' hg₄ => ?_
  exact repeats_pure hg₄ (by simp [fits_varStmt, fits_defer, hd'])

theorem repeats_varDef_of (hd' : d' ≤ maxNesting) (start : Span) (isPub : Bool) (hg : Guarded ts) :
    Repeats more same True (fun s => Fits d' (.stmt s)) (varDef d start isPub ts)
      (varDef d' start isPub (ts ++ more)) := by
  rw [varDef, varDef]
  rcases eatWord_append .const hg more with ⟨hx, hy⟩ | ⟨_, r, hr, hr', hx, hy, hg₀⟩
  · rw [hx, hy]
    exact (repeats_ident hg).step fun name ts₁ h₁ h₁' hg₁ =>
      repeats_varRest_of H hsame hd' start false isPub name h₁ h₁' hg₁
  · rw [hx, hy]
    exact (repeats_ident hg₀).step fun name ts₁ h₁ h₁' hg₁ =>
      repeats_varRest_of H hsame hd' start true isPub name (shorter_two hr h₁) (shorter_two hr' h₁') hg₁

theorem repeats_exprStmt_of (hd' : d' ≤ maxNesting) (hg : Guarded ts) :
    Repeats more same True (fun s => Fits d' (.stmt s)) (exprStmt d ts) (exprStmt d' (ts ++ more)) := by
  rw [exprStmt, exprStmt]
  refine (repeats_expr_of H hsame 0 hg).step fun e ts₁ h₁ h₁' hg₁ => ?_
  have hexpr : Repeats more same (Fits (d' + 1) (.expr e)) (fun s => Fits d' (.stmt s))
      (pure ⟨.expr e e.span, ts₁, h₁⟩ : Result Stmt ts) (pure ⟨.expr e e.span, ts₁ ++ more, h₁'⟩) :=
    repeats_pure hg₁ (by simp [fits_exprStmt, hd'])
  obtain ⟨⟨kind, span⟩, r, rfl⟩ := hg₁.exists_cons
  have hlen : r.length + 1 < ts.length := h₁
  dsimp only [next, List.cons_append]
  split
  · exact hexpr
  next op hop =>
    split
    · have hr : Guarded r := hg₁.tail (kind_ne_eof_of_assignOp hop)
      refine ((H.expr (by omega) hsame hr).after trivial _).step fun value ts₃ h₃ h₃' hg₃ => ?_
      exact repeats_pure hg₃ (by simp [fits_assign, fits_defer, hd'])
    · exact repeats_error _

theorem repeats_fnDecl_of (hg : Guarded ts) :
    Repeats more same True (fun g => Fits (d' + 1) (.block g.body)) (fnDecl d ts)
      (fnDecl d' (ts ++ more)) := by
  rw [fnDecl, fnDecl]
  refine (repeats_expectWord .fn _ hg).step fun start ts₁ h₁ h₁' hg₁ => ?_
  dsimp only
  refine (repeats_ident hg₁).step fun name ts₂ h₂ h₂' hg₂ => ?_
  dsimp only
  refine (repeats_params hg₂).step fun ps ts₃ h₃ h₃' hg₃ => ?_
  dsimp only
  refine (repeats_typeAfter .arrow h₃ h₃' hg₃).step fun result ts₄ h₄ h₄' hg₄ => ?_
  dsimp only
  refine (H.block (by omega) hsame hg₄).step fun body ts₅ h₅ h₅' hg₅ => ?_
  exact repeats_pure hg₅ .rfl

theorem repeats_stmt_of (hd' : d' ≤ maxNesting) (hg : Guarded ts) :
    Repeats more same True (fun s => Fits d' (.stmt s)) (stmt d ts) (stmt d' (ts ++ more)) := by
  have hexpr := repeats_exprStmt_of H hsame hd' hg
  have hvar span := repeats_varDef_of H hsame hd' span false hg
  have hfn := repeats_fnDecl_of H hsame hg
  obtain ⟨⟨kind, span⟩, r, hts⟩ := hg.exists_cons
  have hlen : r.length < ts.length := by simp [hts]
  rw [hts] at hg hexpr hvar hfn ⊢
  rw [stmt, stmt]
  dsimp only [next, List.cons_append]
  split
  · have hr : Guarded r := hg.tail (by simp)
    rw [hr.peek_append]
    split
    · refine (H.fnDecl (by omega) hsame hr).step fun g ts₁ h₁ h₁' hg₁ => ?_
      exact repeats_pure hg₁ (by simp [fits_fn, hd'])
    · refine (H.varDef (by omega) hsame hd' hr).step fun s ts₁ h₁ h₁' hg₁ => ?_
      exact repeats_pure hg₁ .rfl
  · exact hvar span
  · have hr : Guarded r := hg.tail (by simp)
    rw [hr.peek_append]
    split
    · refine hfn.step fun g ts₁ h₁ h₁' hg₁ => ?_
      exact repeats_pure hg₁ (by simp [fits_fn, hd'])
    · exact hexpr
  · refine (repeats_structDef hg).step fun g ts₁ h₁ h₁' hg₁ => ?_
    exact repeats_pure hg₁ (by simp [fits_struct, hd'])
  · refine (repeats_enumDef hg).step fun g ts₁ h₁ h₁' hg₁ => ?_
    exact repeats_pure hg₁ (by simp [fits_enum, hd'])
  · refine (repeats_typeclassDef hg).step fun g ts₁ h₁ h₁' hg₁ => ?_
    exact repeats_pure hg₁ (by simp [fits_typeclass, hd'])
  · refine (repeats_typeName (hg.tail (by simp))).step fun name ts₁ h₁ h₁' hg₁ => ?_
    dsimp only
    refine (repeats_implTarget h₁ h₁' hg₁).step fun target ts₂ h₂ h₂' hg₂ => ?_
    dsimp only
    refine (repeats_expect .lbrace _ hg₂).step fun _ ts₃ h₃ h₃' hg₃ => ?_
    dsimp only
    refine ((H.implMethods (by omega) hsame h₃ h₃' hg₃).given (by simp)).step
      fun methods ts₄ h₄ h₄' hg₄ => ?_
    refine (repeats_expect .rbrace _ hg₄).step fun stop ts₅ h₅ h₅' hg₅ => ?_
    exact repeats_pure hg₅ (by simp [fits_impl, fits_fn, hd'])
  · refine (repeats_pattern r (hg.tail (by simp))).step fun pat ts₁ h₁ h₁' hg₁ => ?_
    dsimp only
    refine (repeats_expectWord .in _ hg₁).step fun _ ts₂ h₂ h₂' hg₂ => ?_
    dsimp only
    refine (H.expr (by omega) hsame hg₂).step fun iter ts₃ h₃ h₃' hg₃ => ?_
    dsimp only
    refine ((H.block (by omega) hsame hg₃).after trivial _).step fun body ts₄ h₄ h₄' hg₄ => ?_
    exact repeats_pure hg₄ (by simp [fits_forIn, hd'])
  · refine ((H.branches (by omega) hsame _ _ (hg.tail (by simp))).given (by simp)).step
      fun p ts₁ h₁ h₁' hg₁ => ?_
    obtain ⟨branches, otherwise, stop⟩ := p
    exact repeats_pure hg₁ (by simp [fits_cond, hd'])
  · refine (H.expr (by omega) hsame (hg.tail (by simp))).step fun test ts₁ h₁ h₁' hg₁ => ?_
    dsimp only
    refine ((H.block (by omega) hsame hg₁).after trivial _).step fun body ts₂ h₂ h₂' hg₂ => ?_
    exact repeats_pure hg₂ (by simp [fits_loop, hd'])
  · refine (H.expr (by omega) hsame (hg.tail (by simp))).step fun scrutinee ts₁ h₁ h₁' hg₁ => ?_
    dsimp only
    refine (repeats_expect .lbrace _ hg₁).step fun _ ts₂ h₂ h₂' hg₂ => ?_
    dsimp only
    refine ((H.matchArms (by omega) hsame hd' h₂ h₂' hg₂).after (List.forall_mem_nil _) _).step
      fun arms ts₃ h₃ h₃' hg₃ => ?_
    refine (repeats_expect .rbrace _ hg₃).step fun stop ts₄ h₄ h₄' hg₄ => ?_
    exact repeats_pure hg₄ (by simp [fits_select, hd'])
  · exact repeats_importStmt hd' hg
  · refine (repeats_ident (hg.tail (by simp))).step fun name ts₁ h₁ h₁' hg₁ => ?_
    dsimp only
    refine (H.block (by omega) hsame hg₁).step fun body ts₂ h₂ h₂' hg₂ => ?_
    exact repeats_pure hg₂ (by simp [fits_submodule, hd'])
  · have hr : Guarded r := hg.tail (by simp)
    rw [hr.peek_append]
    split
    · exact repeats_pure hr (by simp [fits_ret, hd'])
    · refine (H.expr (by omega) hsame hr).step fun e ts₁ h₁ h₁' hg₁ => ?_
      exact repeats_pure hg₁ (by simp [fits_ret, hd'])
  · exact repeats_pure (hg.tail (by simp)) (by simp [fits_leave, hd'])
  · exact repeats_pure (hg.tail (by simp)) (by simp [fits_next, hd'])
  · exact repeats_fail hg _
  · exact repeats_fail hg _
  · rw [isAt_append .colon (hg.tail (by simp))]
    split
    · exact hvar span
    · exact hexpr
  · exact hexpr

theorem repeats_stmts_of (hd' : d' ≤ maxNesting) (inner : Bool) (whole : Tokens) (seen : List Stmt)
    (h : ts.length < whole.length) (h' : (ts ++ more).length < (whole ++ more).length) (hg : Guarded ts) :
    Repeats more same (∀ s ∈ seen, Fits d' (.stmt s)) (fun body => ∀ s ∈ body, Fits d' (.stmt s))
      (stmts d inner whole seen ts h) (stmts d' inner (whole ++ more) seen (ts ++ more) h') := by
  have hskip := (skip endsStmt ts).2
  have hg₀ : Guarded (skip endsStmt ts).1 := guarded_skip rfl hg
  rw [stmts, stmts, skip_append rfl hg]
  dsimp only
  rw [hg₀.peek_append]
  split
  · exact repeats_pure hg₀ (by simp)
  · refine ((repeats_stmt_of (H.mono hskip) hsame hd' hg₀).after trivial _).step
      fun s ts₁ h₁ h₁' hg₁ => ?_
    dsimp only
    rw [hg₁.peek_append]
    split
    · refine (H.stmts (by omega) hsame hd' _ _ hg₁).given ?_
      simp [and_comm]
    · exact repeats_fail hg₁ _

theorem repeats_implMethods_of (whole : Tokens) (seen : List FnDecl) (h : ts.length < whole.length)
    (h' : (ts ++ more).length < (whole ++ more).length) (hg : Guarded ts) :
    Repeats more same (∀ g ∈ seen, Fits (d' + 1) (.block g.body))
      (fun gs => ∀ g ∈ gs, Fits (d' + 1) (.block g.body)) (implMethods d whole seen ts h)
      (implMethods d' (whole ++ more) seen (ts ++ more) h') := by
  have hskip := (skip separates ts).2
  have hg₀ : Guarded (skip separates ts).1 := guarded_skip rfl hg
  rw [implMethods, implMethods, skip_append rfl hg]
  dsimp only
  rw [isAt_append .rbrace hg₀]
  split
  · exact repeats_pure hg₀ (by simp)
  · refine ((repeats_fnDecl_of (H.mono hskip) hsame hg₀).after trivial _).step
      fun g ts₁ h₁ h₁' hg₁ => ?_
    refine (H.implMethods (by omega) hsame _ _ hg₁).given ?_
    simp [and_comm]

theorem repeats_branches_of (whole : Tokens) (seen : List (Expr × Block)) (h : ts.length < whole.length)
    (h' : (ts ++ more).length < (whole ++ more).length) (hg : Guarded ts) :
    Repeats more same (∀ q ∈ seen, Fits (d' + 1) (.expr q.1) ∧ Fits (d' + 1) (.block q.2))
      (fun p => (∀ q ∈ p.1, Fits (d' + 1) (.expr q.1) ∧ Fits (d' + 1) (.block q.2)) ∧
        ∀ b ∈ p.2.1, Fits (d' + 1) (.block b))
      (branches d whole seen ts h) (branches d' (whole ++ more) seen (ts ++ more) h') := by
  rw [branches, branches]
  refine ((repeats_expr_of H hsame 0 hg).after trivial _).step fun test ts₁ h₁ h₁' hg₁ => ?_
  dsimp only
  refine ((H.block (by omega) hsame hg₁).after trivial _).step fun body ts₂ h₂ h₂' hg₂ => ?_
  dsimp only
  rcases eatElse_append hg₂ more with ⟨hx, hy⟩ | ⟨_, ts₃, h₃, h₃', hx, hy, hg₃⟩ <;> rw [hx, hy] <;>
    dsimp only
  · refine repeats_pure hg₂ ?_
    rw [forall_mem_reverse_cons]
    simp [and_assoc]
  · rcases eatWord_append .if hg₃ more with ⟨hx, hy⟩ | ⟨_, ts₄, h₄, h₄', hx, hy, hg₄⟩ <;> rw [hx, hy] <;>
      dsimp only
    · refine ((H.block (by omega) hsame hg₃).after trivial _).step fun last ts₄ h₄ h₄' hg₄ => ?_
      refine repeats_pure hg₄ ?_
      rw [forall_mem_reverse_cons]
      simp [and_assoc]
    · refine (H.branches (by omega) hsame _ _ hg₄).given ?_
      simp only [List.forall_mem_cons]
      tauto

theorem repeats_matchArms_of (hd' : d' ≤ maxNesting) (whole : Tokens) (seen : List MatchArm)
    (h : ts.length < whole.length) (h' : (ts ++ more).length < (whole ++ more).length) (hg : Guarded ts) :
    Repeats more same (∀ a ∈ seen, Fits d' (.arm a)) (fun arms => ∀ a ∈ arms, Fits d' (.arm a))
      (matchArms d whole seen ts h) (matchArms d' (whole ++ more) seen (ts ++ more) h') := by
  have hskip := (skip separates ts).2
  have hg₀ : Guarded (skip separates ts).1 := guarded_skip rfl hg
  rw [matchArms, matchArms, skip_append rfl hg]
  dsimp only
  rw [isAt_append .rbrace hg₀]
  split
  · exact repeats_pure hg₀ (by simp)
  · refine (repeats_pattern (skip separates ts).1 hg₀).step fun pat ts₁ h₁ h₁' hg₁ => ?_
    dsimp only
    refine (repeats_expect .fatArrow _ hg₁).step fun _ ts₂ h₂ h₂' hg₂ => ?_
    dsimp only
    rw [isAt_append .lbrace hg₂]
    split
    · refine ((H.block (by omega) hsame hg₂).after trivial _).step fun b ts₃ h₃ h₃' hg₃ => ?_
      dsimp only
      refine (H.matchArms (by omega) hsame hd' _ _ hg₃).given ?_
      simp [fits_arm, ArmBody.piece, hd', and_comm]
    · refine ((H.expr (by omega) hsame hg₂).after trivial _).step fun e ts₃ h₃ h₃' hg₃ => ?_
      dsimp only
      refine (H.matchArms (by omega) hsame hd' _ _ hg₃).given ?_
      simp [fits_arm, ArmBody.piece, hd', and_comm]

end RepeatsBelow

/-! ### All of them -/

/-- By induction on a bound for the number of tokens: each reader goes on with fewer of them, or is one of
the steps above. -/
theorem repeatsBelow (more : Tokens) (n : Nat) : RepeatsBelow more n := by
  induction n with
  | zero => constructor <;> intros <;> omega
  | succ n ih =>
    have H : ∀ {ts : Tokens}, ts.length < n + 1 → RepeatsBelow more ts.length := fun hlt =>
      ih.mono (Nat.le_of_lt_succ hlt)
    exact {
      expr := fun hlt hsame hg => repeats_expr_of (H hlt) hsame _ hg
      operators := fun hlt hsame hd' hlhs h h' hg => repeats_operators_of (H hlt) hsame hd' _ _ _ hlhs h h' hg
      callArgs := fun hlt hsame h h' hg => repeats_callArgs_of (H hlt) hsame _ _ h h' hg
      exprList := fun hlt hsame h h' hg => repeats_exprList_of (H hlt) hsame _ _ _ h h' hg
      listItems := fun hlt hsame h h' hg => repeats_listItems_of (H hlt) hsame _ _ h h' hg
      mapEntries := fun hlt hsame h h' hg => repeats_mapEntries_of (H hlt) hsame _ _ h h' hg
      block := fun hlt hsame hg => repeats_block_of (H hlt) hsame hg
      stmts := fun hlt hsame hd' h h' hg => repeats_stmts_of (H hlt) hsame hd' _ _ _ h h' hg
      varDef := fun hlt hsame hd' hg => repeats_varDef_of (H hlt) hsame hd' _ _ hg
      fnDecl := fun hlt hsame hg => repeats_fnDecl_of (H hlt) hsame hg
      implMethods := fun hlt hsame h h' hg => repeats_implMethods_of (H hlt) hsame _ _ h h' hg
      branches := fun hlt hsame h h' hg => repeats_branches_of (H hlt) hsame _ _ h h' hg
      matchArms := fun hlt hsame hd' h h' hg => repeats_matchArms_of (H hlt) hsame hd' _ _ h h' hg }

section Readers

variable {same : Prop} {d d' : Nat} {ts : Tokens} (hsame : same → d' = d) (hg : Guarded ts)

include hsame hg

theorem repeats_expr (power : Nat) :
    Repeats more same True (fun e => Fits (d' + 1) (.expr e)) (expr d power ts)
      (expr d' power (ts ++ more)) := repeats_expr_of (repeatsBelow more _) hsame power hg

theorem repeats_block :
    Repeats more same True (fun b => Fits (d' + 1) (.block b)) (block d ts) (block d' (ts ++ more)) :=
  repeats_block_of (repeatsBelow more _) hsame hg

theorem repeats_fnDecl :
    Repeats more same True (fun g => Fits (d' + 1) (.block g.body)) (fnDecl d ts)
      (fnDecl d' (ts ++ more)) := repeats_fnDecl_of (repeatsBelow more _) hsame hg

variable (hd' : d' ≤ maxNesting)

include hd'

theorem repeats_operand :
    Repeats more same True (fun e => Fits d' (.expr e)) (operand d ts) (operand d' (ts ++ more)) :=
  repeats_operand_of (repeatsBelow more _) hsame hd' hg

theorem repeats_varDef (start : Span) (isPub : Bool) :
    Repeats more same True (fun s => Fits d' (.stmt s)) (varDef d start isPub ts)
      (varDef d' start isPub (ts ++ more)) :=
  repeats_varDef_of (repeatsBelow more _) hsame hd' start isPub hg

theorem repeats_exprStmt :
    Repeats more same True (fun s => Fits d' (.stmt s)) (exprStmt d ts) (exprStmt d' (ts ++ more)) :=
  repeats_exprStmt_of (repeatsBelow more _) hsame hd' hg

theorem repeats_stmt :
    Repeats more same True (fun s => Fits d' (.stmt s)) (stmt d ts) (stmt d' (ts ++ more)) :=
  repeats_stmt_of (repeatsBelow more _) hsame hd' hg

theorem repeats_stmts (inner : Bool) (whole : Tokens) (h : ts.length < whole.length) :
    Repeats more same True (fun body => ∀ s ∈ body, Fits d' (.stmt s)) (stmts d inner whole [] ts h)
      (stmts d' inner (whole ++ more) [] (ts ++ more) (append_lt h more)) :=
  (repeats_stmts_of (repeatsBelow more _) hsame hd' inner whole [] h _ hg).given (by simp)

end Readers

end Sluice.Parser
