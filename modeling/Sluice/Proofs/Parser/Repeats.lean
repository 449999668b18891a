import Sluice.Proofs.Ast.Descent

/-! Reading again, at another depth and with more tokens behind. No reader takes the end of the source, so
that whatever stands behind it is not looked at; and a reader that is given another depth reads the same tree,
unless that tree does not fit there. -/
namespace Sluice.Parser

variable {more ts : Tokens} {same M : Prop}

/-- The end of the source is still ahead. -/
def Guarded (ts : Tokens) : Prop := ∃ t ∈ ts, t.kind = .eof

def TooDeep {α : Type} (x : Except ParseError α) : Prop :=
  ∃ e, x = .error e ∧ e.expected = s!"nesting depth at most {maxNesting}"

theorem guarded_of_eof {front : Tokens} {last : Token} (h : last.kind = .eof) : Guarded (front ++ [last]) :=
  ⟨last, List.mem_append_right _ (List.mem_singleton_self _), h⟩

theorem append_lt {r whole : Tokens} (h : r.length < whole.length) (more : Tokens) :
    (r ++ more).length < (whole ++ more).length := by simpa using h

theorem append_le {r whole : Tokens} (h : r.length ≤ whole.length) (more : Tokens) :
    (r ++ more).length ≤ (whole ++ more).length := by simpa using h

def Parsed.append {α : Type} {whole : Tokens} (p : Parsed α whole) (more : Tokens) :
    Parsed α (whole ++ more) := ⟨p.value, p.rest ++ more, append_lt p.shorter more⟩

/-- `y` reads again what `x` reads, with `more` behind. Everything that was read before fits at the depth of `y`
if `M`, and everything up to a value `v` if `N v`. If it is the `same` depth, it fits. -/
structure Repeats (more : Tokens) (same M : Prop) {α : Type} (N : α → Prop) {whole : Tokens}
    (x : Result α whole) (y : Result α (whole ++ more)) : Prop where
  ok : ∀ {p}, x = .ok p → Guarded p.rest ∧ (N p.value → M ∧ y = .ok (p.append more)) ∧
    (M → ¬ N p.value → TooDeep y ∧ ¬ same)
  error : ∀ {e}, x = .error e → M → same → y = .error e

section Repeats

variable {α β : Type} {N N' : α → Prop} {R : β → Prop} {P : Prop} {whole whole' : Tokens}
  {x : Result α whole} {y : Result α (whole ++ more)}

theorem repeats_ok {v : α} {r : Tokens} {h : r.length < whole.length}
    {h' : (r ++ more).length < (whole ++ more).length} (hr : Guarded r) (hN : N v ↔ M) :
    Repeats more same M N (.ok ⟨v, r, h⟩) (.ok ⟨v, r ++ more, h'⟩) where
  ok := by
    rintro _ ⟨⟩
    exact ⟨hr, fun hv => ⟨hN.1 hv, rfl⟩, fun hM hv => (hv (hN.2 hM)).elim⟩
  error := nofun

theorem repeats_pure {v : α} {r : Tokens} {h : r.length < whole.length}
    {h' : (r ++ more).length < (whole ++ more).length} (hr : Guarded r) (hN : N v ↔ M) :
    Repeats more same M N (pure ⟨v, r, h⟩) (pure ⟨v, r ++ more, h'⟩) := repeats_ok hr hN

theorem repeats_error (e : ParseError) :
    Repeats more same M N (.error e : Result α whole) (.error e) where
  ok := nofun
  error := by
    rintro _ ⟨⟩ _ _
    rfl

theorem TooDeep.bind {α β : Type} {x : Except ParseError α} (h : TooDeep x) (k : α → Except ParseError β) :
    TooDeep (x >>= k) := by
  obtain ⟨e, rfl, he⟩ := h
  exact ⟨e, rfl, he⟩

namespace Repeats

/-- One reader after the other. -/
theorem stepOk {k : Parsed α whole → Result β whole'}
    {k' : Parsed α (whole ++ more) → Result β (whole' ++ more)} (hx : Repeats more same M N x y)
    (hk : ∀ v r h h', x = .ok ⟨v, r, h⟩ → Guarded r →
      Repeats more same (N v) R (k ⟨v, r, h⟩) (k' ⟨v, r ++ more, h'⟩)) :
    Repeats more same M R (x >>= k) (y >>= k') := by
  cases x with
  | error e =>
    refine ⟨nofun, ?_⟩
    rintro _ ⟨⟩ hM hsame
    rw [hx.error rfl hM hsame]
    rfl
  | ok p =>
    obtain ⟨hr, hin, hout⟩ := hx.ok rfl
    have hk := hk p.value p.rest p.shorter (append_lt p.shorter more) rfl hr
    by_cases hv : N p.value
    · obtain ⟨hM, rfl⟩ := hin hv
      exact ⟨fun hp => ⟨(hk.ok hp).1, fun hR => ⟨hM, ((hk.ok hp).2.1 hR).2⟩, fun _ => (hk.ok hp).2.2 hv⟩,
        fun he _ => hk.error he hv⟩
    · refine ⟨fun hp => ⟨(hk.ok hp).1, fun hR => (hv ((hk.ok hp).2.1 hR).1).elim, fun hM _ => ?_⟩,
        fun he hM hsame => ((hout hM hv).2 hsame).elim⟩
      exact ⟨(hout hM hv).1.bind k', (hout hM hv).2⟩

theorem step {k : Parsed α whole → Result β whole'} {k' : Parsed α (whole ++ more) → Result β (whole' ++ more)}
    (hx : Repeats more same M N x y)
    (hk : ∀ v r h h', Guarded r → Repeats more same (N v) R (k ⟨v, r, h⟩) (k' ⟨v, r ++ more, h'⟩)) :
    Repeats more same M R (x >>= k) (y >>= k') := hx.stepOk fun v r h h' _ => hk v r h h'

/-- After other things were read. -/
theorem after (hx : Repeats more same P N x y) (hP : P) (M : Prop) :
    Repeats more same M (fun v => M ∧ N v) x y where
  ok hp := by
    obtain ⟨hr, hin, hout⟩ := hx.ok hp
    exact ⟨hr, fun hv => ⟨hv.1, (hin hv.2).2⟩, fun hM hv => hout hP fun hn => hv ⟨hM, hn⟩⟩
  error he _ := hx.error he hP

theorem given (hx : Repeats more same P N x y) (hP : P ↔ M) : Repeats more same M N x y := propext hP ▸ hx

/-- A reader that is too deep. -/
theorem tooDeep {M' same' : Prop} {y' : Result α (whole ++ more)} (hx : Repeats more same' M' N' x y')
    (hy : TooDeep y) (hN : ∀ v, ¬ N v) (hsame : ¬ same) : Repeats more same M N x y where
  ok hp := ⟨(hx.ok hp).1, fun hv => (hN _ hv).elim, fun _ _ => ⟨hy, hsame⟩⟩
  error _ _ h := (hsame h).elim

/-- What is read at the same depth fits there. -/
theorem fits (hx : Repeats more True M N x y) {p : Parsed α whole} (hp : x = .ok p) (hM : M) : N p.value := by
  by_contra hnot
  exact ((hx.ok hp).2.2 hM hnot).2 trivial

/-- The same tokens at another depth. -/
theorem again (read : (ts : Tokens) → Result α ts) {x : Result α ts}
    (hx : Repeats [] False True N x (read (ts ++ []))) {p : Parsed α ts} (hp : x = .ok p) :
    (N p.value → read ts = .ok p) ∧ (¬ N p.value → TooDeep (read ts)) := by
  obtain ⟨-, hok, hdeep⟩ := hx.ok hp
  have hread : (N p.value → ∃ h, read (ts ++ []) = .ok ⟨p.value, p.rest ++ [], h⟩) ∧
      (¬ N p.value → TooDeep (read (ts ++ []))) :=
    ⟨fun hv => ⟨_, (hok hv).2⟩, fun hv => (hdeep trivial hv).1⟩
  rw [List.append_nil, List.append_nil] at hread
  exact hread.imp_left fun h hv => (h hv).2

end Repeats

end Repeats

/-! ### Single tokens -/

theorem Guarded.tail {t : Token} {r : Tokens} (h : Guarded (t :: r)) (ht : t.kind ≠ .eof) : Guarded r := by
  obtain ⟨u, hu, heof⟩ := h
  rcases List.mem_cons.1 hu with rfl | hu
  · exact (ht heof).elim
  · exact ⟨u, hu, heof⟩

theorem Guarded.exists_cons (h : Guarded ts) : ∃ t r, ts = t :: r := by
  cases ts with
  | nil =>
    obtain ⟨t, ht, -⟩ := h
    cases ht
  | cons t r => exact ⟨t, r, rfl⟩

theorem Guarded.peek_append (h : Guarded ts) (more : Tokens) : peek (ts ++ more) = peek ts := by
  obtain ⟨t, r, rfl⟩ := h.exists_cons
  rfl

theorem Guarded.fail_append {α : Type} (h : Guarded ts) (what : String) (more : Tokens) :
    (fail what (ts ++ more) : Except ParseError α) = fail what ts := by
  rw [fail, fail, h.peek_append]

theorem repeats_fail {α : Type} {N : α → Prop} {whole : Tokens} (h : Guarded ts) (what : String) :
    Repeats more same M N (fail what ts : Result α whole) (fail what (ts ++ more)) := by
  rw [h.fail_append]
  exact repeats_error _

theorem eat_append (s : Symbol) (h : Guarded ts) (more : Tokens) :
    (eat s ts = none ∧ eat s (ts ++ more) = none) ∨ ∃ span r hr hr', eat s ts = some ⟨span, r, hr⟩ ∧
      eat s (ts ++ more) = some ⟨span, r ++ more, hr'⟩ ∧ Guarded r := by
  obtain ⟨⟨k, span⟩, r, rfl⟩ := h.exists_cons
  cases k with
  | symbol s' =>
    by_cases heq : s' = s
    · exact .inr ⟨span, r, Nat.lt_succ_self _, Nat.lt_succ_self _, if_pos heq, if_pos heq, h.tail nofun⟩
    · exact .inl ⟨if_neg heq, if_neg heq⟩
  | _ => exact .inl ⟨rfl, rfl⟩

theorem eatWord_append (k : Keyword) (h : Guarded ts) (more : Tokens) :
    (eatWord k ts = none ∧ eatWord k (ts ++ more) = none) ∨ ∃ span r hr hr',
      eatWord k ts = some ⟨span, r, hr⟩ ∧ eatWord k (ts ++ more) = some ⟨span, r ++ more, hr'⟩ ∧
      Guarded r := by
  obtain ⟨⟨kind, span⟩, r, rfl⟩ := h.exists_cons
  cases kind with
  | keyword k' =>
    by_cases heq : k' = k
    · exact .inr ⟨span, r, Nat.lt_succ_self _, Nat.lt_succ_self _, if_pos heq, if_pos heq, h.tail nofun⟩
    · exact .inl ⟨if_neg heq, if_neg heq⟩
  | _ => exact .inl ⟨rfl, rfl⟩

theorem isAt_append (s : Symbol) (h : Guarded ts) (more : Tokens) : isAt s (ts ++ more) = isAt s ts := by
  rcases eat_append s h more with ⟨hx, hy⟩ | ⟨_, _, _, _, hx, hy, -⟩ <;> rw [isAt, isAt, hx, hy] <;> rfl

theorem guarded_skip {p : Token.Kind → Bool} (hp : p .eof = false) (h : Guarded ts) :
    Guarded (skip p ts).1 := by
  induction ts with
  | nil => exact h
  | cons t r ih =>
    simp only [skip, List.dropWhile_cons] at ih ⊢
    split
    next ht => exact ih (h.tail fun hk => by simp [hk, hp] at ht)
    next => exact h

theorem skip_append {p : Token.Kind → Bool} (hp : p .eof = false) (h : Guarded ts) (more : Tokens) :
    skip p (ts ++ more) =
      ⟨(skip p ts).1 ++ more, append_le (skip p ts).2 more⟩ := by
  refine Subtype.ext ?_
  induction ts with
  | nil =>
    obtain ⟨t, ht, -⟩ := h
    cases ht
  | cons t r ih =>
    simp only [skip, List.cons_append, List.dropWhile_cons] at ih ⊢
    split
    next ht => exact ih (h.tail fun hk => by simp [hk, hp] at ht)
    next => rfl

theorem repeats_expect (s : Symbol) (what : String) (h : Guarded ts) :
    Repeats more same M (fun _ => M) (expect s what ts) (expect s what (ts ++ more)) := by
  rw [expect, expect]
  rcases eat_append s h more with ⟨hx, hy⟩ | ⟨span, r, hr, hr', hx, hy, hg⟩ <;> rw [hx, hy]
  · exact repeats_fail h what
  · exact repeats_ok hg .rfl

theorem repeats_expectWord (k : Keyword) (what : String) (h : Guarded ts) :
    Repeats more same M (fun _ => M) (expectWord k what ts) (expectWord k what (ts ++ more)) := by
  rw [expectWord, expectWord]
  rcases eatWord_append k h more with ⟨hx, hy⟩ | ⟨span, r, hr, hr', hx, hy, hg⟩ <;> rw [hx, hy]
  · exact repeats_fail h what
  · exact repeats_ok hg .rfl

theorem repeats_ident (h : Guarded ts) :
    Repeats more same M (fun _ => M) (ident ts) (ident (ts ++ more)) := by
  obtain ⟨⟨k, span⟩, r, rfl⟩ := h.exists_cons
  cases k with
  | ident name => exact repeats_ok (h.tail nofun) .rfl
  | _ => exact repeats_error _

theorem repeats_typeName (h : Guarded ts) :
    Repeats more same M (fun _ => M) (typeName ts) (typeName (ts ++ more)) := by
  obtain ⟨⟨k, span⟩, r, rfl⟩ := h.exists_cons
  cases k with
  | ident name => exact repeats_ok (h.tail nofun) .rfl
  | typeName name => exact repeats_ok (h.tail nofun) .rfl
  | _ => exact repeats_error _

/-! ### Types -/

mutual

theorem repeats_typeExpr (ts : Tokens) (h : Guarded ts) {M : Prop} :
    Repeats more same M (fun _ => M) (typeExpr ts) (typeExpr (ts ++ more)) := by
  rw [typeExpr, typeExpr, h.peek_append]
  rcases eatWord_append .fn h more with ⟨hx, hy⟩ | ⟨_, ts₁, h₁, h₁', hx, hy, hg₁⟩ <;> rw [hx, hy] <;>
    dsimp only
  · rcases eat_append .lparen h more with ⟨hx, hy⟩ | ⟨_, ts₁, h₁, h₁', hx, hy, hg₁⟩ <;> rw [hx, hy] <;>
      dsimp only
    · refine (repeats_typeName h).step fun name ts₁ h₁ h₁' hg₁ => ?_
      dsimp only
      rcases eat_append .less hg₁ more with ⟨hx, hy⟩ | ⟨_, ts₂, h₂, h₂', hx, hy, hg₂⟩ <;> rw [hx, hy] <;>
        dsimp only
      · exact repeats_pure hg₁ .rfl
      · refine (repeats_typeList .greater ts₁ [] ts₂ h₂ h₂' hg₂).step fun args ts₃ h₃ h₃' hg₃ => ?_
        refine (repeats_expect .greater _ hg₃).step fun stop ts₄ h₄ h₄' hg₄ => ?_
        exact repeats_pure hg₄ .rfl
    · refine (repeats_typeList .rparen ts [] ts₁ h₁ h₁' hg₁).step fun elems ts₂ h₂ h₂' hg₂ => ?_
      refine (repeats_expect .rparen _ hg₂).step fun stop ts₃ h₃ h₃' hg₃ => ?_
      exact repeats_pure hg₃ .rfl
  · refine (repeats_expect .lparen _ hg₁).step fun _ ts₂ h₂ h₂' hg₂ => ?_
    dsimp only
    refine (repeats_typeList .rparen ts₁ [] ts₂ h₂ h₂' hg₂).step fun params ts₃ h₃ h₃' hg₃ => ?_
    dsimp only
    refine (repeats_expect .rparen _ hg₃).step fun _ ts₄ h₄ h₄' hg₄ => ?_
    dsimp only
    refine (repeats_expect .arrow _ hg₄).step fun _ ts₅ h₅ h₅' hg₅ => ?_
    dsimp only
    refine (repeats_typeExpr ts₅ hg₅).step fun result ts₆ h₆ h₆' hg₆ => ?_
    exact repeats_pure hg₆ .rfl
termination_by 2 * ts.length
decreasing_by all_goals omega

theorem repeats_typeList (close : Symbol) (whole : Tokens) (seen : List TypeExpr) (ts : Tokens)
    (h : ts.length < whole.length) (h' : (ts ++ more).length < (whole ++ more).length) (hg : Guarded ts)
    {M : Prop} :
    Repeats more same M (fun _ => M) (typeList close whole seen ts h)
      (typeList close (whole ++ more) seen (ts ++ more) h') := by
  rw [typeList, typeList, isAt_append close hg]
  split
  · exact repeats_pure hg .rfl
  · refine (repeats_typeExpr ts hg).step fun t ts₁ h₁ h₁' hg₁ => ?_
    dsimp only
    rcases eat_append .comma hg₁ more with ⟨hx, hy⟩ | ⟨_, ts₂, h₂, h₂', hx, hy, hg₂⟩ <;> rw [hx, hy] <;>
      dsimp only
    · exact repeats_pure hg₁ .rfl
    · exact repeats_typeList close whole (t :: seen) ts₂ _ _ hg₂
termination_by 2 * ts.length + 1
decreasing_by all_goals omega

end

theorem repeats_typeAfter (mark : Symbol) {whole : Tokens} (h : ts.length < whole.length)
    (h' : (ts ++ more).length < (whole ++ more).length) (hg : Guarded ts) :
    Repeats more same M (fun _ => M) (typeAfter mark whole ts h)
      (typeAfter mark (whole ++ more) (ts ++ more) h') := by
  rw [typeAfter, typeAfter]
  rcases eat_append mark hg more with ⟨hx, hy⟩ | ⟨_, ts₁, h₁, h₁', hx, hy, hg₁⟩ <;> rw [hx, hy] <;>
    dsimp only
  · exact repeats_pure hg .rfl
  · refine (repeats_typeExpr ts₁ hg₁).step fun t ts₂ h₂ h₂' hg₂ => ?_
    exact repeats_pure hg₂ .rfl

/-! ### Names -/

theorem repeats_paramList (whole : Tokens) (seen : List Param) (ts : Tokens) (h : ts.length < whole.length)
    (h' : (ts ++ more).length < (whole ++ more).length) (hg : Guarded ts) :
    Repeats more same M (fun _ => M) (paramList whole seen ts h)
      (paramList (whole ++ more) seen (ts ++ more) h') := by
  rw [paramList, paramList, isAt_append .rparen hg]
  split
  · exact repeats_pure hg .rfl
  · refine (repeats_ident hg).step fun name ts₁ h₁ h₁' hg₁ => ?_
    dsimp only
    split
    · exact repeats_error _
    · refine (repeats_typeAfter .colon h₁ h₁' hg₁).step fun type ts₂ h₂ h₂' hg₂ => ?_
      dsimp only
      rcases eat_append .comma hg₂ more with ⟨hx, hy⟩ | ⟨_, ts₃, h₃, h₃', hx, hy, hg₃⟩ <;> rw [hx, hy] <;>
        dsimp only
      · exact repeats_pure hg₂ .rfl
      · exact repeats_paramList whole _ ts₃ _ _ hg₃
termination_by ts.length
decreasing_by omega

theorem repeats_params (hg : Guarded ts) :
    Repeats more same M (fun _ => M) (params ts) (params (ts ++ more)) := by
  rw [params, params]
  refine (repeats_expect .lparen _ hg).step fun _ ts₁ h₁ h₁' hg₁ => ?_
  refine (repeats_paramList ts [] ts₁ h₁ h₁' hg₁).step fun ps ts₂ h₂ h₂' hg₂ => ?_
  refine (repeats_expect .rparen _ hg₂).step fun _ ts₃ h₃ h₃' hg₃ => ?_
  exact repeats_pure hg₃ .rfl

theorem repeats_nameList (whole : Tokens) (seen : List Ident) (ts : Tokens) (h : ts.length < whole.length)
    (h' : (ts ++ more).length < (whole ++ more).length) (hg : Guarded ts) :
    Repeats more same M (fun _ => M) (nameList whole seen ts h)
      (nameList (whole ++ more) seen (ts ++ more) h') := by
  rw [nameList, nameList]
  refine (repeats_typeName hg).step fun name ts₁ h₁ h₁' hg₁ => ?_
  dsimp only
  rcases eat_append .comma hg₁ more with ⟨hx, hy⟩ | ⟨_, ts₂, h₂, h₂', hx, hy, hg₂⟩ <;> rw [hx, hy] <;>
    dsimp only
  · exact repeats_pure hg₁ .rfl
  · exact repeats_nameList whole (name :: seen) ts₂ _ _ hg₂
termination_by ts.length
decreasing_by omega

theorem repeats_derivesClause {whole : Tokens} (h : ts.length < whole.length)
    (h' : (ts ++ more).length < (whole ++ more).length) (hg : Guarded ts) :
    Repeats more same M (fun _ => M) (derivesClause whole ts h)
      (derivesClause (whole ++ more) (ts ++ more) h') := by
  rw [derivesClause, derivesClause]
  rcases eatWord_append .derives hg more with ⟨hx, hy⟩ | ⟨_, ts₁, h₁, h₁', hx, hy, hg₁⟩ <;> rw [hx, hy] <;>
    dsimp only
  · exact repeats_pure hg .rfl
  · rcases eat_append .lbracket hg₁ more with ⟨hx, hy⟩ | ⟨_, ts₂, h₂, h₂', hx, hy, hg₂⟩ <;> rw [hx, hy] <;>
      dsimp only
    · exact repeats_nameList whole [] ts₁ _ _ hg₁
    · refine (repeats_nameList whole [] ts₂ _ _ hg₂).step fun names ts₃ h₃ h₃' hg₃ => ?_
      refine (repeats_expect .rbracket _ hg₃).step fun _ ts₄ h₄ h₄' hg₄ => ?_
      exact repeats_pure hg₄ .rfl

/-! ### Declarations -/

theorem repeats_structFields (whole : Tokens) (seen : List FieldDef) (ts : Tokens)
    (h : ts.length < whole.length) (h' : (ts ++ more).length < (whole ++ more).length) (hg : Guarded ts) :
    Repeats more same M (fun _ => M) (structFields whole seen ts h)
      (structFields (whole ++ more) seen (ts ++ more) h') := by
  have hskip := (skip separates ts).2
  have hg₀ : Guarded (skip separates ts).1 := guarded_skip rfl hg
  rw [structFields, structFields, skip_append rfl hg]
  dsimp only
  rw [isAt_append .rbrace hg₀]
  split
  · exact repeats_pure hg₀ .rfl
  · refine (repeats_ident hg₀).step fun name ts₁ h₁ h₁' hg₁ => ?_
    dsimp only
    split
    · exact repeats_error _
    · refine (repeats_expect .colon _ hg₁).step fun _ ts₂ h₂ h₂' hg₂ => ?_
      dsimp only
      refine (repeats_typeExpr ts₂ hg₂).step fun type ts₃ h₃ h₃' hg₃ => ?_
      exact repeats_structFields whole (⟨name, type⟩ :: seen) ts₃ _ _ hg₃
termination_by ts.length
decreasing_by omega

theorem repeats_structDef (hg : Guarded ts) :
    Repeats more same M (fun _ => M) (structDef ts) (structDef (ts ++ more)) := by
  rw [structDef, structDef]
  refine (repeats_expectWord .struct _ hg).step fun start ts₁ h₁ h₁' hg₁ => ?_
  refine (repeats_typeName hg₁).step fun name ts₂ h₂ h₂' hg₂ => ?_
  refine (repeats_derivesClause h₂ h₂' hg₂).step fun derives ts₃ h₃ h₃' hg₃ => ?_
  refine (repeats_expect .lbrace _ hg₃).step fun _ ts₄ h₄ h₄' hg₄ => ?_
  refine (repeats_structFields ts₃ [] ts₄ h₄ h₄' hg₄).step fun fields ts₅ h₅ h₅' hg₅ => ?_
  refine (repeats_expect .rbrace _ hg₅).step fun stop ts₆ h₆ h₆' hg₆ => ?_
  exact repeats_pure hg₆ .rfl

theorem repeats_payload (name : Ident) {whole : Tokens} (h : ts.length < whole.length)
    (h' : (ts ++ more).length < (whole ++ more).length) (hg : Guarded ts) :
    Repeats more same M (fun _ => M) (payload name whole ts h)
      (payload name (whole ++ more) (ts ++ more) h') := by
  rw [payload, payload]
  rcases eat_append .lparen hg more with ⟨hx, hy⟩ | ⟨_, ts₁, h₁, h₁', hx, hy, hg₁⟩ <;> rw [hx, hy] <;>
    dsimp only
  · exact repeats_pure hg .rfl
  · refine (repeats_typeList .rparen ts [] ts₁ h₁ h₁' hg₁).step fun types ts₂ h₂ h₂' hg₂ => ?_
    refine (repeats_expect .rparen _ hg₂).step fun stop ts₃ h₃ h₃' hg₃ => ?_
    match types with
    | [] => exact repeats_error _
    | [t] => exact repeats_pure hg₃ .rfl
    | t :: u :: types => exact repeats_pure hg₃ .rfl

theorem repeats_enumMembers (whole : Tokens) (seen : List EnumMember) (ts : Tokens)
    (h : ts.length < whole.length) (h' : (ts ++ more).length < (whole ++ more).length) (hg : Guarded ts) :
    Repeats more same M (fun _ => M) (enumMembers whole seen ts h)
      (enumMembers (whole ++ more) seen (ts ++ more) h') := by
  have hskip := (skip separates ts).2
  have hg₀ : Guarded (skip separates ts).1 := guarded_skip rfl hg
  rw [enumMembers, enumMembers, skip_append rfl hg]
  dsimp only
  rw [isAt_append .rbrace hg₀]
  split
  · exact repeats_pure hg₀ .rfl
  · refine (repeats_ident hg₀).step fun name ts₁ h₁ h₁' hg₁ => ?_
    dsimp only
    split
    · exact repeats_error _
    · refine (repeats_payload name h₁ h₁' hg₁).step fun type ts₂ h₂ h₂' hg₂ => ?_
      exact repeats_enumMembers whole (⟨name, type⟩ :: seen) ts₂ _ _ hg₂
termination_by ts.length
decreasing_by omega

theorem repeats_enumDef (hg : Guarded ts) :
    Repeats more same M (fun _ => M) (enumDef ts) (enumDef (ts ++ more)) := by
  rw [enumDef, enumDef]
  refine (repeats_expectWord .enum _ hg).step fun start ts₁ h₁ h₁' hg₁ => ?_
  refine (repeats_typeName hg₁).step fun name ts₂ h₂ h₂' hg₂ => ?_
  refine (repeats_derivesClause h₂ h₂' hg₂).step fun derives ts₃ h₃ h₃' hg₃ => ?_
  refine (repeats_expect .lbrace _ hg₃).step fun _ ts₄ h₄ h₄' hg₄ => ?_
  refine (repeats_enumMembers ts₃ [] ts₄ h₄ h₄' hg₄).step fun members ts₅ h₅ h₅' hg₅ => ?_
  refine (repeats_expect .rbrace _ hg₅).step fun stop ts₆ h₆ h₆' hg₆ => ?_
  exact repeats_pure hg₆ .rfl

theorem repeats_methodSigs (whole : Tokens) (seen : List MethodSig) (ts : Tokens)
    (h : ts.length < whole.length) (h' : (ts ++ more).length < (whole ++ more).length) (hg : Guarded ts) :
    Repeats more same M (fun _ => M) (methodSigs whole seen ts h)
      (methodSigs (whole ++ more) seen (ts ++ more) h') := by
  have hskip := (skip separates ts).2
  have hg₀ : Guarded (skip separates ts).1 := guarded_skip rfl hg
  rw [methodSigs, methodSigs, skip_append rfl hg]
  dsimp only
  rw [isAt_append .rbrace hg₀]
  split
  · exact repeats_pure hg₀ .rfl
  · refine (repeats_expectWord .fn _ hg₀).step fun _ ts₁ h₁ h₁' hg₁ => ?_
    dsimp only
    refine (repeats_ident hg₁).step fun name ts₂ h₂ h₂' hg₂ => ?_
    dsimp only
    refine (repeats_params hg₂).step fun ps ts₃ h₃ h₃' hg₃ => ?_
    dsimp only
    split
    · exact repeats_error _
    · refine (repeats_typeAfter .arrow h₃ h₃' hg₃).step fun result ts₄ h₄ h₄' hg₄ => ?_
      exact repeats_methodSigs whole (⟨name, ps, result⟩ :: seen) ts₄ _ _ hg₄
termination_by ts.length
decreasing_by omega

theorem repeats_typeclassDef (hg : Guarded ts) :
    Repeats more same M (fun _ => M) (typeclassDef ts) (typeclassDef (ts ++ more)) := by
  rw [typeclassDef, typeclassDef]
  refine (repeats_expectWord .typeclass _ hg).step fun start ts₁ h₁ h₁' hg₁ => ?_
  refine (repeats_typeName hg₁).step fun name ts₂ h₂ h₂' hg₂ => ?_
  refine (repeats_derivesClause h₂ h₂' hg₂).step fun derives ts₃ h₃ h₃' hg₃ => ?_
  refine (repeats_expect .lbrace _ hg₃).step fun _ ts₄ h₄ h₄' hg₄ => ?_
  refine (repeats_methodSigs ts₃ [] ts₄ h₄ h₄' hg₄).step fun methods ts₅ h₅ h₅' hg₅ => ?_
  refine (repeats_expect .rbrace _ hg₅).step fun stop ts₆ h₆ h₆' hg₆ => ?_
  exact repeats_pure hg₆ .rfl

theorem repeats_importNames (whole : Tokens) (seen : List Ident) (ts : Tokens)
    (h : ts.length < whole.length) (h' : (ts ++ more).length < (whole ++ more).length) (hg : Guarded ts) :
    Repeats more same M (fun _ => M) (importNames whole seen ts h)
      (importNames (whole ++ more) seen (ts ++ more) h') := by
  have hskip := (skip separates ts).2
  have hg₀ : Guarded (skip separates ts).1 := guarded_skip rfl hg
  rw [importNames, importNames, skip_append rfl hg]
  dsimp only
  rw [isAt_append .rbrace hg₀]
  split
  · exact repeats_pure hg₀ .rfl
  · refine (repeats_typeName hg₀).step fun name ts₁ h₁ h₁' hg₁ => ?_
    exact repeats_importNames whole (name :: seen) ts₁ _ _ hg₁
termination_by ts.length
decreasing_by omega

theorem repeats_importStmt {d : Nat} (hd : d ≤ maxNesting) (hg : Guarded ts) :
    Repeats more same True (fun s => Fits d (.stmt s)) (importStmt ts) (importStmt (ts ++ more)) := by
  rw [importStmt, importStmt]
  refine (repeats_expectWord .import _ hg).step fun start ts₁ h₁ h₁' hg₁ => ?_
  dsimp only
  refine (repeats_ident hg₁).step fun source ts₂ h₂ h₂' hg₂ => ?_
  dsimp only
  rcases eat_append .lbrace hg₂ more with ⟨hx, hy⟩ | ⟨_, ts₃, h₃, h₃', hx, hy, hg₃⟩ <;> rw [hx, hy] <;>
    dsimp only
  · exact repeats_pure hg₂ (by simp [fits_use, hd])
  · refine (repeats_importNames ts₂ [] ts₃ h₃ h₃' hg₃).step fun names ts₄ h₄ h₄' hg₄ => ?_
    refine (repeats_expect .rbrace _ hg₄).step fun stop ts₅ h₅ h₅' hg₅ => ?_
    exact repeats_pure hg₅ (by simp [fits_use, hd])

/-! ### Patterns -/

theorem repeats_negative (start : Span) (hg : Guarded ts) :
    Repeats more same M (fun _ => M) (negative start ts) (negative start (ts ++ more)) := by
  obtain ⟨⟨k, span⟩, r, rfl⟩ := hg.exists_cons
  cases k with
  | int v => exact repeats_ok (hg.tail nofun) .rfl
  | float v => exact repeats_ok (hg.tail nofun) .rfl
  | _ => exact repeats_fail hg _

theorem kind_ne_eof_of_literal {k : Token.Kind} {l : Literal} (h : literal? k = some l) : k ≠ .eof := by
  rintro rfl
  cases h

mutual

theorem repeats_pattern (ts : Tokens) (hg : Guarded ts) {M : Prop} :
    Repeats more same M (fun _ => M) (pattern ts) (pattern (ts ++ more)) := by
  obtain ⟨⟨kind, span⟩, r, hts⟩ := hg.exists_cons
  have hlen : r.length < ts.length := by simp [hts]
  rw [hts] at hg ⊢
  rw [pattern, pattern]
  dsimp only [next, List.cons_append]
  split
  · exact repeats_pure (hg.tail nofun) .rfl
  · exact repeats_pure (hg.tail nofun) .rfl
  · refine (repeats_expect .lparen _ (hg.tail nofun)).step fun _ ts₁ h₁ h₁' hg₁ => ?_
    dsimp only
    refine (repeats_pattern ts₁ hg₁).step fun inner ts₂ h₂ h₂' hg₂ => ?_
    dsimp only
    refine (repeats_expect .rparen _ hg₂).step fun stop ts₃ h₃ h₃' hg₃ => ?_
    exact repeats_pure hg₃ .rfl
  next text _ _ _ =>
    have hr : Guarded r := hg.tail nofun
    rcases eat_append .lparen hr more with ⟨hx, hy⟩ | ⟨_, ts₁, h₁, h₁', hx, hy, hg₁⟩ <;> rw [hx, hy] <;>
      dsimp only
    · rcases eat_append .lbrace hr more with ⟨hx, hy⟩ | ⟨_, ts₁, h₁, h₁', hx, hy, hg₁⟩ <;> rw [hx, hy] <;>
        dsimp only
      · exact repeats_pure hr .rfl
      · refine (repeats_fieldPatterns r [] ts₁ h₁ h₁' hg₁).step fun fields ts₂ h₂ h₂' hg₂ => ?_
        refine (repeats_expect .rbrace _ hg₂).step fun stop ts₃ h₃ h₃' hg₃ => ?_
        exact repeats_pure hg₃ .rfl
    · refine (repeats_patternList r [] false ts₁ h₁ h₁' hg₁).step fun p ts₂ h₂ h₂' hg₂ => ?_
      obtain ⟨fields, trailing⟩ := p
      dsimp only
      refine (repeats_expect .rparen _ hg₂).step fun stop ts₃ h₃ h₃' hg₃ => ?_
      exact repeats_pure hg₃ .rfl
  · refine (repeats_patternList (⟨.symbol .lparen, span⟩ :: r) [] false r _ _ (hg.tail nofun)).step
      fun p ts₁ h₁ h₁' hg₁ => ?_
    obtain ⟨elems, trailing⟩ := p
    dsimp only
    refine (repeats_expect .rparen _ hg₁).step fun stop ts₂ h₂ h₂' hg₂ => ?_
    dsimp only
    rcases elems with _ | ⟨q, _ | ⟨q', qs⟩⟩
    · exact repeats_pure hg₂ .rfl
    · cases trailing
      · exact repeats_pure hg₂ .rfl
      · exact repeats_error _
    · exact repeats_pure hg₂ .rfl
  · refine (repeats_negative span (hg.tail nofun)).step fun p ts₁ h₁ h₁' hg₁ => ?_
    exact repeats_pure hg₁ .rfl
  · split
    next l hl => exact repeats_pure (hg.tail (kind_ne_eof_of_literal hl)) .rfl
    next => exact repeats_fail hg _
termination_by 2 * ts.length
decreasing_by all_goals omega

theorem repeats_patternList (whole : Tokens) (seen : List Pattern) (trailing : Bool) (ts : Tokens)
    (h : ts.length < whole.length) (h' : (ts ++ more).length < (whole ++ more).length) (hg : Guarded ts)
    {M : Prop} :
    Repeats more same M (fun _ => M) (patternList whole seen trailing ts h)
      (patternList (whole ++ more) seen trailing (ts ++ more) h') := by
  rw [patternList, patternList, isAt_append .rparen hg]
  split
  · exact repeats_pure hg .rfl
  · refine (repeats_pattern ts hg).step fun p ts₁ h₁ h₁' hg₁ => ?_
    dsimp only
    rcases eat_append .comma hg₁ more with ⟨hx, hy⟩ | ⟨_, ts₂, h₂, h₂', hx, hy, hg₂⟩ <;> rw [hx, hy] <;>
      dsimp only
    · exact repeats_pure hg₁ .rfl
    · exact repeats_patternList whole (p :: seen) true ts₂ _ _ hg₂
termination_by 2 * ts.length + 1
decreasing_by all_goals omega

theorem repeats_fieldPatterns (whole : Tokens) (seen : List (Ident × Pattern)) (ts : Tokens)
    (h : ts.length < whole.length) (h' : (ts ++ more).length < (whole ++ more).length) (hg : Guarded ts)
    {M : Prop} :
    Repeats more same M (fun _ => M) (fieldPatterns whole seen ts h)
      (fieldPatterns (whole ++ more) seen (ts ++ more) h') := by
  have hskip := (skip separates ts).2
  have hg₀ : Guarded (skip separates ts).1 := guarded_skip rfl hg
  rw [fieldPatterns, fieldPatterns, skip_append rfl hg]
  dsimp only
  rw [isAt_append .rbrace hg₀]
  split
  · exact repeats_pure hg₀ .rfl
  · refine (repeats_ident hg₀).step fun name ts₁ h₁ h₁' hg₁ => ?_
    dsimp only
    rcases eat_append .colon hg₁ more with ⟨hx, hy⟩ | ⟨_, ts₂, h₂, h₂', hx, hy, hg₂⟩ <;> rw [hx, hy] <;>
      dsimp only
    · exact repeats_fieldPatterns whole _ ts₁ _ _ hg₁
    · refine (repeats_pattern ts₂ hg₂).step fun p ts₃ h₃ h₃' hg₃ => ?_
      exact repeats_fieldPatterns whole _ ts₃ _ _ hg₃
termination_by 2 * ts.length + 1
decreasing_by all_goals omega

end

end Sluice.Parser
