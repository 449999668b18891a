import Sluice.Proofs.Parser.Grammar

/-! The grammar of expressions is unambiguous. A phrase that ends where the next token cannot go on with it is
fixed by the tokens that it starts with: two phrases of one level with the same tokens are the same tree. -/
namespace Sluice.Parser

/-! ### Phrases that grow -/

/-- A phrase of level `l` with the tree `e` goes on with a sign of this level and what belongs to the sign. -/
inductive Adds : Level → Expr → Tokens → Expr → Prop
  | stage {e stage : Expr} {ts : Tokens} (sign : Span) (h : Derives .or ts stage) :
      Adds .chain e (⟨.symbol .pipe, sign⟩ :: ts) (addStage e stage)
  | binary {l : Level} {e rhs : Expr} {ts : Tokens} (op : BinaryOp) (sign : Span)
      (hop : level? op.kind = some l) (h : Derives l.tighter ts rhs) :
      Adds l e (⟨op.kind, sign⟩ :: ts) (.binary e op rhs (e.span.through rhs.span))
  | call {e : Expr} {args : List Phrase} {inside : Tokens} (start stop : Span)
      (hcommas : Commas args inside) (hargs : ∀ p ∈ args, Derives .chain p.tokens p.tree) :
      Adds .suffix e (⟨.symbol .lparen, start⟩ :: (inside ++ [⟨.symbol .rparen, stop⟩]))
        (.call e (args.map (·.tree)) (e.span.through stop))
  | index {e key : Expr} {inside : Tokens} (start stop : Span) (hkey : Derives .chain inside key) :
      Adds .suffix e (⟨.symbol .lbracket, start⟩ :: (inside ++ [⟨.symbol .rbracket, stop⟩]))
        (.index e key (e.span.through stop))
  | member {e : Expr} (dot : Span) (name : Ident) :
      Adds .suffix e [⟨.symbol .dot, dot⟩, ⟨.ident name.text, name.span⟩] (addMember e name)

inductive Grows (l : Level) : Expr → Tokens → Expr → Prop
  | refl (e : Expr) : Grows l e [] e
  | step {e e' e'' : Expr} {ts more : Tokens} (h : Adds l e ts e') (hmore : Grows l e' more e'') :
      Grows l e (ts ++ more) e''

section Grows

variable {l : Level} {e e' e'' : Expr} {ts more rest : Tokens}

theorem Adds.exists_sign (h : Adds l e ts e') : ∃ t us, ts = t :: us ∧ level? t.kind = some l := by
  cases h with
  | binary op sign hop h => exact ⟨_, _, rfl, hop⟩
  | stage | call | index | member => exact ⟨_, _, rfl, rfl⟩

theorem Grows.append (h : Grows l e more e') (h' : Adds l e' ts e'') : Grows l e (more ++ ts) e'' := by
  induction h with
  | refl e => simpa using Grows.step h' (.refl e'')
  | step hadds _ ih =>
    rw [List.append_assoc]
    exact .step hadds (ih h')

/-- Where a phrase may go on stands a phrase of the next tighter level. -/
theorem Grows.ends (h : Grows l e more e') (hrest : Ends l rest) : Ends l.tighter (more ++ rest) := by
  cases h with
  | refl => exact hrest.tighter
  | step hadds _ =>
    obtain ⟨t, us, rfl, ht⟩ := hadds.exists_sign
    exact ends_tighter_cons ht

/-- A phrase does not go on where it ends. -/
theorem Grows.eq_of_ends (h : Grows l e more e') (hends : Ends l (more ++ rest)) : more = [] ∧ e = e' := by
  cases h with
  | refl => exact ⟨rfl, rfl⟩
  | step hadds _ =>
    obtain ⟨t, us, rfl, ht⟩ := hadds.exists_sign
    exact (not_ends_cons ht hends).elim

/-- Before a sign of its level a phrase goes on. -/
theorem Grows.exists_step {sign : Token} {us : Tokens} (h : Grows l e more e'')
    (hsign : level? sign.kind = some l) (hrest : Ends l rest) (heq : more ++ rest = sign :: us) :
    ∃ ts more' e', more = ts ++ more' ∧ Adds l e ts e' ∧ Grows l e' more' e'' := by
  cases h with
  | refl =>
    obtain rfl : rest = sign :: us := heq
    exact (not_ends_cons hsign hrest).elim
  | step hadds hmore => exact ⟨_, _, _, rfl, hadds, hmore⟩

end Grows

/-- A phrase starts with one of the next tighter level, which then goes on. Only unary operators are not so:
they stand before their operand. -/
theorem Derives.exists_grows {l : Level} {ts : Tokens} {e : Expr} (h : Derives l ts e) (hatom : l ≠ .atom)
    (hunary : l ≠ .unary) :
    ∃ first d more, ts = first ++ more ∧ Derives l.tighter first d ∧ Grows l d more e := by
  induction h with
  | @tighter _ ts e _ h _ => exact ⟨ts, e, [], by simp, h, .refl e⟩
  | @chain ts₁ ts₂ e₁ e₂ sign h₁ h₂ _ _ =>
    have hadds : Adds .chain e₁ (⟨.symbol .pipe, sign⟩ :: ts₂) (addStage e₁ e₂) := .stage sign h₂
    rw [addStage_of_ne (h₁.ne_compose nofun)] at hadds
    exact ⟨ts₁, e₁, _, rfl, h₁, (Grows.refl e₁).append hadds⟩
  | stage sign h₁ h₂ ih _ =>
    obtain ⟨first, d, more, rfl, hfirst, hgrows⟩ := ih hatom hunary
    exact ⟨first, d, _, List.append_assoc .., hfirst, hgrows.append (.stage sign h₂)⟩
  | binary op sign hop h₁ h₂ ih _ =>
    obtain ⟨first, d, more, rfl, hfirst, hgrows⟩ := ih hatom hunary
    exact ⟨first, d, _, List.append_assoc .., hfirst, hgrows.append (.binary op sign hop h₂)⟩
  | unary => exact (hunary rfl).elim
  | call start stop h hcommas hargs ih _ =>
    obtain ⟨first, d, more, rfl, hfirst, hgrows⟩ := ih hatom hunary
    exact ⟨first, d, _, List.append_assoc .., hfirst, hgrows.append (.call start stop hcommas hargs)⟩
  | index start stop h hkey ih _ =>
    obtain ⟨first, d, more, rfl, hfirst, hgrows⟩ := ih hatom hunary
    exact ⟨first, d, _, List.append_assoc .., hfirst, hgrows.append (.index start stop hkey)⟩
  | member dot name h he ih =>
    obtain ⟨first, d, more, rfl, hfirst, hgrows⟩ := ih hatom hunary
    exact ⟨first, d, _, List.append_assoc .., hfirst, addMember_of_ne he ▸ hgrows.append (.member dot name)⟩
  | members dot name h ih =>
    obtain ⟨first, d, more, rfl, hfirst, hgrows⟩ := ih hatom hunary
    exact ⟨first, d, _, List.append_assoc .., hfirst, hgrows.append (.member dot name)⟩
  | literal | name | hole | paren | tuple | list | range | map => exact (hatom rfl).elim

/-! ### Phrases that are the only ones -/

/-- Every phrase of level `l` that starts where the tokens `ts` do, and ends where it cannot go on, starts with
the phrase that these tokens are, whose tree is `e`. -/
def Passes (l : Level) (ts : Tokens) (e : Expr) : Prop :=
  ∀ ts' e' r r', Derives l ts' e' → ts ++ r = ts' ++ r' → Ends l.tighter r → Ends l r' →
    ∃ more, ts' = ts ++ more ∧ Grows l e more e'

section Passes

variable {l : Level} {ts ts' r r' : Tokens} {e e' : Expr}

theorem Passes.unique (h : Passes l ts e) (hd : Derives l ts' e') (heq : ts ++ r = ts' ++ r')
    (hr : Ends l r) (hr' : Ends l r') : ts = ts' ∧ e = e' ∧ r = r' := by
  obtain ⟨more, rfl, hgrows⟩ := h ts' e' r r' hd heq hr.tighter hr'
  obtain rfl : r = more ++ r' := by simpa using heq
  obtain ⟨rfl, rfl⟩ := hgrows.eq_of_ends hr
  simp

theorem Derives.append_ne_cons (h : Derives l ts e) {t : Token} (ht : startsPhrase t.kind = false)
    (x y : Tokens) : ts ++ x ≠ t :: y := by
  obtain ⟨s, us, rfl, hs, -⟩ := h.exists_first
  rintro ⟨⟩
  rw [hs] at ht
  cases ht

/-- No phrase of the levels above the unary operators starts with one of them. -/
theorem Derives.append_ne_unary (h : Derives l ts e) (hl : Level.unary.rank < l.rank) (op : UnaryOp)
    (sign : Span) (x y : Tokens) : ts ++ x ≠ ⟨op.kind, sign⟩ :: y := by
  obtain ⟨s, us, rfl, -, hs⟩ := h.exists_first
  rintro ⟨⟩
  simpa using hs hl

theorem Passes.looser (hl : l ≠ .atom) (hd : Derives l.tighter ts e) (h : Passes l.tighter ts e) :
    Passes l ts e := by
  intro ts' e' r r' hd' heq hr hr'
  have hgrown : ∀ {first d more}, ts' = first ++ more → Derives l.tighter first d → Grows l d more e' →
      ∃ more, ts' = ts ++ more ∧ Grows l e more e' := by
    rintro first d more rfl hfirst hgrows
    obtain ⟨rfl, rfl, -⟩ := h.unique hfirst (by simpa using heq) hr (hgrows.ends hr')
    exact ⟨more, rfl, hgrows⟩
  by_cases hunary : l = .unary
  · subst hunary
    cases hd' with
    | tighter _ h' => exact hgrown (List.append_nil ts').symm h' (.refl e')
    | binary op sign hop _ _ => cases op <;> cases hop
    | unary op sign _ => exact (hd.append_ne_unary (by decide) op sign _ _ heq).elim
  · obtain ⟨first, d, more, hts', hfirst, hgrows⟩ := hd'.exists_grows hl hunary
    exact hgrown hts' hfirst hgrows

/-- A phrase goes on with a sign of its level and what belongs to the sign, if that is fixed too. -/
theorem Passes.append {sign : Token} {more : Tokens} (h : Passes l ts e) (hsign : level? sign.kind = some l)
    (hadds : ∀ us d r r', Adds l e us d → sign :: (more ++ r) = us ++ r' → Ends l.tighter r →
      Ends l.tighter r' → us = sign :: more ∧ d = e') : Passes l (ts ++ sign :: more) e' := by
  intro ts' e'' r r' hd heq hr hr'
  have heq' : ts ++ sign :: (more ++ r) = ts' ++ r' := by simpa using heq
  obtain ⟨grown, rfl, hgrows⟩ := h ts' e'' _ r' hd heq' (ends_tighter_cons hsign) hr'
  have hgrown : grown ++ r' = sign :: (more ++ r) := by simpa using heq'.symm
  obtain ⟨us, more', d, rfl, hadd, hmore⟩ := hgrows.exists_step hsign hr' hgrown
  obtain ⟨rfl, rfl⟩ := hadds us d r (more' ++ r') hadd (by simpa using hgrown.symm) hr (hmore.ends hr')
  exact ⟨more', by simp, hmore⟩

end Passes

/-! ### What stands in brackets -/

def shuts : Token.Kind → Bool
  | .symbol .rparen | .symbol .rbracket | .symbol .dotDot => true
  | _ => false

theorem ends_cons_of_shuts {l : Level} {t : Token} {rest : Tokens} (ht : shuts t.kind = true) :
    Ends l (t :: rest) := by
  refine ends_cons_of_none ?_
  unfold shuts at ht
  split at ht <;> first | (simp only [*]; rfl) | cases ht

theorem shuts_symbol (s : Symbol) (span : Span) (hs : shuts (.symbol s) = true) :
    shuts (Token.kind ⟨.symbol s, span⟩) = true := hs

theorem startsPhrase_of_shuts {k : Token.Kind} (hk : shuts k = true) : startsPhrase k = false := by
  unfold shuts at hk
  split at hk <;> first | rfl | cases hk

/-- Two phrases that have the same tokens in front are the same one. -/
theorem Passes.phrase_eq {p p' : Phrase} {r r' : Tokens} (hp : Passes .chain p.tokens p.tree)
    (hp' : Derives .chain p'.tokens p'.tree) (heq : p.tokens ++ r = p'.tokens ++ r') (hr : Ends .chain r)
    (hr' : Ends .chain r') : p = p' ∧ r = r' := by
  obtain ⟨htokens, htree, hrest⟩ := hp.unique hp' heq hr hr'
  cases p
  cases p'
  exact ⟨congr (congrArg Phrase.mk htokens) htree, hrest⟩

theorem Commas.unique {ps ps' : List Phrase} {ts ts' r r' : Tokens} (h : Commas ps ts)
    (h' : Commas ps' ts') (hps : ∀ p ∈ ps, Derives .chain p.tokens p.tree)
    (hpass : ∀ p ∈ ps, Passes .chain p.tokens p.tree)
    (hps' : ∀ p ∈ ps', Derives .chain p.tokens p.tree) {t t' : Token} (ht : shuts t.kind = true)
    (ht' : shuts t'.kind = true) (heq : ts ++ t :: r = ts' ++ t' :: r') :
    ps = ps' ∧ ts = ts' ∧ t = t' ∧ r = r' := by
  have hcomma : ∀ {t : Token} {comma : Span}, shuts t.kind = true → t ≠ ⟨.symbol .comma, comma⟩ := by
    rintro _ comma ht rfl
    cases ht
  induction h generalizing ps' ts' with
  | nil =>
    cases h' with
    | nil => simpa using heq
    | last p => exact ((hps' p (by simp)).append_ne_cons (startsPhrase_of_shuts ht) _ _ heq.symm).elim
    | cons p _ _ =>
      rw [List.append_assoc] at heq
      exact ((hps' p (by simp)).append_ne_cons (startsPhrase_of_shuts ht) _ _ heq.symm).elim
  | last p =>
    cases h' with
    | nil => exact ((hps p (by simp)).append_ne_cons (startsPhrase_of_shuts ht') _ _ heq).elim
    | last p' =>
      obtain ⟨rfl, hrest⟩ := (hpass p (by simp)).phrase_eq (hps' p' (by simp)) heq
        (ends_cons_of_shuts ht) (ends_cons_of_shuts ht')
      simpa using hrest
    | cons p' comma _ =>
      rw [List.append_assoc] at heq
      obtain ⟨-, hrest⟩ := (hpass p (by simp)).phrase_eq (hps' p' (by simp)) heq
        (ends_cons_of_shuts ht) (ends_cons_of_none rfl)
      exact (hcomma ht (List.cons.inj hrest).1).elim
  | cons p comma h ih =>
    rw [List.append_assoc] at heq
    cases h' with
    | nil => exact ((hps p (by simp)).append_ne_cons (startsPhrase_of_shuts ht') _ _ heq).elim
    | last p' =>
      obtain ⟨-, hrest⟩ := (hpass p (by simp)).phrase_eq (hps' p' (by simp)) heq
        (ends_cons_of_none rfl) (ends_cons_of_shuts ht')
      exact (hcomma ht' (List.cons.inj hrest).1.symm).elim
    | cons p' comma' h' =>
      rw [List.append_assoc] at heq
      obtain ⟨rfl, hrest⟩ := (hpass p (by simp)).phrase_eq (hps' p' (by simp)) heq
        (ends_cons_of_none rfl) (ends_cons_of_none rfl)
      obtain ⟨hcommas, hrest⟩ := List.cons.inj hrest
      obtain ⟨rfl, rfl, hlast⟩ := ih h' (fun q hq => hps q (List.mem_cons_of_mem _ hq))
        (fun q hq => hpass q (List.mem_cons_of_mem _ hq)) (fun q hq => hps' q (List.mem_cons_of_mem _ hq))
        hrest
      exact ⟨rfl, by rw [hcommas], hlast⟩

/-- The separators before what is none are fixed. -/
theorem separators_unique {seps seps' x x' : Tokens} (hseps : ∀ t ∈ seps, separates t.kind = true)
    (hseps' : ∀ t ∈ seps', separates t.kind = true) (hx : ∃ t us, x = t :: us ∧ separates t.kind = false)
    (hx' : ∃ t us, x' = t :: us ∧ separates t.kind = false) (heq : seps ++ x = seps' ++ x') :
    seps = seps' ∧ x = x' := by
  have hrest : x = x' :=
    calc x = (seps ++ x).dropWhile (separates ·.kind) := (skip_separators hseps hx).symm
      _ = (seps' ++ x').dropWhile (separates ·.kind) := by rw [heq]
      _ = x' := skip_separators hseps' hx'
  subst hrest
  exact ⟨List.append_cancel_right heq, rfl⟩

theorem Derives.exists_not_separates {l : Level} {ts : Tokens} {e : Expr} (h : Derives l ts e) (x : Tokens) :
    ∃ t us, ts ++ x = t :: us ∧ separates t.kind = false := by
  obtain ⟨t, us, rfl, ht, -⟩ := h.exists_first
  exact ⟨t, us ++ x, rfl, separates_eq_false (closes_of_startsPhrase ht)⟩

theorem Entries.unique {es es' : List (Phrase × Phrase)} {ts ts' r r' : Tokens} {stop stop' : Span}
    (h : Entries es ts) (h' : Entries es' ts') (hkeys : ∀ p ∈ es, Derives .chain p.1.tokens p.1.tree)
    (hkeysPass : ∀ p ∈ es, Passes .chain p.1.tokens p.1.tree)
    (hvaluesPass : ∀ p ∈ es, Passes .chain p.2.tokens p.2.tree)
    (hkeys' : ∀ p ∈ es', Derives .chain p.1.tokens p.1.tree)
    (hvalues' : ∀ p ∈ es', Derives .chain p.2.tokens p.2.tree)
    (heq : ts ++ ⟨.symbol .rbrace, stop⟩ :: r = ts' ++ ⟨.symbol .rbrace, stop'⟩ :: r') :
    es = es' ∧ ts = ts' ∧ stop = stop' ∧ r = r' := by
  have hbrace : ∀ {stop : Span} {r : Tokens}, ∃ t us,
      (⟨.symbol .rbrace, stop⟩ :: r : Tokens) = t :: us ∧ separates t.kind = false := ⟨_, _, rfl, rfl⟩
  induction h generalizing es' ts' with
  | nil hseps =>
    cases h' with
    | nil hseps' =>
      obtain ⟨rfl, hrest⟩ := separators_unique hseps hseps' hbrace hbrace heq
      simpa using hrest
    | cons hseps' key' value' colon' h' hnext' =>
      have hkey' : Derives .chain key'.tokens key'.tree := hkeys' _ List.mem_cons_self
      rw [List.append_assoc, List.append_assoc] at heq
      obtain ⟨-, hrest⟩ := separators_unique hseps hseps' hbrace (hkey'.exists_not_separates _) heq
      exact (hkey'.append_ne_cons rfl _ _ hrest.symm).elim
  | cons hseps key value colon h hnext ih =>
    have hkey : Derives .chain key.tokens key.tree := hkeys _ List.mem_cons_self
    have hkeyPass : Passes .chain key.tokens key.tree := hkeysPass _ List.mem_cons_self
    have hvaluePass : Passes .chain value.tokens value.tree := hvaluesPass _ List.mem_cons_self
    rw [List.append_assoc, List.append_assoc] at heq
    cases h' with
    | nil hseps' =>
      obtain ⟨-, hrest⟩ := separators_unique hseps hseps' (hkey.exists_not_separates _) hbrace heq
      exact (hkey.append_ne_cons rfl _ _ hrest).elim
    | cons hseps' key' value' colon' h' hnext' =>
      have hkey' : Derives .chain key'.tokens key'.tree := hkeys' _ List.mem_cons_self
      have hvalue' : Derives .chain value'.tokens value'.tree := hvalues' _ List.mem_cons_self
      rw [List.append_assoc, List.append_assoc] at heq
      obtain ⟨rfl, hentry⟩ := separators_unique hseps hseps' (hkey.exists_not_separates _)
        (hkey'.exists_not_separates _) heq
      obtain ⟨rfl, hcolons⟩ := hkeyPass.phrase_eq hkey' hentry (ends_cons_of_none rfl)
        (ends_cons_of_none rfl)
      obtain ⟨hcolon, hvalues⟩ := List.cons.inj hcolons
      simp only [List.append_eq, List.append_assoc] at hvalues
      obtain ⟨rfl, hothers⟩ := hvaluePass.phrase_eq hvalue' hvalues
        (ends_of_closed (closed_of_separates hnext stop r))
        (ends_of_closed (closed_of_separates hnext' stop' r'))
      obtain ⟨rfl, rfl, hlast⟩ := ih h' (fun q hq => hkeys q (List.mem_cons_of_mem _ hq))
        (fun q hq => hkeysPass q (List.mem_cons_of_mem _ hq))
        (fun q hq => hvaluesPass q (List.mem_cons_of_mem _ hq))
        (fun q hq => hkeys' q (List.mem_cons_of_mem _ hq))
        (fun q hq => hvalues' q (List.mem_cons_of_mem _ hq)) hothers
      exact ⟨rfl, by rw [hcolon], hlast⟩

/-! ### Atoms -/

def leaf? : Token → Option Expr
  | ⟨.ident name, span⟩ => if name = "_" then some (.placeholder span) else some (.var ⟨name, span⟩)
  | ⟨k, span⟩ => (literal? k).map (.lit · span)

theorem leaf?_of_literal? {k : Token.Kind} {l : Literal} (hk : literal? k = some l) (span : Span) :
    leaf? ⟨k, span⟩ = some (.lit l span) := by
  cases k with
  | ident => cases hk
  | _ => exact congrArg (Option.map (Expr.lit · span)) hk

def round (elems : List Phrase) (span : Span) : Expr :=
  match elems with
  | [p] => .paren p.tree span
  | elems => .tuple (elems.map (·.tree)) span

theorem round_of_length_ne {elems : List Phrase} (h : elems.length ≠ 1) (span : Span) :
    round elems span = .tuple (elems.map (·.tree)) span := by
  match elems, h with
  | [], _ => rfl
  | _ :: _ :: _, _ => rfl

section Atoms

variable {ts inside r x : Tokens} {e : Expr} {start : Span}

theorem Derives.of_leaf {t : Token} {d : Expr} (h : Derives .atom ts e) (ht : leaf? t = some d)
    (heq : ts ++ r = t :: x) : ts = [t] ∧ e = d := by
  cases h with
  | tighter hl _ => exact (hl rfl).elim
  | binary op _ hop _ _ => cases op <;> cases hop
  | literal span hk =>
    obtain ⟨rfl, -⟩ := List.cons.inj heq
    exact ⟨rfl, Option.some.inj ((leaf?_of_literal? hk span).symm.trans ht)⟩
  | name id hid =>
    obtain ⟨rfl, -⟩ := List.cons.inj heq
    rw [leaf?, if_neg hid] at ht
    exact ⟨rfl, Option.some.inj ht⟩
  | hole span =>
    obtain ⟨rfl, -⟩ := List.cons.inj heq
    exact ⟨rfl, Option.some.inj ht⟩
  | paren | tuple | list | range | map =>
    obtain ⟨rfl, -⟩ := List.cons.inj heq
    cases ht

theorem Derives.of_lparen (h : Derives .atom ts e) (heq : ts ++ r = ⟨.symbol .lparen, start⟩ :: x) :
    ∃ elems inside stop, Commas elems inside ∧ (∀ p ∈ elems, Derives .chain p.tokens p.tree) ∧
      ts = ⟨.symbol .lparen, start⟩ :: (inside ++ [⟨.symbol .rparen, stop⟩]) ∧
      e = round elems (start.through stop) := by
  cases h with
  | tighter hl _ => exact (hl rfl).elim
  | binary op _ hop _ _ => cases op <;> cases hop
  | literal span hk =>
    obtain ⟨⟨⟩, -⟩ := List.cons.inj heq
    cases hk
  | name | hole | list | range | map => cases heq
  | @paren ts e _ stop h =>
    obtain ⟨⟨⟩, -⟩ := List.cons.inj heq
    exact ⟨[⟨ts, e⟩], ts, stop, .last ⟨ts, e⟩, by simpa using h, rfl, rfl⟩
  | tuple _ stop hcommas hlen helems =>
    obtain ⟨⟨⟩, -⟩ := List.cons.inj heq
    exact ⟨_, _, stop, hcommas, helems, rfl, (round_of_length_ne hlen _).symm⟩

theorem Derives.of_lbracket (h : Derives .atom ts e) (heq : ts ++ r = ⟨.symbol .lbracket, start⟩ :: x) :
    (∃ items inside stop, Commas items inside ∧ (∀ p ∈ items, Derives .chain p.tokens p.tree) ∧
      ts = ⟨.symbol .lbracket, start⟩ :: (inside ++ [⟨.symbol .rbracket, stop⟩]) ∧
      e = .list (items.map (·.tree)) (start.through stop)) ∨
    ∃ (lo hi : Phrase) (dots stop : Span), Derives .chain lo.tokens lo.tree ∧
      Derives .chain hi.tokens hi.tree ∧ ts = ⟨.symbol .lbracket, start⟩ ::
        (lo.tokens ++ ⟨.symbol .dotDot, dots⟩ :: (hi.tokens ++ [⟨.symbol .rbracket, stop⟩])) ∧
      e = .range lo.tree hi.tree (start.through stop) := by
  cases h with
  | tighter hl _ => exact (hl rfl).elim
  | binary op _ hop _ _ => cases op <;> cases hop
  | literal span hk =>
    obtain ⟨⟨⟩, -⟩ := List.cons.inj heq
    cases hk
  | name | hole | paren | tuple | map => cases heq
  | list _ stop hcommas hitems =>
    obtain ⟨⟨⟩, -⟩ := List.cons.inj heq
    exact .inl ⟨_, _, stop, hcommas, hitems, rfl, rfl⟩
  | @range ts₁ ts₂ lo hi _ dots stop hlo hhi =>
    obtain ⟨⟨⟩, -⟩ := List.cons.inj heq
    exact .inr ⟨⟨ts₁, lo⟩, ⟨ts₂, hi⟩, dots, stop, hlo, hhi, rfl, rfl⟩

theorem Derives.of_lbrace (h : Derives .atom ts e) (heq : ts ++ r = ⟨.symbol .lbrace, start⟩ :: x) :
    ∃ entries inside stop, Entries entries inside ∧ (∀ p ∈ entries, Derives .chain p.1.tokens p.1.tree) ∧
      (∀ p ∈ entries, Derives .chain p.2.tokens p.2.tree) ∧
      ts = ⟨.symbol .lbrace, start⟩ :: (inside ++ [⟨.symbol .rbrace, stop⟩]) ∧
      e = .map (entries.map fun p => (p.1.tree, p.2.tree)) (start.through stop) := by
  cases h with
  | tighter hl _ => exact (hl rfl).elim
  | binary op _ hop _ _ => cases op <;> cases hop
  | literal span hk =>
    obtain ⟨⟨⟩, -⟩ := List.cons.inj heq
    cases hk
  | name | hole | paren | tuple | list | range => cases heq
  | map _ stop hentries hkeys hvalues =>
    obtain ⟨⟨⟩, -⟩ := List.cons.inj heq
    exact ⟨_, _, stop, hentries, hkeys, hvalues, rfl, rfl⟩

theorem passes_atom (h : ∀ ts' e' r r', Derives .atom ts' e' → ts ++ r = ts' ++ r' → ts = ts' ∧ e = e') :
    Passes .atom ts e := by
  intro ts' e' r r' hd heq _ _
  obtain ⟨rfl, rfl⟩ := h ts' e' r r' hd heq
  exact ⟨[], by simp, .refl e⟩

theorem passes_leaf {t : Token} (ht : leaf? t = some e) : Passes .atom [t] e := by
  refine passes_atom fun ts' e' r r' hd heq => ?_
  obtain ⟨rfl, rfl⟩ := hd.of_leaf ht heq.symm
  exact ⟨rfl, rfl⟩

theorem passes_round {elems : List Phrase} (start stop : Span) (hcommas : Commas elems inside)
    (helems : ∀ p ∈ elems, Derives .chain p.tokens p.tree)
    (hpass : ∀ p ∈ elems, Passes .chain p.tokens p.tree) :
    Passes .atom (⟨.symbol .lparen, start⟩ :: (inside ++ [⟨.symbol .rparen, stop⟩]))
      (round elems (start.through stop)) := by
  refine passes_atom fun ts' e' r r' hd heq => ?_
  obtain ⟨elems', inside', stop', hcommas', helems', rfl, rfl⟩ := hd.of_lparen heq.symm
  obtain ⟨rfl, rfl, hstop, -⟩ := hcommas.unique hcommas' helems hpass helems' (shuts_symbol .rparen stop rfl)
    (shuts_symbol .rparen stop' rfl) (by simpa using heq)
  cases hstop
  exact ⟨rfl, rfl⟩

theorem passes_list {items : List Phrase} (start stop : Span) (hcommas : Commas items inside)
    (hitems : ∀ p ∈ items, Derives .chain p.tokens p.tree)
    (hpass : ∀ p ∈ items, Passes .chain p.tokens p.tree) :
    Passes .atom (⟨.symbol .lbracket, start⟩ :: (inside ++ [⟨.symbol .rbracket, stop⟩]))
      (.list (items.map (·.tree)) (start.through stop)) := by
  refine passes_atom fun ts' e' r r' hd heq => ?_
  obtain ⟨items', inside', stop', hcommas', hitems', rfl, rfl⟩ |
    ⟨lo, hi, dots, stop', hlo, hhi, rfl, rfl⟩ := hd.of_lbracket heq.symm
  · obtain ⟨rfl, rfl, hstop, -⟩ := hcommas.unique hcommas' hitems hpass hitems' (shuts_symbol .rbracket stop rfl)
      (shuts_symbol .rbracket stop' rfl) (by simpa using heq)
    cases hstop
    exact ⟨rfl, rfl⟩
  -- the first phrase of a list and that of a range are the same one, but what follows is not
  · obtain ⟨-, -, hstop, -⟩ := hcommas.unique (.last lo) hitems hpass (by simpa using hlo)
      (shuts_symbol .rbracket stop rfl) (shuts_symbol .dotDot dots rfl) (by simpa using heq)
    cases hstop

theorem passes_range (lo hi : Phrase) (start dots stop : Span) (hlo : Derives .chain lo.tokens lo.tree)
    (hloPass : Passes .chain lo.tokens lo.tree) (hhiPass : Passes .chain hi.tokens hi.tree) :
    Passes .atom (⟨.symbol .lbracket, start⟩ ::
      (lo.tokens ++ ⟨.symbol .dotDot, dots⟩ :: (hi.tokens ++ [⟨.symbol .rbracket, stop⟩])))
      (.range lo.tree hi.tree (start.through stop)) := by
  refine passes_atom fun ts' e' r r' hd heq => ?_
  obtain ⟨items', inside', stop', hcommas', hitems', rfl, rfl⟩ |
    ⟨lo', hi', dots', stop', hlo', hhi', rfl, rfl⟩ := hd.of_lbracket heq.symm
  · obtain ⟨-, -, hstop, -⟩ := (Commas.last lo).unique hcommas' (by simpa using hlo)
      (by simpa using hloPass) hitems' (shuts_symbol .dotDot dots rfl) (shuts_symbol .rbracket stop' rfl)
      (by simpa using heq)
    cases hstop
  · have hinside := (List.cons.inj heq).2
    simp only [List.append_eq, List.append_assoc, List.cons_append] at hinside
    obtain ⟨rfl, hrest⟩ := hloPass.phrase_eq hlo' hinside (ends_cons_of_none rfl) (ends_cons_of_none rfl)
    obtain ⟨hdots, hhis⟩ := List.cons.inj hrest
    obtain ⟨rfl, hstops⟩ := hhiPass.phrase_eq hhi' hhis (ends_cons_of_none rfl) (ends_cons_of_none rfl)
    obtain ⟨hstop, -⟩ := List.cons.inj hstops
    exact ⟨by rw [hdots, hstop], by rw [(Token.mk.inj hstop).2]⟩

theorem passes_map {entries : List (Phrase × Phrase)} (start stop : Span)
    (hentries : Entries entries inside) (hkeys : ∀ p ∈ entries, Derives .chain p.1.tokens p.1.tree)
    (hkeysPass : ∀ p ∈ entries, Passes .chain p.1.tokens p.1.tree)
    (hvaluesPass : ∀ p ∈ entries, Passes .chain p.2.tokens p.2.tree) :
    Passes .atom (⟨.symbol .lbrace, start⟩ :: (inside ++ [⟨.symbol .rbrace, stop⟩]))
      (.map (entries.map fun p => (p.1.tree, p.2.tree)) (start.through stop)) := by
  refine passes_atom fun ts' e' r r' hd heq => ?_
  obtain ⟨entries', inside', stop', hentries', hkeys', hvalues', rfl, rfl⟩ := hd.of_lbrace heq.symm
  obtain ⟨rfl, rfl, rfl, -⟩ := hentries.unique hentries' hkeys hkeysPass hvaluesPass hkeys' hvalues'
    (by simpa using heq)
  exact ⟨rfl, rfl⟩

end Atoms

/-! ### Phrases of every level -/

section Signs

variable {l : Level} {ts ts' inside : Tokens} {e e' : Expr}

theorem passes_stage {stage : Expr} (sign : Span) (h : Passes .chain ts e) (h' : Passes .or ts' stage)
    (hadd : addStage e stage = e') : Passes .chain (ts ++ ⟨.symbol .pipe, sign⟩ :: ts') e' := by
  refine h.append rfl fun us d r r' hadds heq hr hr' => ?_
  cases hadds with
  | stage sign' hd =>
    obtain ⟨hsign, hrest⟩ := List.cons.inj heq
    obtain ⟨rfl, rfl, -⟩ := h'.unique hd hrest hr hr'
    exact ⟨by rw [hsign], hadd⟩
  | binary op _ hop _ => cases op <;> cases hop

theorem passes_binary {op : BinaryOp} (sign : Span) (hop : level? op.kind = some l) (h : Passes l ts e)
    (h' : Passes l.tighter ts' e') :
    Passes l (ts ++ ⟨op.kind, sign⟩ :: ts') (.binary e op e' (e.span.through e'.span)) := by
  refine h.append hop fun us d r r' hadds heq hr hr' => ?_
  cases hadds with
  | stage | call | index | member => cases op <;> cases hop
  | binary op' sign' hop' hd =>
    obtain ⟨hsign, hrest⟩ := List.cons.inj heq
    obtain ⟨rfl, rfl, -⟩ := h'.unique hd hrest hr hr'
    obtain rfl := BinaryOp.kind_injective (Token.mk.inj hsign).1
    exact ⟨by rw [hsign], rfl⟩

theorem passes_unary {op : UnaryOp} (sign : Span) (h : Passes .unary ts e) :
    Passes .unary (⟨op.kind, sign⟩ :: ts) (.unary op e (sign.through e.span)) := by
  intro us d r r' hd heq hr hr'
  cases hd with
  | tighter _ hd => exact (hd.append_ne_unary (by decide) op sign _ _ heq.symm).elim
  | binary op' _ hop' _ _ => cases op' <;> cases hop'
  | unary op' sign' hd =>
    obtain ⟨hsign, hrest⟩ := List.cons.inj heq
    obtain ⟨rfl, rfl, -⟩ := h.unique hd hrest hr.unary hr'
    obtain ⟨hkind, rfl⟩ := Token.mk.inj hsign
    obtain rfl := UnaryOp.kind_injective hkind
    exact ⟨[], by simp, .refl _⟩

theorem passes_call {args : List Phrase} (start stop : Span) (h : Passes .suffix ts e)
    (hcommas : Commas args inside) (hargs : ∀ p ∈ args, Derives .chain p.tokens p.tree)
    (hpass : ∀ p ∈ args, Passes .chain p.tokens p.tree) :
    Passes .suffix (ts ++ ⟨.symbol .lparen, start⟩ :: (inside ++ [⟨.symbol .rparen, stop⟩]))
      (.call e (args.map (·.tree)) (e.span.through stop)) := by
  refine h.append rfl fun us d r r' hadds heq _ _ => ?_
  cases hadds with
  | binary op _ hop _ => cases op <;> cases hop
  | index | member => cases heq
  | call start' stop' hcommas' hargs' =>
    obtain ⟨hstart, hrest⟩ := List.cons.inj heq
    obtain ⟨rfl, rfl, hstop, -⟩ := hcommas.unique hcommas' hargs hpass hargs' (shuts_symbol .rparen stop rfl)
      (shuts_symbol .rparen stop' rfl) (by simpa using hrest)
    exact ⟨by rw [hstart, hstop], by rw [(Token.mk.inj hstop).2]⟩

theorem passes_index {key : Expr} (start stop : Span) (h : Passes .suffix ts e)
    (hkey : Passes .chain inside key) :
    Passes .suffix (ts ++ ⟨.symbol .lbracket, start⟩ :: (inside ++ [⟨.symbol .rbracket, stop⟩]))
      (.index e key (e.span.through stop)) := by
  refine h.append rfl fun us d r r' hadds heq _ _ => ?_
  cases hadds with
  | binary op _ hop _ => cases op <;> cases hop
  | call | member => cases heq
  | index start' stop' hkey' =>
    obtain ⟨hstart, hrest⟩ := List.cons.inj heq
    simp only [List.append_eq, List.append_assoc] at hrest
    obtain ⟨rfl, rfl, hstops⟩ := hkey.unique hkey' hrest (ends_cons_of_none rfl) (ends_cons_of_none rfl)
    obtain ⟨hstop, -⟩ := List.cons.inj hstops
    exact ⟨by rw [hstart, hstop], by rw [(Token.mk.inj hstop).2]⟩

theorem passes_member (dot : Span) (name : Ident) (h : Passes .suffix ts e)
    (hadd : addMember e name = e') :
    Passes .suffix (ts ++ [⟨.symbol .dot, dot⟩, ⟨.ident name.text, name.span⟩]) e' := by
  refine h.append rfl fun us d r r' hadds heq _ _ => ?_
  cases hadds with
  | binary op _ hop _ => cases op <;> cases hop
  | call | index => cases heq
  | member dot' name' =>
    obtain ⟨rfl, ⟨htext, hspan⟩, -⟩ :
        dot = dot' ∧ (name.text = name'.text ∧ name.span = name'.span) ∧ r = r' := by simpa using heq
    obtain rfl : name = name' := congr (congrArg Ident.mk htext) hspan
    exact ⟨rfl, hadd⟩

end Signs

theorem Derives.passes {l : Level} {ts : Tokens} {e : Expr} (h : Derives l ts e) : Passes l ts e := by
  induction h with
  | tighter hl h ih => exact ih.looser hl h
  | chain sign h₁ h₂ ih₁ ih₂ =>
    exact passes_stage sign (Passes.looser (l := .chain) nofun h₁ ih₁) ih₂
      (addStage_of_ne (h₁.ne_compose nofun))
  | stage sign h₁ h₂ ih₁ ih₂ => exact passes_stage sign ih₁ ih₂ rfl
  | binary op sign hop h₁ h₂ ih₁ ih₂ => exact passes_binary sign hop ih₁ ih₂
  | unary op sign h ih => exact passes_unary sign ih
  | call start stop h hcommas hargs ih ihargs => exact passes_call start stop ih hcommas hargs ihargs
  | index start stop h hkey ih ihkey => exact passes_index start stop ih ihkey
  | member dot name h he ih => exact passes_member dot name ih (addMember_of_ne he)
  | members dot name h ih => exact passes_member dot name ih rfl
  | literal span hk => exact passes_leaf (leaf?_of_literal? hk span)
  | name id hid => exact passes_leaf (if_neg hid)
  | hole span => exact passes_leaf rfl
  | @paren ts e start stop h ih =>
    exact passes_round start stop (.last ⟨ts, e⟩) (by simpa using h) (by simpa using ih)
  | tuple start stop hcommas hlen helems ih =>
    rw [← round_of_length_ne hlen]
    exact passes_round start stop hcommas helems ih
  | list start stop hcommas hitems ih => exact passes_list start stop hcommas hitems ih
  | @range ts₁ ts₂ lo hi start dots stop hlo hhi ihlo ihhi =>
    exact passes_range ⟨ts₁, lo⟩ ⟨ts₂, hi⟩ start dots stop hlo ihlo ihhi
  | map start stop hentries hkeys hvalues ihkeys ihvalues =>
    exact passes_map start stop hentries hkeys ihkeys ihvalues

/-- The grammar is unambiguous: at each level, tokens have one tree. -/
theorem Derives.tree_unique {l : Level} {ts : Tokens} {e e' : Expr} (h : Derives l ts e)
    (h' : Derives l ts e') : e = e' := by
  obtain ⟨-, htree, -⟩ := h.passes.unique h' (rfl : ts ++ [] = ts ++ []) nofun nofun
  exact htree

end Sluice.Parser
