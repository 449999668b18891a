import Sluice.Proofs.Parser.Unambiguous

/-! Expressions are read as the layered grammar has them. Precedence climbing reads a phrase from the left: where
the tokens of a phrase end, its tree is what has been read so far, with every power with which its level is
read. So each rule of the grammar is one step of the parser, and a phrase that cannot go on is read whole. -/
namespace Sluice.Parser

/-! ### Levels and binding powers -/

def Level.strength (l : Level) : Nat := 2 * (l.rank + 1)

theorem strength_lt {l m : Level} : l.strength < m.strength ↔ l.rank < m.rank := by
  unfold Level.strength
  omega

theorem strength_tighter {l : Level} (hl : l ≠ .atom) : l.tighter.strength = l.strength + 2 := by
  rw [Level.strength, Level.rank_tighter hl, Level.strength, Nat.mul_succ 2 (l.rank + 1)]

theorem strength_le_tighter (l : Level) : l.strength ≤ l.tighter.strength :=
  Nat.mul_le_mul_left 2 (Nat.succ_le_succ l.rank_le_tighter)

theorem binaryOp?_kind {op : BinaryOp} {l : Level} (h : level? op.kind = some l) :
    binaryOp? op.kind = some (op, l.strength) := by
  cases op <;> cases h <;> rfl

theorem exists_level {k : Token.Kind} {op : BinaryOp} {p : Nat} (h : binaryOp? k = some (op, p)) :
    ∃ m, level? k = some m ∧ m.strength = p := by
  unfold binaryOp? at h
  split at h <;> cases h <;> exact ⟨_, rfl, rfl⟩

/-- An expression that is read with the power `q` goes on with the signs of the level `l` and of the tighter
ones, and with no others. -/
structure Level.Cuts (l : Level) (q : Nat) : Prop where
  ne_atom : l ≠ .atom
  le : q ≤ l.strength
  lt : ∀ m : Level, m.rank < l.rank → m.strength < q

theorem cuts_chain : Level.chain.Cuts 0 := ⟨nofun, Nat.zero_le _, fun _ h => absurd h (Nat.not_lt_zero _)⟩

theorem cuts_unary : Level.unary.Cuts unaryPower :=
  ⟨nofun, Nat.le_refl _, fun _ h => strength_lt.2 h⟩

/-- The right operand of a sign. -/
theorem cuts_tighter {l : Level} (hatom : l ≠ .atom) (hsuffix : l ≠ .suffix) :
    l.tighter.Cuts (l.strength + 1) where
  ne_atom := by cases l <;> first | exact (hatom rfl).elim | exact (hsuffix rfl).elim | nofun
  le := by
    rw [strength_tighter hatom]
    exact Nat.le_succ _
  lt m hm := by
    rw [Level.rank_tighter hatom] at hm
    unfold Level.strength
    omega

/-! ### One sign -/

section Operators

variable {depth q : Nat} {whole r rest : Tokens} {lhs : Expr} {s : Span}

/-- Where a phrase ends, nothing is added to it. -/
theorem operators_of_ends {l : Level} (hcuts : l.Cuts q) (hends : Ends l rest)
    (h : rest.length < whole.length) :
    operators depth q whole lhs rest h = .ok ⟨lhs, rest, h⟩ := by
  cases rest with
  | nil => rw [operators]; rfl
  | cons t rest =>
    have hlevel : ∀ m, level? t.kind = some m → m.strength < q := fun m hm =>
      hcuts.lt m (hends t rfl m hm)
    have hsuffix : ¬ Level.suffix.rank < l.rank := by
      have := Level.rank_lt_atom hcuts.ne_atom
      exact Nat.not_lt.2 (Nat.le_of_lt_succ this)
    obtain ⟨k, s⟩ := t
    rw [operators]
    simp only [next]
    split
    · exact (hsuffix (hends _ rfl .suffix rfl)).elim
    · exact (hsuffix (hends _ rfl .suffix rfl)).elim
    · exact (hsuffix (hends _ rfl .suffix rfl)).elim
    · exact if_pos (hlevel .chain rfl)
    · split
      · rfl
      next op p hop =>
        obtain ⟨m, hm, rfl⟩ := exists_level hop
        exact if_pos (hlevel m hm)

theorem operators_binary {op : BinaryOp} {l : Level} {rhs : Expr} {hr : rest.length < r.length}
    (hop : level? op.kind = some l) (hq : q ≤ l.strength)
    (hrhs : expr depth (l.strength + 1) r = .ok ⟨rhs, rest, hr⟩)
    (h : (⟨op.kind, s⟩ :: r : Tokens).length < whole.length) (h' : rest.length < whole.length) :
    operators depth q whole lhs (⟨op.kind, s⟩ :: r) h =
      operators depth q whole (.binary lhs op rhs (lhs.span.through rhs.span)) rest h' := by
  have hbinary := binaryOp?_kind hop
  rw [operators]
  simp only [next]
  generalize op.kind = k at hbinary
  split
  · cases hbinary
  · cases hbinary
  · cases hbinary
  · cases hbinary
  · simp only [hbinary, if_neg (Nat.not_lt.2 hq), hrhs, bind, Except.bind]

theorem operators_stage {stage : Expr} {hr : rest.length < r.length} (hq : q ≤ pipePower)
    (hstage : expr depth (pipePower + 1) r = .ok ⟨stage, rest, hr⟩)
    (h : (⟨.symbol .pipe, s⟩ :: r : Tokens).length < whole.length) (h' : rest.length < whole.length) :
    operators depth q whole lhs (⟨.symbol .pipe, s⟩ :: r) h =
      operators depth q whole (addStage lhs stage) rest h' := by
  rw [operators]
  simp only [next, if_neg (Nat.not_lt.2 hq), hstage, bind, Except.bind]

theorem operators_call {args : List Expr} {stop : Span} {hr : rest.length < _}
    (hargs : callArgs depth (⟨.symbol .lparen, s⟩ :: r) [] r (Nat.lt_succ_self _) =
      .ok ⟨(args, stop), rest, hr⟩)
    (h : (⟨.symbol .lparen, s⟩ :: r : Tokens).length < whole.length) (h' : rest.length < whole.length) :
    operators depth q whole lhs (⟨.symbol .lparen, s⟩ :: r) h =
      operators depth q whole (.call lhs args (lhs.span.through stop)) rest h' := by
  rw [operators]
  simp only [next, hargs, bind, Except.bind]

theorem operators_index {key : Expr} {stop : Span} {hr : _}
    (hkey : expr depth 0 r = .ok ⟨key, ⟨.symbol .rbracket, stop⟩ :: rest, hr⟩)
    (h : (⟨.symbol .lbracket, s⟩ :: r : Tokens).length < whole.length) (h' : rest.length < whole.length) :
    operators depth q whole lhs (⟨.symbol .lbracket, s⟩ :: r) h =
      operators depth q whole (.index lhs key (lhs.span.through stop)) rest h' := by
  rw [operators]
  simp only [next, hkey, expect_cons_self, bind, Except.bind]

theorem operators_member {name : Ident}
    (h : (⟨.symbol .dot, s⟩ :: ⟨.ident name.text, name.span⟩ :: rest : Tokens).length < whole.length)
    (h' : rest.length < whole.length) :
    operators depth q whole lhs (⟨.symbol .dot, s⟩ :: ⟨.ident name.text, name.span⟩ :: rest) h =
      operators depth q whole (addMember lhs name) rest h' := by
  rw [operators]
  simp only [next, ident, bind, Except.bind]

end Operators

/-! ### Phrases in brackets -/

/-- An expression with the tokens `p.tokens` is read as `p.tree` wherever a phrase may end. -/
structure Phrase.Reads (p : Phrase) : Prop where
  exists_first : ∃ t us, p.tokens = t :: us ∧ closes t.kind = false
  expr_eq : ∀ (depth : Nat) (rest : Tokens), Ends .chain rest → depth + p.tree.nesting ≤ maxNesting →
    ∃ h, expr depth 0 (p.tokens ++ rest) = .ok ⟨p.tree, rest, h⟩

theorem Phrase.Reads.eat_eq_none {p : Phrase} (hp : p.Reads) {s : Symbol}
    (hs : closes (.symbol s) = true) (rest : Tokens) : eat s (p.tokens ++ rest) = none := by
  obtain ⟨⟨k, span⟩, us, htokens, hk⟩ := hp.exists_first
  have hne : k ≠ .symbol s := by
    rintro rfl
    exact absurd hs (by simp [show closes (.symbol s) = false from hk])
  rw [htokens, List.cons_append, Parser.eat_eq_none hne]

theorem Phrase.Reads.isAt_eq_false {p : Phrase} (hp : p.Reads) {s : Symbol}
    (hs : closes (.symbol s) = true) (rest : Tokens) : isAt s (p.tokens ++ rest) = false := by
  rw [isAt, hp.eat_eq_none hs, Option.isSome_none]

section Brackets

variable {ps : List Phrase} {ts : Tokens} (depth : Nat) (stop : Span) (rest whole : Tokens)
  (seen : List Expr)

theorem callArgs_commas (hcommas : Commas ps ts) (hps : ∀ p ∈ ps, p.Reads)
    (hdepth : depth + Expr.nestingAll (ps.map (·.tree)) ≤ maxNesting)
    (h : (ts ++ ⟨.symbol .rparen, stop⟩ :: rest).length < whole.length) (h' : rest.length < whole.length) :
    callArgs depth whole seen (ts ++ ⟨.symbol .rparen, stop⟩ :: rest) h =
      .ok ⟨(seen.reverse ++ ps.map (·.tree), stop), rest, h'⟩ := by
  induction hcommas generalizing seen with
  | nil =>
    rw [callArgs]
    simp [pure, Except.pure]
  | last p =>
    rw [List.map_singleton, Expr.nestingAll, Expr.nestingAll] at hdepth
    have hp := hps p (List.mem_singleton_self p)
    obtain ⟨hr, hexpr⟩ := hp.expr_eq depth (⟨.symbol .rparen, stop⟩ :: rest) (ends_cons_of_none rfl)
      (by omega)
    have hopen := hp.eat_eq_none (s := .rparen) rfl (⟨.symbol .rparen, stop⟩ :: rest)
    rw [callArgs]
    simp [hopen, hexpr, bind, Except.bind, pure, Except.pure, Parser.eat_eq_none]
  | @cons p comma ps ts hcommas ih =>
    rw [List.map_cons, Expr.nestingAll] at hdepth
    obtain ⟨hp, hps⟩ := List.forall_mem_cons.1 hps
    simp only [List.append_assoc, List.cons_append] at h ⊢
    obtain ⟨hr, hexpr⟩ := hp.expr_eq depth
      (⟨.symbol .comma, comma⟩ :: (ts ++ ⟨.symbol .rparen, stop⟩ :: rest))
      (ends_cons_of_none rfl) (by omega)
    have hopen := hp.eat_eq_none (s := .rparen) rfl
      (⟨.symbol .comma, comma⟩ :: (ts ++ ⟨.symbol .rparen, stop⟩ :: rest))
    rw [callArgs]
    simp only [hopen, hexpr, eat_cons_self, bind, Except.bind]
    rw [ih _ hps (by omega)]
    simp

theorem exprList_commas (hcommas : Commas ps ts) (hps : ∀ p ∈ ps, p.Reads)
    (hdepth : depth + Expr.nestingAll (ps.map (·.tree)) ≤ maxNesting) (last : Bool)
    (h : (ts ++ ⟨.symbol .rparen, stop⟩ :: rest).length < whole.length)
    (h' : (⟨.symbol .rparen, stop⟩ :: rest : Tokens).length < whole.length) :
    ∃ trailing, exprList depth whole seen last (ts ++ ⟨.symbol .rparen, stop⟩ :: rest) h =
      .ok ⟨(seen.reverse ++ ps.map (·.tree), trailing), ⟨.symbol .rparen, stop⟩ :: rest, h'⟩ := by
  induction hcommas generalizing seen last with
  | nil =>
    refine ⟨last, ?_⟩
    rw [exprList]
    simp [pure, Except.pure]
  | last p =>
    rw [List.map_singleton, Expr.nestingAll, Expr.nestingAll] at hdepth
    have hp := hps p (List.mem_singleton_self p)
    obtain ⟨hr, hexpr⟩ := hp.expr_eq depth (⟨.symbol .rparen, stop⟩ :: rest) (ends_cons_of_none rfl)
      (by omega)
    refine ⟨false, ?_⟩
    rw [exprList, hp.isAt_eq_false rfl]
    simp [hexpr, bind, Except.bind, pure, Except.pure, Parser.eat_eq_none]
  | @cons p comma ps ts hcommas ih =>
    rw [List.map_cons, Expr.nestingAll] at hdepth
    obtain ⟨hp, hps⟩ := List.forall_mem_cons.1 hps
    simp only [List.append_assoc, List.cons_append] at h ⊢
    obtain ⟨hr, hexpr⟩ := hp.expr_eq depth
      (⟨.symbol .comma, comma⟩ :: (ts ++ ⟨.symbol .rparen, stop⟩ :: rest))
      (ends_cons_of_none rfl) (by omega)
    obtain ⟨trailing, hothers⟩ := ih (p.tree :: seen) hps (by omega) true
      (by simp only [List.length_cons, List.length_append] at h ⊢; omega)
    refine ⟨trailing, ?_⟩
    rw [exprList, hp.isAt_eq_false rfl]
    simp [hexpr, bind, Except.bind, hothers]

/-- The items of a list after the first one. -/
theorem listItems_commas {p : Phrase} (hcommas : Commas (p :: ps) ts) (hps : ∀ q ∈ ps, q.Reads)
    (hdepth : depth + Expr.nestingAll (ps.map (·.tree)) ≤ maxNesting) :
    ∃ us, ts = p.tokens ++ us ∧ Closed (us ++ ⟨.symbol .rbracket, stop⟩ :: rest) ∧
      ∀ whole seen h h', listItems depth whole seen (us ++ ⟨.symbol .rbracket, stop⟩ :: rest) h =
        .ok ⟨seen.reverse ++ ps.map (·.tree), ⟨.symbol .rbracket, stop⟩ :: rest, h'⟩ := by
  induction ps generalizing p ts with
  | nil =>
    cases hcommas with
    | last =>
      refine ⟨[], by simp, closed_cons rfl stop rest, fun whole seen h h' => ?_⟩
      rw [listItems]
      simp [eat_eq_none, pure, Except.pure]
    | cons _ comma hnone =>
      cases hnone
      refine ⟨[⟨.symbol .comma, comma⟩], rfl, closed_cons rfl comma _, fun whole seen h h' => ?_⟩
      rw [listItems]
      simp [pure, Except.pure]
  | cons q ps ih =>
    cases hcommas with
    | @cons _ comma _ ts hcommas =>
      rw [List.map_cons, Expr.nestingAll] at hdepth
      obtain ⟨hq, hps⟩ := List.forall_mem_cons.1 hps
      obtain ⟨us, rfl, hclosed, hothers⟩ := ih hcommas hps (by omega)
      refine ⟨⟨.symbol .comma, comma⟩ :: (q.tokens ++ us), rfl, closed_cons rfl comma _,
        fun whole seen h h' => ?_⟩
      obtain ⟨hr, hexpr⟩ := hq.expr_eq depth _ (ends_of_closed hclosed) (by omega)
      simp only [List.append_assoc, List.cons_append] at h ⊢
      rw [listItems]
      simp only [eat_cons_self]
      rw [hq.isAt_eq_false rfl]
      simp [hexpr, bind, Except.bind, hothers _ _ _ h']

theorem mapEntries_entries {es : List (Phrase × Phrase)} (seen : List (Expr × Expr))
    (hes : Entries es ts) (hkeys : ∀ e ∈ es, e.1.Reads) (hvalues : ∀ e ∈ es, e.2.Reads)
    (hdepth : depth + Expr.nestingEntries (es.map fun e => (e.1.tree, e.2.tree)) ≤ maxNesting)
    (h : (ts ++ ⟨.symbol .rbrace, stop⟩ :: rest).length < whole.length)
    (h' : (⟨.symbol .rbrace, stop⟩ :: rest : Tokens).length < whole.length) :
    mapEntries depth whole seen (ts ++ ⟨.symbol .rbrace, stop⟩ :: rest) h =
      .ok ⟨seen.reverse ++ es.map fun e => (e.1.tree, e.2.tree), ⟨.symbol .rbrace, stop⟩ :: rest, h'⟩ := by
  induction hes generalizing seen with
  | nil hseps =>
    rw [mapEntries_eq (skip_separators hseps ⟨_, _, rfl, rfl⟩) h']
    simp [pure, Except.pure]
  | @cons seps hseps key value colon es ts hes hnext ih =>
    rw [List.map_cons, Expr.nestingEntries] at hdepth
    obtain ⟨hkey, hkeys⟩ := List.forall_mem_cons.1 hkeys
    obtain ⟨hvalue, hvalues⟩ := List.forall_mem_cons.1 hvalues
    have hclosed := closed_of_separates hnext stop rest
    obtain ⟨hr₁, hexpr₁⟩ := hkey.expr_eq depth
      (⟨.symbol .colon, colon⟩ :: (value.tokens ++ (ts ++ ⟨.symbol .rbrace, stop⟩ :: rest)))
      (ends_cons_of_none rfl) (by omega)
    obtain ⟨hr₂, hexpr₂⟩ := hvalue.expr_eq depth (ts ++ ⟨.symbol .rbrace, stop⟩ :: rest)
      (ends_of_closed hclosed) (by omega)
    simp only [List.append_assoc, List.cons_append] at h ⊢
    have hfirst : ∃ t us, key.tokens ++ ⟨.symbol .colon, colon⟩ ::
        (value.tokens ++ (ts ++ ⟨.symbol .rbrace, stop⟩ :: rest)) = t :: us ∧ separates t.kind = false := by
      obtain ⟨t, us, htokens, ht⟩ := hkey.exists_first
      exact ⟨t, _, by rw [htokens]; rfl, separates_eq_false ht⟩
    rw [mapEntries_eq (skip_separators hseps hfirst)
      (by simp only [List.length_cons, List.length_append] at h ⊢; omega), hkey.isAt_eq_false rfl]
    simp only [hexpr₁, hexpr₂, expect_cons_self, bind, Except.bind, Bool.false_eq_true, if_false]
    rw [ih _ hkeys hvalues (by omega)]
    simp

end Brackets

/-! ### Phrases of every level -/

theorem Derives.shorter {l : Level} {ts : Tokens} {e : Expr} (h : Derives l ts e) (rest : Tokens) :
    rest.length < (ts ++ rest).length := by
  obtain ⟨t, us, rfl, -⟩ := h.exists_first
  rw [List.length_append, List.length_cons]
  omega

/-- An expression that starts with the tokens of a phrase is read up to the tree of this phrase, to which
operators and suffixes that follow are then added. -/
def Leads (l : Level) (ts : Tokens) (e : Expr) : Prop :=
  ∀ (depth q : Nat) (rest whole : Tokens) (h : rest.length < whole.length), whole = ts ++ rest →
    q ≤ l.strength → Ends l.tighter rest → depth + e.nesting ≤ maxNesting →
    expr depth q whole = operators (depth + 1) q whole e rest h

attribute [local simp] Expr.nesting Expr.nestingAll Expr.nestingStages

section Leads

variable {l : Level} {ts : Tokens} {e : Expr} {depth q : Nat} {rest : Tokens}

theorem expr_of_leads (hlead : Leads l ts e) (hcuts : l.Cuts q) (hends : Ends l rest)
    (hdepth : depth + e.nesting ≤ maxNesting) (h : rest.length < (ts ++ rest).length) :
    expr depth q (ts ++ rest) = .ok ⟨e, rest, h⟩ := by
  rw [hlead _ _ _ _ h rfl hcuts.le hends.tighter hdepth]
  exact operators_of_ends hcuts hends h

theorem reads_of_leads (hd : Derives .chain ts e) (hlead : Leads .chain ts e) : Phrase.Reads ⟨ts, e⟩ where
  exists_first := by
    obtain ⟨t, us, rfl, hstarts, -⟩ := hd.exists_first
    exact ⟨t, us, rfl, closes_of_startsPhrase hstarts⟩
  expr_eq _ rest hends hdepth := ⟨hd.shorter rest, expr_of_leads hlead cuts_chain hends hdepth _⟩

theorem Leads.looser (hlead : Leads l.tighter ts e) : Leads l ts e :=
  fun _ _ _ _ h hwhole hq hends hdepth =>
    hlead _ _ _ _ h hwhole (Nat.le_trans hq (strength_le_tighter l)) hends.tighter hdepth

/-- What stands before the first operator or suffix. -/
theorem leads_of_operand (he : 0 < e.nesting)
    (hoperand : ∀ (depth : Nat) (rest whole : Tokens) (h : rest.length < whole.length), whole = ts ++ rest →
      Ends l.tighter rest → depth + e.nesting ≤ maxNesting →
      operand (depth + 1) whole = .ok ⟨e, rest, h⟩) : Leads l ts e := by
  intro depth q rest whole h hwhole _ hends hdepth
  rw [expr, if_neg (Nat.not_le.2 (by omega)), hoperand depth rest whole h hwhole hends hdepth]
  rfl

/-- A phrase goes on with a sign of its level and what belongs to the sign. -/
theorem leads_append {sign : Token} {more : Tokens} {e' : Expr} (hd : Derives l ts e)
    (hlead : Leads l ts e) (hsign : level? sign.kind = some l) (hnest : e.nesting ≤ e'.nesting)
    (hstep : ∀ (depth q : Nat) (rest whole us : Tokens) (h : (sign :: us).length < whole.length)
      (h' : rest.length < whole.length), us = more ++ rest → q ≤ l.strength → Ends l.tighter rest →
      depth + e'.nesting ≤ maxNesting → operators (depth + 1) q whole e (sign :: us) h =
        operators (depth + 1) q whole e' rest h') :
    Leads l (ts ++ sign :: more) e' := by
  rintro depth q rest _ h rfl hq hends hdepth
  have hwhole : ts ++ sign :: more ++ rest = ts ++ sign :: (more ++ rest) := by simp
  rw [hlead _ _ _ _ (hwhole ▸ hd.shorter _) hwhole hq (ends_tighter_cons hsign) (by omega)]
  exact hstep _ _ _ _ _ _ h rfl hq hends hdepth

theorem leads_unary (op : UnaryOp) (sign : Span) (hd : Derives .unary ts e) (hlead : Leads .unary ts e) :
    Leads .unary (⟨op.kind, sign⟩ :: ts) (.unary op e (sign.through e.span)) := by
  refine leads_of_operand (by simp) ?_
  rintro depth rest _ hr rfl hends hdepth
  rw [Expr.nesting] at hdepth
  have hexpr : expr (depth + 1) unaryPower (ts ++ rest) = .ok ⟨e, rest, hd.shorter rest⟩ :=
    expr_of_leads hlead cuts_unary hends.unary (by omega) _
  simp only [List.cons_append]
  rw [operand]
  simp [next, hexpr, bind, Except.bind, pure, Except.pure]

theorem leads_stage {e' stage : Expr} {ts' : Tokens} (sign : Span) (hd : Derives .chain ts e)
    (hlead : Leads .chain ts e) (hd' : Derives .or ts' stage) (hlead' : Leads .or ts' stage)
    (hadd : addStage e stage = e') (hnest : e'.nesting = max e.nesting (stage.nesting + 1)) :
    Leads .chain (ts ++ ⟨.symbol .pipe, sign⟩ :: ts') e' := by
  refine leads_append hd hlead rfl (by omega) ?_
  rintro depth q rest whole _ h h' rfl hq hends hdepth
  have hstage : expr (depth + 1) (pipePower + 1) (ts' ++ rest) = .ok ⟨stage, rest, hd'.shorter rest⟩ :=
    expr_of_leads hlead' (cuts_tighter (l := .chain) nofun nofun) hends (by omega) _
  rw [operators_stage hq hstage h h', hadd]

theorem leads_binary {e' : Expr} {ts' : Tokens} {op : BinaryOp} (sign : Span)
    (hop : level? op.kind = some l) (hd : Derives l ts e) (hlead : Leads l ts e)
    (hd' : Derives l.tighter ts' e') (hlead' : Leads l.tighter ts' e') :
    Leads l (ts ++ ⟨op.kind, sign⟩ :: ts') (.binary e op e' (e.span.through e'.span)) := by
  have hcuts : l.tighter.Cuts (l.strength + 1) := by
    cases op <;> cases hop <;> exact cuts_tighter nofun nofun
  refine leads_append hd hlead hop (by rw [Expr.nesting]; omega) ?_
  rintro depth q rest whole _ h h' rfl hq hends hdepth
  rw [Expr.nesting] at hdepth
  exact operators_binary hop hq (expr_of_leads hlead' hcuts hends (by omega)
    (hd'.shorter rest)) h h'

theorem leads_call {args : List Phrase} {inside : Tokens} (start stop : Span) (hd : Derives .suffix ts e)
    (hlead : Leads .suffix ts e) (hcommas : Commas args inside) (hargs : ∀ p ∈ args, p.Reads) :
    Leads .suffix (ts ++ ⟨.symbol .lparen, start⟩ :: (inside ++ [⟨.symbol .rparen, stop⟩]))
      (.call e (args.map (·.tree)) (e.span.through stop)) := by
  refine leads_append hd hlead rfl (by rw [Expr.nesting]; omega) ?_
  intro depth q rest whole us h h' hus _ _ hdepth
  obtain rfl : us = inside ++ ⟨.symbol .rparen, stop⟩ :: rest := by simpa using hus
  rw [Expr.nesting] at hdepth
  exact operators_call (callArgs_commas _ _ _ _ _ hcommas hargs (by omega) _
    (by simp only [List.length_cons, List.length_append]; omega)) h h'

theorem leads_index {key : Expr} {inside : Tokens} (start stop : Span) (hd : Derives .suffix ts e)
    (hlead : Leads .suffix ts e) (hkey : Phrase.Reads ⟨inside, key⟩) :
    Leads .suffix (ts ++ ⟨.symbol .lbracket, start⟩ :: (inside ++ [⟨.symbol .rbracket, stop⟩]))
      (.index e key (e.span.through stop)) := by
  refine leads_append hd hlead rfl (by rw [Expr.nesting]; omega) ?_
  intro depth q rest whole us h h' hus _ _ hdepth
  obtain rfl : us = inside ++ ⟨.symbol .rbracket, stop⟩ :: rest := by simpa using hus
  rw [Expr.nesting] at hdepth
  obtain ⟨_, hexpr⟩ := hkey.expr_eq (depth + 1) (⟨.symbol .rbracket, stop⟩ :: rest)
    (ends_cons_of_none rfl) (by simp only; omega)
  exact operators_index hexpr h h'

theorem leads_member {e' : Expr} (dot : Span) (name : Ident) (hd : Derives .suffix ts e)
    (hlead : Leads .suffix ts e) (hadd : addMember e name = e') (hnest : e'.nesting = e.nesting) :
    Leads .suffix (ts ++ [⟨.symbol .dot, dot⟩, ⟨.ident name.text, name.span⟩]) e' := by
  refine leads_append hd hlead rfl (Nat.le_of_eq hnest.symm) ?_
  rintro depth q rest whole _ h h' rfl _ _ _
  exact hadd ▸ operators_member h h'

theorem leads_paren (start stop : Span) (hinner : Phrase.Reads ⟨ts, e⟩) :
    Leads .atom (⟨.symbol .lparen, start⟩ :: (ts ++ [⟨.symbol .rparen, stop⟩]))
      (.paren e (start.through stop)) := by
  refine leads_of_operand (by simp) ?_
  intro depth rest whole h hwhole _ hdepth
  obtain rfl : whole = ⟨.symbol .lparen, start⟩ :: (ts ++ ⟨.symbol .rparen, stop⟩ :: rest) := by
    simpa using hwhole
  rw [Expr.nesting] at hdepth
  obtain ⟨_, hexpr⟩ := hinner.expr_eq (depth + 1) (⟨.symbol .rparen, stop⟩ :: rest)
    (ends_cons_of_none rfl) (by simp only; omega)
  have hopen := hinner.isAt_eq_false (s := .rparen) rfl (⟨.symbol .rparen, stop⟩ :: rest)
  simp only at hexpr hopen
  rw [operand]
  simp only [next, unaryOp?, literal?]
  rw [exprList, hopen]
  simp [hexpr, bind, Except.bind, pure, Except.pure, eat_eq_none]

theorem leads_tuple {elems : List Phrase} {inside : Tokens} (start stop : Span)
    (hcommas : Commas elems inside) (hlen : elems.length ≠ 1) (helems : ∀ p ∈ elems, p.Reads) :
    Leads .atom (⟨.symbol .lparen, start⟩ :: (inside ++ [⟨.symbol .rparen, stop⟩]))
      (.tuple (elems.map (·.tree)) (start.through stop)) := by
  refine leads_of_operand (by simp) ?_
  intro depth rest whole h hwhole _ hdepth
  obtain rfl : whole = ⟨.symbol .lparen, start⟩ :: (inside ++ ⟨.symbol .rparen, stop⟩ :: rest) := by
    simpa using hwhole
  rw [Expr.nesting] at hdepth
  obtain ⟨_, hlist⟩ := exprList_commas (depth + 1) stop rest
    (⟨.symbol .lparen, start⟩ :: (inside ++ ⟨.symbol .rparen, stop⟩ :: rest)) [] hcommas helems (by omega)
    false (Nat.lt_succ_self _) (by simp only [List.length_cons, List.length_append]; omega)
  exact operand_tuple (by simpa using hlen) hlist

theorem leads_list {items : List Phrase} {inside : Tokens} (start stop : Span)
    (hcommas : Commas items inside) (hitems : ∀ p ∈ items, p.Reads) :
    Leads .atom (⟨.symbol .lbracket, start⟩ :: (inside ++ [⟨.symbol .rbracket, stop⟩]))
      (.list (items.map (·.tree)) (start.through stop)) := by
  refine leads_of_operand (by simp) ?_
  intro depth rest whole h hwhole _ hdepth
  rw [Expr.nesting] at hdepth
  cases items with
  | nil =>
    cases hcommas
    obtain rfl : whole = ⟨.symbol .lbracket, start⟩ :: ⟨.symbol .rbracket, stop⟩ :: rest := by
      simpa using hwhole
    exact operand_nil
  | cons p items =>
    rw [List.map_cons, Expr.nestingAll] at hdepth
    obtain ⟨hp, hitems⟩ := List.forall_mem_cons.1 hitems
    obtain ⟨us, rfl, hclosed, hothers⟩ := listItems_commas (depth + 1) stop rest hcommas hitems
      (by omega)
    obtain rfl : whole = ⟨.symbol .lbracket, start⟩ ::
        (p.tokens ++ (us ++ ⟨.symbol .rbracket, stop⟩ :: rest)) := by simpa using hwhole
    obtain ⟨hr, hexpr⟩ := hp.expr_eq (depth + 1) _ (ends_of_closed hclosed) (by omega)
    exact operand_list (hp.isAt_eq_false rfl _) hexpr hclosed (hothers _ [p.tree] hr
      (by simp only [List.length_cons, List.length_append] at hr ⊢; omega))

theorem leads_range {lo hi : Phrase} (start dots stop : Span) (hlo : lo.Reads) (hhi : hi.Reads) :
    Leads .atom (⟨.symbol .lbracket, start⟩ ::
      (lo.tokens ++ ⟨.symbol .dotDot, dots⟩ :: (hi.tokens ++ [⟨.symbol .rbracket, stop⟩])))
      (.range lo.tree hi.tree (start.through stop)) := by
  refine leads_of_operand (by simp) ?_
  intro depth rest whole h hwhole _ hdepth
  obtain rfl : whole = ⟨.symbol .lbracket, start⟩ ::
      (lo.tokens ++ ⟨.symbol .dotDot, dots⟩ :: (hi.tokens ++ ⟨.symbol .rbracket, stop⟩ :: rest)) := by
    simpa using hwhole
  rw [Expr.nesting] at hdepth
  obtain ⟨_, hexpr₁⟩ := hlo.expr_eq (depth + 1)
    (⟨.symbol .dotDot, dots⟩ :: (hi.tokens ++ ⟨.symbol .rbracket, stop⟩ :: rest))
    (ends_cons_of_none rfl) (by omega)
  obtain ⟨_, hexpr₂⟩ := hhi.expr_eq (depth + 1) (⟨.symbol .rbracket, stop⟩ :: rest)
    (ends_cons_of_none rfl) (by omega)
  have hopen := hlo.eat_eq_none (s := .rbracket) rfl
    (⟨.symbol .dotDot, dots⟩ :: (hi.tokens ++ ⟨.symbol .rbracket, stop⟩ :: rest))
  rw [operand]
  simp [next, unaryOp?, literal?, hopen, hexpr₁, hexpr₂, bind, Except.bind, pure, Except.pure]

theorem leads_map {entries : List (Phrase × Phrase)} {inside : Tokens} (start stop : Span)
    (hentries : Entries entries inside) (hkeys : ∀ p ∈ entries, p.1.Reads)
    (hvalues : ∀ p ∈ entries, p.2.Reads) :
    Leads .atom (⟨.symbol .lbrace, start⟩ :: (inside ++ [⟨.symbol .rbrace, stop⟩]))
      (.map (entries.map fun p => (p.1.tree, p.2.tree)) (start.through stop)) := by
  refine leads_of_operand (by simp) ?_
  intro depth rest whole h hwhole _ hdepth
  obtain rfl : whole = ⟨.symbol .lbrace, start⟩ :: (inside ++ ⟨.symbol .rbrace, stop⟩ :: rest) := by
    simpa using hwhole
  rw [Expr.nesting] at hdepth
  exact operand_map (mapEntries_entries _ _ _ _ _ hentries hkeys hvalues (by omega) _
    (by simp only [List.length_cons, List.length_append]; omega))

end Leads

theorem Derives.leads {l : Level} {ts : Tokens} {e : Expr} (h : Derives l ts e) : Leads l ts e := by
  induction h with
  | tighter _ _ ih => exact ih.looser
  | chain sign h₁ h₂ ih₁ ih₂ =>
    exact leads_stage sign (.tighter nofun h₁) (Leads.looser (l := .chain) ih₁) h₂ ih₂
      (addStage_of_ne (h₁.ne_compose nofun))
      (by simp)
  | stage sign h₁ h₂ ih₁ ih₂ =>
    exact leads_stage sign h₁ ih₁ h₂ ih₂ rfl
      (by simp [Expr.nestingAll_append_singleton])
  | binary op sign hop h₁ h₂ ih₁ ih₂ => exact leads_binary sign hop h₁ ih₁ h₂ ih₂
  | unary op sign h ih => exact leads_unary op sign h ih
  | call start stop h hcommas hargs ih ihargs =>
    exact leads_call start stop h ih hcommas fun p hp => reads_of_leads (hargs p hp) (ihargs p hp)
  | index start stop h hkey ih ihkey => exact leads_index start stop h ih (reads_of_leads hkey ihkey)
  | member dot name h he ih =>
    exact leads_member dot name h ih (addMember_of_ne he) (by simp)
  | members dot name h ih => exact leads_member dot name h ih rfl (by simp)
  | literal span hk =>
    refine leads_of_operand (by simp) ?_
    rintro depth rest _ _ rfl _ _
    exact operand_literal hk span rest
  | name id hid =>
    refine leads_of_operand (by simp) ?_
    rintro depth rest _ _ rfl _ _
    simp only [List.singleton_append]
    rw [operand]
    simp only [next, unaryOp?, literal?]
    rfl
  | hole span =>
    refine leads_of_operand (by simp) ?_
    rintro depth rest _ _ rfl _ _
    simp only [List.singleton_append]
    rw [operand]
    simp [next, unaryOp?, literal?, pure, Except.pure]
  | paren start stop h ih => exact leads_paren start stop (reads_of_leads h ih)
  | tuple start stop hcommas hlen helems ih =>
    exact leads_tuple start stop hcommas hlen fun p hp => reads_of_leads (helems p hp) (ih p hp)
  | list start stop hcommas hitems ih =>
    exact leads_list start stop hcommas fun p hp => reads_of_leads (hitems p hp) (ih p hp)
  | range start dots stop hlo hhi ihlo ihhi =>
    exact leads_range start dots stop (reads_of_leads hlo ihlo) (reads_of_leads hhi ihhi)
  | map start stop hentries hkeys hvalues ihkeys ihvalues =>
    exact leads_map start stop hentries (fun p hp => reads_of_leads (hkeys p hp) (ihkeys p hp))
      fun p hp => reads_of_leads (hvalues p hp) (ihvalues p hp)

/-- A phrase is read as its tree, up to where it cannot go on, if it is not nested too deeply; and it has no
other tree. -/
theorem expr_of_derives {ts : Tokens} {e : Expr} (h : Derives .chain ts e) :
    (∀ (depth : Nat) (rest : Tokens), Ends .chain rest → depth + e.nesting ≤ maxNesting →
      ∃ hr, expr depth 0 (ts ++ rest) = .ok ⟨e, rest, hr⟩) ∧
    ∀ e', Derives .chain ts e' → e' = e := by
  refine ⟨fun depth rest hends hdepth => ?_, fun e' h' => h'.tree_unique h⟩
  exact ⟨h.shorter rest, expr_of_leads h.leads cuts_chain hends hdepth _⟩

/-- `-a ^ b * c | f(x).y.z` -/
def mixedPhrase : Phrase where
  tokens :=
    [⟨.symbol .minus, default⟩, ⟨.ident "a", default⟩, ⟨.symbol .caret, default⟩, ⟨.ident "b", default⟩,
      ⟨.symbol .star, default⟩, ⟨.ident "c", default⟩, ⟨.symbol .pipe, default⟩, ⟨.ident "f", default⟩,
      ⟨.symbol .lparen, default⟩, ⟨.ident "x", default⟩, ⟨.symbol .rparen, default⟩,
      ⟨.symbol .dot, default⟩, ⟨.ident "y", default⟩, ⟨.symbol .dot, default⟩, ⟨.ident "z", default⟩]
  tree := .compose
    [.binary (.unary .neg (.binary (.var ⟨"a", default⟩) .pow (.var ⟨"b", default⟩) default) default) .mul
      (.var ⟨"c", default⟩) default,
     .member (.call (.var ⟨"f", default⟩) [.var ⟨"x", default⟩] default)
      [⟨"y", default⟩, ⟨"z", default⟩] default] .immediate default

theorem derives_mixedPhrase : Derives .chain mixedPhrase.tokens mixedPhrase.tree := by
  have hname : ∀ (text : String) (l : Level), text ≠ "_" →
      Derives l [⟨.ident text, default⟩] (.var ⟨text, default⟩) := fun text l htext =>
    (Derives.name ⟨text, default⟩ htext).looser l.rank_le_atom
  have hpower : Derives .power _ _ :=
    .binary .pow default rfl (hname "a" .power (by decide)) (hname "b" .suffix (by decide))
  have hunary : Derives .unary _ _ := .unary .neg default (hpower.looser (by decide))
  have hproduct : Derives .product _ _ :=
    .binary .mul default rfl (hunary.looser (by decide)) (hname "c" .unary (by decide))
  have hcall : Derives .suffix _ _ :=
    .call default default (hname "f" .suffix (by decide)) (.last ⟨_, _⟩)
      (List.forall_mem_singleton.2 (hname "x" .chain (by decide)))
  have hmember : Derives .suffix _ _ := .member default ⟨"y", default⟩ hcall nofun
  have hmembers : Derives .suffix _ _ := .members default ⟨"z", default⟩ hmember
  exact .chain default (hproduct.looser (by decide)) (hmembers.looser (by decide))

theorem mixedPhrase_reads :
    Derives .chain mixedPhrase.tokens mixedPhrase.tree ∧ Ends .chain [⟨.eof, default⟩] ∧
      mixedPhrase.tree.nesting ≤ maxNesting ∧
      (∃ hr, expr 0 0 (mixedPhrase.tokens ++ [⟨.eof, default⟩]) =
        .ok ⟨mixedPhrase.tree, [⟨.eof, default⟩], hr⟩) ∧
      ∀ e', Derives .chain mixedPhrase.tokens e' → e' = mixedPhrase.tree :=
  ⟨derives_mixedPhrase, by decide, by decide,
    (expr_of_derives derives_mixedPhrase).1 0 _ (by decide) (by decide),
    (expr_of_derives derives_mixedPhrase).2⟩

end Sluice.Parser
