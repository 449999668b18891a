import Sluice.Proofs.ReadBack.Parse

/-! The grammar of expressions, functions apart. It is layered: a phrase of one level is made of phrases of the
next tighter one, with the signs of its own level between them, and only what stands left of a sign may be of
the same level. Each rule says which tokens a phrase has and which tree it is. -/
namespace Sluice

def UnaryOp.kind : UnaryOp → Token.Kind
  | .not => .symbol .bang
  | .bitNot => .keyword .not
  | .neg => .symbol .minus

def BinaryOp.kind : BinaryOp → Token.Kind
  | .or => .symbol .orOr
  | .and => .symbol .andAnd
  | .eq => .symbol .equal
  | .ne => .symbol .notEqual
  | .lt => .symbol .less
  | .le => .symbol .lessEqual
  | .gt => .symbol .greater
  | .ge => .symbol .greaterEqual
  | .add => .symbol .plus
  | .sub => .symbol .minus
  | .mul => .symbol .star
  | .div => .symbol .slash
  | .rem => .symbol .percent
  | .pow => .symbol .caret
  | .bitAnd => .keyword .and
  | .bitOr => .keyword .or
  | .bitXor => .keyword .xor
  | .shl => .keyword .shiftl
  | .shr => .keyword .shiftr

theorem UnaryOp.kind_injective {op op' : UnaryOp} (h : op.kind = op'.kind) : op = op' := by
  cases op <;> cases op' <;> first | rfl | cases h

theorem BinaryOp.kind_injective {op op' : BinaryOp} (h : op.kind = op'.kind) : op = op' := by
  cases op <;> cases op' <;> first | rfl | cases h

namespace Expr

mutual

/-- How many expressions are inside one another in the text of an expression, the outermost included. What
stands left of an operator or a suffix is not inside it; functions are not counted. -/
def nesting : Expr → Nat
  | lit .. | var _ | placeholder _ | lambda .. => 1
  | index b k _ => max b.nesting (k.nesting + 1)
  | member b _ _ => b.nesting
  | unary _ e _ => e.nesting + 1
  | call f args _ => max f.nesting (nestingAll args + 1)
  | binary l _ r _ => max l.nesting (r.nesting + 1)
  | list es _ | tuple es _ => nestingAll es + 1
  | range lo hi _ => max lo.nesting hi.nesting + 1
  | map es _ => nestingEntries es + 1
  | compose stages _ _ => nestingStages stages
  | paren e _ => e.nesting + 1

def nestingAll : List Expr → Nat
  | [] => 0
  | e :: es => max e.nesting (nestingAll es)

def nestingEntries : List (Expr × Expr) → Nat
  | [] => 0
  | (k, v) :: es => max (max k.nesting v.nesting) (nestingEntries es)

def nestingStages : List Expr → Nat
  | [] => 0
  | e :: es => max e.nesting (nestingAll es + 1)

end

-- In `a + (_)` the parentheses are inside the sum, and the hole is inside them.
example : (binary (var default) .add (paren (placeholder default) default) default).nesting = 3 := by cbv

theorem nestingAll_append_singleton (es : List Expr) (e : Expr) :
    nestingAll (es ++ [e]) = max (nestingAll es) e.nesting := by
  induction es with
  | nil => simp [nestingAll]
  | cons d es ih => rw [List.cons_append, nestingAll, nestingAll, ih, Nat.max_assoc]

end Expr

namespace Parser

/-- The levels of the grammar, from the loosest to the tightest. -/
inductive Level where
  | chain | or | and | compare | bitOr | bitXor | bitAnd | shift | sum | product | unary | power | suffix
  | atom
deriving DecidableEq, Repr, Inhabited

namespace Level

def rank : Level → Nat
  | chain => 0 | or => 1 | and => 2 | compare => 3 | bitOr => 4 | bitXor => 5 | bitAnd => 6
  | shift => 7 | sum => 8 | product => 9 | unary => 10 | power => 11 | suffix => 12 | atom => 13

/-- The level that the phrases of this one are made of. -/
def tighter : Level → Level
  | chain => or | or => and | and => compare | compare => bitOr | bitOr => bitXor | bitXor => bitAnd
  | bitAnd => shift | shift => sum | sum => product | product => unary | unary => power
  | power => suffix | suffix => atom | atom => atom

theorem rank_tighter {l : Level} (hl : l ≠ atom) : l.tighter.rank = l.rank + 1 := by
  cases l <;> first | rfl | exact (hl rfl).elim

theorem rank_le_tighter (l : Level) : l.rank ≤ l.tighter.rank := by cases l <;> decide

theorem rank_le_atom (l : Level) : l.rank ≤ atom.rank := by cases l <;> decide

theorem rank_lt_atom {l : Level} (hl : l ≠ atom) : l.rank < atom.rank := by
  cases l <;> first | decide | exact (hl rfl).elim

theorem rank_injective {l m : Level} (h : l.rank = m.rank) : l = m := by
  cases l <;> cases m <;> first | rfl | cases h

end Level

/-- The level whose phrases may go on with a token. -/
def level? : Token.Kind → Option Level
  | .symbol .pipe => some .chain
  | .symbol .orOr => some .or
  | .symbol .andAnd => some .and
  | .symbol .equal | .symbol .notEqual | .symbol .less | .symbol .lessEqual | .symbol .greater
  | .symbol .greaterEqual => some .compare
  | .keyword .or => some .bitOr
  | .keyword .xor => some .bitXor
  | .keyword .and => some .bitAnd
  | .keyword .shiftl | .keyword .shiftr => some .shift
  | .symbol .plus | .symbol .minus => some .sum
  | .symbol .star | .symbol .slash | .symbol .percent => some .product
  | .symbol .caret => some .power
  | .symbol .lparen | .symbol .lbracket | .symbol .dot => some .suffix
  | _ => none

/-- A phrase of level `l` cannot go on with `rest`; one of a looser level may. -/
def Ends (l : Level) (rest : Tokens) : Prop := ∀ t ∈ rest.head?, ∀ m ∈ level? t.kind, m.rank < l.rank

instance (l : Level) (rest : Tokens) : Decidable (Ends l rest) :=
  inferInstanceAs (Decidable (∀ t ∈ rest.head?, ∀ m ∈ level? t.kind, m.rank < l.rank))

structure Phrase where
  tokens : Tokens
  tree : Expr

/-- Phrases with commas between them. One more comma may follow the last one. -/
inductive Commas : List Phrase → Tokens → Prop
  | nil : Commas [] []
  | last (p : Phrase) : Commas [p] p.tokens
  | cons (p : Phrase) (comma : Span) {ps : List Phrase} {ts : Tokens} (h : Commas ps ts) :
      Commas (p :: ps) (p.tokens ++ ⟨.symbol .comma, comma⟩ :: ts)

/-- Entries `key: value` with separators around them, and at least one separator between two of them. -/
inductive Entries : List (Phrase × Phrase) → Tokens → Prop
  | nil {seps : Tokens} (hseps : ∀ t ∈ seps, separates t.kind = true) : Entries [] seps
  | cons {seps : Tokens} (hseps : ∀ t ∈ seps, separates t.kind = true) (key value : Phrase)
      (colon : Span) {es : List (Phrase × Phrase)} {ts : Tokens} (h : Entries es ts)
      (hnext : ∀ t ∈ ts.head?, separates t.kind = true) :
      Entries ((key, value) :: es)
        (seps ++ (key.tokens ++ ⟨.symbol .colon, colon⟩ :: (value.tokens ++ ts)))

/-- The tokens `ts` are a phrase of a level, and the expression is its tree. -/
inductive Derives : Level → Tokens → Expr → Prop
  | tighter {l : Level} {ts : Tokens} {e : Expr} (hl : l ≠ .atom) (h : Derives l.tighter ts e) :
      Derives l ts e
  /-- `a | b` -/
  | chain {ts₁ ts₂ : Tokens} {e₁ e₂ : Expr} (sign : Span) (h₁ : Derives .or ts₁ e₁)
      (h₂ : Derives .or ts₂ e₂) :
      Derives .chain (ts₁ ++ ⟨.symbol .pipe, sign⟩ :: ts₂)
        (.compose [e₁, e₂] .immediate (e₁.span.through e₂.span))
  /-- `a | … | b`, one composition -/
  | stage {ts₁ ts₂ : Tokens} {first e : Expr} {stages : List Expr} {span : Span} (sign : Span)
      (h₁ : Derives .chain ts₁ (.compose (first :: stages) .immediate span)) (h₂ : Derives .or ts₂ e) :
      Derives .chain (ts₁ ++ ⟨.symbol .pipe, sign⟩ :: ts₂)
        (.compose (first :: (stages ++ [e])) .immediate (span.through e.span))
  /-- `a + b`, where only `a` may be a sum -/
  | binary {l : Level} {ts₁ ts₂ : Tokens} {e₁ e₂ : Expr} (op : BinaryOp) (sign : Span)
      (hop : level? op.kind = some l) (h₁ : Derives l ts₁ e₁) (h₂ : Derives l.tighter ts₂ e₂) :
      Derives l (ts₁ ++ ⟨op.kind, sign⟩ :: ts₂) (.binary e₁ op e₂ (e₁.span.through e₂.span))
  | unary {ts : Tokens} {e : Expr} (op : UnaryOp) (sign : Span) (h : Derives .unary ts e) :
      Derives .unary (⟨op.kind, sign⟩ :: ts) (.unary op e (sign.through e.span))
  /-- `f(a, b)` -/
  | call {ts inside : Tokens} {e : Expr} {args : List Phrase} (start stop : Span)
      (h : Derives .suffix ts e) (hcommas : Commas args inside)
      (hargs : ∀ p ∈ args, Derives .chain p.tokens p.tree) :
      Derives .suffix (ts ++ ⟨.symbol .lparen, start⟩ :: (inside ++ [⟨.symbol .rparen, stop⟩]))
        (.call e (args.map (·.tree)) (e.span.through stop))
  /-- `a[i]` -/
  | index {ts inside : Tokens} {e key : Expr} (start stop : Span) (h : Derives .suffix ts e)
      (hkey : Derives .chain inside key) :
      Derives .suffix (ts ++ ⟨.symbol .lbracket, start⟩ :: (inside ++ [⟨.symbol .rbracket, stop⟩]))
        (.index e key (e.span.through stop))
  /-- `a.x` -/
  | member {ts : Tokens} {e : Expr} (dot : Span) (name : Ident) (h : Derives .suffix ts e)
      (he : ∀ base names span, e ≠ .member base names span) :
      Derives .suffix (ts ++ [⟨.symbol .dot, dot⟩, ⟨.ident name.text, name.span⟩])
        (.member e [name] (e.span.through name.span))
  /-- `a.x. … .y`, one access -/
  | members {ts : Tokens} {base : Expr} {names : List Ident} {span : Span} (dot : Span) (name : Ident)
      (h : Derives .suffix ts (.member base names span)) :
      Derives .suffix (ts ++ [⟨.symbol .dot, dot⟩, ⟨.ident name.text, name.span⟩])
        (.member base (names ++ [name]) (span.through name.span))
  | literal {k : Token.Kind} {l : Literal} (span : Span) (hk : literal? k = some l) :
      Derives .atom [⟨k, span⟩] (.lit l span)
  | name (id : Ident) (hid : id.text ≠ "_") : Derives .atom [⟨.ident id.text, id.span⟩] (.var id)
  | hole (span : Span) : Derives .atom [⟨.ident "_", span⟩] (.placeholder span)
  | paren {ts : Tokens} {e : Expr} (start stop : Span) (h : Derives .chain ts e) :
      Derives .atom (⟨.symbol .lparen, start⟩ :: (ts ++ [⟨.symbol .rparen, stop⟩]))
        (.paren e (start.through stop))
  | tuple {inside : Tokens} {elems : List Phrase} (start stop : Span) (hcommas : Commas elems inside)
      (hlen : elems.length ≠ 1) (helems : ∀ p ∈ elems, Derives .chain p.tokens p.tree) :
      Derives .atom (⟨.symbol .lparen, start⟩ :: (inside ++ [⟨.symbol .rparen, stop⟩]))
        (.tuple (elems.map (·.tree)) (start.through stop))
  | list {inside : Tokens} {items : List Phrase} (start stop : Span) (hcommas : Commas items inside)
      (hitems : ∀ p ∈ items, Derives .chain p.tokens p.tree) :
      Derives .atom (⟨.symbol .lbracket, start⟩ :: (inside ++ [⟨.symbol .rbracket, stop⟩]))
        (.list (items.map (·.tree)) (start.through stop))
  /-- `[lo..hi]` -/
  | range {ts₁ ts₂ : Tokens} {lo hi : Expr} (start dots stop : Span) (hlo : Derives .chain ts₁ lo)
      (hhi : Derives .chain ts₂ hi) :
      Derives .atom (⟨.symbol .lbracket, start⟩ ::
        (ts₁ ++ ⟨.symbol .dotDot, dots⟩ :: (ts₂ ++ [⟨.symbol .rbracket, stop⟩])))
        (.range lo hi (start.through stop))
  | map {inside : Tokens} {entries : List (Phrase × Phrase)} (start stop : Span)
      (hentries : Entries entries inside) (hkeys : ∀ p ∈ entries, Derives .chain p.1.tokens p.1.tree)
      (hvalues : ∀ p ∈ entries, Derives .chain p.2.tokens p.2.tree) :
      Derives .atom (⟨.symbol .lbrace, start⟩ :: (inside ++ [⟨.symbol .rbrace, stop⟩]))
        (.map (entries.map fun p => (p.1.tree, p.2.tree)) (start.through stop))

/-- A phrase is one of every looser level. -/
theorem Derives.looser {l m : Level} {ts : Tokens} {e : Expr} (h : Derives m ts e) (hlm : l.rank ≤ m.rank) :
    Derives l ts e := by
  induction hn : m.rank - l.rank generalizing l with
  | zero =>
    obtain rfl : l = m := Level.rank_injective (by omega)
    exact h
  | succ n ih =>
    have hl : l ≠ .atom := by
      rintro rfl
      have := m.rank_le_atom
      omega
    have hrank := Level.rank_tighter hl
    exact .tighter hl (ih (by omega) (by omega))

/-! ### Where a phrase ends -/

section Ends

variable {l m : Level} {t : Token} {rest : Tokens}

theorem Ends.mono (h : Ends l rest) (hlm : l.rank ≤ m.rank) : Ends m rest :=
  fun t ht n hn => Nat.lt_of_lt_of_le (h t ht n hn) hlm

theorem Ends.tighter (h : Ends l rest) : Ends l.tighter rest := h.mono l.rank_le_tighter

/-- No sign has the level of the unary operators. -/
theorem Ends.unary (h : Ends .power rest) : Ends .unary rest := by
  intro t ht m hm
  have hlt : m.rank < Level.power.rank := h t ht m hm
  have hne : m ≠ .unary := by
    rintro rfl
    unfold level? at hm
    split at hm <;> cases hm
  have hrank : m.rank ≠ Level.unary.rank := fun h => hne (Level.rank_injective h)
  have hpower : Level.power.rank = Level.unary.rank + 1 := rfl
  omega

theorem ends_cons_of_none (ht : level? t.kind = none) : Ends l (t :: rest) := by
  rintro _ ⟨⟩ m hm
  rw [ht] at hm
  cases hm

/-- Before a sign of a level stands a phrase of the next tighter one. -/
theorem ends_tighter_cons (ht : level? t.kind = some l) : Ends l.tighter (t :: rest) := by
  rintro _ ⟨⟩ m hm
  obtain rfl : l = m := Option.some.inj (ht.symm.trans hm)
  have hl : l ≠ .atom := by
    rintro rfl
    unfold level? at ht
    split at ht <;> cases ht
  rw [Level.rank_tighter hl]
  exact Nat.lt_succ_self _

theorem ends_of_closed {ts : Tokens} (h : Closed ts) : Ends l ts := by
  obtain ⟨t, us, rfl, ht⟩ := h
  refine ends_cons_of_none ?_
  unfold closes at ht
  split at ht <;> first | (simp only [*]; rfl) | cases ht

/-- What follows the value of an entry. -/
theorem closed_of_separates {ts : Tokens} (hts : ∀ t ∈ ts.head?, separates t.kind = true) (stop : Span)
    (rest : Tokens) : Closed (ts ++ ⟨.symbol .rbrace, stop⟩ :: rest) := by
  cases ts with
  | nil => exact closed_cons rfl stop rest
  | cons t ts =>
    refine ⟨t, _, rfl, ?_⟩
    cases hcloses : closes t.kind with
    | true => rfl
    | false => exact absurd (hts t rfl) (by simp [separates_eq_false hcloses])

theorem not_ends_cons (ht : level? t.kind = some l) : ¬ Ends l (t :: rest) :=
  fun h => Nat.lt_irrefl _ (h t rfl l ht)

end Ends

/-! ### How a phrase starts -/

def startsPhrase : Token.Kind → Bool
  | .ident _ | .symbol .lparen | .symbol .lbracket | .symbol .lbrace => true
  | k => (unaryOp? k).isSome || (literal? k).isSome

theorem closes_of_startsPhrase {k : Token.Kind} (h : startsPhrase k = true) : closes k = false := by
  cases hk : closes k with
  | false => rfl
  | true =>
    unfold closes at hk
    split at hk <;> first | cases h | cases hk

@[simp] theorem unaryOp?_kind (op : UnaryOp) : unaryOp? op.kind = some op := by cases op <;> rfl

/-- A phrase starts with a unary operator only if it is loose enough. -/
theorem Derives.exists_first {l : Level} {ts : Tokens} {e : Expr} (h : Derives l ts e) :
    ∃ t us, ts = t :: us ∧ startsPhrase t.kind = true ∧
      (Level.unary.rank < l.rank → unaryOp? t.kind = none) := by
  induction h with
  | @tighter l _ _ hl _ ih =>
    obtain ⟨t, us, rfl, hstarts, hop⟩ := ih
    exact ⟨t, us, rfl, hstarts, fun hrank => hop (Nat.lt_of_lt_of_le hrank l.rank_le_tighter)⟩
  | unary op sign _ _ =>
    exact ⟨_, _, rfl, by cases op <;> rfl, fun hrank => (Nat.lt_irrefl _ hrank).elim⟩
  | literal span hk =>
    refine ⟨_, _, rfl, ?_, fun _ => ?_⟩ <;>
    · unfold literal? at hk
      split at hk <;> first | rfl | cases hk
  | name | hole | paren | tuple | list | range | map => exact ⟨_, _, rfl, rfl, fun _ => rfl⟩
  | chain _ _ _ ih =>
    obtain ⟨t, us, rfl, hstarts, -⟩ := ih
    exact ⟨t, _, rfl, hstarts, fun hrank => absurd hrank (by decide)⟩
  | stage _ _ _ ih | binary _ _ _ _ _ ih | call _ _ _ _ _ ih | index _ _ _ _ ih | member _ _ _ _ ih
  | members _ _ _ ih =>
    obtain ⟨t, us, rfl, hfirst⟩ := ih
    exact ⟨t, _, rfl, hfirst⟩

/-- Only a chain is a composition. -/
theorem Derives.ne_compose {l : Level} {ts : Tokens} {e : Expr} (h : Derives l ts e) (hl : l ≠ .chain)
    (stages : List Expr) (mode : ComposeMode) (span : Span) : e ≠ .compose stages mode span := by
  induction h with
  | @tighter l _ _ _ _ ih => exact ih (by cases l <;> nofun)
  | chain | stage => exact (hl rfl).elim
  | _ => nofun

theorem addStage_of_ne {lhs stage : Expr} (h : ∀ stages mode span, lhs ≠ .compose stages mode span) :
    addStage lhs stage = .compose [lhs, stage] .immediate (lhs.span.through stage.span) := by
  cases lhs <;> first | rfl | exact (h _ _ _ rfl).elim

theorem addMember_of_ne {base : Expr} {name : Ident}
    (h : ∀ inner names span, base ≠ .member inner names span) :
    addMember base name = .member base [name] (base.span.through name.span) := by
  cases base <;> first | rfl | exact (h _ _ _ rfl).elim

end Parser

end Sluice
