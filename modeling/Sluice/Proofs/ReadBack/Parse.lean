import Mathlib.Data.List.Basic
import Sluice.Parser.Module
import Sluice.Proofs.ReadBack.Scan

/-! The expressions of written values. The tokens of a written value are read as an expression that
denotes it, if they are not nested too deeply and no suffix or operator follows. -/
namespace Sluice

namespace Value

mutual

/-- How many expressions are inside one another in the text of a value, the outermost included. -/
def nesting : Value → Nat
  | int n => if 0 ≤ n.toInt then 1 else 2
  | list vs | tuple vs => nestingAll vs + 1
  | map es => nestingEntries es + 1
  | just v => v.nesting + 1
  | _ => 1

def nestingAll : List Value → Nat
  | [] => 0
  | v :: vs => max v.nesting (nestingAll vs)

def nestingEntries : List (Value × Value) → Nat
  | [] => 0
  | (k, v) :: es => max (max k.nesting v.nesting) (nestingEntries es)

end

theorem nesting_le_nestingAll {v : Value} {vs : List Value} (h : v ∈ vs) :
    v.nesting ≤ nestingAll vs := by
  induction vs with
  | nil => cases h
  | cons w vs ih =>
    rw [nestingAll]
    rcases List.mem_cons.1 h with rfl | h
    · exact Nat.le_max_left ..
    · exact Nat.le_trans (ih h) (Nat.le_max_right ..)

theorem nesting_le_nestingEntries {e : Value × Value} {es : List (Value × Value)} (h : e ∈ es) :
    max e.1.nesting e.2.nesting ≤ nestingEntries es := by
  induction es with
  | nil => cases h
  | cons f es ih =>
    rw [nestingEntries]
    rcases List.mem_cons.1 h with rfl | h
    · exact Nat.le_max_left ..
    · exact Nat.le_trans (ih h) (Nat.le_max_right ..)

end Value

/-- `e` is written out of literals, and its value is `v`. -/
inductive Denotes : Expr → Value → Prop
  | lit (l : Literal) (span : Span) : Denotes (.lit l span) (.ofLiteral l)
  | neg (n : Int64) (s span : Span) : Denotes (.unary .neg (.lit (.int n) s) span) (.int (-n))
  | list (xs : List (Expr × Value)) (span : Span) (h : ∀ x ∈ xs, Denotes x.1 x.2) :
      Denotes (.list (xs.map (·.1)) span) (.list (xs.map (·.2)))
  | tuple (xs : List (Expr × Value)) (span : Span) (h : ∀ x ∈ xs, Denotes x.1 x.2) :
      Denotes (.tuple (xs.map (·.1)) span) (.tuple (xs.map (·.2)))
  | map (xs : List ((Expr × Value) × (Expr × Value))) (span : Span)
      (hkeys : xs.Pairwise fun x y => Value.beq x.1.2 y.1.2 = false)
      (hk : ∀ x ∈ xs, Denotes x.1.1 x.1.2) (hv : ∀ x ∈ xs, Denotes x.2.1 x.2.2) :
      Denotes (.map (xs.map fun x => (x.1.1, x.2.1)) span) (.map (xs.map fun x => (x.1.2, x.2.2)))
  | just (e : Expr) (v : Value) (s span : Span) (h : Denotes e v) :
      Denotes (.call (.var ⟨"Just", s⟩) [e] span) (.just v)
  | nothing (s : Span) : Denotes (.var ⟨"Nothing", s⟩) .nothing

namespace Parser

open Value

def closes : Token.Kind → Bool
  | .symbol .comma | .symbol .colon | .symbol .semicolon | .symbol .rparen | .symbol .rbracket
  | .symbol .rbrace | .stmtEnd | .eof => true
  | _ => false

/-- Tokens that start an expression, and no other statement unless a colon follows. -/
def startsExpr : Token.Kind → Bool
  | .symbol .minus | .symbol .lparen | .symbol .lbracket | .symbol .lbrace | .keyword .true
  | .keyword .false | .ident _ | .int _ | .char _ | .str _ => true
  | _ => false

theorem closes_eq_false {k : Token.Kind} (h : startsExpr k = true) : closes k = false := by
  unfold startsExpr at h
  split at h <;> first | rfl | cases h

def Closed (ts : Tokens) : Prop := ∃ t rest, ts = t :: rest ∧ closes t.kind = true

theorem closed_cons {k : Token.Kind} (hk : closes k = true) (span : Span) (rest : Tokens) :
    Closed (⟨k, span⟩ :: rest) := ⟨_, _, rfl, hk⟩

theorem operators_of_closed {ts : Tokens} (hts : Closed ts) (depth power : Nat) (whole : Tokens)
    (lhs : Expr) (h : ts.length < whole.length) :
    operators depth power whole lhs ts h = .ok ⟨lhs, ts, h⟩ := by
  obtain ⟨⟨k, span⟩, rest, rfl, hk⟩ := hts
  change closes k = true at hk
  rw [operators]
  simp only [next]
  unfold closes at hk
  split at hk <;> first | rfl | cases hk

theorem expr_of_operand {depth power : Nat} {ts rest : Tokens} {e : Expr}
    {h : rest.length < ts.length} (hdepth : depth < maxNesting)
    (he : operand (depth + 1) ts = .ok ⟨e, rest, h⟩) (hrest : Closed rest) :
    expr depth power ts = .ok ⟨e, rest, h⟩ := by
  rw [expr, if_neg (Nat.not_le.2 hdepth), he]
  exact operators_of_closed hrest (depth + 1) power ts e h

/-! ### Signs -/

@[simp] theorem eat_cons_self (s : Symbol) (span : Span) (rest : Tokens) :
    eat s (⟨.symbol s, span⟩ :: rest) = some ⟨span, rest, Nat.lt_succ_self _⟩ := by simp [eat]

@[simp] theorem expect_cons_self (s : Symbol) (what : String) (span : Span) (rest : Tokens) :
    expect s what (⟨.symbol s, span⟩ :: rest) = .ok ⟨span, rest, Nat.lt_succ_self _⟩ := by
  simp [expect]

@[simp] theorem isAt_cons_self (s : Symbol) (span : Span) (rest : Tokens) :
    isAt s (⟨.symbol s, span⟩ :: rest) = true := by simp [isAt]

theorem eat_eq_none {s : Symbol} {k : Token.Kind} (h : k ≠ .symbol s) (span : Span) (rest : Tokens) :
    eat s (⟨k, span⟩ :: rest) = none := by
  cases k with
  | symbol s' => exact if_neg fun hs => h (congrArg _ hs)
  | _ => rfl

/-! ### Items -/

/-- The tokens that `v` is written with are read as an expression that denotes it. -/
def ReadsBack (v : Value) : Prop :=
  ∀ (depth power : Nat) {ts rest : Tokens}, ts.map Token.kind = v.kinds →
    depth + v.nesting ≤ maxNesting → Closed rest →
    ∃ e h, expr depth power (ts ++ rest) = .ok ⟨e, rest, h⟩ ∧ Denotes e v

/-- What a written value starts with. -/
theorem kinds_eq_cons {v : Value} (hv : v.Readable) :
    ∃ k ks, v.kinds = k :: ks ∧ startsExpr k = true ∧
      ∀ name, k = .ident name → .symbol .colon ∉ ks.head? := by
  cases hv with
  | int n _ =>
    by_cases h : 0 ≤ n.toInt
    · exact ⟨.int (Int64.ofNat n.toInt.toNat), [], by simp [kinds, h], rfl, by simp⟩
    · exact ⟨.symbol .minus, [.int (Int64.ofNat (-n.toInt).toNat)], by simp [kinds, h], rfl, by simp⟩
  | bool b => exact ⟨_, _, rfl, by cases b <;> rfl, by simp⟩
  | char c _ => exact ⟨_, _, rfl, rfl, by simp⟩
  | str s _ => exact ⟨_, _, rfl, rfl, by simp⟩
  | list vs _ => exact ⟨_, _, by rw [kinds]; rfl, rfl, by simp⟩
  | tuple vs _ _ => exact ⟨_, _, by rw [kinds]; rfl, rfl, by simp⟩
  | map es _ _ _ => exact ⟨_, _, by rw [kinds]; rfl, rfl, by simp⟩
  | just v _ => exact ⟨_, _, by rw [kinds]; rfl, rfl, by simp⟩
  | nothing => exact ⟨_, _, rfl, rfl, by simp⟩

theorem exists_first {v : Value} (hv : v.Readable) {ts : Tokens} (hts : ts.map Token.kind = v.kinds) :
    ∃ t us, ts = t :: us ∧ closes t.kind = false := by
  obtain ⟨k, ks, hkinds, hk, -⟩ := kinds_eq_cons hv
  obtain ⟨t, us, rfl, rfl, -⟩ := List.map_eq_cons_iff.1 (hts.trans hkinds)
  exact ⟨t, us, rfl, closes_eq_false hk⟩

theorem isAt_eq_false {v : Value} (hv : v.Readable) {ts : Tokens}
    (hts : ts.map Token.kind = v.kinds) {s : Symbol} (hs : closes (.symbol s) = true)
    (rest : Tokens) : isAt s (ts ++ rest) = false := by
  obtain ⟨⟨k, span⟩, us, rfl, hk⟩ := exists_first hv hts
  have hne : k ≠ .symbol s := by
    rintro rfl
    exact absurd hs (by simp [show closes (.symbol s) = false from hk])
  rw [List.cons_append, isAt, eat_eq_none hne]
  rfl

/-- The tokens before a sign, the sign and the tokens after it. -/
theorem exists_split {ts : Tokens} {before after : List Token.Kind} {s : Symbol}
    (h : ts.map Token.kind = before ++ .symbol s :: after) :
    ∃ ts₁ span ts₂, ts = ts₁ ++ ⟨.symbol s, span⟩ :: ts₂ ∧ ts₁.map Token.kind = before ∧
      ts₂.map Token.kind = after := by
  obtain ⟨ts₁, us, rfl, hts₁, hus⟩ := List.map_eq_append_iff.1 h
  obtain ⟨⟨k, span⟩, ts₂, rfl, rfl, hts₂⟩ := List.map_eq_cons_iff.1 hus
  exact ⟨ts₁, span, ts₂, rfl, hts₁, hts₂⟩

/-- The elements of a tuple. -/
theorem exprList_items (depth : Nat) (vs : List Value) (hv : ∀ v ∈ vs, v.Readable)
    (ih : ∀ v ∈ vs, ReadsBack v) (hdepth : depth + nestingAll vs ≤ maxNesting) {ts : Tokens}
    (hts : ts.map Token.kind = [.symbol .comma].intercalate (vs.map kinds)) (span : Span)
    (rest whole : Tokens) (seen : List Expr) (trailing : Bool)
    (h : (ts ++ ⟨.symbol .rparen, span⟩ :: rest).length < whole.length) :
    ∃ (xs : List (Expr × Value)) (last : Bool) (h' : _),
      exprList depth whole seen trailing (ts ++ ⟨.symbol .rparen, span⟩ :: rest) h =
        .ok ⟨(seen.reverse ++ xs.map (·.1), last), ⟨.symbol .rparen, span⟩ :: rest, h'⟩ ∧
      xs.map (·.2) = vs ∧ ∀ x ∈ xs, Denotes x.1 x.2 := by
  induction vs generalizing ts seen trailing with
  | nil =>
    obtain rfl : ts = [] := by simpa using hts
    refine ⟨[], trailing, by simpa using h, ?_, rfl, by simp⟩
    rw [exprList]
    simp [pure, Except.pure]
  | cons v vs ihvs =>
    obtain ⟨hfirst, hothers⟩ := List.forall_mem_cons.1 hv
    obtain ⟨ihfirst, ihothers⟩ := List.forall_mem_cons.1 ih
    have hnest : depth + v.nesting ≤ maxNesting ∧ depth + nestingAll vs ≤ maxNesting := by
      rw [nestingAll] at hdepth
      omega
    cases vs with
    | nil =>
      rw [List.map_singleton, List.intercalate_singleton] at hts
      obtain ⟨e, he, hexpr, hden⟩ := ihfirst depth 0 hts hnest.1
        (closed_cons (k := .symbol .rparen) rfl span rest)
      refine ⟨[(e, v)], false, by omega, ?_, rfl, by simpa using hden⟩
      rw [exprList, isAt_eq_false hfirst hts rfl]
      simp [hexpr, bind, Except.bind, eat_eq_none, pure, Except.pure]
    | cons w vs =>
      rw [List.map_cons, List.map_cons, List.intercalate_cons_cons, ← List.map_cons,
        List.append_assoc] at hts
      obtain ⟨ts₁, s, ts₂, rfl, hts₁, hts₂⟩ := exists_split hts
      simp only [List.append_assoc, List.cons_append] at h ⊢
      obtain ⟨e, he, hexpr, hden⟩ := ihfirst depth 0 hts₁ hnest.1
        (closed_cons (k := .symbol .comma) rfl s (ts₂ ++ ⟨.symbol .rparen, span⟩ :: rest))
      obtain ⟨xs, last, h', hrest, hxs, hall⟩ := ihvs hothers ihothers hnest.2 hts₂ (e :: seen) true
        (by simp at h ⊢; omega)
      refine ⟨(e, v) :: xs, last, h', ?_, by simp [hxs], List.forall_mem_cons.2 ⟨hden, hall⟩⟩
      rw [exprList, isAt_eq_false hfirst hts₁ rfl]
      simp [hexpr, bind, Except.bind, hrest]

theorem closed_items {vs : List Value} {ts : Tokens}
    (hts : ts.map Token.kind = vs.flatMap fun v => .symbol .comma :: v.kinds) (span : Span)
    (rest : Tokens) : Closed (ts ++ ⟨.symbol .rbracket, span⟩ :: rest) := by
  cases vs with
  | nil =>
    obtain rfl : ts = [] := by simpa using hts
    exact closed_cons rfl span rest
  | cons v vs =>
    rw [List.flatMap_cons, List.cons_append] at hts
    obtain ⟨⟨_, s⟩, us, rfl, rfl, -⟩ := List.map_eq_cons_iff.1 hts
    exact closed_cons rfl s _

/-- The items of a list after the first one. -/
theorem listItems_items (depth : Nat) (vs : List Value) (hv : ∀ v ∈ vs, v.Readable)
    (ih : ∀ v ∈ vs, ReadsBack v) (hdepth : depth + nestingAll vs ≤ maxNesting) {ts : Tokens}
    (hts : ts.map Token.kind = vs.flatMap fun v => .symbol .comma :: v.kinds) (span : Span)
    (rest whole : Tokens) (seen : List Expr)
    (h : (ts ++ ⟨.symbol .rbracket, span⟩ :: rest).length < whole.length) :
    ∃ (xs : List (Expr × Value)) (h' : _),
      listItems depth whole seen (ts ++ ⟨.symbol .rbracket, span⟩ :: rest) h =
        .ok ⟨seen.reverse ++ xs.map (·.1), ⟨.symbol .rbracket, span⟩ :: rest, h'⟩ ∧
      xs.map (·.2) = vs ∧ ∀ x ∈ xs, Denotes x.1 x.2 := by
  induction vs generalizing ts seen with
  | nil =>
    obtain rfl : ts = [] := by simpa using hts
    refine ⟨[], by simpa using h, ?_, rfl, by simp⟩
    rw [listItems]
    simp [eat_eq_none, pure, Except.pure]
  | cons v vs ihvs =>
    obtain ⟨hfirst, hothers⟩ := List.forall_mem_cons.1 hv
    obtain ⟨ihfirst, ihothers⟩ := List.forall_mem_cons.1 ih
    have hnest : depth + v.nesting ≤ maxNesting ∧ depth + nestingAll vs ≤ maxNesting := by
      rw [nestingAll] at hdepth
      omega
    rw [List.flatMap_cons, List.cons_append] at hts
    obtain ⟨⟨_, s⟩, ts₁, rfl, rfl, hts₁⟩ := List.map_eq_cons_iff.1 hts
    obtain ⟨ts₂, ts₃, rfl, hts₂, hts₃⟩ := List.map_eq_append_iff.1 hts₁
    have hclosed := closed_items hts₃ span rest
    simp only [List.append_assoc, List.cons_append] at h ⊢
    obtain ⟨e, he, hexpr, hden⟩ := ihfirst depth 0 hts₂ hnest.1 hclosed
    obtain ⟨xs, h', hrest, hxs, hall⟩ := ihvs hothers ihothers hnest.2 hts₃ (e :: seen)
      (by simp at h ⊢; omega)
    refine ⟨(e, v) :: xs, h', ?_, by simp [hxs], List.forall_mem_cons.2 ⟨hden, hall⟩⟩
    rw [listItems]
    simp only [eat_cons_self]
    rw [isAt_eq_false hfirst hts₂ rfl]
    simp [hexpr, bind, Except.bind, hrest]

/-- The entries of a map once what separates them is skipped. -/
theorem mapEntries_eq {depth : Nat} {whole ts ts₀ : Tokens} {seen : List (Expr × Expr)}
    {h : ts.length < whole.length} (hskip : ts.dropWhile (separates ·.kind) = ts₀)
    (h₀ : ts₀.length < whole.length) :
    mapEntries depth whole seen ts h = (do
      if isAt .rbrace ts₀ then return ⟨seen.reverse, ts₀, h₀⟩
      let ⟨key, ts₁, h₁⟩ ← expr depth 0 ts₀
      let ⟨_, ts₂, h₂⟩ ← expect .colon "`:`" ts₁
      let ⟨value, ts₃, h₃⟩ ← expr depth 0 ts₂
      mapEntries depth whole ((key, value) :: seen) ts₃ (Nat.lt_trans h₃ (Nat.lt_trans h₂ (Nat.lt_trans h₁ h₀)))) := by
  subst hskip
  rw [mapEntries]
  rfl

/-- What separates entries is skipped before an entry and before the end. -/
theorem skip_separators {pre ts : Tokens} (hpre : ∀ t ∈ pre, separates t.kind = true)
    (hts : ∃ t us, ts = t :: us ∧ separates t.kind = false) :
    (pre ++ ts).dropWhile (separates ·.kind) = ts := by
  obtain ⟨t, us, rfl, ht⟩ := hts
  rw [List.dropWhile_append_of_pos hpre, List.dropWhile_cons_of_neg (by simp [ht])]

theorem separates_eq_false {k : Token.Kind} (h : closes k = false) : separates k = false := by
  unfold separates endsStmt
  split
  next => cases h
  next => split <;> first | rfl | cases h

def entryKinds (e : Value × Value) : List Token.Kind := e.1.kinds ++ .symbol .colon :: e.2.kinds

/-- The first of some entries: the tokens of its key, the colon, those of its value, what separates it
from the next entry, and the tokens of the others. -/
theorem exists_entry {k v : Value} {es : List (Value × Value)} {ts : Tokens}
    (hts : ts.map Token.kind = [.symbol .comma].intercalate (((k, v) :: es).map entryKinds))
    (span : Span) (rest : Tokens) :
    ∃ ts₁ s ts₂ pre us, ts = ts₁ ++ ⟨.symbol .colon, s⟩ :: (ts₂ ++ (pre ++ us)) ∧
      ts₁.map Token.kind = k.kinds ∧ ts₂.map Token.kind = v.kinds ∧
      (∀ t ∈ pre, separates t.kind = true) ∧
      us.map Token.kind = [.symbol .comma].intercalate (es.map entryKinds) ∧
      Closed (pre ++ (us ++ ⟨.symbol .rbrace, span⟩ :: rest)) := by
  cases es with
  | nil =>
    rw [List.map_singleton, List.intercalate_singleton] at hts
    obtain ⟨ts₁, s, ts₂, rfl, hts₁, hts₂⟩ := exists_split hts
    exact ⟨ts₁, s, ts₂, [], [], by simp, hts₁, hts₂, by simp, rfl, closed_cons rfl span rest⟩
  | cons e es =>
    rw [List.map_cons, List.map_cons, List.intercalate_cons_cons, ← List.map_cons,
      List.append_assoc] at hts
    obtain ⟨us₁, s', us, rfl, hus₁, hus⟩ := exists_split hts
    obtain ⟨ts₁, s, ts₂, rfl, hts₁, hts₂⟩ := exists_split hus₁
    exact ⟨ts₁, s, ts₂, [⟨.symbol .comma, s'⟩], us, by simp, hts₁, hts₂, by simp [separates], hus,
      closed_cons rfl s' _⟩

/-- The entries of a map. -/
theorem mapEntries_items (depth : Nat) (es : List (Value × Value)) (hk : ∀ e ∈ es, e.1.Readable)
    (ihk : ∀ e ∈ es, ReadsBack e.1) (ihv : ∀ e ∈ es, ReadsBack e.2)
    (hdepth : depth + nestingEntries es ≤ maxNesting) {pre ts : Tokens}
    (hpre : ∀ t ∈ pre, separates t.kind = true)
    (hts : ts.map Token.kind = [.symbol .comma].intercalate (es.map entryKinds)) (span : Span)
    (rest whole : Tokens) (seen : List (Expr × Expr))
    (h : (pre ++ (ts ++ ⟨.symbol .rbrace, span⟩ :: rest)).length < whole.length) :
    ∃ (xs : List ((Expr × Value) × (Expr × Value))) (h' : _),
      mapEntries depth whole seen (pre ++ (ts ++ ⟨.symbol .rbrace, span⟩ :: rest)) h =
        .ok ⟨seen.reverse ++ xs.map fun x => (x.1.1, x.2.1), ⟨.symbol .rbrace, span⟩ :: rest, h'⟩ ∧
      (xs.map fun x => (x.1.2, x.2.2)) = es ∧ (∀ x ∈ xs, Denotes x.1.1 x.1.2) ∧
      ∀ x ∈ xs, Denotes x.2.1 x.2.2 := by
  induction es generalizing pre ts seen with
  | nil =>
    obtain rfl : ts = [] := by simpa using hts
    have h' : (⟨.symbol .rbrace, span⟩ :: rest : Tokens).length < whole.length := by
      simp at h ⊢
      omega
    refine ⟨[], h', ?_, rfl, by simp, by simp⟩
    simp only [List.nil_append]
    rw [mapEntries_eq (skip_separators hpre ⟨_, _, rfl, rfl⟩) h']
    simp [pure, Except.pure]
  | cons e es ihes =>
    obtain ⟨k, v⟩ := e
    obtain ⟨hfirst, hothers⟩ := List.forall_mem_cons.1 hk
    obtain ⟨ihkey, ihkeys⟩ := List.forall_mem_cons.1 ihk
    obtain ⟨ihval, ihvals⟩ := List.forall_mem_cons.1 ihv
    have hnest : depth + k.nesting ≤ maxNesting ∧ depth + v.nesting ≤ maxNesting ∧
        depth + nestingEntries es ≤ maxNesting := by
      rw [nestingEntries] at hdepth
      omega
    obtain ⟨ts₁, s, ts₂, pre', us, rfl, hts₁, hts₂, hpre', hus, hclosed⟩ := exists_entry hts span rest
    simp only [List.append_assoc, List.cons_append] at h ⊢
    have hskip : (pre ++ (ts₁ ++ ⟨.symbol .colon, s⟩ :: (ts₂ ++ (pre' ++
        (us ++ ⟨.symbol .rbrace, span⟩ :: rest))))).dropWhile (separates ·.kind) =
        ts₁ ++ ⟨.symbol .colon, s⟩ :: (ts₂ ++ (pre' ++ (us ++ ⟨.symbol .rbrace, span⟩ :: rest))) := by
      obtain ⟨t, ts', rfl, ht⟩ := exists_first hfirst hts₁
      exact skip_separators hpre ⟨_, _, rfl, separates_eq_false ht⟩
    obtain ⟨e₁, he₁, hkey, hden₁⟩ := ihkey depth 0 hts₁ hnest.1 (closed_cons (k := .symbol .colon) rfl s
      (ts₂ ++ (pre' ++ (us ++ ⟨.symbol .rbrace, span⟩ :: rest))))
    obtain ⟨e₂, he₂, hval, hden₂⟩ := ihval depth 0 hts₂ hnest.2.1 hclosed
    obtain ⟨xs, h', hrest, hxs, hall₁, hall₂⟩ := ihes hothers ihkeys ihvals hnest.2.2 hpre' hus
      ((e₁, e₂) :: seen) (by simp at h ⊢; omega)
    refine ⟨((e₁, k), (e₂, v)) :: xs, h', ?_, by simp [hxs], List.forall_mem_cons.2 ⟨hden₁, hall₁⟩,
      List.forall_mem_cons.2 ⟨hden₂, hall₂⟩⟩
    rw [mapEntries_eq hskip (by simp at h ⊢; omega), isAt_eq_false hfirst hts₁ rfl]
    simp [hkey, hval, bind, Except.bind, hrest]

/-! ### Values -/

theorem operand_literal {depth : Nat} {k : Token.Kind} {l : Literal} (hk : literal? k = some l)
    (span : Span) (rest : Tokens) :
    operand depth (⟨k, span⟩ :: rest) = .ok ⟨.lit l span, rest, Nat.lt_succ_self _⟩ := by
  have hop : unaryOp? k = none := by
    unfold literal? at hk
    split at hk <;> first | rfl | cases hk
  rw [operand]
  simp [next, hop, hk, pure, Except.pure]

/-- What one literal is written with. -/
theorem expr_literal {k : Token.Kind} {l : Literal} (hk : literal? k = some l) (depth power : Nat)
    {ts rest : Tokens} (hts : ts.map Token.kind = [k]) (hdepth : depth < maxNesting)
    (hrest : Closed rest) :
    ∃ span h, expr depth power (ts ++ rest) = .ok ⟨.lit l span, rest, h⟩ := by
  obtain ⟨⟨_, span⟩, us, rfl, rfl, hus⟩ := List.map_eq_cons_iff.1 hts
  obtain rfl : us = [] := by simpa using hus
  exact ⟨span, _, expr_of_operand hdepth (operand_literal hk span rest) hrest⟩

theorem intercalate_cons {α : Type} (sep x : List α) (xs : List (List α)) :
    sep.intercalate (x :: xs) = x ++ xs.flatMap (sep ++ ·) := by
  induction xs generalizing x with
  | nil => simp
  | cons y xs ih => rw [List.intercalate_cons_cons, ih, List.flatMap_cons]; simp

theorem readsBack_int (n : Int64) : ReadsBack (.int n) := by
  intro depth power ts rest hts hdepth hrest
  by_cases hn : 0 ≤ n.toInt
  · simp only [kinds, nesting, hn, if_true] at hts hdepth
    obtain ⟨span, h, hexpr⟩ := expr_literal rfl depth power hts (by omega) hrest
    have hval : Value.ofLiteral (.int (Int64.ofNat n.toInt.toNat)) = .int n := by
      have hnat : (n.toInt.toNat : Int) = n.toInt := Int.toNat_of_nonneg hn
      rw [Value.ofLiteral, ← Int64.ofInt_eq_ofNat, hnat, Int64.ofInt_toInt]
    exact ⟨_, h, hexpr, hval ▸ Denotes.lit _ span⟩
  · simp only [kinds, nesting, hn, if_false] at hts hdepth
    obtain ⟨⟨_, s⟩, us, rfl, rfl, hus⟩ := List.map_eq_cons_iff.1 hts
    obtain ⟨span, h, hexpr⟩ := expr_literal rfl (depth + 1) unaryPower hus (by omega) hrest
    have hval : -Int64.ofNat (-n.toInt).toNat = n := by
      have hnat : ((-n.toInt).toNat : Int) = -n.toInt := Int.toNat_of_nonneg (by omega)
      rw [← Int64.ofInt_eq_ofNat, hnat, Int64.ofInt_neg, Int64.ofInt_toInt, Int64.neg_neg]
    have hop : operand (depth + 1) (⟨.symbol .minus, s⟩ :: us ++ rest) =
        .ok ⟨.unary .neg (.lit (.int (Int64.ofNat (-n.toInt).toNat)) span) (s.through span), rest,
          Nat.lt_succ_of_lt h⟩ := by
      simp only [List.cons_append]
      rw [operand]
      simp [next, unaryOp?, hexpr, bind, Except.bind, pure, Except.pure, Expr.span]
    refine ⟨_, _, expr_of_operand (by omega) hop hrest, ?_⟩
    have hden := Denotes.neg (Int64.ofNat (-n.toInt).toNat) span (s.through span)
    rwa [hval] at hden

/-- A bracket, what stands inside, and the bracket that closes it. -/
theorem exists_between {ts : Tokens} {s t : Symbol} {inner : List Token.Kind}
    (h : ts.map Token.kind = .symbol s :: inner ++ [.symbol t]) (rest : Tokens) :
    ∃ start us stop, ts ++ rest = ⟨.symbol s, start⟩ :: (us ++ ⟨.symbol t, stop⟩ :: rest) ∧
      us.map Token.kind = inner := by
  obtain ⟨ts₁, stop, ts₂, rfl, hts₁, hts₂⟩ := exists_split h
  obtain ⟨⟨_, start⟩, us, rfl, rfl, hus⟩ := List.map_eq_cons_iff.1 hts₁
  obtain rfl : ts₂ = [] := by simpa using hts₂
  exact ⟨start, us, stop, by simp, hus⟩

section Brackets

variable {depth : Nat} {start stop : Span} {ts rest : Tokens}

theorem operand_tuple {es : List Expr} {last : Bool} {h : _} (hlen : es.length ≠ 1)
    (hlist : exprList depth (⟨.symbol .lparen, start⟩ :: ts) [] false ts (Nat.lt_succ_self _) =
      .ok ⟨(es, last), ⟨.symbol .rparen, stop⟩ :: rest, h⟩) :
    operand depth (⟨.symbol .lparen, start⟩ :: ts) =
      .ok ⟨.tuple es (start.through stop), rest, Nat.lt_of_succ_lt h⟩ := by
  rw [operand]
  simp only [next, unaryOp?, literal?, hlist, bind, Except.bind, pure, Except.pure, expect_cons_self]
  rcases es with _ | ⟨e, _ | ⟨e', es⟩⟩
  · rfl
  · exact (hlen rfl).elim
  · rfl

theorem operand_nil :
    operand depth (⟨.symbol .lbracket, start⟩ :: ⟨.symbol .rbracket, stop⟩ :: rest) =
      .ok ⟨.list [] (start.through stop), rest, Nat.lt_succ_of_lt (Nat.lt_succ_self _)⟩ := by
  rw [operand]
  simp [next, unaryOp?, literal?, pure, Except.pure]

theorem operand_list {first : Expr} {es : List Expr} {us : Tokens} {h h' : _}
    (hopen : isAt .rbracket ts = false) (hfirst : expr depth 0 ts = .ok ⟨first, us, h⟩)
    (hclosed : Closed us) (hitems : listItems depth ts [first] us h =
      .ok ⟨es, ⟨.symbol .rbracket, stop⟩ :: rest, h'⟩) :
    operand depth (⟨.symbol .lbracket, start⟩ :: ts) =
      .ok ⟨.list es (start.through stop), rest, Nat.lt_succ_of_lt (Nat.lt_of_succ_lt h')⟩ := by
  have heat : eat .rbracket ts = none := by simpa [isAt] using hopen
  have hdots : eat .dotDot us = none := by
    obtain ⟨⟨k, s⟩, us, rfl, hk⟩ := hclosed
    exact eat_eq_none (by rintro rfl; cases hk) s us
  rw [operand]
  simp [next, unaryOp?, literal?, heat, hfirst, hdots, hitems, bind, Except.bind, pure, Except.pure]

theorem operand_map {es : List (Expr × Expr)} {h : _}
    (hentries : mapEntries depth (⟨.symbol .lbrace, start⟩ :: ts) [] ts (Nat.lt_succ_self _) =
      .ok ⟨es, ⟨.symbol .rbrace, stop⟩ :: rest, h⟩) :
    operand depth (⟨.symbol .lbrace, start⟩ :: ts) =
      .ok ⟨.map es (start.through stop), rest, Nat.lt_of_succ_lt h⟩ := by
  rw [operand]
  simp [next, unaryOp?, literal?, hentries, bind, Except.bind, pure, Except.pure]

end Brackets

theorem readsBack_list {vs : List Value} (hv : ∀ v ∈ vs, v.Readable) (ih : ∀ v ∈ vs, ReadsBack v) :
    ReadsBack (.list vs) := by
  intro depth power ts rest hts hdepth hrest
  rw [kinds, kindsAll_eq_map] at hts
  rw [nesting] at hdepth
  obtain ⟨start, us, stop, htext, hus⟩ := exists_between hts rest
  rw [htext]
  cases vs with
  | nil =>
    obtain rfl : us = [] := by simpa using hus
    exact ⟨_, _, expr_of_operand (by omega) operand_nil hrest, Denotes.list [] _ (by simp)⟩
  | cons v vs =>
    rw [List.map_cons, intercalate_cons, List.flatMap_map] at hus
    obtain ⟨us₁, us₂, rfl, hus₁, hus₂⟩ := List.map_eq_append_iff.1 hus
    obtain ⟨hfirst, hothers⟩ := List.forall_mem_cons.1 hv
    obtain ⟨ihfirst, ihothers⟩ := List.forall_mem_cons.1 ih
    rw [nestingAll] at hdepth
    have hclosed := closed_items hus₂ stop rest
    rw [List.append_assoc]
    obtain ⟨e, he, hexpr, hden⟩ := ihfirst (depth + 1) 0 hus₁ (by omega) hclosed
    obtain ⟨xs, h, hitems, rfl, hall⟩ := listItems_items (depth + 1) vs hothers ihothers (by omega) hus₂ stop
      rest (us₁ ++ (us₂ ++ ⟨.symbol .rbracket, stop⟩ :: rest)) [e] he
    exact ⟨_, _, expr_of_operand (by omega)
      (operand_list (isAt_eq_false hfirst hus₁ rfl _) hexpr hclosed hitems) hrest,
      Denotes.list ((e, v) :: xs) _ (List.forall_mem_cons.2 ⟨hden, hall⟩)⟩

theorem readsBack_tuple {vs : List Value} (hlen : vs.length ≠ 1) (hv : ∀ v ∈ vs, v.Readable)
    (ih : ∀ v ∈ vs, ReadsBack v) : ReadsBack (.tuple vs) := by
  intro depth power ts rest hts hdepth hrest
  rw [kinds, kindsAll_eq_map] at hts
  rw [nesting] at hdepth
  obtain ⟨start, us, stop, htext, hus⟩ := exists_between hts rest
  rw [htext]
  obtain ⟨xs, last, h, hlist, rfl, hall⟩ := exprList_items (depth + 1) vs hv ih (by omega) hus stop rest
    (⟨.symbol .lparen, start⟩ :: (us ++ ⟨.symbol .rparen, stop⟩ :: rest)) [] false (Nat.lt_succ_self _)
  exact ⟨_, _, expr_of_operand (by omega) (operand_tuple (by simpa using hlen) hlist) hrest,
    Denotes.tuple xs _ hall⟩

theorem readsBack_map {es : List (Value × Value)} (hk : ∀ e ∈ es, e.1.Readable)
    (hkeys : es.Pairwise fun a b => beq a.1 b.1 = false)
    (ihk : ∀ e ∈ es, ReadsBack e.1) (ihv : ∀ e ∈ es, ReadsBack e.2) : ReadsBack (.map es) := by
  intro depth power ts rest hts hdepth hrest
  rw [kinds, kindsEntries_eq_map] at hts
  rw [nesting] at hdepth
  obtain ⟨start, us, stop, htext, hus⟩ := exists_between hts rest
  rw [htext]
  obtain ⟨xs, h, hentries, rfl, hxk, hxv⟩ := mapEntries_items (depth + 1) es hk ihk ihv (by omega)
    (List.forall_mem_nil _) hus stop rest
    (⟨.symbol .lbrace, start⟩ :: (us ++ ⟨.symbol .rbrace, stop⟩ :: rest)) [] (Nat.lt_succ_self _)
  exact ⟨_, _, expr_of_operand (by omega) (operand_map hentries) hrest,
    Denotes.map xs _ (by simpa [List.pairwise_map] using hkeys) hxk hxv⟩

theorem readsBack_nothing : ReadsBack .nothing := by
  intro depth power ts rest hts hdepth hrest
  obtain ⟨⟨_, span⟩, us, rfl, rfl, hus⟩ := List.map_eq_cons_iff.1 hts
  obtain rfl : us = [] := by simpa using hus
  have hop : operand (depth + 1) (⟨.ident "Nothing", span⟩ :: rest) =
      .ok ⟨.var ⟨"Nothing", span⟩, rest, Nat.lt_succ_self _⟩ := by
    rw [operand]
    rfl
  exact ⟨_, _, expr_of_operand hdepth hop hrest, Denotes.nothing span⟩

theorem readsBack_just {v : Value} (hv : v.Readable) (ih : ReadsBack v) : ReadsBack (.just v) := by
  intro depth power ts rest hts hdepth hrest
  rw [nesting] at hdepth
  obtain ⟨⟨_, start⟩, ts', rfl, rfl, hts'⟩ := List.map_eq_cons_iff.1 hts
  obtain ⟨s, us, stop, htext, hus⟩ := exists_between hts' rest
  rw [List.cons_append, htext]
  obtain ⟨e, he, hexpr, hden⟩ := ih (depth + 1) 0 hus (by omega)
    (closed_cons (k := .symbol .rparen) rfl stop rest)
  refine ⟨.call (.var ⟨"Just", start⟩) [e] (start.through stop), by simp; omega, ?_, .just e v _ _ hden⟩
  have hop : operand (depth + 1)
      (⟨.ident "Just", start⟩ :: ⟨.symbol .lparen, s⟩ :: (us ++ ⟨.symbol .rparen, stop⟩ :: rest)) =
      .ok ⟨.var ⟨"Just", start⟩, ⟨.symbol .lparen, s⟩ :: (us ++ ⟨.symbol .rparen, stop⟩ :: rest),
        Nat.lt_succ_self _⟩ := by
    rw [operand]
    rfl
  have hargs : eat .rparen (us ++ ⟨.symbol .rparen, stop⟩ :: rest) = none := by
    simpa [isAt] using isAt_eq_false hv hus (s := .rparen) rfl (⟨.symbol .rparen, stop⟩ :: rest)
  rw [expr, if_neg (by omega), hop]
  simp only [bind, Except.bind]
  rw [operators]
  simp only [next]
  rw [callArgs]
  simp [hargs, hexpr, bind, Except.bind, eat_eq_none, pure, Except.pure, operators_of_closed hrest, Expr.span]

/-- The tokens of a written value are read as an expression that denotes it. -/
theorem readsBack_of_readable {v : Value} (hv : v.Readable) : ReadsBack v := by
  induction hv with
  | int n _ => exact readsBack_int n
  | bool b =>
    intro depth power ts rest hts hdepth hrest
    have hlit : literal? (.keyword (if b then .true else .false)) = some (.bool b) := by
      cases b <;> rfl
    obtain ⟨span, h, hexpr⟩ := expr_literal hlit depth power hts hdepth hrest
    exact ⟨_, h, hexpr, .lit _ span⟩
  | char c _ =>
    intro depth power ts rest hts hdepth hrest
    obtain ⟨span, h, hexpr⟩ := expr_literal (l := .char c) rfl depth power hts hdepth hrest
    exact ⟨_, h, hexpr, .lit _ span⟩
  | str s _ =>
    intro depth power ts rest hts hdepth hrest
    obtain ⟨span, h, hexpr⟩ := expr_literal (l := .str s) rfl depth power hts hdepth hrest
    exact ⟨_, h, hexpr, .lit _ span⟩
  | list vs hv ih => exact readsBack_list hv ih
  | tuple vs hlen hv ih => exact readsBack_tuple hlen hv ih
  | map es hkeys hk _ ihk ihv => exact readsBack_map hk hkeys ihk ihv
  | just v hv ih => exact readsBack_just hv ih
  | nothing => exact readsBack_nothing

/-! ### Modules -/

theorem stmt_eq_exprStmt {depth : Nat} {k : Token.Kind} {span : Span} {rest : Tokens}
    (hk : startsExpr k = true) (hrest : ∀ name, k = .ident name → isAt .colon rest = false) :
    stmt depth (⟨k, span⟩ :: rest) = exprStmt depth (⟨k, span⟩ :: rest) := by
  rw [stmt]
  simp only [next]
  unfold startsExpr at hk
  split at hk
  case h_7 name => simp [hrest name rfl]
  case h_11 => cases hk
  all_goals rfl

/-- A written value starts no other statement. -/
theorem stmt_of_readable {v : Value} (hv : v.Readable) {depth : Nat} {ts : Tokens}
    (hts : ts.map Token.kind = v.kinds) (span : Span) (rest : Tokens) :
    stmt depth (ts ++ ⟨.stmtEnd, span⟩ :: rest) = exprStmt depth (ts ++ ⟨.stmtEnd, span⟩ :: rest) := by
  obtain ⟨k, ks, hkinds, hk, hcolon⟩ := kinds_eq_cons hv
  obtain ⟨⟨_, s⟩, us, rfl, rfl, hus⟩ := List.map_eq_cons_iff.1 (hts.trans hkinds)
  rw [List.cons_append]
  refine stmt_eq_exprStmt hk fun name hname => ?_
  have hnext := hcolon name hname
  cases us with
  | nil => rw [List.nil_append, isAt, eat_eq_none (by simp)]; rfl
  | cons t us =>
    subst hus
    rw [List.cons_append, isAt, eat_eq_none (by simpa using hnext)]
    rfl

/-- Statements once what ends the one before is skipped. -/
theorem stmts_eq {depth : Nat} {inner : Bool} {whole ts ts₀ : Tokens} {seen : List Stmt}
    {h : ts.length < whole.length} (hskip : ts.dropWhile (endsStmt ·.kind) = ts₀)
    (h₀ : ts₀.length < whole.length) :
    stmts depth inner whole seen ts h = (do
      if isBlockEnd inner (peek ts₀).kind || isBlockEnd false (peek ts₀).kind then
        return ⟨seen.reverse, ts₀, h₀⟩
      else
        let ⟨s, ts₁, h₁⟩ ← stmt depth ts₀
        if endsStmt (peek ts₁).kind || isBlockEnd inner (peek ts₁).kind then
          stmts depth inner whole (s :: seen) ts₁ (Nat.lt_trans h₁ h₀)
        else fail "end of statement" ts₁) := by
  subst hskip
  rw [stmts]
  rfl

theorem exprStmt_of_expr {depth : Nat} {ts rest : Tokens} {e : Expr} {span : Span} {h : _}
    (he : expr depth 0 ts = .ok ⟨e, ⟨.stmtEnd, span⟩ :: rest, h⟩) :
    exprStmt depth ts = .ok ⟨.expr e e.span, ⟨.stmtEnd, span⟩ :: rest, h⟩ := by
  rw [exprStmt, he]
  rfl

theorem endsStmt_eq_false {k : Token.Kind} (h : closes k = false) : endsStmt k = false := by
  unfold endsStmt
  split <;> first | rfl | cases h

theorem isBlockEnd_eq_false {k : Token.Kind} (h : closes k = false) (inner : Bool) :
    isBlockEnd inner k = false := by
  unfold isBlockEnd
  split <;> first | rfl | cases h

/-- A text of one statement is a module of it. -/
theorem module_of_stmt {t : Token} {us : Tokens} {here : Span} {s : Stmt} {h : _}
    (ht : endsStmt t.kind = false) (hend : isBlockEnd false t.kind = false)
    (hs : stmt 0 (t :: (us ++ [⟨.stmtEnd, here⟩, ⟨.eof, here⟩])) =
      .ok ⟨s, [⟨.stmtEnd, here⟩, ⟨.eof, here⟩], h⟩) (name : String) :
    ∃ span, Parser.module name (t :: (us ++ [⟨.stmtEnd, here⟩, ⟨.eof, here⟩])) =
      .ok ⟨name, ⟨[s], span⟩, span⟩ := by
  have hskip : (t :: (us ++ [⟨.stmtEnd, here⟩, ⟨.eof, here⟩])).dropWhile (endsStmt ·.kind) =
      t :: (us ++ [⟨.stmtEnd, here⟩, ⟨.eof, here⟩]) :=
    List.dropWhile_cons_of_neg (by simp [ht])
  have hlast : ([⟨.stmtEnd, here⟩, ⟨.eof, here⟩] : Tokens).dropWhile (endsStmt ·.kind) =
      [⟨.eof, here⟩] := rfl
  refine ⟨t.span.through here, ?_⟩
  rw [Parser.module, stmts_eq hskip (Nat.lt_succ_self _)]
  simp only [peek, List.headD_cons, hend, hs, bind, Except.bind, Bool.or_false, if_false, Bool.false_eq_true,
    endsStmt, Bool.true_or, if_true]
  rw [stmts_eq hlast (by simp)]
  rfl

/-- A written value alone is a module of one expression. -/
theorem module_of_readable {v : Value} (hv : v.Readable) (hnest : v.nesting ≤ maxNesting)
    {ts : Tokens} (hts : ts.map Token.kind = v.kinds) (here : Span) (name : String) :
    ∃ e span, Parser.module name (ts ++ [⟨.stmtEnd, here⟩, ⟨.eof, here⟩]) =
      .ok ⟨name, ⟨[.expr e e.span], span⟩, span⟩ ∧ Denotes e v := by
  obtain ⟨e, h, hexpr, hden⟩ := readsBack_of_readable hv 0 0 hts (by omega)
    (closed_cons (k := .stmtEnd) rfl here [⟨.eof, here⟩])
  have hstmt := exprStmt_of_expr hexpr
  rw [← stmt_of_readable hv hts] at hstmt
  obtain ⟨t, us, rfl, ht⟩ := exists_first hv hts
  obtain ⟨span, hmodule⟩ := module_of_stmt (endsStmt_eq_false ht) (isBlockEnd_eq_false ht false) hstmt name
  exact ⟨e, span, hmodule, hden⟩

end Parser

end Sluice
