import Sluice.Proofs.Token.Respaced

/-! Where statements end. An end of a statement stands after a token that can end one if a line end or the
end of the source follows, outside round and square brackets; so more space at line ends changes nothing. -/
namespace Sluice

open Lexeme (isEnd)

namespace Token

/-! ### The rule -/

def bracket? : Kind → Option Delim
  | .symbol .lparen => some .paren
  | .symbol .lbracket => some .bracket
  | .symbol .lbrace => some .brace
  | _ => none

def closesBracket : Kind → Bool
  | .symbol .rparen | .symbol .rbracket | .symbol .rbrace => true
  | _ => false

/-- The innermost bracket that is open after some tokens, last first, and `n` closing brackets more: looking
back, each closing bracket makes up for one opening bracket of whatever form. -/
def innermost (n : Nat) : List Token → Option Delim
  | [] => none
  | t :: before =>
    match bracket? t.kind, n with
    | some d, 0 => some d
    | some _, n + 1 => innermost n before
    | none, n => innermost (if closesBracket t.kind then n + 1 else n) before

def Enclosed (before : List Token) : Prop :=
  innermost 0 before = some .paren ∨ innermost 0 before = some .bracket

def endsTypes : Kind → Bool
  | .stmtEnd | .symbol .semicolon | .symbol .lbrace | .symbol .rbrace => true
  | _ => false

def opensTypes (head t : Token) : Bool :=
  match t.kind with
  | .symbol .less => LineState.headsType head.kind && head.span.stop = t.span.start
  | _ => false

def openings : List Token → Nat
  | t :: head :: before => openings (head :: before) + if opensTypes head t then 1 else 0
  | _ => 0

/-- How many of the tokens, last first, close type arguments: each `>` before which more were opened than
closed. -/
def closings : List Token → Nat
  | [] => 0
  | t :: before =>
    match t.kind with
    | .symbol .greater => closings before + if closings before < openings before then 1 else 0
    | _ => closings before

def InTypes (before : List Token) : Prop :=
  closings (before.takeWhile fun t => !endsTypes t.kind) <
    openings (before.takeWhile fun t => !endsTypes t.kind)

/-- A token that can be the last one of its line, where the tokens before it are given last first. -/
def ClosesLine (before : List Token) (t : Token) : Prop :=
  t.kind ≠ .symbol .semicolon ∧ t.kind ≠ .symbol .lbrace ∧
    (t.kind.wantsOperand = false ∨ t.kind = .symbol .greater ∧ InTypes before)

/-- A line end stands between two tokens. No line end is inside a comment, as comments end before them. -/
def LineEndBetween (src : String) (t u : Token) : Prop :=
  ∃ text after, Stretch src t.span.stop u.span.start text after ∧ '\n' ∈ text.toList

/-! ### The state after some tokens -/

structure Reflects (seen : List Token) (l : LineState) : Prop where
  delims : ∀ n, innermost n seen = l.delims[n]?
  typeHead : l.typeHead = (seen.head?.filter fun t => LineState.headsType t.kind).map (·.span.stop)
  typeArgs : l.typeArgs + closings (seen.takeWhile fun t => !endsTypes t.kind) =
    openings (seen.takeWhile fun t => !endsTypes t.kind)

theorem reflects_nil : Reflects [] {} := ⟨fun _ => rfl, rfl, rfl⟩

theorem nextDelims_eq (ds : List Delim) (k : Kind) : LineState.nextDelims ds k =
    match bracket? k with
    | some d => d :: ds
    | none => if closesBracket k then ds.tail else ds := by
  cases k with
  | symbol s => cases s <;> rfl
  | _ => rfl

namespace Reflects

variable {seen : List Token} {l : LineState}

theorem delims_next (h : Reflects seen l) (t : Token) (n : Nat) :
    innermost n (t :: seen) = (l.next t).delims[n]? := by
  rw [LineState.next, nextDelims_eq]
  unfold innermost
  cases bracket? t.kind with
  | some d =>
    cases n with
    | zero => rfl
    | succ n => exact h.delims n
  | none =>
    dsimp only
    split
    · rw [h.delims, List.getElem?_tail]
    · exact h.delims n

/-- One token more opens type arguments if it is a `<` where the head of a type ends. -/
theorem openings_cons (h : Reflects seen l) (t : Token) :
    openings (t :: seen.takeWhile fun t => !endsTypes t.kind) =
      openings (seen.takeWhile fun t => !endsTypes t.kind) +
        match t.kind with
        | .symbol .less => if l.typeHead = some t.span.start then 1 else 0
        | _ => 0 := by
  rw [h.typeHead]
  cases seen with
  | nil => split <;> rfl
  | cons head seen =>
    cases hends : endsTypes head.kind with
    | true =>
      have hhead : LineState.headsType head.kind = false := by
        unfold endsTypes at hends
        split at hends <;> simp_all [LineState.headsType]
      simp only [List.takeWhile_cons, hends, Bool.not_true, Bool.false_eq_true, if_false, List.head?_cons,
        Option.filter_some, hhead]
      split <;> rfl
    | false =>
      simp only [List.takeWhile_cons, hends, Bool.not_false, if_true, openings, opensTypes, List.head?_cons,
        Option.filter_some]
      congr 1
      obtain ⟨kind, span⟩ := t
      cases kind with
      | symbol s =>
        cases s with
        | less => by_cases hhead : LineState.headsType head.kind = true <;> simp [hhead]
        | _ => rfl
      | _ => rfl

theorem typeArgs_next (h : Reflects seen l) (t : Token) :
    (l.next t).typeArgs + closings ((t :: seen).takeWhile fun t => !endsTypes t.kind) =
      openings ((t :: seen).takeWhile fun t => !endsTypes t.kind) := by
  have hargs := h.typeArgs
  have hopen := h.openings_cons t
  cases hends : endsTypes t.kind with
  | true =>
    simp only [List.takeWhile_cons, hends, Bool.not_true, Bool.false_eq_true, if_false, openings, closings]
    unfold endsTypes at hends
    split at hends <;> simp_all [LineState.next, LineState.nextTypeArgs]
  | false =>
    simp only [List.takeWhile_cons, hends, Bool.not_false, if_true]
    rw [hopen, closings, LineState.next, LineState.nextTypeArgs]
    obtain ⟨kind, span⟩ := t
    cases kind with
    | symbol s =>
      cases s with
      | less =>
        dsimp only
        split <;> omega
      | greater =>
        dsimp only
        split <;> omega
      | semicolon | lbrace | rbrace => cases hends
      | _ => exact hargs
    | stmtEnd => cases hends
    | _ => exact hargs

theorem next (h : Reflects seen l) (t : Token) : Reflects (t :: seen) (l.next t) where
  delims := h.delims_next t
  typeHead := by
    simp only [LineState.next, List.head?_cons, Option.filter_some]
    split <;> rfl
  typeArgs := h.typeArgs_next t

theorem foldl (h : Reflects seen l) (ts : List Token) :
    Reflects (ts.reverse ++ seen) (ts.foldl LineState.next l) := by
  induction ts generalizing seen l with
  | nil => exact h
  | cons t ts ih =>
    rw [List.reverse_cons, List.append_assoc]
    exact ih (h.next t)

theorem inTypes_iff (h : Reflects seen l) : InTypes seen ↔ l.typeArgs ≠ 0 := by
  have hargs := h.typeArgs
  rw [InTypes]
  omega

/-- A token leaves its statement open unless it can be the last one of its line. -/
theorem leavesOpen_iff (h : Reflects seen l) {t : Token} (ht : isEnd t.kind = false) :
    l.leavesOpen t.kind = false ↔ ClosesLine seen t := by
  rw [ClosesLine, h.inTypes_iff]
  obtain ⟨kind, span⟩ := t
  cases kind with
  | eof | stmtEnd => cases ht
  | symbol s => cases s <;> simp [LineState.leavesOpen, Kind.wantsOperand, Symbol.wantsOperand]
  | _ => simp [LineState.leavesOpen, Kind.wantsOperand]

theorem breaksLine_iff (h : Reflects seen l) :
    l.breaksLine = true ↔ l.continues = false ∧ ¬ Enclosed seen := by
  rw [Enclosed, h.delims, LineState.breaksLine, Bool.and_eq_true, Bool.not_eq_true']
  apply and_congr_right
  intro _
  cases l.delims with
  | nil => simp
  | cons d ds => cases d <;> simp

end Reflects

/-! ### The tokens of a text -/

theorem ne_of_isEnd {k : Kind} (h : isEnd k = false) : k ≠ .stmtEnd ∧ k ≠ .eof := by
  constructor
  · rintro rfl
    cases h
  · rintro rfl
    cases h

theorem isEnd_of_mem_ending {l : LineState} {here : Position} {t : Token} (h : t ∈ ending l here) :
    isEnd t.kind = true := by
  unfold ending at h
  split at h
  · rw [List.mem_singleton] at h
    rw [h]
    rfl
  · rcases List.mem_pair.1 h with rfl | rfl <;> rfl

namespace Scanned

variable {l : LineState} {p : Position} {cs : List Char} {ts : List Token}

/-- What follows a token of the text is scanned in the state that the tokens before it leave. -/
theorem split {before after : List Token} {t : Token} (h : Scanned l p cs (before ++ t :: after))
    (ht : isEnd t.kind = false) : ∃ front rest, cs = front ++ rest ∧
      Scanned (before.foldl LineState.next l) (p.after front) rest (t :: after) := by
  induction before generalizing l p cs with
  | nil => exact ⟨[], cs, rfl, h⟩
  | cons u before ih =>
    generalize hts : u :: before ++ t :: after = ts at h
    cases h with
    | @lineEnd _ _ gap rest _ _ _ _ h =>
      cases hts
      obtain ⟨front, rest', rfl, hrest⟩ := ih h
      exact ⟨gap ++ '\n' :: front, rest', by simp, by rwa [Position.after_append]⟩
    | finish =>
      have hend := isEnd_of_mem_ending (t := t) (by rw [← hts]; simp)
      rw [hend] at ht
      cases ht
    | @lexeme _ _ gap rest _ c tail _ _ _ _ h =>
      cases hts
      obtain ⟨front, rest', rfl, hrest⟩ := ih h
      refine ⟨gap ++ c :: (tail ++ front), rest', by simp, ?_⟩
      rwa [Position.after_append, ← List.cons_append, Position.after_append]

/-- What follows the first token is scanned from its end. -/
theorem tail {t : Token} (h : Scanned l p cs (t :: ts)) (ht : isEnd t.kind = false) :
    ∃ front rest, cs = front ++ rest ∧ t.span.stop = (p.after front).offset ∧
      Scanned (l.next t) (p.after front) rest ts := by
  generalize hts : t :: ts = ts' at h
  cases h with
  | lineEnd =>
    cases hts
    cases ht
  | finish =>
    have hend := isEnd_of_mem_ending (t := t) (by rw [← hts]; simp)
    rw [hend] at ht
    cases ht
  | @lexeme _ _ gap rest _ c tail _ _ _ _ h =>
    cases hts
    refine ⟨gap ++ c :: tail, rest, by simp, ?_, ?_⟩
    · rw [Position.after_append]
      rfl
    · rwa [Position.after_append]

/-- Where a statement is open, no end of a statement comes first. -/
theorem first {t : Token} (h : Scanned l p cs (t :: ts)) (hcontinues : l.continues = true) :
    t.kind ≠ .stmtEnd ∧ ∃ gap rest, cs = gap ++ rest ∧ t.span.start = (p.after gap).offset := by
  generalize hts : t :: ts = ts' at h
  cases h with
  | lineEnd _ _ hbreaks => simp [LineState.breaksLine, hcontinues] at hbreaks
  | finish =>
    rw [ending, if_pos hcontinues] at hts
    cases hts
    exact ⟨by simp, cs, [], by simp, rfl⟩
  | @lexeme _ _ gap rest _ c tail _ _ _ hread =>
    cases hts
    exact ⟨(ne_of_isEnd hread.isEnd_eq_false).1, gap, c :: (tail ++ rest), rfl, rfl⟩

/-- Ends of statements before the next token: one if the statement before can end and the line or the source
ends. -/
theorem ends {ends after : List Token} {next : Token} (h : Scanned l p cs (ends ++ next :: after))
    (hends : ∀ e ∈ ends, e.kind = .stmtEnd) (hnext : next.kind ≠ .stmtEnd) :
    ∃ gap rest, cs = gap ++ rest ∧ next.span.start = (p.after gap).offset ∧ ends.length ≤ 1 ∧
      (ends.length = 1 ↔
        l.continues = false ∧ (next.kind = .eof ∨ '\n' ∈ gap ∧ l.breaksLine = true)) := by
  generalize hts : ends ++ next :: after = ts at h
  cases h with
  | @lineEnd _ _ gap rest _ _ hline hbreaks h =>
    have hcontinues : l.continues = false := by
      rw [LineState.breaksLine, Bool.and_eq_true, Bool.not_eq_true'] at hbreaks
      exact hbreaks.1
    cases ends with
    | nil =>
      cases hts
      exact (hnext rfl).elim
    | cons e ends =>
      obtain ⟨-, rfl⟩ := List.cons.inj hts
      cases ends with
      | nil =>
        obtain ⟨-, gap', rest', rfl, hstart⟩ := h.first rfl
        refine ⟨gap ++ '\n' :: gap', rest', by simp, ?_, Nat.le_refl 1, ?_⟩
        · rw [hstart, Position.after_append]
          rfl
        · simp [hcontinues, hbreaks]
      | cons e' ends => exact absurd (hends e' (by simp)) (h.first rfl).1
  | finish =>
    rw [ending] at hts
    split at hts
    next hcontinues =>
      cases ends with
      | nil =>
        cases hts
        exact ⟨cs, [], by simp, rfl, Nat.zero_le 1, by simp [hcontinues]⟩
      | cons e ends => simp at hts
    next hcontinues =>
      cases ends with
      | nil =>
        cases hts
        exact (hnext rfl).elim
      | cons e ends =>
        cases ends with
        | nil =>
          cases hts
          exact ⟨cs, [], by simp, rfl, Nat.le_refl 1, by simp [hcontinues]⟩
        | cons e' ends => simp at hts
  | @lexeme _ _ gap rest _ c tail _ _ hline hread =>
    obtain ⟨hstmt, heof⟩ := ne_of_isEnd hread.isEnd_eq_false
    cases ends with
    | nil =>
      cases hts
      refine ⟨gap, c :: (tail ++ rest), rfl, rfl, Nat.zero_le 1, ?_⟩
      simp only [List.length_nil, Nat.zero_ne_one, heof, false_or, false_iff, not_and]
      exact fun _ hgap hbreaks => hline hbreaks hgap
    | cons e ends =>
      cases hts
      exact absurd (hends _ List.mem_cons_self) hstmt

end Scanned

/-- Statements end as the rule says. No end of a statement comes before the first other token, and at most one
after each; there is one if that token can be the last one of its line, and either no other token follows or a
line end stands before the next one, outside round and square brackets. More space at line ends, at the ends
and starts of lines, changes no kind of token. -/
theorem scan_places_line_ends {src : String} {ts : List Token} (h : scan src = .ok ts) :
    (∀ t ∈ ts.head?, t.kind ≠ .stmtEnd) ∧
    (∀ before t ends next after, ts = before ++ t :: (ends ++ next :: after) → isEnd t.kind = false →
      (∀ e ∈ ends, e.kind = .stmtEnd) → next.kind ≠ .stmtEnd →
      ends.length ≤ 1 ∧ (ends.length = 1 ↔ ClosesLine before.reverse t ∧
        (next.kind = .eof ∨ LineEndBetween src t next ∧ ¬ Enclosed (t :: before.reverse)))) ∧
    ∀ new, Respaced src new → ∃ ts', scan new = .ok ts' ∧ ts'.map kind = ts.map kind := by
  have hscanned := scanned_of_scan h
  refine ⟨fun t ht => ?_, ?_, fun new hnew => hnew.kinds_scan h⟩
  · cases ts with
    | nil => cases ht
    | cons u ts =>
      cases ht
      exact (hscanned.first rfl).1
  · rintro before t ends next after rfl ht hends hnext
    obtain ⟨front, rest, hsrc, hrest⟩ := hscanned.split ht
    obtain ⟨text, rest, rfl, hstop, hrest⟩ := hrest.tail ht
    obtain ⟨gap, rest, rfl, hstart, hlen, hone⟩ := hrest.ends hends hnext
    have hbefore := reflects_nil.foldl before
    rw [List.append_nil] at hbefore
    have hstretch : Stretch src t.span.stop next.span.start (String.ofList gap) (String.ofList rest) := by
      rw [hstop, hstart, ← Position.after_append]
      exact stretch_of_toList (by simpa using hsrc)
    have hline : LineEndBetween src t next ↔ '\n' ∈ gap := by
      constructor
      · rintro ⟨text', after', hstretch', hmem⟩
        rw [hstretch'.text_eq hstretch, String.toList_ofList] at hmem
        exact hmem
      · intro hmem
        exact ⟨_, _, hstretch, by rwa [String.toList_ofList]⟩
    refine ⟨hlen, ?_⟩
    rw [hone, (hbefore.next t).breaksLine_iff, hline, ← hbefore.leavesOpen_iff ht]
    simp only [LineState.next]
    tauto

/-- A text with a `>` that closes type arguments at the end of its first line and one that compares at the
end of its second, and with a line end in brackets. -/
def gluedText : String := "xs: List<Int>\na >\n(b,\nc)"

def gluedTokens : List Token :=
  [⟨.ident "xs", ⟨0, 2, 1, 1⟩⟩, ⟨.symbol .colon, ⟨2, 3, 1, 3⟩⟩, ⟨.ident "List", ⟨4, 8, 1, 5⟩⟩,
    ⟨.symbol .less, ⟨8, 9, 1, 9⟩⟩, ⟨.typeName "Int", ⟨9, 12, 1, 10⟩⟩, ⟨.symbol .greater, ⟨12, 13, 1, 13⟩⟩,
    ⟨.stmtEnd, ⟨13, 14, 1, 14⟩⟩, ⟨.ident "a", ⟨14, 15, 2, 1⟩⟩, ⟨.symbol .greater, ⟨16, 17, 2, 3⟩⟩,
    ⟨.symbol .lparen, ⟨18, 19, 3, 1⟩⟩, ⟨.ident "b", ⟨19, 20, 3, 2⟩⟩, ⟨.symbol .comma, ⟨20, 21, 3, 3⟩⟩,
    ⟨.ident "c", ⟨22, 23, 4, 1⟩⟩, ⟨.symbol .rparen, ⟨23, 24, 4, 2⟩⟩, ⟨.stmtEnd, ⟨24, 24, 4, 3⟩⟩,
    ⟨.eof, ⟨24, 24, 4, 3⟩⟩]

theorem gluedText_line_ends : scan gluedText = .ok gluedTokens ∧
    (ClosesLine (gluedTokens.take 5).reverse ⟨.symbol .greater, ⟨12, 13, 1, 13⟩⟩ ∧
      LineEndBetween gluedText ⟨.symbol .greater, ⟨12, 13, 1, 13⟩⟩ ⟨.ident "a", ⟨14, 15, 2, 1⟩⟩) ∧
    ∃ ts, scan "xs: List<Int> // é\r\n\n  a >\n(b,\nc)" = .ok ts ∧ ts.map kind = gluedTokens.map kind := by
  have hscan : scan gluedText = .ok gluedTokens := by with_unfolding_all rfl
  obtain ⟨-, hends, hspaced⟩ := scan_places_line_ends hscan
  have hfirst := (hends (gluedTokens.take 5) ⟨.symbol .greater, ⟨12, 13, 1, 13⟩⟩
    [⟨.stmtEnd, ⟨13, 14, 1, 14⟩⟩] ⟨.ident "a", ⟨14, 15, 2, 1⟩⟩ (gluedTokens.drop 8) rfl rfl
    (List.forall_mem_singleton.2 rfl) (by simp)).2.1 rfl
  have hnone : ∀ t ∈ gluedTokens, Lexeme.isQuoted t.kind = false := by decide
  have hsame : Respaced gluedText ("xs: List<Int>" ++ "\n" ++ "a >\n(b,\nc)") := by
    rw [show "xs: List<Int>" ++ "\n" ++ "a >\n(b,\nc)" = gluedText by decide]
    exact .same
  have houtside : OutsideLiterals ("xs: List<Int>" ++ "\n" ++ "a >\n(b,\nc)") 13 := by
    intro ts hts t ht hquoted
    rw [show "xs: List<Int>" ++ "\n" ++ "a >\n(b,\nc)" = gluedText by decide, hscan] at hts
    cases hts
    rw [hnone t ht] at hquoted
    cases hquoted
  have htrail : Gap.Trailing " // é\r".toList :=
    ⟨[' '], "// é\r".toList, by decide, List.forall_mem_singleton.2 rfl,
      .inr ⟨by decide, " é\r".toList, by decide, by decide⟩⟩
  have hlead : ∀ c ∈ "\n  ".toList, Lexeme.isSpace c = true := List.all_eq_true.1 (by decide)
  refine ⟨hscan, ⟨hfirst.1, (hfirst.2.resolve_left (by simp)).1⟩, ?_⟩
  exact hspaced _ (.line " // é\r" "\n  " htrail hlead hsame houtside)

end Token

end Sluice
