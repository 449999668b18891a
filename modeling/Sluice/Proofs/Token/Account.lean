import Mathlib.Data.List.Induction
import Sluice.Proofs.Token.Scanned

/-! What tokens say about the text that they come from. The tokens of a source text stand in it one behind
the other, with only white space and comments between them; the span of each says where its text is, and
that text alone is cut into the same token again. -/
namespace Sluice

open Lexeme (isEnd Lexical)

/-- The span starts after the text `before`, on the line and in the column where that text ends. -/
structure Span.StartsAfter (s : Span) (before : String) : Prop where
  start : s.start = before.utf8ByteSize
  line : s.line = 1 + before.toList.count '\n'
  col : s.col = 1 + (before.toList.reverse.takeWhile (· ≠ '\n')).length

/-- Between the bytes `a` and `b` of the source stands `text`, and `after` follows it. -/
def Stretch (src : String) (a b : Nat) (text after : String) : Prop :=
  ∃ before, src = before ++ text ++ after ∧ a = before.utf8ByteSize ∧ b = (before ++ text).utf8ByteSize

theorem eq_of_append_eq {a a' b b' : String} (h : a ++ b = a' ++ b')
    (hsize : a.utf8ByteSize = a'.utf8ByteSize) : a = a' := by
  have hsame {a a' : String} {x : List Char} (hsize : a.utf8ByteSize = a'.utf8ByteSize)
      (h : a'.toList = a.toList ++ x) : a = a' := by
    have ha' : a' = a ++ String.ofList x := by
      rw [← String.toList_inj, h]
      simp
    have hx : (String.ofList x).utf8ByteSize = 0 := by
      rw [ha', String.utf8ByteSize_append] at hsize
      omega
    rw [ha', String.utf8ByteSize_eq_zero_iff.1 hx, String.append_empty]
  have hlists := congrArg String.toList h
  rw [String.toList_append, String.toList_append] at hlists
  rcases List.append_eq_append_iff.1 hlists with ⟨x, hx, -⟩ | ⟨x, hx, -⟩
  · exact hsame hsize hx
  · exact (hsame hsize.symm hx).symm

/-- The text of a stretch is one text. -/
theorem Stretch.text_eq {src : String} {a b : Nat} {text text' after after' : String}
    (h : Stretch src a b text after) (h' : Stretch src a b text' after') : text = text' := by
  obtain ⟨before, hsrc, ha, hb⟩ := h
  obtain ⟨before', hsrc', ha', hb'⟩ := h'
  have hends := hsrc.symm.trans hsrc'
  have hwhole : before ++ text = before' ++ text' := eq_of_append_eq hends (hb.symm.trans hb')
  obtain rfl : before = before' := eq_of_append_eq hwhole (ha.symm.trans ha')
  rw [← String.toList_inj] at hwhole ⊢
  simpa using hwhole

namespace Position

theorem col_after_zero (cs : List Char) :
    (zero.after cs).col = 1 + (cs.reverse.takeWhile (· ≠ '\n')).length := by
  induction cs using List.reverseRecOn with
  | nil => rfl
  | append_singleton cs c ih =>
    rw [after_append, List.reverse_append, List.reverse_singleton, List.singleton_append,
      List.takeWhile_cons, after_cons, after_nil, advance]
    by_cases hc : c = '\n'
    · simp [hc]
    · simp only [hc, if_false, ne_eq, not_false_iff, decide_true, if_true, List.length_cons, ih]
      omega

theorem offset_after_zero (cs : List Char) :
    (zero.after cs).offset = (String.ofList cs).utf8ByteSize := by
  rw [offset_after]
  exact Nat.zero_add _

theorem startsAfter_spanTo (cs : List Char) (q : Position) :
    ((zero.after cs).spanTo q).StartsAfter (String.ofList cs) where
  start := offset_after_zero cs
  line := by
    rw [String.toList_ofList]
    exact line_after zero cs
  col := by
    rw [String.toList_ofList]
    exact col_after_zero cs

end Position

namespace Token

/-- The token stands for `text`, which comes after `before` in the source and before `after`. Only an end at
the end of the source stands for nothing, and an end of a statement elsewhere for a line end; a name is its
own text. -/
structure Marks (t : Token) (before text after : String) : Prop where
  starts : t.span.StartsAfter before
  stop : t.span.stop = (before ++ text).utf8ByteSize
  empty : text = "" → isEnd t.kind = true ∧ after = ""
  lineEnd : t.kind = .stmtEnd → text = "" ∨ text = "\n"
  name : ∀ name, t.kind = .ident name ∨ t.kind = .typeName name → text = name
  again : isEnd t.kind = false →
    ∃ more, scan text = .ok (⟨t.kind, ⟨0, text.utf8ByteSize, 1, 1⟩⟩ :: more)

/-- The tokens account for the source from the byte `n` on. -/
structure Accounts (src : String) (n : Nat) (ts : List Token) : Prop where
  later : ∀ t ∈ ts, n ≤ t.span.start
  ordered : ts.Pairwise fun t u => t.span.stop ≤ u.span.start
  marks : ∀ t ∈ ts, ∃ before text after, src = before ++ text ++ after ∧ t.Marks before text after
  gaps : ∀ g ∈ (n :: ts.map (·.span.stop)).zip (ts.map (·.span.start) ++ [src.utf8ByteSize]),
    ∃ text after, Stretch src g.1 g.2 text after ∧ Trivia text.toList after.toList

end Token

/-! ### Lexemes alone -/

namespace Lexeme

variable {kind : Token.Kind} {c : Char} {tail rest : List Char}

theorem ofChar?_of_isSpace (h : isSpace c = true) : Symbol.ofChar? c = none := by
  rcases isSpace_iff.1 h with rfl | rfl | rfl | rfl | rfl <;> rfl

/-- No white space starts a lexeme. -/
theorem Lexical.isSpace_eq_false (h : Lexical kind c tail rest) : isSpace c = false := by
  apply Bool.eq_false_iff.2
  intro hspace
  cases h with
  | pair _ hs => rcases isSpace_iff.1 hspace with rfl | rfl | rfl | rfl | rfl <;> cases hs
  | sign hs =>
    rw [ofChar?_of_isSpace hspace] at hs
    cases hs
  | string => cases hspace
  | char => cases hspace
  | int hd => exact absurd hd (by simp [isDigit_of_isSpace c hspace])
  | float hd => exact absurd hd (by simp [isDigit_of_isSpace c hspace])
  | word hc =>
    have hword := isWordChar_of_isSpace c hspace
    simp only [isWordChar, Char.isAlphanum, Bool.or_eq_false_iff] at hword
    simp [hword.1.1, hword.2] at hc

/-- No comment starts a lexeme. -/
theorem Lexical.head?_tail_ne (h : Lexical kind c tail rest) (hc : c = '/') : tail.head? ≠ some '/' := by
  subst hc
  cases h with
  | pair _ hs =>
    rintro ⟨⟩
    cases hs
  | sign => nofun
  | int hd => cases hd
  | float hd => cases hd
  | word hc => cases hc

/-- A lexeme alone is cut into its own token. -/
theorem Lexical.scan_alone (h : Lexical kind c tail rest) : ∃ more,
    Token.scan (String.ofList (c :: tail)) =
      .ok (⟨kind, ⟨0, (String.ofList (c :: tail)).utf8ByteSize, 1, 1⟩⟩ :: more) := by
  have hskip : Gap.skip false false .zero (c :: tail) = ⟨.zero, c :: tail, none⟩ := by
    have hc := h.isSpace_eq_false
    simp only [isSpace, Bool.or_eq_false_iff, decide_eq_false_iff_not] at hc
    have hslash : ¬ (c = '/' ∧ tail.head? = some '/') := fun hs => h.head?_tail_ne hs.1 hs.2
    simp [Gap.skip, hc, hslash]
  let e := Position.zero.after (c :: tail)
  refine ⟨Token.ending (LineState.next {} ⟨kind, Position.zero.spanTo e⟩) e, ?_⟩
  rw [Token.scan, String.toList_ofList, Token.scanFrom_eq]
  simp only [LineState.breaksLine, Bool.not_true, Bool.false_and, hskip, Token.scanAfter,
    h.alone.reads.read_eq (List.append_nil tail)]
  rw [Token.scanFrom_eq, ← Position.offset_after_zero]
  rfl

end Lexeme

namespace Token

/-! ### Tokens in the source -/

section

variable {src : String} {before gap text after : List Char}

theorem stretch_of_toList (h : src.toList = before ++ (text ++ after)) :
    Stretch src (Position.zero.after before).offset ((Position.zero.after before).after text).offset
      (String.ofList text) (String.ofList after) := by
  refine ⟨String.ofList before, ?_, Position.offset_after_zero before, ?_⟩
  · rw [← String.toList_inj, h]
    simp
  · rw [← Position.after_append, Position.offset_after_zero, String.ofList_append]

theorem marks_lexeme {kind : Kind} {c : Char} {tail rest : List Char} (h : Lexical kind c tail rest)
    (before after : List Char) :
    Marks ⟨kind, (Position.zero.after before).spanTo ((Position.zero.after before).after (c :: tail))⟩
      (String.ofList before) (String.ofList (c :: tail)) (String.ofList after) where
  starts := Position.startsAfter_spanTo before _
  stop := by
    rw [← String.ofList_append, ← Position.offset_after_zero, Position.after_append]
    rfl
  empty h := by simp at h
  lineEnd hkind := by
    have hend := h.isEnd_eq_false
    rw [show kind = .stmtEnd from hkind] at hend
    cases hend
  name _ hname := h.text_eq hname
  again _ := h.scan_alone

/-- A token that ends a statement over a line end, or one at the end of the source. -/
theorem marks_end {kind : Kind} (hkind : isEnd kind = true)
    (htext : text = [] ∧ after = [] ∨ text = ['\n']) :
    Marks ⟨kind, (Position.zero.after before).spanTo ((Position.zero.after before).after text)⟩
      (String.ofList before) (String.ofList text) (String.ofList after) where
  starts := Position.startsAfter_spanTo before _
  stop := by
    rw [← String.ofList_append, ← Position.offset_after_zero, Position.after_append]
    rfl
  empty h := by
    rcases htext with ⟨-, rfl⟩ | rfl
    · exact ⟨hkind, rfl⟩
    · simp at h
  lineEnd _ := by
    rcases htext with ⟨rfl, -⟩ | rfl
    · exact .inl rfl
    · exact .inr rfl
  name name h := by
    rcases h with h | h <;>
      · rw [show kind = _ from h] at hkind
        cases hkind
  again h := by
    rw [show isEnd kind = false from h] at hkind
    cases hkind

/-- After the last token only white space and comments stand. -/
theorem accounts_nil (h : src.toList = before ++ gap) (hgap : Trivia gap []) :
    Accounts src (Position.zero.after before).offset [] where
  later := nofun
  ordered := .nil
  marks := nofun
  gaps := by
    rintro g hg
    obtain rfl := List.mem_singleton.1 hg
    have hsrc : src.toList = before ++ (gap ++ []) := by rw [h, List.append_nil]
    have hsize : ((Position.zero.after before).after gap).offset = src.utf8ByteSize := by
      rw [← Position.after_append, ← h, Position.offset_after_zero, String.ofList_toList]
    refine ⟨String.ofList gap, "", hsize ▸ stretch_of_toList hsrc, ?_⟩
    rwa [String.toList_ofList]

/-- One token more, after white space and comments. -/
theorem Accounts.cons {kind : Kind} {ts : List Token} {q : Position}
    (hq : q = (Position.zero.after before).after gap) (h : src.toList = before ++ (gap ++ (text ++ after)))
    (hgap : Trivia gap (text ++ after))
    (hmarks : Marks ⟨kind, q.spanTo (q.after text)⟩ (String.ofList (before ++ gap)) (String.ofList text)
      (String.ofList after))
    (hts : Accounts src (q.after text).offset ts) :
    Accounts src (Position.zero.after before).offset (⟨kind, q.spanTo (q.after text)⟩ :: ts) where
  later := by
    have hle := Position.offset_le_after (Position.zero.after before) gap
    have hle' := Position.offset_le_after q text
    rw [← hq] at hle
    refine List.forall_mem_cons.2 ⟨hle, fun t ht => ?_⟩
    have := hts.later t ht
    omega
  ordered := List.pairwise_cons.2 ⟨hts.later, hts.ordered⟩
  marks := by
    refine List.forall_mem_cons.2 ⟨⟨_, _, _, ?_, hmarks⟩, hts.marks⟩
    rw [← String.toList_inj, h]
    simp
  gaps := by
    refine List.forall_mem_cons.2 ⟨⟨String.ofList gap, String.ofList (text ++ after), ?_, ?_⟩, hts.gaps⟩
    · rw [hq]
      exact stretch_of_toList h
    · rwa [String.toList_ofList, String.toList_ofList]

/-- A token at the end of the source. -/
theorem Accounts.atEnd {kind : Kind} {ts : List Token} {q : Position} (hkind : isEnd kind = true)
    (hq : q = (Position.zero.after before).after gap) (h : src.toList = before ++ gap)
    (hgap : Trivia gap []) (hts : Accounts src q.offset ts) :
    Accounts src (Position.zero.after before).offset (⟨kind, q.spanTo q⟩ :: ts) := by
  have hmarks : Marks ⟨kind, q.spanTo (q.after [])⟩ (String.ofList (before ++ gap)) (String.ofList [])
      (String.ofList []) := by
    rw [hq, ← Position.after_append]
    exact marks_end hkind (.inl ⟨rfl, rfl⟩)
  exact Accounts.cons hq (by rw [h, List.append_nil, List.append_nil]) hgap hmarks hts

theorem accounts_ending (l : LineState) (h : src.toList = before ++ gap) (hgap : Trivia gap []) :
    Accounts src (Position.zero.after before).offset
      (ending l ((Position.zero.after before).after gap)) := by
  have hend : src.toList = (before ++ gap) ++ [] := by rw [h, List.append_nil]
  have hnil := accounts_nil hend (.nil [])
  have heof : Accounts src _ (⟨.eof, _⟩ :: _) := hnil.atEnd rfl rfl hend (.nil [])
  rw [Position.after_append] at hnil heof
  unfold ending
  split
  · exact hnil.atEnd rfl rfl h hgap
  · exact heof.atEnd rfl rfl h hgap

/-- Token by token, what is scanned accounts for the text. -/
theorem accounts_of_scanned {l : LineState} {p : Position} {cs : List Char} {ts : List Token}
    (h : Scanned l p cs ts) (before : List Char) (hp : p = Position.zero.after before)
    (hsrc : src.toList = before ++ cs) : Accounts src p.offset ts := by
  induction h generalizing before with
  | @lineEnd _ p gap rest _ hgap hline hbreaks h ih =>
    subst hp
    have hrest := ih (before ++ gap ++ ['\n'])
      (by rw [Position.after_append, Position.after_append]; rfl) (by simpa using hsrc)
    have hmarks : Marks ⟨.stmtEnd, (Position.zero.after (before ++ gap)).spanTo
        ((Position.zero.after (before ++ gap)).after ['\n'])⟩ (String.ofList (before ++ gap))
        (String.ofList ['\n']) (String.ofList rest) := marks_end rfl (.inr rfl)
    rw [Position.after_append] at hmarks
    exact Accounts.cons rfl hsrc hgap hmarks hrest
  | finish hgap hline =>
    subst hp
    exact accounts_ending _ hsrc hgap
  | @lexeme _ p gap rest _ c tail _ hgap hline hread h ih =>
    subst hp
    have hrest := ih (before ++ gap ++ c :: tail)
      (by rw [Position.after_append, Position.after_append]) (by simpa using hsrc)
    have hmarks := marks_lexeme hread (before ++ gap) rest
    rw [Position.after_append] at hmarks
    exact Accounts.cons rfl hsrc hgap hmarks hrest

end

theorem stop_le_of_scan {src : String} {ts : List Token} (h : scan src = .ok ts) {t : Token} (ht : t ∈ ts) :
    t.span.stop ≤ src.utf8ByteSize := by
  obtain ⟨before, text, after, hsrc, hmarks⟩ :=
    (accounts_of_scanned (scanned_of_scan h) [] rfl rfl).marks t ht
  rw [hsrc, hmarks.stop, String.utf8ByteSize_append]
  simp

/-- The tokens of a source text account for the whole of it: they stand in it in their order and apart, each
where its span says, with only white space and comments before, between and behind them; only an end at the
end of the source stands for no text; the text of every other token is cut into that token again; and the
last token, and no other, is the end of the source, where the source ends. -/
theorem scan_accounts {src : String} {ts : List Token} (h : scan src = .ok ts) :
    Accounts src 0 ts ∧ ∃ init last, ts = init ++ [last] ∧ last.kind = .eof ∧
      last.span.start = src.utf8ByteSize ∧ last.span.stop = src.utf8ByteSize ∧
      ∀ t ∈ init, t.kind ≠ .eof := by
  obtain ⟨inner, hinner, hinside, -⟩ := scanFrom_newline h
  have hsize : (Position.zero.after src.toList).offset = src.utf8ByteSize := by
    rw [Position.offset_after_zero, String.ofList_toList]
  refine ⟨accounts_of_scanned (scanned_of_scan h) [] rfl rfl, ?_⟩
  rw [hinner, ending]
  generalize Position.zero.after src.toList = here at hsize ⊢
  split
  · exact ⟨inner, ⟨.eof, here.spanTo here⟩, rfl, rfl, hsize, hsize, fun t ht => (hinside t ht).1⟩
  · refine ⟨inner ++ [⟨.stmtEnd, here.spanTo here⟩], ⟨.eof, here.spanTo here⟩, by simp, rfl, hsize, hsize, ?_⟩
    exact List.forall_mem_append.2 ⟨fun t ht => (hinside t ht).1, List.forall_mem_singleton.2 (by simp)⟩

/-- A text with a character of two bytes, a string over two lines, a range, a comment at the end of a line
and one at the end of the source. -/
def mixedText : String := "s = \"é\n\" // one\n1..5 => x //"

theorem mixedText_accounts : ∃ ts, scan mixedText = .ok ts ∧
    ts.map (fun t => (t.kind.label, t.span)) =
      [("Ident", ⟨0, 1, 1, 1⟩), ("Eq", ⟨2, 3, 1, 3⟩), ("Str", ⟨4, 9, 1, 5⟩), ("StmtEnd", ⟨16, 17, 2, 9⟩),
        ("Int", ⟨17, 18, 3, 1⟩), ("DotDot", ⟨18, 20, 3, 2⟩), ("Int", ⟨20, 21, 3, 4⟩),
        ("FatArrow", ⟨22, 24, 3, 6⟩), ("Ident", ⟨25, 26, 3, 9⟩), ("StmtEnd", ⟨29, 29, 3, 13⟩),
        ("Eof", ⟨29, 29, 3, 13⟩)] ∧
    Accounts mixedText 0 ts := by
  have hspans : (scan mixedText).toOption.map (List.map fun t => (t.kind.label, t.span)) = some
      [("Ident", ⟨0, 1, 1, 1⟩), ("Eq", ⟨2, 3, 1, 3⟩), ("Str", ⟨4, 9, 1, 5⟩), ("StmtEnd", ⟨16, 17, 2, 9⟩),
        ("Int", ⟨17, 18, 3, 1⟩), ("DotDot", ⟨18, 20, 3, 2⟩), ("Int", ⟨20, 21, 3, 4⟩),
        ("FatArrow", ⟨22, 24, 3, 6⟩), ("Ident", ⟨25, 26, 3, 9⟩), ("StmtEnd", ⟨29, 29, 3, 13⟩),
        ("Eof", ⟨29, 29, 3, 13⟩)] := by decide +kernel
  cases hts : scan mixedText with
  | error e =>
    rw [hts] at hspans
    cases hspans
  | ok ts =>
    rw [hts] at hspans
    exact ⟨ts, rfl, Option.some.inj hspans, (scan_accounts hts).1⟩

end Token

end Sluice
