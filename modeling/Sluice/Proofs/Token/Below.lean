import Sluice.Parser.Basic
import Sluice.Proofs.Token.LineEnd
import Sluice.Proofs.Token.Scan

/-! Texts one below the other. A text that leaves no bracket and no statement open has its own tokens,
whatever stands below it, and what stands below has the tokens that it has alone, moved down. -/
namespace Sluice

def Span.moved (bytes lines : Nat) (s : Span) : Span :=
  ⟨s.start + bytes, s.stop + bytes, s.line + lines, s.col⟩

def Span.below (above : String) : Span → Span :=
  moved above.utf8ByteSize (above.toList.count '\n')

def Token.respan (f : Span → Span) (t : Token) : Token := ⟨t.kind, f t.span⟩

def Position.moved (bytes lines : Nat) (p : Position) : Position :=
  ⟨p.offset + bytes, p.line + lines, p.col⟩

def LineState.moved (bytes : Nat) (l : LineState) : LineState :=
  { l with typeHead := l.typeHead.map (· + bytes) }

def Gap.moved (bytes lines : Nat) (g : Gap) : Gap :=
  ⟨g.pos.moved bytes lines, g.rest, g.lineEnd.map (·.moved bytes lines)⟩

variable {bytes lines : Nat}

namespace Position

theorem advance_moved (p : Position) (c : Char) :
    (p.moved bytes lines).advance c = (p.advance c).moved bytes lines := by
  unfold advance moved
  split <;> simp <;> omega

theorem after_moved (p : Position) (cs : List Char) :
    (p.moved bytes lines).after cs = (p.after cs).moved bytes lines := by
  induction cs generalizing p with
  | nil => rfl
  | cons c cs ih => rw [after_cons, after_cons, advance_moved, ih]

theorem offset_after (p : Position) (cs : List Char) :
    (p.after cs).offset = p.offset + (String.ofList cs).utf8ByteSize := by
  induction cs generalizing p with
  | nil => simp
  | cons c cs ih =>
    rw [after_cons, ih, offset_advance, String.ofList_cons, String.utf8ByteSize_append,
      String.utf8ByteSize_singleton, Nat.add_assoc]

theorem offset_le_after (p : Position) (cs : List Char) : p.offset ≤ (p.after cs).offset := by
  rw [offset_after]
  exact Nat.le_add_right ..

theorem offset_lt_after (p : Position) (c : Char) (cs : List Char) :
    p.offset < (p.after (c :: cs)).offset := by
  have hadvance := offset_advance p c
  have hle := offset_le_after (p.advance c) cs
  have hsize := c.utf8Size_pos
  rw [after_cons]
  omega

theorem line_after (p : Position) (cs : List Char) :
    (p.after cs).line = p.line + cs.count '\n' := by
  induction cs generalizing p with
  | nil => rfl
  | cons c cs ih =>
    rw [after_cons, ih, List.count_cons, advance]
    split
    next hc => simp only [hc, beq_self_eq_true, if_true]; omega
    next hc => simp only [beq_iff_eq, hc, if_false, Nat.add_zero]

/-- After a line end a line starts. -/
theorem after_newline (cs : List Char) : zero.after (cs ++ ['\n']) =
    zero.moved (String.ofList (cs ++ ['\n'])).utf8ByteSize ((cs ++ ['\n']).count '\n') := by
  have hoffset := offset_after zero (cs ++ ['\n'])
  have hline := line_after zero (cs ++ ['\n'])
  have hcol : (zero.after (cs ++ ['\n'])).col = 1 := by rw [after_append]; rfl
  generalize zero.after (cs ++ ['\n']) = q at hoffset hline hcol
  obtain ⟨offset, line, col⟩ := q
  simp only at hoffset hline hcol
  rw [hoffset, hline, hcol]
  simp [moved, zero]

end Position

namespace LineState

theorem nextTypeArgs_moved (l : LineState) (t : Token) :
    (l.moved bytes).nextTypeArgs (t.respan (Span.moved bytes lines)) = l.nextTypeArgs t := by
  have hhead : (l.moved bytes).typeHead = some (t.span.start + bytes) ↔
      l.typeHead = some t.span.start := by
    simp [moved]
  simp only [nextTypeArgs, Token.respan, Span.moved, hhead]
  rfl

theorem next_moved (lines : Nat) (l : LineState) (t : Token) :
    (l.moved bytes).next (t.respan (Span.moved bytes lines)) = (l.next t).moved bytes := by
  rw [next, nextTypeArgs_moved]
  unfold moved next Token.respan
  dsimp only
  split <;> rfl

theorem delims_foldl (l : LineState) (ts : List Token) :
    (ts.foldl next l).delims = ts.foldl (fun ds t => nextDelims ds t.kind) l.delims := by
  induction ts generalizing l with
  | nil => rfl
  | cons t ts ih => exact ih (l.next t)

/-- An end of a statement outside all brackets leaves nothing of what came before. -/
theorem next_eq_start {l : LineState} {t : Token} (hdelims : l.delims = [])
    (ht : Parser.endsStmt t.kind = true) : l.next t = {} := by
  unfold Parser.endsStmt at ht
  split at ht <;> simp_all [next, nextTypeArgs, nextDelims, leavesOpen, headsType]

theorem delims_next_of_endsStmt (l : LineState) {t : Token} (ht : Parser.endsStmt t.kind = true) :
    (l.next t).delims = l.delims := by
  unfold Parser.endsStmt at ht
  split at ht <;> simp_all [next, nextDelims]

end LineState

theorem Gap.skip_moved (breaks inComment : Bool) (p : Position) (cs : List Char) :
    skip breaks inComment (p.moved bytes lines) cs = (skip breaks inComment p cs).moved bytes lines := by
  fun_induction skip breaks inComment p cs with
  | case1 => rfl
  | case2 inComment p r hbreaks => simp [skip, hbreaks, moved, Position.advance_moved]
  | case3 inComment p r hbreaks ih => simp_all [skip, Position.advance_moved]
  | case4 inComment p c r hline hblank ih => simp [skip, hline, hblank, Position.advance_moved, ih]
  | case5 inComment p c r hline hblank hslash ih =>
    simp [skip, hline, hblank, hslash, Position.advance_moved, ih]
  | case6 inComment p c r hline hblank hslash => simp [skip, hline, hblank, hslash, moved]

namespace Token

/-- The tokens seen before stand before those that follow. -/
theorem scanFrom_append (l : LineState) (p : Position) (cs : List Char) (seen before : List Token) :
    scanFrom l p cs (seen ++ before) = (scanFrom l p cs seen).map (before.reverse ++ ·) := by
  fun_induction scanFrom l p cs seen with
  | case1 l p cs seen q rest start hg t ih =>
    rw [scanFrom_eq, hg]
    exact ih
  | case2 l p cs seen q hg here ends =>
    rw [scanFrom_eq, hg]
    simp [scanAfter, Except.map, ends, here]
  | case3 l p cs seen q c r hg k hk =>
    rw [scanFrom_eq, hg, scanAfter, hk]
    rfl
  | case4 l p cs seen q c r hg lx hlx e t ih =>
    rw [scanFrom_eq, hg, scanAfter, hlx]
    exact ih

/-- A text that stands elsewhere has the same tokens there. -/
theorem scanFrom_moved (bytes lines : Nat) (l : LineState) (p : Position) (cs : List Char)
    (seen : List Token) :
    scanFrom (l.moved bytes) (p.moved bytes lines) cs (seen.map (respan (Span.moved bytes lines))) =
      ((scanFrom l p cs seen).map (List.map (respan (Span.moved bytes lines)))).mapError
        fun e => { e with line := e.line + lines } := by
  have hafter (l : LineState) (p : Position) (cs : List Char) (seen : List Token) :
      scanFrom (l.moved bytes) (p.moved bytes lines) cs seen =
        scanAfter (l.moved bytes) seen ((Gap.skip l.breaksLine false p cs).moved bytes lines) := by
    rw [scanFrom_eq, ← Gap.skip_moved]
    rfl
  fun_induction scanFrom l p cs seen with
  | case1 l p cs seen q rest start hg t ih =>
    rw [← ih, List.map_cons, ← LineState.next_moved lines, hafter, hg]
    rfl
  | case2 l p cs seen q hg here ends =>
    rw [hafter, hg]
    simp only [Gap.moved, scanAfter, Option.map_none, Except.map, Except.mapError, List.map_append,
      List.map_reverse, ends]
    show Except.ok (_ ++ if l.continues then _ else _) = _
    split <;> rfl
  | case3 l p cs seen q c r hg k hk =>
    rw [hafter, hg]
    simp only [Gap.moved, scanAfter, Option.map_none, hk]
    rfl
  | case4 l p cs seen q c r hg lx hlx e t ih =>
    rw [← ih, List.map_cons, ← LineState.next_moved lines, hafter, hg]
    simp only [Gap.moved, scanAfter, Option.map_none, hlx, Position.after_moved]
    rfl

/-- What stands for the end of the source: the end of the last statement, if it is owed, and the end. -/
def ending (l : LineState) (here : Position) : List Token :=
  if l.continues then [⟨.eof, here.spanTo here⟩]
  else [⟨.stmtEnd, here.spanTo here⟩, ⟨.eof, here.spanTo here⟩]

/-- A token inside a text: it does not stand for the end of the source, and an end of a statement covers
a line end. -/
def Inside (t : Token) : Prop :=
  t.kind ≠ .eof ∧ (t.kind = .stmtEnd → t.span.stop = t.span.start + 1)

/-- The tokens inside a text, and what follows them: what stands for the end of the source if the text
ends there, and otherwise the tokens of what stands below, whatever blanks and comment the last line has
at its end. -/
theorem scanFrom_newline {l : LineState} {p : Position} {cs : List Char} {seen out : List Token}
    (h : scanFrom l p cs seen = .ok out) : ∃ ts : List Token,
      out = seen.reverse ++ ts ++ ending (ts.foldl LineState.next l) (p.after cs) ∧
      (∀ t ∈ ts, t.Inside) ∧
      ∀ trail below, Gap.Trailing trail → scanFrom l p (cs ++ (trail ++ '\n' :: below)) seen =
        scanFrom (ts.foldl LineState.next l) (p.after (cs ++ trail)) ('\n' :: below) (ts.reverse ++ seen) := by
  fun_induction scanFrom l p cs seen with
  | case1 l p cs seen q rest start hg t ih =>
    obtain ⟨skipped, hcs, hq⟩ := Gap.exists_skipped l.breaksLine false p cs
    have hstop := Gap.pos_eq_of_lineEnd l.breaksLine false p cs start (by rw [hg])
    simp only [hg] at hcs hq hstop
    obtain ⟨ts, hout, hinside, hscan⟩ := ih h
    have hafter (trail : List Char) : p.after (cs ++ trail) = q.after (rest ++ trail) := by
      rw [hcs, List.append_assoc, Position.after_append, hq]
    have ht : t.Inside := ⟨nofun, fun _ => by simp only [t, hstop, Position.spanTo]; rfl⟩
    refine ⟨t :: ts, ?_, List.forall_mem_cons.2 ⟨ht, hinside⟩, fun trail below htrail => ?_⟩
    · simpa [hout] using congrArg (ending _) (hafter []).symm
    · rw [scanFrom_eq, Gap.skip_append _ _ _ _ htrail, hg, if_neg (by simp)]
      show scanFrom (l.next t) q (rest ++ (trail ++ '\n' :: below)) (t :: seen) = _
      simpa [hafter] using hscan trail below htrail
  | case2 l p cs seen q hg here ends =>
    obtain ⟨skipped, hcs, hq⟩ := Gap.exists_skipped l.breaksLine false p cs
    simp only [hg, List.append_nil] at hcs hq
    refine ⟨[], ?_, List.forall_mem_nil _, fun trail below htrail => ?_⟩
    · rw [hcs, ← hq, List.append_nil]
      exact (Except.ok.inj h).symm
    · rw [scanFrom_eq, Gap.skip_append _ _ _ _ htrail, hg, if_pos ⟨rfl, rfl⟩, List.foldl_nil,
        List.reverse_nil, List.nil_append, ← scanFrom_eq]
  | case3 l p cs seen q c r hg k hk => cases h
  | case4 l p cs seen q c r hg lx hlx e t ih =>
    obtain ⟨skipped, hcs, hq⟩ := Gap.exists_skipped l.breaksLine false p cs
    simp only [hg] at hcs hq
    obtain ⟨ts, hout, hinside, hscan⟩ := ih h
    have hafter (trail : List Char) : p.after (cs ++ trail) = e.after (lx.rest ++ trail) := by
      rw [hcs, List.append_assoc, Position.after_append, ← hq]
      exact (lx.after_rest q trail).symm
    have hkind := Lexeme.isEnd_of_read hlx
    have ht : t.Inside := by
      refine ⟨fun hk => ?_, fun hk => ?_⟩ <;>
        · rw [show lx.kind = _ from hk] at hkind
          cases hkind
    refine ⟨t :: ts, ?_, List.forall_mem_cons.2 ⟨ht, hinside⟩, fun trail below htrail => ?_⟩
    · simpa [hout] using congrArg (ending _) (hafter []).symm
    · rw [scanFrom_eq, Gap.skip_append _ _ _ _ htrail, hg, if_neg (by simp)]
      simp only [Gap.extend, List.cons_append, scanAfter, Lexeme.read_append hlx (htrail.spaced below)]
      show scanFrom (l.next t) e (lx.rest ++ (trail ++ '\n' :: below)) (t :: seen) = _
      simpa [hafter] using hscan trail below htrail

/-- An end of a statement that the source owed to its end covers the line end that follows instead. -/
def overLineEnd (t : Token) : Token :=
  match t.kind with
  | .stmtEnd =>
    if t.span.start = t.span.stop then ⟨.stmtEnd, { t.span with stop := t.span.stop + 1 }⟩ else t
  | _ => t

theorem Inside.overLineEnd {t : Token} (h : t.Inside) : t.overLineEnd = t := by
  unfold Token.overLineEnd
  split
  next hk =>
    have := h.2 hk
    rw [if_neg (by omega)]
  next => rfl

theorem overLineEnd_owed (here : Position) : overLineEnd ⟨.stmtEnd, here.spanTo here⟩ =
    ⟨.stmtEnd, here.spanTo (here.advance '\n')⟩ := by
  simp only [overLineEnd, Position.spanTo, if_true, Position.offset_advance]
  rfl

theorem kind_overLineEnd (t : Token) : t.overLineEnd.kind = t.kind := by
  unfold overLineEnd
  split
  next hk =>
    split
    · exact hk.symm
    · rfl
  next => rfl

/-- The tokens of a text before the one that stands for the end of the source. Where the last of them ends
no statement, it leaves the statement open. -/
structure Front (front : List Token) : Prop where
  noEof : ∀ t ∈ front, t.kind ≠ .eof
  inside : ∀ t ∈ front.dropLast, t.overLineEnd = t
  last : ∀ t ∈ front.getLast?, Parser.endsStmt t.kind = true ∨ ∃ l : LineState, l.leavesOpen t.kind = true

theorem exists_front {src : String} {ts : List Token} (h : scan src = .ok ts) :
    ∃ front last, ts = front ++ [last] ∧ last.kind = .eof ∧ Front front := by
  obtain ⟨inner, rfl, hinside, -⟩ := scanFrom_newline h
  generalize Position.zero.after src.toList = here
  have hsame : ∀ t ∈ inner, t.overLineEnd = t := fun t ht => (hinside t ht).overLineEnd
  cases hcontinues : (inner.foldl LineState.next {}).continues with
  | true =>
    refine ⟨inner, ⟨.eof, here.spanTo here⟩, by simp [ending, hcontinues], rfl, fun t ht => (hinside t ht).1,
      fun t ht => hsame t (List.dropLast_subset _ ht), fun t ht => .inr ?_⟩
    obtain ⟨init, rfl⟩ := List.getLast?_eq_some_iff.1 ht
    rw [List.foldl_append] at hcontinues
    exact ⟨_, hcontinues⟩
  | false =>
    refine ⟨inner ++ [⟨.stmtEnd, here.spanTo here⟩], ⟨.eof, here.spanTo here⟩,
      by simp [ending, hcontinues], rfl, ?_, by simpa using hsame, fun t ht => .inl ?_⟩
    · exact List.forall_mem_append.2 ⟨fun t ht => (hinside t ht).1, List.forall_mem_singleton.2 nofun⟩
    · rw [List.getLast?_concat, Option.mem_some_iff] at ht
      rw [← ht]
      rfl

/-- No bracket is open after the tokens of a text, and the last one before the end of the source ends a
statement. -/
structure Settled (ts : List Token) : Prop where
  delims : (ts.foldl LineState.next {}).delims = []
  last : ∀ t ∈ ts.dropLast.getLast?, Parser.endsStmt t.kind = true

/-- Where a settled text owes no end of a statement, scanning is as at the start. -/
theorem Settled.state_eq {inner : List Token} {here : Position}
    (h : Settled (inner ++ ending (inner.foldl LineState.next {}) here))
    (hcontinues : (inner.foldl LineState.next {}).continues = true) :
    inner.foldl LineState.next {} = {} := by
  obtain ⟨hdelims, hlast⟩ := h
  rw [ending, if_pos hcontinues] at hdelims hlast
  rw [List.dropLast_concat] at hlast
  rcases List.eq_nil_or_concat inner with rfl | ⟨init, t, rfl⟩
  · rfl
  · have ht := hlast t (by simp)
    rw [List.concat_eq_append] at hdelims ⊢
    simp only [List.foldl_append, List.foldl_cons, List.foldl_nil] at hdelims ⊢
    refine LineState.next_eq_start ?_ ht
    rw [← LineState.delims_next_of_endsStmt _ ht]
    exact hdelims

theorem Settled.breaksLine {inner : List Token} {here : Position}
    (h : Settled (inner ++ ending (inner.foldl LineState.next {}) here))
    (hcontinues : (inner.foldl LineState.next {}).continues = false) :
    (inner.foldl LineState.next {}).delims = [] ∧ (inner.foldl LineState.next {}).breaksLine = true := by
  have hdelims : (inner.foldl LineState.next {}).delims = [] := by
    simpa [ending, hcontinues, LineState.next, LineState.nextDelims] using h.delims
  exact ⟨hdelims, by simp [LineState.breaksLine, hcontinues, hdelims]⟩

/-- A text is scanned from where the one above it ends. -/
theorem scanFrom_below (above b : String) (seen : List Token) :
    scanFrom {} ((Position.zero.after above.toList).advance '\n') b.toList seen.reverse =
      ((scan b).map fun us => seen ++ us.map (respan (Span.below (above ++ "\n")))).mapError
        fun e => { e with line := e.line + (above ++ "\n").toList.count '\n' } := by
  have hstart := Position.after_newline above.toList
  have htext : above.toList ++ ['\n'] = (above ++ "\n").toList := by simp
  rw [Position.after_append, htext, String.ofList_toList] at hstart
  have hmoved := scanFrom_moved (above ++ "\n").utf8ByteSize ((above ++ "\n").toList.count '\n')
    {} .zero b.toList []
  have hseen := scanFrom_append {} ((Position.zero.after above.toList).advance '\n') b.toList []
    seen.reverse
  rw [List.nil_append, List.reverse_reverse] at hseen
  rw [hseen]
  refine (congrArg _ ((congrArg (scanFrom {} · b.toList []) hstart).trans hmoved)).trans ?_
  rw [scan]
  cases scanFrom {} .zero b.toList [] <;> rfl

/-- White space in front of a text is skipped where line ends do not end statements. -/
theorem scanFrom_space {l : LineState} (hbreaks : l.breaksLine = false) {lead : List Char}
    (hlead : ∀ c ∈ lead, Lexeme.isSpace c = true) (p : Position) (cs : List Char) (seen : List Token) :
    scanFrom l p (lead ++ cs) seen = scanFrom l (p.after lead) cs seen := by
  induction lead generalizing p with
  | nil => rfl
  | cons c lead ih =>
    obtain ⟨hc, hlead⟩ := List.forall_mem_cons.1 hlead
    have hskip : Gap.skip l.breaksLine false p (c :: (lead ++ cs)) =
        Gap.skip l.breaksLine false (p.advance c) (lead ++ cs) := by
      rw [hbreaks, Gap.skip]
      by_cases hline : c = '\n'
      · rw [if_pos hline, if_neg (by simp)]
      · rw [if_neg hline, if_pos (by simpa [Lexeme.isSpace, hline] using hc)]
    rw [List.cons_append, scanFrom_eq, hskip, ← scanFrom_eq, ih hlead]
    rfl

/-- A line end that breaks the line ends a statement. -/
theorem scanFrom_lineEnd {l : LineState} (hbreaks : l.breaksLine = true) (here : Position) (cs : List Char)
    (seen : List Token) :
    scanFrom l here ('\n' :: cs) seen = scanFrom (l.next ⟨.stmtEnd, here.spanTo (here.advance '\n')⟩)
      (here.advance '\n') cs (⟨.stmtEnd, here.spanTo (here.advance '\n')⟩ :: seen) := by
  rw [scanFrom_eq, hbreaks]
  rfl

/-- The tokens of two texts one below the other. -/
theorem scan_below {a : String} {ts : List Token} (ha : scan a = .ok ts) (hts : Settled ts) (b : String) :
    scan (a ++ "\n" ++ b) =
      ((scan b).map fun us =>
        ts.dropLast.map overLineEnd ++ us.map (respan (Span.below (a ++ "\n")))).mapError
        fun e => { e with line := e.line + (a ++ "\n").toList.count '\n' } := by
  obtain ⟨inner, rfl, hinside, hscan⟩ := scanFrom_newline ha
  rw [List.reverse_nil, List.nil_append] at hts ⊢
  have hinner : inner.map overLineEnd = inner := by
    conv_rhs => rw [← List.map_id inner]
    exact List.map_congr_left fun t ht => (hinside t ht).overLineEnd
  have htext : (a ++ "\n" ++ b).toList = a.toList ++ '\n' :: b.toList := by simp
  have hbelow := hscan [] b.toList Gap.trailing_nil
  rw [List.nil_append, List.append_nil, List.append_nil] at hbelow
  rw [scan, htext, hbelow]
  cases hcontinues : (inner.foldl LineState.next {}).continues with
  | true =>
    have hline : ∀ c ∈ ['\n'], Lexeme.isSpace c = true := List.forall_mem_singleton.2 rfl
    have hblank := scanFrom_space (l := {}) rfl hline
      (Position.zero.after a.toList) b.toList inner.reverse
    rw [hts.state_eq hcontinues, ending, if_pos rfl, List.dropLast_concat, hinner, ← scanFrom_below]
    simpa using hblank
  | false =>
    obtain ⟨hdelims, hbreaks⟩ := hts.breaksLine hcontinues
    have hends : (inner ++ ending (inner.foldl LineState.next {}) (Position.zero.after a.toList)).dropLast =
        inner ++ [⟨.stmtEnd, (Position.zero.after a.toList).spanTo (Position.zero.after a.toList)⟩] := by
      simp [ending, hcontinues]
    have hnext (span : Span) : LineState.next _ ⟨.stmtEnd, span⟩ = {} :=
      LineState.next_eq_start hdelims rfl
    rw [scanFrom_lineEnd hbreaks, hnext, hends, List.map_append, hinner, List.map_singleton,
      overLineEnd_owed, ← scanFrom_below, List.reverse_append]
    rfl

/-- The tokens of two texts one below the other are those of the upper one, without its end, and those
of the lower one moved down, if the upper one leaves no bracket and no statement open; and what is wrong
with the lower one is wrong there. -/
theorem scan_append_newline {a : String} {ts : List Token} (ha : scan a = .ok ts)
    (hdelims : (ts.foldl LineState.next {}).delims = [])
    (hlast : ∀ t ∈ ts.dropLast.getLast?, Parser.endsStmt t.kind = true)
    (b : String) :
    (∀ us, scan b = .ok us → scan (a ++ "\n" ++ b) =
      .ok (ts.dropLast.map overLineEnd ++ us.map (respan (Span.below (a ++ "\n"))))) ∧
    ∀ e, scan b = .error e → scan (a ++ "\n" ++ b) =
      .error { e with line := e.line + (a ++ "\n").toList.count '\n' } := by
  rw [scan_below ha ⟨hdelims, hlast⟩ b]
  refine ⟨fun us hb => ?_, fun e hb => ?_⟩
  · rw [hb]
    rfl
  · rw [hb]
    rfl

/-- A text with brackets over two lines, type arguments, a comment at its end and no line end there. -/
def upperText : String := "xs: List<Int> = f([1,\n2])\nif ok \x7b g() \x7d // done é"

/-- A text whose first token is a sign that ends a statement, with a string over two lines. -/
def lowerText : String := "; y = \"é\n\""

theorem upperText_above : ∃ ts us, scan upperText = .ok ts ∧
    (ts.foldl LineState.next {}).delims = [] ∧
    (∀ t ∈ ts.dropLast.getLast?, Parser.endsStmt t.kind = true) ∧ scan lowerText = .ok us ∧
    scan (upperText ++ "\n" ++ lowerText) =
      .ok (ts.dropLast.map overLineEnd ++ us.map (respan (Span.below (upperText ++ "\n")))) ∧
    (us.map (respan (Span.below (upperText ++ "\n")))).head?.map (·.span) = some ⟨51, 52, 4, 1⟩ ∧
    scan (upperText ++ "\n" ++ "x = λ") = .error ⟨.unexpectedChar 'λ', 4, 5⟩ := by
  have hupper : (scan upperText).toOption.map (fun ts => ((ts.foldl LineState.next {}).delims,
      ts.dropLast.getLast?.all fun t => Parser.endsStmt t.kind)) = some ([], true) := by decide +kernel
  have hlower : (scan lowerText).toOption.map (fun us =>
      (us.map (respan (Span.below (upperText ++ "\n")))).head?.map (·.span)) =
      some (some ⟨51, 52, 4, 1⟩) := by decide +kernel
  have hbroken : scan "x = λ" = .error ⟨.unexpectedChar 'λ', 1, 5⟩ := by with_unfolding_all rfl
  cases hts : scan upperText with
  | error e => simp [hts, Except.toOption] at hupper
  | ok ts =>
    cases hus : scan lowerText with
    | error e => simp [hus, Except.toOption] at hlower
    | ok us =>
      simp only [hts, Except.toOption, Option.map_some, Option.some.injEq, Prod.mk.injEq] at hupper
      simp only [hus, Except.toOption, Option.map_some, Option.some.injEq] at hlower
      have hlast : ∀ t ∈ ts.dropLast.getLast?, Parser.endsStmt t.kind = true := by
        intro t ht
        have hall := hupper.2
        rw [Option.mem_def.1 ht] at hall
        exact hall
      have hjoined := scan_append_newline hts hupper.1 hlast
      exact ⟨ts, us, rfl, hupper.1, hlast, rfl, (hjoined lowerText).1 us hus, hlower,
        (hjoined "x = λ").2 _ hbroken⟩

end Token

end Sluice
