import Sluice.Proofs.Token.Account

/-! Spacing and line ends. A text keeps the kinds of its tokens when white space is added at the start of a
line, or blanks and a comment after them at its end: what is added lies in a gap that has a line end already,
and where the text after the gap stands counts for nothing. -/
namespace Sluice

open Lexeme (isSpace isQuoted)

/-- A gap is the same piece of the text wherever the text stands: up to a line end, with it, or up to what
follows. -/
theorem Gap.exists_skip_eq (breaks inComment : Bool) (cs : List Char) : ∃ gap rest,
    (∀ p, skip breaks inComment p cs = ⟨(p.after gap).after ['\n'], rest, some (p.after gap)⟩) ∨
    ∀ p, skip breaks inComment p cs = ⟨p.after gap, rest, none⟩ := by
  induction cs generalizing inComment with
  | nil => exact ⟨[], [], .inr fun _ => rfl⟩
  | cons c r ih =>
    have hgo (inComment' : Bool)
        (h : ∀ p, skip breaks inComment p (c :: r) = skip breaks inComment' (p.advance c) r) :
        ∃ gap rest, (∀ p, skip breaks inComment p (c :: r) =
            ⟨(p.after gap).after ['\n'], rest, some (p.after gap)⟩) ∨
          ∀ p, skip breaks inComment p (c :: r) = ⟨p.after gap, rest, none⟩ := by
      obtain ⟨gap, rest, hskip⟩ := ih inComment'
      refine ⟨c :: gap, rest, hskip.imp (fun hskip p => ?_) fun hskip p => ?_⟩ <;>
        · rw [h, hskip]
          rfl
    by_cases hline : c = '\n'
    · subst hline
      cases breaks with
      | true => exact ⟨[], r, .inl fun _ => rfl⟩
      | false => exact hgo false fun _ => rfl
    · by_cases hblank : (inComment || isBlank c) = true
      · exact hgo inComment fun p => by rw [skip, if_neg hline, if_pos hblank]
      · by_cases hslash : (c = '/' && r.head? = some '/') = true
        · exact hgo true fun p => by rw [skip, if_neg hline, if_neg hblank, if_pos hslash]
        · refine ⟨[], c :: r, .inr fun p => ?_⟩
          rw [skip, if_neg hline, if_neg hblank, if_neg hslash]
          rfl

structure LineState.SameView (l : LineState) (p : Position) (l' : LineState) (p' : Position) : Prop where
  delims : l'.delims = l.delims
  continues : l'.continues = l.continues
  typeArgs : l'.typeArgs = l.typeArgs
  typeHead : ∀ gap, l'.typeHead = some (p'.after gap).offset ↔ l.typeHead = some (p.after gap).offset

namespace LineState.SameView

variable {l l' : LineState} {p p' : Position}

theorem breaksLine (h : SameView l p l' p') : l'.breaksLine = l.breaksLine := by
  rw [LineState.breaksLine, LineState.breaksLine, h.delims, h.continues]

/-- Two places in sight of each other where a token of the same kind ends. -/
theorem next (h : SameView l p l' p') (kind : Token.Kind) (gap text : List Char) :
    SameView (l.next ⟨kind, (p.after gap).spanTo ((p.after gap).after text)⟩) ((p.after gap).after text)
      (l'.next ⟨kind, (p'.after gap).spanTo ((p'.after gap).after text)⟩) ((p'.after gap).after text) where
  delims := congrArg (nextDelims · kind) h.delims
  continues := by
    simp only [LineState.next, leavesOpen, h.typeArgs]
  typeArgs := by
    simp only [LineState.next, nextTypeArgs, h.typeArgs, Position.spanTo, h.typeHead gap]
    rfl
  typeHead gap' := by
    simp only [LineState.next, Position.spanTo, Position.offset_after]
    split <;> simp

end LineState.SameView

namespace Token

/-- The kinds of the tokens of a text do not depend on where it stands. -/
theorem kinds_scanFrom {l : LineState} {p : Position} {cs : List Char} {seen out : List Token}
    (h : scanFrom l p cs seen = .ok out) : ∀ (l' : LineState) (p' : Position) (seen' : List Token),
      l.SameView p l' p' → seen'.map kind = seen.map kind →
      ∃ out', scanFrom l' p' cs seen' = .ok out' ∧ out'.map kind = out.map kind := by
  fun_induction scanFrom l p cs seen with
  | case1 l p cs seen q rest start hg t ih =>
    intro l' p' seen' hview hseen
    obtain ⟨gap, rest', hskip | hskip⟩ := Gap.exists_skip_eq l.breaksLine false cs
    · rw [hskip] at hg
      cases hg
      rw [scanFrom_eq, hview.breaksLine, hskip]
      exact ih h _ _ _ (hview.next .stmtEnd gap ['\n']) (by simpa [t] using hseen)
    · rw [hskip] at hg
      cases hg
  | case2 l p cs seen q hg here ends =>
    intro l' p' seen' hview hseen
    obtain ⟨gap, rest', hskip | hskip⟩ := Gap.exists_skip_eq l.breaksLine false cs
    · rw [hskip] at hg
      cases hg
    · rw [hskip] at hg
      cases hg
      cases h
      rw [scanFrom_eq, hview.breaksLine, hskip]
      refine ⟨_, rfl, ?_⟩
      simp only [List.map_append, List.map_reverse, hseen, hview.continues, ends]
      split <;> rfl
  | case3 => cases h
  | case4 l p cs seen q c r hg lx hlx e t ih =>
    intro l' p' seen' hview hseen
    obtain ⟨gap, rest', hskip | hskip⟩ := Gap.exists_skip_eq l.breaksLine false cs
    · rw [hskip] at hg
      cases hg
    · rw [hskip] at hg
      cases hg
      rw [scanFrom_eq, hview.breaksLine, hskip, scanAfter, hlx]
      exact ih h _ _ _ (hview.next lx.kind gap (c :: lx.tail)) (by simpa [t] using hseen)

/-- The text above a line end that is in no literal scans by itself. -/
theorem exists_scanFrom_above {l : LineState} {p : Position} {cs below : List Char} {seen out : List Token}
    (h : scanFrom l p (cs ++ '\n' :: below) seen = .ok out)
    (hquoted : ∀ t ∈ out, isQuoted t.kind = true →
      ¬ (t.span.start < (p.after cs).offset ∧ (p.after cs).offset < t.span.stop)) :
    ∃ out', scanFrom l p cs seen = .ok out' := by
  have hnext (l : LineState) (p : Position) (cs : List Char) :=
    Gap.skip_append l.breaksLine false p cs Gap.trailing_nil below
  simp only [List.nil_append, List.append_nil] at hnext
  fun_induction scanFrom l p cs seen with
  | case1 l p cs seen q rest start hg t ih =>
    obtain ⟨skipped, hcs, hq⟩ := Gap.exists_skipped l.breaksLine false p cs
    simp only [hg] at hcs hq
    have hafter : p.after cs = q.after rest := by rw [hcs, Position.after_append, hq]
    rw [scanFrom_eq, hnext, hg, if_neg (by simp)] at h
    rw [hafter] at hquoted
    exact ih h hquoted
  | case2 => exact ⟨_, rfl⟩
  | case3 l p cs seen q c r hg k hk =>
    -- What is wrong above the line end is wrong below it as well, unless a literal goes over the line end.
    obtain ⟨skipped, hcs, hq⟩ := Gap.exists_skipped l.breaksLine false p cs
    simp only [hg] at hcs hq
    have hafter : p.after cs = q.after (c :: r) := by rw [hcs, Position.after_append, hq]
    rw [scanFrom_eq, hnext, hg, if_neg (by simp)] at h
    simp only [Gap.extend, List.cons_append, scanAfter] at h
    cases hread : Lexeme.read c (r ++ '\n' :: below) with
    | error e =>
      rw [hread] at h
      cases h
    | ok lx =>
      rcases Lexeme.read_above hread with ⟨lx', hlx'⟩ | ⟨beyond, hbeyond⟩
      · rw [hlx'] at hk
        cases hk
      · rw [hread] at h
        obtain ⟨more, rfl, -⟩ := scanned_of_scanFrom h
        have hkind := (Lexeme.lexical_of_read hread).isQuoted_of_newline (by simp [hbeyond])
        have hstop : (q.after (c :: lx.tail)).offset = ((p.after cs).after ('\n' :: beyond)).offset := by
          rw [hbeyond, hafter, ← Position.after_append, List.cons_append]
        have hmem : (⟨lx.kind, q.spanTo (q.after (c :: lx.tail))⟩ : Token) ∈
            (⟨lx.kind, q.spanTo (q.after (c :: lx.tail))⟩ :: seen).reverse ++ more := by simp
        refine (hquoted _ hmem hkind ⟨?_, ?_⟩).elim
        · rw [hafter]
          exact Position.offset_lt_after q c r
        · show (p.after cs).offset < (q.after (c :: lx.tail)).offset
          rw [hstop]
          exact Position.offset_lt_after (p.after cs) '\n' beyond
  | case4 l p cs seen q c r hg lx hlx e t ih =>
    obtain ⟨skipped, hcs, hq⟩ := Gap.exists_skipped l.breaksLine false p cs
    simp only [hg] at hcs hq
    have hafter : p.after cs = e.after lx.rest := by
      rw [hcs, Position.after_append, ← hq]
      simpa [e] using (lx.after_rest q []).symm
    rw [scanFrom_eq, hnext, hg, if_neg (by simp)] at h
    have hread := Lexeme.read_append hlx (Gap.trailing_nil.spaced below)
    rw [List.nil_append] at hread
    simp only [Gap.extend, List.cons_append, scanAfter, hread] at h
    rw [hafter] at hquoted
    exact ih h hquoted

theorem exists_of_typeHead {ts : List Token} {n : Nat}
    (h : (ts.foldl LineState.next {}).typeHead = some n) : ∃ t ∈ ts, t.span.stop = n := by
  cases ts using List.reverseRecOn with
  | nil => cases h
  | append_singleton ts t =>
    rw [List.foldl_append, List.foldl_cons, List.foldl_nil, LineState.next] at h
    split at h
    · exact ⟨t, by simp, Option.some.inj h⟩
    · cases h

/-- What stands below a line end has the same kinds of tokens with white space in front and wherever the
line end stands. -/
theorem kinds_below_newline {l : LineState} {p p' : Position} {lead cs : List Char} {seen out : List Token}
    (hhead : ∀ n, l.typeHead = some n → n ≤ p.offset ∧ n ≤ p'.offset)
    (hlead : ∀ c ∈ lead, isSpace c = true) (h : scanFrom l p ('\n' :: cs) seen = .ok out) :
    ∃ out', scanFrom l p' ('\n' :: (lead ++ cs)) seen = .ok out' ∧ out'.map kind = out.map kind := by
  cases hbreaks : l.breaksLine with
  | true =>
    rw [scanFrom_lineEnd hbreaks] at h ⊢
    rw [scanFrom_space rfl hlead]
    refine kinds_scanFrom h _ _ _ ⟨rfl, rfl, rfl, fun gap => ?_⟩ rfl
    simp [LineState.next, LineState.headsType]
  | false =>
    have hline : ∀ c ∈ ['\n'], isSpace c = true := List.forall_mem_singleton.2 rfl
    have hlines : ∀ c ∈ '\n' :: lead, isSpace c = true := List.forall_mem_cons.2 ⟨rfl, hlead⟩
    rw [← List.singleton_append, scanFrom_space hbreaks hline] at h
    rw [← List.cons_append, scanFrom_space hbreaks hlines]
    refine kinds_scanFrom h _ _ _ ⟨rfl, rfl, rfl, fun gap => ?_⟩ rfl
    -- The line end parts the text below from the type name above, if there is one.
    rw [← Position.after_append, ← Position.after_append]
    constructor
    · intro htype
      exact absurd (hhead _ htype).2 (Nat.not_le.2 (Position.offset_lt_after p' '\n' (lead ++ gap)))
    · intro htype
      exact absurd (hhead _ htype).1 (Nat.not_le.2 (Position.offset_lt_after p '\n' gap))

def OutsideLiterals (src : String) (n : Nat) : Prop :=
  ∀ ts, scan src = .ok ts → ∀ t ∈ ts, isQuoted t.kind = true → ¬ (t.span.start < n ∧ n < t.span.stop)

theorem kinds_scan_respace {a b trail lead : String} {ts : List Token}
    (h : scan (a ++ "\n" ++ b) = .ok ts) (houtside : OutsideLiterals (a ++ "\n" ++ b) a.utf8ByteSize)
    (htrail : Gap.Trailing trail.toList) (hlead : ∀ c ∈ lead.toList, isSpace c = true) :
    ∃ ts', scan (a ++ trail ++ "\n" ++ lead ++ b) = .ok ts' ∧ ts'.map kind = ts.map kind := by
  have hquoted := houtside ts h
  have hsize := Position.offset_after_zero a.toList
  rw [String.ofList_toList] at hsize
  have htext : (a ++ "\n" ++ b).toList = a.toList ++ '\n' :: b.toList := by simp
  have htext' : (a ++ trail ++ "\n" ++ lead ++ b).toList =
      a.toList ++ (trail.toList ++ '\n' :: (lead.toList ++ b.toList)) := by simp
  rw [scan, htext] at h
  rw [← hsize] at hquoted
  obtain ⟨out, hout⟩ := exists_scanFrom_above h hquoted
  obtain ⟨inner, hinner, -, hscan⟩ := scanFrom_newline hout
  have hold := hscan [] b.toList Gap.trailing_nil
  have hnew := hscan trail.toList (lead.toList ++ b.toList) htrail
  rw [List.nil_append, List.append_nil, h] at hold
  rw [scan, htext', hnew]
  apply kinds_below_newline _ hlead hold.symm
  intro n hn
  obtain ⟨t, ht, rfl⟩ := exists_of_typeHead hn
  have hstop := stop_le_of_scan hout (t := t) (by rw [hinner]; simp [ht])
  have hle := Position.offset_le_after (Position.zero.after a.toList) trail.toList
  rw [← Position.after_append] at hle
  omega

/-- A text and the same one with more space in it: white space at the start, and at a line end that is in
no literal blanks or a comment after blanks before it and white space after it. -/
inductive Respaced (src : String) : String → Prop
  | same : Respaced src src
  | top {new : String} (lead : String) (hlead : ∀ c ∈ lead.toList, isSpace c = true)
      (h : Respaced src new) : Respaced src (lead ++ new)
  | line {a b : String} (trail lead : String) (htrail : Gap.Trailing trail.toList)
      (hlead : ∀ c ∈ lead.toList, isSpace c = true) (h : Respaced src (a ++ "\n" ++ b))
      (houtside : OutsideLiterals (a ++ "\n" ++ b) a.utf8ByteSize) :
      Respaced src (a ++ trail ++ "\n" ++ lead ++ b)

/-- More space leaves the kinds of the tokens as they are. -/
theorem Respaced.kinds_scan {src new : String} (hnew : Respaced src new) {ts : List Token}
    (h : scan src = .ok ts) : ∃ ts', scan new = .ok ts' ∧ ts'.map kind = ts.map kind := by
  induction hnew with
  | same => exact ⟨ts, h, rfl⟩
  | @top new lead hlead _ ih =>
    obtain ⟨ts', hts', hkinds⟩ := ih
    obtain ⟨ts'', hts'', hkinds'⟩ := kinds_scanFrom hts' {} (Position.zero.after lead.toList) []
      ⟨rfl, rfl, rfl, fun _ => iff_of_false nofun nofun⟩ rfl
    refine ⟨ts'', ?_, hkinds'.trans hkinds⟩
    rw [scan, String.toList_append, scanFrom_space rfl hlead]
    exact hts''
  | line trail lead htrail hlead _ houtside ih =>
    obtain ⟨ts', hts', hkinds⟩ := ih
    obtain ⟨ts'', hts'', hkinds'⟩ := kinds_scan_respace hts' houtside htrail hlead
    exact ⟨ts'', hts'', hkinds'.trans hkinds⟩

end Token

end Sluice
