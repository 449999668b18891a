import Sluice.Proofs.Token.Lexical

/-! Nothing reaches over a line end. The lexemes and gaps of a text stay what they are when blanks, a
comment after blanks or a line below follow the text; only a gap at the end of the text, or a comment there,
goes on with them. -/
namespace Sluice

namespace Lexeme

variable {c : Char} {cs : List Char}

def extend (lx : Lexeme c cs) (below : List Char) : Lexeme c (cs ++ below) :=
  ⟨lx.kind, lx.tail, lx.rest ++ below, by rw [← List.append_assoc, lx.split]⟩

theorem follows_append {below : List Char} (hbelow : ∀ d ∈ below.head?, isSpace d = true)
    (rest : List Char) : Follows rest (rest ++ below) := by
  cases rest with
  | nil => exact .inl hbelow
  | cons d rest =>
    refine .inr ⟨rfl, ?_⟩
    rintro r r' ⟨⟩ ⟨⟩ hdot
    cases rest with
    | nil => cases hdot
    | cons e rest => exact hdot

/-- A lexeme stays what it is when blanks or a line end follow the text. -/
theorem read_append {lx : Lexeme c cs} (h : read c cs = .ok lx) {below : List Char}
    (hbelow : ∀ d ∈ below.head?, isSpace d = true) : read c (cs ++ below) = .ok (lx.extend below) :=
  ((lexical_of_read h).follow (follows_append hbelow lx.rest)).reads.read_eq _

/-- A lexeme is read from the text above a line end alone, unless it goes over the line end. -/
theorem read_above {below : List Char} {lx : Lexeme c (cs ++ '\n' :: below)}
    (h : read c (cs ++ '\n' :: below) = .ok lx) :
    (∃ lx', read c cs = .ok lx') ∨ ∃ beyond, lx.tail = cs ++ '\n' :: beyond := by
  have habove (rest : List Char) (hcs : cs = lx.tail ++ rest) (hrest : lx.rest = rest ++ '\n' :: below) :
      ∃ lx', read c cs = .ok lx' := by
    have hfollows : Follows lx.rest rest := by
      cases rest with
      | nil => exact .inl nofun
      | cons d rest =>
        refine .inr ⟨by rw [hrest]; rfl, fun r r' hr hr' hdot => ?_⟩
        cases hr'
        rw [hrest] at hr
        cases hr
        cases rest with
        | nil => exact absurd hdot (by simp)
        | cons e rest => exact hdot
    exact ⟨_, ((lexical_of_read h).follow hfollows).reads.read_eq hcs.symm⟩
  rcases List.append_eq_append_iff.1 lx.split with ⟨rest, hcs, hrest⟩ | ⟨beyond, htail, hbeyond⟩
  · exact .inl (habove rest hcs hrest)
  · cases beyond with
    | nil =>
      rw [List.append_nil] at htail
      exact .inl (habove [] (by rw [List.append_nil, htail]) (by simpa using hbeyond.symm))
    | cons d beyond =>
      obtain rfl : '\n' = d := List.head_eq_of_cons_eq hbeyond
      exact .inr ⟨beyond, htail⟩

/-- The text after a lexeme starts where the lexeme ends. -/
theorem after_rest (lx : Lexeme c cs) (q : Position) (below : List Char) :
    (q.after (c :: lx.tail)).after (lx.rest ++ below) = q.after (c :: (cs ++ below)) := by
  obtain ⟨kind, tail, rest, rfl⟩ := lx
  rw [← Position.after_append, List.cons_append, List.append_assoc]

theorem isEnd_of_read {lx : Lexeme c cs} (h : read c cs = .ok lx) : isEnd lx.kind = false :=
  (lexical_of_read h).isEnd_eq_false

end Lexeme

namespace Gap

variable (breaks inComment : Bool) (p : Position) (cs : List Char)

/-- What was skipped lies before the rest. -/
theorem exists_skipped : ∃ skipped, cs = skipped ++ (skip breaks inComment p cs).rest ∧
    (skip breaks inComment p cs).pos = p.after skipped := by
  fun_induction skip breaks inComment p cs with
  | case1 => exact ⟨[], rfl, rfl⟩
  | case2 => exact ⟨['\n'], rfl, rfl⟩
  | case3 inComment p r hbreaks ih =>
    obtain ⟨skipped, hsplit, hpos⟩ := ih
    exact ⟨'\n' :: skipped, congrArg _ hsplit, hpos⟩
  | case4 inComment p c r hline hblank ih =>
    obtain ⟨skipped, hsplit, hpos⟩ := ih
    exact ⟨c :: skipped, congrArg _ hsplit, hpos⟩
  | case5 inComment p c r hline hblank hslash ih =>
    obtain ⟨skipped, hsplit, hpos⟩ := ih
    exact ⟨c :: skipped, congrArg _ hsplit, hpos⟩
  | case6 => exact ⟨[], rfl, rfl⟩

/-- A line end that ends a gap is the last thing in it. -/
theorem pos_eq_of_lineEnd (start : Position) (h : (skip breaks inComment p cs).lineEnd = some start) :
    (skip breaks inComment p cs).pos = start.advance '\n' := by
  fun_induction skip breaks inComment p cs with
  | case1 => cases h
  | case2 => cases h; rfl
  | case3 _ _ _ _ ih => exact ih h
  | case4 _ _ _ _ _ _ ih => exact ih h
  | case5 _ _ _ _ _ _ _ ih => exact ih h
  | case6 => cases h

def extend (g : Gap) (below : List Char) : Gap := ⟨g.pos, g.rest ++ below, g.lineEnd⟩

/-- What may be added at the end of a line: blanks, and after at least one of them a comment. -/
def Trailing (text : List Char) : Prop := ∃ blanks comment, text = blanks ++ comment ∧
  (∀ c ∈ blanks, isBlank c = true) ∧
  (comment = [] ∨ blanks ≠ [] ∧ ∃ body, comment = '/' :: '/' :: body ∧ '\n' ∉ body)

theorem trailing_nil : Trailing [] := ⟨[], [], rfl, nofun, .inl rfl⟩

theorem Trailing.spaced {trail : List Char} (h : Trailing trail) (below : List Char) :
    ∀ d ∈ (trail ++ '\n' :: below).head?, Lexeme.isSpace d = true := by
  obtain ⟨blanks, comment, rfl, hblanks, hcomment⟩ := h
  cases blanks with
  | nil =>
    obtain rfl : comment = [] := hcomment.resolve_right fun h => h.1 rfl
    rintro _ ⟨⟩
    rfl
  | cons b blanks =>
    rintro _ ⟨⟩
    rw [Lexeme.isSpace, hblanks b List.mem_cons_self, Bool.or_true]

theorem Trailing.not_mem {trail : List Char} (h : Trailing trail) : '\n' ∉ trail := by
  obtain ⟨blanks, comment, rfl, hblanks, hcomment⟩ := h
  intro hmem
  rcases List.mem_append.1 hmem with hmem | hmem
  · exact absurd (hblanks _ hmem) (by decide)
  · rcases hcomment with rfl | ⟨-, body, rfl, hbody⟩
    · cases hmem
    · simp only [List.mem_cons, hbody, or_false] at hmem
      rcases hmem with hmem | hmem <;> exact absurd hmem (by decide)

/-- A comment goes on up to the line end. -/
theorem skip_comment {text : List Char} (htext : '\n' ∉ text) (below : List Char) :
    skip breaks true p (text ++ '\n' :: below) = skip breaks false (p.after text) ('\n' :: below) := by
  induction text generalizing p with
  | nil => simp [skip]
  | cons c text ih =>
    have hc : c ≠ '\n' := fun h => htext (h ▸ List.mem_cons_self)
    rw [List.cons_append, skip, if_neg hc, if_pos (by simp), ih _ fun h => htext (List.mem_cons_of_mem _ h)]
    rfl

theorem skip_blanks {blanks : List Char} (hblanks : ∀ c ∈ blanks, isBlank c = true) (rest : List Char) :
    skip breaks inComment p (blanks ++ rest) = skip breaks inComment (p.after blanks) rest := by
  induction blanks generalizing p with
  | nil => rfl
  | cons c blanks ih =>
    obtain ⟨hc, hblanks⟩ := List.forall_mem_cons.1 hblanks
    have hline : c ≠ '\n' := by
      rintro rfl
      exact absurd hc (by decide)
    rw [List.cons_append, skip, if_neg hline, if_pos (by simp [hc]), ih _ hblanks]
    rfl

/-- What is added at the end of a line is skipped, in a comment or outside. -/
theorem Trailing.skip {trail : List Char} (h : Trailing trail) (below : List Char) :
    skip breaks inComment p (trail ++ '\n' :: below) =
      skip breaks false (p.after trail) ('\n' :: below) := by
  cases inComment with
  | true => exact skip_comment breaks p h.not_mem below
  | false =>
    obtain ⟨blanks, comment, rfl, hblanks, hcomment⟩ := h
    rw [List.append_assoc, skip_blanks breaks false p hblanks, Position.after_append]
    rcases hcomment with rfl | ⟨-, body, rfl, hbody⟩
    · rfl
    · simp only [List.cons_append, Gap.skip, if_neg (show '/' ≠ '\n' by decide)]
      have hskip := skip_comment breaks ((p.after blanks).advance '/' |>.advance '/') hbody below
      simpa [Gap.skip, isBlank] using hskip

/-- A gap that reaches the end of the text goes on with what follows, outside any comment; others end where
they did. -/
theorem skip_append {trail : List Char} (h : Trailing trail) (below : List Char) :
    skip breaks inComment p (cs ++ (trail ++ '\n' :: below)) =
      if (skip breaks inComment p cs).rest = [] ∧ (skip breaks inComment p cs).lineEnd = none then
        skip breaks false (p.after (cs ++ trail)) ('\n' :: below)
      else (skip breaks inComment p cs).extend (trail ++ '\n' :: below) := by
  fun_induction Gap.skip breaks inComment p cs with
  | case1 => simpa using h.skip breaks _ _ below
  | case2 inComment p r hbreaks => simp [skip, hbreaks, extend]
  | case3 inComment p r hbreaks ih => simp_all [skip]
  | case4 inComment p c r hline hblank ih => simp [skip, hline, hblank, ih]
  | case5 inComment p c r hline hblank hslash ih =>
    simp only [Bool.and_eq_true, decide_eq_true_eq] at hslash
    cases r with
    | nil => simp at hslash
    | cons d r => simp_all [skip]
  | case6 inComment p c r hline hblank hslash =>
    cases r with
    | nil =>
      have hhead : (trail ++ '\n' :: below).head? ≠ some '/' := fun hhead =>
        absurd (h.spaced below '/' hhead) (by decide)
      simp only [List.singleton_append, skip, hline, hblank, hhead, if_false, decide_false,
        Bool.and_false, Bool.false_eq_true]
      simp [extend]
    | cons d r => simp_all [skip, extend]

end Gap

end Sluice
