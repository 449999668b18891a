import Mathlib.Data.List.Basic
import Mathlib.Data.List.TakeWhile
import Sluice.Proofs.ReadBack.Lexeme

/-! The lexical grammar. `Lexical` says which texts are lexemes, of which kind, and what may follow them;
a lexeme is what is read from a text exactly if the grammar says so. What follows counts for a lexeme only
by its first characters, so a lexeme stays one when the text ends after it or goes on with blanks. -/
namespace Sluice.Lexeme

def Ends (p : Char → Bool) (rest : List Char) : Prop := rest.head?.any p = false

/-- `c :: tail` is a lexeme of the given kind, and `rest` may follow it. -/
inductive Lexical : Token.Kind → Char → List Char → List Char → Prop
  | pair {a b : Char} {s : Symbol} (rest : List Char) (hs : Symbol.ofPair? a b = some s) :
      Lexical (.symbol s) a [b] rest
  | sign {a : Char} {s : Symbol} {rest : List Char} (hs : Symbol.ofChar? a = some s)
      (hpair : rest.head?.bind (Symbol.ofPair? a) = none) (hdot : s = .dot → Ends Char.isDigit rest) :
      Lexical (.symbol s) a [] rest
  | string {value tail : List Char} (rest : List Char)
      (hbody : stringBody tail [] [] = some ⟨value, tail, []⟩) :
      Lexical (.str (String.ofList value)) '"' tail rest
  | char {v : Char} {tail : List Char} (rest : List Char) (hbody : charBody tail = .ok (v, tail.length)) :
      Lexical (.char v) '\'' tail rest
  | int {d : Char} {ds rest : List Char} {kind : Token.Kind} (hd : d.isDigit = true)
      (hds : ∀ e ∈ ds, e.isDigit = true) (hkind : intKind (d :: ds) = .ok kind)
      (hend : Ends Char.isDigit rest) (hpoint : ∀ r, rest = '.' :: r → r.head? = some '.') :
      Lexical kind d ds rest
  | float {d : Char} {ds fs rest : List Char} (hd : d.isDigit = true) (hds : ∀ e ∈ ds, e.isDigit = true)
      (hne : fs ≠ []) (hfs : ∀ e ∈ fs, e.isDigit = true) (hend : Ends Char.isDigit rest) :
      Lexical (.float (Decimal.read (d :: ds) fs)) d (ds ++ '.' :: fs) rest
  | word {c : Char} {tail rest : List Char} (hc : (c.isAlpha || c = '_') = true)
      (htail : ∀ e ∈ tail, isWordChar e = true) (hend : Ends isWordChar rest) :
      Lexical (.ofWord (String.ofList (c :: tail))) c tail rest

variable {c : Char} {cs tail rest rest' : List Char} {kind : Token.Kind}

/-! ### What is read is in the grammar -/

theorem ends_dropWhile (p : Char → Bool) (cs : List Char) : Ends p (cs.dropWhile p) := by
  have hhead := List.head?_dropWhile_not p cs
  unfold Ends
  cases hc : (cs.dropWhile p).head? with
  | none => rfl
  | some c => simpa [hc] using hhead

/-- A string literal is read from its own text, whatever follows. -/
theorem stringBody_alone {value used : List Char} {b : Body} (h : stringBody cs value used = some b) :
    ∃ text, b.text = used.reverse ++ text ∧
      ∀ rest, stringBody (text ++ rest) value used = some ⟨b.value, b.text, rest⟩ := by
  fun_induction stringBody cs value used with
  | case1 => cases h
  | case2 r value used =>
    cases h
    exact ⟨['"'], by simp, fun _ => rfl⟩
  | case3 => cases h
  | case4 e r value used hascii ih =>
    obtain ⟨text, htext, hread⟩ := ih h
    refine ⟨'\\' :: e :: text, by simp [htext], fun rest => ?_⟩
    rw [List.cons_append, List.cons_append, stringBody, if_pos hascii, hread]
  | case5 => cases h
  | case6 c r value used hquote hend hesc ih =>
    obtain ⟨text, htext, hread⟩ := ih h
    have hback : c ≠ '\\' := by
      rintro rfl
      cases r with
      | nil => exact hend rfl rfl
      | cons e r => exact hesc e r rfl rfl
    refine ⟨c :: text, by simp [htext], fun rest => ?_⟩
    rw [← hread rest, List.cons_append, stringBody]
    · exact hquote
    · exact fun h _ => hback h
    · exact fun _ _ h _ => hback h

theorem closed_alone {v : Char} {n : Nat} {r : Char × Nat} (h : charBody.closed v n cs = .ok r) :
    r = (v, n) ∧ cs.head? = some '\'' := by
  unfold charBody.closed at h
  split at h <;> cases h
  exact ⟨rfl, rfl⟩

/-- A character literal is read from its own text, whatever follows. -/
theorem charBody_alone {v : Char} {n : Nat} (h : charBody cs = .ok (v, n)) :
    ∃ text, text.length = n ∧ text = cs.take n ∧ ∀ rest, charBody (text ++ rest) = .ok (v, n) := by
  unfold charBody at h
  split at h
  · cases h
  · cases h
  · cases h
  · cases h
  next e r =>
    split at h
    next hlt =>
      obtain ⟨hr, hquote⟩ := closed_alone h
      cases hr
      cases r with
      | nil => cases hquote
      | cons _ r =>
        cases hquote
        refine ⟨['\\', e, '\''], rfl, rfl, fun rest => ?_⟩
        rw [List.cons_append, List.cons_append, charBody, if_pos hlt]
        rfl
    next => cases h
  next d r hline hquote hend hesc =>
    have hback : d ≠ '\\' := by
      rintro rfl
      cases r with
      | nil => exact hend rfl rfl
      | cons e r => exact hesc e r rfl rfl
    obtain ⟨hr, hclose⟩ := closed_alone h
    cases hr
    cases r with
    | nil => cases hclose
    | cons _ r =>
      cases hclose
      refine ⟨[v, '\''], rfl, rfl, fun rest => ?_⟩
      rw [List.cons_append, charBody_cons hback (fun h => hquote h) (fun h => hline h)]
      rfl

/-- Digits without a point after them, or with two, are an integer. -/
theorem readNumber_int (h : ∀ r, cs.dropWhile Char.isDigit = '.' :: r → r.head? = some '.') :
    readNumber c cs =
      (intKind (c :: cs.takeWhile Char.isDigit)).map fun k => takeWhile k Char.isDigit := by
  unfold readNumber
  dsimp only
  split
  next r hr =>
    rw [if_pos (h r hr)]
    cases intKind (c :: cs.takeWhile Char.isDigit) <;> rfl
  next => cases intKind (c :: cs.takeWhile Char.isDigit) <;> rfl

/-- What a number with one point is: a fraction, if digits follow the point. -/
theorem readNumber_point {r : List Char} (hr : cs.dropWhile Char.isDigit = '.' :: r)
    (hdots : r.head? ≠ some '.') (lx : Lexeme c cs) : readNumber c cs = .ok lx ↔
      r.takeWhile Char.isDigit ≠ [] ∧
      lx.kind = .float (Decimal.read (c :: cs.takeWhile Char.isDigit) (r.takeWhile Char.isDigit)) ∧
      lx.tail = cs.takeWhile Char.isDigit ++ '.' :: r.takeWhile Char.isDigit ∧
      lx.rest = r.dropWhile Char.isDigit := by
  obtain ⟨kind, tail, rest, hsplit⟩ := lx
  unfold readNumber
  split
  next r' hr' =>
    obtain rfl : r = r' := List.tail_eq_of_cons_eq (hr.symm.trans hr')
    rw [if_neg hdots]
    split
    next hnil => simp [hnil]
    next hne =>
      constructor
      · rintro ⟨⟩
        exact ⟨hne, rfl, rfl, rfl⟩
      · rintro ⟨-, rfl, rfl, rfl⟩
        rfl
  next hno => exact (hno r hr).elim

theorem lexical_of_readNumber {lx : Lexeme c cs} (hc : c.isDigit = true) (h : readNumber c cs = .ok lx) :
    Lexical lx.kind c lx.tail lx.rest := by
  have hds : ∀ e ∈ cs.takeWhile Char.isDigit, e.isDigit = true := fun e he => List.mem_takeWhile_imp he
  by_cases hpoint : ∃ r, cs.dropWhile Char.isDigit = '.' :: r ∧ r.head? ≠ some '.'
  · obtain ⟨r, hr, hdots⟩ := hpoint
    obtain ⟨hne, hkind, htail, hrest⟩ := (readNumber_point hr hdots lx).1 h
    rw [hkind, htail, hrest]
    exact .float hc hds hne (fun e he => List.mem_takeWhile_imp he) (ends_dropWhile _ _)
  · have hpoint : ∀ r, cs.dropWhile Char.isDigit = '.' :: r → r.head? = some '.' := by simpa using hpoint
    rw [readNumber_int hpoint] at h
    cases hk : intKind (c :: cs.takeWhile Char.isDigit) with
    | error e =>
      rw [hk] at h
      cases h
    | ok k =>
      rw [hk] at h
      cases h
      exact .int hc hds hk (ends_dropWhile _ _) hpoint

theorem lexical_of_read {lx : Lexeme c cs} (h : read c cs = .ok lx) :
    Lexical lx.kind c lx.tail lx.rest := by
  unfold read at h
  split at h
  next s _ hpair =>
    cases h
    cases cs with
    | nil => cases hpair
    | cons d cs => exact .pair cs hpair
  next s hpair hs =>
    split at h
    next => cases h
    next hdot =>
      cases h
      refine .sign hs hpair fun hs => ?_
      simpa [Ends, take, hs] using hdot
  next hpair hs =>
    split at h
    next hquote =>
      subst hquote
      split at h
      next => cases h
      next b hb =>
        cases h
        obtain ⟨text, htext, hread⟩ := stringBody_alone hb
        have halone := hread []
        rw [List.append_nil] at halone
        obtain rfl : b.text = text := htext
        exact .string b.rest halone
    next hquote =>
      split at h
      next hchar =>
        subst hchar
        cases hb : charBody cs with
        | error e =>
          rw [hb] at h
          cases h
        | ok v =>
          obtain ⟨v, n⟩ := v
          rw [hb] at h
          cases h
          obtain ⟨text, hlen, htext, hread⟩ := charBody_alone hb
          have halone := hread []
          rw [List.append_nil, ← hlen] at halone
          show Lexical (.char v) '\'' (cs.take n) (cs.drop n)
          rw [← htext]
          exact .char _ halone
      next hchar =>
        split at h
        next hdigit => exact lexical_of_readNumber hdigit h
        next hdigit =>
          split at h
          next hword =>
            cases h
            exact .word hword (fun e he => List.mem_takeWhile_imp he) (ends_dropWhile _ _)
          next => cases h

/-! ### What is in the grammar is read -/

theorem takeWhile_of_ends {p : Char → Bool} (htail : ∀ e ∈ tail, p e = true) (hend : Ends p rest) :
    (tail ++ rest).takeWhile p = tail ∧ (tail ++ rest).dropWhile p = rest := by
  refine takeWhile_of_head htail fun c hc => ?_
  rw [Ends, Option.mem_def.1 hc] at hend
  exact hend

/-- A lexeme with given parts, read from a text that is put together from them. -/
theorem reads_of_read {lx : Lexeme c (tail ++ rest)} (h : read c (tail ++ rest) = .ok lx)
    (hkind : lx.kind = kind) (htail : lx.tail = tail) (hrest : lx.rest = rest) :
    Reads kind c tail rest := by
  obtain ⟨k, t, r, hsplit⟩ := lx
  obtain rfl : k = kind := hkind
  obtain rfl : t = tail := htail
  obtain rfl : r = rest := hrest
  exact ⟨hsplit, h⟩

theorem reads_of_readNumber {lx : Lexeme c (tail ++ rest)} (hc : c.isDigit = true)
    (h : readNumber c (tail ++ rest) = .ok lx) (hkind : lx.kind = kind) (htail : lx.tail = tail)
    (hrest : lx.rest = rest) : Reads kind c tail rest := by
  have hnum : c.isAlphanum = true := by simp [Char.isAlphanum, hc]
  have hstring : c ≠ '"' := by
    rintro rfl
    exact absurd hc (by decide)
  have hchar : c ≠ '\'' := by
    rintro rfl
    exact absurd hc (by decide)
  refine reads_of_read ?_ hkind htail hrest
  simpa [read, ofPair?_eq_none hnum, ofChar?_eq_none hnum, hstring, hchar, hc] using h

theorem Lexical.reads (h : Lexical kind c tail rest) : Reads kind c tail rest := by
  cases h with
  | pair _ hs =>
    refine ⟨rfl, ?_⟩
    simp [read, hs, take]
  | @sign _ s _ hs hpair hdot =>
    refine ⟨rfl, ?_⟩
    have hfine : ¬ (s = .dot ∧ rest.head?.any Char.isDigit = true) := by
      rintro ⟨hs, hdigit⟩
      simp [Ends, hdigit] at hdot
      exact hdot hs
    simp only [List.nil_append, read, hpair, hs, if_neg hfine]
    rfl
  | @string value _ _ hbody =>
    obtain ⟨text, htext, hread⟩ := stringBody_alone hbody
    obtain rfl : tail = text := htext
    refine ⟨rfl, ?_⟩
    have hsigns : Symbol.ofChar? '"' = none := rfl
    have hpair : (tail ++ rest).head?.bind (Symbol.ofPair? '"') = none := by
      cases (tail ++ rest).head? <;> rfl
    simp only [read, hpair, hsigns, if_true]
    split
    next hnone =>
      rw [hread] at hnone
      cases hnone
    next b hb =>
      rw [hread] at hb
      cases hb
      rfl
  | @char v _ _ hbody =>
    obtain ⟨text, hlen, htext, hread⟩ := charBody_alone hbody
    rw [List.take_length] at htext
    subst htext
    refine ⟨rfl, ?_⟩
    have hsigns : Symbol.ofChar? '\'' = none := rfl
    have hpair : (text ++ rest).head?.bind (Symbol.ofPair? '\'') = none := by
      cases (text ++ rest).head? <;> rfl
    simp only [read, hpair, hsigns, hread, if_false, if_true, Char.reduceEq]
    simp [bind, Except.bind, pure, Except.pure, take]
  | @int _ _ _ _ hd hds hkind hend hpoint =>
    obtain ⟨htake, hdrop⟩ := takeWhile_of_ends hds hend
    have hdots : ∀ r, (tail ++ rest).dropWhile Char.isDigit = '.' :: r → r.head? = some '.' := by
      rw [hdrop]
      exact hpoint
    have hread := readNumber_int (c := c) hdots
    rw [htake, hkind] at hread
    exact reads_of_readNumber hd hread rfl htake hdrop
  | @float _ ds fs _ hd hds hne hfs hend =>
    have hds' : Ends Char.isDigit ('.' :: (fs ++ rest)) := rfl
    obtain ⟨htake, hdrop⟩ := takeWhile_of_ends hds hds'
    obtain ⟨hfrac, hrest⟩ := takeWhile_of_ends hfs hend
    have hdots : (fs ++ rest).head? ≠ some '.' := by
      cases fs with
      | nil => exact (hne rfl).elim
      | cons f fs =>
        have hf := hfs f List.mem_cons_self
        rintro hdot
        cases hdot
        exact absurd hf (by decide)
    have htext : ds ++ '.' :: fs ++ rest = ds ++ '.' :: (fs ++ rest) := by simp
    rw [← htext] at htake hdrop
    have hread := (readNumber_point (c := c) hdrop hdots
      ⟨.float (Decimal.read (c :: ds) fs), ds ++ '.' :: fs, rest, rfl⟩).2
      ⟨by rwa [hfrac], by simp only [htake, hfrac], by simp only [htake, hfrac], hrest.symm⟩
    exact reads_of_readNumber hd hread rfl rfl rfl
  | word hc htail hend =>
    obtain ⟨htake, hdrop⟩ := takeWhile_of_ends htail hend
    have hpair (next : Option Char) : next.bind (Symbol.ofPair? c) = none := by
      rcases Bool.or_eq_true _ _ ▸ hc with hc | hc
      · exact ofPair?_eq_none (by simp [Char.isAlphanum, hc]) next
      · obtain rfl : c = '_' := by simpa using hc
        cases next <;> rfl
    have hsign : Symbol.ofChar? c = none ∧ c ≠ '"' ∧ c ≠ '\'' ∧ c.isDigit = false := by
      rcases Bool.or_eq_true _ _ ▸ hc with hc | hc
      · refine ⟨ofChar?_eq_none (by simp [Char.isAlphanum, hc]), ?_, ?_, isDigit_eq_false hc⟩
        · rintro rfl
          exact absurd hc (by decide)
        · rintro rfl
          exact absurd hc (by decide)
      · obtain rfl : c = '_' := by simpa using hc
        exact ⟨rfl, by decide, by decide, rfl⟩
    have hread : read c (tail ++ rest) = .ok (takeWhile
        (.ofWord (String.ofList (c :: (tail ++ rest).takeWhile isWordChar))) isWordChar) := by
      simp [read, hpair, hsign, hc]
    exact reads_of_read hread (by simp only [takeWhile, htake]) htake hdrop

theorem Reads.read_eq (h : Reads kind c tail rest) (hcs : tail ++ rest = cs) :
    read c cs = .ok ⟨kind, tail, rest, hcs⟩ := by
  subst hcs
  obtain ⟨_, h⟩ := h
  exact h

/-! ### What follows a lexeme -/

def isSpace (c : Char) : Bool := c = '\n' || isBlank c

/-- What may follow a lexeme that `rest` may follow: blanks, or text with the same first character and, if
that is a point, with a second one where `rest` has one. -/
def Follows (rest rest' : List Char) : Prop :=
  (∀ d ∈ rest'.head?, isSpace d = true) ∨
    rest'.head? = rest.head? ∧ (∀ r r', rest = '.' :: r → rest' = '.' :: r' →
      r.head? = some '.' → r'.head? = some '.')

theorem isSpace_iff {d : Char} :
    isSpace d = true ↔ d = '\n' ∨ d = ' ' ∨ d = '\t' ∨ d = '\r' ∨ d = '\x0c' := by
  simp [isSpace, isBlank, or_assoc]

theorem ends_of_follows {p : Char → Bool} (hp : ∀ d, isSpace d = true → p d = false)
    (h : Ends p rest) (hf : Follows rest rest') : Ends p rest' := by
  rcases hf with hspace | ⟨hhead, -⟩
  · cases rest' with
    | nil => rfl
    | cons d rest' => exact hp d (hspace d rfl)
  · rw [Ends, hhead]
    exact h

theorem isDigit_of_isSpace (d : Char) (h : isSpace d = true) : d.isDigit = false := by
  rcases isSpace_iff.1 h with rfl | rfl | rfl | rfl | rfl <;> rfl

theorem isWordChar_of_isSpace (d : Char) (h : isSpace d = true) : isWordChar d = false := by
  rcases isSpace_iff.1 h with rfl | rfl | rfl | rfl | rfl <;> rfl

theorem ofPair?_of_isSpace (c d : Char) (h : isSpace d = true) : Symbol.ofPair? c d = none := by
  unfold Symbol.ofPair?
  split <;> first | rfl | exact absurd h (by decide)

/-- A lexeme stays what it is when other text follows that does not make it longer. -/
theorem Lexical.follow (h : Lexical kind c tail rest) (hf : Follows rest rest') :
    Lexical kind c tail rest' := by
  cases h with
  | pair _ hs => exact .pair rest' hs
  | sign hs hpair hdot =>
    refine .sign hs ?_ fun hs => ends_of_follows isDigit_of_isSpace (hdot hs) hf
    rcases hf with hspace | ⟨hhead, -⟩
    · cases rest' with
      | nil => rfl
      | cons d rest' => exact ofPair?_of_isSpace c d (hspace d rfl)
    · rw [hhead]
      exact hpair
  | string _ hbody => exact .string rest' hbody
  | char _ hbody => exact .char rest' hbody
  | int hd hds hkind hend hpoint =>
    refine .int hd hds hkind (ends_of_follows isDigit_of_isSpace hend hf) ?_
    rintro r' rfl
    rcases hf with hspace | ⟨hhead, hsecond⟩
    · exact absurd (hspace '.' rfl) (by decide)
    · cases rest with
      | nil => cases hhead
      | cons d r =>
        cases hhead
        exact hsecond r r' rfl rfl (hpoint r rfl)
  | float hd hds hne hfs hend =>
    exact .float hd hds hne hfs (ends_of_follows isDigit_of_isSpace hend hf)
  | word hc htail hend => exact .word hc htail (ends_of_follows isWordChar_of_isSpace hend hf)

/-- A lexeme is one when the text ends after it. -/
theorem Lexical.alone (h : Lexical kind c tail rest) : Lexical kind c tail [] := h.follow (.inl nofun)

/-! ### Kinds of lexemes -/

def isEnd : Token.Kind → Bool
  | .stmtEnd | .eof => true
  | _ => false

def isQuoted : Token.Kind → Bool
  | .str _ | .char _ => true
  | _ => false

theorem intKind_eq_ok {ds : List Char} (h : intKind ds = .ok kind) : ∃ v, kind = .int v := by
  unfold intKind at h
  split at h <;> cases h
  exact ⟨_, rfl⟩

/-- What a word is: a reserved word, or a name that is the word itself. -/
theorem ofWord_cases (w : String) : (∃ k, Token.Kind.ofWord w = .keyword k) ∨
    Token.Kind.ofWord w = .typeName w ∨ Token.Kind.ofWord w = .ident w := by
  unfold Token.Kind.ofWord
  split
  · exact .inl ⟨_, rfl⟩
  · split
    · exact .inr (.inl rfl)
    · exact .inr (.inr rfl)

/-- A lexeme is no end of a statement or of the source. -/
theorem Lexical.isEnd_eq_false (h : Lexical kind c tail rest) : isEnd kind = false := by
  cases h with
  | int _ _ hkind =>
    obtain ⟨v, rfl⟩ := intKind_eq_ok hkind
    rfl
  | word => rcases ofWord_cases (String.ofList (c :: tail)) with ⟨k, h⟩ | h | h <;> rw [h] <;> rfl
  | _ => rfl

/-- A name is the text of its lexeme. -/
theorem Lexical.text_eq {name : String} (h : Lexical kind c tail rest)
    (hkind : kind = .ident name ∨ kind = .typeName name) : String.ofList (c :: tail) = name := by
  cases h with
  | int _ _ hint =>
    obtain ⟨v, rfl⟩ := intKind_eq_ok hint
    rcases hkind with hkind | hkind <;> cases hkind
  | word =>
    rcases ofWord_cases (String.ofList (c :: tail)) with ⟨k, h⟩ | h | h <;> rw [h] at hkind <;>
      rcases hkind with hkind | hkind <;> cases hkind <;> rfl
  | _ => rcases hkind with hkind | hkind <;> cases hkind

/-- Only between quotes does a lexeme go over a line end. -/
theorem Lexical.isQuoted_of_newline (h : Lexical kind c tail rest) (hline : '\n' ∈ tail) :
    isQuoted kind = true := by
  cases h with
  | pair _ hs =>
    rw [List.mem_singleton] at hline
    subst hline
    rw [ofPair?_of_isSpace c '\n' rfl] at hs
    cases hs
  | sign => cases hline
  | string => rfl
  | char => rfl
  | int _ hds => exact absurd (hds _ hline) (by decide)
  | float _ hds _ hfs =>
    rcases List.mem_append.1 hline with hline | hline
    · exact absurd (hds _ hline) (by decide)
    · rcases List.mem_cons.1 hline with hline | hline
      · exact absurd hline (by decide)
      · exact absurd (hfs _ hline) (by decide)
  | word _ htail => exact absurd (htail _ hline) (by decide)

end Sluice.Lexeme
