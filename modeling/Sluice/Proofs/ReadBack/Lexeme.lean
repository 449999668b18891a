import Mathlib.Tactic.SplitIfs
import Sluice.Token.Lexer

/-! The lexemes of written values: what is written for a number, a string, a character or a word is
read as one lexeme, which stands for what was written. -/
namespace Sluice.Lexeme

/-- `c :: tail` is one lexeme of the given kind when `rest` follows. -/
def Reads (kind : Token.Kind) (c : Char) (tail rest : List Char) : Prop :=
  ∃ split, read c (tail ++ rest) = .ok ⟨kind, tail, rest, split⟩

def stops (c : Char) : Bool := c = ',' || c = ']' || c = ')' || c = ':' || c = '}' || c = '('

def Stopped (rest : List Char) : Prop := ∀ c ∈ rest.head?, stops c = true

theorem stopped_nil : Stopped [] := by simp [Stopped]

theorem stopped_cons {c : Char} {rest : List Char} (h : stops c = true) : Stopped (c :: rest) := by
  simpa [Stopped] using h

/-! ### Signs -/

/-- Commas, colons and brackets, which are part of no longer sign. -/
def mark? : Char → Option Symbol
  | ',' => some .comma
  | ':' => some .colon
  | '(' => some .lparen
  | ')' => some .rparen
  | '[' => some .lbracket
  | ']' => some .rbracket
  | '{' => some .lbrace
  | '}' => some .rbrace
  | _ => none

theorem reads_mark {c : Char} {s : Symbol} (h : mark? c = some s) (rest : List Char) :
    Reads (.symbol s) c [] rest := by
  refine ⟨List.nil_append rest, ?_⟩
  show read c rest = .ok (take (.symbol s) 0)
  unfold mark? at h
  split at h <;> cases h <;> cases rest <;> rfl

/-- A minus sign before a number. -/
theorem reads_minus {d : Char} (hd : d.isDigit = true) (rest : List Char) :
    Reads (.symbol .minus) '-' [] (d :: rest) := by
  have hpair : Symbol.ofPair? '-' d = none := by
    unfold Symbol.ofPair?
    split <;> simp_all
  have hread : read '-' (d :: rest) = .ok (take (.symbol .minus) 0) := by
    simp [read, hpair, Symbol.ofChar?]
  exact ⟨List.nil_append _, hread⟩

/-! ### Words and numbers -/

/-- A run of characters of a class ends where a character of another class stands. -/
theorem takeWhile_of_head {p : Char → Bool} {tail rest : List Char} (htail : ∀ c ∈ tail, p c = true)
    (hhead : ∀ c ∈ rest.head?, p c = false) :
    (tail ++ rest).takeWhile p = tail ∧ (tail ++ rest).dropWhile p = rest := by
  have hrest : rest.takeWhile p = [] ∧ rest.dropWhile p = rest := by
    cases rest with
    | nil => exact ⟨rfl, rfl⟩
    | cons c rest => simp [hhead c rfl]
  rw [List.takeWhile_append_of_pos htail, List.dropWhile_append_of_pos htail, hrest.1, hrest.2]
  simp

theorem takeWhile_stopped {p : Char → Bool} (hp : ∀ c, stops c = true → p c = false)
    {tail rest : List Char} (htail : ∀ c ∈ tail, p c = true) (hrest : Stopped rest) :
    (tail ++ rest).takeWhile p = tail ∧ (tail ++ rest).dropWhile p = rest :=
  takeWhile_of_head htail fun c hc => hp c (hrest c hc)

theorem eq_of_stops {c : Char} (h : stops c = true) :
    c = ',' ∨ c = ']' ∨ c = ')' ∨ c = ':' ∨ c = '}' ∨ c = '(' := by
  simpa [stops, or_assoc] using h

theorem stops_isDigit (c : Char) (h : stops c = true) : c.isDigit = false := by
  rcases eq_of_stops h with rfl | rfl | rfl | rfl | rfl | rfl <;> rfl

theorem stops_isWordChar (c : Char) (h : stops c = true) : isWordChar c = false := by
  rcases eq_of_stops h with rfl | rfl | rfl | rfl | rfl | rfl <;> rfl

theorem ofPair?_eq_none {c : Char} (hc : c.isAlphanum = true) (next : Option Char) :
    next.bind (Symbol.ofPair? c) = none := by
  cases next with
  | none => rfl
  | some d =>
    show Symbol.ofPair? c d = none
    unfold Symbol.ofPair?
    split <;> first | rfl | exact absurd hc (by decide)

theorem ofChar?_eq_none {c : Char} (hc : c.isAlphanum = true) : Symbol.ofChar? c = none := by
  unfold Symbol.ofChar?
  split <;> first | rfl | exact absurd hc (by decide)

theorem isDigit_eq_false {c : Char} (hc : c.isAlpha = true) : c.isDigit = false := by
  have hc : (decide ('A'.val ≤ c.val ∧ c.val ≤ 'Z'.val) || ('a'.val ≤ c.val && c.val ≤ 'z'.val)) = true := hc
  simp only [Bool.or_eq_true, decide_eq_true_eq, Bool.and_eq_true, UInt32.le_iff_toNat_le] at hc
  simp only [Char.isDigit, Bool.and_eq_false_iff, decide_eq_false_iff_not, UInt32.le_iff_toNat_le,
    ge_iff_le]
  have hA : 'A'.val.toNat = 65 := rfl
  have ha : 'a'.val.toNat = 97 := rfl
  have h9 : '9'.val.toNat = 57 := rfl
  omega

/-- A word is read up to what follows it. -/
theorem reads_word {c : Char} {tail rest : List Char} (hc : c.isAlpha = true)
    (htail : ∀ d ∈ tail, isWordChar d = true) (hrest : Stopped rest) :
    Reads (.ofWord (String.ofList (c :: tail))) c tail rest := by
  obtain ⟨htake, hdrop⟩ := takeWhile_stopped stops_isWordChar htail hrest
  have hnum : c.isAlphanum = true := by simp [Char.isAlphanum, hc]
  have hstring : c ≠ '"' := by rintro rfl; exact absurd hc (by decide)
  have hchar : c ≠ '\'' := by rintro rfl; exact absurd hc (by decide)
  have hread : read c (tail ++ rest) =
      .ok (takeWhile (.ofWord (String.ofList (c :: (tail ++ rest).takeWhile isWordChar))) isWordChar) := by
    simp only [read, ofPair?_eq_none hnum, ofChar?_eq_none hnum, hstring, hchar, isDigit_eq_false hc, hc,
      if_false, Bool.true_or, if_true, Bool.false_eq_true]
  refine ⟨rfl, hread.trans ?_⟩
  simp [takeWhile, htake, hdrop]

theorem natOfDigits_toDigits (n : Nat) : natOfDigits (Nat.toDigits 10 n) = n :=
  Nat.ofDigitChars_toDigits (by decide) (by decide)

theorem isDigit_of_mem {n : Nat} {d : Char} (hd : d ∈ Nat.toDigits 10 n) : d.isDigit = true :=
  Nat.isDigit_of_mem_toDigits (by decide) (by decide) hd

/-- An integer without a sign is read as itself. -/
theorem reads_nat {n : Nat} (hn : n ≤ maxInt) {c : Char} {tail rest : List Char}
    (hdigits : Nat.toDigits 10 n = c :: tail) (hrest : Stopped rest) :
    Reads (.int (Int64.ofNat n)) c tail rest := by
  have hc : c.isDigit = true := isDigit_of_mem (n := n) (by simp [hdigits])
  have htail : ∀ d ∈ tail, d.isDigit = true := fun d hd => isDigit_of_mem (n := n) (by simp [hdigits, hd])
  obtain ⟨htake, hdrop⟩ := takeWhile_stopped stops_isDigit htail hrest
  have hnum : c.isAlphanum = true := by simp [Char.isAlphanum, hc]
  have hstring : c ≠ '"' := by rintro rfl; exact absurd hc (by decide)
  have hchar : c ≠ '\'' := by rintro rfl; exact absurd hc (by decide)
  have hkind : intKind (c :: (tail ++ rest).takeWhile Char.isDigit) = .ok (.int (Int64.ofNat n)) := by
    rw [htake, ← hdigits, intKind, natOfDigits_toDigits, if_pos hn]
  have hnumber : readNumber c (tail ++ rest) =
      .ok (takeWhile (.int (Int64.ofNat n)) Char.isDigit) := by
    rw [readNumber]
    split
    next r hpoint =>
      rw [hdrop] at hpoint
      subst hpoint
      exact absurd (hrest '.' rfl) (by decide)
    next => rw [hkind]; rfl
  refine ⟨rfl, ?_⟩
  simp only [read, ofPair?_eq_none hnum, ofChar?_eq_none hnum, hstring, hchar, hc, if_false, if_true,
    hnumber]
  simp [takeWhile, htake, hdrop]

/-! ### Quoted text -/

/-- `c` is not written by its number. -/
def Plain (quote c : Char) : Prop := Text.escape quote c ≠ Text.numbered c

instance (quote c : Char) : Decidable (Plain quote c) :=
  inferInstanceAs (Decidable (Text.escape quote c ≠ Text.numbered c))

/-- How a character is written that is not written by its number. -/
theorem escape_eq {quote c : Char} (h : Plain quote c) :
    Text.escape quote c = ['\\', 'n'] ∧ c = '\n' ∨ Text.escape quote c = ['\\', 't'] ∧ c = '\t' ∨
    Text.escape quote c = ['\\', 'r'] ∧ c = '\r' ∨ Text.escape quote c = ['\\', '0'] ∧ c = '\x00' ∨
    Text.escape quote c = ['\\', c] ∧ (c = '\\' ∨ c = quote) ∨
    Text.escape quote c = [c] ∧ c ≠ '\\' ∧ c ≠ quote ∧ c ≠ '\n' := by
  unfold Plain at h
  unfold Text.escape at *
  split_ifs at * <;> simp_all

/-- A string is read up to its closing quote. -/
theorem stringBody_escape (s : List Char) (hs : ∀ c ∈ s, Plain '"' c) (rest value used : List Char) :
    stringBody (s.flatMap (Text.escape '"') ++ '"' :: rest) value used =
      some ⟨value.reverse ++ s, used.reverse ++ s.flatMap (Text.escape '"') ++ ['"'], rest⟩ := by
  induction s generalizing value used with
  | nil => simp [stringBody]
  | cons c s ih =>
    have hrest := ih fun d hd => hs d (List.mem_cons_of_mem _ hd)
    rw [List.flatMap_cons]
    rcases escape_eq (hs c List.mem_cons_self) with
      ⟨he, rfl⟩ | ⟨he, rfl⟩ | ⟨he, rfl⟩ | ⟨he, rfl⟩ | ⟨he, hc⟩ | ⟨he, hback, hquote, -⟩
    · simp [he, stringBody, hrest, unescape]
    · simp [he, stringBody, hrest, unescape]
    · simp [he, stringBody, hrest, unescape]
    · simp [he, stringBody, hrest, unescape]
    · have hself : unescape c = c ∧ c.toNat < 128 := by rcases hc with rfl | rfl <;> decide
      simp [he, stringBody, hrest, hself]
    · rw [he]
      simp [stringBody, hrest, hback]

theorem read_string {cs : List Char} {b : Body} (h : stringBody cs [] [] = some b) :
    read '"' cs = .ok ⟨.str (String.ofList b.value), b.text, b.rest, stringBody_split h⟩ := by
  have hpair : cs.head?.bind (Symbol.ofPair? '"') = none := by cases cs.head? <;> rfl
  have hchar : Symbol.ofChar? '"' = none := rfl
  simp only [read, hpair, hchar, if_true]
  split
  next hnone => rw [h] at hnone; cases hnone
  next b' hb' =>
    obtain rfl : b = b' := Option.some.inj (h.symm.trans hb')
    rfl

theorem reads_string (s : String) (hs : ∀ c ∈ s.toList, Plain '"' c) (rest : List Char) :
    Reads (.str s) '"' (s.toList.flatMap (Text.escape '"') ++ ['"']) rest := by
  have hbody : stringBody (s.toList.flatMap (Text.escape '"') ++ ['"'] ++ rest) [] [] =
      some ⟨s.toList, s.toList.flatMap (Text.escape '"') ++ ['"'], rest⟩ := by
    simpa using stringBody_escape s.toList hs rest [] []
  refine ⟨rfl, (read_string hbody).trans ?_⟩
  simp

theorem charBody_cons {c : Char} (hback : c ≠ '\\') (hquote : c ≠ '\'') (hline : c ≠ '\n')
    (cs : List Char) : charBody (c :: cs) = charBody.closed c 2 cs := by
  unfold charBody
  split <;> simp_all

theorem charBody_escape {c : Char} (hc : Plain '\'' c) (rest : List Char) :
    charBody (Text.escape '\'' c ++ '\'' :: rest) =
      .ok (c, (Text.escape '\'' c).length + 1) := by
  rcases escape_eq hc with
    ⟨he, rfl⟩ | ⟨he, rfl⟩ | ⟨he, rfl⟩ | ⟨he, rfl⟩ | ⟨he, rfl | rfl⟩ | ⟨he, hback, hquote, hline⟩
  · simp [he, charBody, charBody.closed, unescape]
  · simp [he, charBody, charBody.closed, unescape]
  · simp [he, charBody, charBody.closed, unescape]
  · simp [he, charBody, charBody.closed, unescape]
  · simp [he, charBody, charBody.closed, unescape]
  · simp [he, charBody, charBody.closed, unescape]
  · rw [he]
    rw [List.singleton_append, charBody_cons hback hquote hline]
    rfl

theorem read_char {cs : List Char} {c : Char} {n : Nat} (h : charBody cs = .ok (c, n)) :
    read '\'' cs = .ok (take (.char c) n) := by
  have hpair : cs.head?.bind (Symbol.ofPair? '\'') = none := by cases cs.head? <;> rfl
  simp [read, hpair, Symbol.ofChar?, h, bind, Except.bind, pure, Except.pure]

theorem reads_char {c : Char} (hc : Plain '\'' c) (rest : List Char) :
    Reads (.char c) '\'' (Text.escape '\'' c ++ ['\'']) rest := by
  have hbody : charBody (Text.escape '\'' c ++ ['\''] ++ rest) =
      .ok (c, (Text.escape '\'' c ++ ['\'']).length) := by
    simpa using charBody_escape hc rest
  refine ⟨rfl, (read_char hbody).trans ?_⟩
  simp only [take, List.take_left, List.drop_left]

end Sluice.Lexeme
