import Mathlib.Data.List.Basic
import Sluice.Proofs.ReadBack.Lexeme
import Sluice.Proofs.Token.Scan
import Sluice.Value.Equality
import Sluice.Value.Show

/-! The tokens of written values. A text is scanned lexeme by lexeme, so the tokens of a written value
are those of its parts with the brackets and commas between them. -/
namespace Sluice

open Lexeme

namespace Token

/-- `text` is cut into tokens of the given kinds when `rest` follows, whatever came before. -/
def Scans (text : List Char) (kinds : List Kind) (rest : List Char) : Prop :=
  ∀ l p seen, ∃ ts : List Token, ts.map kind = kinds ∧
    scanFrom l p (text ++ rest) seen =
      scanFrom (ts.foldl LineState.next l) (p.after text) rest (ts.reverse ++ seen)

theorem scans_nil (rest : List Char) : Scans [] [] rest := fun _ _ _ => ⟨[], rfl, rfl⟩

theorem Scans.append {text text' rest : List Char} {kinds kinds' : List Kind}
    (h : Scans text kinds (text' ++ rest)) (h' : Scans text' kinds' rest) :
    Scans (text ++ text') (kinds ++ kinds') rest := by
  intro l p seen
  obtain ⟨ts, hts, hscan⟩ := h l p seen
  obtain ⟨ts', hts', hscan'⟩ := h' (ts.foldl LineState.next l) (p.after text) (ts.reverse ++ seen)
  refine ⟨ts ++ ts', by simp [hts, hts'], ?_⟩
  rw [List.append_assoc, hscan, hscan', List.foldl_append, Position.after_append]
  simp

def isVisible (c : Char) : Bool := !isBlank c && c ≠ '\n' && c ≠ '/'

theorem skip_visible {c : Char} (hc : isVisible c = true) (breaks : Bool) (p : Position)
    (rest : List Char) : Gap.skip breaks false p (c :: rest) = ⟨p, c :: rest, none⟩ := by
  simp only [isVisible, Bool.and_eq_true, Bool.not_eq_true', decide_eq_true_eq, ne_eq] at hc
  obtain ⟨⟨hblank, hline⟩, hslash⟩ := hc
  simp [Gap.skip, hblank, hline, hslash]

/-- One lexeme gives one token. -/
theorem scans_lexeme {k : Kind} {c : Char} {tail rest : List Char} (hc : isVisible c = true)
    (h : Reads k c tail rest) : Scans (c :: tail) [k] rest := by
  obtain ⟨split, hread⟩ := h
  intro l p seen
  refine ⟨[⟨k, p.spanTo (p.after (c :: tail))⟩], rfl, ?_⟩
  rw [List.cons_append, scanFrom_eq, skip_visible hc, scanAfter, hread]
  rfl

theorem scans_mark {c : Char} {s : Symbol} (hc : isVisible c = true) (h : mark? c = some s)
    (rest : List Char) : Scans [c] [.symbol s] rest := scans_lexeme hc (reads_mark h rest)

/-- A blank gives no token. -/
theorem scans_space (rest : List Char) : Scans [' '] [] rest := by
  intro l p seen
  have hskip : Gap.skip l.breaksLine false p (' ' :: rest) =
      Gap.skip l.breaksLine false (p.advance ' ') rest := by simp [Gap.skip, isBlank]
  refine ⟨[], rfl, ?_⟩
  rw [List.singleton_append, scanFrom_eq, hskip, ← scanFrom_eq]
  rfl

/-- Pieces with commas between them. -/
theorem scans_commas {α : Type} {f : α → List Char} {g : α → List Kind} (xs : List α)
    (h : ∀ x ∈ xs, ∀ rest, Stopped rest → Scans (f x) (g x) rest) (rest : List Char)
    (hrest : Stopped rest) :
    Scans ([',', ' '].intercalate (xs.map f)) ([.symbol .comma].intercalate (xs.map g)) rest := by
  induction xs with
  | nil => exact scans_nil rest
  | cons x xs ih =>
    have htail := ih fun y hy => h y (List.mem_cons_of_mem _ hy)
    cases xs with
    | nil => simpa using h x List.mem_cons_self rest hrest
    | cons y xs =>
      simp only [List.map_cons, List.intercalate_cons_cons] at htail ⊢
      have hcomma : Scans [',', ' '] [.symbol .comma]
          ([',', ' '].intercalate (f y :: xs.map f) ++ rest) :=
        (scans_mark rfl rfl _).append (scans_space _)
      have hx := h x List.mem_cons_self
        ([',', ' '] ++ ([',', ' '].intercalate (f y :: xs.map f) ++ rest)) (stopped_cons rfl)
      exact (hx.append hcomma).append htail

end Token

/-! ### Written values -/

namespace Value

/-- Values that are written as they are read: no function, no double, no set and no declared type in
them, and each character of their texts one that is not written by its number. -/
inductive Readable : Value → Prop
  /-- The least integer is written with a number that is out of range. -/
  | int (n : Int64) (h : n ≠ Int64.minValue) : Readable (int n)
  | bool (b : Bool) : Readable (bool b)
  | char (c : Char) (h : Plain '\'' c) : Readable (char c)
  | str (s : String) (h : ∀ c ∈ s.toList, Plain '"' c) : Readable (str s)
  | list (vs : List Value) (h : ∀ v ∈ vs, Readable v) : Readable (list vs)
  | tuple (vs : List Value) (hlen : vs.length ≠ 1) (h : ∀ v ∈ vs, Readable v) : Readable (tuple vs)
  | map (es : List (Value × Value)) (hkeys : es.Pairwise fun a b => beq a.1 b.1 = false)
      (hk : ∀ e ∈ es, Readable e.1) (hv : ∀ e ∈ es, Readable e.2) : Readable (map es)
  | just (v : Value) (h : Readable v) : Readable (just v)
  | nothing : Readable nothing

mutual

def kinds : Value → List Token.Kind
  | int n =>
    if 0 ≤ n.toInt then [.int (Int64.ofNat n.toInt.toNat)]
    else [.symbol .minus, .int (Int64.ofNat (-n.toInt).toNat)]
  | bool b => [.keyword (if b then .true else .false)]
  | char c => [.char c]
  | str s => [.str s]
  | list vs => .symbol .lbracket :: [.symbol .comma].intercalate (kindsAll vs) ++ [.symbol .rbracket]
  | tuple vs => .symbol .lparen :: [.symbol .comma].intercalate (kindsAll vs) ++ [.symbol .rparen]
  | map es => .symbol .lbrace :: [.symbol .comma].intercalate (kindsEntries es) ++ [.symbol .rbrace]
  | just v => .ident "Just" :: .symbol .lparen :: v.kinds ++ [.symbol .rparen]
  | nothing => [.ident "Nothing"]
  | _ => []

def kindsAll : List Value → List (List Token.Kind)
  | [] => []
  | v :: vs => v.kinds :: kindsAll vs

def kindsEntries : List (Value × Value) → List (List Token.Kind)
  | [] => []
  | (k, v) :: es => (k.kinds ++ .symbol .colon :: v.kinds) :: kindsEntries es

end

theorem kindsAll_eq_map (vs : List Value) : kindsAll vs = vs.map kinds := by
  induction vs with
  | nil => rfl
  | cons v vs ih => rw [kindsAll, ih, List.map_cons]

theorem kindsEntries_eq_map (es : List (Value × Value)) :
    kindsEntries es = es.map fun e => e.1.kinds ++ .symbol .colon :: e.2.kinds := by
  induction es with
  | nil => rfl
  | cons e es ih => rw [kindsEntries, ih, List.map_cons]

theorem repr_list (vs : List Value) : (list vs).repr.toList =
    '[' :: [',', ' '].intercalate (vs.map fun v => v.repr.toList) ++ [']'] := by
  have htext : (list vs).repr = "[" ++ ", ".intercalate (vs.map repr) ++ "]" := by
    rw [← texts_eq_map]; rfl
  simp [htext, String.toList_intercalate, Function.comp_def]

theorem repr_tuple (vs : List Value) : (tuple vs).repr.toList =
    '(' :: [',', ' '].intercalate (vs.map fun v => v.repr.toList) ++ [')'] := by
  have htext : (tuple vs).repr = "(" ++ ", ".intercalate (vs.map repr) ++ ")" := by
    rw [← texts_eq_map]; rfl
  simp [htext, String.toList_intercalate, Function.comp_def]

theorem repr_map (es : List (Value × Value)) : (map es).repr.toList = '{' ::
    [',', ' '].intercalate (es.map fun e => e.1.repr.toList ++ [':', ' '] ++ e.2.repr.toList) ++
      ['}'] := by
  have htext : (map es).repr =
      "\x7b" ++ ", ".intercalate (es.map fun e => e.1.repr ++ ": " ++ e.2.repr) ++ "\x7d" := by
    rw [← entryTexts_eq_map]; rfl
  simp [htext, String.toList_intercalate, Function.comp_def]

theorem repr_just (v : Value) :
    (just v).repr.toList = "Just".toList ++ ('(' :: v.repr.toList ++ [')']) := by
  have htext : (just v).repr = "Just(" ++ v.repr ++ ")" := rfl
  simp [htext]

end Value

namespace Token

open Value

theorem isVisible_of_isDigit {c : Char} (h : c.isDigit = true) : isVisible c = true := by
  simp only [isVisible, isBlank, Bool.and_eq_true, Bool.not_eq_true', Bool.or_eq_false_iff,
    decide_eq_false_iff_not, decide_eq_true_eq]
  refine ⟨⟨⟨⟨⟨?_, ?_⟩, ?_⟩, ?_⟩, ?_⟩, ?_⟩ <;>
    · rintro rfl
      exact absurd h (by decide)

/-- The digits of a number are one token. -/
theorem scans_nat {n : Nat} (hn : n ≤ maxInt) {rest : List Char} (hrest : Stopped rest) :
    Scans n.repr.toList [.int (Int64.ofNat n)] rest := by
  rw [Nat.repr_eq_ofList_toDigits, String.toList_ofList]
  obtain ⟨c, tail, hdigits⟩ := List.exists_cons_of_ne_nil (Nat.toDigits_ne_nil (n := n) (b := 10))
  have hc : c.isDigit = true := isDigit_of_mem (n := n) (by simp [hdigits])
  rw [hdigits]
  exact scans_lexeme (isVisible_of_isDigit hc) (reads_nat hn hdigits hrest)

theorem scans_int {n : Int64} (hn : n ≠ Int64.minValue) {rest : List Char} (hrest : Stopped rest) :
    Scans (int n).repr.toList (int n).kinds rest := by
  have hmin : n.toInt ≠ -2 ^ 63 := fun h => hn (Int64.toInt_inj.1 (h.trans Int64.toInt_minValue.symm))
  have hlow := n.le_toInt
  have hhigh := n.toInt_lt
  simp only [Value.repr, text, kinds, Int.toString_eq_repr, Int.repr_eq_if]
  split
  · exact scans_nat (by unfold maxInt; omega) hrest
  · have hnat := scans_nat (n := (-n.toInt).toNat) (by unfold maxInt; omega) hrest
    obtain ⟨d, tail, hdigits⟩ := List.exists_cons_of_ne_nil
      (Nat.toDigits_ne_nil (n := (-n.toInt).toNat) (b := 10))
    have hd : d.isDigit = true := isDigit_of_mem (n := (-n.toInt).toNat) (by simp [hdigits])
    have hminus : Scans ['-'] [.symbol .minus] ((-n.toInt).toNat.repr.toList ++ rest) := by
      rw [Nat.repr_eq_ofList_toDigits, String.toList_ofList, hdigits]
      exact scans_lexeme rfl (reads_minus hd _)
    rw [String.toList_append]
    exact hminus.append hnat

/-- What stands between brackets. -/
theorem scans_between {c d : Char} {s t : Symbol} {text : List Char} {kinds : List Kind}
    (hc : isVisible c = true) (hs : mark? c = some s) (hd : isVisible d = true)
    (ht : mark? d = some t) (hstops : stops d = true)
    (h : ∀ rest, Stopped rest → Scans text kinds rest) (rest : List Char) :
    Scans (c :: text ++ [d]) (.symbol s :: kinds ++ [.symbol t]) rest :=
  ((scans_mark hc hs _).append (h ([d] ++ rest) (stopped_cons hstops))).append (scans_mark hd ht rest)

/-- The tokens of a written value. -/
theorem scans_repr {v : Value} (hv : v.Readable) :
    ∀ rest, Stopped rest → Scans v.repr.toList v.kinds rest := by
  induction hv with
  | int n hn => exact fun rest => scans_int hn
  | bool b =>
    intro rest hrest
    cases b with
    | false => exact scans_lexeme rfl (reads_word rfl (List.all_eq_true.1 rfl) hrest)
    | true => exact scans_lexeme rfl (reads_word rfl (List.all_eq_true.1 rfl) hrest)
  | char c hc =>
    intro rest _
    have htext : (char c).repr.toList = '\'' :: (Text.escape '\'' c ++ ['\'']) := by
      simp [Value.repr, text, Text.quotedChar]
    rw [htext]
    exact scans_lexeme rfl (reads_char hc rest)
  | str s hs =>
    intro rest _
    have htext : (str s).repr.toList = '"' :: (s.toList.flatMap (Text.escape '"') ++ ['"']) := by
      simp [Value.repr, text, Text.quoted]
    rw [htext]
    exact scans_lexeme rfl (reads_string s hs rest)
  | list vs _ ih =>
    intro rest _
    rw [repr_list, kinds, kindsAll_eq_map]
    exact scans_between rfl rfl rfl rfl rfl (scans_commas vs ih) rest
  | tuple vs _ _ ih =>
    intro rest _
    rw [repr_tuple, kinds, kindsAll_eq_map]
    exact scans_between rfl rfl rfl rfl rfl (scans_commas vs ih) rest
  | map es _ _ _ ihk ihv =>
    intro rest _
    rw [repr_map, kinds, kindsEntries_eq_map]
    refine scans_between rfl rfl rfl rfl rfl (scans_commas es fun e he rest hrest => ?_) rest
    have hcolon : Scans [':', ' '] [.symbol .colon] (e.2.repr.toList ++ rest) :=
      (scans_mark rfl rfl _).append (scans_space _)
    have hkey := ihk e he ([':', ' '] ++ (e.2.repr.toList ++ rest)) (stopped_cons rfl)
    simpa using (hkey.append hcolon).append (ihv e he rest hrest)
  | just v _ ih =>
    intro rest _
    have hword : Scans "Just".toList [.ident "Just"] ('(' :: v.repr.toList ++ [')'] ++ rest) :=
      scans_lexeme rfl (reads_word rfl (List.all_eq_true.1 rfl) (stopped_cons rfl))
    rw [repr_just]
    exact hword.append (scans_between rfl rfl rfl rfl rfl ih rest)
  | nothing => exact fun rest hrest => scans_lexeme rfl (reads_word rfl (List.all_eq_true.1 rfl) hrest)

/-- The last token of a written value leaves no statement open. -/
theorem kinds_eq_append {v : Value} (hv : v.Readable) :
    ∃ first last, v.kinds = first ++ [last] ∧ ∀ l : LineState, l.leavesOpen last = false := by
  cases hv with
  | int n _ =>
    by_cases h : 0 ≤ n.toInt
    · exact ⟨[], .int (Int64.ofNat n.toInt.toNat), by simp [kinds, h], fun _ => rfl⟩
    · exact ⟨[.symbol .minus], .int (Int64.ofNat (-n.toInt).toNat), by simp [kinds, h], fun _ => rfl⟩
  | bool b => exact ⟨[], _, rfl, fun _ => by cases b <;> rfl⟩
  | char c _ => exact ⟨[], _, rfl, fun _ => rfl⟩
  | str s _ => exact ⟨[], _, rfl, fun _ => rfl⟩
  | list vs _ => exact ⟨_, _, by rw [kinds], fun _ => rfl⟩
  | tuple vs _ _ => exact ⟨_, _, by rw [kinds], fun _ => rfl⟩
  | map es _ _ _ => exact ⟨_, _, by rw [kinds], fun _ => rfl⟩
  | just v _ => exact ⟨.ident "Just" :: .symbol .lparen :: v.kinds, _, by rw [kinds], fun _ => rfl⟩
  | nothing => exact ⟨[], _, rfl, fun _ => rfl⟩

/-- A text whose last token leaves no statement open is one statement. -/
theorem Scans.exists_scan {text : List Char} {first : List Kind} {last : Kind}
    (h : Scans text (first ++ [last]) []) (hlast : ∀ l : LineState, l.leavesOpen last = false) : ∃ ts here,
      scan (String.ofList text) = .ok (ts ++ [⟨.stmtEnd, here⟩, ⟨.eof, here⟩]) ∧ ts.map kind = first ++ [last] := by
  obtain ⟨ts, hts, hscan⟩ := h {} .zero []
  have hcontinues : (ts.foldl LineState.next {}).continues = false := by
    obtain ⟨us, vs, rfl, -, hvs⟩ := List.map_eq_append_iff.1 hts
    obtain ⟨t, rfl, ht⟩ := List.map_eq_singleton_iff.1 hvs
    simp only [List.foldl_append, List.foldl_cons, List.foldl_nil, LineState.next, ht, hlast]
  refine ⟨ts, (Position.zero.after text).spanTo (Position.zero.after text), ?_, hts⟩
  rw [List.append_nil] at hscan
  rw [scan, String.toList_ofList, hscan, scanFrom_eq]
  simp [Gap.skip, scanAfter, hcontinues]

/-- A written value alone is one statement. -/
theorem scan_repr {v : Value} (hv : v.Readable) : ∃ ts here,
    scan v.repr = .ok (ts ++ [⟨.stmtEnd, here⟩, ⟨.eof, here⟩]) ∧ ts.map kind = v.kinds := by
  have hscans := scans_repr hv [] stopped_nil
  obtain ⟨first, last, hkinds, hlast⟩ := kinds_eq_append hv
  rw [hkinds] at hscans ⊢
  simpa using hscans.exists_scan hlast

end Token

end Sluice
