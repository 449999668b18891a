import Mathlib.Data.List.Forall2
import Mathlib.Data.Nat.Digits.Defs
import Sluice.Host
import Sluice.Proofs.Token.Lexical

/-! The language of formats. A format is a list of items, characters that stand for themselves and directives,
and the arguments are what its directives ask for, one by one. Every format is read up to its end or to
a first offence, never to both, and what is written, or which error is reported, is told by that reading. -/
namespace Sluice

namespace Printf

open Lexeme (Ends ends_dropWhile takeWhile_of_ends)

/-! ### Items -/

inductive Item where
  /-- A character that stands for itself. -/
  | literal (c : Char)
  /-- `%`, the digits of a precision if there is one, and a letter. -/
  | directive (digits : Option (List Char)) (letter : Char)

def precisionText : Option (List Char) → List Char
  | none => []
  | some ds => '.' :: ds

def number (ds : List Char) : Nat := Nat.ofDigits 10 (ds.map fun c => c.toNat - '0'.toNat).reverse

/-- A precision is a number of 64 bits, or left out. -/
def Precise (digits : Option (List Char)) : Prop :=
  ∀ ds ∈ digits, (∀ c ∈ ds, c.isDigit = true) ∧ ds ≠ [] ∧ number ds ≤ maxPlaces

/-- The precision does not go on in what follows it. -/
def EndsPrecision : Option (List Char) → List Char → Prop
  | none, rest => rest.head? ≠ some '.'
  | some _, rest => Ends Char.isDigit rest

def argumentLetters : List Char := ['d', 'i', 'f', 'c', 's', 'v']

def Accepts (letter : Char) (v : Value) : Prop :=
  match letter with
  | 'd' | 'i' => ∃ n, v = .int n
  | 'f' => (∃ n, v = .int n) ∨ ∃ x, v = .float x
  | 'c' => ∃ c, v = .char c
  | 's' | 'v' => True
  | _ => False

/-- The text of an argument: a number under `f` has a fixed count of places, all else is shown as it is
printed. -/
def shown (letter : Char) (places : Option Nat) (v : Value) : String :=
  match letter, v with
  | 'f', .int n => Decimal.fixed (places.getD defaultPlaces) n.toFloat
  | 'f', .float x => Decimal.fixed (places.getD defaultPlaces) x
  | _, v => v.display

def wanted : Char → String
  | 'f' => "Float"
  | 'c' => "Char"
  | _ => "Int"

namespace Item

def text : Item → List Char
  | literal c => [c]
  | directive digits letter => '%' :: (precisionText digits ++ [letter])

def Legal : Item → Prop
  | literal c => c ≠ '%'
  | directive digits letter => Precise digits ∧ (letter = '%' ∨ letter ∈ argumentLetters)

def asks? : Item → Option (Char × Option Nat)
  | literal _ => none
  | directive digits letter => if letter = '%' then none else some (letter, digits.map number)

/-- The character that an item without an argument stands for. -/
def char : Item → Char
  | literal c => c
  | directive _ letter => letter

end Item

/-- The items are legal, and each directive that takes an argument has its own of the kind that it takes. -/
structure Fits (items : List Item) (args : List Value) : Prop where
  legal : ∀ i ∈ items, i.Legal
  accepted : List.Forall₂ (fun ask v => Accepts ask.1 v) (items.filterMap Item.asks?) args

/-- The text of the items with the arguments in the place of the directives that take one. -/
def fill : List Item → List Value → String
  | [], _ => ""
  | i :: items, args =>
    match i.asks?, args with
    | some (letter, places), v :: args => shown letter places v ++ fill items args
    | _, args => i.char.toString ++ fill items args

/-- What is wrong where `rest` of a format and the arguments `left` are still to come. -/
inductive Offence : List Char → List Value → Error → Prop
  | unused {left : List Value} (h : left ≠ []) : Offence [] left (.unused left.length)
  | noDigits {ds rest : List Char} (left : List Value) (hds : ∀ c ∈ ds, c.isDigit = true)
      (hend : Ends Char.isDigit rest) (h : ds = [] ∨ maxPlaces < number ds) :
      Offence ('%' :: '.' :: (ds ++ rest)) left .noDigits
  | dangling {digits : Option (List Char)} (left : List Value) (hdigits : Precise digits) :
      Offence ('%' :: precisionText digits) left .dangling
  | unknownDirective {digits : Option (List Char)} {letter : Char} {rest : List Char} (left : List Value)
      (hdigits : Precise digits) (hend : EndsPrecision digits (letter :: rest)) (hpercent : letter ≠ '%')
      (hletter : letter ∉ argumentLetters) :
      Offence ((Item.directive digits letter).text ++ rest) left (.unknownDirective letter)
  | missingArgument {digits : Option (List Char)} {letter : Char} (rest : List Char)
      (hdigits : Precise digits) (hletter : letter ∈ argumentLetters) :
      Offence ((Item.directive digits letter).text ++ rest) [] (.missingArgument letter)
  | wrongType {digits : Option (List Char)} {letter : Char} {v : Value} (rest : List Char) (left : List Value)
      (hdigits : Precise digits) (hletter : letter ∈ argumentLetters) (hv : ¬ Accepts letter v) :
      Offence ((Item.directive digits letter).text ++ rest) (v :: left) (.wrongType letter (wanted letter) v.tag)

/-! ### Precisions -/

theorem foldl_eq_number (ds : List Char) :
    ds.foldl (fun n c => 10 * n + (c.toNat - '0'.toNat)) 0 = number ds := by
  rw [number, Nat.ofDigits_eq_foldr, List.foldr_reverse, List.foldl_map]
  simp only [Nat.cast_id, Nat.add_comm]

theorem places?_of_precise {ds : List Char} (hne : ds ≠ []) (hle : number ds ≤ maxPlaces) :
    places? ds = some (number ds) := by
  rw [places?, foldl_eq_number]
  simp [hne, hle]

theorem places?_eq_none {ds : List Char} (h : ds = [] ∨ maxPlaces < number ds) : places? ds = none := by
  rw [places?, foldl_eq_number, if_pos]
  simpa using h

theorem precision_eq_ok {digits : Option (List Char)} {rest : List Char} (hdigits : Precise digits)
    (hend : EndsPrecision digits rest) :
    precision (precisionText digits ++ rest) = .ok (digits.map number, rest) := by
  cases digits with
  | none =>
    unfold precision
    split
    next r heq =>
      have hrest : rest = '.' :: r := heq
      rw [hrest] at hend
      exact absurd rfl hend
    next => rfl
  | some ds =>
    obtain ⟨hds, hne, hle⟩ := hdigits ds rfl
    obtain ⟨htake, hdrop⟩ := takeWhile_of_ends hds hend
    rw [precisionText, List.cons_append, precision, htake, hdrop, places?_of_precise hne hle]
    rfl

theorem precision_eq_error {ds rest : List Char} (hds : ∀ c ∈ ds, c.isDigit = true)
    (hend : Ends Char.isDigit rest) (h : ds = [] ∨ maxPlaces < number ds) :
    precision ('.' :: (ds ++ rest)) = .error .noDigits := by
  rw [precision, (takeWhile_of_ends hds hend).1, places?_eq_none h]

/-- What follows a `%` begins with a precision that could be, or with a point and no number of 64 bits. -/
theorem precision_cases (cs : List Char) :
    (∃ digits rest, cs = precisionText digits ++ rest ∧ Precise digits ∧ EndsPrecision digits rest) ∨
      ∃ ds rest, cs = '.' :: (ds ++ rest) ∧ (∀ c ∈ ds, c.isDigit = true) ∧ Ends Char.isDigit rest ∧
        (ds = [] ∨ maxPlaces < number ds) := by
  by_cases hpoint : cs.head? = some '.'
  · obtain ⟨r, rfl⟩ : ∃ r, cs = '.' :: r := ⟨_, (List.cons_head?_tail hpoint).symm⟩
    have hds : ∀ c ∈ r.takeWhile Char.isDigit, c.isDigit = true := fun c hc => List.mem_takeWhile_imp hc
    have hsplit : r = r.takeWhile Char.isDigit ++ r.dropWhile Char.isDigit :=
      List.takeWhile_append_dropWhile.symm
    have hend := ends_dropWhile Char.isDigit r
    generalize r.takeWhile Char.isDigit = ds at hds hsplit
    generalize r.dropWhile Char.isDigit = rest at hsplit hend
    subst hsplit
    by_cases h : ds = [] ∨ maxPlaces < number ds
    · exact .inr ⟨ds, rest, rfl, hds, hend, h⟩
    · rw [not_or, Nat.not_lt] at h
      refine .inl ⟨some ds, rest, rfl, fun _ he => ?_, hend⟩
      obtain rfl := Option.some.inj he
      exact ⟨hds, h⟩
  · exact .inl ⟨none, cs, rfl, nofun, hpoint⟩

/-! ### Steps -/

variable {out : String} {args left : List Value} {cs rest : List Char} {digits : Option (List Char)}
  {letter : Char} {places : Option Nat} {v : Value} {e : Error}

theorem render_of_accepts (places : Option Nat) (h : Accepts letter v) :
    render letter places v = .ok (shown letter places v) := by
  unfold Accepts at h
  split at h
  · obtain ⟨n, rfl⟩ := h
    rfl
  · obtain ⟨n, rfl⟩ := h
    rfl
  · obtain ⟨n, rfl⟩ | ⟨x, rfl⟩ := h <;> rfl
  · obtain ⟨c, rfl⟩ := h
    rfl
  · rfl
  · rfl
  · cases h

theorem render_of_not_accepts (places : Option Nat) (hletter : letter ∈ argumentLetters)
    (h : ¬ Accepts letter v) : render letter places v = .error (.wrongType letter (wanted letter) v.tag) := by
  simp only [argumentLetters, List.mem_cons, List.not_mem_nil, or_false] at hletter
  rcases hletter with rfl | rfl | rfl | rfl | rfl | rfl
  · cases v with
    | int n => exact absurd ⟨n, rfl⟩ h
    | _ => rfl
  · cases v with
    | int n => exact absurd ⟨n, rfl⟩ h
    | _ => rfl
  · cases v with
    | int n => exact absurd (.inl ⟨n, rfl⟩) h
    | float x => exact absurd (.inr ⟨x, rfl⟩) h
    | _ => rfl
  · cases v with
    | char c => exact absurd ⟨c, rfl⟩ h
    | _ => rfl
  · exact absurd trivial h
  · exact absurd trivial h

theorem takesArgument_iff : takesArgument letter = true ↔ letter ∈ argumentLetters := by
  rw [takesArgument, decide_eq_true_iff, argumentLetters]

theorem ne_percent (h : letter ∈ argumentLetters) : letter ≠ '%' := by
  rintro rfl
  revert h
  decide

theorem formatFrom_literal {c : Char} (hc : c ≠ '%') :
    formatFrom out args (c :: rest) = formatFrom (out.push c) args rest := by
  rw [formatFrom, if_neg hc]

def atLetter (out : String) (args : List Value) (places : Option Nat) (letter : Char) (rest : List Char) :
    Except Error String :=
  if letter = '%' then formatFrom (out.push '%') args rest
  else if letter ∈ argumentLetters then
    match args with
    | [] => .error (.missingArgument letter)
    | v :: args =>
      match render letter places v with
      | .error e => .error e
      | .ok t => formatFrom (out ++ t) args rest
  else .error (.unknownDirective letter)

theorem atLetter_percent : atLetter out args places '%' rest = formatFrom (out.push '%') args rest :=
  if_pos rfl

theorem atLetter_unknown (hpercent : letter ≠ '%') (hletter : letter ∉ argumentLetters) :
    atLetter out args places letter rest = .error (.unknownDirective letter) := by
  rw [atLetter.eq_def, if_neg hpercent, if_neg hletter]

theorem atLetter_nil (hletter : letter ∈ argumentLetters) :
    atLetter out [] places letter rest = .error (.missingArgument letter) := by
  rw [atLetter.eq_def, if_neg (ne_percent hletter), if_pos hletter]

theorem atLetter_accepted (hletter : letter ∈ argumentLetters) (hv : Accepts letter v) :
    atLetter out (v :: args) places letter rest = formatFrom (out ++ shown letter places v) args rest := by
  rw [atLetter.eq_def, if_neg (ne_percent hletter), if_pos hletter]
  simp only [render_of_accepts places hv]

theorem atLetter_refused (hletter : letter ∈ argumentLetters) (hv : ¬ Accepts letter v) :
    atLetter out (v :: args) places letter rest = .error (.wrongType letter (wanted letter) v.tag) := by
  rw [atLetter.eq_def, if_neg (ne_percent hletter), if_pos hletter]
  simp only [render_of_not_accepts places hletter hv]

theorem formatFrom_percent : formatFrom out args ('%' :: cs) =
    match precision cs with
    | .error e => .error e
    | .ok (_, []) => .error .dangling
    | .ok (places, letter :: rest) => atLetter out args places letter rest := by
  simp only [atLetter, ← takesArgument_iff]
  rw [formatFrom, if_pos rfl]
  split
  next hp => exact hp ▸ rfl
  next hp => exact hp ▸ rfl
  next hp => exact hp ▸ rfl

theorem endsPrecision_of_letter (h : letter = '%' ∨ letter ∈ argumentLetters) :
    EndsPrecision digits (letter :: rest) := by
  obtain ⟨hpoint, hdigit⟩ : letter ≠ '.' ∧ letter.isDigit = false := by
    simp only [argumentLetters, List.mem_cons, List.not_mem_nil, or_false] at h
    rcases h with rfl | rfl | rfl | rfl | rfl | rfl | rfl <;> exact ⟨by decide, rfl⟩
  cases digits with
  | none => simpa [EndsPrecision] using hpoint
  | some ds => simpa [EndsPrecision, Ends] using hdigit

theorem formatFrom_text (hdigits : Precise digits) (hend : EndsPrecision digits (letter :: rest)) :
    formatFrom out args ((Item.directive digits letter).text ++ rest) =
      atLetter out args (digits.map number) letter rest := by
  rw [Item.text, List.cons_append, List.append_assoc, List.singleton_append, formatFrom_percent,
    precision_eq_ok hdigits hend]

theorem formatFrom_offence (h : Offence rest left e) : formatFrom out left rest = .error e := by
  cases h with
  | unused h => rw [formatFrom, if_neg (by simpa using h)]
  | noDigits left hds hend h => rw [formatFrom_percent, precision_eq_error hds hend h]
  | @dangling digits left hdigits =>
    have hend : EndsPrecision digits [] := by cases digits <;> simp [EndsPrecision, Ends]
    have hp := precision_eq_ok hdigits hend
    rw [List.append_nil] at hp
    rw [formatFrom_percent, hp]
  | unknownDirective left hdigits hend hpercent hletter =>
    rw [formatFrom_text hdigits hend, atLetter_unknown hpercent hletter]
  | missingArgument rest hdigits hletter =>
    rw [formatFrom_text hdigits (endsPrecision_of_letter (.inr hletter)), atLetter_nil hletter]
  | wrongType rest left hdigits hletter hv =>
    rw [formatFrom_text hdigits (endsPrecision_of_letter (.inr hletter)), atLetter_refused hletter hv]

/-! ### Items with their arguments -/

variable {i : Item} {items : List Item} {used : List Value}

theorem fits_nil : Fits [] [] := ⟨List.forall_mem_nil _, .nil⟩

theorem fits_plain (hi : i.Legal) (hasks : i.asks? = none) : Fits [i] [] :=
  ⟨List.forall_mem_singleton.2 hi, by simp [hasks]⟩

theorem fits_asks (hi : i.Legal) (hasks : i.asks? = some (letter, places)) (hv : Accepts letter v) :
    Fits [i] [v] :=
  ⟨List.forall_mem_singleton.2 hi, by simpa [hasks] using hv⟩

theorem Fits.cons (hi : Fits [i] used) (h : Fits items args) : Fits (i :: items) (used ++ args) where
  legal := List.forall_mem_cons.2 ⟨hi.legal i List.mem_cons_self, h.legal⟩
  accepted := by
    rw [← List.singleton_append, List.filterMap_append]
    exact List.rel_append hi.accepted h.accepted

/-- An item alone takes no argument, or one that its letter accepts. -/
theorem Fits.single (h : Fits [i] used) : i.asks? = none ∧ used = [] ∨
    ∃ letter places v, i.asks? = some (letter, places) ∧ used = [v] ∧ Accepts letter v := by
  have haccepted := h.accepted
  cases hasks : i.asks? with
  | none =>
    rw [List.filterMap_cons_none hasks, List.filterMap_nil] at haccepted
    cases haccepted
    exact .inl ⟨rfl, rfl⟩
  | some ask =>
    rw [List.filterMap_cons_some hasks, List.filterMap_nil] at haccepted
    cases haccepted with
    | cons hv hnil =>
      cases hnil
      exact .inr ⟨ask.1, ask.2, _, rfl, rfl, hv⟩

theorem Fits.uncons (h : Fits (i :: items) args) :
    ∃ used left, args = used ++ left ∧ Fits [i] used ∧ Fits items left := by
  obtain ⟨hi, hitems⟩ := List.forall_mem_cons.1 h.legal
  have haccepted := h.accepted
  cases hasks : i.asks? with
  | none =>
    rw [List.filterMap_cons_none hasks] at haccepted
    exact ⟨[], args, rfl, fits_plain hi hasks, hitems, haccepted⟩
  | some ask =>
    rw [List.filterMap_cons_some hasks] at haccepted
    cases haccepted with
    | @cons _ v _ left hv hleft => exact ⟨[v], left, rfl, fits_asks hi hasks hv, hitems, hleft⟩

theorem fill_plain (hasks : i.asks? = none) : fill [i] [] = i.char.toString := by
  simp [fill, hasks]

theorem fill_asks (hasks : i.asks? = some (letter, places)) (v : Value) :
    fill [i] [v] = shown letter places v := by
  simp [fill, hasks]

theorem fill_cons (h : Fits [i] used) (items : List Item) (args : List Value) :
    fill (i :: items) (used ++ args) = fill [i] used ++ fill items args := by
  obtain ⟨hasks, rfl⟩ | ⟨letter, places, v, hasks, rfl, -⟩ := h.single
  · simp [fill, hasks]
  · simp [fill, hasks]

/-! ### Runs -/

/-- One item is read with its argument, if it takes one. -/
theorem formatFrom_item (h : Fits [i] used) :
    formatFrom out (used ++ left) (i.text ++ rest) = formatFrom (out ++ fill [i] used) left rest := by
  have hi := h.legal i List.mem_cons_self
  have hsingle := h.single
  cases i with
  | literal c =>
    obtain ⟨hasks, rfl⟩ | ⟨letter, places, v, hasks, -⟩ := hsingle
    · rw [fill_plain hasks, Item.text, List.singleton_append, formatFrom_literal hi, ← String.append_singleton]
      rfl
    · cases hasks
  | directive digits letter =>
    rw [formatFrom_text hi.1 (endsPrecision_of_letter hi.2)]
    by_cases hpercent : letter = '%'
    · subst hpercent
      have hasks : (Item.directive digits '%').asks? = none := rfl
      obtain ⟨-, rfl⟩ | ⟨_, _, _, hasks', -⟩ := hsingle
      · rw [atLetter_percent, fill_plain hasks, ← String.append_singleton]
        rfl
      · cases hasks.symm.trans hasks'
    · have hasks : (Item.directive digits letter).asks? = some (letter, digits.map number) := if_neg hpercent
      obtain ⟨hasks', -⟩ | ⟨_, _, v, hasks', rfl, hv⟩ := hsingle
      · cases hasks.symm.trans hasks'
      · cases hasks.symm.trans hasks'
        rw [List.singleton_append, atLetter_accepted (hi.2.resolve_left hpercent) hv, fill_asks hasks]

/-- Items are read one after another, each with its argument. -/
theorem formatFrom_items (h : Fits items used) :
    formatFrom out (used ++ left) (items.flatMap Item.text ++ rest) =
      formatFrom (out ++ fill items used) left rest := by
  induction items generalizing out used with
  | nil =>
    cases h.accepted
    simp [fill]
  | cons i items ih =>
    obtain ⟨first, others, rfl, hi, hitems⟩ := h.uncons
    rw [List.flatMap_cons, List.append_assoc, List.append_assoc, formatFrom_item hi, ih hitems, fill_cons hi,
      String.append_assoc]

/-! ### Every format has a reading -/

theorem directive_cases (hdigits : Precise digits) (hend : EndsPrecision digits rest) (args : List Value) :
    (∃ e, Offence ('%' :: (precisionText digits ++ rest)) args e) ∨
      ∃ i rest' used left, '%' :: (precisionText digits ++ rest) = i.text ++ rest' ∧ args = used ++ left ∧
        Fits [i] used := by
  rcases rest with _ | ⟨letter, rest⟩
  · rw [List.append_nil]
    exact .inl ⟨_, .dangling args hdigits⟩
  have htext : '%' :: (precisionText digits ++ letter :: rest) = (Item.directive digits letter).text ++ rest := by
    simp [Item.text]
  rw [htext]
  by_cases hpercent : letter = '%'
  · exact .inr ⟨_, rest, [], args, rfl, rfl, fits_plain ⟨hdigits, .inl hpercent⟩ (if_pos hpercent)⟩
  by_cases hletter : letter ∈ argumentLetters
  · have hlegal : (Item.directive digits letter).Legal := ⟨hdigits, .inr hletter⟩
    rcases args with _ | ⟨v, args⟩
    · exact .inl ⟨_, .missingArgument rest hdigits hletter⟩
    by_cases hv : Accepts letter v
    · exact .inr ⟨_, rest, [v], args, rfl, rfl, fits_asks hlegal (if_neg hpercent) hv⟩
    · exact .inl ⟨_, .wrongType rest args hdigits hletter hv⟩
  · exact .inl ⟨_, .unknownDirective args hdigits hend hpercent hletter⟩

/-- A format is at its end and all arguments are used, or begins with an offence or an item. -/
theorem head_cases (cs : List Char) (args : List Value) :
    (cs = [] ∧ args = []) ∨ (∃ e, Offence cs args e) ∨
      ∃ i rest used left, cs = i.text ++ rest ∧ args = used ++ left ∧ Fits [i] used := by
  rcases cs with _ | ⟨c, cs⟩
  · rcases args with _ | ⟨v, args⟩
    · exact .inl ⟨rfl, rfl⟩
    · exact .inr (.inl ⟨_, .unused (List.cons_ne_nil v args)⟩)
  by_cases hc : c = '%'
  · subst hc
    obtain ⟨digits, rest, rfl, hdigits, hend⟩ | ⟨ds, rest, rfl, hds, hend, h⟩ := precision_cases cs
    · exact .inr (directive_cases hdigits hend args)
    · exact .inr (.inl ⟨_, .noDigits args hds hend h⟩)
  · exact .inr (.inr ⟨.literal c, cs, [], args, rfl, rfl, fits_plain hc rfl⟩)

/-- The format is these items, and the arguments are what they ask for. -/
def Reads (cs : List Char) (args : List Value) (items : List Item) : Prop :=
  cs = items.flatMap Item.text ∧ Fits items args

/-- The format is read up to a place where the error is due. -/
def Fails (cs : List Char) (args : List Value) (e : Error) : Prop :=
  ∃ items rest used left, cs = items.flatMap Item.text ++ rest ∧ args = used ++ left ∧ Fits items used ∧
    Offence rest left e

theorem reads_or_fails (cs : List Char) (args : List Value) :
    (∃ items, Reads cs args items) ∨ ∃ e, Fails cs args e := by
  induction hn : cs.length using Nat.strong_induction_on generalizing cs args with
  | _ n ih =>
    obtain ⟨rfl, rfl⟩ | ⟨e, he⟩ | ⟨i, rest, used, left, rfl, rfl, hi⟩ := head_cases cs args
    · exact .inl ⟨[], rfl, fits_nil⟩
    · exact .inr ⟨e, [], cs, [], args, rfl, rfl, fits_nil, he⟩
    have hshorter : rest.length < n := by
      have hpos : 0 < i.text.length := by cases i <;> simp [Item.text]
      simp only [List.length_append] at hn
      omega
    obtain ⟨items, rfl, hitems⟩ | ⟨e, items, rest', used', left', rfl, rfl, hitems, he⟩ :=
      ih _ hshorter rest left rfl
    · exact .inl ⟨i :: items, rfl, hi.cons hitems⟩
    · exact .inr ⟨e, i :: items, rest', used ++ used', left', (List.append_assoc ..).symm,
        (List.append_assoc ..).symm, hi.cons hitems, he⟩

theorem formatFrom_of_reads (h : Reads cs args items) : formatFrom out args cs = .ok (out ++ fill items args) := by
  obtain ⟨rfl, hitems⟩ := h
  have hrun : formatFrom out (args ++ []) (items.flatMap Item.text ++ []) =
      formatFrom (out ++ fill items args) [] [] := formatFrom_items hitems
  rw [List.append_nil, List.append_nil] at hrun
  rw [hrun, formatFrom]
  rfl

theorem formatFrom_of_fails (h : Fails cs args e) : formatFrom out args cs = .error e := by
  obtain ⟨items, rest, used, left, rfl, rfl, hitems, he⟩ := h
  rw [formatFrom_items hitems, formatFrom_offence he]

theorem formatFrom_eq_ok_iff {t : String} :
    formatFrom out args cs = .ok t ↔ ∃ items, Reads cs args items ∧ t = out ++ fill items args := by
  constructor
  · intro h
    obtain ⟨items, hread⟩ | ⟨e, hfail⟩ := reads_or_fails cs args
    · exact ⟨items, hread, Except.ok.inj (h.symm.trans (formatFrom_of_reads hread))⟩
    · cases h.symm.trans (formatFrom_of_fails hfail)
  · rintro ⟨items, hread, rfl⟩
    exact formatFrom_of_reads hread

theorem formatFrom_eq_error_iff : formatFrom out args cs = .error e ↔ Fails cs args e := by
  refine ⟨fun h => ?_, formatFrom_of_fails⟩
  obtain ⟨items, hread⟩ | ⟨e', hfail⟩ := reads_or_fails cs args
  · cases h.symm.trans (formatFrom_of_reads hread)
  · cases h.symm.trans (formatFrom_of_fails hfail)
    exact hfail

end Printf

/-! ### Printing -/

/-- What a call prints is what its function prints, whatever the tracer does. -/
theorem Host.out_call {name : String} {f : List Value → World → Except HostError Value × World}
    (hf : function? name = some f) (args : List Value) (w : World) :
    (call name args w).2.out = (f args w).2.out := by
  unfold call
  rw [hf]
  dsimp only
  obtain ⟨result, out, tracer, files⟩ := f args w
  cases tracer with
  | none => rfl
  | some tracer =>
    dsimp only
    split <;> rfl

/-- A format is read from left to right as characters and directives, a precision being a number of 64 bits.
It gives a text just if all of it is of this form, and the arguments are one for each directive but `%%`,
of the kind that the directive accepts; the text then is that of the items, one after another. Otherwise
the error is that of the first place where this fails, and nothing is printed. -/
theorem Printf.format_iff_reading (fmt : String) (args : List Value) :
    (∀ t, format fmt args = .ok t ↔ ∃ items, Reads fmt.toList args items ∧ t = fill items args) ∧
      (∀ e, format fmt args = .error e ↔ Fails fmt.toList args e) ∧
      ∀ e, Fails fmt.toList args e → ∀ w, Host.printf (.str fmt :: args) w = (.error (.format e), w) ∧
        (Host.call "printf" (.str fmt :: args) w).2.out = w.out := by
  refine ⟨fun t => ?_, fun e => formatFrom_eq_error_iff, fun e hfail w => ?_⟩
  · rw [format, formatFrom_eq_ok_iff]
    simp only [String.empty_append]
  · have herror : format fmt args = .error e := formatFrom_of_fails hfail
    have hprintf : Host.printf (.str fmt :: args) w = (.error (.format e), w) := by
      rw [Host.printf, herror]
    exact ⟨hprintf, by rw [Host.out_call rfl, hprintf]⟩

namespace Printf

/-- `%d%% %v` -/
def percentItems : List Item := [.directive none 'd', .directive none '%', .literal ' ', .directive none 'v']

/-- `%.2s ` -/
def cutItems : List Item := [.directive (some ['2']) 's', .literal ' ']

theorem format_iff_reading_percent :
    format "%d%% %v" [.int 80, .char 'z'] = .ok "80% z" ∧
      Host.printf [.str "%.2s %d", .str "hi"] {} = (.error (.format (.missingArgument 'd')), {}) := by
  have hpercent : Fits percentItems [.int 80, .char 'z'] :=
    ⟨by simp [percentItems, Item.Legal, Precise, argumentLetters], .cons ⟨80, rfl⟩ (.cons trivial .nil)⟩
  have hcut : Fits cutItems [.str "hi"] := by
    refine ⟨?_, .cons trivial .nil⟩
    simp [cutItems, Item.Legal, Precise, argumentLetters, number, maxPlaces]
  have hread : Reads "%d%% %v".toList [.int 80, .char 'z'] percentItems := ⟨by rfl, hpercent⟩
  have hfail : Fails "%.2s %d".toList [.str "hi"] (.missingArgument 'd') :=
    ⟨cutItems, ['%', 'd'], [.str "hi"], [], by rfl, rfl, hcut,
      @Offence.missingArgument none 'd' [] (by simp [Precise]) (by decide)⟩
  exact ⟨((format_iff_reading _ _).1 _).2 ⟨_, hread, rfl⟩,
    ((format_iff_reading _ _).2.2 _ hfail {}).1⟩

end Printf

end Sluice
