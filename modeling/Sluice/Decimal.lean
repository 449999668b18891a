import Sluice.Binary64

/-! Decimal digits of doubles: the fewest that read back as the same number, and a fixed count
of places. All arithmetic is exact, on natural numbers. -/
namespace Sluice

/-- The decimal `coeff * 10 ^ exp`. -/
structure Decimal where
  coeff : Nat
  exp : Int
deriving DecidableEq, Repr

namespace Decimal

/-- How many decimal digits `n` has; zero has one. -/
def width (n : Nat) : Nat := (Nat.toDigits 10 n).length

def digits (n : Nat) : String := String.ofList (Nat.toDigits 10 n)

def tenPow (n : Nat) : Nat := Nat.pow 10 n

/-- `num / den` scaled by `10 ^ k`. -/
def scale (num den : Nat) (k : Int) : Nat × Nat :=
  (num * tenPow k.toNat, den * tenPow (-k).toNat)

/-- The exponent `e` with `10 ^ (e - 1) ≤ num / den < 10 ^ e`, for a positive fraction. -/
def magnitude (num den : Nat) : Int :=
  if den ≤ num then width (num / den)
  else
    let w := width (den / num)
    if den ≤ num * tenPow (w - 1) then 2 - (w : Int) else 1 - (w : Int)

/-- The numbers that round to one double: between the fractions `lo / den` and `hi / den`, the
ends belonging to it when `closed`. The double itself is `mid / den`. -/
structure Interval where
  lo : Nat
  mid : Nat
  hi : Nat
  den : Nat
  closed : Bool
deriving DecidableEq, Repr

/-- The interval of `m * 2 ^ q`. Below a power of two the next double is only half as far. -/
def Interval.ofMantissa (m : Nat) (q : Int) : Interval :=
  let (s, d) := Binary64.fraction 1 (q - 2)
  let below := if m = Binary64.hiddenBit ∧ -1074 < q then 1 else 2
  ⟨(4 * m - below) * s, 4 * m * s, (4 * m + 2) * s, d, m % 2 = 0⟩

def Interval.contains (i : Interval) (c : Nat) (k : Int) : Bool :=
  let x := c * tenPow k.toNat * i.den
  let u := tenPow (-k).toNat
  if i.closed then i.lo * u ≤ x && x ≤ i.hi * u else i.lo * u < x && x < i.hi * u

/-- Which of two equally near decimals is taken. -/
inductive Tie where
  /-- The larger one. -/
  | up
  /-- The one whose last digit is even. -/
  | even
deriving DecidableEq, Repr

/-- The multiple `c` or `c + 1` that is nearest to `c + rem / den`. -/
def Tie.nearest (tie : Tie) (c rem den : Nat) : Nat :=
  if 2 * rem < den then c
  else if 2 * rem = den ∧ tie = .even ∧ c % 2 = 0 then c
  else c + 1

/-- The multiple of `10 ^ k` in the interval that is nearest to its double, looking only at
the two around it. -/
def Interval.onGrid (i : Interval) (tie : Tie) (k : Int) : Option Nat :=
  let (num, den) := scale i.mid i.den (-k)
  let c := num / den
  match i.contains c k, i.contains (c + 1) k with
  | true, true => some (tie.nearest c (num % den) den)
  | true, false => some c
  | false, true => some (c + 1)
  | false, false => none

/-- Drop trailing zeros of the coefficient, at most `fuel` of them. -/
def trim : Nat → Decimal → Decimal
  | 0, d => d
  | fuel + 1, d => if d.coeff ≠ 0 ∧ d.coeff % 10 = 0 then trim fuel ⟨d.coeff / 10, d.exp + 1⟩ else d

/-- Search the grids of `n`, `n + 1`, … digits, `fuel` of them. -/
def search (i : Interval) (tie : Tie) (top : Int) : (fuel n : Nat) → Decimal
  | 0, n => ⟨(i.mid * tenPow n) / i.den, -(n : Int)⟩
  | fuel + 1, n =>
    match i.onGrid tie (top - n) with
    | some c => trim 20 ⟨c, top - n⟩
    | none => search i tie top fuel (n + 1)

/-- The shortest decimal that rounds to `m * 2 ^ q`, and the nearest to it of that length. -/
def shortest (tie : Tie) (m : Nat) (q : Int) : Decimal :=
  if m = 0 then ⟨0, 0⟩ else
  let i := Interval.ofMantissa m q
  search i tie (magnitude i.mid i.den) 17 1

/-- Where the point stands: `d` is `0.DIGITS * 10 ^ point`. -/
def point (d : Decimal) : Int := d.exp + width d.coeff

/-- How a format lays the shortest digits of a number out. -/
structure Layout where
  /-- Which positions of the point are written without an exponent. -/
  positional : Int → Bool
  /-- Whether a whole number keeps `.0`. -/
  keepsPoint : Bool
  /-- Whether an exponent that is not negative has a sign. -/
  signsExponent : Bool
  tie : Tie
  nan : String
  infinity : String

/-- Digits with a point, no exponent. -/
def positional (d : Decimal) (keepsPoint : Bool) : String :=
  let ds := (digits d.coeff).toList
  let p := d.point
  if p ≤ 0 then "0." ++ String.ofList (List.replicate (-p).toNat '0' ++ ds)
  else if 0 ≤ d.exp then
    String.ofList (ds ++ List.replicate d.exp.toNat '0') ++ (if keepsPoint then ".0" else "")
  else String.ofList (ds.take p.toNat) ++ "." ++ String.ofList (ds.drop p.toNat)

/-- One digit before the point, then the exponent: `1.5e-5`, `1e16` or `1e+16`. -/
def scientific (d : Decimal) (signsExponent : Bool) : String :=
  let ds := (digits d.coeff).toList
  let tail := match ds.drop 1 with
    | [] => ""
    | r => "." ++ String.ofList r
  let e := d.point - 1
  String.ofList (ds.take 1) ++ tail ++ (if signsExponent && 0 ≤ e then "e+" else "e") ++ toString e

/-- The text of a double in a layout. -/
def Layout.write (l : Layout) (x : Float) : String :=
  let sign := if Binary64.isNegative x then "-" else ""
  match Binary64.magnitude x with
  | .nan => l.nan
  | .infinite => sign ++ l.infinity
  | .finite 0 _ => sign ++ (if l.keepsPoint then "0.0" else "0")
  | .finite m q =>
    let d := shortest l.tie m q
    sign ++
      if l.positional d.point then d.positional l.keepsPoint else d.scientific l.signsExponent

/-- Numbers in programs and values: positional from `1e-4` up to `1e16`, whole ones with `.0`. -/
def Layout.program : Layout := ⟨fun p => -4 < p && p ≤ 16, true, false, .up, "NaN", "inf"⟩

/-- Numbers in JSON: positional from `1e-5` up to `1e16`, and `1e+16` from there on. -/
def Layout.json : Layout := ⟨fun p => -5 < p && p ≤ 16, true, true, .even, "null", "null"⟩

/-- Numbers in diagnostics: never an exponent, and whole ones without `.0`. -/
def Layout.plain : Layout := ⟨fun _ => true, false, false, .up, "NaN", "inf"⟩

/-- The text of a double with `places` digits after the point, the exact value rounded half to
even. -/
def fixed (places : Nat) (x : Float) : String :=
  let sign := if Binary64.isNegative x then "-" else ""
  match Binary64.magnitude x with
  | .nan => "NaN"
  | .infinite => sign ++ "inf"
  | .finite m q =>
    let (num, den) := Binary64.fraction m q
    let ds := (digits (Binary64.roundHalfEven (num * tenPow places) den)).toList
    let ds := List.replicate (places + 1 - ds.length) '0' ++ ds
    let whole := String.ofList (ds.take (ds.length - places))
    if places = 0 then sign ++ whole
    else sign ++ whole ++ "." ++ String.ofList (ds.drop (ds.length - places))

/-- The double nearest to the decimal with the given digits before and after the point. -/
def read (whole frac : List Char) : Float :=
  let value := (whole ++ frac).foldl (fun n c => 10 * n + (c.toNat - '0'.toNat)) 0
  Binary64.ofFraction value (tenPow frac.length)

end Decimal

end Sluice
