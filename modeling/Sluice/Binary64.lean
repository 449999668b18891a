/-! Double-precision numbers as exact dyadic rationals: taking one apart, rounding a fraction
to the nearest one, and the exact remainder of a division. -/
namespace Sluice.Binary64

/-- What a double stands for, its sign aside: `finite m q` is `m * 2 ^ q`. -/
inductive Magnitude where
  | nan
  | infinite
  | finite (m : Nat) (q : Int)
deriving DecidableEq, Repr

/-- The bit of the sign: `2 ^ 63`. -/
def signBit : Nat := 0x8000000000000000

/-- The first bit of a mantissa, which the encoding leaves out: `2 ^ 52`. -/
def hiddenBit : Nat := 0x10000000000000

/-- Whether the sign bit is set, also of a zero. -/
def isNegative (x : Float) : Bool := signBit ≤ x.toBits.toNat

def magnitude (x : Float) : Magnitude :=
  let bits := x.toBits.toNat % signBit
  let biased : Nat := bits / hiddenBit
  let low := bits % hiddenBit
  if biased = 2047 then if low = 0 then .infinite else .nan
  else if biased = 0 then .finite low (-1074)
  else .finite (hiddenBit + low) ((biased : Int) - 1075)

def roundHalfEven (num den : Nat) : Nat :=
  let q := num / den
  let r := num % den
  if 2 * r < den then q
  else if den < 2 * r then q + 1
  else if q % 2 = 0 then q else q + 1

def fraction (m : Nat) (q : Int) : Nat × Nat :=
  (m <<< q.toNat, 1 <<< (-q).toNat)

/-- The exponent of the last place of the double nearest to the positive fraction `num / den`. -/
def lastPlace (num den : Nat) : Int :=
  let e : Int := (num.log2 : Int) - den.log2 - 52
  let (a, b) := fraction num (-e)
  max (-1074) (if a < hiddenBit * (b * den) then e - 1 else e)

/-- The bits of the nonnegative double nearest to `num / den`, ties to the even one; fractions
beyond the largest double give infinity. -/
def nearestBits (num den : Nat) : Nat :=
  if num = 0 then 0 else
  let e := lastPlace num den
  let (a, b) := fraction num (-e)
  let m := roundHalfEven a (b * den)
  -- a mantissa that rounds up to 2 ^ 53 carries into the exponent field by itself
  let bits := if m < hiddenBit then m else (e + 1074).toNat * hiddenBit + m
  min bits (2047 * hiddenBit)

def withSign (negative : Bool) (bits : Nat) : Float :=
  Float.ofBits (UInt64.ofNat (if negative then signBit + bits else bits))

def ofFraction (num den : Nat) : Float := withSign false (nearestBits num den)

def nan : Float := 0.0 / 0.0

/-- What is left of `x` after taking away a whole number of `y`s, rounded toward zero: exact,
with the sign of `x`. -/
def rem (x y : Float) : Float :=
  match magnitude x, magnitude y with
  | .finite m p, .finite n q =>
    if n = 0 then nan else
    let e := min p q
    let r := (m <<< (p - e).toNat) % (n <<< (q - e).toNat)
    let (a, b) := fraction r e
    withSign (isNegative x) (nearestBits a b)
  | .finite _ _, .infinite => x
  | _, _ => nan

end Sluice.Binary64
