import Sluice.Binary64
import Sluice.Fault
import Sluice.Value.Equality

/-! Operators on values. Integers wrap around at 64 bits; an operator on numbers that is not one
on two integers works on doubles. -/
namespace Sluice.Value

def unary (op : UnaryOp) (v : Value) (span : Span) : Except Fault Value :=
  match op, v with
  | .not, bool b | .bitNot, bool b => .ok (bool !b)
  | .bitNot, int n => .ok (int (~~~n))
  | .neg, int n => .ok (int (-n))
  | .neg, float x => .ok (float (-x))
  | op, v => .error (.unaryMismatch op v span)

def toFloat? : Value → Option Float
  | int n => some n.toFloat
  | float x => some x
  | _ => none

/-- `acc * base ^ e` for an `e` of at most `bits` bits. -/
def powLoop : (bits : Nat) → (acc base : Int64) → (e : Nat) → Int64
  | 0, acc, _, _ => acc
  | bits + 1, acc, base, e =>
    powLoop bits (if e % 2 = 1 then acc * base else acc) (base * base) (e / 2)

/-- The largest exponent of an integer power: `2 ^ 32 - 1`. -/
def maxExponent : Int := 0xffffffff

/-- `a ^ b` for `b ≥ 0`: an integer while the exponent has at most 32 bits. -/
def intPow (a b : Int64) : Value :=
  if b.toInt ≤ maxExponent then int (powLoop 32 1 a b.toInt.toNat)
  else float (a.toFloat ^ b.toFloat)

/-- `a` shifted left; all bits are gone after 64 places. -/
def shiftLeft (a : Int64) (n : Nat) : Int64 := if n < 64 then a <<< Int64.ofNat n else 0

/-- `a` shifted right, the sign moving in. -/
def shiftRight (a : Int64) (n : Nat) : Int64 :=
  if n < 64 then a >>> Int64.ofNat n else if a < 0 then -1 else 0

/-- The amount of a shift has to fit 32 bits without sign. -/
def shift (op : BinaryOp) (a b : Int64) (span : Span) : Except Fault Value :=
  if 0 ≤ b.toInt ∧ b.toInt ≤ maxExponent then
    .ok (int (if op = .shl then shiftLeft a b.toInt.toNat else shiftRight a b.toInt.toNat))
  else .error (.badShift b.toInt span)

/-- An operator on doubles. -/
def floatOp? (op : BinaryOp) (x y : Float) : Option Float :=
  match op with
  | .add => some (x + y)
  | .sub => some (x - y)
  | .mul => some (x * y)
  | .div => some (x / y)
  | .rem => some (Binary64.rem x y)
  | .pow => some (x ^ y)
  | _ => none

def floatArith (op : BinaryOp) (l r : Value) (span : Span) : Except Fault Value :=
  match l.toFloat?, r.toFloat? with
  | some x, some y =>
    match floatOp? op x y with
    | some z => .ok (float z)
    | none => .error (.binaryMismatch op l r span)
  | _, _ => .error (.binaryMismatch op l r span)

/-- The test that a comparison makes. -/
def relation? (op : BinaryOp) : Option (Ordering → Bool) :=
  match op with
  | .lt => some (· == .lt)
  | .le => some (· != .gt)
  | .gt => some (· == .gt)
  | .ge => some (· != .lt)
  | _ => none

def binary (op : BinaryOp) (l r : Value) (span : Span) : Except Fault Value :=
  match relation? op with
  | some test =>
    match compare? l r with
    | some o => .ok (bool (test o))
    | none => .error (.incomparable l r span)
  | none =>
    match op, l, r with
    | .eq, l, r => .ok (bool (beq l r))
    | .ne, l, r => .ok (bool (!beq l r))
    | .and, bool a, bool b | .bitAnd, bool a, bool b => .ok (bool (a && b))
    | .or, bool a, bool b | .bitOr, bool a, bool b => .ok (bool (a || b))
    | .bitXor, bool a, bool b => .ok (bool (a ^^ b))
    | .add, int a, int b => .ok (int (a + b))
    | .sub, int a, int b => .ok (int (a - b))
    | .mul, int a, int b => .ok (int (a * b))
    | .rem, int a, int b => if b = 0 then .error (.remainderByZero span) else .ok (int (a % b))
    | .pow, int a, int b =>
      if 0 ≤ b.toInt then .ok (intPow a b) else floatArith .pow (int a) (int b) span
    | .bitAnd, int a, int b => .ok (int (a &&& b))
    | .bitOr, int a, int b => .ok (int (a ||| b))
    | .bitXor, int a, int b => .ok (int (a ^^^ b))
    | .shl, int a, int b => shift .shl a b span
    | .shr, int a, int b => shift .shr a b span
    | .add, str a, str b => .ok (str (a ++ b))
    | .add, str a, char c => .ok (str (a.push c))
    | .add, char c, str b => .ok (str (c.toString ++ b))
    | .add, list a, list b => .ok (list (a ++ b))
    | op, l, r => floatArith op l r span

end Sluice.Value
