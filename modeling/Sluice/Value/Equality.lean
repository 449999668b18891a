import Sluice.Value

/-! Equality and order of values. Sets and maps are compared without regard to order: equal
size, and each part of the left one has an equal in the right one. -/
namespace Sluice.Value

mutual

def beq (a b : Value) : Bool :=
  match a, b with
  | int m, int n => m == n
  | float x, float y => x == y
  | int n, float x => n.toFloat == x
  | float x, int n => n.toFloat == x
  | char c, char d => c == d
  | str s, str t => s == t
  | bool p, bool q => p == q
  | list xs, list ys => beqAll xs ys
  | tuple xs, tuple ys => beqAll xs ys
  | set xs, set ys => xs.length == ys.length && subset xs ys
  | map xs, map ys => xs.length == ys.length && submap xs ys
  | just x, just y => beq x y
  | nothing, nothing => true
  | unit, unit => true
  | struct m xs, struct n ys => m == n && beqFields xs ys
  | variant e m p, variant f n q =>
    e == f && m == n && match p, q with
      | none, none => true
      | some x, some y => beq x y
      | _, _ => false
  | fn c, fn d => c.id == d.id
  | constructor c, constructor d => c == d
  | builtin c, builtin d => c == d
  | host m, host n => m == n
  | method m, method n => m == n
  | module m, module n => m == n
  | _, _ => false
termination_by sizeOf a + sizeOf b

def beqAll (xs ys : List Value) : Bool :=
  match xs, ys with
  | [], [] => true
  | x :: xs, y :: ys => beq x y && beqAll xs ys
  | _, _ => false
termination_by sizeOf xs + sizeOf ys

def beqFields (xs ys : List (String × Value)) : Bool :=
  match xs, ys with
  | [], [] => true
  | (m, x) :: xs, (n, y) :: ys => m == n && beq x y && beqFields xs ys
  | _, _ => false
termination_by sizeOf xs + sizeOf ys

/-- Each of `xs` has an equal in `ys`. -/
def subset (xs ys : List Value) : Bool :=
  match xs with
  | [] => true
  | x :: xs => mem ys x && subset xs ys
termination_by sizeOf xs + sizeOf ys

def mem (ys : List Value) (x : Value) : Bool :=
  match ys with
  | [] => false
  | y :: ys => beq y x || mem ys x
termination_by sizeOf ys + sizeOf x

/-- For each entry of `xs`, the first entry of `ys` with an equal key has an equal value. -/
def submap (xs ys : List (Value × Value)) : Bool :=
  match xs with
  | [] => true
  | (k, v) :: xs => maps ys k v && submap xs ys
termination_by sizeOf xs + sizeOf ys

/-- The first of `ys` with a key equal to `k` has a value equal to `v`. -/
def maps (ys : List (Value × Value)) (k v : Value) : Bool :=
  match ys with
  | [] => false
  | (k', v') :: ys => if beq k' k then beq v' v else maps ys k v
termination_by sizeOf ys + sizeOf k + sizeOf v

end

instance : BEq Value := ⟨beq⟩

/-- Add an element at the end, unless an equal one is there. -/
def insertElem (elems : List Value) (v : Value) : List Value :=
  if mem elems v then elems else elems ++ [v]

/-- The set of the given elements: of equal ones the first stays. -/
def setOf (items : List Value) : Value := set (items.foldl insertElem [])

/-- The value of the first entry with a key equal to `key`. -/
def valueAt? (entries : List (Value × Value)) (key : Value) : Option Value :=
  match entries with
  | [] => none
  | (k, v) :: r => if beq k key then some v else valueAt? r key

/-- Give the first entry with an equal key the value, or add an entry at the end. -/
def putEntry (entries : List (Value × Value)) (key value : Value) : List (Value × Value) :=
  match entries with
  | [] => [(key, value)]
  | (k, v) :: r => if beq k key then (k, value) :: r else (k, v) :: putEntry r key value

/-- The order of two doubles; none if one of them is not a number. -/
def compareFloats (x y : Float) : Option Ordering :=
  if x < y then some .lt else if x == y then some .eq else if y < x then some .gt else none

/-- Numbers, strings and characters can be compared, each with its own kind. -/
def compare? : Value → Value → Option Ordering
  | int m, int n => some (if m < n then .lt else if m = n then .eq else .gt)
  | int n, float y => compareFloats n.toFloat y
  | float x, int n => compareFloats x n.toFloat
  | float x, float y => compareFloats x y
  | str s, str t => some (compare s t)
  | char c, char d => some (compare c d)
  | _, _ => none

end Sluice.Value
