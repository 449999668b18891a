import Sluice.Value.Show

/-! Format strings: text with directives that are replaced by the arguments in turn. -/
namespace Sluice.Printf

inductive Error where
  | missingArgument (directive : Char)
  /-- An argument of type `got` where the directive takes only `expected`. -/
  | wrongType (directive : Char) (expected got : String)
  | unknownDirective (c : Char)
  /-- The format ends in `%`. -/
  | dangling
  /-- `%.` is followed by no number. -/
  | noDigits
  | unused (count : Nat)
deriving DecidableEq, Repr

def Error.message : Error → String
  | missingArgument d => s!"missing argument for `%{d}`"
  | wrongType d expected got => s!"`%{d}` expects {expected}, got {got}"
  | unknownDirective c => s!"unknown directive `%{c}`"
  | dangling => "dangling `%` at end of format"
  | noDigits => "expected digits after `%.`"
  | unused n => s!"{n} argument(s) not used by format"

/-- How many places `%f` shows by itself. -/
def defaultPlaces : Nat := 6

/-- The text of an argument under a directive. -/
def render (directive : Char) (places : Option Nat) (v : Value) : Except Error String :=
  match directive, v with
  | 'd', .int n | 'i', .int n => .ok (toString n.toInt)
  | 'd', v | 'i', v => .error (.wrongType directive "Int" v.tag)
  | 'f', .float x => .ok (Decimal.fixed (places.getD defaultPlaces) x)
  | 'f', .int n => .ok (Decimal.fixed (places.getD defaultPlaces) n.toFloat)
  | 'f', v => .error (.wrongType directive "Float" v.tag)
  | 'c', .char c => .ok c.toString
  | 'c', v => .error (.wrongType directive "Char" v.tag)
  | 's', v | 'v', v => .ok v.display
  | c, _ => .error (.unknownDirective c)

def takesArgument (c : Char) : Bool := c ∈ ['d', 'i', 'f', 'c', 's', 'v']

def maxPlaces : Nat := 0xffffffffffffffff

/-- A number of places, as it is written after `%.`; it has to fit 64 bits. -/
def places? (ds : List Char) : Option Nat :=
  let n := ds.foldl (fun n c => 10 * n + (c.toNat - '0'.toNat)) 0
  if ds.isEmpty || maxPlaces < n then none else some n

/-- The optional `.` and number of a directive, and what follows them. -/
def precision : List Char → Except Error (Option Nat × List Char)
  | '.' :: r =>
    match places? (r.takeWhile Char.isDigit) with
    | some n => .ok (some n, r.dropWhile Char.isDigit)
    | none => .error .noDigits
  | r => .ok (none, r)

theorem precision_rest_le {cs r : List Char} {p : Option Nat}
    (h : precision cs = .ok (p, r)) : r.length ≤ cs.length := by
  unfold precision at h
  split at h
  · rename_i r'
    split at h
    · simp only [Except.ok.injEq, Prod.mk.injEq] at h
      rw [← h.2]
      exact Nat.le_succ_of_le (List.dropWhile_sublist _).length_le
    · simp at h
  · simp only [Except.ok.injEq, Prod.mk.injEq] at h
    exact h.2 ▸ Nat.le_refl _

/-- The text of the format `cs` with the arguments `args`, after the text `out`. -/
def formatFrom (out : String) (args : List Value) (cs : List Char) : Except Error String :=
  match cs with
  | [] => if args.isEmpty then .ok out else .error (.unused args.length)
  | c :: r =>
    if c = '%' then
      match _h : precision r with
      | .error e => .error e
      | .ok (_, []) => .error .dangling
      | .ok (places, d :: r') =>
        if d = '%' then formatFrom (out.push '%') args r'
        else if takesArgument d then
          match args with
          | [] => .error (.missingArgument d)
          | v :: args =>
            match render d places v with
            | .error e => .error e
            | .ok t => formatFrom (out ++ t) args r'
        else .error (.unknownDirective d)
    else formatFrom (out.push c) args r
termination_by cs.length
decreasing_by
  all_goals
    first
    | (have hle := precision_rest_le _h; simp only [List.length_cons] at *; omega)
    | (simp only [List.length_cons]; omega)

def format (fmt : String) (args : List Value) : Except Error String :=
  formatFrom "" args fmt.toList

end Sluice.Printf
