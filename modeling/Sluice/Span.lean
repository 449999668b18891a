/-! Positions in a source text and the byte ranges that tokens and tree nodes cover. -/
namespace Sluice

/-- A byte range of the source, with the line and column (from 1) of its first byte. The program keeps
these numbers in 32 bits, which is enough: sources are shorter than `2 ^ 32` bytes. -/
structure Span where
  start : Nat
  stop : Nat
  line : Nat
  col : Nat
deriving DecidableEq, Repr, Inhabited

namespace Span

/-- From the start of `a` to the end of whichever of the two reaches further. -/
def through (a b : Span) : Span :=
  { a with stop := max b.stop a.stop }

/-- The place `line:col`, as diagnostics print it. -/
def place (s : Span) : String := s!"{s.line}:{s.col}"

@[simp] theorem start_through (a b : Span) : (a.through b).start = a.start := rfl
@[simp] theorem line_through (a b : Span) : (a.through b).line = a.line := rfl
@[simp] theorem col_through (a b : Span) : (a.through b).col = a.col := rfl

theorem stop_le_through_right (a b : Span) : b.stop ≤ (a.through b).stop := Nat.le_max_left ..

end Span

/-- A point between two characters: bytes before it, its line and its column.
Columns count characters, so a character of several bytes advances the column by one. -/
structure Position where
  offset : Nat
  line : Nat
  col : Nat
deriving DecidableEq, Repr, Inhabited

namespace Position

def zero : Position := ⟨0, 1, 1⟩

def advance (p : Position) (c : Char) : Position :=
  if c = '\n' then ⟨p.offset + c.utf8Size, p.line + 1, 1⟩
  else ⟨p.offset + c.utf8Size, p.line, p.col + 1⟩

def after (p : Position) (text : List Char) : Position := text.foldl advance p

/-- The bytes from `p` up to `q`, as they are when the source is shorter than `2 ^ 32` bytes. -/
def spanTo (p q : Position) : Span := ⟨p.offset, q.offset, p.line, p.col⟩

@[simp] theorem after_nil (p : Position) : p.after [] = p := rfl

@[simp] theorem after_cons (p : Position) (c : Char) (cs : List Char) :
    p.after (c :: cs) = (p.advance c).after cs := rfl

theorem after_append (p : Position) (as bs : List Char) :
    p.after (as ++ bs) = (p.after as).after bs := List.foldl_append

theorem offset_advance (p : Position) (c : Char) :
    (p.advance c).offset = p.offset + c.utf8Size := by
  unfold advance; split <;> rfl

end Position

end Sluice
