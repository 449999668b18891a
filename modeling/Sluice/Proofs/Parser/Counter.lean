import Sluice.Parser.Module

/-! The nesting counter. The readers of the grammar are told how deep they are. Here they keep count of it
themselves: the counter is raised before a block or an expression is read and lowered afterwards, everything else
leaves it alone, and whoever has read something finds it where it was. -/
namespace Sluice.Parser

variable {α β : Type} {read : Nat → Except ParseError α} {ts : Tokens} {d d' : Nat} {a : α}

abbrev Counting (α : Type) : Type := StateT Nat (Except ParseError) α

/-- Go one level down, if that is allowed. -/
def enter (ts : Tokens) : Counting Unit := do
  modify (· + 1)
  if maxNesting < (← get) then fail s!"nesting depth at most {maxNesting}" ts

def leave : Counting Unit := modify (· - 1)

def inside (ts : Tokens) (read : Counting α) : Counting α := do
  enter ts
  let a ← read
  leave
  return a

/-- The reader that takes its depth from the counter. -/
def counting (read : Nat → Except ParseError α) : Counting α := fun d => (read d).map (·, d)

/-- What one reader leaves to the next is the counter at which it began. -/
theorem counting_bind (read : Nat → Except ParseError α) (next : Nat → α → Except ParseError β) :
    counting (fun d => read d >>= next d) = counting read >>= fun a => counting fun d => next d a := by
  funext d
  show (read d >>= next d).map (·, d) = (read d).map (·, d) >>= fun p => (next p.2 p.1).map (·, p.2)
  cases read d <;> rfl

@[simp] theorem counting_const (r : Except ParseError α) : counting (fun _ => r) = (r : Counting α) := by
  funext d
  cases r <;> rfl

theorem enter_eq (ts : Tokens) (d : Nat) : enter ts d =
    if maxNesting ≤ d then fail s!"nesting depth at most {maxNesting}" ts else .ok ((), d + 1) := by
  show (if maxNesting < d + 1 then (fail _ ts : Counting Unit) else pure ()) (d + 1) = _
  by_cases h : maxNesting ≤ d
  · rw [if_pos h, if_pos (Nat.lt_succ_of_le h)]
    rfl
  · rw [if_neg h, if_neg (by omega)]
    rfl

/-- Whoever has gone down and come up again finds the counter where it was. -/
theorem inside_counting (read : Nat → Except ParseError α) (ts : Tokens) (d : Nat) :
    inside ts (counting read) d = if maxNesting ≤ d then fail s!"nesting depth at most {maxNesting}" ts
      else (read (d + 1)).map (·, d) := by
  have hinside : inside ts (counting read) d =
      enter ts d >>= fun p => counting read p.2 >>= fun q => .ok (q.1, q.2 - 1) := rfl
  rw [hinside, enter_eq]
  split
  · rfl
  · show counting read (d + 1) >>= _ = _
    rw [counting]
    cases read (d + 1) <;> rfl

/-- A reader that refuses to go past the limit, and otherwise reads one level further down. -/
theorem counting_inside {outer : Nat → Except ParseError α} (read : Nat → Except ParseError α) (ts : Tokens)
    (h : ∀ d, outer d = if maxNesting ≤ d then fail s!"nesting depth at most {maxNesting}" ts
      else read (d + 1)) : counting outer = inside ts (counting read) := by
  funext d
  rw [inside_counting, counting, h]
  split <;> rfl

/-- The counter when something was read is the one before. -/
theorem counter_of_inside (h : inside ts (counting read) d = .ok (a, d')) :
    d' = d ∧ d < maxNesting ∧ read (d + 1) = .ok a := by
  rw [inside_counting] at h
  split at h
  · cases h
  · cases hread : read (d + 1) with
    | error e => simp [hread, Except.map] at h
    | ok b =>
      rw [hread] at h
      cases h
      exact ⟨rfl, by omega, rfl⟩

theorem counting_expr (power : Nat) (ts : Tokens) :
    counting (fun d => expr d power ts) = inside ts (do
      let ⟨first, ts₁, h₁⟩ ← counting fun d => operand d ts
      counting fun d => operators d power ts first ts₁ h₁) := by
  rw [counting_inside (fun d => do
    let ⟨first, ts₁, h₁⟩ ← operand d ts
    operators d power ts first ts₁ h₁) ts fun d => by rw [expr]]
  rw [counting_bind]

theorem counting_block (ts : Tokens) :
    counting (fun d => block d ts) = inside ts (do
      let ⟨start, ts₁, h₁⟩ ← (expect .lbrace "`\x7b`" ts : Counting (Parsed Span ts))
      let ⟨body, ts₂, h₂⟩ ← counting fun d => stmts d true ts [] ts₁ h₁
      let ⟨stop, ts₃, h₃⟩ ← (expect .rbrace "`\x7d`" ts₂ : Counting (Parsed Span ts₂))
      return ⟨⟨body, start.through stop⟩, ts₃, shorter_two h₂ h₃⟩) := by
  rw [counting_inside (fun d => do
    let ⟨start, ts₁, h₁⟩ ← expect .lbrace "`\x7b`" ts
    let ⟨body, ts₂, h₂⟩ ← stmts d true ts [] ts₁ h₁
    let ⟨stop, ts₃, h₃⟩ ← expect .rbrace "`\x7d`" ts₂
    return ⟨⟨body, start.through stop⟩, ts₃, shorter_two h₂ h₃⟩) ts fun d => by rw [block]]
  simp only [counting_bind, counting_const]
  rfl

end Sluice.Parser
