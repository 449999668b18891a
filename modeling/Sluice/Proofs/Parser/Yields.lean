import Sluice.Source

/-! What is known of everything that a parser reads, step by step. -/
namespace Sluice

namespace Parser

def Yields {α : Type} (P : α → Prop) (x : Except ParseError α) : Prop := ∀ a, x = .ok a → P a

section Yields

variable {α β : Type} {P : α → Prop} {R : β → Prop} {x : Except ParseError α}
  {f : α → Except ParseError β}

theorem yields_ok {a : α} (h : P a) : Yields P (.ok a) := by
  rintro _ ⟨⟩
  exact h

theorem yields_pure {a : α} (h : P a) : Yields P (pure a) := yields_ok h

theorem yields_error (e : ParseError) : Yields P (.error e) := nofun

theorem Yields.bind (hx : Yields P x) (hf : ∀ a, P a → Yields R (f a)) : Yields R (x >>= f) := by
  cases x with
  | ok a => exact hf a (hx a rfl)
  | error e => exact nofun

/-- What is read first is taken apart: its value, and the tokens that are left. -/
theorem Yields.step {whole : Tokens} {P : Parsed α whole → Prop} {x : Result α whole}
    {k : Parsed α whole → Except ParseError β} (hx : Yields P x)
    (hk : ∀ v r h, P ⟨v, r, h⟩ → Yields R (k ⟨v, r, h⟩)) : Yields R (x >>= k) := by
  refine hx.bind ?_
  rintro ⟨v, r, h⟩ hp
  exact hk v r h hp

theorem Yields.imp {P' : α → Prop} (hx : Yields P x) (h : ∀ a, P a → P' a) : Yields P' x :=
  fun a ha => h a (hx a ha)

theorem yields_any : Yields (fun _ => True) x := fun _ _ => trivial

end Yields

end Parser

/-- The module of a file is read from the tokens of its text. -/
theorem Module.exists_tokens_of_read {file src : String} {md : Module} (h : Module.read file src = .ok md) :
    ∃ ts, Token.scan src = .ok ts ∧ Parser.module (moduleName file) ts = .ok md := by
  rw [Module.read] at h
  cases hscan : Token.scan src with
  | error e =>
    rw [hscan] at h
    cases h
  | ok ts =>
    rw [hscan] at h
    have hparse : (Parser.module (moduleName file) ts).mapError SourceError.parse = .ok md := h
    cases hmodule : Parser.module (moduleName file) ts with
    | error e =>
      rw [hmodule] at hparse
      cases hparse
    | ok md' =>
      rw [hmodule] at hparse
      cases hparse
      exact ⟨ts, rfl, hmodule⟩

end Sluice
