import Mathlib.Data.List.GetD
import Sluice.Value.Path

/-! Parts of values. A value that is rebuilt with something else in the place that a path leads to keeps
all its other parts, so two values are rebuilt to the same one exactly when they are the same but for
that place. -/
namespace Sluice.Value

variable {v w x y a b leaf : Value} {s : Step} {steps : List Step}

/-! ### One step -/

/-- The part that one step leads to, in values in which it can be replaced. A key that a map does not
have leads to `unit`. -/
def part? : Value → Step → Option Value
  | list items, .index (int i) _ => if 0 ≤ i.toInt then items[i.toInt.toNat]? else none
  | map entries, .index key _ => some ((valueAt? entries key).getD unit)
  | struct type fields, .field name => (struct type fields).field? name.text
  | _, _ => none

def withPart : Value → Step → Value → Value
  | list items, .index (int i) _, x => list (items.set i.toInt.toNat x)
  | map entries, .index key _, x => map (putEntry entries key x)
  | struct type fields, .field name, x => struct type (setField fields name.text x)
  | v, _, _ => v

theorem putEntry_ne_nil (es : List (Value × Value)) (key a : Value) : putEntry es key a ≠ [] := by
  cases es with
  | nil => simp [putEntry]
  | cons e es =>
    rw [putEntry]
    split <;> simp

/-- The key finds one entry, the same in both. -/
theorem putEntry_inj (es fs : List (Value × Value)) (key : Value) :
    putEntry es key a = putEntry fs key b ↔ putEntry es key unit = putEntry fs key unit ∧ a = b := by
  have hnil : ∀ es a, putEntry es key a ≠ [] := fun es a => putEntry_ne_nil es key a
  induction es generalizing fs with
  | nil =>
    cases fs with
    | nil => simp [putEntry]
    | cons f fs =>
      simp only [putEntry]
      split <;> grind
  | cons e es ih =>
    cases fs with
    | nil =>
      simp only [putEntry]
      split <;> grind
    | cons f fs =>
      simp only [putEntry]
      split <;> split <;> grind

theorem setField_inj {fs gs : List (String × Value)} {name : String}
    (h : (fs.find? (·.1 = name)).isSome) :
    setField fs name a = setField gs name b ↔
      setField fs name unit = setField gs name unit ∧ a = b := by
  induction fs generalizing gs with
  | nil => cases h
  | cons f fs ih =>
    cases gs with
    | nil =>
      simp only [setField]
      split <;> simp
    | cons g gs =>
      simp only [setField]
      split <;> split <;> grind

theorem set_inj {xs ys : List Value} {n : Nat} (h : n < xs.length) :
    xs.set n a = ys.set n b ↔ xs.set n unit = ys.set n unit ∧ a = b := by
  induction xs generalizing ys n with
  | nil => cases h
  | cons z xs ih => cases ys <;> cases n <;> grind

/-- What a step can lead to: an element, an entry or a field. -/
theorem part?_eq_some (h : v.part? s = some x) :
    (∃ items i span, v = list items ∧ s = .index (int i) span ∧ 0 ≤ i.toInt ∧
      items[i.toInt.toNat]? = some x) ∨
    (∃ entries key span, v = map entries ∧ s = .index key span ∧
      x = (valueAt? entries key).getD unit) ∨
    ∃ type fields name, v = struct type fields ∧ s = .field name ∧
      (struct type fields).field? name.text = some x := by
  rw [part?.eq_def] at h
  split at h
  next items i span =>
    split at h
    next hi => exact .inl ⟨items, i, span, rfl, rfl, hi, h⟩
    next => cases h
  next entries key span => exact .inr (.inl ⟨entries, key, span, rfl, rfl, (Option.some.inj h).symm⟩)
  next type fields name => exact .inr (.inr ⟨type, fields, name, rfl, rfl, h⟩)
  next => cases h

/-- Two values become the same by a new part exactly when they are the same elsewhere and the new parts
are the same. -/
theorem withPart_inj (hv : v.part? s = some x) (hw : w.part? s = some y) :
    v.withPart s a = w.withPart s b ↔ v.withPart s unit = w.withPart s unit ∧ a = b := by
  obtain ⟨xs, i, span, rfl, rfl, hi, hx⟩ | ⟨xs, key, span, rfl, rfl, -⟩ | ⟨t, xs, name, rfl, rfl, hx⟩ :=
    part?_eq_some hv
  · have hlt : i.toInt.toNat < xs.length := (List.getElem?_eq_some_iff.1 hx).1
    obtain ⟨ys, j, span', rfl, hs, -⟩ | ⟨ys, key, span', rfl, hs, -⟩ | ⟨u, ys, name, rfl, hs, -⟩ :=
      part?_eq_some hw
    · simpa [withPart] using set_inj hlt
    · simp [withPart]
    · cases hs
  · obtain ⟨ys, j, span', rfl, hs, -⟩ | ⟨ys, key', span', rfl, hs, -⟩ | ⟨u, ys, name, rfl, hs, -⟩ :=
      part?_eq_some hw
    · cases hs
      simp [withPart]
    · simpa [withPart] using putEntry_inj xs ys key
    · cases hs
  · obtain ⟨ys, j, span', rfl, hs, -⟩ | ⟨ys, key', span', rfl, hs, -⟩ | ⟨u, ys, name', rfl, hs, -⟩ :=
      part?_eq_some hw
    · cases hs
    · cases hs
    · have hfield : (xs.find? (·.1 = name.text)).isSome := by
        rw [← Option.isSome_map (f := (·.2))]
        exact Option.isSome_of_eq_some hx
      simp [withPart, setField_inj (a := a) (b := b) hfield, and_assoc]

theorem replaceAlong_unit (s : Step) : unit.replaceAlong (s :: steps) leaf ≠ .ok a := by
  cases s <;> simp [replaceAlong]

private theorem bind_eq_ok {α : Type} {x : Except Fault α} {f : α → Except Fault Value} :
    (x >>= f) = .ok w ↔ ∃ a, x = .ok a ∧ f a = .ok w := by
  cases x with
  | error e => simp [bind, Except.bind]
  | ok a => simp [bind, Except.bind]

private theorem pure_eq_ok : (pure v : Except Fault Value) = .ok w ↔ w = v := by
  simp [pure, Except.pure, eq_comm]

theorem inBounds_eq_ok {i : Int64} {length n : Nat} {span : Span} :
    inBounds i length span = .ok n ↔ (0 ≤ i.toInt ∧ n < length) ∧ i.toInt.toNat = n := by
  rw [inBounds]
  split
  · simp only [Except.ok.injEq]
    omega
  · simp only [reduceCtorEq, false_iff]
    omega

/-- One step of a path: the part that it leads to is rebuilt along the rest. -/
theorem replaceAlong_cons : v.replaceAlong (s :: steps) leaf = .ok w ↔
    ∃ x y, v.part? s = some x ∧ x.replaceAlong steps leaf = .ok y ∧ w = v.withPart s y := by
  cases s with
  | index key span =>
    cases v with
    | list items =>
      cases key with
      | int i =>
        simp only [replaceAlong, part?, withPart, bind_eq_ok, pure_eq_ok, inBounds_eq_ok]
        constructor
        · rintro ⟨n, ⟨⟨hi, hn⟩, rfl⟩, y, hy, rfl⟩
          rw [List.getD_eq_getElem _ _ hn] at hy
          exact ⟨_, y, by rw [if_pos hi, List.getElem?_eq_getElem hn], hy, rfl⟩
        · rintro ⟨x, y, hx, hy, rfl⟩
          obtain ⟨hi, hx⟩ := Option.ite_none_right_eq_some.1 hx
          obtain ⟨hn, rfl⟩ := List.getElem?_eq_some_iff.1 hx
          rw [← List.getD_eq_getElem _ unit hn] at hy
          exact ⟨_, ⟨⟨hi, hn⟩, rfl⟩, y, hy, rfl⟩
      | _ => simp [replaceAlong, part?]
    | map entries =>
      rw [replaceAlong.eq_def]
      rcases hkey : valueAt? entries key with _ | x
      · -- A new key can only end a path.
        cases steps with
        | nil => simp [part?, withPart, hkey, bind_eq_ok, pure_eq_ok, -bind_pure_comp]
        | cons s steps => simp [part?, withPart, hkey, replaceAlong_unit, bind_eq_ok]
      · simp [part?, withPart, hkey, bind_eq_ok, pure_eq_ok, -bind_pure_comp]
    | _ => simp [replaceAlong, part?]
  | field name =>
    cases v with
    | struct type fields =>
      simp only [replaceAlong, part?, withPart]
      cases (struct type fields).field? name.text with
      | none => simp
      | some x => simp [bind_eq_ok, pure_eq_ok, -bind_pure_comp]
    | _ => simp [replaceAlong, part?]

/-! ### Paths -/

/-- The same but for the place that a path leads to. -/
def SameOff : List Step → Value → Value → Prop
  | [], _, _ => True
  | s :: steps, v, w => ∃ x y, v.part? s = some x ∧ w.part? s = some y ∧
    v.withPart s unit = w.withPart s unit ∧ SameOff steps x y

/-- Two values are rebuilt to the same one exactly when they are the same but for the place. -/
theorem replaceAlong_eq_iff_sameOff (h : v.replaceAlong steps leaf = .ok a) :
    w.replaceAlong steps leaf = .ok a ↔ SameOff steps v w := by
  induction steps generalizing v w a with
  | nil => simpa [replaceAlong, SameOff] using h
  | cons s steps ih =>
    obtain ⟨x, x', hx, hx', rfl⟩ := replaceAlong_cons.1 h
    rw [replaceAlong_cons, SameOff]
    constructor
    · rintro ⟨y, y', hy, hy', heq⟩
      obtain ⟨hsame, rfl⟩ := (withPart_inj hx hy).1 heq
      exact ⟨x, y, hx, hy, hsame, (ih hx').1 hy'⟩
    · rintro ⟨x₀, y, hx₀, hy, hsame, hrest⟩
      obtain rfl : x = x₀ := Option.some.inj (hx.symm.trans hx₀)
      exact ⟨y, x', hy, (ih hx').2 hrest, (withPart_inj hx hy).2 ⟨hsame, rfl⟩⟩

end Sluice.Value
