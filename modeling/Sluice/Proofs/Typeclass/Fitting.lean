import Mathlib.Data.List.Induction
import Sluice.Proofs.Typeclass.History

/-! What a registry hands out fits the declaration that was in force when it was registered. A later
declaration of the typeclass leaves it where it is, whatever number of parameters it asks for. -/
namespace Sluice

def Typeclass.Requires (c : Typeclass) (method : String) (n : Nat) : Prop :=
  (c.method? method).map (·.arity) = some n

instance (c : Typeclass) (method : String) (n : Nat) : Decidable (c.Requires method n) :=
  inferInstanceAs (Decidable ((c.method? method).map (·.arity) = some n))

namespace Registry

variable {F : Type}

namespace History

def Admitted : History F → Prop
  | [] => True
  | call :: earlier => Admits earlier call ∧ Admitted earlier

theorem Admitted.admits {later earlier : History F} {call : Call F}
    (h : Admitted (later ++ call :: earlier)) : earlier.Admits call := by
  induction later with
  | nil => exact h.1
  | cons _ later ih => exact ih h.2

/-- `f` was registered with `n` parameters for a method of `d`, when `d` was the current declaration: for a
type, or for every type when there is none. The calls of `later` have been accepted since. -/
def Registered (h : History F) (d : Typeclass) (type : Option String) (method : String) (n : Nat) (f : F)
    (later : History F) : Prop :=
  ∃ typeclass type' methods earlier, h = later ++ .implement typeclass type' methods :: earlier ∧
    canonicalType typeclass = d.name ∧ type'.map canonicalType = type ∧ (method, n, f) ∈ methods ∧
    class? earlier d.name = some d

/-- What the current implementation has for a method was registered with the number of parameters that the
declaration of that time wants. -/
theorem Admitted.registered {h : History F} (hh : h.Admitted) {name method : String}
    {type : Option String} {f : F} (hf : h.callable? name type method = some f) :
    ∃ d n later, d.name = name ∧ h.Registered d type method n f later ∧ d.Requires method n := by
  obtain ⟨block, hblock, hfind⟩ := Option.bind_eq_some_iff.1 hf
  obtain ⟨⟨method', n, f'⟩, hfound, rfl⟩ := Option.map_eq_some_iff.1 hfind
  have hmem := List.mem_of_find?_eq_some hfound
  obtain rfl : method' = method := by simpa using List.find?_some hfound
  obtain ⟨later, call, earlier, rfl, hcall, -⟩ := List.findSome?_eq_some_iff.1 hblock
  cases call with
  | declare c => cases hcall
  | implement typeclass type' methods =>
    dsimp only at hcall
    split at hcall
    next hkey =>
      obtain rfl : methods = block := Option.some.inj hcall
      obtain ⟨d, hd, hmethods, -⟩ := hh.admits
      have hname : d.name = canonicalType typeclass := name_of_class? hd
      refine ⟨d, n, later, hname.trans hkey.1, ?_, hmethods _ hmem⟩
      exact ⟨typeclass, type', methods, earlier, rfl, hname.symm, hkey.2, hmem, hname ▸ hd⟩
    next => cases hcall

/-- The declaration of the time is still the current one, unless the typeclass has been declared since. -/
theorem Registered.class?_eq {h later : History F} {d : Typeclass} {type : Option String}
    {method : String} {n : Nat} {f : F} (hr : h.Registered d type method n f later) {c : Typeclass}
    (hc : h.class? d.name = some c) : c = d ∨ .declare c ∈ later := by
  obtain ⟨typeclass, type', methods, earlier, rfl, -, -, -, hd⟩ := hr
  rw [class?, List.findSome?_append, Option.or_eq_some_iff] at hc
  rcases hc with hlater | ⟨-, hearlier⟩
  · right
    obtain ⟨call, hmem, hcall⟩ := List.exists_of_findSome?_eq_some hlater
    split at hcall
    next c' =>
      split at hcall
      next =>
        cases hcall
        exact hmem
      next => cases hcall
    next => cases hcall
  · left
    exact Option.some.inj (hearlier.symm.trans hd)

end History

theorem run_append (calls : List (Call F)) (call : Call F) :
    run (calls ++ [call]) = record (run calls) call := by
  rw [run, List.foldl_append, ← run, List.foldl_cons, List.foldl_nil]

theorem admitted_run (calls : List (Call F)) : (run calls).2.Admitted := by
  induction calls using List.reverseRecOn with
  | nil => trivial
  | append_singleton calls call ih =>
    rw [run_append, record]
    split
    next r hok => exact ⟨((faithful_run calls).admits_iff call).1 ⟨r, hok⟩, ih⟩
    next => exact ih

/-- A declaration that keeps a method leaves what runs for it. -/
theorem Faithful.implFor?_declare {r r' : Registry F} {h : History F} (hr : Faithful r h) {c : Typeclass}
    {method : String} (howner : r.owners.get? method = some c.name) (hm : c.Lists method)
    (hok : r.addClass c = .ok r') (type : String) : r'.implFor? method type = r.implFor? method type := by
  have hclass : History.class? (.declare c :: h) c.name = some c := by
    rw [History.class?_declare, if_pos rfl]
  have howner' : r'.owners.get? method = some c.name :=
    ((hr.declare hok).owners method c.name).2 ⟨c, hclass, hm⟩
  obtain ⟨-, -, rfl⟩ := addClass_eq_ok_iff.1 hok
  rw [implFor?, implFor?, howner, howner']
  rfl

/-- What runs for a method was registered with the number of parameters that its typeclass wanted at that
time. This is what the typeclass wants now unless it has been declared since; and a declaration that keeps
the method never changes what runs for it, whatever number it wants. -/
theorem implFor?_fits_when_registered (calls : List (Call F)) {m t : String} {f : F}
    (hf : (run calls).1.implFor? m t = some f) :
    ∃ c d n type later, (run calls).1.ownerOf? m = some c ∧ d.name = c.name ∧
      (type = some t ∨ type = none) ∧ (run calls).2.Registered d type m n f later ∧ d.Requires m n ∧
      (c = d ∨ .declare c ∈ later) ∧
      ∀ c' r', c'.name = c.name → c'.Lists m → (run calls).1.attempt (.declare c') = .ok r' →
        r'.implFor? m t = some f := by
  have hr := faithful_run calls
  obtain ⟨name, howner, hsupplied⟩ := Option.bind_eq_some_iff.1 hf
  obtain ⟨c, hc, hm⟩ := (hr.owners m name).1 howner
  obtain rfl : c.name = name := History.name_of_class? hc
  -- the implementation for the type comes before the one for every type
  have hcallable : ∃ type, (type = some t ∨ type = none) ∧
      (run calls).2.callable? c.name type m = some f := by
    rw [supplied?, Option.orElse_eq_or, hr.impls, hr.defaults, Option.or_eq_some_iff] at hsupplied
    rcases hsupplied with hown | ⟨-, hany⟩
    · exact ⟨some t, .inl rfl, hown⟩
    · exact ⟨none, .inr rfl, hany⟩
  obtain ⟨type, htype, hcallable⟩ := hcallable
  obtain ⟨d, n, later, hname, hregistered, hrequires⟩ := (admitted_run calls).registered hcallable
  refine ⟨c, d, n, type, later, (hr.ownerOf?_eq_some_iff m c).2 ⟨hc, hm⟩, hname, htype, hregistered,
    hrequires, hregistered.class?_eq (hname ▸ hc), fun c' r' hname' hm' hok => ?_⟩
  rw [hr.implFor?_declare (hname' ▸ howner) hm' hok t]
  exact hf

/-- A method gets a second parameter after an implementation with one. -/
def widened : Typeclass := ⟨"Show", [⟨"show", 2⟩], []⟩

def widenedAfterwards : List (Call String) :=
  [.declare ⟨"Show", [⟨"show", 1⟩], []⟩, .implement "Show" (some "Integer") [("show", 1, "int")],
   .declare widened]

theorem widenedAfterwards_misfit :
    (run widenedAfterwards).1.implFor? "show" "Int" = some "int" ∧
    ∃ d n type later, (run widenedAfterwards).1.ownerOf? "show" = some widened ∧ d.name = "Show" ∧
      (run widenedAfterwards).2.Registered d type "show" n "int" later ∧ d.Requires "show" n ∧
      ¬ widened.Requires "show" n ∧ .declare widened ∈ later := by
  have hsupplied : (run widenedAfterwards).1.implFor? "show" "Int" = some "int" := by decide +kernel
  have hwidened : (run widenedAfterwards).1.ownerOf? "show" = some widened := by decide +kernel
  obtain ⟨c, d, n, type, later, howner, hname, -, hregistered, hrequires, hlater, -⟩ :=
    implFor?_fits_when_registered widenedAfterwards hsupplied
  obtain rfl : widened = c := Option.some.inj (hwidened.symm.trans howner)
  -- the only implementation of the history has one parameter
  have hone : n = 1 := by
    obtain ⟨typeclass, type', methods, earlier, hsplit, -, -, hmem, -⟩ := hregistered
    have himplement : Call.implement typeclass type' methods ∈ (run widenedAfterwards).2 := by
      rw [hsplit]
      simp
    have hhistory : (run widenedAfterwards).2 = widenedAfterwards.reverse := by rfl
    rw [hhistory] at himplement
    simp only [widenedAfterwards, List.mem_reverse, List.mem_cons, List.not_mem_nil, reduceCtorEq,
      Call.implement.injEq, or_false, false_or] at himplement
    obtain ⟨-, -, rfl⟩ := himplement
    simpa using hmem
  subst hone
  refine ⟨hsupplied, d, 1, type, later, hwidened, hname, hregistered, hrequires, by decide, ?_⟩
  refine hlater.resolve_left ?_
  rintro rfl
  exact absurd hrequires (by decide)

end Registry

end Sluice
