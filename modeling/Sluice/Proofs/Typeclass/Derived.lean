import Mathlib.Data.List.Flatten
import Mathlib.Logic.Relation
import Sluice.Proofs.Typeclass.History

/-! What a `derives` clause asks for. Its check looks at the typeclasses that it lists, at those they derive,
and so on, and at each of them once, so circles do not keep it busy. It accepts exactly if all of them are
declared and implemented for the type, and then each of their methods has something to run. -/
namespace Sluice.Registry

variable {F : Type} {r : Registry F} {h : History F} {type name a : String} {c : Typeclass}
  {seen pending rest listed listed' : List String} {e : RegistrationError}

namespace History

def Derives (h : History F) (a b : String) : Prop := ∃ c, h.class? a = some c ∧ b ∈ c.derives

/-- A typeclass that is listed, or that a listed one derives, directly or through others. -/
def Derived (h : History F) (listed : List String) (name : String) : Prop :=
  ∃ d ∈ listed, Relation.ReflTransGen h.Derives d name

/-- A method of a typeclass is in the current implementation for the type or in the one for every type. -/
def Supplies (h : History F) (type name method : String) : Prop :=
  (h.callable? name (some type) method).isSome ∨ (h.callable? name none method).isSome

def Implements (h : History F) (type name : String) : Prop :=
  ∃ c, h.class? name = some c ∧ ∀ m, c.Lists m → h.Supplies type name m

inductive Objection (h : History F) (type name : String) : RegistrationError → Prop
  | undeclared : h.class? name = none → Objection h type name (.unknownTypeclass name)
  | missing {c : Typeclass} {m : String} : h.class? name = some c → c.Lists m → ¬ h.Supplies type name m →
    Objection h type name (.missingDerivedMethod type name m)

theorem Objection.not_implements (he : h.Objection type name e) : ¬ h.Implements type name := by
  rintro ⟨c, hc, hmethods⟩
  cases he with
  | undeclared hnone =>
    rw [hnone] at hc
    cases hc
  | missing hc' hm hnot =>
    obtain rfl := Option.some.inj (hc.symm.trans hc')
    exact hnot (hmethods _ hm)

theorem Derived.of_mem (hname : name ∈ listed) : h.Derived listed name := ⟨name, hname, .refl⟩

theorem Derived.mono (hsub : listed ⊆ listed') (hname : h.Derived listed name) : h.Derived listed' name := by
  obtain ⟨d, hd, hsteps⟩ := hname
  exact ⟨d, hsub hd, hsteps⟩

/-- What the typeclasses that `a` derives lead to, `a` leads to. -/
theorem Derived.head (hc : h.class? a = some c) (hname : h.Derived (c.derives.reverse ++ rest) name) :
    h.Derived (a :: rest) name := by
  obtain ⟨d, hd, hsteps⟩ := hname
  rcases List.mem_append.1 hd with hd | hd
  · exact ⟨a, List.mem_cons_self, .head ⟨c, hc, List.mem_reverse.1 hd⟩ hsteps⟩
  · exact ⟨d, List.mem_cons_of_mem _ hd, hsteps⟩

end History

/-! ### One typeclass -/

theorem Faithful.isSome_supplied?_iff (hr : Faithful r h) (type name m : String) :
    (r.supplied? name type m).isSome ↔ h.Supplies type name m := by
  rw [supplied?, Option.orElse_eq_or, hr.impls, hr.defaults, Option.isSome_or, Bool.or_eq_true]
  rfl

theorem Faithful.supplies_of_missingMethod? (hr : Faithful r h)
    (hnone : r.missingMethod? type c name = none) {m : String} (hm : c.Lists m) :
    h.Supplies type name m := by
  obtain ⟨method, hmethod, rfl⟩ := List.mem_map.1 hm
  rw [missingMethod?, Option.map_eq_none_iff, List.find?_eq_none] at hnone
  have hfound := hnone method hmethod
  rw [← hr.isSome_supplied?_iff]
  simpa [Option.isSome_iff_ne_none] using hfound

theorem Faithful.not_supplies_of_missingMethod? (hr : Faithful r h) {m : String}
    (hsome : r.missingMethod? type c name = some m) : c.Lists m ∧ ¬ h.Supplies type name m := by
  obtain ⟨method, hfind, rfl⟩ := Option.map_eq_some_iff.1 hsome
  refine ⟨List.mem_map_of_mem (List.mem_of_find?_eq_some hfind), ?_⟩
  rw [← hr.isSome_supplied?_iff]
  simpa using List.find?_some hfind

/-! ### The typeclasses looked at -/

/-- Those looked at are implemented, and what they derive has been looked at or will be. -/
structure Explored (h : History F) (type : String) (seen pending : List String) : Prop where
  implements : ∀ a ∈ seen, h.Implements type a
  derives : ∀ a ∈ seen, ∀ b, h.Derives a b → b ∈ seen ∨ b ∈ pending

namespace Explored

theorem nil (h : History F) (type : String) (pending : List String) : Explored h type [] pending :=
  ⟨List.forall_mem_nil _, List.forall_mem_nil _⟩

/-- A typeclass that comes again is passed over. -/
theorem skip (hx : Explored h type seen (name :: rest)) (hname : name ∈ seen) :
    Explored h type seen rest := by
  refine ⟨hx.implements, fun a ha b hb => ?_⟩
  rcases hx.derives a ha b hb with hseen | hpending
  · exact .inl hseen
  · rcases List.mem_cons.1 hpending with rfl | hrest
    · exact .inl hname
    · exact .inr hrest

/-- A new one that is implemented is followed by those it derives. -/
theorem look (hx : Explored h type seen (name :: rest)) (hc : h.class? name = some c)
    (hmethods : ∀ m, c.Lists m → h.Supplies type name m) :
    Explored h type (name :: seen) (c.derives.reverse ++ rest) := by
  refine ⟨List.forall_mem_cons.2 ⟨⟨c, hc, hmethods⟩, hx.implements⟩, fun a ha b hb => ?_⟩
  rcases List.mem_cons.1 ha with rfl | ha
  · obtain ⟨c', hc', hb⟩ := hb
    obtain rfl := Option.some.inj (hc.symm.trans hc')
    exact .inr (List.mem_append_left _ (List.mem_reverse.2 hb))
  · rcases hx.derives a ha b hb with hseen | hpending
    · exact .inl (List.mem_cons_of_mem _ hseen)
    · rcases List.mem_cons.1 hpending with rfl | hrest
      · exact .inl List.mem_cons_self
      · exact .inr (List.mem_append_right _ hrest)

/-- With nothing left to look at, everything derived from what was looked at is implemented. -/
theorem implements_derived (hx : Explored h type seen []) (hlisted : listed ⊆ seen)
    (hname : h.Derived listed name) : h.Implements type name := by
  obtain ⟨d, hd, hsteps⟩ := hname
  refine hx.implements name ?_
  induction hsteps with
  | refl => exact hlisted hd
  | tail _ hstep ih => exact (hx.derives _ ih _ hstep).resolve_right List.not_mem_nil

end Explored

/-- A check that accepts has looked at all that was pending, and at all that this derives. -/
theorem Faithful.explored_of_checkFrom (hr : Faithful r h) (hx : Explored h type seen pending)
    (hok : r.checkFrom type seen pending = .ok ()) :
    ∃ all, pending ⊆ all ∧ seen ⊆ all ∧ Explored h type all [] := by
  fun_induction r.checkFrom type seen pending with
  | case1 seen => exact ⟨seen, List.nil_subset _, List.Subset.refl _, hx⟩
  | case2 seen name rest hseen ih =>
    obtain ⟨all, hrest, hall, hx⟩ := ih (hx.skip hseen) hok
    exact ⟨all, List.cons_subset.2 ⟨hall hseen, hrest⟩, hall, hx⟩
  | case3 => cases hok
  | case4 => cases hok
  | case5 seen name rest hseen c hc hnone ih =>
    rw [hr.classes] at hc
    obtain ⟨all, hrest, hall, hx⟩ := ih (hx.look hc fun _ => hr.supplies_of_missingMethod? hnone) hok
    obtain ⟨hname, hall⟩ := List.cons_subset.1 hall
    exact ⟨all, List.cons_subset.2 ⟨hname, (List.append_subset.1 hrest).2⟩, hall, hx⟩

/-- A check that refuses names a typeclass that is asked for, and says what is wrong with it. -/
theorem Faithful.objection_of_checkFrom (hr : Faithful r h)
    (herror : r.checkFrom type seen pending = .error e) :
    ∃ name, h.Derived pending name ∧ h.Objection type name e := by
  fun_induction r.checkFrom type seen pending with
  | case1 => cases herror
  | case2 seen name rest hseen ih =>
    obtain ⟨name', hname', hobjection⟩ := ih herror
    exact ⟨name', hname'.mono (List.subset_cons_self _ _), hobjection⟩
  | case3 seen name rest hseen hnone =>
    cases herror
    exact ⟨name, .of_mem List.mem_cons_self, .undeclared ((hr.classes name).symm.trans hnone)⟩
  | case4 seen name rest hseen c hc m hsome =>
    cases herror
    obtain ⟨hm, hnot⟩ := hr.not_supplies_of_missingMethod? hsome
    exact ⟨name, .of_mem List.mem_cons_self, .missing ((hr.classes name).symm.trans hc) hm hnot⟩
  | case5 seen name rest hseen c hc hnone ih =>
    obtain ⟨name', hname', hobjection⟩ := ih herror
    exact ⟨name', hname'.head ((hr.classes name).symm.trans hc), hobjection⟩

theorem Faithful.checkDerives_eq_ok_iff (hr : Faithful r h) (type : String) (listed : List String) :
    r.checkDerives type listed = .ok () ↔ ∀ name, h.Derived listed name → h.Implements type name := by
  constructor
  · intro hok name hname
    obtain ⟨all, hlisted, -, hx⟩ := hr.explored_of_checkFrom (.nil h type _) hok
    exact hx.implements_derived (List.reverse_subset.1 hlisted) hname
  · intro himplements
    cases hcheck : r.checkDerives type listed with
    | ok => rfl
    | error e =>
      obtain ⟨name, hname, hobjection⟩ := hr.objection_of_checkFrom hcheck
      exact absurd (himplements name (hname.mono (List.reverse_subset.2 (List.Subset.refl _))))
        hobjection.not_implements

/-- A method of a typeclass that is implemented has something to run. -/
theorem Faithful.exists_implFor? (hr : Faithful r h) (himplements : h.Implements type name)
    (hc : h.class? name = some c) {m : String} (hm : c.Lists m) : ∃ f, r.implFor? m type = some f := by
  obtain ⟨c', hc', hmethods⟩ := himplements
  obtain rfl := Option.some.inj (hc.symm.trans hc')
  obtain ⟨f, hf⟩ := Option.isSome_iff_exists.1 ((hr.isSome_supplied?_iff type name m).2 (hmethods m hm))
  have howner := (hr.owners m name).2 ⟨c, hc, hm⟩
  exact ⟨f, by rw [implFor?, howner]; exact hf⟩

/-! ### How long it takes -/

/-- The rounds of the check, one for each name that is pending; none if they are not enough. -/
def checkWithin (r : Registry F) (type : String) :
    (rounds : Nat) → (seen pending : List String) → Option (Except RegistrationError Unit)
  | 0, _, _ => none
  | _ + 1, _, [] => some (.ok ())
  | rounds + 1, seen, name :: rest =>
    if name ∈ seen then r.checkWithin type rounds seen rest
    else match r.classes.get? name with
      | none => some (.error (.unknownTypeclass name))
      | some c =>
        match r.missingMethod? type c name with
        | some m => some (.error (.missingDerivedMethod type name m))
        | none => r.checkWithin type rounds (name :: seen) (c.derives.reverse ++ rest)

def ahead (r : Registry F) (seen : List String) : Nat :=
  ((r.classes.filter fun e => e.1 ∉ seen).flatMap (·.2.derives)).length

theorem ahead_nil (r : Registry F) : r.ahead [] = (r.classes.flatMap (·.2.derives)).length := by
  simp [ahead]

theorem ahead_cons_add_le (hc : r.classes.get? name = some c) (hname : name ∉ seen) :
    r.ahead (name :: seen) + c.derives.length ≤ r.ahead seen := by
  have hfewer : ∀ classes : List (String × Typeclass),
      ((classes.filter fun e => e.1 ∉ name :: seen).flatMap (·.2.derives)).length ≤
        ((classes.filter fun e => e.1 ∉ seen).flatMap (·.2.derives)).length := by
    intro classes
    refine ((List.monotone_filter_right classes fun e he => ?_).flatMap _).length_le
    simp only [List.mem_cons, not_or, decide_eq_true_eq] at he ⊢
    exact he.2
  obtain ⟨before, after, hclasses⟩ := List.append_of_mem (Table.mem_of_get?_eq_some hc)
  have hbefore := hfewer before
  have hafter := hfewer after
  rw [ahead, ahead, hclasses, List.filter_append, List.filter_append, List.flatMap_append,
    List.flatMap_append, List.filter_cons_of_neg (by simp), List.filter_cons_of_pos (by simpa using hname)]
  simp only [List.flatMap_cons, List.length_append]
  omega

theorem checkWithin_eq {rounds : Nat} (henough : pending.length + r.ahead seen < rounds) :
    r.checkWithin type rounds seen pending = some (r.checkFrom type seen pending) := by
  obtain ⟨rounds, rfl⟩ := Nat.exists_eq_add_one_of_ne_zero (Nat.ne_zero_of_lt henough)
  fun_induction r.checkFrom type seen pending generalizing rounds with
  | case1 => rw [checkWithin]
  | case2 seen name rest hseen ih =>
    rw [checkWithin, if_pos hseen]
    rw [List.length_cons] at henough
    obtain ⟨rounds, rfl⟩ := Nat.exists_eq_add_one_of_ne_zero (show rounds ≠ 0 by omega)
    exact ih rounds (by omega)
  | case3 seen name rest hseen hnone => rw [checkWithin, if_neg hseen, hnone]
  | case4 seen name rest hseen c hc m hsome => rw [checkWithin, if_neg hseen, hc]; simp only [hsome]
  | case5 seen name rest hseen c hc hnone ih =>
    rw [checkWithin, if_neg hseen, hc]
    simp only [hnone]
    have hahead := ahead_cons_add_le hc hseen
    rw [List.length_cons] at henough
    obtain ⟨rounds, rfl⟩ := Nat.exists_eq_add_one_of_ne_zero (show rounds ≠ 0 by omega)
    refine ih rounds ?_
    rw [List.length_append, List.length_reverse]
    omega

/-! ### The check of a clause -/

/-- After any sequence of calls, and however the typeclasses derive each other: the check of a clause comes
to its answer within one round for each name in the clause and in the declarations, and one more; it accepts
if and only if every typeclass that is listed or derived from a listed one is declared and has each of its
methods supplied for the type; it refuses for one of them that has not; and once it accepted, each method of
each of them has something to run. -/
theorem checkDerives_decides (calls : List (Call F)) (type : String) (listed : List String) :
    (run calls).1.checkWithin type
        (listed.length + ((run calls).1.classes.flatMap (·.2.derives)).length + 1) []
        listed.reverse = some ((run calls).1.checkDerives type listed) ∧
    ((run calls).1.checkDerives type listed = .ok () ↔
      ∀ name, (run calls).2.Derived listed name → (run calls).2.Implements type name) ∧
    (∀ e, (run calls).1.checkDerives type listed = .error e →
      ∃ name, (run calls).2.Derived listed name ∧ (run calls).2.Objection type name e) ∧
    ((run calls).1.checkDerives type listed = .ok () →
      ∀ name c m, (run calls).2.Derived listed name → (run calls).2.class? name = some c → c.Lists m →
        ∃ f, (run calls).1.implFor? m type = some f) := by
  have hr := faithful_run calls
  have hiff := hr.checkDerives_eq_ok_iff type listed
  refine ⟨?_, hiff, fun e he => ?_, fun hok name c m hname hc hm => ?_⟩
  · refine checkWithin_eq ?_
    rw [List.length_reverse, ahead_nil]
    exact Nat.lt_succ_self _
  · obtain ⟨name, hname, hobjection⟩ := hr.objection_of_checkFrom he
    exact ⟨name, hname.mono (List.reverse_subset.2 (List.Subset.refl _)), hobjection⟩
  · exact hr.exists_implFor? (hiff.1 hok name hname) hc hm

/-- Two typeclasses that derive each other, one of them itself too; what one of them wants is there for
every type, what the other wants for one. -/
def circular : List (Call String) :=
  [.declare ⟨"Eq", [⟨"eq", 2⟩], []⟩, .declare ⟨"Show", [⟨"show", 1⟩], ["Eq"]⟩,
   .declare ⟨"Eq", [⟨"eq", 2⟩], ["Show", "Eq"]⟩, .implement "Eq" none [("eq", 2, "any")],
   .implement "Show" (some "Point") [("show", 1, "point")]]

theorem circular_decided :
    (run circular).1.checkDerives "Point" ["Eq"] = .ok () ∧
    (∀ name, (run circular).2.Derived ["Eq"] name → (run circular).2.Implements "Point" name) ∧
    (∃ f, (run circular).1.implFor? "show" "Point" = some f) ∧
    (∃ name, (run circular).2.Derived ["Eq"] name ∧
      (run circular).2.Objection "Int" name (.missingDerivedMethod "Int" "Show" "show")) := by
  obtain ⟨hrounds, hiff, -, hmethods⟩ := checkDerives_decides circular "Point" ["Eq"]
  obtain ⟨hrounds', -, hrefused, -⟩ := checkDerives_decides circular "Int" ["Eq"]
  have hok : (run circular).1.checkDerives "Point" ["Eq"] = .ok () :=
    Option.some.inj (hrounds.symm.trans (by rfl))
  have herror : (run circular).1.checkDerives "Int" ["Eq"] =
      .error (.missingDerivedMethod "Int" "Show" "show") :=
    Option.some.inj (hrounds'.symm.trans (by rfl))
  have hshow : (run circular).2.Derived ["Eq"] "Show" :=
    ⟨"Eq", List.mem_singleton_self _, .single ⟨_, rfl, List.mem_cons_self⟩⟩
  exact ⟨hok, hiff.1 hok, hmethods hok "Show" _ "show" hshow rfl (by decide), hrefused _ herror⟩

end Sluice.Registry
