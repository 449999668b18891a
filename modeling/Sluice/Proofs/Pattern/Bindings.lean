import Sluice.Proofs.Check.Careful

/-! What a pattern binds depends on the pattern alone: its names are those in its text that are not variants
without payload, whatever it is matched with, and they get parts of that. So whether one of them comes twice
is settled before the match, and the check of constants knows all of them. -/
namespace Sluice

namespace Runner

/-- Names that are all different and new are bound one after the other. -/
theorem bindNames_of_nodup {seen : List String} {bs : List (String × Value)} (span : Span) (m : Machine)
    (hnodup : (bs.map (·.1)).Nodup) (hnew : ∀ x ∈ bs.map (·.1), x ∉ seen) :
    bindNames seen span bs m = .ok () (m.defineAll bs) := by
  induction bs generalizing seen m with
  | nil => rfl
  | cons b bs ih =>
    obtain ⟨name, v⟩ := b
    rw [List.map_cons, List.nodup_cons] at hnodup
    rw [List.map_cons, List.forall_mem_cons] at hnew
    rw [bindNames, if_neg hnew.1, Eval.define_bind]
    refine ih _ hnodup.2 fun x hx => ?_
    rw [List.mem_cons, not_or]
    refine ⟨?_, hnew.2 x hx⟩
    rintro rfl
    exact hnodup.1 hx

/-- Otherwise the names alone decide which one is refused. -/
theorem exists_boundTwice {seen names : List String} (h : ¬ (names.Nodup ∧ ∀ x ∈ names, x ∉ seen)) :
    ∃ x ∈ names, ∀ bs span m, bs.map (·.1) = names →
      ∃ m', bindNames seen span bs m = .error (.fault (.boundTwice x span)) m' := by
  induction names generalizing seen with
  | nil => exact absurd ⟨List.nodup_nil, List.forall_mem_nil _⟩ h
  | cons y names ih =>
    have hcons : ∀ {bs : List (String × Value)}, bs.map (·.1) = y :: names →
        ∃ v bs', bs = (y, v) :: bs' ∧ bs'.map (·.1) = names := by
      intro bs hbs
      obtain ⟨⟨_, v⟩, bs', rfl, rfl, hbs'⟩ := List.map_eq_cons_iff.1 hbs
      exact ⟨v, bs', rfl, hbs'⟩
    by_cases hy : y ∈ seen
    · refine ⟨y, List.mem_cons_self, fun bs span m hbs => ?_⟩
      obtain ⟨v, bs', rfl, -⟩ := hcons hbs
      rw [bindNames, if_pos hy]
      exact ⟨m, rfl⟩
    · have hrest : ¬ (names.Nodup ∧ ∀ x ∈ names, x ∉ y :: seen) := by
        rintro ⟨hnodup, hnew⟩
        refine h ⟨List.nodup_cons.2 ⟨fun hmem => hnew y hmem List.mem_cons_self, hnodup⟩, ?_⟩
        exact List.forall_mem_cons.2 ⟨hy, fun x hx hseen => hnew x hx (List.mem_cons_of_mem _ hseen)⟩
      obtain ⟨x, hx, hfault⟩ := ih hrest
      refine ⟨x, List.mem_cons_of_mem _ hx, fun bs span m hbs => ?_⟩
      obtain ⟨v, bs', rfl, hbs'⟩ := hcons hbs
      rw [bindNames, if_neg hy, Eval.define_bind]
      exact hfault bs' span (m.define y v) hbs'

end Runner

namespace ConstCheck

/-- Names that are bound together are variables of the innermost scope. -/
theorem here?_bindNames {T : Scopes} {names : List String} {x : String} (hT : T ≠ [])
    (hx : x ∈ names ∨ here? T x = some false) : here? (bindNames T names) x = some false := by
  induction names generalizing T with
  | nil => exact hx.resolve_left List.not_mem_nil
  | cons y names ih =>
    refine ih (bind_ne_nil hT y false) ?_
    by_cases hy : x = y
    · exact .inr (hy ▸ here?_bind_self hT x false)
    · rw [here?_bind_of_ne hy]
      exact hx.imp_left fun hx => (List.mem_cons.1 hx).resolve_left hy

end ConstCheck

namespace Pattern

/-- The names that a pattern binds, in the order of the text. -/
def boundNames (adts : AdtTable) (p : Pattern) : List String := adts.bindable p.names

/-- For a pattern and the declared types there is one list of names such that, whatever value it matches:
what it binds has these names, in this order, and each of them gets the value or something inside it; if they
are all different, they are bound, and if not, the same one is always refused; and the check of constants
takes each of them for a variable of the innermost scope. -/
theorem binds_fixed_names (adts : AdtTable) (p : Pattern) :
    (∀ v bs, p.bindings? adts v = some bs →
      bs.map (·.1) = p.boundNames adts ∧ ∀ b ∈ bs, Within Value.children v b.2) ∧
    ((p.boundNames adts).Nodup → ∀ v bs span m, p.bindings? adts v = some bs →
      Runner.bindNames [] span bs m = .ok () (m.defineAll bs)) ∧
    (¬ (p.boundNames adts).Nodup → ∃ x ∈ p.boundNames adts, ∀ v bs span m, p.bindings? adts v = some bs →
      ∃ m', Runner.bindNames [] span bs m = .error (.fault (.boundTwice x span)) m') ∧
    ∀ x ∈ p.boundNames adts, ∀ T, ConstCheck.here? (ConstCheck.bindPattern ([] :: T) p) x = some false := by
  refine ⟨fun v bs h => ⟨map_fst_bindings? p h, allWithin_bindings? p (.refl v) h⟩,
    fun hnodup v bs span m h => ?_, fun hrepeated => ?_, fun x hx T => ?_⟩
  · have hnames : bs.map (·.1) = p.boundNames adts := map_fst_bindings? p h
    exact Runner.bindNames_of_nodup span m (hnames ▸ hnodup) fun _ _ => List.not_mem_nil
  · have hnot : ¬ ((p.boundNames adts).Nodup ∧ ∀ x ∈ p.boundNames adts, x ∉ ([] : List String)) :=
      fun h => hrepeated h.1
    obtain ⟨x, hx, hfault⟩ := Runner.exists_boundTwice hnot
    exact ⟨x, hx, fun v bs span m h => hfault bs span m (map_fst_bindings? p h)⟩
  · rw [ConstCheck.bindPattern_eq]
    exact ConstCheck.here?_bindNames (List.cons_ne_nil _ _) (.inl (List.mem_filter.1 hx).1)

/-- `Pair(a, (b, _))` -/
def pairOfPair : Pattern :=
  .variant ⟨"Pair", default⟩
    [.name ⟨"a", default⟩, .tuple [.name ⟨"b", default⟩, .wildcard default] default] default

def pairOfSame : Pattern :=
  .variant ⟨"Pair", default⟩ [.name ⟨"a", default⟩, .name ⟨"a", default⟩] default

def pairs : List Value :=
  [.struct "Pair" [("x", .int 1), ("y", .tuple [.int 2, .int 3])],
   .variant "Kind" "Pair" (some (.tuple [.str "s", .tuple [.nothing, .unit]]))]

theorem pairOfPair_binds (m : Machine) : ∀ v ∈ pairs,
    (∃ bs, pairOfPair.bindings? {} v = some bs ∧ bs.map (·.1) = ["a", "b"] ∧
      Runner.bindNames [] default bs m = .ok () (m.defineAll bs)) ∧
    ∃ bs m', pairOfSame.bindings? {} v = some bs ∧
      Runner.bindNames [] default bs m = .error (.fault (.boundTwice "a" default)) m' := by
  obtain ⟨hnames, hbind, -, -⟩ := binds_fixed_names {} pairOfPair
  obtain ⟨-, -, htwice, -⟩ := binds_fixed_names {} pairOfSame
  obtain ⟨x, hx, hfault⟩ := htwice (by decide)
  obtain rfl : x = "a" := by simpa [pairOfSame, names, namesAll] using (List.mem_filter.1 hx).1
  intro v hv
  have hmatch : (∃ bs, pairOfPair.bindings? {} v = some bs) ∧ ∃ bs, pairOfSame.bindings? {} v = some bs := by
    simp only [pairs, List.mem_cons, List.not_mem_nil, or_false] at hv
    rcases hv with rfl | rfl <;> exact ⟨⟨_, rfl⟩, _, rfl⟩
  obtain ⟨⟨bs, hbs⟩, bs', hbs'⟩ := hmatch
  obtain ⟨m', hm'⟩ := hfault v bs' default m hbs'
  exact ⟨⟨bs, hbs, (hnames v bs hbs).1, hbind (by decide) v bs default m hbs⟩, bs', m', hbs', hm'⟩

end Pattern

end Sluice
