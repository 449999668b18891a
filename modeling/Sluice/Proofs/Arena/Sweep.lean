import Mathlib.Data.List.Perm.Basic
import Sluice.Proofs.Arena.Freeing

/-! The sweep is exact: in whatever order it goes through its sets, it empties the slots of those
scopes that cannot be reached, and no others. -/
namespace Sluice.Arena

variable {a : Arena} {outside : List Value} {o : SweepOrder} {cand : Marks} {s t : ScopeId} {sc : Scope}

/-! ### The marking -/

private def unmarked (cand reached : Marks) : Finset ScopeId :=
  (Finset.range cand.size).filter fun t => cand.has t = true ∧ ¬ reached.has t = true

private theorem mem_unmarked {reached : Marks} :
    t ∈ unmarked cand reached ↔ cand.has t = true ∧ ¬ reached.has t = true := by
  simp only [unmarked, Finset.mem_filter, Finset.mem_range, and_iff_right_iff_imp]
  exact fun h => Marks.lt_size_of_has h.1

private theorem unmarked_add {reached : Marks} (hsize : reached.size = cand.size)
    (ht : cand.has t = true) : unmarked cand (reached.add t) = (unmarked cand reached).erase t := by
  have hlt : t < reached.size := hsize ▸ Marks.lt_size_of_has ht
  ext u
  rw [Finset.mem_erase, mem_unmarked, mem_unmarked, Marks.has_add]
  constructor
  · rintro ⟨hu, hn⟩
    exact ⟨fun hut => hn (.inr ⟨hut, hlt⟩), hu, fun h => hn (.inl h)⟩
  · rintro ⟨hne, hu, hn⟩
    exact ⟨hu, fun h => h.elim hn fun h => hne h.1⟩

private theorem length_add_unmarked_le (cand : Marks) {reached : Marks} {pending : List ScopeId}
    (hnd : pending.Nodup) (hlt : ∀ s ∈ pending, s < cand.size) (hmark : ∀ s ∈ pending, reached.has s = true) :
    pending.length + (unmarked cand reached).card ≤ cand.size := by
  have hdisj : Disjoint pending.toFinset (unmarked cand reached) := by
    rw [Finset.disjoint_left]
    intro s hs hu
    exact (mem_unmarked.1 hu).2 (hmark s (List.mem_toFinset.1 hs))
  have hsub : pending.toFinset ∪ unmarked cand reached ⊆ Finset.range cand.size := by
    intro s hs
    rw [Finset.mem_range]
    rcases Finset.mem_union.1 hs with hs | hs
    · exact hlt s (List.mem_toFinset.1 hs)
    · exact Marks.lt_size_of_has (mem_unmarked.1 hs).1
  have hcard := Finset.card_le_card hsub
  rwa [Finset.card_union_of_disjoint hdisj, List.toFinset_card_of_nodup hnd, Finset.card_range]
    at hcard

private structure Visited (cand : Marks) (links : List ScopeId) (before after : List ScopeId × Marks) :
    Prop where
  size : after.2.size = before.2.size
  has_iff : ∀ t, after.2.has t = true ↔ before.2.has t = true ∨ t ∈ links ∧ cand.has t = true
  pending : ∀ t, t ∈ after.1 ↔
    t ∈ before.1 ∨ t ∈ links ∧ cand.has t = true ∧ ¬ before.2.has t = true
  measure : after.1.length + (unmarked cand after.2).card =
    before.1.length + (unmarked cand before.2).card

private theorem visited (links : List ScopeId) (st : List ScopeId × Marks)
    (hsize : st.2.size = cand.size) : Visited cand links st (links.foldl (enqueue cand) st) := by
  induction links generalizing st with
  | nil => exact ⟨rfl, by simp, by simp, rfl⟩
  | cons u links ih =>
    obtain ⟨pending, reached⟩ := st
    dsimp only at hsize
    rw [List.foldl_cons]
    by_cases hu : cand.has u = true ∧ ¬ reached.has u = true
    · have hif : (cand.has u && !reached.has u) = true := by simpa using hu
      rw [enqueue, if_pos hif]
      have hlt : u < reached.size := hsize ▸ Marks.lt_size_of_has hu.1
      obtain ⟨h1, h2, h3, h4⟩ := ih (u :: pending, reached.add u) (by simpa using hsize)
      refine ⟨by simpa using h1, fun t => ?_, fun t => ?_, ?_⟩
      · rw [h2, Marks.has_add]
        constructor
        · rintro ((h | ⟨rfl, -⟩) | ⟨ht, hc⟩)
          · exact .inl h
          · exact .inr ⟨List.mem_cons_self, hu.1⟩
          · exact .inr ⟨List.mem_cons_of_mem _ ht, hc⟩
        · rintro (h | ⟨ht, hc⟩)
          · exact .inl (.inl h)
          · rcases List.mem_cons.1 ht with rfl | ht
            · exact .inl (.inr ⟨rfl, hlt⟩)
            · exact .inr ⟨ht, hc⟩
      · rw [h3, Marks.has_add]
        by_cases htu : t = u
        · subst htu
          simp [hu.1, hu.2]
        · simp [htu]
      · rw [h4]
        dsimp only
        rw [unmarked_add hsize hu.1, Finset.card_erase_of_mem (mem_unmarked.2 hu), List.length_cons]
        have hpos : 0 < (unmarked cand reached).card := Finset.card_pos.2 ⟨u, mem_unmarked.2 hu⟩
        omega
    · have hif : ¬ (cand.has u && !reached.has u) = true := by simpa using hu
      rw [enqueue, if_neg hif]
      obtain ⟨h1, h2, h3, h4⟩ := ih (pending, reached) hsize
      refine ⟨h1, fun t => ?_, fun t => ?_, h4⟩
      · rw [h2]
        by_cases htu : t = u
        · subst htu
          simp only [List.mem_cons_self, true_and]
          constructor
          · exact fun h => h.imp_right (·.2)
          · exact fun h => .inl (h.elim id fun hc => not_not.1 fun hn => hu ⟨hc, hn⟩)
        · simp [htu]
      · rw [h3]
        refine or_congr_right ⟨fun h => ⟨List.mem_cons_of_mem _ h.1, h.2⟩, fun h => ?_⟩
        rcases List.mem_cons.1 h.1 with rfl | ht
        · exact absurd h.2 hu
        · exact ⟨ht, h.2⟩

theorem functions_scope_perm (o : SweepOrder) (v : Visit) (sc : Scope) :
    (o.scope v sc).functions.Perm sc.functions :=
  (o.perm v _ sc.vars).flatMap_right _

theorem mem_links_scope (o : SweepOrder) (v : Visit) (sc : Scope) :
    t ∈ (o.scope v sc).links ↔ t ∈ sc.links := by
  rw [Scope.mem_links, Scope.mem_links]
  refine or_congr_right (exists_congr fun c => and_congr_left fun _ => ?_)
  exact (functions_scope_perm o v sc).mem_iff

private def targets (a : Arena) (o : SweepOrder) (s : ScopeId) : List ScopeId :=
  ((a.scope? s).map fun sc => (o.scope (.followed s) sc).links).getD []

private theorem mem_targets :
    t ∈ targets a o s ↔ ∃ sc, a.scope? s = some sc ∧ t ∈ sc.links := by
  rcases hs : a.scope? s with _ | sc
  · simp [targets, hs]
  · simp [targets, hs, mem_links_scope]

private theorem reach_cons (a : Arena) (o : SweepOrder) (cand : Marks) (fuel : Nat) (s : ScopeId)
    (pending : List ScopeId) (reached : Marks) :
    a.reach o cand (fuel + 1) (s :: pending) reached =
      a.reach o cand fuel ((targets a o s).foldl (enqueue cand) (pending, reached)).1
        ((targets a o s).foldl (enqueue cand) (pending, reached)).2 := by
  rw [reach]
  rfl

/-- The marks after a run are among those of any set that has the first marks in it and is closed
under links to candidates. -/
theorem reach_subset (P : ScopeId → Prop)
    (hP : ∀ s t sc, P s → a.scope? s = some sc → t ∈ sc.links → cand.has t = true → P t)
    (fuel : Nat) (pending : List ScopeId) (reached : Marks) (hsize : reached.size = cand.size)
    (hpending : ∀ s ∈ pending, P s) (hreached : ∀ s, reached.has s = true → P s)
    (hs : (a.reach o cand fuel pending reached).has s = true) : P s := by
  induction fuel generalizing pending reached with
  | zero => exact hreached s (by simpa [reach] using hs)
  | succ fuel ih =>
    cases pending with
    | nil => exact hreached s (by simpa [reach] using hs)
    | cons u pending =>
      obtain ⟨h1, h2, h3, -⟩ := visited (targets a o u) (pending, reached) hsize
      have htarget : ∀ t ∈ targets a o u, cand.has t = true → P t := by
        intro t ht hc
        obtain ⟨sc, hsc, hl⟩ := mem_targets.1 ht
        exact hP u t sc (hpending u List.mem_cons_self) hsc hl hc
      rw [reach_cons] at hs
      refine ih _ _ (h1.trans hsize) (fun t ht => ?_) (fun t ht => ?_) hs
      · rcases (h3 t).1 ht with ht | ⟨ht, hc, -⟩
        · exact hpending t (List.mem_cons_of_mem _ ht)
        · exact htarget t ht hc
      · rcases (h2 t).1 ht with ht | ⟨ht, hc⟩
        · exact hreached t ht
        · exact htarget t ht hc

/-- With fuel for each scope on the list and each candidate without a mark, the run keeps the first
marks and ends with marks closed under links to candidates. -/
theorem reach_closed (fuel : Nat) (pending : List ScopeId) (reached : Marks)
    (hsize : reached.size = cand.size)
    (hfuel : pending.length + (unmarked cand reached).card ≤ fuel)
    (hdone : ∀ s t sc, reached.has s = true → s ∉ pending → a.scope? s = some sc → t ∈ sc.links →
      cand.has t = true → reached.has t = true) :
    (∀ s, reached.has s = true → (a.reach o cand fuel pending reached).has s = true) ∧
    ∀ s t sc, (a.reach o cand fuel pending reached).has s = true → a.scope? s = some sc →
      t ∈ sc.links → cand.has t = true → (a.reach o cand fuel pending reached).has t = true := by
  induction fuel generalizing pending reached with
  | zero =>
    have hnil : pending = [] := List.eq_nil_of_length_eq_zero (by omega)
    subst hnil
    simp only [reach]
    exact ⟨fun _ => id, fun s t sc hs => hdone s t sc hs (by simp)⟩
  | succ fuel ih =>
    cases pending with
    | nil =>
      simp only [reach]
      exact ⟨fun _ => id, fun s t sc hs => hdone s t sc hs (by simp)⟩
    | cons u pending =>
      obtain ⟨h1, h2, h3, h4⟩ := visited (targets a o u) (pending, reached) hsize
      rw [reach_cons]
      rw [List.length_cons] at hfuel
      obtain ⟨hkeep, hclosed⟩ := ih _ _ (h1.trans hsize) (h4.trans_le (by dsimp only; omega))
        (fun s t sc hs hp hsc hl hc => by
          by_cases hsu : s = u
          · subst hsu
            exact (h2 t).2 (.inr ⟨mem_targets.2 ⟨sc, hsc, hl⟩, hc⟩)
          · -- A scope that is off the list and is not `u` had its mark before.
            rw [h3] at hp
            push Not at hp
            have hs : reached.has s = true := by
              rcases (h2 s).1 hs with hs | ⟨ht, hsc'⟩
              · exact hs
              · exact hp.2 ht hsc'
            have hns : s ∉ u :: pending := by simp [hsu, hp.1]
            exact (h2 t).2 (.inl (hdone s t sc hs hns hsc hl hc)))
      exact ⟨fun s hs => hkeep s ((h2 s).2 (.inl hs)), hclosed⟩

/-! ### The candidates -/

theorem isClosed_iff : a.isClosed s = true ↔ ∃ sc, a.scope? s = some sc ∧ sc.isOpen = false := by
  simp [isClosed, Option.any_eq_true]

theorem isClosed_modify (a : Arena) (s t : ScopeId) {f : Scope → Scope}
    (hf : ∀ sc, (f sc).isOpen = sc.isOpen) : (a.modify s f).isClosed t = a.isClosed t := by
  rw [isClosed, scope?_modify]
  split
  · cases h : a.scope? t with
    | none => simp [isClosed, h]
    | some sc => simp [isClosed, h, hf]
  · rfl

private theorem foldl_candidates (a : Arena) (l : List ScopeId) (m : Marks) :
    (l.foldl (fun m s => if a.isClosed s then m.add s else m) m).size = m.size ∧
    ∀ s, Marks.has (l.foldl (fun m s => if a.isClosed s then m.add s else m) m) s = true ↔
      m.has s = true ∨ s ∈ l ∧ a.isClosed s = true ∧ s < m.size := by
  induction l generalizing m with
  | nil => simp
  | cons u l ih =>
    obtain ⟨hsize, hhas⟩ := ih (if a.isClosed u then m.add u else m)
    rw [List.foldl_cons]
    by_cases hu : a.isClosed u = true
    · simp only [hu, if_true, Marks.size_add] at hsize hhas ⊢
      refine ⟨hsize, fun s => ?_⟩
      rw [hhas, Marks.has_add]
      by_cases hsu : s = u
      · subst hsu
        constructor
        · rintro ((h | ⟨-, h⟩) | ⟨-, h⟩)
          · exact .inl h
          · exact .inr ⟨List.mem_cons_self, hu, h⟩
          · exact .inr ⟨List.mem_cons_self, h⟩
        · rintro (h | ⟨-, -, h⟩)
          · exact .inl (.inl h)
          · exact .inl (.inr ⟨rfl, h⟩)
      · simp [hsu]
    · simp only [hu] at hsize hhas ⊢
      refine ⟨hsize, fun s => ?_⟩
      rw [hhas]
      by_cases hsu : s = u
      · subst hsu
        simp [hu]
      · simp [hsu]

@[simp] theorem size_candidates (a : Arena) : a.candidates.size = a.slots.size := by
  have h := (foldl_candidates a a.detached.toList a.noMarks).1
  rw [candidates, ← Array.foldl_toList, h, noMarks, Array.size_replicate]

theorem has_candidates_iff : a.candidates.has s = true ↔
    s ∈ a.detached ∧ a.isClosed s = true := by
  rw [candidates, ← Array.foldl_toList, (foldl_candidates a a.detached.toList a.noMarks).2]
  rw [noMarks, Marks.has_replicate, Array.size_replicate, Array.mem_toList_iff]
  constructor
  · rintro (h | ⟨hd, hs, -⟩)
    · simp at h
    · exact ⟨hd, hs⟩
  · rintro ⟨hd, hs⟩
    obtain ⟨sc, hsc, -⟩ := isClosed_iff.1 hs
    exact .inr ⟨hd, hs, lt_size_of_scope? hsc⟩

/-- In a sound arena every scope whose block has ended is a candidate. -/
theorem Sound.has_candidates (h : a.Sound outside) :
    a.candidates.has s = true ↔ a.isClosed s = true := by
  rw [has_candidates_iff, and_iff_right_iff_imp]
  intro hs
  obtain ⟨sc, hsc, hclosed⟩ := isClosed_iff.1 hs
  exact h.detached hsc hclosed

/-! ### The roots -/

/-- The references to functions in scopes that are no candidates and in values outside. -/
private def otherReferences (a : Arena) (outside : List Value) (cand : Marks) : List Closure :=
  outside.flatMap Value.closures ++
    ((List.range a.slots.size).filter fun s => !cand.has s).flatMap a.functionsIn

private def innerReferences (a : Arena) (o : SweepOrder) (slots : List ScopeId) : List Closure :=
  slots.flatMap fun s => ((a.scope? s).map fun sc => (o.scope (.bindings s) sc).functions).getD []

private theorem references_perm (a : Arena) (outside : List Value) (cand : Marks) {slots : List ScopeId}
    (hslots : slots.Perm ((List.range a.slots.size).filter cand.has)) :
    (a.references outside).Perm (innerReferences a o slots ++ otherReferences a outside cand) := by
  have hinner : (innerReferences a o slots).Perm
      (((List.range a.slots.size).filter cand.has).flatMap a.functionsIn) := by
    refine hslots.flatMap fun s _ => ?_
    rcases hs : a.scope? s with _ | sc
    · simp [functionsIn, hs]
    · simpa [functionsIn, hs] using functions_scope_perm o (.bindings s) sc
  have hall : ((List.range a.slots.size).flatMap a.functionsIn).Perm
      (((List.range a.slots.size).filter cand.has).flatMap a.functionsIn ++
        ((List.range a.slots.size).filter fun s => !cand.has s).flatMap a.functionsIn) := by
    rw [← List.flatMap_append]
    exact (List.filter_append_perm _ _).symm.flatMap_right _
  rw [references, otherReferences]
  refine ((hall.append_left _).trans ?_).trans (hinner.symm.append_right _)
  exact List.perm_append_comm_assoc _ _ _

private theorem mem_otherReferences {c : Closure} :
    c ∈ otherReferences a outside cand ↔ (∃ v ∈ outside, c ∈ v.closures) ∨
      ∃ s sc, a.scope? s = some sc ∧ ¬ cand.has s = true ∧ c ∈ sc.functions := by
  rw [otherReferences, List.mem_append, List.mem_flatMap, List.mem_flatMap]
  refine or_congr_right ⟨?_, ?_⟩
  · rintro ⟨s, hs, hc⟩
    rcases hsc : a.scope? s with _ | sc
    · simp [functionsIn, hsc] at hc
    · exact ⟨s, sc, hsc, by simpa using (List.mem_filter.1 hs).2, by simpa [functionsIn, hsc] using hc⟩
  · rintro ⟨s, sc, hsc, hs, hc⟩
    refine ⟨s, List.mem_filter.2 ⟨List.mem_range.2 (lt_size_of_scope? hsc), by simpa using hs⟩, ?_⟩
    simpa [functionsIn, hsc] using hc

private theorem count_parents (h : a.Linked outside) {slots : List ScopeId}
    (hslots : slots.Perm ((List.range a.slots.size).filter cand.has)) :
    (slots.filterMap a.parent?).count s = ((a.under s).filter (cand.has · = true)).card := by
  have hnd : slots.Nodup := hslots.nodup_iff.2 (List.nodup_range.filter _)
  rw [List.count_filterMap, List.countP_eq_length_filter,
    ← List.toFinset_card_of_nodup (hnd.filter _)]
  congr 1
  ext t
  rw [List.mem_toFinset, List.mem_filter, hslots.mem_iff, List.mem_filter, Finset.mem_filter,
    mem_under, h.isUnder_iff, beq_iff_eq]
  constructor
  · exact fun h => ⟨h.2, h.1.2⟩
  · intro h
    obtain ⟨sc, hsc, -⟩ := parent?_eq_some.1 h.1
    exact ⟨⟨List.mem_range.2 (lt_size_of_scope? hsc), h.2⟩, h.1⟩

private theorem times_tally {refs : List Closure} {c : Closure} (h : c.id < a.nextClosure) :
    (a.tally refs).times c.id = (refs.map (·.id)).count c.id := by
  rw [tally, Tally.times_ofList, if_pos h]

private theorem times_innerHolds (h : a.Linked outside) {slots : List ScopeId}
    (hslots : slots.Perm ((List.range a.slots.size).filter cand.has))
    (hs : a.scope? s = some sc) (hcand : cand.has s = true) :
    (a.innerHolds o (a.tally (a.references outside)) cand slots).times s =
      ((a.under s).filter (cand.has · = true)).card +
        ((Closure.onlyIn a.nextClosure (innerReferences a o slots) (a.references outside)).map
          (·.scope)).count s := by
  have hin : ∀ c ∈ innerReferences a o slots, c.id < a.nextClosure := fun c hc =>
    h.id_lt c ((references_perm a outside cand hslots).mem_iff.2 (List.mem_append_left _ hc))
  have hfns : ((o.arrange .functions _
        (Closure.distinct a.nextClosure (innerReferences a o slots))).filter fun c =>
          (a.tally (innerReferences a o slots)).times c.id =
            (a.tally (a.references outside)).times c.id).Perm
      (Closure.onlyIn a.nextClosure (innerReferences a o slots) (a.references outside)) := by
    refine ((o.perm _ _ _).filter _).trans (List.Perm.of_eq (List.filter_congr fun c hc => ?_))
    have hlt := hin c (Closure.mem_of_mem_distinct hin hc)
    rw [times_tally hlt, times_tally hlt]
  rw [← count_parents h hslots, ← (hfns.map _).count_eq, ← List.count_append]
  rw [innerHolds, Tally.times_ofList, if_pos (lt_size_of_scope? hs), List.count_filter hcand]
  rfl

/-- A candidate is a root exactly when it is held from outside the candidates: by a handle, by a
scope under it that is no candidate, or by a function to which something else refers. -/
theorem innerHolds_lt_holds_iff (h : a.Linked outside) {slots : List ScopeId}
    (hslots : slots.Perm ((List.range a.slots.size).filter cand.has))
    (hs : a.scope? s = some sc) (hcand : cand.has s = true) :
    (a.innerHolds o (a.tally (a.references outside)) cand slots).times s <
        a.holds (a.functionHolds (a.references outside)) s ↔
      0 < sc.handles ∨ (∃ t, a.parent? t = some s ∧ ¬ cand.has t = true) ∨
        ∃ c ∈ otherReferences a outside cand, c.scope = s := by
  have hperm := references_perm (o := o) a outside cand hslots
  have hholds : a.holds (a.functionHolds (a.references outside)) s = sc.handles + (a.under s).card +
      ((Closure.distinct a.nextClosure (a.references outside)).map (·.scope)).count s := by
    have hmade : (Closure.distinct a.nextClosure (a.references outside)).filter a.isMade =
        Closure.distinct a.nextClosure (a.references outside) :=
      List.filter_eq_self.2 fun c hc => h.made (Closure.mem_of_mem_distinct h.id_lt hc)
    rw [holds, hs]
    dsimp only
    rw [(h.children s sc hs).2, functionHolds, hmade, Tally.times_ofList, if_pos (lt_size_of_scope? hs)]
  have hle := Closure.count_onlyIn_le hperm h.id_lt h.agree s
  have hlt := Closure.count_onlyIn_lt_iff hperm h.id_lt h.agree s
  have hcle := Finset.card_filter_le (a.under s) (cand.has · = true)
  have hclt : ((a.under s).filter (cand.has · = true)).card < (a.under s).card ↔
      ∃ t, a.parent? t = some s ∧ ¬ cand.has t = true := by
    rw [hcle.lt_iff_ne, Ne, Finset.card_filter_eq_iff]
    simp [h.isUnder_iff]
  rw [times_innerHolds h hslots hs hcand, hholds, ← hlt, ← hclt]
  omega

/-! ### The sweep -/

private theorem mem_candidateSlots (h : a.Sound outside) :
    s ∈ a.candidateSlots ↔ a.isClosed s = true := by
  rw [candidateSlots, List.mem_filter, h.has_candidates, and_iff_right_iff_imp]
  intro hs
  obtain ⟨sc, hsc, -⟩ := isClosed_iff.1 hs
  exact List.mem_range.2 (lt_size_of_scope? hsc)

private theorem open_of_not_candidate (h : a.Sound outside) (hs : a.scope? s = some sc)
    (hc : ¬ a.candidates.has s = true) : sc.isOpen = true := by
  rw [h.has_candidates, isClosed_iff] at hc
  exact Bool.not_eq_false _ ▸ fun hclosed => hc ⟨sc, hs, hclosed⟩

/-- The roots are the candidates to which a link or a handle leads from elsewhere. -/
private theorem mem_roots (h : a.Sound outside) (hs : a.scope? s = some sc)
    (hclosed : sc.isOpen = false) :
    s ∈ a.roots o outside ↔
      0 < sc.handles ∨ (∃ t, a.parent? t = some s ∧ ¬ a.candidates.has t = true) ∨
        ∃ c ∈ otherReferences a outside a.candidates, c.scope = s := by
  have hc : a.isClosed s = true := isClosed_iff.2 ⟨sc, hs, hclosed⟩
  rw [← innerHolds_lt_holds_iff (o := o) h.toLinked (o.perm .counted _ _) hs (h.has_candidates.2 hc),
    roots, List.mem_filter, (o.perm .roots _ _).mem_iff, mem_candidateSlots h, decide_eq_true_eq]
  exact and_iff_right hc

private theorem closed_of_mem_roots (h : a.Sound outside) (hs : s ∈ a.roots o outside) :
    ∃ sc, a.scope? s = some sc ∧ sc.isOpen = false := by
  have hmem := (o.perm .roots _ _).mem_iff.1 (List.mem_filter.1 hs).1
  exact isClosed_iff.1 ((mem_candidateSlots h).1 hmem)

private theorem reaches_of_mem_roots (h : a.Sound outside) (hs : s ∈ a.roots o outside) :
    a.Reaches outside s := by
  obtain ⟨sc, hsc, hclosed⟩ := closed_of_mem_roots h hs
  rcases (mem_roots h hsc hclosed).1 hs with hpos | ⟨t, ht, hcand⟩ | ⟨c, hc, rfl⟩
  · exact .handle hsc hpos
  · obtain ⟨st, hst, hp⟩ := parent?_eq_some.1 ht
    exact .link (.running hst (open_of_not_candidate h hst hcand)) hst (Scope.mem_links.2 (.inl hp))
  · rcases mem_otherReferences.1 hc with ⟨v, hv, hc⟩ | ⟨t, st, hst, hcand, hc⟩
    · exact .value hv (Value.mem_scopes.2 ⟨c, hc, rfl⟩)
    · exact .link (.running hst (open_of_not_candidate h hst hcand)) hst
        (Scope.mem_links.2 (.inr ⟨c, hc, rfl⟩))

/-- A link from a scope that is no candidate makes a candidate a root. -/
private theorem mem_roots_of_link (h : a.Sound outside) (hs : a.scope? s = some sc)
    (hclosed : sc.isOpen = false) {u : ScopeId} {su : Scope} (hu : a.scope? u = some su)
    (hcand : ¬ a.candidates.has u = true) (hl : s ∈ su.links) : s ∈ a.roots o outside := by
  rw [mem_roots h hs hclosed]
  rcases Scope.mem_links.1 hl with hp | ⟨c, hc, hcs⟩
  · exact .inr (.inl ⟨u, parent?_eq_some.2 ⟨su, hu, hp⟩, hcand⟩)
  · exact .inr (.inr ⟨c, mem_otherReferences.2 (.inr ⟨u, su, hu, hcand, hc⟩), hcs⟩)

private theorem survivors_spec (h : a.Sound outside) (o : SweepOrder) :
    (∀ s ∈ a.roots o outside, (a.survivors o outside).has s = true) ∧
    ∀ s t sc, (a.survivors o outside).has s = true → a.scope? s = some sc → t ∈ sc.links →
      a.candidates.has t = true → (a.survivors o outside).has t = true := by
  have hlt : ∀ s ∈ a.roots o outside, s < a.slots.size := by
    intro s hs
    obtain ⟨sc, hsc, -⟩ := closed_of_mem_roots h hs
    exact lt_size_of_scope? hsc
  have hhas : ∀ s, (a.noMarks.addAll (a.roots o outside)).has s = true ↔ s ∈ a.roots o outside := by
    intro s
    rw [Marks.has_addAll, noMarks, Marks.has_replicate, Array.size_replicate]
    simp only [Bool.false_eq_true, false_or, and_iff_left_iff_imp]
    exact hlt s
  have hnd : (a.roots o outside).Nodup :=
    ((o.perm .roots _ _).nodup_iff.2 (List.nodup_range.filter _)).filter _
  have hfuel := length_add_unmarked_le a.candidates hnd (by simpa using hlt)
    (fun s hs => (hhas s).2 hs)
  rw [size_candidates] at hfuel
  obtain ⟨hkeep, hclosed⟩ := reach_closed (o := o) a.slots.size (a.roots o outside) _
    (by simp [noMarks]) hfuel (fun s t sc hs hp => absurd ((hhas s).1 hs) hp)
  exact ⟨fun s hs => hkeep s ((hhas s).2 hs), hclosed⟩

/-- The sweep keeps a candidate exactly when it can be reached. -/
theorem Sound.survivors_iff (h : a.Sound outside) (hc : a.isClosed s = true) :
    (a.survivors o outside).has s = true ↔ a.Reaches outside s := by
  obtain ⟨hroots, hclosed⟩ := survivors_spec h o
  constructor
  · intro hs
    refine reach_subset (a.Reaches outside) (fun s t sc hs hsc hl _ => .link hs hsc hl) _ _ _
      (by simp [noMarks]) (fun s hs => reaches_of_mem_roots h hs) (fun s hs => ?_) hs
    rw [Marks.has_addAll, noMarks, Marks.has_replicate] at hs
    exact reaches_of_mem_roots h (hs.resolve_left Bool.false_ne_true).1
  · intro hs
    obtain ⟨sc, hsc, hcl⟩ := isClosed_iff.1 hc
    induction hs generalizing sc with
    | running hs hopen =>
      rw [hsc] at hs
      cases hs
      simp [hcl] at hopen
    | handle hs hpos =>
      rw [hsc] at hs
      cases hs
      exact hroots _ ((mem_roots h hsc hcl).2 (.inl hpos))
    | value hv hs =>
      obtain ⟨c, hcv, hcs⟩ := Value.mem_scopes.1 hs
      exact hroots _ ((mem_roots h hsc hcl).2
        (.inr (.inr ⟨c, mem_otherReferences.2 (.inl ⟨_, hv, hcv⟩), hcs⟩)))
    | @link u t su hu hsu hl ih =>
      by_cases hcand : a.candidates.has u = true
      · -- A link between candidates: what was followed marks its targets.
        have hcu := h.has_candidates.1 hcand
        obtain ⟨su', hsu', hclu⟩ := isClosed_iff.1 hcu
        exact hclosed u t su (ih hcu su' hsu' hclu) hsu hl (h.has_candidates.2 hc)
      · exact hroots t (mem_roots_of_link h hsc hcl hsu hcand hl)

/-- The sweep frees the candidates that do not survive. -/
theorem frees_sweepBy (a : Arena) (o : SweepOrder) (outside : List Value) :
    Frees a (a.sweepBy o outside)
      (· ∈ (o.arrange .freed _ a.candidateSlots).filter (!(a.survivors o outside).has ·)) := by
  have hf := frees_foldl_vacate a
    ((o.arrange .freed _ a.candidateSlots).filter (!(a.survivors o outside).has ·))
  rw [sweepBy, List.partition_eq_filter_filter]
  exact ⟨hf.size, hf.nextClosure, hf.emptied, hf.kept,
    fun h => ⟨(hf.free h).nodup, (hf.free h).mem_iff⟩, hf.children⟩

/-- The sweep frees the scopes that cannot be reached and no others, and leaves the arena sound. -/
theorem Sound.sweepBy (h : a.Sound outside) (o : SweepOrder) :
    Frees a (a.sweepBy o outside) (fun s => (a.scope? s).isSome ∧ ¬ a.Reaches outside s) ∧
      (a.sweepBy o outside).Sound outside := by
  have hgone : ∀ s, (a.scope? s).isSome ∧ ¬ a.Reaches outside s ↔
      s ∈ (o.arrange .freed _ a.candidateSlots).filter (!(a.survivors o outside).has ·) := by
    intro s
    rw [List.mem_filter, (o.perm .freed _ _).mem_iff, mem_candidateSlots h, Bool.not_eq_true',
      ← Bool.not_eq_true]
    constructor
    · rintro ⟨hs, hr⟩
      obtain ⟨sc, hsc⟩ := Option.isSome_iff_exists.1 hs
      have hc : a.isClosed s = true :=
        isClosed_iff.2 ⟨sc, hsc, Bool.eq_false_iff.2 fun hopen => hr (.running hsc hopen)⟩
      exact ⟨hc, fun hm => hr ((h.survivors_iff hc).1 hm)⟩
    · rintro ⟨hc, hm⟩
      obtain ⟨sc, hsc, -⟩ := isClosed_iff.1 hc
      exact ⟨by simp [hsc], fun hr => hm ((h.survivors_iff hc).2 hr)⟩
  have hframe := (frees_sweepBy a o outside).congr hgone
  refine ⟨hframe, h.toLinked.frees hframe (garbage_unreached a outside), hframe.free h.free, ?_⟩
  intro s sc hs hclosed
  obtain ⟨hng, n, hold⟩ := hframe.scope?_eq_some hs
  have hc : a.isClosed s = true := isClosed_iff.2 ⟨_, hold, hclosed⟩
  have hr : a.Reaches outside s := not_not.1 fun hn => hng ⟨by simp [hold], hn⟩
  rw [Arena.sweepBy, List.partition_eq_filter_filter]
  simp only [List.mem_toArray, List.mem_filter]
  exact ⟨(o.perm .freed _ _).mem_iff.2 ((mem_candidateSlots h).2 hc), (h.survivors_iff hc).2 hr⟩

/-! ### Closing a scope -/

def close (a : Arena) (s : ScopeId) : Arena := a.modify s fun sc => { sc with isOpen := false }

theorem parent?_close (a : Arena) (s t : ScopeId) : (a.close s).parent? t = a.parent? t :=
  parent?_modify a s t fun _ => rfl

theorem Sound.linked_close (h : a.Sound outside) (s : ScopeId) : (a.close s).Linked outside :=
  h.toLinked.modify s ⟨⟨fun _ => rfl, fun _ => rfl, fun _ => rfl⟩, fun _ _ => id⟩
    (fun sc hs _ hc => mem_references.2 (.inr ⟨s, sc, hs, hc⟩))

/-- Of the scopes whose block has ended, only the one just closed may be missing on the list. -/
private theorem detached_close (h : a.Sound outside) (ht : (a.close s).scope? t = some sc)
    (hclosed : sc.isOpen = false) (hts : t ≠ s) : t ∈ (a.close s).detached := by
  rw [close, scope?_modify, if_neg (Ne.symm hts)] at ht
  exact h.detached ht hclosed

def detach (a : Arena) (s : ScopeId) : Arena :=
  { a.close s with detached := (a.close s).detached.push s }

@[simp] theorem scope?_detach (a : Arena) (s t : ScopeId) : (a.detach s).scope? t = (a.close s).scope? t :=
  rfl

theorem Sound.detach (h : a.Sound outside) (s : ScopeId) : (a.detach s).Sound outside := by
  have hlinked := h.linked_close s
  have hfree : (a.close s).FreeExact := h.free.modify s _
  refine ⟨⟨hlinked.under, hlinked.children, hlinked.made, hlinked.id_lt, hlinked.agree⟩,
    ⟨hfree.nodup, hfree.mem_iff⟩, fun {t sc} ht hclosed => ?_⟩
  rw [Arena.detach, Array.mem_push]
  by_cases hts : t = s
  · exact .inr hts
  · exact .inl (detached_close h ht hclosed hts)

theorem releaseBy_of_some (hs : a.scope? s = some sc) :
    a.releaseBy o outside s =
      if (a.close s).isHeld outside s sc then
        if (a.detach s).nextSweep ≤ (a.detach s).detached.size then (a.detach s).sweepBy o outside
        else a.detach s
      else freeUpward outside (a.close s).slots.size (a.close s) s := by
  rw [Arena.releaseBy, hs]
  rfl

/-- Closing a scope frees garbage only, and leaves the arena sound. -/
theorem Sound.releaseBy (h : a.Sound outside) (hs : a.scope? s = some sc) (o : SweepOrder) :
    ∃ gone, (a.close s).Garbage outside gone ∧ Frees (a.close s) (a.releaseBy o outside s) gone ∧
      (a.releaseBy o outside s).Sound outside := by
  have hlinked := h.linked_close s
  have hfree : (a.close s).FreeExact := h.free.modify s _
  have hsc : (a.close s).scope? s = some { sc with isOpen := false } := by simp [close, hs]
  rw [releaseBy_of_some hs]
  by_cases hheld : (a.close s).isHeld outside s sc = true
  · rw [if_pos hheld]
    have hd := h.detach s
    split
    · obtain ⟨hf, hsound⟩ := hd.sweepBy o
      have hg := garbage_unreached (a.detach s) outside
      exact ⟨_, ⟨hg.closed, hg.value, hg.link⟩, ⟨hf.size, hf.nextClosure, hf.emptied, hf.kept,
        fun _ => hsound.free, fun _ => hsound.children⟩, hsound⟩
    · have hf := Frees.refl (a.close s)
      exact ⟨_, ⟨fun h => h.elim, fun _ _ => id, fun _ _ _ => id⟩, ⟨hf.size, hf.nextClosure,
        hf.emptied, hf.kept, fun _ => hd.free, fun _ => hd.children⟩, hd⟩
  · rw [if_neg hheld]
    obtain ⟨n, hn⟩ := Nat.exists_eq_succ_of_ne_zero
      (Nat.ne_of_gt (Nat.zero_lt_of_lt (lt_size_of_scope? hsc)))
    obtain ⟨gone, hgs, hg, hf⟩ := frees_freeUpward n hlinked hsc rfl (Bool.eq_false_iff.2 hheld)
    rw [← Nat.succ_eq_add_one, ← hn] at hf
    refine ⟨gone, hg, hf, hlinked.frees hf hg, hf.free hfree, fun {t sc'} ht hclosed => ?_⟩
    obtain ⟨hng, m, hold⟩ := hf.scope?_eq_some ht
    rw [detached_freeUpward]
    exact detached_close h hold hclosed (fun hts => hng (hts ▸ hgs))

end Sluice.Arena
