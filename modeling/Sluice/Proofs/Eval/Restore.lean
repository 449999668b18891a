import Sluice.Proofs.Arena.Chain
import Sluice.Proofs.Arena.Opening
import Sluice.Proofs.Eval.Rules

/-! Evaluation puts its frame back. Whatever a run ends in, the innermost scope and the depth of calls
are what they were, and of the scopes that it opened only those of modules are open. -/
namespace Sluice

variable {S A : ScopeId → Prop} {L : Nat → Prop} {m m' : Machine}

/-- Calls are not too deep, the limit is one of `L`, and the scopes of `S` are open. -/
structure Settled (S : ScopeId → Prop) (L : Nat → Prop) (m : Machine) : Prop where
  free : m.arena.FreeExact
  depth : m.depth ≤ m.maxDepth
  limit : L m.maxDepth
  stay : ∀ s, S s → m.arena.isOpen s = true

/-- The frame is put back, and no scopes have been opened and left open but those of `A`. -/
structure Restored (A : ScopeId → Prop) (m m' : Machine) : Prop where
  current : m'.current = m.current
  depth : m'.depth = m.depth
  maxDepth : m'.maxDepth = m.maxDepth
  opened : ∀ s, m.arena.isOpen s = true → m'.arena.isOpen s = true
  closed : ∀ s, ¬ A s → m'.arena.isOpen s = true → m.arena.isOpen s = true

/-- A change that opens and closes nothing. -/
private theorem quiet (hm : Settled S L m) (hcurrent : m'.current = m.current)
    (hdepth : m'.depth = m.depth) (hmax : m'.maxDepth = m.maxDepth) (hfree : m'.arena.FreeExact)
    (hopen : ∀ s, m'.arena.isOpen s = m.arena.isOpen s) : Settled S L m' ∧ Restored A m m' := by
  refine ⟨⟨hfree, ?_, ?_, ?_⟩, ⟨hcurrent, hdepth, hmax, ?_, ?_⟩⟩
  · rw [hdepth, hmax]
    exact hm.depth
  · rw [hmax]
    exact hm.limit
  · intro s hs
    rw [hopen]
    exact hm.stay s hs
  · intro s hs
    rwa [hopen]
  · intro s _ hs
    rwa [hopen] at hs

private theorem define_quiet (hm : Settled S L m) (s : ScopeId) (name : String) (b : Binding) :
    Settled S L { m with arena := m.arena.define s name b } ∧
      Restored A m { m with arena := m.arena.define s name b } :=
  quiet hm rfl rfl rfl (hm.free.modify _ _) fun _ => Arena.isOpen_define ..

theorem Machine.arena_makeFn (m : Machine) (name : Option String) (params : List Param) (body : FnBody) :
    (m.makeFn name params body).2.arena =
      (m.arena.makeClosure m.current name (params.map (·.name.text)) body).2.hold m.current := rfl

theorem Machine.free_makeFn (h : m.arena.FreeExact) (name : Option String) (params : List Param)
    (body : FnBody) : (m.makeFn name params body).2.arena.FreeExact := by
  rw [m.arena_makeFn]
  exact (h.makeClosure _ _ _ _).modify _ _

theorem Machine.isOpen_makeFn (m : Machine) (name : Option String) (params : List Param) (body : FnBody)
    (s : ScopeId) : (m.makeFn name params body).2.arena.isOpen s = m.arena.isOpen s := by
  rw [m.arena_makeFn, Arena.isOpen_hold, Arena.isOpen_makeClosure]

theorem Machine.arena_enter (m : Machine) (parent : ScopeId) :
    (m.enter parent).arena = (m.arena.push (some parent)).2 := rfl

private theorem settled_enter (hm : Settled S L m) (parent : ScopeId) : Settled S L (m.enter parent) where
  free := (hm.free.push (some parent)).2.2.2
  depth := hm.depth
  limit := hm.limit
  stay := by
    intro s hs
    rw [m.arena_enter, hm.free.isOpen_push, hm.stay s hs, Bool.or_true]

private theorem settled_exit (hm : Settled S L m) (parent : ScopeId) (hm' : Settled S L m')
    (hr : Restored A (m.enter parent) m') :
    Settled S L (m'.exit (m.enter parent).current m.current) ∧
      Restored A m (m'.exit (m.enter parent).current m.current) := by
  have hnew : ∀ s, m.arena.isOpen s = true → s ≠ (m.arena.push (some parent)).1 := by
    rintro s hs rfl
    rw [hm.free.isOpen_new] at hs
    exact Bool.false_ne_true hs
  have hrelease : ∀ s, (m'.exit (m.enter parent).current m.current).arena.isOpen s =
      (decide (s ≠ (m.arena.push (some parent)).1) && m'.arena.isOpen s) :=
    fun s => Arena.isOpen_releaseBy m'.arena .plain [] _ s
  refine ⟨⟨hm'.free.releaseBy _ _ _, hm'.depth, hm'.limit, ?_⟩, ⟨rfl, hr.depth, hr.maxDepth, ?_, ?_⟩⟩
  · intro s hs
    rw [hrelease, hm'.stay s hs]
    simpa using hnew s (hm.stay s hs)
  · intro s hs
    have hentered : (m.enter parent).arena.isOpen s = true := by
      rw [m.arena_enter, hm.free.isOpen_push, hs, Bool.or_true]
    rw [hrelease, hr.opened s hentered]
    simpa using hnew s hs
  · intro s hA hs
    rw [hrelease, Bool.and_eq_true, decide_eq_true_eq] at hs
    have hentered := hr.closed s hA hs.2
    rw [m.arena_enter, hm.free.isOpen_push, Bool.or_eq_true, decide_eq_true_eq] at hentered
    exact hentered.resolve_left hs.1

/-- Evaluation respects its frame. -/
theorem frame_restored (S A : ScopeId → Prop) (L : Nat → Prop) :
    Frame (Settled S L) (Restored A) (fun m => A (m.arena.push (some m.root)).1) where
  refl := fun _ => ⟨rfl, rfl, rfl, fun _ hs => hs, fun _ _ hs => hs⟩
  trans := by
    intro m₁ m₂ m₃ h h'
    exact ⟨h'.current.trans h.current, h'.depth.trans h.depth, h'.maxDepth.trans h.maxDepth,
      fun s hs => h'.opened s (h.opened s hs), fun s hA hs => h.closed s hA (h'.closed s hA hs)⟩
  bind := fun name b hm => define_quiet hm _ name b
  assign := by
    intro m name v arena hm hassign
    obtain ⟨owner, old, -, rfl⟩ := Arena.assign_eq_ok hassign
    exact define_quiet hm owner name _
  makeFn := by
    intro m name params body hm
    exact quiet hm rfl rfl rfl (Machine.free_makeFn hm.free name params body)
      (Machine.isOpen_makeFn m name params body)
  register := fun _ hm => quiet hm rfl rfl rfl hm.free fun _ => rfl
  world := fun _ hm => quiet hm rfl rfl rfl hm.free fun _ => rfl
  enter := fun parent hm => settled_enter hm parent
  exit := fun parent hm hm' hr => settled_exit hm parent hm' hr
  enterModule := by
    intro m modules hm _
    obtain ⟨hfree, hdepth, hlimit, hstay⟩ := settled_enter hm m.root
    exact ⟨hfree, hdepth, hlimit, hstay⟩
  exitModule := by
    intro m m' modules hm hA hm' hr
    refine ⟨⟨hm'.free, hm'.depth, hm'.limit, hm'.stay⟩, ⟨rfl, hr.depth, hr.maxDepth, ?_, ?_⟩⟩
    · intro s hs
      refine hr.opened s ?_
      show (m.arena.push (some m.root)).2.isOpen s = true
      rw [hm.free.isOpen_push, hs, Bool.or_true]
    · intro s hs hs'
      have hentered : (m.arena.push (some m.root)).2.isOpen s = true := hr.closed s hs hs'
      rw [hm.free.isOpen_push, Bool.or_eq_true, decide_eq_true_eq] at hentered
      refine hentered.resolve_left ?_
      rintro rfl
      exact hs hA
  enterCall := by
    intro m hm hlt
    exact ⟨hm.free, hlt, hm.limit, hm.stay⟩
  exitCall := by
    intro m m' hm hlt hm' hr
    have hdepth : m.depth ≤ m'.maxDepth := by
      rw [hr.maxDepth]
      exact hm.depth
    exact ⟨⟨hm'.free, hdepth, hm'.limit, hm'.stay⟩,
      ⟨hr.current, rfl, hr.maxDepth, hr.opened, hr.closed⟩⟩

private theorem freeExact_foldl_define {a : Arena} (h : a.FreeExact) (s : ScopeId)
    (l : List (String × Binding)) : (l.foldl (fun a e => a.define s e.1 e.2) a).FreeExact := by
  induction l generalizing a with
  | nil => exact h
  | cons e l ih => exact ih (h.modify s _)

theorem settled_start (args : List String) (maxDepth : Nat) (w : World) :
    Settled (fun _ => False) (fun _ => True) (.start args maxDepth w) where
  free := freeExact_foldl_define (Arena.freeExact_empty.push none).2.2.2 _ _
  depth := Nat.zero_le _
  limit := trivial
  stay := fun _ => False.elim

theorem Machine.Reachable.settled (hm : m.Reachable) :
    Settled (fun _ => False) (fun _ => True) m :=
  (frame_restored _ (fun _ => True) _).reachable (fun _ _ => trivial) settled_start hm

/-- The job executes a `module` statement, for which slot `s` is given out. -/
def OpensModule (s : ScopeId) : Job → Machine → Prop
  | .stmt (.submodule _ _ _), m => (m.arena.push (some m.root)).1 = s
  | _, _ => False

/-- Unless a `module` statement opens slot `s`, it is open at the end only if it was at the start. -/
private theorem closed_of_not_meets {s : ScopeId} {n : Nat} (hm : Settled S L m) (e : Expr)
    (h : ¬ Meets (OpensModule s) (·.expr e) n m)
    (hs : (((Runner.ofFuel n).expr e).after m).arena.isOpen s = true) : m.arena.isOpen s = true := by
  have hwatch : (fun j m => ¬ OpensModule s j m) =
      Opens fun m => (m.arena.push (some m.root)).1 ≠ s := by
    funext j m
    cases j with
    | stmt stmt => cases stmt <;> simp [OpensModule, Opens]
    | _ => simp [OpensModule, Opens]
  have hsame := Classical.not_not.1 h .outOfFuel
  rw [hwatch] at hsame
  have hrelated := (frame_restored S (· ≠ s) L).related_opens .outOfFuel n
  obtain ⟨-, -, hr⟩ := hrelated.expr e () () m hm
  rw [Eval.after_congr hsame] at hr
  exact hr.closed s (fun hne => hne rfl) hs

/-- Evaluation puts its frame back, whatever it ends in: the innermost scope and the depth of calls are
what they were, the scopes that were open have been open all the time, a scope that was not open is not
open now unless it was opened by a `module` statement, and at no point were calls too deep. -/
theorem expr_restores_frame (hm : m.Reachable) (n : Nat) (e : Expr) :
    (((Runner.ofFuel n).expr e).after m).current = m.current ∧
      (((Runner.ofFuel n).expr e).after m).depth = m.depth ∧
      (∀ s, m.arena.isOpen s = true → (((Runner.ofFuel n).expr e).after m).arena.isOpen s = true ∧
        Always (fun _ m₁ => m₁.arena.isOpen s = true) (·.expr e) n m) ∧
      (∀ s, (((Runner.ofFuel n).expr e).after m).arena.isOpen s = true →
        m.arena.isOpen s = true ∨ Meets (OpensModule s) (·.expr e) n m) ∧
      Always (fun _ m₁ => m₁.depth ≤ m.maxDepth) (·.expr e) n m := by
  have hsettled : ∀ {S : ScopeId → Prop}, (∀ s, S s → m.arena.isOpen s = true) →
      Settled S (· = m.maxDepth) m := fun hS => ⟨hm.settled.free, hm.settled.depth, rfl, hS⟩
  have hany : ∀ S, Frame (Settled S (· = m.maxDepth)) (Restored fun _ => True) fun _ => True := fun S =>
    frame_restored S (fun _ => True) _
  have hplain := hsettled (S := fun _ => False) fun _ => False.elim
  have hdone := ((hany _).keeps (fun _ _ => trivial) (.expr e) n hplain).2
  refine ⟨hdone.current, hdone.depth, fun s hs => ⟨hdone.opened s hs, ?_⟩, fun s hs => ?_, ?_⟩
  · exact (hany (· = s)).always (fun _ m₁ hm₁ => hm₁.stay s rfl) (fun _ _ => trivial) (.expr e) n
      (hsettled fun t ht => ht ▸ hs)
  · refine Classical.or_iff_not_imp_right.2 fun hmeets => ?_
    exact closed_of_not_meets hm.settled e hmeets hs
  · exact (hany _).always (fun _ m₁ hm₁ => hm₁.depth.trans_eq hm₁.limit) (fun _ _ => trivial) (.expr e)
      n hplain

/-- A call of a function whose body is a `module` statement. -/
def moduleCall : Expr :=
  .call (.lambda [] none ⟨[.submodule ⟨"shapes", default⟩ ⟨[], default⟩ default], default⟩ default) []
    default

/-- The call puts the frame back and leaves one scope open, in slot 2; it was opened for the module. -/
theorem moduleCall_restores_frame :
    (((Runner.ofFuel 5).expr moduleCall).after (.start [] 1 {})).current = 0 ∧
      (((Runner.ofFuel 5).expr moduleCall).after (.start [] 1 {})).arena.isOpen 2 = true ∧
      Meets (OpensModule 2) (·.expr moduleCall) 5 (.start [] 1 {}) := by
  obtain ⟨hcurrent, -, -, hmeets, -⟩ := expr_restores_frame (.start [] 1 {}) 5 moduleCall
  have hopen : (((Runner.ofFuel 5).expr moduleCall).after (.start [] 1 {})).arena.isOpen 2 = true := by
    decide +kernel
  refine ⟨hcurrent, hopen, (hmeets 2 hopen).resolve_left ?_⟩
  decide +kernel

end Sluice
