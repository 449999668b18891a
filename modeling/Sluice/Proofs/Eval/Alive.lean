import Sluice.Proofs.Arena.Rooted
import Sluice.Proofs.Eval.Discipline

/-! Running machines. The scopes of all functions that were made are held to the end of a run, and the
innermost scope is open; so a machine is never left without a scope that it needs. What was rooted when a
block began is rooted when it has ended, with the same bindings unless they were changed. -/
namespace Sluice

namespace Machine

open Arena

variable {known known' : List Closure} {m m' : Machine} {parent s : ScopeId} {name x : String}

/-- A machine that runs, where `known` are the functions made so far. -/
structure Alive (known : List Closure) (m : Machine) : Prop where
  sound : m.arena.Sound (known.map .fn)
  held : ∀ c ∈ known, m.arena.isHandled c.scope = true
  current : m.arena.isOpen m.current = true
  root : m.arena.isOpen m.root = true

structure Lasts (known known' : List Closure) (m m' : Machine) : Prop where
  known : known ⊆ known'
  current : m'.current = m.current
  root : m'.root = m.root
  steady : Steady m.arena m'.arena

namespace Lasts

theorem refl (known : List Closure) (m : Machine) : Lasts known known m m :=
  ⟨List.Subset.refl _, rfl, rfl, .refl _⟩

theorem trans {known'' : List Closure} {m'' : Machine} (h : Lasts known known' m m')
    (h' : Lasts known' known'' m' m'') : Lasts known known'' m m'' :=
  ⟨List.Subset.trans h.known h'.known, h'.current.trans h.current, h'.root.trans h.root, h.steady.trans h'.steady⟩

end Lasts

theorem mem_references_of_known {a : Arena} {c : Closure} (hc : c ∈ known) :
    c ∈ a.references (known.map .fn) :=
  mem_references.2 (.inl ⟨.fn c, List.mem_map_of_mem hc, by simp [Value.closures]⟩)

namespace Alive

theorem isSome_current (h : m.Alive known) : (m.arena.scope? m.current).isSome :=
  isSome_of_isOpen h.current

theorem rooted_current (h : m.Alive known) : m.arena.Rooted m.current := .opened h.current

theorem rooted_root (h : m.Alive known) : m.arena.Rooted m.root := .opened h.root

theorem rooted_known (h : m.Alive known) {c : Closure} (hc : c ∈ known) : m.arena.Rooted c.scope :=
  .handled (h.held c hc)

theorem isSome_of_rooted (h : m.Alive known) (hs : m.arena.Rooted s) : (m.arena.scope? s).isSome :=
  h.sound.isSome_of_rooted hs

/-- A change of the arena that keeps all scopes where they are. -/
theorem of_steady (h : m.Alive known) (hl : Lasts known known' m m')
    (hsound : m'.arena.Sound (known'.map .fn)) (hheld : ∀ c ∈ known', m'.arena.isHandled c.scope = true) :
    m'.Alive known' where
  sound := hsound
  held := hheld
  current := hl.current ▸ hl.steady.opened _ h.current
  root := hl.root ▸ hl.steady.opened _ h.root

theorem idle (h : m.Alive known) (m' : Machine) (harena : m'.arena = m.arena)
    (hcurrent : m'.current = m.current) (hroot : m'.root = m.root) : m'.Alive known ∧ Lasts known known m m' := by
  have hl : Lasts known known m m' := ⟨List.Subset.refl _, hcurrent, hroot, harena ▸ .refl _⟩
  refine ⟨h.of_steady hl ?_ ?_, hl⟩
  · rw [harena]
    exact h.sound
  · rw [harena]
    exact h.held

/-- A binding is made or changed in some scope. -/
theorem define (h : m.Alive known) (s : ScopeId) (name : String) {b : Binding}
    (hb : ∀ c ∈ b.value.closures, c ∈ known) :
    Alive known { m with arena := m.arena.define s name b } ∧
      Lasts known known m { m with arena := m.arena.define s name b } := by
  have hl : Lasts known known m { m with arena := m.arena.define s name b } :=
    ⟨List.Subset.refl _, rfl, rfl, steady_define _ _ _ _⟩
  refine ⟨h.of_steady hl ?_ fun c hc => hl.steady.handled _ (h.held c hc), hl⟩
  exact h.sound.define s name fun c hc => mem_references_of_known (hb c hc)

theorem defineAll {bs : List (String × Value)} (h : m.Alive known)
    (hbs : ∀ b ∈ bs, ∀ c ∈ b.2.closures, c ∈ known) :
    Alive known (m.defineAll bs) ∧ Lasts known known m (m.defineAll bs) := by
  induction bs generalizing m with
  | nil => exact ⟨h, .refl known m⟩
  | cons b bs ih =>
    obtain ⟨hfirst, hlast⟩ := h.define m.current b.1 (b := ⟨b.2, false, false⟩)
      (hbs b List.mem_cons_self)
    obtain ⟨hrest, hlast'⟩ := ih hfirst fun b' hb' => hbs b' (List.mem_cons_of_mem _ hb')
    exact ⟨hrest, hlast.trans hlast'⟩

theorem makeFn (h : m.Alive known) (name : Option String) (params : List Param) (body : FnBody) :
    Alive (known ++ [(m.arena.makeClosure m.current name (params.map (·.name.text)) body).1])
        (m.makeFn name params body).2 ∧
      Lasts known (known ++ [(m.arena.makeClosure m.current name (params.map (·.name.text)) body).1]) m
        (m.makeFn name params body).2 := by
  have hcapture : Steady m.arena
      (m.arena.makeClosure m.current name (params.map (·.name.text)) body).2 :=
    let hmod := steady_modify m.arena m.current (f := Scope.noteFn m.arena.nextClosure)
      (fun _ => rfl) (fun _ => rfl) fun _ => Nat.le_refl _
    ⟨hmod.size, hmod.opened, hmod.handled, hmod.parent⟩
  have hhold : Steady (m.arena.makeClosure m.current name (params.map (·.name.text)) body).2
      (m.makeFn name params body).2.arena :=
    steady_modify _ m.current (fun _ => rfl) (fun _ => rfl) fun _ => Nat.le_add_right _ 1
  have hl : Lasts known (known ++ [(m.arena.makeClosure m.current name (params.map (·.name.text))
      body).1]) m (m.makeFn name params body).2 :=
    ⟨List.subset_append_left _ _, rfl, rfl, hcapture.trans hhold⟩
  refine ⟨h.of_steady hl ?_ fun c hc => ?_, hl⟩
  · have hmade := h.sound.makeClosure h.isSome_current name (params.map (·.name.text)) body
    rw [List.map_append]
    exact hmade.hold m.current
  · rcases List.mem_append.1 hc with hc | hc
    · exact hl.steady.handled _ (h.held c hc)
    · -- the new function holds the innermost scope
      rw [List.mem_singleton.1 hc]
      exact isHandled_hold (isSome_of_isOpen (hcapture.opened _ h.current))

/-! ### Blocks -/

theorem local?_makeFn (m : Machine) (name : Option String) (params : List Param) (body : FnBody)
    (s : ScopeId) : (m.makeFn name params body).2.arena.local? s = m.arena.local? s := by
  have hcapture : (m.arena.makeClosure m.current name (params.map (·.name.text)) body).2.local? s =
      m.arena.local? s :=
    local?_modify m.arena m.current s (f := Scope.noteFn m.arena.nextClosure) fun _ => rfl
  rw [← hcapture]
  exact local?_modify _ m.current s (f := fun sc => { sc with handles := sc.handles + 1 }) fun _ => rfl

theorem vacant_enter (h : m.Alive known) (parent : ScopeId) :
    m.arena.scope? (m.enter parent).current = none := (h.sound.free.push (some parent)).1

theorem enter (h : m.Alive known) (hparent : (m.arena.scope? parent).isSome) :
    Alive known (m.enter parent) ∧ Steady m.arena (m.enter parent).arena := by
  have hsteady : Steady m.arena (m.enter parent).arena := h.sound.steady_push (some parent)
  refine ⟨⟨?_, fun c hc => hsteady.handled _ (h.held c hc), ?_, hsteady.opened _ h.root⟩, hsteady⟩
  · refine h.sound.push (some parent) fun p hp => ?_
    cases hp
    exact hparent
  · show (m.arena.push (some parent)).2.isOpen (m.arena.push (some parent)).1 = true
    rw [h.sound.free.isOpen_push]
    simp

theorem ne_enter (h : m.Alive known) (parent : ScopeId) (hs : m.arena.Rooted s) :
    s ≠ (m.enter parent).current := by
  rintro rfl
  have hsome := h.isSome_of_rooted hs
  rw [h.vacant_enter] at hsome
  cases hsome

theorem local?_enter (h : m.Alive known) (parent : ScopeId) (hs : m.arena.Rooted s) :
    (m.enter parent).arena.local? s = m.arena.local? s :=
  h.sound.free.local?_push (some parent) (h.ne_enter parent hs)

theorem local?_entered (h : m.Alive known) (parent : ScopeId) (x : String) :
    (m.enter parent).arena.local? (m.enter parent).current x = none :=
  h.sound.free.local?_new (some parent) x

/-- The end of a module, whose scope stays open. -/
theorem leave (h : m.Alive known) (h' : m'.Alive known') (hknown : known ⊆ known')
    (hroot : m'.root = m.root) (hsteady : Steady m.arena m'.arena) :
    Alive known' { m' with current := m.current } ∧
      Lasts known known' m { m' with current := m.current } :=
  have hl : Lasts known known' m { m' with current := m.current } := ⟨hknown, rfl, hroot, hsteady⟩
  ⟨h.of_steady hl h'.sound h'.held, hl⟩

/-- The end of a block that began in `m`: what was rooted then has the bindings that it had just before. -/
theorem exit (h : m.Alive known) (h' : m'.Alive known') (hknown : known ⊆ known')
    (hroot : m'.root = m.root) (hsteady : Steady m.arena m'.arena) (hs : m.arena.scope? s = none) :
    Alive known' (m'.exit s m.current) ∧ Lasts known known' m (m'.exit s m.current) ∧
      (∀ t, m.arena.Rooted t → (m'.exit s m.current).arena.local? t = m'.arena.local? t) ∧
      ∀ t x b, (m'.exit s m.current).arena.local? t x = some b → m'.arena.local? t x = some b := by
  have hclosed : m.arena.isOpen s = false := by simp [isOpen, hs]
  have hlocal : ∀ t, (m'.arena.close s).local? t = m'.arena.local? t := fun t =>
    local?_modify _ _ _ fun _ => rfl
  cases hsc : m'.arena.scope? s with
  | none =>
    have harena : (m'.exit s m.current).arena = m'.arena := by
      show m'.arena.releaseBy .plain [] s = _
      rw [releaseBy, hsc]
    have hl : Lasts known known' m (m'.exit s m.current) :=
      ⟨hknown, rfl, hroot, harena ▸ hsteady⟩
    rw [harena]
    refine ⟨h.of_steady hl ?_ ?_, hl, fun _ _ => rfl, fun _ _ _ => id⟩
    · rw [harena]
      exact h'.sound
    · rw [harena]
      exact h'.held
  | some sc =>
    -- the evaluator names no functions that are held outside; the scopes of all of them are held
    have hsound : m'.arena.Sound [] := h'.sound.withOutside (List.forall_mem_nil _)
    obtain ⟨gone, hgarbage, hfrees, hafter⟩ := hsound.releaseBy hsc .plain
    have hkept : Steady m.arena (m'.exit s m.current).arena := (hsteady.close hclosed).frees hgarbage hfrees
    have hl : Lasts known known' m (m'.exit s m.current) := ⟨hknown, rfl, hroot, hkept⟩
    have hlinked := h'.sound.linked_close s
    have hnot : ∀ c ∈ known', ¬ gone c.scope := by
      intro c hc hgone
      obtain ⟨sc', hsc', hpos⟩ := (Option.any_eq_true _ _).1 (h'.held c hc)
      have hscope : (m'.arena.close s).isHandled c.scope = true := by
        rw [isHandled, close, scope?_modify]
        split <;> simpa [hsc'] using hpos
      exact hgarbage.not_gone (Rooted.handled hscope).reaches hgone
    have hheld : ∀ c ∈ known', (m'.exit s m.current).arena.isHandled c.scope = true := by
      intro c hc
      obtain ⟨sc', hsc', hpos⟩ := (Option.any_eq_true _ _).1 (h'.held c hc)
      obtain ⟨old, hold, hhandles⟩ : ∃ old, (m'.arena.close s).scope? c.scope = some old ∧
          0 < old.handles := by
        rw [close, scope?_modify, hsc']
        split
        · exact ⟨_, rfl, of_decide_eq_true hpos⟩
        · exact ⟨_, rfl, of_decide_eq_true hpos⟩
      obtain ⟨n, hn⟩ := hfrees.scope?_kept hold (hnot c hc)
      show (m'.arena.releaseBy .plain [] s).isHandled c.scope = true
      simp [isHandled, hn, hhandles]
    have hrefs : (m'.exit s m.current).arena.Linked (known'.map .fn) := by
      refine hlinked.frees hfrees ⟨hgarbage.closed, ?_, hgarbage.link⟩
      intro v t hv ht
      obtain ⟨c, hc, rfl⟩ := List.mem_map.1 hv
      simp only [Value.scopes, Value.closures, List.map_cons, List.map_nil, List.mem_singleton] at ht
      exact ht ▸ hnot c hc
    refine ⟨h.of_steady hl ⟨hrefs, hafter.free, hafter.detached⟩ hheld, hl, fun t ht => ?_, ?_⟩
    · rw [← hlocal t]
      exact hfrees.local? ((hsteady.close hclosed).not_gone hgarbage ht)
    · intro t x b hb
      rw [← hlocal t]
      exact hfrees.local?_eq_some hb

end Alive

/-- The end of a block changes nothing in a scope that is still there. -/
theorem exit_of_isSome (m : Machine) (t saved : ScopeId)
    (hs : ((m.exit t saved).arena.scope? s).isSome) :
    (m.exit t saved).arena.local? s = m.arena.local? s ∧
      (m.exit t saved).arena.parent? s = m.arena.parent? s := by
  cases ht : m.arena.scope? t with
  | none =>
    have harena : (m.exit t saved).arena = m.arena := by
      show m.arena.releaseBy .plain [] t = _
      rw [releaseBy, ht]
    rw [harena]
    exact ⟨rfl, rfl⟩
  | some sc =>
    obtain ⟨gone, -, hfrees⟩ := frees_closed_releaseBy m.arena .plain [] ht
    have hgone : ¬ gone s := by
      intro hgone
      have hsome : ((m.arena.releaseBy .plain [] t).scope? s).isSome := hs
      rw [hfrees.emptied s hgone] at hsome
      cases hsome
    have hlocal : (m.arena.close t).local? s = m.arena.local? s := local?_modify _ _ _ fun _ => rfl
    exact ⟨(hfrees.local? hgone).trans hlocal, (hfrees.parent? hgone).trans (parent?_close m.arena t s)⟩

/-! ### Names -/

theorem local?_defineAll_of_ne {bs : List (String × Value)} (h : s ≠ m.current ∨ x ∉ bs.map (·.1)) :
    (m.defineAll bs).arena.local? s x = m.arena.local? s x := by
  induction bs generalizing m with
  | nil => rfl
  | cons b bs ih =>
    rw [List.map_cons, List.mem_cons, not_or] at h
    have hfirst : (m.define b.1 b.2).arena.local? s x = m.arena.local? s x :=
      local?_define_of_ne _ (h.imp_right (·.1))
    have hrest : ((m.define b.1 b.2).defineAll bs).arena.local? s x =
        (m.define b.1 b.2).arena.local? s x := ih (h.imp_right (·.2))
    exact hrest.trans hfirst

theorem local?_defineAll_of_mem {bs : List (String × Value)} (hm : (m.arena.scope? m.current).isSome)
    (hx : x ∈ bs.map (·.1)) : ∃ v, (x, v) ∈ bs ∧
      (m.defineAll bs).arena.local? m.current x = some ⟨v, false, false⟩ := by
  induction bs generalizing m with
  | nil => cases hx
  | cons b bs ih =>
    have hm' : ((m.define b.1 b.2).arena.scope? m.current).isSome := by
      show ((m.arena.define m.current b.1 ⟨b.2, false, false⟩).scope? m.current).isSome
      simpa [Arena.define] using hm
    -- the last of several entries counts
    by_cases hmem : x ∈ bs.map (·.1)
    · obtain ⟨v, hv, hlocal⟩ := ih (m := m.define b.1 b.2) hm' hmem
      exact ⟨v, List.mem_cons_of_mem _ hv, hlocal⟩
    · have hself : x = b.1 := (List.mem_cons.1 hx).resolve_right hmem
      refine ⟨b.2, hself ▸ List.mem_cons_self, ?_⟩
      have hrest : ((m.define b.1 b.2).defineAll bs).arena.local? m.current x =
          (m.define b.1 b.2).arena.local? m.current x :=
        local?_defineAll_of_ne (m := m.define b.1 b.2) (.inr hmem)
      refine hrest.trans ?_
      rw [hself]
      exact local?_define_self hm _ _

/-- Only bindings change. -/
theorem defineAll_eq (m : Machine) (bs : List (String × Value)) :
    m.defineAll bs = { m with arena := (m.defineAll bs).arena } := by
  induction bs generalizing m with
  | nil => rfl
  | cons b bs ih => exact ih (m.define b.1 b.2)

@[simp] theorem current_defineAll (m : Machine) (bs : List (String × Value)) :
    (m.defineAll bs).current = m.current := by rw [defineAll_eq]

@[simp] theorem root_defineAll (m : Machine) (bs : List (String × Value)) :
    (m.defineAll bs).root = m.root := by rw [defineAll_eq]

@[simp] theorem registry_defineAll (m : Machine) (bs : List (String × Value)) :
    (m.defineAll bs).registry = m.registry := by rw [defineAll_eq]

/-- Nothing has been made at the start, and the scope of the names that every program has is open. -/
theorem alive_start (args : List String) (maxDepth : Nat) (w : World) :
    (start args maxDepth w).Alive [] := by
  have hpush : (({} : Arena).push none).2.Sound [] := sound_empty.push none nofun
  have hclosures : ∀ e ∈ initialNames args, e.2.value.closures = [] := by
    intro e he
    simp only [initialNames, List.mem_append, List.mem_cons, List.not_mem_nil, or_false,
      List.mem_map] at he
    obtain ((rfl | rfl | rfl | rfl) | ⟨name, -, rfl⟩) | rfl := he
    · rfl
    · rfl
    · rfl
    · rfl
    · rfl
    · have hall : Value.closuresAll (args.map Value.str) = [] := by
        induction args with
        | nil => rfl
        | cons a args ih => simpa [Value.closuresAll, Value.closures] using ih
      simpa [Value.closures] using hall
  have hfold : ∀ (l : List (String × Binding)) (a : Arena), (∀ e ∈ l, e.2.value.closures = []) →
      a.Sound [] → (l.foldl (fun a e => a.define 0 e.1 e.2) a).Sound [] ∧
        Steady a (l.foldl (fun a e => a.define 0 e.1 e.2) a) := by
    intro l
    induction l with
    | nil => exact fun a _ ha => ⟨ha, .refl a⟩
    | cons e l ih =>
      intro a hl ha
      have hdefine : (a.define 0 e.1 e.2).Sound [] := ha.define 0 e.1 (by simp [hl e List.mem_cons_self])
      obtain ⟨hsound, hsteady⟩ := ih _ (fun e' he' => hl e' (List.mem_cons_of_mem _ he')) hdefine
      exact ⟨hsound, (steady_define a 0 e.1 e.2).trans hsteady⟩
  obtain ⟨hsound, hsteady⟩ := hfold (initialNames args) _ hclosures hpush
  have hopen : (start args maxDepth w).arena.isOpen 0 = true := hsteady.opened 0 rfl
  exact ⟨hsound, List.forall_mem_nil _, hopen, hopen⟩

end Machine

end Sluice
