import Sluice.Proofs.Eval.Alive
import Sluice.Proofs.Eval.Lodged

/-! Which scopes are open. While a program runs, the open scopes are those of what is in progress and those
that the table of modules names, as long as no module takes the name of another one. To say what is in
progress, runs are watched that also know the scopes in which something is. -/
namespace Sluice

open Arena

variable {α : Type} {G : ScopeId → Prop} {m m' : Machine} {s t p : ScopeId} {a b : Arena}

/-! ### What is in progress -/

/-- The scopes that are met from `t` outwards, before the first one of `G`. -/
inductive Arena.Around (a : Arena) (G : ScopeId → Prop) : ScopeId → ScopeId → Prop
  | here {t : ScopeId} : ¬ G t → Around a G t t
  | out {t p s : ScopeId} : ¬ G t → a.parent? t = some p → Around a G p s → Around a G t s

namespace Machine

/-- The scopes in which something is in progress, given those in which something was when the innermost
job began: those and the blocks that have begun since. -/
def running (m : Machine) (G : ScopeId → Prop) (s : ScopeId) : Prop := G s ∨ m.arena.Around G m.current s

/-- The open scopes are those in which something is in progress and those of modules. -/
def Accounted (running : ScopeId → Prop) (m : Machine) : Prop :=
  ∀ s, m.arena.isOpen s = true ↔ running s ∨ m.Lodges s

/-- Of the open scopes, those in which nothing is in progress are no more than the names of modules. -/
def Bounded (running : ScopeId → Prop) (m : Machine) : Prop :=
  ∀ (names : List String) (l : List ScopeId), (∀ name, (m.modules.get? name).isSome → name ∈ names) →
    l.Nodup → (∀ s ∈ l, m.arena.isOpen s = true ∧ ¬ running s) → l.length ≤ names.length

end Machine

/-- The runner of programs under a watch that knows in which scopes something is in progress. A body begins
a scope of its own. -/
noncomputable def Runner.staged (P : (ScopeId → Prop) → Job → Machine → Prop) (i : Interrupt) :
    (fuel : Nat) → (running : ScopeId → Prop) → Runner
  | 0, _ => ofFuel 0
  | fuel + 1, G =>
    { expr := fun e m => Eval.watched (P (m.running G)) i (.expr e)
        ((staged P i fuel (m.running G)).exprRule e) m
      stmt := fun s m => Eval.watched (P (m.running G)) i (.stmt s)
        ((staged P i fuel (m.running G)).stmtRule s) m
      call := fun f args span m => Eval.watched (P (m.running G)) i (.call f args span)
        ((staged P i fuel (m.running G)).callRule f args span) m
      body := fun c args span m => Eval.watched (P (m.running G)) i (.body c args span)
        ((staged P i fuel fun s => m.running G s ∨ s = (m.enter c.scope).current).bodyRule c args span) m
      rounds := fuel }

/-- At no point of the run from `m` does a job begin where `P` does not hold of the scopes in which something
is in progress. -/
def AlwaysStaged (P : (ScopeId → Prop) → Job → Machine → Prop) (run : Runner → Eval α) (fuel : Nat)
    (m : Machine) : Prop :=
  ∀ i, run (.staged P i fuel (· = m.root)) m = run (.ofFuel fuel) m

/-- A module is opened under a name that no module has. -/
def OpensNew : Job → Machine → Prop
  | .stmt (.submodule name _ _), m => m.modules.get? name.text = none
  | _, _ => True

/-! ### Scopes around a scope -/

namespace Arena

theorem not_around (h : G t) : ¬ a.Around G t s := by
  intro hs
  cases hs with
  | here ht => exact ht h
  | out ht => exact ht h

theorem around_iff (ht : ¬ G t) (hp : a.parent? t = some p) : a.Around G t s ↔ s = t ∨ a.Around G p s := by
  constructor
  · intro h
    cases h with
    | here => exact .inl rfl
    | out _ hp' hrest =>
      rw [hp] at hp'
      cases hp'
      exact .inr hrest
  · rintro (rfl | h)
    · exact .here ht
    · exact .out ht hp h

/-- What is met does not change when the parents of what is met do not. -/
theorem around_congr (h : ∀ s, a.Around G t s → b.parent? s = a.parent? s) :
    b.Around G t s ↔ a.Around G t s := by
  constructor
  · intro hs
    induction hs with
    | here ht => exact .here ht
    | @out t p s ht hp _ ih =>
      have hp' : a.parent? t = some p := (h t (.here ht)).symm.trans hp
      exact .out ht hp' (ih fun s hs => h s (.out ht hp' hs))
  · intro hs
    induction hs with
    | here ht => exact .here ht
    | @out t p s ht hp _ ih =>
      exact .out ht ((h t (.here ht)).trans hp) (ih fun s hs => h s (.out ht hp hs))

end Arena

/-! ### Tracked machines -/

namespace Machine

structure Tracked (G : ScopeId → Prop) (m : Machine) : Prop where
  free : m.arena.FreeExact
  root : G m.root
  accounted : m.Accounted (m.running G)

structure Persists (m m' : Machine) : Prop extends Endures m m' where
  current : m'.current = m.current
  parent : ∀ s, m.arena.isOpen s = true → m'.arena.parent? s = m.arena.parent? s
  lodged : ∀ name s, m.modules.get? name = some s → m'.modules.get? name = some s

theorem Persists.refl (m : Machine) : m.Persists m := ⟨.refl m, rfl, fun _ _ => rfl, fun _ _ => id⟩

theorem Persists.trans {m₁ m₂ m₃ : Machine} (h : m₁.Persists m₂) (h' : m₂.Persists m₃) : m₁.Persists m₃ where
  toEndures := h.toEndures.trans h'.toEndures
  current := h'.current.trans h.current
  parent s hs := (h'.parent s (h.opened s hs)).trans (h.parent s hs)
  lodged name s hs := h'.lodged name s (h.lodged name s hs)

theorem parent?_enter (h : m.arena.FreeExact) (parent s : ScopeId) : (m.enter parent).arena.parent? s =
    if s = (m.enter parent).current then some parent else m.arena.parent? s :=
  h.parent?_push (some parent) s

theorem parent?_entered (h : m.arena.FreeExact) (parent : ScopeId) :
    (m.enter parent).arena.parent? (m.enter parent).current = some parent := by
  rw [parent?_enter h, if_pos rfl]

theorem parent?_enter_of_isOpen (h : m.arena.FreeExact) (parent : ScopeId) (hs : m.arena.isOpen s = true) :
    (m.enter parent).arena.parent? s = m.arena.parent? s := by
  rw [parent?_enter h, if_neg (ne_entered h parent hs)]

theorem parent?_makeFn (m : Machine) (name : Option String) (params : List Param) (body : FnBody)
    (s : ScopeId) : (m.makeFn name params body).2.arena.parent? s = m.arena.parent? s := by
  have hcapture : (m.arena.makeClosure m.current name (params.map (·.name.text)) body).2.parent? s =
      m.arena.parent? s :=
    parent?_modify m.arena m.current s (f := Scope.noteFn m.arena.nextClosure) fun _ => rfl
  rw [← hcapture]
  exact parent?_modify _ m.current s (f := fun sc => { sc with handles := sc.handles + 1 }) fun _ => rfl

theorem Persists.exit (h : m.arena.FreeExact) {parent : ScopeId} (hk : (m.enter parent).Persists m') :
    m.Persists (m'.exit (m.enter parent).current m.current) where
  toEndures := hk.toEndures.exit h
  current := rfl
  parent s hs := by
    have hexit := isSome_of_isOpen ((hk.toEndures.exit h).opened s hs)
    rw [(exit_of_isSome m' _ m.current hexit).2, hk.parent s (isOpen_enter_of_isOpen h parent hs),
      parent?_enter_of_isOpen h parent hs]
  lodged := hk.lodged

theorem Persists.leaveModule (h : m.arena.FreeExact) {name : String} (hname : m.modules.get? name = none)
    (hk : (m.enterModule name).Persists m') : m.Persists { m' with current := m.current } where
  toEndures := hk.toEndures.leaveModule h
  current := rfl
  parent s hs :=
    (hk.parent s (isOpen_enter_of_isOpen h m.root hs)).trans (parent?_enter_of_isOpen h m.root hs)
  lodged name' s hs := by
    refine hk.lodged name' s ((get?_enterModule_of_ne m ?_).trans hs)
    rintro rfl
    rw [hname] at hs
    cases hs

/-- Where all open scopes are accounted for, the others are those of modules, each under its name. -/
theorem Accounted.bounded {running : ScopeId → Prop} (h : m.Accounted running) : m.Bounded running := by
  intro names l hnames hnodup hl
  have hsubset : l ⊆ names.filterMap m.modules.get? := by
    intro s hs
    obtain ⟨hopen, hrunning⟩ := hl s hs
    obtain ⟨name, hname⟩ := ((h s).1 hopen).resolve_left hrunning
    exact List.mem_filterMap.2 ⟨name, hnames name (hname ▸ rfl), hname⟩
  exact (hnodup.subperm hsubset).length_le.trans (List.length_filterMap_le _ _)

theorem mem_running (m : Machine) (G : ScopeId → Prop) : m.running G m.current := by
  by_cases h : G m.current
  · exact .inl h
  · exact .inr (.here h)

namespace Tracked

theorem isOpen (h : m.Tracked G) (hs : G s) : m.arena.isOpen s = true := (h.accounted s).2 (.inl (.inl hs))

theorem isOpen_around (h : m.Tracked G) (hs : m.arena.Around G m.current s) : m.arena.isOpen s = true :=
  (h.accounted s).2 (.inl (.inr hs))

/-- Where the innermost scope is one that is known, nothing else is in progress. -/
theorem accounted_of_mem (h : m.Tracked G) (hcurrent : G m.current) (s : ScopeId) :
    m.arena.isOpen s = true ↔ G s ∨ m.Lodges s := by
  rw [h.accounted s, running, or_iff_left (not_around hcurrent)]

theorem of_mem (hfree : m.arena.FreeExact) (hroot : G m.root) (hcurrent : G m.current)
    (h : ∀ s, m.arena.isOpen s = true ↔ G s ∨ m.Lodges s) : m.Tracked G :=
  ⟨hfree, hroot, fun s => by rw [h s, running, or_iff_left (not_around hcurrent)]⟩

/-- A job begins. -/
theorem inside (h : m.Tracked G) : m.Tracked (m.running G) :=
  of_mem h.free (.inl h.root) (mem_running m G) h.accounted

/-- A job ends. -/
theorem outside (h : m.Tracked G) (h' : m'.Tracked (m.running G)) (hk : m.Persists m') : m'.Tracked G := by
  refine ⟨h'.free, hk.root ▸ h.root, fun s => ?_⟩
  have hcurrent : m.running G m'.current := hk.current ▸ mem_running m G
  rw [h'.accounted_of_mem hcurrent s, running, running, hk.current,
    around_congr fun t ht => hk.parent t (h.isOpen_around ht)]

/-- A change that opens and closes nothing. -/
theorem quiet (h : m.Tracked G) (hcurrent : m'.current = m.current) (hroot : m'.root = m.root)
    (hmodules : m'.modules = m.modules) (hfree : m'.arena.FreeExact)
    (hopen : ∀ s, m'.arena.isOpen s = m.arena.isOpen s)
    (hparent : ∀ s, m'.arena.parent? s = m.arena.parent? s) : m'.Tracked G ∧ m.Persists m' := by
  refine ⟨⟨hfree, hroot ▸ h.root, fun s => ?_⟩, .of_same hroot hmodules hopen, hcurrent,
    fun s _ => hparent s, fun name s hs => hmodules ▸ hs⟩
  rw [hopen, h.accounted s, running, running, hcurrent, around_congr fun t _ => hparent t, Lodges, Lodges,
    hmodules]

/-- A change elsewhere. -/
theorem idle (h : m.Tracked G) (m' : Machine) (harena : m'.arena = m.arena)
    (hcurrent : m'.current = m.current) (hroot : m'.root = m.root) (hmodules : m'.modules = m.modules) :
    m'.Tracked G ∧ m.Persists m' :=
  h.quiet hcurrent hroot hmodules (harena ▸ h.free) (fun s => by rw [harena]) fun s => by rw [harena]

/-! ### Scopes begin and end -/

theorem opened (h : m.Tracked G) (s : ScopeId) (hs : m.Lodges s) : m.arena.isOpen s = true :=
  (h.accounted s).2 (.inr hs)

theorem not_mem_entered (h : m.Tracked G) (parent : ScopeId) : ¬ G (m.enter parent).current := fun hG =>
  ne_entered h.free parent (h.isOpen hG) rfl

theorem enterBlock (h : m.Tracked G) : (m.enter m.current).Tracked G := by
  refine ⟨free_enter h.free _, h.root, fun s => ?_⟩
  have hcongr : (m.enter m.current).arena.Around G m.current s ↔ m.arena.Around G m.current s :=
    around_congr fun t ht => parent?_enter_of_isOpen h.free _ (h.isOpen_around ht)
  rw [isOpen_enter h.free, h.accounted s, running, running,
    around_iff (h.not_mem_entered _) (parent?_entered h.free _), hcongr]
  exact ⟨by tauto, by tauto⟩

theorem exitBlock (h : m.Tracked G) (h' : m'.Tracked G) (hk : (m.enter m.current).Persists m') :
    (m'.exit (m.enter m.current).current m.current).Tracked G := by
  refine ⟨h'.free.releaseBy _ _ _, hk.root ▸ h.root, fun s => ?_⟩
  have hparent : m'.arena.parent? (m.enter m.current).current = some m.current :=
    (hk.parent _ (isOpen_entered h.free _)).trans (parent?_entered h.free _)
  have hbefore : m'.arena.Around G m.current s ↔ m.arena.Around G m.current s := by
    refine around_congr fun t ht => ?_
    have htopen := h.isOpen_around ht
    rw [hk.parent t (isOpen_enter_of_isOpen h.free _ htopen), parent?_enter_of_isOpen h.free _ htopen]
  have hafter : (m'.exit (m.enter m.current).current m.current).arena.Around G m.current s ↔
      m.arena.Around G m.current s := around_congr fun t ht => (hk.exit h.free).parent t (h.isOpen_around ht)
  have hmem : G s → s ≠ (m.enter m.current).current := fun hs => ne_entered h.free _ (h.isOpen hs)
  have haround : m.arena.Around G m.current s → s ≠ (m.enter m.current).current := fun hs =>
    ne_entered h.free _ (h.isOpen_around hs)
  have hlodges : m'.Lodges s → s ≠ (m.enter m.current).current := by
    rintro hs rfl
    exact not_lodges_entered h.free h.opened hk.toEndures hs
  rw [isOpen_exit, h'.accounted s, running, hk.current, around_iff (h.not_mem_entered _) hparent, hbefore]
  show _ ↔ (G s ∨ (m'.exit (m.enter m.current).current m.current).arena.Around G m.current s) ∨ m'.Lodges s
  rw [hafter]
  tauto

/-- A body begins in a scope of its own. -/
theorem enterBody (h : m.Tracked G) (hcurrent : G m.current) (parent : ScopeId) :
    (m.enter parent).Tracked fun s => G s ∨ s = (m.enter parent).current := by
  refine of_mem (free_enter h.free parent) (.inl h.root) (.inr rfl) fun s => ?_
  rw [isOpen_enter h.free, h.accounted_of_mem hcurrent]
  show _ ↔ _ ∨ m.Lodges s
  tauto

theorem exitBody (h : m.Tracked G) (hcurrent : G m.current) {parent : ScopeId}
    (h' : m'.Tracked fun s => G s ∨ s = (m.enter parent).current) (hk : (m.enter parent).Persists m') :
    (m'.exit (m.enter parent).current m.current).Tracked G := by
  refine of_mem (h'.free.releaseBy _ _ _) (hk.root ▸ h.root) hcurrent fun s => ?_
  have hmem : G s → s ≠ (m.enter parent).current := fun hs => ne_entered h.free _ (h.isOpen hs)
  have hlodges : m'.Lodges s → s ≠ (m.enter parent).current := by
    rintro hs rfl
    exact not_lodges_entered h.free h.opened hk.toEndures hs
  rw [isOpen_exit, h'.accounted_of_mem (.inr hk.current)]
  show _ ↔ _ ∨ m'.Lodges s
  tauto

theorem lodges_enterModule_of_none {name : String} (hname : m.modules.get? name = none) (s : ScopeId) :
    (m.enterModule name).Lodges s ↔ s = (m.enter m.root).current ∨ m.Lodges s := by
  refine ⟨lodges_of_enterModule, fun hs => lodges_enterModule.2 (hs.imp_right ?_)⟩
  rintro ⟨name', hs⟩
  refine ⟨name', ?_, hs⟩
  rintro rfl
  rw [hname] at hs
  cases hs

/-- A module begins under a name that no module has. -/
theorem enterModule (h : m.Tracked G) (hcurrent : G m.current) {name : String}
    (hname : m.modules.get? name = none) : (m.enterModule name).Tracked G := by
  refine ⟨free_enter h.free m.root, h.root, fun s => ?_⟩
  rw [lodges_enterModule_of_none hname]
  show (m.enter m.root).arena.isOpen s = true ↔
    (G s ∨ (m.enter m.root).arena.Around G (m.enter m.root).current s) ∨ _
  rw [isOpen_enter h.free, h.accounted_of_mem hcurrent,
    around_iff (h.not_mem_entered _) (parent?_entered h.free _), iff_false_intro (not_around h.root)]
  tauto

theorem leaveModule (h : m.Tracked G) (hcurrent : G m.current) {name : String} (h' : m'.Tracked G)
    (hk : (m.enterModule name).Persists m') : Tracked G { m' with current := m.current } := by
  refine of_mem h'.free (hk.root ▸ h.root) hcurrent fun s => ?_
  have hparent : m'.arena.parent? (m.enter m.root).current = some m.root :=
    (hk.parent _ (isOpen_entered h.free _)).trans (parent?_entered h.free _)
  have hlodged : m'.Lodges (m.enter m.root).current :=
    ⟨name, hk.lodged name _ (get?_enterModule_self m name)⟩
  have hcurrent' : m'.current = (m.enter m.root).current := hk.current
  show m'.arena.isOpen s = true ↔ G s ∨ m'.Lodges s
  rw [h'.accounted s, running, hcurrent', around_iff (h.not_mem_entered _) hparent,
    iff_false_intro (not_around h.root)]
  constructor
  · rintro ((hs | rfl | hs) | hs)
    · exact .inl hs
    · exact .inr hlodged
    · exact hs.elim
    · exact .inr hs
  · tauto

end Tracked

end Machine

/-! ### Runs -/

open Machine

theorem changes_tracked (G : ScopeId → Prop) : Changes (Tracked G) Persists where
  refl {m} _ := .refl m
  trans := Persists.trans
  bind name b hm := hm.quiet rfl rfl rfl (hm.free.modify _ _) (fun _ => isOpen_define ..)
    fun _ => parent?_define ..
  assign := by
    intro m name v arena hm hassign
    obtain ⟨owner, old, -, rfl⟩ := assign_eq_ok hassign
    exact hm.quiet rfl rfl rfl (hm.free.modify _ _) (fun _ => isOpen_define ..) fun _ => parent?_define ..
  makeFn {m} name params body hm := hm.quiet rfl rfl rfl (free_makeFn hm.free name params body)
    (isOpen_makeFn m name params body) (parent?_makeFn m name params body)
  register {m} registry hm := hm.idle { m with registry } rfl rfl rfl rfl
  world {m} world hm := hm.idle { m with world } rfl rfl rfl rfl
  enterCall {m} hm _ := (hm.idle { m with depth := m.depth + 1 } rfl rfl rfl rfl).1
  exitCall {m m'} hm _ hm' hk := by
    obtain ⟨-, hdeeper⟩ := hm.idle { m with depth := m.depth + 1 } rfl rfl rfl rfl
    obtain ⟨htracked, hback⟩ := hm'.idle { m' with depth := m.depth } rfl rfl rfl rfl
    exact ⟨htracked, hdeeper.trans (hk.trans hback)⟩

/-- A module runs in its own scope, and whatever happens, the innermost scope is then what it was. -/
theorem Machine.Tracked.module {x y : Eval α} (hm : m.Tracked G) (hcurrent : G m.current) {name : String}
    (hname : m.modules.get? name = none) (hx : Alike (Tracked G) Persists x y) :
    AlikeAt (Tracked G) Persists (Eval.inModule name x) (Eval.inModule name y) m :=
  Frame.bracket ({ · with current := m.current }) rfl rfl (hx _ (hm.enterModule hcurrent hname))
    fun _ hm' hk => ⟨hm.leaveModule hcurrent hm' hk, hk.leaveModule hm.free hname⟩

theorem compositional_tracked (G : ScopeId → Prop) :
    Compositional fun {α : Type} (x : Bool → Eval α) => ∀ a b, Alike (Tracked G) Persists (x a) (x b) :=
  (changes_tracked G).compositional fun hx m hm =>
    Frame.bracket (·.exit (m.enter m.current).current m.current) rfl rfl (hx _ hm.enterBlock)
      fun _ hm' hk => ⟨hm.exitBlock hm' hk, hk.exit hm.free⟩

def Orderly (running : ScopeId → Prop) (j : Job) (m : Machine) : Prop :=
  OpensNew j m ∧ m.Accounted running ∧ m.Bounded running

/-- Where a job begins, all open scopes are accounted for, and when it ends as well. -/
theorem Machine.Tracked.job (hm : m.Tracked G) {i : Interrupt} {j : Job} {x y : Bool → Eval α}
    (htrue : x true m = Eval.watched (Orderly (m.running G)) i j (y true) m)
    (hfalse : x false m = Eval.watched OpensNew i j (y false) m)
    (hy : OpensNew j m → ∀ a b, AlikeAt (Tracked (m.running G)) Persists (y a) (y b) m) (a b : Bool) :
    AlikeAt (Tracked G) Persists (x a) (x b) m := by
  by_cases hopens : OpensNew j m
  · have hsame : ∀ a, x a m = y a m := by
      intro a
      cases a with
      | true => exact htrue.trans (if_pos ⟨hopens, hm.accounted, hm.accounted.bounded⟩)
      | false => exact hfalse.trans (if_pos hopens)
    obtain ⟨heq, hafter, hk⟩ := hy hopens a b
    have hdone : AlikeAt (Tracked G) Persists (y a) (y b) m := ⟨heq, hm.outside hafter hk, hk⟩
    exact hdone.congr (hsame a).symm (hsame b).symm
  · have hstop : ∀ a, x a m = .error i m := by
      intro a
      cases a with
      | true => exact htrue.trans (if_neg fun h => hopens h.1)
      | false => exact hfalse.trans (if_neg hopens)
    exact alikeAt_of_error (hstop a) (hstop b) hm (.refl m)

theorem Runner.rounds_staged {P : (ScopeId → Prop) → Job → Machine → Prop} {i : Interrupt} (n : Nat) :
    (Runner.staged P i n G).rounds = n - 1 := by cases n <;> rfl

/-- The runner that stops where open scopes are not accounted for, and the one that only stops where a module
takes the name of another one. -/
noncomputable def Runner.stagedOr (i : Interrupt) (n : Nat) (G : ScopeId → Prop) : Bool → Runner
  | true => .staged Orderly i n G
  | false => .watched OpensNew i n

theorem Runner.rounds_stagedOr (i : Interrupt) (n : Nat) (stage : Bool) :
    (Runner.stagedOr i n G stage).rounds = n - 1 := by
  cases stage with
  | true => exact rounds_staged n
  | false => exact rounds_watched n

theorem related_staged (i : Interrupt) (n : Nat) (G : ScopeId → Prop) :
    Related (fun {α : Type} (x : Bool → Eval α) => ∀ a b, Alike (Tracked G) Persists (x a) (x b))
      (.stagedOr i n G) := by
  induction n generalizing G with
  | zero =>
    have hsame : Runner.stagedOr i 0 G = fun _ => .ofFuel 0 := funext fun stage => by cases stage <;> rfl
    rw [hsame]
    exact (compositional_tracked G).related_zero
  | succ n ih =>
    refine ⟨fun e a b m hm => ?_, fun s a b m hm => ?_, fun f args span a b m hm => ?_,
      fun c args span a b m hm => ?_⟩
    · have C := compositional_tracked (m.running G)
      exact hm.job (x := fun stage => (Runner.stagedOr i (n + 1) G stage).expr e) rfl rfl
        (fun _ a b => C.exprRule (ih _) e a b m hm.inside) a b
    · have C := compositional_tracked (m.running G)
      refine hm.job (x := fun stage => (Runner.stagedOr i (n + 1) G stage).stmt s)
        (y := fun stage => (Runner.stagedOr i n (m.running G) stage).stmtRule s) rfl rfl
        (fun hopens a b => ?_) a b
      cases s with
      | submodule name body span =>
        have F := changes_tracked (m.running G)
        have hbody := hm.inside.module (mem_running m G) hopens (C.runStmts (ih _) body.stmts a b)
        refine F.bindAt (F.bindAt hbody fun flow => ?_) fun _ => C.pure _ a b
        exact F.bindM (C.moduleValue flow a b) fun _ => C.pure _ a b
      | _ =>
        refine C.stmtRule (ih _) (C.loops (ih _) (Runner.rounds_stagedOr i n)) _ ?_ a b m hm.inside
        nofun
    · have C := compositional_tracked (m.running G)
      refine hm.job (x := fun stage => (Runner.stagedOr i (n + 1) G stage).call f args span)
        (y := fun stage => (Runner.stagedOr i n (m.running G) stage).callRule f args span) rfl rfl
        (fun _ a b => ?_) a b
      cases f with
      | host name => exact (changes_tracked (m.running G)).hostCall name args span m hm.inside
      | _ =>
        refine C.callRule (ih _) _ args span ?_ a b m hm.inside
        nofun
    · -- the body runs in a scope of its own, which is in progress until the body ends
      have C := compositional_tracked fun s => m.running G s ∨ s = (m.enter c.scope).current
      refine hm.job (x := fun stage => (Runner.stagedOr i (n + 1) G stage).body c args span)
        (y := fun stage => (Runner.stagedOr i n (fun s => m.running G s ∨ s = (m.enter c.scope).current)
          stage).bodyRule c args span) rfl rfl (fun _ => ?_) a b
      refine C.bodyRule (Q := fun x => ∀ a b, AlikeAt (Tracked (m.running G)) Persists (x a) (x b) m) (ih _) c
        args span fun x hx a b => ?_
      exact Frame.bracket (·.exit (m.enter c.scope).current m.current) rfl rfl
        (hx a b _ (hm.inside.enterBody (mem_running m G) c.scope)) fun m' hm' hk =>
          ⟨hm.inside.exitBody (mem_running m G) hm' hk, hk.exit hm.free⟩

def Entry.OpensNew : Entry → Machine → Prop
  | .expr _, _ => True
  | .module md, m => m.modules.get? md.name = none

/-- At no point of the run a module takes the name of another one. -/
def OpensOnce (x : Entry) (n : Nat) (m : Machine) : Prop :=
  x.OpensNew m ∧ Always OpensNew (Entry.run · x) n m

/-- While no module takes the name of another one, all open scopes are accounted for. -/
theorem Machine.Tracked.entry (hm : m.Tracked (· = m.root)) (hcurrent : m.current = m.root) {x : Entry}
    {n : Nat} (hx : OpensOnce x n m) : AlwaysStaged Orderly (Entry.run · x) n m ∧
      ((x.run (.ofFuel n)).after m).Tracked (· = m.root) ∧ m.Persists ((x.run (.ofFuel n)).after m) := by
  have hrun : ∀ i a b, AlikeAt (Tracked (· = m.root)) Persists (x.run (.stagedOr i n (· = m.root) a))
      (x.run (.stagedOr i n (· = m.root) b)) m := by
    intro i a b
    have hrelated := related_staged i n (· = m.root)
    cases x with
    | expr e => exact hrelated.expr e a b m hm
    | module md =>
      exact hm.module hcurrent hx.1 ((compositional_tracked _).moduleBody hrelated md a b)
  have hafter : (x.run (.watched OpensNew .outOfFuel n)).after m = (x.run (.ofFuel n)).after m :=
    Eval.after_congr (hx.2 .outOfFuel)
  refine ⟨fun i => (hrun i true false).1.trans (hx.2 i), ?_⟩
  rw [← hafter]
  exact (hrun .outOfFuel false false).2

end Sluice
