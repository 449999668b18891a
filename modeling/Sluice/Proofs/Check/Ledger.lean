import Mathlib.Logic.Function.Basic
import Sluice.Proofs.Check.Careful
import Sluice.Proofs.Check.Sight

/-! What the check of constants has to do with a run. To every piece of the text that is about to run in
some scope belong the scopes of the check at that place; `Suits` says that a name which the piece assigns
to is constant for the check, if the scope sees a constant of that name now, or, where a function assigns
to it, if the scope may ever see one. -/
namespace Sluice

open Machine Arena ConstCheck

/-- What is known about a run: the functions that were made, and which constants the text of each scope
defines. -/
structure Ledger where
  fns : List Closure
  consts : ScopeId → String → Prop

variable {σ σ' : Config Ledger} {E : ScopeId → Prop} {s t : ScopeId} {T : Scopes} {x : String}
  {n₀ n n' : Node}

def Stmt.constsIn (l : List Stmt) (x : String) : Prop := ∃ s ∈ l, s.Defines true x

/-! ### From state to state -/

/-- What is rooted has the text that it had, and names are added to it in `E` only. -/
structure Config.Extends (E : ScopeId → Prop) (σ σ' : Config Ledger) : Prop where
  consts : ∀ s, σ.machine.arena.Rooted s → σ'.known.consts s = σ.known.consts s
  grows : Grows E σ.machine.arena σ'.machine.arena

structure Config.Onward (E : ScopeId → Prop) (σ σ' : Config Ledger) : Prop extends
    Config.Extends E σ σ' where
  lasts : Lasts σ.known.fns σ'.known.fns σ.machine σ'.machine

namespace Config.Extends

theorem refl (σ : Config Ledger) : Extends E σ σ := ⟨fun _ _ => rfl, .refl _⟩

theorem rooted (h : Extends E σ σ') (hs : σ.machine.arena.Rooted s) : σ'.machine.arena.Rooted s :=
  h.grows.steady.rooted hs

theorem trans {σ'' : Config Ledger} (h : Extends E σ σ') (h' : Extends E σ' σ'') : Extends E σ σ'' where
  consts s hs := (h'.consts s (h.rooted hs)).trans (h.consts s hs)
  grows := h.grows.trans h'.grows

/-- A constant that a scope may ever see is one that it could see before. -/
theorem foreseen (h : Extends E σ σ') (hs : σ.machine.arena.Rooted s)
    (hsees : σ'.machine.arena.Sees x s t) (hconst : σ'.known.consts t x) :
    σ.machine.arena.Sees x s t ∧ σ.known.consts t x := by
  have hsees' := h.grows.sees hs hsees
  exact ⟨hsees', h.consts t (hsees'.rooted hs) ▸ hconst⟩

/-- So is a constant that a scope sees now, if no names were added. -/
theorem seen (h : Extends (fun _ => False) σ σ') (hs : σ.machine.arena.Rooted s)
    (hsees : σ'.machine.arena.Sees x s t) (hfixed : σ'.machine.arena.Fixed t x) :
    σ.machine.arena.Sees x s t ∧ σ.machine.arena.Fixed t x := by
  have hsees' := h.grows.sees hs hsees
  exact ⟨hsees', h.grows.fixed (hsees'.rooted hs) id hfixed⟩

end Config.Extends

namespace Config.Onward

theorem refl (σ : Config Ledger) : Onward E σ σ := ⟨.refl σ, .refl _ _⟩

theorem trans {σ'' : Config Ledger} (h : Onward E σ σ') (h' : Onward E σ' σ'') : Onward E σ σ'' :=
  ⟨h.toExtends.trans h'.toExtends, h.lasts.trans h'.lasts⟩

theorem mono {E' : ScopeId → Prop} (h : Onward E σ σ') (hE : ∀ s, E s → E' s) : Onward E' σ σ' :=
  ⟨⟨h.consts, h.grows.mono hE⟩, h.lasts⟩

end Config.Onward

/-! ### Pieces of the text -/

/-- What functions in the piece assign to is constant for the check, if the scope may see a constant. -/
structure Foresees (n₀ : Node) (σ : Config Ledger) (s : ScopeId) (T : Scopes) (n : Node) : Prop where
  inside : Within Node.parts n₀ n
  later : ∀ {x t}, n.FnAssigns x → σ.machine.arena.Sees x s t → σ.known.consts t x →
    find? T x = some true

/-- What the piece assigns to is constant for the check, if the scope sees a constant. -/
structure Suits (n₀ : Node) (σ : Config Ledger) (s : ScopeId) (T : Scopes) (n : Node) : Prop extends
    Foresees n₀ σ s T n where
  now : ∀ {x t}, n.Assigns x → σ.machine.arena.Sees x s t → σ.machine.arena.Fixed t x →
    find? T x = some true

theorem Foresees.mono (h : Foresees n₀ σ s T n) (hext : σ.Extends E σ')
    (hs : σ.machine.arena.Rooted s) : Foresees n₀ σ' s T n := by
  refine ⟨h.inside, fun hx hsees hconst => ?_⟩
  obtain ⟨hsees', hconst'⟩ := hext.foreseen hs hsees hconst
  exact h.later hx hsees' hconst'

theorem Foresees.part (h : Foresees n₀ σ s T n) (hn : n' ∈ n.parts) (hhides : ∀ x, ¬ n.Hides x) :
    Foresees n₀ σ s T n' :=
  ⟨h.inside.trans (.part hn (.refl _)), fun hx => h.later (.part hn (hhides _) hx)⟩

theorem Suits.mono (h : Suits n₀ σ s T n) (hext : σ.Extends (fun _ => False) σ')
    (hs : σ.machine.arena.Rooted s) : Suits n₀ σ' s T n := by
  refine ⟨h.toForesees.mono hext hs, fun hx hsees hfixed => ?_⟩
  obtain ⟨hsees', hfixed'⟩ := hext.seen hs hsees hfixed
  exact h.now hx hsees' hfixed'

theorem Suits.part (h : Suits n₀ σ s T n) (hn : n' ∈ n.parts) (hhides : ∀ x, ¬ n.Hides x) :
    Suits n₀ σ s T n' :=
  ⟨h.toForesees.part hn hhides, fun hx => h.now (.part hn (hhides _) hx)⟩

/-! ### Tasks -/

namespace Task

def scopes (T : Scopes) : Task → Scopes
  | fn params _ => bindNames ([] :: T) params
  | arm pat _ => bindNames ([] :: T) pat.names
  | _ => T

def names : Task → List String
  | fn params _ => params
  | arm pat _ => pat.names
  | _ => []

theorem find?_scopes {task : Task} (h : x ∉ task.names) : find? (task.scopes T) x = find? T x := by
  cases task with
  | fn params body => exact find?_frame h
  | arm pat body => exact find?_frame h
  | _ => rfl

def stmts? : Task → Option (List Stmt)
  | fn _ body | block body => some body
  | arm _ (.block b) => some b.stmts
  | _ => none

def nodes : Task → List Node
  | fn params body => [.fn params body]
  | block body => [.block body]
  | arm _ body => [body.node]
  | hole stage => [.expr stage]
  | pipeline stages => stages.map .expr

def Clean (T : Scopes) (task : Task) : Prop :=
  match task with
  | fn _ body | block body => ConstCheck.Clean (bindFns ([] :: task.scopes T) body) body
  | arm _ (.block b) => ConstCheck.Clean (bindFns ([] :: task.scopes T) b.stmts) b.stmts
  | arm _ (.expr stage) | hole stage => ConstCheck.expr (task.scopes T) stage = []
  | pipeline stages => ∀ stage ∈ stages, ConstCheck.expr (task.scopes T) stage = []

def Placed (n₀ : Node) : Task → Prop
  | arm pat body => ∃ s, Within Node.parts n₀ (.stmt s) ∧ (pat, body) ∈ s.arms
  | _ => True

/-- The statements of a task are those of one of its nodes. -/
theorem exists_holds {task : Task} {l : List Stmt} (h : task.stmts? = some l) :
    ∃ n ∈ task.nodes, n.Holds l := by
  cases task with
  | fn params body => exact ⟨_, List.mem_cons_self, Option.some.inj h⟩
  | block body => exact ⟨_, List.mem_cons_self, Option.some.inj h⟩
  | arm pat body =>
    cases body with
    | expr e => cases h
    | block b => exact ⟨_, List.mem_cons_self, Option.some.inj h⟩
  | pipeline stages => cases h
  | hole stage => cases h

theorem Clean.stmts {task : Task} {l : List Stmt} (h : task.Clean T) (hl : task.stmts? = some l) :
    ConstCheck.Clean (bindFns ([] :: task.scopes T) l) l := by
  cases task with
  | fn params body =>
    cases hl
    exact h
  | block body =>
    cases hl
    exact h
  | arm pat body =>
    cases body with
    | expr e => cases hl
    | block b =>
      cases hl
      exact h
  | pipeline stages => cases hl
  | hole stage => cases hl

theorem clean_fn {params : List Param} {body : Block}
    (h : ConstCheck.block (bindParams ([] :: T) params) body = []) :
    (fn (params.map (·.name.text)) body.stmts).Clean T := by
  rw [bindParams_eq, block_eq_nil] at h
  exact h

theorem clean_arm {pat : Pattern} {body : ArmBody} (h : ArmClean T pat body) : (arm pat body).Clean T := by
  cases body with
  | expr e =>
    rw [ArmClean, bindPattern_eq] at h
    exact h
  | block b =>
    rw [ArmClean, bindPattern_eq, block_eq_nil] at h
    exact h

end Task

def FnBody.task (params : List String) : FnBody → Task
  | block body => .fn params body.stmts
  | pipeline stages => .pipeline stages

theorem Closure.task_eq (c : Closure) : c.task = c.body.task c.params := by
  unfold task FnBody.task
  cases c.body <;> rfl

/-- All that the body of a function assigns to, it assigns to in a function. -/
theorem FnBody.fnAssigns {params : List String} {body : FnBody} (hn : n ∈ (body.task params).nodes)
    (h : n.Assigns x) : n.FnAssigns x := by
  cases body with
  | block b =>
    rw [List.mem_singleton.1 hn] at h ⊢
    exact .fn h
  | pipeline stages =>
    obtain ⟨e, -, rfl⟩ := List.mem_map.1 hn
    exact Node.assigns_expr h

/-! ### Statements -/

/-- The statements that are left to run in the innermost scope, after those of `pre`. -/
structure Left (n₀ : Node) (σ : Config Ledger) (T : Scopes) (pre l : List Stmt) : Prop where
  rooted : σ.machine.arena.Rooted σ.machine.current
  nonempty : T ≠ []
  clean : ConstCheck.Clean T l
  inside : Within Node.parts n₀ (.block (pre ++ l))
  consts : ∀ x, σ.known.consts σ.machine.current x ↔ Stmt.constsIn (pre ++ l) x
  now : ∀ {s x t}, s ∈ l → (Node.stmt s).Assigns x → σ.machine.arena.Sees x σ.machine.current t →
    σ.machine.arena.Fixed t x → find? T x = some true
  later : ∀ {s x t}, s ∈ l → t ≠ σ.machine.current → (Node.stmt s).FnAssigns x →
    σ.machine.arena.Sees x σ.machine.current t → σ.known.consts t x → find? T x = some true
  due : ∀ x, σ.known.consts σ.machine.current x → here? T x = some true ∨ Stmt.constsIn l x
  fixed : ∀ x, σ.machine.arena.Fixed σ.machine.current x → here? T x = some true

/-- The statements of the innermost scope, whose declarations are being made; `T` are the scopes of the
check around it. -/
structure Opening (n₀ : Node) (σ : Config Ledger) (T : Scopes) (l : List Stmt) : Prop where
  rooted : σ.machine.arena.Rooted σ.machine.current
  clean : ConstCheck.Clean (bindFns ([] :: T) l) l
  inside : Within Node.parts n₀ (.block l)
  consts : ∀ x, σ.known.consts σ.machine.current x ↔ Stmt.constsIn l x
  now : ∀ {s x t}, s ∈ l → x ∉ l.flatMap Stmt.fnNames → (Node.stmt s).Assigns x →
    σ.machine.arena.Sees x σ.machine.current t → σ.machine.arena.Fixed t x → find? T x = some true
  later : ∀ {s x t}, s ∈ l → x ∉ l.flatMap Stmt.fnNames → t ≠ σ.machine.current →
    (Node.stmt s).FnAssigns x → σ.machine.arena.Sees x σ.machine.current t → σ.known.consts t x →
    find? T x = some true
  plain : ∀ x, ¬ σ.machine.arena.Fixed σ.machine.current x

theorem Stmt.constsIn_append {l l' : List Stmt} :
    constsIn (l ++ l') x ↔ constsIn l x ∨ constsIn l' x := by
  simp [constsIn, or_and_right, exists_or]

theorem Node.constant_of_constsIn {l : List Stmt} (hl : Within parts n₀ (block l))
    (h : Stmt.constsIn l x) : n₀.Constant x := by
  obtain ⟨s, hs, hdef⟩ := h
  exact .inr ⟨s, hl.trans (.part (List.mem_map_of_mem hs) (.refl _)), hdef⟩

/-- A function before a constant of its block, or in its definition, does not assign to it. -/
theorem Node.Careful.not_fnAssigns (hc : n₀.Careful) {pre post : List Stmt} {s : Stmt}
    (hl : Within parts n₀ (block (pre ++ s :: post))) (hconst : Stmt.constsIn (s :: post) x) :
    ¬ (stmt s).FnAssigns x := by
  obtain ⟨t, ht, hdef⟩ := hconst
  rcases List.mem_cons.1 ht with rfl | ht
  · exact hc.order hl hdef (List.mem_append_right _ List.mem_cons_self)
  · obtain ⟨mid, rest, rfl⟩ := List.append_of_mem ht
    have hsplit : pre ++ s :: (mid ++ t :: rest) = (pre ++ s :: mid) ++ t :: rest := by simp
    rw [hsplit] at hl
    refine hc.order hl hdef (List.mem_append_left _ (List.mem_append_right _ List.mem_cons_self))

/-- The next statement suits the innermost scope. -/
theorem Left.suits (hc : n₀.Careful) {pre l : List Stmt} {s : Stmt} (h : Left n₀ σ T pre (s :: l)) :
    Suits n₀ σ σ.machine.current T (.stmt s) where
  inside := h.inside.trans (.part (List.mem_map_of_mem (List.mem_append_right _ List.mem_cons_self))
    (.refl _))
  later {x t} hx hsees hconst := by
    by_cases ht : t = σ.machine.current
    · subst ht
      rcases h.due x hconst with hhere | hin
      · exact find?_of_here? hhere
      · exact absurd hx (hc.not_fnAssigns h.inside hin)
    · exact h.later List.mem_cons_self ht hx hsees hconst
  now hx hsees hfixed := h.now List.mem_cons_self hx hsees hfixed

/-- What is left after the statement has run: it has made no constants but those that its text defines, and
its variables are there. -/
theorem Left.step {pre l : List Stmt} {s : Stmt} (h : Left n₀ σ T pre (s :: l))
    (hon : σ.Onward (· = σ.machine.current) σ')
    (hfixed : ∀ x, σ'.machine.arena.Fixed σ.machine.current x →
      s.Defines true x ∨ ¬ s.Defines false x ∧ σ.machine.arena.Fixed σ.machine.current x)
    (hbound : ∀ x, s.Defines false x → σ'.machine.arena.local? σ.machine.current x ≠ none) :
    Left n₀ σ' (bindStmt T s) (pre ++ [s]) l := by
  obtain ⟨hstmt, hclean⟩ := clean_cons.1 h.clean
  have hcurrent : σ'.machine.current = σ.machine.current := hon.lasts.current
  have hconsts : σ'.known.consts σ.machine.current = σ.known.consts σ.machine.current :=
    hon.consts _ h.rooted
  have hsplit : pre ++ [s] ++ l = pre ++ s :: l := by simp
  -- a new variable hides all that is farther out
  have hhidden : ∀ {x t}, σ'.machine.arena.Sees x σ.machine.current t → t ≠ σ.machine.current →
      ¬ s.Defines false x := by
    intro x t hsees ht hdef
    cases hsees with
    | here => exact ht rfl
    | up hnone => exact hbound x hdef hnone
  refine ⟨?_, bindStmt_ne_nil h.nonempty s, hclean, hsplit ▸ h.inside, fun x => ?_, ?_, ?_, fun x hx => ?_,
    fun x hx => ?_⟩
  · rw [hcurrent]
    exact hon.rooted h.rooted
  · rw [hcurrent, hconsts, hsplit]
    exact h.consts x
  · intro s' x t hs' hx hsees hfix
    rw [hcurrent] at hsees
    have hsees' := hon.grows.sees h.rooted hsees
    by_cases ht : t = σ.machine.current
    · subst ht
      rcases hfixed x hfix with hdef | ⟨hdef, hfix⟩
      · exact find?_of_here? (here?_bindStmt_self h.nonempty hdef)
      · exact find?_bindStmt h.nonempty hdef (h.now (List.mem_cons_of_mem _ hs') hx hsees' hfix)
    · refine find?_bindStmt h.nonempty (hhidden hsees ht) ?_
      exact h.now (List.mem_cons_of_mem _ hs') hx hsees'
        (hon.grows.fixed (hsees'.rooted h.rooted) ht hfix)
  · intro s' x t hs' ht hx hsees hconst
    rw [hcurrent] at hsees ht
    obtain ⟨hsees', hconst'⟩ := hon.foreseen h.rooted hsees hconst
    exact find?_bindStmt h.nonempty (hhidden hsees ht)
      (h.later (List.mem_cons_of_mem _ hs') ht hx hsees' hconst')
  · rw [hcurrent, hconsts] at hx
    rcases h.due x hx with hhere | ⟨t, ht, hdef⟩
    · exact .inl (here?_bindStmt h.nonempty (fun hdef => not_here?_of_var hstmt hdef hhere) hhere)
    · rcases List.mem_cons.1 ht with rfl | ht
      · exact .inl (here?_bindStmt_self h.nonempty hdef)
      · exact .inr ⟨t, ht, hdef⟩
  · rw [hcurrent] at hx
    rcases hfixed x hx with hdef | ⟨hdef, hfix⟩
    · exact here?_bindStmt_self h.nonempty hdef
    · exact here?_bindStmt h.nonempty hdef (h.fixed x hfix)

/-- Variables are bound while the declarations are made. -/
theorem Opening.step {l : List Stmt} (h : Opening n₀ σ T l) (hon : σ.Onward (· = σ.machine.current) σ')
    (hplain : ∀ x, ¬ σ'.machine.arena.Fixed σ.machine.current x) : Opening n₀ σ' T l := by
  have hcurrent : σ'.machine.current = σ.machine.current := hon.lasts.current
  refine ⟨?_, h.clean, h.inside, fun x => ?_, ?_, ?_, hcurrent ▸ hplain⟩
  · rw [hcurrent]
    exact hon.rooted h.rooted
  · rw [hcurrent, hon.consts _ h.rooted]
    exact h.consts x
  · intro s x t hs hnames hx hsees hfixed
    rw [hcurrent] at hsees
    have hsees' := hon.grows.sees h.rooted hsees
    have ht : t ≠ σ.machine.current := by
      rintro rfl
      exact hplain x hfixed
    exact h.now hs hnames hx hsees' (hon.grows.fixed (hsees'.rooted h.rooted) ht hfixed)
  · intro s x t hs hnames ht hx hsees hconst
    rw [hcurrent] at hsees ht
    obtain ⟨hsees', hconst'⟩ := hon.foreseen h.rooted hsees hconst
    exact h.later hs hnames ht hx hsees' hconst'

/-- Once the declarations have been made, the statements can run. -/
theorem Opening.left {l : List Stmt} (h : Opening n₀ σ T l)
    (hdone : ∀ x ∈ l.flatMap Stmt.fnNames, σ.machine.arena.local? σ.machine.current x ≠ none) :
    Left n₀ σ (bindFns ([] :: T) l) [] l := by
  have hfind : ∀ {x}, x ∉ l.flatMap Stmt.fnNames → find? T x = some true →
      find? (bindFns ([] :: T) l) x = some true := by
    intro x hx htrue
    rw [bindFns_eq, find?_frame hx]
    exact htrue
  -- the name of a function is bound here, so it is not seen farther out
  have hseen : ∀ {x t}, σ.machine.arena.Sees x σ.machine.current t → t ≠ σ.machine.current →
      x ∉ l.flatMap Stmt.fnNames := by
    intro x t hsees ht hx
    cases hsees with
    | here => exact ht rfl
    | up hnone => exact hdone x hx hnone
  refine ⟨h.rooted, ?_, h.clean, h.inside, h.consts, ?_, ?_, fun x hx => .inr ((h.consts x).1 hx), ?_⟩
  · rw [bindFns_eq]
    exact bindNames_ne_nil (List.cons_ne_nil _ _) _
  · intro s x t hs hx hsees hfixed
    by_cases ht : t = σ.machine.current
    · subst ht
      exact absurd hfixed (h.plain x)
    · exact hfind (hseen hsees ht) (h.now hs (hseen hsees ht) hx hsees hfixed)
  · intro s x t hs ht hx hsees hconst
    exact hfind (hseen hsees ht) (h.later hs (hseen hsees ht) ht hx hsees hconst)
  · exact fun x hfixed => absurd hfixed (h.plain x)

/-- A declared function can be made, though nothing of what precedes it has run. -/
theorem Opening.foresees (hc : n₀.Careful) (hconstant : ∀ t x, σ.known.consts t x → n₀.Constant x)
    {pre post : List Stmt} {s : Stmt} {d : FnDecl} (h : Opening n₀ σ T (pre ++ s :: post))
    (hd : d ∈ s.fns) : Foresees n₀ σ σ.machine.current
      (bindStmts (bindFns ([] :: T) (pre ++ s :: post)) pre) d.node := by
  have hwithin : Within Node.parts (.stmt s) d.node := .part (Node.fn_mem_stmt hd) (.refl _)
  have hmem : s ∈ pre ++ s :: post := List.mem_append_right _ List.mem_cons_self
  have hT : bindFns ([] :: T) (pre ++ s :: post) ≠ [] := by
    rw [bindFns_eq]
    exact bindNames_ne_nil (List.cons_ne_nil _ _) _
  refine ⟨h.inside.trans (.part (List.mem_map_of_mem hmem) hwithin), fun {x t} hx hsees hconst => ?_⟩
  have hstmt : (Node.stmt s).FnAssigns x :=
    .part (Node.fn_mem_stmt hd) (Node.not_hides_stmt (.inr (.inr (.inr (List.ne_nil_of_mem hd))))) hx
  obtain ⟨hvars, hfns⟩ := hc.hoist h.inside hd hx.assigns (hconstant t x hconst)
  by_cases ht : t = σ.machine.current
  · subst ht
    -- the constant is defined before the function, since the function assigns to it
    have hbefore : Stmt.constsIn pre x := by
      refine (Stmt.constsIn_append.1 ((h.consts x).1 hconst)).resolve_right fun hafter => ?_
      exact hc.not_fnAssigns h.inside hafter hstmt
    exact find?_of_here? (here?_bindStmts hT hvars (.inr hbefore))
  · have hnames : x ∉ (pre ++ s :: post).flatMap Stmt.fnNames := by
      intro hmem
      obtain ⟨t, ht, hx⟩ := List.mem_flatMap.1 hmem
      exact hfns t ht hx
    refine find?_bindStmts hT hvars ?_
    rw [bindFns_eq, find?_frame hnames]
    exact h.later hmem hnames ht hstmt hsees hconst

end Sluice
