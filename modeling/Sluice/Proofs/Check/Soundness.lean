import Sluice.Program
import Sluice.Proofs.Check.Blocks

/-! The check of constants is sound for careful modules: if it finds nothing, then no run ends because a
constant was assigned to or defined again. -/
namespace Sluice

open Machine Arena ConstCheck

variable {σ σ' : Config Ledger} {n₀ : Node} {T : Scopes} {x : String}

namespace Checked

/-! ### Expressions -/

theorem exprLaws : (checked n₀).ExprLaws where
  expr_mono := by
    rintro σ σ' e hon ⟨hrooted, T, hclean, hsuits⟩
    have hcurrent : σ'.machine.current = σ.machine.current := hon.lasts.current
    refine ⟨?_, T, hclean, ?_⟩
    · rw [hcurrent]
      exact hon.rooted hrooted
    · rw [hcurrent]
      exact hsuits.mono hon.toExtends hrooted
  expr_part := by
    rintro σ e e' ⟨hrooted, T, hclean, hsuits⟩ he'
    exact ⟨hrooted, T, expr_part hclean he', hsuits.part (Node.expr_mem_parts he') fun _ => id⟩
  expr_tuple h _ := h.elim
  expr_lambda := by
    rintro σ params type body span ⟨hrooted, T, hclean, hsuits⟩
    refine ⟨hrooted, T, Task.clean_fn (expr_lambda ▸ hclean), fun n hn => ?_⟩
    rw [List.mem_singleton.1 hn]
    exact hsuits.toForesees.part List.mem_cons_self fun _ => id
  expr_deferred := by
    rintro σ stages span ⟨hrooted, T, hclean, hsuits⟩
    refine ⟨hrooted, T, fun stage hs => expr_part hclean hs, fun n hn => ?_⟩
    obtain ⟨stage, hs, rfl⟩ := List.mem_map.1 hn
    exact hsuits.toForesees.part (Node.expr_mem_parts hs) fun _ => id
  expr_hole := by
    rintro σ e ⟨hrooted, T, hclean, hsuits⟩
    refine ⟨hrooted, trivial, T, hclean, fun n hn => ?_⟩
    rw [List.mem_singleton.1 hn]
    exact hsuits

/-! ### Statements -/

/-- A part of the next statement can run in its own scope. -/
theorem body_of_left (hc : n₀.Careful) {pre l : List Stmt} {s : Stmt} {task : Task} {n : Node}
    (h : Left n₀ σ T pre (s :: l)) (hon : σ.Onward (fun _ => False) σ') (hplaced : task.Placed n₀)
    (hclean : task.Clean T) (hnodes : task.nodes = [n]) (hn : n ∈ (Node.stmt s).parts)
    (hhides : ∀ x, ¬ (Node.stmt s).Hides x) :
    (checked n₀).Body σ' σ'.machine.current task := by
  have hcurrent : σ'.machine.current = σ.machine.current := hon.lasts.current
  rw [hcurrent]
  refine ⟨hon.rooted h.rooted, hplaced, T, hclean, fun n' hn' => ?_⟩
  rw [hnodes] at hn'
  rw [List.mem_singleton.1 hn']
  exact ((h.suits hc).part hn hhides).mono hon.toExtends h.rooted

theorem stmtLaws (hc : n₀.Careful) : (checked n₀).StmtLaws where
  rest_expr := by
    rintro σ σ' s l e ⟨T, pre, h⟩ hon he
    have hcurrent : σ'.machine.current = σ.machine.current := hon.lasts.current
    refine ⟨?_, T, stmt_expr (clean_cons.1 h.clean).1 he, ?_⟩
    · rw [hcurrent]
      exact hon.rooted h.rooted
    · rw [hcurrent]
      have hhides : ∀ x, ¬ (Node.stmt s).Hides x := fun _ =>
        Node.not_hides_stmt (.inl (List.ne_nil_of_mem he))
      exact ((h.suits hc).part (Node.expr_mem_stmt he) hhides).mono hon.toExtends h.rooted
  rest_block := by
    rintro σ σ' s l b ⟨T, pre, h⟩ hon hb
    exact body_of_left hc h hon trivial (block_eq_nil.1 (stmt_block (clean_cons.1 h.clean).1 hb)) rfl
      (Node.block_mem_stmt hb) fun _ => Node.not_hides_stmt (.inr (.inl (List.ne_nil_of_mem hb)))
  rest_arm := by
    rintro σ σ' s l arm ⟨T, pre, h⟩ hon harm
    exact body_of_left hc h hon ⟨s, (h.suits hc).inside, harm⟩
      (Task.clean_arm (stmt_arm (clean_cons.1 h.clean).1 harm)) rfl (Node.arm_mem_stmt harm)
      fun _ => Node.not_hides_stmt (.inr (.inr (.inl (List.ne_nil_of_mem harm))))
  rest_module := by
    rintro σ name body span l ⟨T, pre, h⟩
    refine ⟨(h.suits hc).inside.trans (.part List.mem_cons_self (.refl _)), ?_⟩
    have hclean := (clean_cons.1 h.clean).1
    rw [stmt_submodule] at hclean
    exact block_eq_nil.1 hclean
  rest_pass := by
    rintro σ σ' s l ⟨T, pre, h⟩ hon hbinds
    have hdefines : ∀ {c x}, ¬ s.Defines c x := by
      intro c x hdef
      cases s with
      | var => cases hbinds
      | _ => exact hdef
    refine ⟨_, _, h.step (hon.mono fun _ => False.elim) (fun x hfixed => .inr ⟨hdefines, ?_⟩)
      fun x hdef => absurd hdef hdefines⟩
    exact hon.grows.fixed h.rooted id hfixed
  var_const := by
    rintro σ name type isConst isPub value span l b - ⟨T, pre, h⟩ hlocal hconst
    have hdef : (Stmt.var name type isConst isPub value span).Defines isConst name.text := ⟨rfl, rfl⟩
    exact not_here?_of_var (clean_cons.1 h.clean).1 hdef (h.fixed _ ⟨b, hlocal, hconst⟩)
  var_bind := by
    rintro σ σ' name type isConst isPub value span l v - ⟨T, pre, h⟩ - hon hinv' hv
    have hcurrent : σ'.machine.current = σ.machine.current := hon.lasts.current
    have hdef : (Stmt.var name type isConst isPub value span).Defines isConst name.text := ⟨rfl, rfl⟩
    obtain ⟨hinv'', hon'⟩ := foretold_bind name.text (b := ⟨v, isConst, isPub⟩) hinv'
      (closures_of_value hv) fun htrue => by
        have htrue' : isConst = true := htrue
        rw [hcurrent, hon.consts _ h.rooted]
        exact (h.consts _).2 ⟨_, List.mem_append_right _ List.mem_cons_self, htrue' ▸ hdef⟩
    refine ⟨_, hinv'', hon', _, _, h.step ((hon.mono fun _ => False.elim).trans (hcurrent ▸ hon')) ?_ ?_⟩
    · intro x hfixed
      rcases fixed_define hfixed with ⟨-, rfl, htrue⟩ | ⟨hne, hfixed⟩
      · exact .inl ⟨rfl, htrue⟩
      · exact .inr ⟨fun hx => hne ⟨hcurrent.symm, hx.1.symm⟩, hon.grows.fixed h.rooted id hfixed⟩
    · rintro x ⟨rfl, -⟩
      rw [← hcurrent]
      show (σ'.machine.arena.define σ'.machine.current name.text _).local? _ _ ≠ none
      rw [local?_define_self hinv'.alive.isSome_current]
      exact Option.some_ne_none _
  assign_const := by
    rintro σ σ' target op value span l root owner b hinv' ⟨T, pre, h⟩ hon hroot hfind hconst
    have hcurrent : σ'.machine.current = σ.machine.current := hon.lasts.current
    have hsuits := h.suits hc
    have hsees := sees_of_findFrom hfind
    rw [hcurrent] at hsees
    have hfixed : σ'.machine.arena.Fixed owner root.text := ⟨b, local?_of_findFrom hfind, hconst⟩
    obtain ⟨hsees', hfixed'⟩ := hon.seen h.rooted hsees hfixed
    have htrue := hsuits.now (.target hroot) hsees' hfixed'
    have hvar := hc.places hsuits.inside hroot (hinv'.constant _ _ (hinv'.declared _ _ hfixed))
    subst hvar
    exact not_find?_of_assign (clean_cons.1 h.clean).1 htrue
  assign_lost := by
    rintro σ σ₁ σ₂ target op value span l root owner b v e hinv₁ - - - hon hroot hfind hvar hassign
    obtain ⟨b', hfind', hvar'⟩ := hon.grows.find? hinv₁.alive.rooted_current hfind
    have hcurrent : σ₂.machine.current = σ₁.machine.current := hon.lasts.current
    rw [hvar] at hvar'
    simp [Arena.assign, hcurrent, hfind', hvar'] at hassign
  assign_old := by
    rintro σ σ₁ σ₂ target op value span l root owner b v arena - hinv₂ ⟨T, pre, h⟩ hon₁ hon₂ hroot - - hv hassign
    have hon := hon₁.trans hon₂
    have hcurrent : σ₂.machine.current = σ.machine.current := hon.lasts.current
    have hflag := flag?_assign hassign
    have hfixed : ∀ t x, arena.Fixed t x → σ₂.machine.arena.Fixed t x := fun t x ht =>
      fixed_iff_flag?.2 ((hflag t x).symm.trans (fixed_iff_flag?.1 ht))
    have halive : Alive σ₂.known.fns { σ₂.machine with arena } ∧
        Lasts σ₂.known.fns σ₂.known.fns σ₂.machine { σ₂.machine with arena } := by
      obtain ⟨owner', old, -, rfl⟩ := assign_eq_ok hassign
      exact hinv₂.alive.define owner' root.text (b := { old with value := v }) (closures_of_value hv)
    have hon₃ : σ₂.Onward (· = σ₂.machine.current) ⟨σ₂.known, { σ₂.machine with arena }⟩ :=
      ⟨⟨fun _ _ => rfl, grows_assign hassign⟩, halive.2⟩
    refine ⟨σ₂.known, foretold_onward hinv₂ hon₃ halive.1 rfl (fun t x ht => ?_) rfl, hon₃, _, _,
      h.step ((hon.mono fun _ => False.elim).trans (hcurrent ▸ hon₃)) (fun x hx => .inr ⟨id, ?_⟩) fun _ h => h.elim⟩
    · exact hinv₂.declared t x (hfixed t x ht)
    · exact hon.grows.fixed h.rooted id (hfixed _ x hx)
  assign_new := by
    rintro σ σ₁ σ₂ target op value span l root v - hinv₂ ⟨T, pre, h⟩ hon₁ hon₂ - - hv
    have hon := hon₁.trans hon₂
    have hcurrent : σ₂.machine.current = σ.machine.current := hon.lasts.current
    obtain ⟨hinv₃, hon₃⟩ := foretold_bind root.text (b := ⟨v, false, false⟩) hinv₂
      (closures_of_value hv) (by simp)
    refine ⟨σ₂.known, hinv₃, hon₃, _, _,
      h.step ((hon.mono fun _ => False.elim).trans (hcurrent ▸ hon₃)) (fun x hx => .inr ⟨id, ?_⟩) fun _ h => h.elim⟩
    rcases fixed_define hx with ⟨-, -, hconst⟩ | ⟨-, hfixed⟩
    · cases hconst
    · exact hon.grows.fixed h.rooted id hfixed
  use := by
    rintro σ source names span l found hinv ⟨T, pre, h⟩ - hfound
    obtain ⟨halive, hlasts⟩ := hinv.alive.defineAll fun b hb => closures_of_value (hfound b hb)
    have hon : σ.Onward (· = σ.machine.current) ⟨σ.known, σ.machine.defineAll found⟩ :=
      ⟨⟨fun _ _ => rfl, grows_defineAll _ _⟩, hlasts⟩
    refine ⟨σ.known, foretold_onward hinv hon halive rfl (fun t x ht => ?_) ?_, hon, _, _,
      h.step hon (fun x hx => .inr ⟨id, fixed_defineAll hx⟩) fun _ h => h.elim⟩
    · exact hinv.declared t x (fixed_defineAll ht)
    · exact congrArg Registry.adts (registry_defineAll _ _)

/-! ### Declarations -/

theorem declLaws (hc : n₀.Careful) : (checked n₀).DeclLaws where
  decl_mono := by
    rintro σ σ' stmts done hon ⟨⟨T, h⟩, hdone⟩
    have hcurrent : σ'.machine.current = σ.machine.current := hon.lasts.current
    refine ⟨⟨T, h.step (hon.mono fun _ => False.elim) fun x hfixed => ?_⟩, fun x hx hnone => ?_⟩
    · exact h.plain x (hon.grows.fixed h.rooted id hfixed)
    · rw [hcurrent] at hnone
      exact hdone x hx (hon.grows.bound _ _ h.rooted hnone)
  decl_bind := by
    rintro σ stmts done v name isPub hinv ⟨⟨T, h⟩, hdone⟩ hv
    obtain ⟨hinv', hon⟩ := foretold_bind name (b := ⟨v, false, isPub⟩) hinv
      (closures_of_value hv) nofun
    refine ⟨σ.known, hinv', hon, ⟨T, h.step hon fun x hfixed => ?_⟩, fun x hx hnone => ?_⟩
    · rcases fixed_define hfixed with ⟨-, -, hconst⟩ | ⟨-, hfixed⟩
      · cases hconst
      · exact h.plain x hfixed
    · rcases List.mem_cons.1 hx with rfl | hx
      · have hself := local?_define_self hinv.alive.isSome_current x ⟨v, false, isPub⟩
        exact Option.some_ne_none _ (hself.symm.trans hnone)
      · exact hdone x hx (hon.grows.bound _ _ h.rooted hnone)
  decl_adt := by
    rintro σ m stmts done s adt hinv ⟨⟨T, h⟩, hdone⟩ hs hadt rfl
    obtain ⟨halive, hlasts⟩ := hinv.alive.idle ({ σ.machine with registry :=
      { σ.machine.registry with adts := σ.machine.registry.adts.declare adt } }) rfl rfl rfl
    have hon : σ.Onward (· = σ.machine.current) ⟨σ.known, { σ.machine with registry :=
        { σ.machine.registry with adts := σ.machine.registry.adts.declare adt } }⟩ :=
      ⟨⟨fun _ _ => rfl, .refl _⟩, hlasts⟩
    have hwithin : Within Node.parts n₀ (.stmt s) :=
      h.inside.trans (.part (List.mem_map_of_mem hs) (.refl _))
    refine ⟨σ.known, ⟨halive, hinv.declared, hinv.constant, hinv.top, hinv.args, ?_⟩, hon,
      ⟨T, h.step hon h.plain⟩, hdone⟩
    exact hinv.variants.declare (Node.namesVariant_of_adt? hwithin hadt)
  decl_struct h _ _ := h.elim
  decl_fn := by
    rintro σ stmts done s d hinv ⟨⟨T, h⟩, -⟩ hs hd
    obtain ⟨pre, post, rfl⟩ := List.append_of_mem hs
    refine ⟨h.rooted, _, Task.clean_fn (fn_eq_nil.1 (stmt_fn h.clean.at hd)), fun n hn => ?_⟩
    rw [List.mem_singleton.1 hn]
    exact h.foresees hc hinv.constant hd
  decl_done := by
    rintro σ stmts done ⟨⟨T, h⟩, hdone⟩ hall
    refine ⟨_, [], h.left fun x hx => ?_⟩
    obtain ⟨s, hs, hx⟩ := List.mem_flatMap.1 hx
    exact hdone x (hall s hs hx)

theorem lawful (hc : n₀.Careful) : (checked n₀).Lawful :=
  ⟨stateLaws, scopeLaws hc, exprLaws, stmtLaws hc, declLaws hc⟩

/-! ### Runs -/

/-- At the start there is no constant but the arguments of the program. -/
theorem fixed_start {args : List String} {maxDepth : Nat} {w : World} {t : ScopeId}
    (h : (start args maxDepth w).arena.Fixed t x) : x = "args" := by
  have hfold : ∀ (l : List (String × Binding)) (a : Arena), (∀ e ∈ l, e.2.isConst = true → e.1 = "args") →
      (l.foldl (fun a e => a.define 0 e.1 e.2) a).Fixed t x → x = "args" ∨ a.Fixed t x := by
    intro l
    induction l with
    | nil => exact fun a _ hfixed => .inr hfixed
    | cons e l ih =>
      intro a hl hfixed
      rcases ih _ (fun e' he' => hl e' (List.mem_cons_of_mem _ he')) hfixed with hx | hfixed
      · exact .inl hx
      · rcases fixed_define hfixed with ⟨-, rfl, hconst⟩ | ⟨-, hfixed⟩
        · exact .inl (hl e List.mem_cons_self hconst)
        · exact .inr hfixed
  have hnames : ∀ e ∈ initialNames args, e.2.isConst = true → e.1 = "args" := by
    intro e he hconst
    simp only [initialNames, List.mem_append, List.mem_cons, List.not_mem_nil, or_false,
      List.mem_map] at he
    obtain ((rfl | rfl | rfl | rfl) | ⟨name, -, rfl⟩) | rfl := he <;> first | rfl | cases hconst
  refine (hfold (initialNames args) (({} : Arena).push none).2 hnames h).resolve_right ?_
  rintro ⟨b, hb, -⟩
  have hempty : (({} : Arena).push none).2.local? t x = none := by
    by_cases ht : t = (({} : Arena).push none).1
    · rw [ht, sound_empty.free.local?_new]
    · rw [sound_empty.free.local?_push none ht]
      rfl
  rw [hempty] at hb
  cases hb

theorem ok_start (n₀ : Node) (args : List String) (maxDepth : Nat) (w : World) :
    (checked n₀).Ok ⟨⟨[], fun _ x => x = "args"⟩, .start args maxDepth w⟩ := by
  refine ⟨⟨alive_start args maxDepth w, fun t x => fixed_start, fun t x => .inl, ?_, fun x => id, ?_⟩,
    stored_start args maxDepth w⟩
  · rfl
  · exact List.forall_mem_nil _

/-- A careful module in which the check finds nothing does not try to change a constant, however far it
runs. -/
theorem fault_kind_ne {md : Module} (hcheck : md.checkConsts = [])
    (hcareful : (Node.block md.body.stmts).Careful) {n : Nat} {args : List String} {maxDepth : Nat}
    {w : World} {f : Fault} {m : Machine}
    (h : (Runner.ofFuel n).runModule md (.start args maxDepth w) = .error (.fault f) m) :
    f.kind ≠ .constReassignment := by
  have H := lawful hcareful
  have hobeys := H.obeys_ofFuel (P := fun _ _ => True) (fun _ _ _ _ => trivial) .outOfFuel n
  have hmod : (checked (.block md.body.stmts)).Mod ⟨⟨[], fun _ x => x = "args"⟩, .start args maxDepth w⟩
      md.body.stmts := ⟨.refl _, block_eq_nil.1 hcheck⟩
  obtain ⟨-, hend⟩ := H.runModule hobeys (ok_start _ args maxDepth w) hmod
  dsimp only at hend
  rw [h] at hend
  exact hend.1.resolve_left id f rfl

end Checked

/-- The check of constants is sound for careful modules: when it finds nothing, then whatever the module is
given and however far it runs, it does not end in a fault about a constant. -/
theorem checked_module_keeps_constants {md : Module} (hcheck : md.checkConsts = [])
    (hcareful : (Node.block md.body.stmts).Careful) :
    (∀ n args maxDepth w f m,
      (Runner.ofFuel n).runModule md (.start args maxDepth w) = .error (.fault f) m →
      f.kind ≠ .constReassignment) ∧
    ∀ config w f, (md.run config w).1 = .error (.interrupt (.fault f)) → f.kind ≠ .constReassignment := by
  have hfault : ∀ {n args maxDepth w f m},
      (Runner.ofFuel n).runModule md (.start args maxDepth w) = .error (.fault f) m →
      f.kind ≠ .constReassignment := Checked.fault_kind_ne hcheck hcareful
  refine ⟨fun n args maxDepth w f m => hfault, fun config w f h => ?_⟩
  cases hrun : (Runner.ofFuel fuel).runModule md (.start config.args config.maxDepth w) with
  | error i m =>
    have hi : i = .fault f := by simpa [Module.run, Eval.outcome, hrun] using h
    subst hi
    exact hfault hrun
  | ok v m =>
    rw [Module.run, Eval.outcome, hrun] at h
    dsimp only at h
    split at h
    next heq => cases heq
    next => cases h
    next => cases h

-- one text for each condition of `Careful`, in which the check finds nothing
example : ∀ src ∈ ["const x = [1]\nx[0] = 2", "fn f() \x7b x = 2 \x7d\nconst x = 1\nf()",
      "const x = 1\nfn g() \x7b f()\n x: Int = 5\n fn f() \x7b x = 2 \x7d \x7d\ng()",
      "enum E \x7b A \x7d\nv = A\nconst A = 1\nmatch v \x7b A => \x7b A = 2 \x7d \x7d"],
    ((Module.read "" src).toOption.map fun md => (md.checkConsts, match (md.run {} {}).1 with
      | .error (.interrupt (.fault f)) => some f.kind
      | _ => none)) = some ([], some .constReassignment) := by decide +kernel

/-! ### A module that is careful -/

namespace Node

variable {n n' : Node} {k : Nat}

def inside : Nat → Node → List Node
  | 0, n => [n]
  | k + 1, n => n :: n.parts.flatMap (inside k)

def shallow : Nat → Node → Bool
  | 0, n => n.parts.isEmpty
  | k + 1, n => n.parts.all (shallow k)

theorem mem_inside (h : Within parts n n') (hk : n.shallow k = true) : n' ∈ n.inside k := by
  induction h generalizing k with
  | refl n => cases k <;> exact List.mem_cons_self
  | @part n b _ hb _ ih =>
    cases k with
    | zero =>
      rw [List.isEmpty_iff.1 hk] at hb
      cases hb
    | succ k =>
      exact List.mem_cons_of_mem _ (List.mem_flatMap.2 ⟨b, hb, ih (List.all_eq_true.1 hk b hb)⟩)

theorem Assigns.exists_target {x : String} (h : n.Assigns x) :
    ∃ s id, Within parts n (stmt s) ∧ s.target? = some id ∧ id.text = x := by
  induction h with
  | target hid => exact ⟨_, _, .refl _, hid, rfl⟩
  | part hn _ _ ih =>
    obtain ⟨s, id, hs, hid, hx⟩ := ih
    exact ⟨s, id, .part hn hs, hid, hx⟩

def stmt? : Node → Option Stmt
  | stmt s => some s
  | _ => none

def block? : Node → Option (List Stmt)
  | block l => some l
  | _ => none

theorem stmt_mem_inside {s : Stmt} (h : Within parts n (stmt s)) (hk : n.shallow k = true) :
    s ∈ (n.inside k).filterMap stmt? := List.mem_filterMap.2 ⟨_, mem_inside h hk, rfl⟩

theorem block_mem_inside {l : List Stmt} (h : Within parts n (block l)) (hk : n.shallow k = true) :
    l ∈ (n.inside k).filterMap block? := List.mem_filterMap.2 ⟨_, mem_inside h hk, rfl⟩

end Node

namespace Growing

/-- `const limit = 1` -/
def limit : Stmt := .var ⟨"limit", default⟩ none true false (.lit (.int 1) default) default

/-- `limit += 1`, where the limit is the parameter -/
def raise : Stmt := .assign (.var ⟨"limit", default⟩) (some .add) (.lit (.int 1) default) default

/-- `return limit` -/
def answer : Stmt := .ret (some (.var ⟨"limit", default⟩)) default

/-- `fn grow(limit)` -/
def grow : FnDecl where
  name := ⟨"grow", default⟩
  params := [⟨⟨"limit", default⟩, none, default⟩]
  result := none
  body := ⟨[raise, answer], default⟩
  isPub := false
  span := default

/-- `grow(limit)` -/
def call : Stmt := .expr (.call (.var ⟨"grow", default⟩) [.var ⟨"limit", default⟩] default) default

/-- A constant, and a function that changes its parameter of the same name. -/
def program : Module := ⟨"growing", ⟨[limit, .fn grow, call], default⟩, default⟩

def node : Node := .block [limit, .fn grow, call]

def stmts : List Stmt := [limit, .fn grow, raise, answer, call]

theorem stmt_mem {s : Stmt} (h : Within Node.parts node (.stmt s)) : s ∈ stmts :=
  Node.stmt_mem_inside (k := 6) h rfl

theorem block_mem {l : List Stmt} (h : Within Node.parts node (.block l)) :
    l = [limit, .fn grow, call] ∨ l = [raise, answer] := by
  have hmem : l ∈ [[limit, .fn grow, call], [raise, answer]] := Node.block_mem_inside (k := 6) h rfl
  simpa using hmem

/-- The definition of the constant comes first. -/
theorem nil_of_defines {pre post : List Stmt} {s : Stmt} {x : String}
    (hs : Within Node.parts node (.block (pre ++ s :: post))) (hdef : s.Defines true x) :
    pre = [] ∧ s = limit := by
  have hdefines : ∀ t ∈ stmts, t.Defines true x → t = limit := by
    simp [stmts, raise, answer, call, Stmt.Defines]
  obtain rfl := hdefines s (stmt_mem (hs.trans (.part (List.mem_map_of_mem (by simp)) (.refl _)))) hdef
  rcases block_mem hs with hl | hl
  · cases pre with
    | nil => exact ⟨rfl, rfl⟩
    | cons p pre =>
      have hmem : limit ∈ [.fn grow, call] := by simp [← (List.cons.inj hl).2]
      simp [limit, call] at hmem
  · have hmem : limit ∈ [raise, answer] := by simp [← hl]
    simp [limit, raise, answer] at hmem

theorem careful : node.Careful where
  places := by
    intro target op value span id hs hid _
    have hraise : ∀ s ∈ stmts, s.target? = some id → s = raise := by
      simp [stmts, limit, answer, call, Stmt.target?]
    cases hraise _ (stmt_mem hs) hid
    cases hid
    rfl
  order := by
    intro pre s post x t hs hdef ht hx
    obtain ⟨rfl, rfl⟩ := nil_of_defines hs hdef
    rw [List.mem_singleton.1 ht] at hx
    obtain ⟨s, id, hs, hid, -⟩ := hx.assigns.exists_target
    have hmem : s ∈ [limit] := Node.stmt_mem_inside (k := 1) hs rfl
    rw [List.mem_singleton.1 hmem] at hid
    cases hid
  hoist := by
    intro pre s post d x hs hd hx _
    have hdecl : ∀ s ∈ stmts, d ∈ s.fns → d = grow := by
      simp [stmts, limit, raise, answer, call, Stmt.fns]
    have hmem : s ∈ stmts := stmt_mem (hs.trans (.part (List.mem_map_of_mem (by simp)) (.refl _)))
    rw [hdecl s hmem hd] at hx
    -- the parameter is all that the function assigns to
    obtain ⟨t, id, ht, hid, rfl⟩ := hx.exists_target
    have hbody : ∀ s ∈ [raise, answer], s.target? = some id → id = ⟨"limit", default⟩ := by
      simp [raise, answer, Stmt.target?, Expr.root?, eq_comm]
    rw [hbody t (Node.stmt_mem_inside (k := 4) ht rfl) hid] at hx
    cases hx with
    | part _ hhides _ => exact absurd List.mem_cons_self hhides
  patterns := by
    intro s arm x hs harm
    have hnone : ∀ s ∈ stmts, s.arms = [] := by simp [stmts, limit, raise, answer, call, Stmt.arms]
    rw [hnone s (stmt_mem hs)] at harm
    cases harm

end Growing

/-- The module runs to its end. -/
theorem growing_keeps_constants :
    Growing.program.checkConsts = [] ∧ Growing.node.Careful ∧
      (Growing.program.run {} {}).1.toOption.map Value.repr = some "2" ∧
      ∀ config w f, (Growing.program.run config w).1 = .error (.interrupt (.fault f)) →
        f.kind ≠ .constReassignment := by
  have hcheck : Growing.program.checkConsts = [] := by decide +kernel
  exact ⟨hcheck, Growing.careful, by decide +kernel,
    (checked_module_keeps_constants hcheck Growing.careful).2⟩

end Sluice
