import Mathlib.Data.List.Nodup
import Sluice.Proofs.Parser.Proper
import Sluice.Proofs.Parser.Yields

/-! What parsing guarantees: every piece of a module that was read is proper, at any depth. -/
namespace Sluice

namespace Parser

theorem forall_mem_reverse {α : Type} {P : α → Prop} {l : List α} (h : ∀ a ∈ l, P a) :
    ∀ a ∈ l.reverse, P a := fun a ha => h a (List.mem_reverse.1 ha)

/-! ### Chains -/

theorem placed_addStage {lhs stage : Expr} (hlhs : lhs.Placed) (hstage : stage.Placed)
    (hsingle : stage.isCompose = false) : (addStage lhs stage).Placed := by
  unfold addStage
  split
  next stages mode span =>
    obtain ⟨hlen, hstages⟩ : 2 ≤ stages.length ∧ ∀ e ∈ stages, e.isCompose = false :=
      hlhs.wellformed.proper
    refine ⟨Expr.wellformed_of_parts ⟨?_, ?_⟩ (by simp) ?_, hlhs.immediate⟩
    · rw [List.length_append]
      omega
    · exact List.forall_mem_append.2 ⟨hstages, List.forall_mem_singleton.2 hsingle⟩
    · exact List.forall_mem_append.2 ⟨fun e he => hlhs.wellformed.placed he,
        List.forall_mem_singleton.2 hstage⟩
  next hne =>
    have hfirst : lhs.isCompose = false := by
      unfold Expr.isCompose
      split
      · exact (hne _ _ _ rfl).elim
      · rfl
    refine ⟨Expr.wellformed_of_parts ⟨Nat.le_refl 2, ?_⟩ (by simp) ?_, rfl⟩
    · exact List.forall_mem_cons.2 ⟨hfirst, List.forall_mem_singleton.2 hsingle⟩
    · exact List.forall_mem_cons.2 ⟨hlhs, List.forall_mem_singleton.2 hstage⟩

theorem placed_addMember {base : Expr} (h : base.Placed) (name : Ident) :
    (addMember base name).Placed ∧ (addMember base name).isCompose = false := by
  unfold addMember
  split
  next inner names span =>
    obtain ⟨-, hinner⟩ : names ≠ [] ∧ inner.isMember = false := h.wellformed.proper
    refine ⟨⟨Expr.wellformed_of_parts ⟨by simp, hinner⟩ (by simp) ?_, trivial⟩, rfl⟩
    exact fun e he => h.wellformed.placed he
  next hbase =>
    have hbase : base.isMember = false := by
      unfold Expr.isMember
      split
      · exact (hbase _ _ _ rfl).elim
      · rfl
    refine ⟨⟨Expr.wellformed_of_parts ⟨by simp, hbase⟩ (by simp) ?_, trivial⟩, rfl⟩
    exact List.forall_mem_singleton.2 h

theorem wellformed_defer {e : Expr} (h : e.Wellformed) :
    (defer e).Wellformed ∧ (defer e).RunsAs .deferred := by
  unfold defer
  split
  · exact ⟨Expr.wellformed_of_parts h.proper nofun fun e' he' => h.placed he', rfl⟩
  next hne =>
    refine ⟨h, ?_⟩
    unfold Expr.RunsAs
    split
    · exact (hne _ _ _ rfl).elim
    · trivial

theorem runsAs_of_isAssignable {e : Expr} (h : isAssignable e = true) (mode : ComposeMode) :
    e.RunsAs mode := by
  cases e with
  | compose stages m span => cases h
  | _ => trivial

/-! ### Names that stand side by side -/

theorem nodup_of_fresh {α : Type} {name : α → Ident} {seen : List α} {a : α}
    (hseen : (seen.map fun b => (name b).text).Nodup)
    (hfresh : ¬ seen.any (fun b => (name b).text = (name a).text) = true) :
    ((a :: seen).map fun b => (name b).text).Nodup := by
  refine List.nodup_cons.2 ⟨fun hmem => ?_, hseen⟩
  obtain ⟨b, hb, hname⟩ := List.mem_map.1 hmem
  exact hfresh (List.any_eq_true.2 ⟨b, hb, by simpa using hname⟩)

theorem nodup_reverse {α : Type} {name : α → Ident} {seen : List α}
    (hseen : (seen.map fun b => (name b).text).Nodup) :
    (seen.reverse.map fun b => (name b).text).Nodup := by
  rw [List.map_reverse]
  exact List.nodup_reverse.2 hseen

theorem yields_paramList (whole : Tokens) (seen : List Param) (ts : Tokens)
    (h : ts.length < whole.length) (hseen : (seen.map (·.name.text)).Nodup) :
    Yields (fun p => (p.value.map (·.name.text)).Nodup) (paramList whole seen ts h) := by
  rw [paramList]
  split
  · exact yields_pure (nodup_reverse hseen)
  · refine yields_any.step fun name ts₁ h₁ _ => ?_
    dsimp only
    split
    · exact yields_error _
    next hfresh =>
      refine yields_any.step fun type ts₂ h₂ _ => ?_
      dsimp only
      split
      next ts₃ h₃ _ => exact yields_paramList whole _ ts₃ _ (nodup_of_fresh hseen hfresh)
      next => exact yields_pure (nodup_reverse (nodup_of_fresh hseen hfresh))
termination_by ts.length
decreasing_by omega

theorem yields_params (ts : Tokens) :
    Yields (fun p => (p.value.map (·.name.text)).Nodup) (params ts) := by
  rw [params]
  refine yields_any.step fun _ ts₁ h₁ _ => ?_
  refine (yields_paramList ts [] ts₁ h₁ .nil).step fun ps ts₂ h₂ hps => ?_
  exact yields_any.bind fun _ _ => yields_pure hps

theorem yields_structFields (whole : Tokens) (seen : List FieldDef) (ts : Tokens)
    (h : ts.length < whole.length) (hseen : (seen.map (·.name.text)).Nodup) :
    Yields (fun p => (p.value.map (·.name.text)).Nodup) (structFields whole seen ts h) := by
  have hskip := (skip separates ts).2
  rw [structFields]
  dsimp only
  split
  · exact yields_pure (nodup_reverse hseen)
  · refine yields_any.step fun name ts₁ h₁ _ => ?_
    dsimp only
    split
    · exact yields_error _
    next hfresh =>
      refine yields_any.step fun _ ts₂ h₂ _ => ?_
      dsimp only
      refine yields_any.step fun type ts₃ h₃ _ => ?_
      exact yields_structFields whole _ ts₃ _ (nodup_of_fresh hseen hfresh)
termination_by ts.length
decreasing_by omega

theorem yields_structDef (ts : Tokens) :
    Yields (fun p => (p.value.fields.map (·.name.text)).Nodup) (structDef ts) := by
  rw [structDef]
  refine yields_any.step fun _ ts₁ h₁ _ => yields_any.step fun _ ts₂ h₂ _ => ?_
  refine yields_any.step fun _ ts₃ h₃ _ => yields_any.step fun _ ts₄ h₄ _ => ?_
  refine (yields_structFields ts₃ [] ts₄ h₄ .nil).step fun _ ts₅ h₅ hfields => ?_
  exact yields_any.bind fun _ _ => yields_pure hfields

theorem yields_enumMembers (whole : Tokens) (seen : List EnumMember) (ts : Tokens)
    (h : ts.length < whole.length) (hseen : (seen.map (·.name.text)).Nodup) :
    Yields (fun p => (p.value.map (·.name.text)).Nodup) (enumMembers whole seen ts h) := by
  have hskip := (skip separates ts).2
  rw [enumMembers]
  dsimp only
  split
  · exact yields_pure (nodup_reverse hseen)
  · refine yields_any.step fun name ts₁ h₁ _ => ?_
    dsimp only
    split
    · exact yields_error _
    next hfresh =>
      refine yields_any.step fun type ts₂ h₂ _ => ?_
      exact yields_enumMembers whole _ ts₂ _ (nodup_of_fresh hseen hfresh)
termination_by ts.length
decreasing_by omega

theorem yields_enumDef (ts : Tokens) :
    Yields (fun p => (p.value.members.map (·.name.text)).Nodup) (enumDef ts) := by
  rw [enumDef]
  refine yields_any.step fun _ ts₁ h₁ _ => yields_any.step fun _ ts₂ h₂ _ => ?_
  refine yields_any.step fun _ ts₃ h₃ _ => yields_any.step fun _ ts₄ h₄ _ => ?_
  refine (yields_enumMembers ts₃ [] ts₄ h₄ .nil).step fun _ ts₅ h₅ hmembers => ?_
  exact yields_any.bind fun _ _ => yields_pure hmembers

theorem yields_methodSigs (whole : Tokens) (seen : List MethodSig) (ts : Tokens)
    (h : ts.length < whole.length)
    (hseen : ∀ m ∈ seen, m.params ≠ [] ∧ (m.params.map (·.name.text)).Nodup) :
    Yields (fun p => ∀ m ∈ p.value, m.params ≠ [] ∧ (m.params.map (·.name.text)).Nodup)
      (methodSigs whole seen ts h) := by
  have hskip := (skip separates ts).2
  rw [methodSigs]
  dsimp only
  split
  · exact yields_pure (forall_mem_reverse hseen)
  · refine yields_any.step fun _ ts₁ h₁ _ => ?_
    dsimp only
    refine yields_any.step fun name ts₂ h₂ _ => ?_
    dsimp only
    refine (yields_params ts₂).step fun ps ts₃ h₃ hps => ?_
    dsimp only
    split
    · exact yields_error _
    next hne =>
      refine yields_any.step fun result ts₄ h₄ _ => ?_
      refine yields_methodSigs whole _ ts₄ _ (List.forall_mem_cons.2 ⟨⟨?_, hps⟩, hseen⟩)
      rintro rfl
      exact hne rfl
termination_by ts.length
decreasing_by omega

theorem yields_typeclassDef (ts : Tokens) :
    Yields (fun p => ∀ m ∈ p.value.methods, m.params ≠ [] ∧ (m.params.map (·.name.text)).Nodup)
      (typeclassDef ts) := by
  rw [typeclassDef]
  refine yields_any.step fun _ ts₁ h₁ _ => yields_any.step fun _ ts₂ h₂ _ => ?_
  refine yields_any.step fun _ ts₃ h₃ _ => yields_any.step fun _ ts₄ h₄ _ => ?_
  refine (yields_methodSigs ts₃ [] ts₄ h₄ (List.forall_mem_nil _)).step fun _ ts₅ h₅ hmethods => ?_
  exact yields_any.bind fun _ _ => yields_pure hmethods

theorem yields_importStmt (ts : Tokens) :
    Yields (fun p => p.value.Wellformed) (importStmt ts) := by
  rw [importStmt]
  refine yields_any.step fun start ts₁ h₁ _ => yields_any.step fun source ts₂ h₂ _ => ?_
  dsimp only
  split
  · exact yields_pure (Stmt.PartsWellformed.wellformed {} trivial (by simp))
  · refine yields_any.step fun names ts₄ h₄ _ => yields_any.step fun stop ts₅ h₅ _ => ?_
    exact yields_pure (Stmt.PartsWellformed.wellformed {} trivial (by simp))

/-! ### Patterns -/

theorem yields_negative (start : Span) (ts : Tokens) :
    Yields (fun p => p.value.Wellformed) (negative start ts) := by
  unfold negative
  split
  · exact yields_ok (Pattern.wellformed_of_parts trivial (List.forall_mem_nil _))
  · exact yields_ok (Pattern.wellformed_of_parts trivial (List.forall_mem_nil _))
  · exact yields_error _

mutual

theorem yields_pattern (ts : Tokens) : Yields (fun p => p.value.Wellformed) (pattern ts) := by
  rw [pattern]
  split
  next kind span r h _ =>
    split
    · exact yields_pure (Pattern.wellformed_of_parts trivial (List.forall_mem_nil _))
    · exact yields_pure (Pattern.wellformed_of_parts trivial (List.forall_mem_nil _))
    · refine yields_any.step fun _ ts₁ h₁ _ => ?_
      dsimp only
      refine (yields_pattern ts₁).step fun inner ts₂ h₂ hinner => ?_
      refine yields_any.step fun stop ts₃ h₃ _ => yields_pure ?_
      exact Pattern.wellformed_of_parts trivial (List.forall_mem_singleton.2 hinner)
    · split
      next ts₁ h₁ _ =>
        refine (yields_patternList r [] false ts₁ h₁ (List.forall_mem_nil _)).step ?_
        rintro ⟨fields, _⟩ ts₂ h₂ hfields
        refine yields_any.step fun stop ts₃ h₃ _ => yields_pure ?_
        exact Pattern.wellformed_of_parts trivial hfields
      next =>
        split
        next ts₁ h₁ _ =>
          refine (yields_fieldPatterns r [] ts₁ h₁ (List.forall_mem_nil _)).step
            fun fields ts₂ h₂ hfields => ?_
          refine yields_any.step fun stop ts₃ h₃ _ => yields_pure ?_
          refine Pattern.wellformed_of_parts trivial fun p hp => ?_
          obtain ⟨field, hfield, rfl⟩ := List.mem_map.1 hp
          exact hfields field hfield
        next => exact yields_pure (Pattern.wellformed_of_parts trivial (List.forall_mem_nil _))
    · refine (yields_patternList ts [] false r h (List.forall_mem_nil _)).step ?_
      rintro ⟨elems, trailing⟩ ts₁ h₁ helems
      dsimp only
      refine yields_any.step fun stop ts₂ h₂ _ => ?_
      dsimp only
      split
      · exact yields_error _
      next => exact yields_pure (helems _ List.mem_cons_self)
      next hone htwo =>
        refine yields_pure (Pattern.wellformed_of_parts (fun hlen => ?_) helems)
        obtain ⟨p, rfl⟩ := List.length_eq_one_iff.1 hlen
        cases trailing with
        | true => exact hone p rfl rfl
        | false => exact htwo p rfl rfl
    · exact (yields_negative span r).step fun p ts₁ h₁ hp => yields_pure hp
    · split
      · exact yields_pure (Pattern.wellformed_of_parts trivial (List.forall_mem_nil _))
      · exact yields_error _
  next => exact yields_error _
termination_by 2 * ts.length
decreasing_by all_goals omega

theorem yields_patternList (whole : Tokens) (seen : List Pattern) (trailing : Bool) (ts : Tokens)
    (h : ts.length < whole.length) (hseen : ∀ p ∈ seen, p.Wellformed) :
    Yields (fun p => ∀ q ∈ p.value.1, q.Wellformed) (patternList whole seen trailing ts h) := by
  rw [patternList]
  split
  · exact yields_pure (forall_mem_reverse hseen)
  · refine (yields_pattern ts).step fun p ts₁ h₁ hp => ?_
    have hall : ∀ q ∈ p :: seen, q.Wellformed := List.forall_mem_cons.2 ⟨hp, hseen⟩
    dsimp only
    split
    next ts₂ h₂ _ => exact yields_patternList whole (p :: seen) true ts₂ _ hall
    next => exact yields_pure (forall_mem_reverse hall)
termination_by 2 * ts.length + 1
decreasing_by all_goals omega

theorem yields_fieldPatterns (whole : Tokens) (seen : List (Ident × Pattern)) (ts : Tokens)
    (h : ts.length < whole.length) (hseen : ∀ field ∈ seen, field.2.Wellformed) :
    Yields (fun p => ∀ field ∈ p.value, field.2.Wellformed) (fieldPatterns whole seen ts h) := by
  have hskip := (skip separates ts).2
  rw [fieldPatterns]
  dsimp only
  split
  · exact yields_pure (forall_mem_reverse hseen)
  · refine yields_any.step fun name ts₁ h₁ _ => ?_
    dsimp only
    split
    next ts₂ h₂ _ =>
      refine (yields_pattern ts₂).step fun p ts₃ h₃ hp => ?_
      exact yields_fieldPatterns whole ((name, p) :: seen) ts₃ _ (List.forall_mem_cons.2 ⟨hp, hseen⟩)
    next =>
      have hname : (Pattern.name name).Wellformed :=
        Pattern.wellformed_of_parts trivial (List.forall_mem_nil _)
      exact yields_fieldPatterns whole ((name, .name name) :: seen) ts₁ _
        (List.forall_mem_cons.2 ⟨hname, hseen⟩)
termination_by 2 * ts.length + 1
decreasing_by all_goals omega

end

/-! ### Expressions and statements -/

/-- What may be read as an expression whose operators bind at least as tightly as `power`: no chain of
stages where `|` binds too loosely. -/
structure ReadAt (power : Nat) (e : Expr) : Prop where
  placed : e.Placed
  single : pipePower < power → e.isCompose = false

theorem ReadAt.stands {power : Nat} {e : Expr} (h : ReadAt power e) :
    e.Wellformed ∧ e.RunsAs .immediate := ⟨h.placed.wellformed, h.placed.immediate⟩

mutual

theorem yields_expr (depth power : Nat) (ts : Tokens) :
    Yields (fun p => ReadAt power p.value) (expr depth power ts) := by
  rw [expr]
  split
  · exact yields_error _
  · refine (yields_operand (depth + 1) ts).step fun first ts₁ h₁ hfirst => ?_
    exact yields_operators (depth + 1) power ts first ts₁ h₁ ⟨hfirst.1, fun _ => hfirst.2⟩
termination_by 8 * ts.length + 2
decreasing_by all_goals omega

theorem yields_operators (depth power : Nat) (whole : Tokens) (lhs : Expr) (ts : Tokens)
    (h : ts.length < whole.length) (hlhs : ReadAt power lhs) :
    Yields (fun p => ReadAt power p.value) (operators depth power whole lhs ts h) := by
  have hstop : Yields (fun p => ReadAt power p.value)
      (pure ⟨lhs, ts, h⟩ : Result Expr whole) := yields_pure hlhs
  obtain ⟨hlhs, -⟩ := hlhs
  rw [operators]
  split
  next kind span r hr _ =>
    split
    · refine (yields_callArgs depth ts [] r hr (List.forall_mem_nil _)).step ?_
      rintro ⟨args, stop⟩ ts₁ h₁ hargs
      refine yields_operators depth power whole _ ts₁ _ ⟨⟨?_, trivial⟩, fun _ => rfl⟩
      exact Expr.wellformed_of_parts trivial nofun (List.forall_mem_cons.2 ⟨hlhs, hargs⟩)
    · refine (yields_expr depth 0 r).step fun key ts₁ h₁ hkey => ?_
      dsimp only
      refine yields_any.step fun stop ts₂ h₂ _ => ?_
      refine yields_operators depth power whole _ ts₂ _ ⟨⟨?_, trivial⟩, fun _ => rfl⟩
      exact Expr.wellformed_of_parts trivial nofun
        (List.forall_mem_cons.2 ⟨hlhs, List.forall_mem_singleton.2 hkey.placed⟩)
    · refine yields_any.step fun name ts₁ h₁ _ => ?_
      obtain ⟨hmember, hsingle⟩ := placed_addMember hlhs name
      exact yields_operators depth power whole _ ts₁ _ ⟨hmember, fun _ => hsingle⟩
    · split
      · exact hstop
      next hpower =>
        refine (yields_expr depth (pipePower + 1) r).step fun stage ts₁ h₁ hstage => ?_
        refine yields_operators depth power whole _ ts₁ _ ⟨?_, fun hlt => (hpower hlt).elim⟩
        exact placed_addStage hlhs hstage.placed (hstage.single (Nat.lt_succ_self _))
    · split
      · exact hstop
      next op p _ =>
        split
        · exact hstop
        · refine (yields_expr depth (p + 1) r).step fun rhs ts₁ h₁ hrhs => ?_
          refine yields_operators depth power whole _ ts₁ _ ⟨⟨?_, trivial⟩, fun _ => rfl⟩
          exact Expr.wellformed_of_parts trivial nofun
            (List.forall_mem_cons.2 ⟨hlhs, List.forall_mem_singleton.2 hrhs.placed⟩)
  next => exact hstop
termination_by 8 * ts.length + 6
decreasing_by all_goals omega

theorem yields_callArgs (depth : Nat) (whole : Tokens) (seen : List Expr) (ts : Tokens)
    (h : ts.length < whole.length) (hseen : ∀ e ∈ seen, e.Placed) :
    Yields (fun p => ∀ e ∈ p.value.1, e.Placed) (callArgs depth whole seen ts h) := by
  rw [callArgs]
  split
  · exact yields_pure (forall_mem_reverse hseen)
  · refine (yields_expr depth 0 ts).step fun arg ts₁ h₁ harg => ?_
    have hall : ∀ e ∈ arg :: seen, e.Placed := List.forall_mem_cons.2 ⟨harg.placed, hseen⟩
    dsimp only
    split
    next ts₂ h₂ _ => exact yields_callArgs depth whole (arg :: seen) ts₂ _ hall
    next => exact yields_any.step fun stop ts₂ h₂ _ => yields_pure (forall_mem_reverse hall)
termination_by 8 * ts.length + 6
decreasing_by all_goals omega

theorem yields_operand (depth : Nat) (ts : Tokens) :
    Yields (fun p => p.value.Placed ∧ p.value.isCompose = false) (operand depth ts) := by
  have hatom {e : Expr} (hp : e.Proper) (hne : ∀ params type body span, e ≠ .lambda params type body span)
      (hparts : e.parts = []) (himmediate : e.RunsAs .immediate) (hsingle : e.isCompose = false) :
      e.Placed ∧ e.isCompose = false :=
    ⟨⟨Expr.wellformed_of_parts hp hne (hparts ▸ List.forall_mem_nil _), himmediate⟩, hsingle⟩
  rw [operand]
  split
  next kind span r h _ =>
    dsimp only
    split
    next op _ =>
      refine (yields_expr depth unaryPower r).step fun e ts₁ h₁ he => ?_
      refine yields_pure ⟨⟨Expr.wellformed_of_parts trivial nofun ?_, trivial⟩, rfl⟩
      exact List.forall_mem_singleton.2 he.placed
    next =>
      split
      next => exact yields_pure (hatom trivial nofun rfl trivial rfl)
      next =>
        split
        · exact yields_pure (hatom trivial nofun rfl trivial rfl)
        · exact yields_pure (hatom trivial nofun rfl trivial rfl)
        · refine (yields_exprList depth ts [] false r h (List.forall_mem_nil _)).step ?_
          rintro ⟨elems, trailing⟩ ts₁ h₁ helems
          dsimp only
          refine yields_any.step fun stop ts₂ h₂ _ => ?_
          dsimp only
          split
          · exact yields_error _
          · exact yields_pure ⟨⟨Expr.wellformed_of_parts trivial nofun helems, trivial⟩, rfl⟩
          next hone htwo =>
            refine yields_pure ⟨⟨Expr.wellformed_of_parts (fun hlen => ?_) nofun helems, trivial⟩, rfl⟩
            obtain ⟨e, rfl⟩ := List.length_eq_one_iff.1 hlen
            cases trailing with
            | true => exact hone e rfl rfl
            | false => exact htwo e rfl rfl
        · split
          · exact yields_pure (hatom trivial nofun rfl trivial rfl)
          · refine (yields_expr depth 0 r).step fun first ts₁ h₁ hfirst => ?_
            dsimp only
            split
            next ts₂ h₂ _ =>
              refine (yields_expr depth 0 ts₂).step fun hi ts₃ h₃ hhi => ?_
              refine yields_any.step fun stop ts₄ h₄ _ => ?_
              refine yields_pure ⟨⟨Expr.wellformed_of_parts trivial nofun ?_, trivial⟩, rfl⟩
              exact List.forall_mem_cons.2 ⟨hfirst.placed, List.forall_mem_singleton.2 hhi.placed⟩
            next =>
              refine (yields_listItems depth r [first] ts₁ h₁
                (List.forall_mem_singleton.2 hfirst.placed)).step fun items ts₂ h₂ hitems => ?_
              refine yields_any.step fun stop ts₃ h₃ _ => ?_
              exact yields_pure ⟨⟨Expr.wellformed_of_parts trivial nofun hitems, trivial⟩, rfl⟩
        · refine (yields_mapEntries depth ts [] r h (List.forall_mem_nil _)).step
            fun entries ts₁ h₁ hentries => ?_
          refine yields_any.step fun stop ts₂ h₂ _ => ?_
          refine yields_pure ⟨⟨Expr.wellformed_of_parts trivial nofun fun e he => ?_, trivial⟩, rfl⟩
          obtain ⟨entry, hentry, he⟩ := List.mem_flatMap.1 he
          simp only [List.mem_cons, List.not_mem_nil, or_false] at he
          rcases he with rfl | rfl
          · exact (hentries entry hentry).1
          · exact (hentries entry hentry).2
        · refine (yields_params r).step fun ps ts₁ h₁ hps => ?_
          dsimp only
          refine yields_any.step fun result ts₂ h₂ _ => ?_
          dsimp only
          refine (yields_block depth ts₂).step fun body ts₃ h₃ hbody => yields_pure ?_
          exact ⟨⟨Expr.wellformed_lambda ⟨hps, hbody⟩, trivial⟩, rfl⟩
        · exact yields_error _
  next => exact yields_error _
termination_by 8 * ts.length + 1
decreasing_by all_goals omega

theorem yields_exprList (depth : Nat) (whole : Tokens) (seen : List Expr) (trailing : Bool)
    (ts : Tokens) (h : ts.length < whole.length) (hseen : ∀ e ∈ seen, e.Placed) :
    Yields (fun p => ∀ e ∈ p.value.1, e.Placed) (exprList depth whole seen trailing ts h) := by
  rw [exprList]
  split
  · exact yields_pure (forall_mem_reverse hseen)
  · refine (yields_expr depth 0 ts).step fun e ts₁ h₁ he => ?_
    have hall : ∀ e' ∈ e :: seen, e'.Placed := List.forall_mem_cons.2 ⟨he.placed, hseen⟩
    dsimp only
    split
    next ts₂ h₂ _ => exact yields_exprList depth whole (e :: seen) true ts₂ _ hall
    next => exact yields_pure (forall_mem_reverse hall)
termination_by 8 * ts.length + 6
decreasing_by all_goals omega

theorem yields_listItems (depth : Nat) (whole : Tokens) (seen : List Expr) (ts : Tokens)
    (h : ts.length < whole.length) (hseen : ∀ e ∈ seen, e.Placed) :
    Yields (fun p => ∀ e ∈ p.value, e.Placed) (listItems depth whole seen ts h) := by
  rw [listItems]
  split
  next ts₁ h₁ _ =>
    dsimp only
    split
    · exact yields_pure (forall_mem_reverse hseen)
    · refine (yields_expr depth 0 ts₁).step fun e ts₂ h₂ he => ?_
      exact yields_listItems depth whole (e :: seen) ts₂ _
        (List.forall_mem_cons.2 ⟨he.placed, hseen⟩)
  next => exact yields_pure (forall_mem_reverse hseen)
termination_by 8 * ts.length + 6
decreasing_by all_goals omega

theorem yields_mapEntries (depth : Nat) (whole : Tokens) (seen : List (Expr × Expr)) (ts : Tokens)
    (h : ts.length < whole.length) (hseen : ∀ e ∈ seen, e.1.Placed ∧ e.2.Placed) :
    Yields (fun p => ∀ e ∈ p.value, e.1.Placed ∧ e.2.Placed)
      (mapEntries depth whole seen ts h) := by
  have hskip := (skip separates ts).2
  rw [mapEntries]
  dsimp only
  split
  · exact yields_pure (forall_mem_reverse hseen)
  · refine (yields_expr depth 0 (skip separates ts).1).step fun key ts₁ h₁ hkey => ?_
    dsimp only
    refine yields_any.step fun _ ts₂ h₂ _ => ?_
    dsimp only
    refine (yields_expr depth 0 ts₂).step fun value ts₃ h₃ hvalue => ?_
    exact yields_mapEntries depth whole ((key, value) :: seen) ts₃ _
      (List.forall_mem_cons.2 ⟨⟨hkey.placed, hvalue.placed⟩, hseen⟩)
termination_by 8 * ts.length + 6
decreasing_by all_goals omega

theorem yields_block (depth : Nat) (ts : Tokens) :
    Yields (fun p => ∀ s ∈ p.value.stmts, s.Wellformed) (block depth ts) := by
  rw [block]
  split
  · exact yields_error _
  · refine yields_any.step fun start ts₁ h₁ _ => ?_
    dsimp only
    refine (yields_stmts (depth + 1) true ts [] ts₁ h₁ (List.forall_mem_nil _)).step
      fun body ts₂ h₂ hbody => ?_
    exact yields_any.bind fun _ _ => yields_pure hbody
termination_by 8 * ts.length
decreasing_by all_goals omega

theorem yields_stmts (depth : Nat) (inner : Bool) (whole : Tokens) (seen : List Stmt) (ts : Tokens)
    (h : ts.length < whole.length) (hseen : ∀ s ∈ seen, s.Wellformed) :
    Yields (fun p => ∀ s ∈ p.value, s.Wellformed) (stmts depth inner whole seen ts h) := by
  have hskip := (skip endsStmt ts).2
  rw [stmts]
  dsimp only
  split
  · exact yields_pure (forall_mem_reverse hseen)
  · refine (yields_stmt depth (skip endsStmt ts).1).step fun s ts₁ h₁ hs => ?_
    dsimp only
    split
    · exact yields_stmts depth inner whole (s :: seen) ts₁ _ (List.forall_mem_cons.2 ⟨hs, hseen⟩)
    · exact yields_error _
termination_by 8 * ts.length + 7
decreasing_by all_goals omega

theorem yields_stmt (depth : Nat) (ts : Tokens) :
    Yields (fun p => p.value.Wellformed) (stmt depth ts) := by
  rw [stmt]
  split
  next kind span r h _ =>
    dsimp only
    split
    · split
      · refine (yields_fnDecl depth r).step fun d ts₁ h₁ hd => yields_pure ?_
        exact Stmt.PartsWellformed.wellformed { fns := List.forall_mem_singleton.2 hd } trivial nofun
      · refine (yields_varDef depth span true r).step fun s ts₁ h₁ hs => yields_pure hs
    · exact yields_varDef depth span false ts
    · split
      · refine (yields_fnDecl depth ts).step fun d ts₁ h₁ hd => yields_pure ?_
        exact Stmt.PartsWellformed.wellformed { fns := List.forall_mem_singleton.2 hd } trivial nofun
      · exact yields_exprStmt depth ts
    · refine (yields_structDef ts).step fun d ts₁ h₁ hd => yields_pure ?_
      exact Stmt.PartsWellformed.wellformed {} hd nofun
    · refine (yields_enumDef ts).step fun d ts₁ h₁ hd => yields_pure ?_
      exact Stmt.PartsWellformed.wellformed {} hd nofun
    · refine (yields_typeclassDef ts).step fun d ts₁ h₁ hd => yields_pure ?_
      exact Stmt.PartsWellformed.wellformed {} hd nofun
    · refine yields_any.step fun name ts₁ h₁ _ => ?_
      dsimp only
      refine yields_any.step fun target ts₂ h₂ _ => ?_
      dsimp only
      refine yields_any.step fun _ ts₃ h₃ _ => ?_
      dsimp only
      refine (yields_implMethods depth ts₂ [] ts₃ h₃ (List.forall_mem_nil _)).step
        fun methods ts₄ h₄ hmethods => ?_
      refine yields_any.step fun stop ts₅ h₅ _ => yields_pure ?_
      exact Stmt.PartsWellformed.wellformed { fns := hmethods } trivial nofun
    · refine (yields_pattern r).step fun pat ts₁ h₁ hpat => ?_
      dsimp only
      refine yields_any.step fun _ ts₂ h₂ _ => ?_
      dsimp only
      refine (yields_expr depth 0 ts₂).step fun iter ts₃ h₃ hiter => ?_
      dsimp only
      refine (yields_block depth ts₃).step fun body ts₄ h₄ hbody => yields_pure ?_
      exact Stmt.PartsWellformed.wellformed { exprs := List.forall_mem_singleton.2 hiter.stands
                                              arms := List.forall_mem_singleton.2 ⟨hpat, hbody⟩ }
        trivial nofun
    · refine (yields_branches depth ts [] r h (List.forall_mem_nil _)).step ?_
      rintro ⟨branches, otherwise, stop⟩ ts₁ h₁ ⟨hne, hbranches, hotherwise⟩
      refine yields_pure ?_
      refine Stmt.PartsWellformed.wellformed { exprs := fun e he => ?_, blocks := fun b hb => ?_ }
        hne nofun
      · obtain ⟨q, hq, rfl⟩ := List.mem_map.1 he
        exact (hbranches q hq).1.stands
      · rcases List.mem_append.1 hb with hb | hb
        · obtain ⟨q, hq, rfl⟩ := List.mem_map.1 hb
          exact (hbranches q hq).2
        · exact hotherwise b (Option.mem_toList.1 hb)
    · refine (yields_expr depth 0 r).step fun test ts₁ h₁ htest => ?_
      dsimp only
      refine (yields_block depth ts₁).step fun body ts₂ h₂ hbody => yields_pure ?_
      exact Stmt.PartsWellformed.wellformed { exprs := List.forall_mem_singleton.2 htest.stands
                                              blocks := List.forall_mem_singleton.2 hbody } trivial
        nofun
    · refine (yields_expr depth 0 r).step fun scrutinee ts₁ h₁ hscrutinee => ?_
      dsimp only
      refine yields_any.step fun _ ts₂ h₂ _ => ?_
      dsimp only
      refine (yields_matchArms depth ts₁ [] ts₂ h₂ (List.forall_mem_nil _)).step fun arms ts₃ h₃ harms => ?_
      refine yields_any.step fun stop ts₄ h₄ _ => yields_pure ?_
      refine Stmt.PartsWellformed.wellformed { exprs := List.forall_mem_singleton.2 hscrutinee.stands
                                               arms := fun arm harm => ?_ } trivial nofun
      obtain ⟨a, ha, rfl⟩ := List.mem_map.1 harm
      exact harms a ha
    · exact yields_importStmt ts
    · refine yields_any.step fun name ts₁ h₁ _ => ?_
      dsimp only
      refine (yields_block depth ts₁).step fun body ts₂ h₂ hbody => yields_pure ?_
      exact Stmt.wellformed_submodule hbody
    · split
      · exact yields_pure (Stmt.PartsWellformed.wellformed {} trivial nofun)
      · refine (yields_expr depth 0 r).step fun e ts₁ h₁ he => yields_pure ?_
        exact Stmt.PartsWellformed.wellformed { exprs := List.forall_mem_singleton.2 he.stands } trivial
          nofun
    · exact yields_pure (Stmt.PartsWellformed.wellformed {} trivial nofun)
    · exact yields_pure (Stmt.PartsWellformed.wellformed {} trivial nofun)
    · exact yields_error _
    · exact yields_error _
    · split
      · exact yields_varDef depth span false ts
      · exact yields_exprStmt depth ts
    · exact yields_exprStmt depth ts
  next => exact yields_exprStmt depth ts
termination_by 8 * ts.length + 5
decreasing_by all_goals omega

theorem yields_varDef (depth : Nat) (start : Span) (isPub : Bool) (ts : Tokens) :
    Yields (fun p => p.value.Wellformed) (varDef depth start isPub ts) := by
  rw [varDef]
  -- With or without `const`, the rest of the definition is read the same way.
  have hrest (isConst : Bool) (name : Ident) (ts₁ : Tokens) (h₁ : ts₁.length < ts.length) :
      Yields (fun p => p.value.Wellformed) (do
        let ⟨type, ts₂, h₂⟩ ← typeAfter .colon ts ts₁ h₁
        let ⟨_, ts₃, h₃⟩ ← expect .assign "`=`" ts₂
        let ⟨value, ts₄, h₄⟩ ← expr depth 0 ts₃
        return ⟨.var name type isConst isPub (defer value) (start.through value.span), ts₄,
          by omega⟩ : Result Stmt ts) := by
    refine yields_any.step fun type ts₂ h₂ _ => ?_
    refine yields_any.step fun _ ts₃ h₃ _ => ?_
    refine (yields_expr depth 0 ts₃).step fun value ts₄ h₄ hvalue => yields_pure ?_
    exact Stmt.PartsWellformed.wellformed
      { exprs := List.forall_mem_singleton.2 (wellformed_defer hvalue.placed.wellformed) } trivial nofun
  split
  next r hr _ => exact yields_any.step fun name ts₁ h₁ _ => hrest true name ts₁ (by omega)
  next => exact yields_any.step fun name ts₁ h₁ _ => hrest false name ts₁ h₁
termination_by 8 * ts.length + 4
decreasing_by all_goals omega

theorem yields_exprStmt (depth : Nat) (ts : Tokens) :
    Yields (fun p => p.value.Wellformed) (exprStmt depth ts) := by
  rw [exprStmt]
  refine (yields_expr depth 0 ts).step fun e ts₁ h₁ he => ?_
  have hexpr : Yields (fun p => p.value.Wellformed)
      (pure ⟨.expr e e.span, ts₁, h₁⟩ : Result Stmt ts) :=
    yields_pure (Stmt.PartsWellformed.wellformed { exprs := List.forall_mem_singleton.2 he.stands }
      trivial nofun)
  dsimp only
  split
  next kind span ts₂ h₂ _ =>
    split
    · exact hexpr
    · split
      next hassignable =>
        refine (yields_expr depth 0 ts₂).step fun value ts₃ h₃ hvalue => yields_pure ?_
        refine Stmt.PartsWellformed.wellformed { exprs := ?_ } hassignable nofun
        refine List.forall_mem_cons.2 ⟨wellformed_defer hvalue.placed.wellformed, ?_⟩
        exact List.forall_mem_singleton.2 ⟨he.placed.wellformed, runsAs_of_isAssignable hassignable _⟩
      · exact yields_error _
  next => exact hexpr
termination_by 8 * ts.length + 4
decreasing_by all_goals omega

theorem yields_fnDecl (depth : Nat) (ts : Tokens) :
    Yields (fun p => FnWellformed p.value.params p.value.body) (fnDecl depth ts) := by
  rw [fnDecl]
  refine yields_any.step fun start ts₁ h₁ _ => ?_
  dsimp only
  refine yields_any.step fun name ts₂ h₂ _ => ?_
  dsimp only
  refine (yields_params ts₂).step fun ps ts₃ h₃ hps => ?_
  dsimp only
  refine yields_any.step fun result ts₄ h₄ _ => ?_
  dsimp only
  exact (yields_block depth ts₄).step fun body ts₅ h₅ hbody => yields_pure ⟨hps, hbody⟩
termination_by 8 * ts.length + 4
decreasing_by all_goals omega

theorem yields_implMethods (depth : Nat) (whole : Tokens) (seen : List FnDecl) (ts : Tokens)
    (h : ts.length < whole.length) (hseen : ∀ d ∈ seen, FnWellformed d.params d.body) :
    Yields (fun p => ∀ d ∈ p.value, FnWellformed d.params d.body)
      (implMethods depth whole seen ts h) := by
  have hskip := (skip separates ts).2
  rw [implMethods]
  dsimp only
  split
  · exact yields_pure (forall_mem_reverse hseen)
  · refine (yields_fnDecl depth (skip separates ts).1).step fun d ts₁ h₁ hd => ?_
    exact yields_implMethods depth whole (d :: seen) ts₁ _ (List.forall_mem_cons.2 ⟨hd, hseen⟩)
termination_by 8 * ts.length + 6
decreasing_by all_goals omega

theorem yields_branches (depth : Nat) (whole : Tokens) (seen : List (Expr × Block)) (ts : Tokens)
    (h : ts.length < whole.length)
    (hseen : ∀ q ∈ seen, ReadAt 0 q.1 ∧ ∀ s ∈ q.2.stmts, s.Wellformed) :
    Yields (fun p => p.value.1 ≠ [] ∧ (∀ q ∈ p.value.1, ReadAt 0 q.1 ∧ ∀ s ∈ q.2.stmts, s.Wellformed) ∧
      ∀ b ∈ p.value.2.1, ∀ s ∈ b.stmts, s.Wellformed) (branches depth whole seen ts h) := by
  rw [branches]
  refine (yields_expr depth 0 ts).step fun test ts₁ h₁ htest => ?_
  dsimp only
  refine (yields_block depth ts₁).step fun body ts₂ h₂ hbody => ?_
  have hall : ∀ q ∈ (test, body) :: seen, ReadAt 0 q.1 ∧ ∀ s ∈ q.2.stmts, s.Wellformed :=
    List.forall_mem_cons.2 ⟨⟨htest, hbody⟩, hseen⟩
  dsimp only
  split
  · exact yields_pure ⟨by simp, forall_mem_reverse hall, nofun⟩
  next ts₃ h₃ _ =>
    split
    next ts₄ h₄ _ => exact yields_branches depth whole ((test, body) :: seen) ts₄ _ hall
    next =>
      refine (yields_block depth ts₃).step fun last ts₄ h₄ hlast => ?_
      refine yields_pure ⟨by simp, forall_mem_reverse hall, ?_⟩
      rintro _ ⟨⟩
      exact hlast
termination_by 8 * ts.length + 6
decreasing_by all_goals omega

theorem yields_matchArms (depth : Nat) (whole : Tokens) (seen : List MatchArm) (ts : Tokens)
    (h : ts.length < whole.length) (hseen : ∀ arm ∈ seen, arm.pat.Wellformed ∧ arm.body.Placed) :
    Yields (fun p => ∀ arm ∈ p.value, arm.pat.Wellformed ∧ arm.body.Placed)
      (matchArms depth whole seen ts h) := by
  have hskip := (skip separates ts).2
  rw [matchArms]
  dsimp only
  split
  · exact yields_pure (forall_mem_reverse hseen)
  · refine (yields_pattern (skip separates ts).1).step fun pat ts₁ h₁ hpat => ?_
    dsimp only
    refine yields_any.step fun _ ts₂ h₂ _ => ?_
    dsimp only
    split
    · refine (yields_block depth ts₂).step fun b ts₃ h₃ hb => ?_
      exact yields_matchArms depth whole _ ts₃ _
        (List.forall_mem_cons.2 ⟨⟨hpat, hb⟩, hseen⟩)
    · refine (yields_expr depth 0 ts₂).step fun e ts₃ h₃ he => ?_
      exact yields_matchArms depth whole _ ts₃ _ (List.forall_mem_cons.2 ⟨⟨hpat, he.placed⟩, hseen⟩)
termination_by 8 * ts.length + 6
decreasing_by all_goals omega

end

theorem yields_module (name : String) (ts : Tokens) :
    Yields (fun md => ∀ s ∈ md.body.stmts, s.Wellformed) (module name ts) := by
  rw [module]
  exact (yields_stmts 0 false _ [] ts _ (List.forall_mem_nil _)).step fun body rest h hbody =>
    yields_pure hbody

end Parser

/-- All statements of a module that was read are well-formed. -/
theorem Module.wellformed_of_read {file src : String} {md : Module}
    (h : Module.read file src = .ok md) : ∀ s ∈ md.body.stmts, s.Wellformed := by
  obtain ⟨ts, -, hmodule⟩ := Module.exists_tokens_of_read h
  exact Parser.yields_module _ ts md hmodule

/-- Every piece of a module that was read is proper, at any depth. -/
theorem Module.every_proper_of_read {file src : String} {md : Module}
    (h : Module.read file src = .ok md) : Every Node.parts Node.Proper (.block md.body.stmts) :=
  Stmt.wellformed_block (Module.wellformed_of_read h)

/-- Compositions that run where they stand and one that does not, an access over two names, patterns
inside patterns, a method. -/
def shapesText : String :=
  "f = g | h(_) | (k | l)\np.x.y = (g | h, ())\nmatch p \x7b (a, (b, _)) => a | f \x7d\ntypeclass C \x7b fn m(self) \x7d"

theorem shapesText_proper : ∃ md, Module.read "shapes.sl" shapesText = .ok md ∧
    md.body.stmts.map (fun s => s.exprs.map Expr.isCompose) = [[true, false], [false, false], [false], []] ∧
    Every Node.parts Node.Proper (.block md.body.stmts) := by
  have hshapes : (Module.read "shapes.sl" shapesText).toOption.map
      (fun md => md.body.stmts.map fun s => s.exprs.map Expr.isCompose) =
      some [[true, false], [false, false], [false], []] := by decide +kernel
  cases hread : Module.read "shapes.sl" shapesText with
  | error e => simp [hread, Except.toOption] at hshapes
  | ok md =>
    refine ⟨md, rfl, ?_, Module.every_proper_of_read hread⟩
    simpa [hread, Except.toOption] using hshapes

end Sluice
