import Sluice.Proofs.Eval.Obey
import Sluice.Proofs.Parser.Wellformed

/-! Programs that were read have regular values only. That no tuple has just one element and no struct
two fields of one name rests on the parser; the discipline is that all that runs is well-formed. -/
namespace Sluice

/-! ### Well-formed parts -/

theorem Node.Wellformed.stmts {l : List Stmt} (h : (Node.block l).Wellformed) :
    ∀ s ∈ l, s.Wellformed := fun _ hs => Every.part h (List.mem_map_of_mem hs)

theorem Node.Wellformed.body {params : List String} {l : List Stmt} (h : (Node.fn params l).Wellformed) :
    ∀ s ∈ l, s.Wellformed := by
  have hblock : (Node.block l).Wellformed := Every.part h List.mem_cons_self
  exact hblock.stmts

def FnBody.Wellformed : FnBody → Prop
  | block b => ∀ s ∈ b.stmts, s.Wellformed
  | pipeline stages => ∀ e ∈ stages, e.Wellformed

def Task.Wellformed : Task → Prop
  | fn _ body | block body => ∀ s ∈ body, s.Wellformed
  | pipeline stages => ∀ e ∈ stages, e.Wellformed
  | hole stage => stage.Wellformed
  | arm _ body => body.node.Wellformed

theorem FnBody.Wellformed.task {c : Closure} (h : c.body.Wellformed) : c.task.Wellformed := by
  unfold Closure.task
  split
  next hbody =>
    rw [hbody] at h
    exact h
  next hbody =>
    rw [hbody] at h
    exact h

/-! ### The discipline -/

def regularity : Discipline Unit where
  proper := True
  lenient := True
  Inv _ := True
  Sub _ _ := True
  Run _ _ := True
  Fn _ c := c.body.Wellformed
  Makes _ _ body := body.Wellformed
  Term _ e := e.Wellformed
  Rest _ l := ∀ s ∈ l, s.Wellformed
  Decl _ l _ := ∀ s ∈ l, s.Wellformed
  Mod _ l := ∀ s ∈ l, s.Wellformed
  Body _ _ task := task.Wellformed

theorem starts_of_wellformed {σ : Config Unit} {task : Task} (h : task.Wellformed) :
    regularity.Starts σ task := by
  cases task with
  | arm pat body =>
    cases body with
    | expr e => exact h
    | block b => exact Node.Wellformed.stmts h
  | _ => exact h

theorem regularity_lawful : regularity.Lawful where
  sub_refl _ := trivial
  sub_trans _ _ := trivial
  run_trans _ _ := trivial
  run_of_sub _ := trivial
  fn_mono _ hc := hc
  idle _ _ _ _ _ _ := ⟨trivial, trivial⟩
  call _ hc := FnBody.Wellformed.task hc
  makeFn _ _ hbody := ⟨(), trivial, trivial, hbody⟩
  scope _ hbody _ := ⟨(), trivial, fun _ hc => hc, fun _ => starts_of_wellformed hbody,
    fun _ _ _ => ⟨(), trivial, trivial, fun _ hc => hc⟩⟩
  module _ _ hmod := ⟨(), trivial, fun _ hc => hc, hmod,
    fun _ _ _ => ⟨(), trivial, trivial, fun _ hc => hc⟩⟩
  expr_mono _ he := he
  expr_part he he' := he.parts he'
  expr_tuple _ he := Expr.Wellformed.proper he
  expr_lambda he := Node.Wellformed.body (Every.part he List.mem_cons_self)
  expr_deferred he _ hstage := he.parts hstage
  expr_hole he := he
  rest_expr hrest _ he := Every.part (hrest _ List.mem_cons_self) (Node.expr_mem_stmt he)
  rest_block hrest _ hb :=
    Node.Wellformed.stmts (Every.part (hrest _ List.mem_cons_self) (Node.block_mem_stmt hb))
  rest_arm hrest _ harm := Every.part (hrest _ List.mem_cons_self) (Node.arm_mem_stmt harm)
  rest_module hrest := Node.Wellformed.stmts (Every.part (hrest _ List.mem_cons_self) List.mem_cons_self)
  rest_pass hrest _ _ s hs := hrest s (List.mem_cons_of_mem _ hs)
  var_const _ _ _ _ := trivial
  var_bind _ hrest _ _ _ _ := ⟨(), trivial, trivial, fun s hs => hrest s (List.mem_cons_of_mem _ hs)⟩
  assign_const _ _ _ _ _ _ := trivial
  assign_lost _ _ _ _ _ _ _ _ _ := trivial
  assign_old _ _ hrest _ _ _ _ _ _ _ :=
    ⟨(), trivial, trivial, fun s hs => hrest s (List.mem_cons_of_mem _ hs)⟩
  assign_new _ _ hrest _ _ _ _ _ :=
    ⟨(), trivial, trivial, fun s hs => hrest s (List.mem_cons_of_mem _ hs)⟩
  use _ hrest _ _ := ⟨(), trivial, trivial, fun s hs => hrest s (List.mem_cons_of_mem _ hs)⟩
  decl_mono _ hdecl := hdecl
  decl_bind _ _ _ hdecl _ := ⟨(), trivial, trivial, hdecl⟩
  decl_adt _ hdecl _ _ _ := ⟨(), trivial, trivial, hdecl⟩
  decl_struct _ hdecl hs := (hdecl _ hs).proper
  decl_fn _ hdecl hs hd := Node.Wellformed.body (Every.part (hdecl _ hs) (Node.fn_mem_stmt hd))
  decl_done hdecl _ := hdecl

/-! ### What was read -/

/-- What is run was read from a text. -/
def Entry.Read : Entry → Prop
  | expr e => ∃ file src md, Module.read file src = .ok md ∧ md.expr? = some e
  | module md => ∃ file src, Module.read file src = .ok md

theorem Entry.Read.admits {x : Entry} (hx : x.Read) (σ : Config Unit) : regularity.Admits σ x := by
  cases x with
  | expr e =>
    obtain ⟨file, src, md, hread, hexpr⟩ := hx
    have hall := Module.wellformed_of_read hread
    rw [Module.expr?.eq_def] at hexpr
    split at hexpr
    next heq =>
      cases hexpr
      have hstmt := hall _ (heq ▸ List.mem_cons_self)
      exact Every.part hstmt (Node.expr_mem_stmt List.mem_cons_self)
    next => cases hexpr
  | module md =>
    obtain ⟨file, src, hread⟩ := hx
    exact Module.wellformed_of_read hread

/-- A value is regular, and so is every value inside it. -/
def Value.Wellformed : Value → Prop := Every Value.children Value.Regular

theorem regularity_ok_start (args : List String) (maxDepth : Nat) (w : World) :
    ∃ k, regularity.Ok ⟨k, .start args maxDepth w⟩ := ⟨(), trivial, Machine.stored_start args maxDepth w⟩

theorem regularity_values {σ : Config Unit} {v : Value} (h : regularity.V σ v) : v.Wellformed :=
  h.regular trivial

/-- What a computation gives is well-formed, and so is all that is stored when it ends, in a fault or
otherwise. -/
def Eval.KeepsWellformed (x : Eval Flow) (m : Machine) : Prop :=
  (x.after m).Stored Value.Wellformed ∧
    ∀ flow m', x m = .ok flow m' → ∀ v ∈ flow.values, v.Wellformed

theorem keepsWellformed_job {σ : Config Unit} {j : Job} (hσ : regularity.Ok σ) (hj : regularity.Ready σ j)
    (n : Nat) : (j.run (.ofFuel n)).KeepsWellformed σ.machine := by
  have hobeys := regularity_lawful.obeys_ofFuel (P := fun _ _ => True) (fun _ _ _ _ => trivial)
    .outOfFuel n
  have hdoes := regularity_lawful.job hobeys hσ hj
  obtain ⟨w, hok, -⟩ := hdoes.ok_after
  refine ⟨hok.stored.mono fun _ => regularity_values, fun flow m' hrun v hv => ?_⟩
  obtain ⟨-, hend⟩ := hdoes
  rw [hrun] at hend
  obtain ⟨w', -, -, hvalues⟩ := hend
  exact regularity_values (hvalues v hv)

theorem values_wellformed_of_ready {σ : Config Unit} {j : Job} (hj : regularity.Ready σ j) :
    ∀ v ∈ j.values, v.Wellformed := by
  cases j with
  | expr e => exact List.forall_mem_nil _
  | stmt s => exact List.forall_mem_nil _
  | call f args span =>
    exact List.forall_mem_cons.2 ⟨regularity_values hj.1, fun v hv => regularity_values (hj.2 v hv)⟩
  | body c args span =>
    refine List.forall_mem_cons.2 ⟨?_, fun v hv => regularity_values (hj.2.1 v hv)⟩
    exact .mk trivial (List.forall_mem_nil _)

/-- In every state of a run of what was read, all that is stored is well-formed. Wherever a job begins,
what it is given is well-formed, and so is what it gives and all that is stored when it ends; this holds of
every expression evaluated on the way and of the whole run. -/
theorem reads_run_wellformed {m : Machine} (hm : m.ReachableBy Entry.Read) {x : Entry} (hx : x.Read)
    (n : Nat) : m.Stored Value.Wellformed ∧
      Always (fun j m' => m'.Stored Value.Wellformed ∧ (∀ v ∈ j.values, v.Wellformed) ∧
        ∀ k, (j.run (.ofFuel k)).KeepsWellformed m') (Entry.run · x) n m ∧
      ((x.run (.ofFuel n)).after m).Stored Value.Wellformed ∧
      ∀ v m', x.run (.ofFuel n) m = .ok v m' → v.Wellformed := by
  obtain ⟨k, hok⟩ := regularity_lawful.reachable (fun x σ hx _ => hx.admits σ) regularity_ok_start hm
  have hobeys := regularity_lawful.obeys_ofFuel (P := fun _ _ => True) (fun _ _ _ _ => trivial)
    .outOfFuel n
  have hdoes := regularity_lawful.entry hobeys hok (hx.admits _)
  obtain ⟨w, hafter, -⟩ := hdoes.ok_after
  refine ⟨hok.stored.mono fun _ => regularity_values, ?_, hafter.stored.mono fun _ => regularity_values,
    fun v m' hrun => ?_⟩
  · refine regularity_lawful.always (fun j σ hσ hj => ?_) n hok (hx.admits _)
    exact ⟨hσ.stored.mono fun _ => regularity_values, values_wellformed_of_ready hj,
      keepsWellformed_job hσ hj⟩
  · obtain ⟨-, hend⟩ := hdoes
    dsimp only at hend
    rw [hrun] at hend
    obtain ⟨w', -, -, hv⟩ := hend
    exact regularity_values hv

/-- A program that repeats keys and elements and changes a map inside another one. -/
def tangledText : String :=
  "a = \x7b1: \x7b2: (3, 4), 2: 5\x7d, \"k\": Set([6, 6, 7])\x7d\na[1][2] = Set([8, 8])\na[9] = ()\na"

theorem tangledText_wellformed :
    ∃ md v m, Module.read "tangled.sl" tangledText = .ok md ∧
      (Runner.ofFuel 20).runModule md (.start [] 10 {}) = .ok v m ∧
      v.repr = "\x7b1: \x7b2: \x7b8\x7d\x7d, \"k\": \x7b6, 7\x7d, 9: ()\x7d" ∧ v.Wellformed ∧ m.Stored Value.Wellformed := by
  have hrepr : ((Module.read "tangled.sl" tangledText).toOption.bind fun md =>
      (((Runner.ofFuel 20).runModule md).outcome (.start [] 10 {})).1.toOption).map Value.repr =
      some "\x7b1: \x7b2: \x7b8\x7d\x7d, \"k\": \x7b6, 7\x7d, 9: ()\x7d" := by decide +kernel
  cases hread : Module.read "tangled.sl" tangledText with
  | error e => simp [hread, Except.toOption] at hrepr
  | ok md =>
    cases hrun : (Runner.ofFuel 20).runModule md (.start [] 10 {}) with
    | error i m => simp [hread, Eval.outcome, hrun, Except.toOption] at hrepr
    | ok v m =>
      obtain ⟨-, -, hstored, hvalue⟩ := reads_run_wellformed (x := .module md) (.start [] 10 {})
        ⟨_, _, hread⟩ 20
      have hafter : ((Runner.ofFuel 20).runModule md).after (.start [] 10 {}) = m :=
        Eval.after_of_ok hrun
      refine ⟨md, v, m, rfl, hrun, ?_, hvalue v m hrun, hafter ▸ hstored⟩
      simpa [hread, Eval.outcome, hrun, Except.toOption] using hrepr

end Sluice
