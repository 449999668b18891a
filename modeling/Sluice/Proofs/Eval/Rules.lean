import Sluice.Proofs.Eval.Compositional
import Sluice.Proofs.Eval.Frame

/-! The rules respect a frame: what a rule does with two runners that do the same and respect the frame
is again the same and respects it. By induction on the fuel so does every run, and no watch for the
invariant of a frame ever stops one. -/
namespace Sluice

variable {I M : Machine → Prop} {R : Machine → Machine → Prop} {m : Machine} {ι : Type}

def Opens (M : Machine → Prop) : Job → Machine → Prop
  | .stmt (.submodule _ _ _), m => M m
  | _, _ => True

/-- A host call changes nothing but the world. -/
theorem hostCall_eq (name : String) (args : List Value) (span : Span) (m : Machine) :
    Runner.hostCall name args span m = match (Host.call name args m.world).1 with
      | .ok v => .ok v { m with world := (Host.call name args m.world).2 }
      | .error (.exit code) => .error (.exit code) { m with world := (Host.call name args m.world).2 }
      | .error e => .error (.fault (.hostFailed name e.message span))
          { m with world := (Host.call name args m.world).2 } := rfl

namespace Changes

variable (F : Changes I R)

include F

theorem hostCall (name : String) (args : List Value) (span : Span) :
    Alike I R (Runner.hostCall name args span) (Runner.hostCall name args span) := by
  intro m hm
  obtain ⟨hI, hR⟩ := F.world (Host.call name args m.world).2 hm
  have heq := hostCall_eq name args span m
  revert heq
  cases (Host.call name args m.world).1 with
  | ok v => exact fun hok => alikeAt_of_ok hok hok hI hR
  | error e => cases e <;> exact fun herror => alikeAt_of_error herror herror hI hR

theorem reassign (root : Ident) (v : Value) (span : Span) :
    Alike I R (Runner.reassign root v span) (Runner.reassign root v span) := by
  intro m hm
  cases hassign : m.arena.assign m.current root.text v with
  | ok arena =>
    obtain ⟨hI, hR⟩ := F.assign hm hassign
    have hok : Runner.reassign root v span m = .ok () { m with arena } := by
      rw [Runner.reassign, hassign]
    exact alikeAt_of_ok hok hok hI hR
  | error e =>
    have herror : Runner.reassign root v span m =
        .error (.fault (.notReassignable root.text span)) m := by
      rw [Runner.reassign, hassign]
    exact alikeAt_of_error herror herror hm (F.refl hm)

/-- Computations that do the same and respect how the state changes are put together to such ones, if blocks
are. -/
theorem compositional
    (hblock : ∀ {α : Type} {x y : Eval α}, Alike I R x y → Alike I R (Eval.inBlock x) (Eval.inBlock y)) :
    Compositional fun {α : Type} (x : ι → Eval α) => ∀ i j, Alike I R (x i) (x j) where
  query _ _ _ := F.query _
  outOfFuel _ _ := F.throw _
  bind hx hf i j := F.bindM (hx i j) fun a => hf a i j
  bindName name b _ _ := Frame.modifyM fun _ hm => F.bind name b hm
  makeFn name params body _ _ := F.makeFnM name params body
  reassign root v span _ _ := F.reassign root v span
  register span u _ _ := F.registerM span u
  declareAdt _ _ _ := Frame.modifyM fun _ hm => F.register _ hm
  inBlock hx i j := hblock (hx i j)
  deeper span hx i j := F.deeper span (hx i j)

end Changes

namespace Frame

variable (F : Frame I R M)

include F

theorem compositional : Compositional fun {α : Type} (x : ι → Eval α) => ∀ i j, Alike I R (x i) (x j) :=
  F.toChanges.compositional F.inBlock

/-- A watched run respects the frame if the watch stops it where a module may not be opened. -/
theorem related_opens (i : Interrupt) (n : Nat) :
    Related (fun {α : Type} (x : Unit → Eval α) => ∀ i j, Alike I R (x i) (x j))
      fun _ => .watched (Opens M) i n := by
  have C := F.compositional (ι := Unit)
  have hwatched : ∀ {α : Type} {j : Job} {x : Eval α},
      (∀ m, I m → Opens M j m → AlikeAt I R x x m) →
      ∀ _ _ : Unit, Alike I R (Eval.watched (Opens M) i j x) (Eval.watched (Opens M) i j x) := by
    intro α j x hx _ _ m hm
    by_cases hj : Opens M j m
    · exact (hx m hm hj).congr (if_pos hj).symm (if_pos hj).symm
    · exact alikeAt_of_error (if_neg hj) (if_neg hj) hm (F.refl hm)
  induction n with
  | zero => exact C.related_zero
  | succ n ih =>
    refine ⟨fun e => hwatched fun m hm _ => C.exprRule ih e () () m hm, fun s => hwatched ?_,
      fun f args span => hwatched fun m hm _ => ?_,
      fun c args span => hwatched fun m hm _ => ?_⟩
    · intro m hm hopens
      cases s with
      | submodule name body span =>
        have hbody := F.inModule name.text (C.runStmts ih body.stmts () ()) hm hopens
        refine F.bindAt (F.bindAt hbody fun flow => ?_) fun _ => C.pure _ () ()
        exact F.bindM (C.moduleValue flow () ()) fun _ => C.pure _ () ()
      | _ =>
        refine C.stmtRule ih (C.loops ih fun _ => Runner.rounds_watched n) _ ?_ () () m hm
        nofun
    · cases f with
      | host name => exact F.hostCall name args span m hm
      | _ =>
        refine C.callRule ih _ args span ?_ () () m hm
        nofun
    · refine C.bodyRule (Q := fun x => ∀ i j, Alike I R (x i) (x j)) ih c args span (fun x hx i j => ?_)
        () () m hm
      exact F.inScope c.scope (hx i j)

theorem pervasive (hM : ∀ m, I m → M m) :
    Pervasive fun {α : Type} (x : ι → Eval α) => ∀ i j, Alike I R (x i) (x j) where
  toCompositional := F.compositional
  inScope parent hx i j := F.inScope parent (hx i j)
  inModule name hx i j m hm := F.inModule name (hx i j) hm (hM m hm)

/-- What the invariant gives holds wherever a job begins: watches for such things make no difference. -/
theorem always {P : Job → Machine → Prop} (hP : ∀ j m, I m → P j m) (hM : ∀ m, I m → M m) (e : Entry)
    (n : Nat) (hm : I m) : Always P (Entry.run · e) n m := by
  intro i
  have V := F.pervasive (ι := { Q : Job → Machine → Prop // ∀ j m, I m → Q j m }) hM
  have hwatched : ∀ {α : Type} (j : Job) {x : _ → Eval α}, (∀ Q Q', Alike I R (x Q) (x Q')) →
      ∀ Q Q' : { Q : Job → Machine → Prop // ∀ j m, I m → Q j m },
        Alike I R (Eval.watched Q.1 i j (x Q)) (Eval.watched Q'.1 i j (x Q')) := by
    intro α j x hx Q Q' m hm
    exact (hx Q Q' m hm).congr (if_pos (Q.2 j m hm)).symm (if_pos (Q'.2 j m hm)).symm
  have hrun := V.entry (V.related_watched (fun j _ _ => hwatched j)
    (fun name args span => hwatched _ fun _ _ => F.hostCall name args span) n) e
  have hsame : e.run (.watched P i n) m = e.run (.watched (fun _ _ => True) i n) m :=
    (hrun ⟨P, hP⟩ ⟨fun _ _ => True, fun _ _ _ => trivial⟩ m hm).1
  rwa [Runner.watched_eq_ofFuel fun _ _ => trivial] at hsame

theorem keeps (hM : ∀ m, I m → M m) (e : Entry) (n : Nat) (hm : I m) :
    I ((e.run (.ofFuel n)).after m) ∧ R m ((e.run (.ofFuel n)).after m) := by
  have V := F.pervasive (ι := Unit) hM
  have hrelated := V.related_ofFuel (fun name args span _ _ => F.hostCall name args span) n
  exact (V.entry hrelated e () () m hm).2

/-- The invariant holds in every state of a run. -/
theorem reachable (hM : ∀ m, I m → M m) (hstart : ∀ args maxDepth w, I (.start args maxDepth w))
    (hm : m.Reachable) : I m := by
  induction hm with
  | start args maxDepth w => exact hstart args maxDepth w
  | after e n _ ih => exact (F.keeps hM e n ih).1
  | @during m m' e n _ hmeets ih =>
    refine Classical.byContradiction fun hI => hmeets ?_
    refine F.always (fun _ m₁ hm₁ => ?_) hM e n ih
    rintro rfl
    exact hI hm₁

end Frame

end Sluice
