import Sluice.Proofs.Eval.Lockstep
import Sluice.Proofs.Host.Traced

/-! Programs cannot observe that they are traced. With a tracer that never fails and whose records go to
no file that the program could read, a run goes in lockstep with the run without a tracer. -/
namespace Sluice

namespace Tracer

variable {t : Tracer}

/-- A trace that goes to no file leaves the files alone. -/
theorem Endless.write_apart (ht : t.Endless) (hfile : t.file = none) (files : Files) (r : TraceRecord) :
    t.write files r = .ok ({ t with records := r :: t.records }, files) := by
  obtain ⟨records, seq, room, flushFails, time, file⟩ := t
  obtain rfl : room = none := ht.room
  obtain rfl : file = none := hfile
  rfl

theorem Endless.effect_apart (ht : t.Endless) (hfile : t.file = none) (files : Files)
    (operation : String) (args : List Value) (output : TraceResult) :
    ∃ t', t.effect files operation args output = (.ok (), t', files) ∧ t'.Endless ∧ t'.file = none := by
  have hnext : { t with seq := t.seq + 1 }.Endless := ⟨ht.room, ht.flushes⟩
  have hwrite := hnext.write_apart hfile files (.effect t.seq operation (args.map .ofArgument) output)
  refine ⟨{ t with
    records := .effect t.seq operation (args.map .ofArgument) output :: t.records
    seq := t.seq + 1 }, ?_, ⟨ht.room, ht.flushes⟩, hfile⟩
  rw [Tracer.effect, hwrite]

theorem Endless.finish_apart (ht : t.Endless) (hfile : t.file = none) (files : Files)
    (status : TraceStatus) : ∃ t', t.finish files status = (.ok (), t', files) := by
  refine ⟨{ t with records := .footer t.seq status :: t.records }, ?_⟩
  rw [Tracer.finish, ht.write_apart hfile]
  dsimp only
  rw [flush, ht.flushes, if_neg Bool.false_ne_true, hfile]

end Tracer

/-- The worlds are the same but for a tracer in the first one that never fails and writes to no file. -/
inductive Unobserved : World → World → Prop where
  | of {out : Sink} {files : Files} {t : Tracer} : t.Endless → t.file = none →
    Unobserved ⟨out, some t, files⟩ ⟨out, none, files⟩

namespace Host

variable {name : String} {f : List Value → World → Except HostError Value × World}

theorem emit_tracer (operation text : String) (w : World) (tracer : Option Tracer) :
    emit operation text { w with tracer } =
      ((emit operation text w).1, { (emit operation text w).2 with tracer }) := by
  unfold emit
  dsimp only
  split <;> rfl

/-- Host functions do not look at the tracer. -/
theorem function_tracer (hf : function? name = some f) (args : List Value) (w : World)
    (tracer : Option Tracer) :
    f args { w with tracer } = ((f args w).1, { (f args w).2 with tracer }) := by
  unfold function? at hf
  split at hf <;> cases hf
  · exact emit_tracer _ _ _ _
  · unfold printf
    split
    · split
      · exact emit_tracer _ _ _ _
      · rfl
    · rfl
  · unfold read
    dsimp only
    split
    · split <;> rfl
    · rfl
  · unfold write
    dsimp only
    split
    · split <;> rfl
    · rfl
  · unfold exit
    dsimp only
    split
    · rfl
    · split <;> rfl

end Host

theorem bisimulation_unobserved : Bisimulation Unobserved := by
  have hcall : ∀ {w w' : World} name args, Unobserved w w' →
      (Host.call name args w).1 = (Host.call name args w').1 ∧
        Unobserved (Host.call name args w).2 (Host.call name args w').2 := by
    intro w w' name args h
    cases h with
    | @of out files t ht hfile =>
      unfold Host.call
      cases hf : Host.function? name with
      | none => exact ⟨rfl, .of ht hfile⟩
      | some f =>
        have htraced := Host.function_tracer hf args ⟨out, none, files⟩ (some t)
        have huntraced := Host.function_tracer hf args ⟨out, none, files⟩ none
        dsimp only at htraced huntraced ⊢
        rw [htraced, huntraced]
        generalize f args ⟨out, none, files⟩ = answer
        obtain ⟨result, out, _, files⟩ := answer
        obtain ⟨t', heffect, ht', hfile'⟩ :=
          ht.effect_apart hfile files name args (Host.traceResult result)
        dsimp only
        rw [heffect]
        exact ⟨rfl, .of ht' hfile'⟩
  exact ⟨fun name args h => (hcall name args h).1, fun name args h => (hcall name args h).2⟩

theorem Unobserved.finish {w w' : World} (h : Unobserved w w') (status : TraceStatus) :
    (w.finish status).1 = .ok () ∧ (w'.finish status).1 = .ok () ∧
      (w.finish status).2.out = (w'.finish status).2.out ∧
      (w.finish status).2.files = (w'.finish status).2.files := by
  cases h with
  | @of out files t ht hfile =>
    obtain ⟨t', hfinish⟩ := ht.finish_apart hfile files status
    unfold World.finish
    dsimp only
    rw [hfinish]
    exact ⟨rfl, rfl, rfl, rfl⟩

/-- Tracing does not interfere: with a tracer that never fails and whose records go to no file that the
program could read, a run has the same outcome as without a tracer, prints the same and leaves the same
files. -/
theorem Module.run_traced_eq_untraced (md : Module) (config : Settings) (out : Sink) (files : Files)
    {t : Tracer} (ht : t.Endless) (hfile : t.file = none) :
    (md.run config ⟨out, some t, files⟩).1 = (md.run config ⟨out, none, files⟩).1 ∧
      (md.run config ⟨out, some t, files⟩).2.out = (md.run config ⟨out, none, files⟩).2.out ∧
      (md.run config ⟨out, some t, files⟩).2.files = (md.run config ⟨out, none, files⟩).2.files := by
  have hstart : Abreast Unobserved config.maxDepth config.maxDepth
      (.start config.args config.maxDepth ⟨out, some t, files⟩)
      (.start config.args config.maxDepth ⟨out, none, files⟩) := .of rfl (.of ht hfile)
  have hends := lockstep_run bisimulation_unobserved (Nat.le_refl _) (.module md) fuel _ _ hstart
  unfold run
  rw [Entry.run] at hends
  unfold Eval.outcome
  generalize (Runner.ofFuel fuel).runModule md
    (.start config.args config.maxDepth ⟨out, some t, files⟩) = end₁ at hends
  generalize (Runner.ofFuel fuel).runModule md
    (.start config.args config.maxDepth ⟨out, none, files⟩) = end₂ at hends
  cases hends with
  | ok a hafter =>
    obtain ⟨-, hworld⟩ := hafter
    obtain ⟨htraced, huntraced, hout, hfiles⟩ := hworld.finish (runStatus (.ok a))
    dsimp only
    rw [htraced, huntraced]
    exact ⟨rfl, hout, hfiles⟩
  | error i hafter =>
    obtain ⟨-, hworld⟩ := hafter
    obtain ⟨-, -, hout, hfiles⟩ := hworld.finish (runStatus (.error i))
    exact ⟨rfl, hout, hfiles⟩
  | tooDeep hlt => exact absurd hlt (Nat.lt_irrefl _)

/-- The program that prints a line and exits does so in a trace and without one. -/
theorem printThenExit_unobserved :
    ({ records := [.header "farewell"] } : Tracer).Endless ∧
      (printThenExit.run {} .farewell).1 = (printThenExit.run {} {}).1 ∧
      (printThenExit.run {} .farewell).2.out = (printThenExit.run {} {}).2.out := by
  have hendless : ({ records := [.header "farewell"] } : Tracer).Endless := ⟨rfl, rfl⟩
  obtain ⟨hresult, hout, -⟩ := printThenExit.run_traced_eq_untraced {} {} {} hendless rfl
  exact ⟨hendless, hresult, hout⟩

end Sluice
