import Sluice.Proofs.Host.Calls

/-! Traces tell the truth. The trace of a run that lacks no room has one record for each host call between
header and footer, and its footer says how the run ended. -/
namespace Sluice

/-! ### Tracers that never fail -/

namespace Tracer

/-- The tracer never lacks room, and what it wrote can arrive. -/
structure Endless (t : Tracer) : Prop where
  room : t.room = none
  flushes : t.flushFails = false

structure Grows (t : Tracer) (r : TraceRecord) (n : Nat) (t' : Tracer) : Prop where
  records : t'.records = r :: t.records
  seq : t'.seq = t.seq + n
  endless : t'.Endless

variable {t : Tracer}

theorem writeLine_spec (ht : t.Endless) (files : Files) (r : TraceRecord) :
    (t.writeLine files r).1.records = t.records ∧ (t.writeLine files r).1.seq = t.seq ∧
      (t.writeLine files r).1.Endless := by
  unfold writeLine
  split
  · exact ⟨rfl, rfl, ht⟩
  · exact ⟨rfl, rfl, ht.room, ht.flushes⟩

theorem Endless.write (ht : t.Endless) (files : Files) (r : TraceRecord) :
    ∃ t' files', t.write files r = .ok (t', files') ∧ t.Grows r 0 t' := by
  have hnext : { t with records := r :: t.records }.Endless := ⟨ht.room, ht.flushes⟩
  obtain ⟨hrecords, hseq, hendless⟩ := writeLine_spec hnext files r
  refine ⟨_, ({ t with records := r :: t.records }.writeLine files r).2, ?_, hrecords, hseq, hendless⟩
  rw [Tracer.write, ht.room]

theorem Endless.effect (ht : t.Endless) (files : Files) (operation : String) (args : List Value)
    (output : TraceResult) : ∃ t' files', t.effect files operation args output = (.ok (), t', files') ∧
      t.Grows (.effect t.seq operation (args.map .ofArgument) output) 1 t' := by
  have hnext : { t with seq := t.seq + 1 }.Endless := ⟨ht.room, ht.flushes⟩
  obtain ⟨t', files', hwrite, hgrows⟩ :=
    hnext.write files (.effect t.seq operation (args.map .ofArgument) output)
  refine ⟨t', files', ?_, hgrows.records, hgrows.seq, hgrows.endless⟩
  rw [Tracer.effect, hwrite]

theorem Endless.finish (ht : t.Endless) (files : Files) (status : TraceStatus) :
    ∃ t' files', t.finish files status = (.ok (), t', files') ∧
      t'.records = .footer t.seq status :: t.records := by
  obtain ⟨t', files', hwrite, hgrows⟩ := ht.write files (.footer t.seq status)
  rw [Tracer.finish, hwrite]
  dsimp only
  rw [flush, hgrows.endless.flushes, if_neg Bool.false_ne_true]
  split
  · exact ⟨t', files', rfl, hgrows.records⟩
  · exact ⟨_, _, rfl, hgrows.records⟩

end Tracer

/-! ### The record of a host call -/

namespace HostCall

variable {c : HostCall} {calls : List HostCall} {t : Tracer} {w w' : World}

/-- How many effects the trace had when the call began. -/
def number (c : HostCall) : Nat := (c.before.tracer.map (·.seq)).getD 0

def record (c : HostCall) : TraceRecord :=
  .effect c.number c.name (c.args.map .ofArgument) (Host.traceResult c.result)

end HostCall

variable {calls : List HostCall} {stop : Option Interrupt}

/-- After a call that gave no value there is no other. -/
theorem Ends.last (h : Ends calls stop) {k : Nat} {c : HostCall} (hc : calls[k]? = some c)
    (hfailed : ∀ v, c.result ≠ .ok v) : k + 1 = calls.length := by
  induction calls generalizing k with
  | nil => cases hc
  | cons d rest ih =>
    rw [Ends] at h
    cases k with
    | zero =>
      obtain rfl := Option.some.inj hc
      split at h
      next v hv => exact absurd hv (hfailed v)
      next => rw [h.1]; rfl
      next => rw [h.1]; rfl
    | succ k =>
      have hrest : rest[k]? = some c := hc
      split at h
      next => rw [ih h hrest, List.length_cons]
      next => rw [h.1] at hrest; cases hrest
      next => rw [h.1] at hrest; cases hrest

def World.trace (w : World) : List TraceRecord := ((w.tracer.map (·.records)).getD []).reverse

/-- The trace of a program has begun with its header, and its tracer never fails. -/
def World.Begun (w : World) (program : String) : Prop :=
  ∃ t, w.tracer = some t ∧ t.records = [.header program] ∧ t.seq = 0 ∧ t.Endless

/-- Into a file or not, a trace can be begun. -/
theorem exists_begun (w : World) (time : Moment) (file : Option TraceFile) (program : String) :
    ∃ t files, ({ time, file } : Tracer).start w.files program = .ok (t, files) ∧
      { w with tracer := some t, files }.Begun program := by
  have hfresh : ({ time, file } : Tracer).Endless := ⟨rfl, rfl⟩
  obtain ⟨t, files, hstart, hgrows⟩ := hfresh.write w.files (.header program)
  exact ⟨t, files, hstart, t, rfl, hgrows.records, hgrows.seq, hgrows.endless⟩

def printThenExit : Module where
  name := "farewell"
  body := ⟨[.expr (.call (.var ⟨"print", default⟩) [.lit (.str "bye") default] default) default,
    .expr (.call (.var ⟨"exit", default⟩) [.lit (.int 3) default] default) default], default⟩
  span := default

def World.farewell : World := { tracer := some { records := [.header "farewell"] } }

end Sluice
