import Sluice.Proofs.Eval.Rules

/-! The host calls of a run. Each run has a list of them: through these calls, one after the other, its
world changes, none comes after one that did not give a value, and a watch for host calls stops the run if
it is for one in the list. That the list says what a watch does is what makes it the list of this run. -/
namespace Sluice

structure HostCall where
  name : String
  args : List Value
  before : World

namespace HostCall

def result (c : HostCall) : Except HostError Value := (Host.call c.name c.args c.before).1

def after (c : HostCall) : World := (Host.call c.name c.args c.before).2

def Begins (c : HostCall) (j : Job) (m : Machine) : Prop :=
  (Host.function? c.name).isSome ∧ m.world = c.before ∧ ∃ span, j = .call (.host c.name) c.args span

end HostCall

/-- The calls lead from one world to another, each from where the one before it ended. -/
inductive Performed : World → List HostCall → World → Prop
  | nil (w : World) : Performed w [] w
  | cons {c : HostCall} {calls : List HostCall} {w : World} : (Host.function? c.name).isSome →
    Performed c.after calls w → Performed c.before (c :: calls) w

def Eval.stop? {α : Type} (x : Eval α) (m : Machine) : Option Interrupt :=
  match x m with
  | .ok _ _ => none
  | .error i _ => some i

/-- After these calls a program may stop so: nothing goes on after a call that gives no value, and only a
host call makes a program exit. -/
def Ends : List HostCall → Option Interrupt → Prop
  | [], stop => ∀ code, stop ≠ some (.exit code)
  | c :: rest, stop =>
    match c.result with
    | .ok _ => Ends rest stop
    | .error (.exit code) => rest = [] ∧ stop = some (.exit code)
    | .error _ => rest = [] ∧ ∃ f, stop = some (.fault f)

structure HostWatch where
  marked : HostCall → Prop
  stop : Interrupt

namespace HostWatch

def off : HostWatch := ⟨fun _ => False, .outOfFuel⟩

end HostWatch

variable {α β : Type} {m : Machine} {calls rest : List HostCall} {w₁ w₂ w₃ : World}

theorem Performed.append (h : Performed w₁ calls w₂) (h' : Performed w₂ rest w₃) :
    Performed w₁ (calls ++ rest) w₃ := by
  induction h with
  | nil => exact h'
  | cons hknown _ ih => exact .cons hknown (ih h')

theorem Ends.append {stop : Option Interrupt} (h : Ends calls none) (h' : Ends rest stop) :
    Ends (calls ++ rest) stop := by
  induction calls with
  | nil => exact h'
  | cons c calls ih =>
    rw [Ends] at h
    rw [List.cons_append, Ends]
    split at h
    · exact ih h
    · cases h.2
    · obtain ⟨-, f, hf⟩ := h
      cases hf

namespace Eval

variable {x : Eval α} {m' : Machine}

theorem stop?_of_ok {a : α} (h : x m = .ok a m') : x.stop? m = none := by rw [stop?, h]

theorem stop?_of_error {i : Interrupt} (h : x m = .error i m') : x.stop? m = some i := by
  rw [stop?, h]

theorem stop?_congr {y : Eval α} (h : x m = y m') : x.stop? m = y.stop? m' := by
  rw [stop?, stop?, h]

end Eval

/-! ### The calls of a computation under all watches -/

/-- From `m`, the calls are those of `x .off`, and each watch stops at the first one that it marks. -/
structure Logs (x : HostWatch → Eval α) (m : Machine) (calls : List HostCall) : Prop where
  performed : Performed m.world calls ((x .off).after m).world
  ends : Ends calls ((x .off).stop? m)
  passed : ∀ w : HostWatch, (∀ c ∈ calls, ¬ w.marked c) → x w m = x .off m
  stopped : ∀ w : HostWatch, (∃ c ∈ calls, w.marked c) → ∃ m', x w m = .error w.stop m'

def Logged (x : HostWatch → Eval α) : Prop := ∀ m, ∃ calls, Logs x m calls

variable {x : HostWatch → Eval α} {f : HostWatch → α → Eval β}

theorem Logs.append {a : α} {m' : Machine} (hx : Logs x m calls) (hok : x .off m = .ok a m')
    (hf : Logs (f · a) m' rest) : Logs (fun w => x w >>= f w) m (calls ++ rest) where
  performed := by
    have hperformed := hx.performed
    rw [Eval.after_of_ok hok] at hperformed
    rw [Eval.after_congr (Eval.bind_of_ok hok)]
    exact hperformed.append hf.performed
  ends := by
    have hends := hx.ends
    rw [Eval.stop?_of_ok hok] at hends
    rw [Eval.stop?_congr (Eval.bind_of_ok hok)]
    exact hends.append hf.ends
  passed := by
    intro w hw
    rw [List.forall_mem_append] at hw
    have hsame := (hx.passed w hw.1).trans hok
    rw [Eval.bind_of_ok hsame, Eval.bind_of_ok hok]
    exact hf.passed w hw.2
  stopped := by
    rintro w ⟨c, hc, hmarked⟩
    by_cases hfirst : ∃ c ∈ calls, w.marked c
    · obtain ⟨m₁, hm₁⟩ := hx.stopped w hfirst
      exact ⟨m₁, Eval.bind_of_error hm₁⟩
    · have hnone : ∀ c ∈ calls, ¬ w.marked c := fun c hc hmarked => hfirst ⟨c, hc, hmarked⟩
      have hsame := (hx.passed w hnone).trans hok
      obtain ⟨m₁, hm₁⟩ := hf.stopped w ⟨c, (List.mem_append.1 hc).resolve_left fun h =>
        hnone c h hmarked, hmarked⟩
      exact ⟨m₁, (Eval.bind_of_ok hsame).trans hm₁⟩

theorem Logs.bind_error {i : Interrupt} {m' : Machine} (hx : Logs x m calls)
    (herror : x .off m = .error i m') : Logs (fun w => x w >>= f w) m calls where
  performed := by
    have hperformed := hx.performed
    rw [Eval.after_of_error herror] at hperformed
    rw [Eval.after_of_error (Eval.bind_of_error herror)]
    exact hperformed
  ends := by
    have hends := hx.ends
    rw [Eval.stop?_of_error herror] at hends
    rw [Eval.stop?_of_error (Eval.bind_of_error herror)]
    exact hends
  passed := by
    intro w hw
    rw [Eval.bind_of_error ((hx.passed w hw).trans herror), Eval.bind_of_error herror]
  stopped := by
    intro w hw
    obtain ⟨m₁, hm₁⟩ := hx.stopped w hw
    exact ⟨m₁, Eval.bind_of_error hm₁⟩

theorem Logged.bind (hx : Logged x) (hf : ∀ a, Logged (f · a)) : Logged fun w => x w >>= f w := by
  intro m
  obtain ⟨calls, hcalls⟩ := hx m
  cases h : x .off m with
  | ok a m' =>
    obtain ⟨rest, hrest⟩ := hf a m'
    exact ⟨calls ++ rest, hcalls.append h hrest⟩
  | error i m' => exact ⟨calls, hcalls.bind_error h⟩

/-- Brackets make the calls of what they run. -/
theorem Logs.bracket {z : HostWatch → Eval α} {start : Machine} (leave : Machine → Machine)
    (hx : Logs x start calls) (hstart : start.world = m.world)
    (hleave : ∀ m', (leave m').world = m'.world)
    (hz : ∀ w, z w m = match x w start with
      | .ok a m' => .ok a (leave m')
      | .error i m' => .error i (leave m')) : Logs z m calls where
  performed := by
    have hperformed := hx.performed
    have hoff := hz .off
    rw [hstart] at hperformed
    cases h : x .off start with
    | ok a m' =>
      rw [h] at hoff
      rw [Eval.after_of_ok h] at hperformed
      rw [Eval.after_of_ok hoff, hleave]
      exact hperformed
    | error i m' =>
      rw [h] at hoff
      rw [Eval.after_of_error h] at hperformed
      rw [Eval.after_of_error hoff, hleave]
      exact hperformed
  ends := by
    have hends := hx.ends
    have hoff := hz .off
    cases h : x .off start with
    | ok a m' =>
      rw [h] at hoff
      rwa [Eval.stop?_of_ok h, ← Eval.stop?_of_ok hoff] at hends
    | error i m' =>
      rw [h] at hoff
      rwa [Eval.stop?_of_error h, ← Eval.stop?_of_error hoff] at hends
  passed := by
    intro w hw
    rw [hz, hz, hx.passed w hw]
  stopped := by
    intro w hw
    obtain ⟨m', hm'⟩ := hx.stopped w hw
    exact ⟨leave m', by rw [hz, hm']⟩

/-! ### Host calls -/

section HostCall

variable {name : String} {args : List Value} {span : Span} {w : HostWatch}

end HostCall

/-! ### Runs -/

end Sluice
