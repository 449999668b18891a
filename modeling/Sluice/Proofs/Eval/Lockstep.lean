import Sluice.Proofs.Eval.Rules

/-! Runs in lockstep. Two runs of a program whose worlds host calls cannot tell apart, and of which the
second may go deeper into calls, do the same step by step, unless the first one hits its limit. The depth
of calls matters to that one check only, and each bracket puts it back. -/
namespace Sluice

/-- What host calls give does not tell the worlds apart, and they stay so. -/
structure Bisimulation (R : World → World → Prop) : Prop where
  result : ∀ {w w' : World} name args, R w w' →
    (Host.call name args w).1 = (Host.call name args w').1
  world : ∀ {w w' : World} name args, R w w' → R (Host.call name args w).2 (Host.call name args w').2

theorem bisimulation_eq : Bisimulation (· = ·) where
  result _ _ h := by rw [h]
  world _ _ h := by rw [h]

section

variable {R : World → World → Prop} {low high : Nat} {α β : Type} {m m' : Machine}

/-- The states differ in their worlds and in their limits only. -/
inductive Abreast (R : World → World → Prop) (low high : Nat) : Machine → Machine → Prop where
  | of {m : Machine} {world : World} : m.maxDepth = low → R m.world world →
    Abreast R low high m { m with world, maxDepth := high }

/-- Both computations end in the same way, or the first one hits its limit, which is the lower one. -/
inductive Together (R : World → World → Prop) (low high : Nat) :
    EStateM.Result Interrupt Machine α → EStateM.Result Interrupt Machine α → Prop where
  | ok {m m' : Machine} (a : α) : Abreast R low high m m' → Together R low high (.ok a m) (.ok a m')
  | error {m m' : Machine} (i : Interrupt) : Abreast R low high m m' →
    Together R low high (.error i m) (.error i m')
  | tooDeep {f : Fault} {m : Machine} {result : EStateM.Result Interrupt Machine α} : low < high →
    f.kind = .callDepthExceeded → Together R low high (.error (.fault f) m) result

def Lockstep (R : World → World → Prop) (low high : Nat) (x : Eval α) : Prop :=
  ∀ m m', Abreast R low high m m' → Together R low high (x m) (x m')

theorem Lockstep.bind {x : Eval α} {f : α → Eval β} (hx : Lockstep R low high x)
    (hf : ∀ a, Lockstep R low high (f a)) : Lockstep R low high (x >>= f) := by
  intro m m' h
  have hends := hx m m' h
  generalize hm : x m = end₁ at hends
  generalize hm' : x m' = end₂ at hends
  cases hends with
  | ok a hafter =>
    rw [Eval.bind_of_ok hm, Eval.bind_of_ok hm']
    exact hf a _ _ hafter
  | error i hafter =>
    rw [Eval.bind_of_error hm, Eval.bind_of_error hm']
    exact .error i hafter
  | tooDeep hlimit hkind =>
    rw [Eval.bind_of_error hm]
    exact .tooDeep hlimit hkind

/-- Brackets put back the same on both sides. -/
theorem Together.bracket {x z : Eval α} {start start' : Machine} (leave : Machine → Machine)
    (hx : Lockstep R low high x) (hstart : Abreast R low high start start')
    (hleave : ∀ {m m'}, Abreast R low high m m' → Abreast R low high (leave m) (leave m'))
    (hz : z m = match x start with
      | .ok a m => .ok a (leave m)
      | .error i m => .error i (leave m))
    (hz' : z m' = match x start' with
      | .ok a m => .ok a (leave m)
      | .error i m => .error i (leave m)) : Together R low high (z m) (z m') := by
  have hends := hx start start' hstart
  rw [hz, hz']
  generalize x start = end₁ at hends
  generalize x start' = end₂ at hends
  cases hends with
  | ok a hafter => exact .ok a (hleave hafter)
  | error i hafter => exact .error i (hleave hafter)
  | tooDeep hlimit hkind => exact .tooDeep hlimit hkind

theorem Lockstep.inScope {x : Eval α} (parent : ScopeId) (hx : Lockstep R low high x) :
    Lockstep R low high (Eval.inScope parent x) := by
  rintro m _ ⟨hlow, hR⟩
  have hstart : Abreast R low high (m.enter parent) _ := .of hlow hR
  refine .bracket (·.exit (m.enter parent).current m.current) hx hstart ?_ rfl rfl
  rintro m _ ⟨hlow, hR⟩
  exact .of hlow hR

theorem Lockstep.inModule {x : Eval α} (name : String) (hx : Lockstep R low high x) :
    Lockstep R low high (Eval.inModule name x) := by
  rintro m _ ⟨hlow, hR⟩
  have hstart : Abreast R low high
      { m.enter m.root with modules := m.modules.insert name (m.enter m.root).current } _ :=
    .of hlow hR
  refine .bracket ({ · with current := m.current }) hx hstart ?_ rfl rfl
  rintro m _ ⟨hlow, hR⟩
  exact .of hlow hR

theorem Lockstep.deeper {x : Eval α} (hle : low ≤ high) (span : Span) (hx : Lockstep R low high x) :
    Lockstep R low high (Eval.deeper span x) := by
  rintro m _ @⟨world, rfl, hR⟩
  have hlimit : Abreast R m.maxDepth high m _ := .of rfl hR
  by_cases hdeep : m.maxDepth ≤ m.depth
  · have herror : Eval.deeper span x m = .error (.fault (.callTooDeep m.maxDepth span)) m :=
      if_pos hdeep
    rw [herror]
    rcases Nat.lt_or_eq_of_le hle with hlt | rfl
    · exact .tooDeep hlt rfl
    · have herror' : Eval.deeper span x { m with world } =
        .error (.fault (.callTooDeep m.maxDepth span)) { m with world } := if_pos hdeep
      rw [herror']
      exact .error _ hlimit
  · have hfits : ¬ high ≤ m.depth := fun hhigh => hdeep (Nat.le_trans hle hhigh)
    have hstart : Abreast R m.maxDepth high { m with depth := m.depth + 1 } _ := .of rfl hR
    refine .bracket ({ · with depth := m.depth }) hx hstart ?_ (if_neg hdeep) (if_neg hfits)
    rintro m _ ⟨hlow, hR⟩
    exact .of hlow hR

/-- What does not look at the world or the depth of calls goes in lockstep. -/
theorem Lockstep.query {q : Machine → Except Fault α} (hq : Machine.Inward q) :
    Lockstep R low high (Eval.query q) := by
  rintro m _ ⟨hlow, hR⟩
  rw [Eval.query, Eval.query, hq m _ m.depth high]
  cases q m with
  | ok a => exact .ok a (.of hlow hR)
  | error f => exact .error _ (.of hlow hR)

theorem lockstep_modify {u : Machine → Machine} (hlow : ∀ m, (u m).maxDepth = m.maxDepth)
    (hworld : ∀ m, (u m).world = m.world)
    (hu : ∀ m world, u { m with world, maxDepth := high } = { u m with world, maxDepth := high }) :
    Lockstep R low high (modify u : Eval Unit) := by
  rintro m _ ⟨hm, hR⟩
  have hafter : Abreast R low high (u m) { u m with world := _, maxDepth := high } :=
    .of ((hlow m).trans hm) (hworld m ▸ hR)
  rw [← hu] at hafter
  exact .ok () hafter

theorem lockstep_hostCall (hR : Bisimulation R) (name : String) (args : List Value) (span : Span) :
    Lockstep R low high (Runner.hostCall name args span) := by
  rintro m _ ⟨hlow, hw⟩
  have hresult := hR.result name args hw
  have hworld := hR.world name args hw
  rw [hostCall_eq, hostCall_eq, ← hresult]
  split
  · exact .ok _ (.of hlow hworld)
  · exact .error _ (.of hlow hworld)
  · exact .error _ (.of hlow hworld)

theorem pervasive_lockstep (hle : low ≤ high) :
    Pervasive fun {α : Type} (x : Unit → Eval α) => Lockstep R low high (x ()) where
  query := Lockstep.query
  outOfFuel _ _ h := .error .outOfFuel h
  bind := Lockstep.bind
  bindName _ _ := lockstep_modify (fun _ => rfl) (fun _ => rfl) fun _ _ => rfl
  makeFn name params body := by
    rintro m _ ⟨hlow, hR⟩
    exact .ok (m.makeFn name params body).1 (.of hlow hR)
  reassign root v span := by
    rintro m _ ⟨hlow, hR⟩
    unfold Runner.reassign
    dsimp only
    cases m.arena.assign m.current root.text v with
    | ok arena => exact .ok () (.of hlow hR)
    | error e => exact .error _ (.of hlow hR)
  register span u := by
    rintro m _ ⟨hlow, hR⟩
    unfold Eval.register
    dsimp only
    cases u m.registry with
    | ok registry => exact .ok () (.of hlow hR)
    | error e => exact .error _ (.of hlow hR)
  declareAdt _ := lockstep_modify (fun _ => rfl) (fun _ => rfl) fun _ _ => rfl
  inScope := Lockstep.inScope
  inBlock hx m m' h := by
    cases h with
    | of hlow hR => exact hx.inScope m.current m _ (.of hlow hR)
  deeper := Lockstep.deeper hle
  inModule := Lockstep.inModule

/-- Whatever is run with two worlds that host calls cannot tell apart does the same, unless it hits the
lower of two limits. -/
theorem lockstep_run (hR : Bisimulation R) (hle : low ≤ high) (e : Entry) (n : Nat) :
    Lockstep R low high (e.run (.ofFuel n)) := by
  have V : Pervasive fun {α : Type} (x : Unit → Eval α) => Lockstep R low high (x ()) :=
    pervasive_lockstep hle
  exact V.entry (V.related_ofFuel (lockstep_hostCall hR) n) e

end

/-! ### Raising the limit -/

def RunError.TooDeep : RunError → Prop
  | .interrupt (.fault f) => f.kind = .callDepthExceeded
  | _ => False

instance (e : RunError) : Decidable e.TooDeep := by
  unfold RunError.TooDeep
  split <;> infer_instance

/-- A run that does not hit its limit of calls has, with any higher limit, the same outcome, and leaves
the same output, trace and files. -/
theorem Module.run_eq_of_le (md : Module) (args : List String) (w : World) {d d' : Nat} (hd : d ≤ d')
    (hfits : ∀ e, (md.run ⟨args, d⟩ w).1 = .error e → ¬ e.TooDeep) :
    md.run ⟨args, d'⟩ w = md.run ⟨args, d⟩ w := by
  have hstart : Abreast (· = ·) d d' (.start args d w) (.start args d' w) := .of rfl rfl
  have hends := lockstep_run bisimulation_eq hd (.module md) fuel _ _ hstart
  unfold run at hfits ⊢
  rw [Entry.run] at hends
  unfold Eval.outcome at hfits ⊢
  revert hfits
  generalize (Runner.ofFuel fuel).runModule md (.start args d w) = end₁ at hends
  generalize (Runner.ofFuel fuel).runModule md (.start args d' w) = end₂ at hends
  intro hfits
  cases hends with
  | ok a hafter =>
    obtain ⟨-, rfl⟩ := hafter
    rfl
  | error i hafter =>
    obtain ⟨-, rfl⟩ := hafter
    rfl
  | tooDeep hlt hkind => exact absurd hkind (hfits _ rfl)

/-- A program that prints a line from within a call. -/
def greetInCall : Module where
  name := "greeting"
  body := ⟨[.expr (.call (.lambda [] none ⟨[.expr (.call (.var ⟨"print", default⟩)
    [.lit (.str "hi") default] default) default], default⟩ default) [] default) default], default⟩
  span := default

/-- One call may be in progress, and more than one makes no difference. -/
theorem greetInCall_run_of_one_le :
    (∀ e, (greetInCall.run ⟨[], 1⟩ {}).1 = .error e → ¬ e.TooDeep) ∧
      greetInCall.run ⟨[], 1000⟩ {} = greetInCall.run ⟨[], 1⟩ {} := by
  have hok : (greetInCall.run ⟨[], 1⟩ {}).1.isOk = true := by decide +kernel
  have hfits : ∀ e, (greetInCall.run ⟨[], 1⟩ {}).1 = .error e → ¬ e.TooDeep := by
    intro e he
    rw [he] at hok
    cases hok
  exact ⟨hfits, greetInCall.run_eq_of_le [] {} (by decide) hfits⟩

end Sluice
