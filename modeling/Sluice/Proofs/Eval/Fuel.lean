import Sluice.Proofs.Eval.Compositional

/-! More fuel. A run that had fuel enough is the same with more of it, so it makes sense to say in what the
evaluation of an expression ends without saying how much it was given. -/
namespace Sluice

variable {α β : Type} {x y z : Eval α} {f g : α → Eval β} {m m' : Machine}

def Eval.Enough (x : Eval α) (m : Machine) : Prop := ∀ m', x m ≠ .error .outOfFuel m'

/-- Where `x` has fuel enough, `y` does what `x` does. -/
def Eval.Approx (x y : Eval α) : Prop := ∀ m, x.Enough m → y m = x m

namespace Eval

theorem Approx.refl (x : Eval α) : Approx x x := fun _ _ => rfl

theorem Approx.enough (h : Approx x y) (hx : x.Enough m) : y.Enough m := by
  intro m' hy
  rw [h m hx] at hy
  exact hx m' hy

theorem Approx.trans (hxy : Approx x y) (hyz : Approx y z) : Approx x z := fun m hx =>
  (hyz m (hxy.enough hx)).trans (hxy m hx)

theorem Enough.left (h : (x >>= f).Enough m) : x.Enough m := fun m' hx => h m' (bind_of_error hx)

theorem Enough.right {a : α} (h : (x >>= f).Enough m) (hx : x m = .ok a m') : (f a).Enough m' := by
  intro m₁ hf
  exact h m₁ ((bind_of_ok hx).trans hf)

theorem Approx.bind (hx : Approx x y) (hf : ∀ a, Approx (f a) (g a)) : Approx (x >>= f) (y >>= g) := by
  intro m hm
  have heq := hx m hm.left
  cases h : x m with
  | ok a m' => rw [bind_of_ok h, bind_of_ok (heq.trans h), hf a m' (hm.right h)]
  | error i m' => rw [bind_of_error h, bind_of_error (heq.trans h)]

/-- A bracket runs `x` from another state and puts something back, whatever happens. -/
theorem Approx.bracket {z w : Eval α} {start : Machine} (leave : Machine → Machine)
    (hz : z m = match x start with
      | .ok a m' => .ok a (leave m')
      | .error i m' => .error i (leave m'))
    (hw : w m = match y start with
      | .ok a m' => .ok a (leave m')
      | .error i m' => .error i (leave m'))
    (hxy : Approx x y) (hm : z.Enough m) : w m = z m := by
  have hx : x.Enough start := by
    intro m' hx
    rw [hx] at hz
    exact hm _ hz
  rw [hz, hw, hxy start hx]

/-- Approximation is respected by all ways in which programs are put together. -/
theorem approx_pervasive : Pervasive fun {α : Type} (x : Bool → Eval α) => Approx (x false) (x true) where
  query _ := .refl _
  outOfFuel := .refl _
  bind hx hf := hx.bind hf
  bindName _ _ := .refl _
  makeFn _ _ _ := .refl _
  reassign _ _ _ := .refl _
  register _ _ := .refl _
  declareAdt _ := .refl _
  inScope parent hx m := Approx.bracket (·.exit (m.enter parent).current m.current) rfl rfl hx
  inBlock hx m := Approx.bracket (·.exit (m.enter m.current).current m.current) rfl rfl hx
  deeper span hx m := by
    by_cases hdeep : m.maxDepth ≤ m.depth
    · exact fun _ => (if_pos hdeep).trans (if_pos hdeep).symm
    · exact Approx.bracket ({ · with depth := m.depth }) (if_neg hdeep) (if_neg hdeep) hx
  inModule name hx m := Approx.bracket ({ · with current := m.current }) rfl rfl hx

end Eval

open Eval

namespace Runner

/-- More rounds. -/
theorem approx_runWhile (r : Runner) (test : Expr) (body : Block) {n k : Nat} (h : n ≤ k) :
    Approx (r.runWhile test body n) (r.runWhile test body k) := by
  induction n generalizing k with
  | zero => exact fun m hm => absurd rfl (hm m)
  | succ n ih =>
    obtain ⟨k, rfl⟩ : ∃ k', k = k' + 1 := ⟨k - 1, by omega⟩
    have hrest := ih (k := k) (by omega)
    refine (Approx.refl _).bind fun b => ?_
    cases b with
    | false => exact .refl _
    | true =>
      refine (Approx.refl _).bind fun flow => ?_
      cases flow with
      | value v => exact hrest
      | next s => exact hrest
      | leave s => exact .refl _
      | ret v s => exact .refl _

theorem rounds_ofFuel (n : Nat) : (ofFuel n).rounds = n - 1 := by cases n <;> rfl

/-- With more fuel everything that is run does the same, if it had enough. -/
theorem approx_ofFuel {n k : Nat} (h : n ≤ k) :
    Related (fun {α : Type} (x : Bool → Eval α) => Approx (x false) (x true))
      fun more => cond more (ofFuel k) (ofFuel n) := by
  induction n generalizing k with
  | zero =>
    have hzero : ∀ {α : Type} (y : Eval α), Approx (throw .outOfFuel) y := fun y m hm => absurd rfl (hm m)
    exact ⟨fun _ => hzero _, fun _ => hzero _, fun _ _ _ => hzero _, fun _ _ _ => hzero _⟩
  | succ n ih =>
    obtain ⟨k, rfl⟩ : ∃ k', k = k' + 1 := ⟨k - 1, by omega⟩
    have hrelated := ih (k := k) (by omega)
    have hloop : ∀ test body, Approx ((ofFuel n).runWhile test body (ofFuel n).rounds)
        ((ofFuel k).runWhile test body (ofFuel k).rounds) := by
      intro test body
      refine (approx_pervasive.runWhile hrelated test body (ofFuel n).rounds).trans ?_
      exact approx_runWhile (ofFuel k) test body (by rw [rounds_ofFuel, rounds_ofFuel]; omega)
    have hcall : ∀ f args span,
        Approx ((ofFuel n).callRule f args span) ((ofFuel k).callRule f args span) := by
      intro f args span
      cases f with
      | host name => exact .refl (hostCall name args span)
      | _ => exact approx_pervasive.callRule hrelated _ args span nofun
    exact ⟨fun e => approx_pervasive.exprRule hrelated e, fun s => approx_pervasive.stmtRule hrelated hloop s,
      hcall, fun c args span => approx_pervasive.bodyRule hrelated c args span⟩

theorem approx_expr {n k : Nat} (h : n ≤ k) (e : Expr) : Approx ((ofFuel n).expr e) ((ofFuel k).expr e) :=
  (approx_ofFuel h).expr e

theorem approx_call {n k : Nat} (h : n ≤ k) (f : Value) (args : List Value) (span : Span) :
    Approx ((ofFuel n).call f args span) ((ofFuel k).call f args span) :=
  (approx_ofFuel h).call f args span

theorem approx_runStages {n k : Nat} (h : n ≤ k) (stages : List Expr) :
    Approx ((ofFuel n).runStages stages) ((ofFuel k).runStages stages) :=
  approx_pervasive.runStages (approx_ofFuel h) stages

end Runner

/-! ### With fuel enough -/

structure Fuelled (α : Type) where
  run : Nat → Eval α
  mono : ∀ {n k}, n ≤ k → Approx (run n) (run k)

namespace Fuelled

variable {X Y : Fuelled α} {r r' : EStateM.Result Interrupt Machine α}

def expr (e : Expr) : Fuelled Value := ⟨fun n => (Runner.ofFuel n).expr e, (Runner.approx_expr · e)⟩

def call (f : Value) (args : List Value) (span : Span) : Fuelled Value :=
  ⟨fun n => (Runner.ofFuel n).call f args span, (Runner.approx_call · f args span)⟩

def stages (es : List Expr) : Fuelled Value :=
  ⟨fun n => (Runner.ofFuel n).runStages es, (Runner.approx_runStages · es)⟩

def bind (X : Fuelled α) (F : α → Fuelled β) : Fuelled β :=
  ⟨fun n => X.run n >>= fun a => (F a).run n, fun h => (X.mono h).bind fun a => (F a).mono h⟩

def EndsIn (X : Fuelled α) (m : Machine) (r : EStateM.Result Interrupt Machine α) : Prop :=
  (∀ m', r ≠ .error .outOfFuel m') ∧ ∃ n, ∀ k, n ≤ k → X.run k m = r

theorem endsIn_of_enough {n : Nat} (h : (X.run n).Enough m) : X.EndsIn m (X.run n m) :=
  ⟨h, n, fun _ hk => X.mono hk m h⟩

/-- A computation ends in one way only. -/
theorem EndsIn.unique (h : X.EndsIn m r) (h' : X.EndsIn m r') : r = r' := by
  obtain ⟨-, n, hn⟩ := h
  obtain ⟨-, n', hn'⟩ := h'
  exact (hn _ (Nat.le_max_left n n')).symm.trans (hn' _ (Nat.le_max_right n n'))

/-- Computations that do the same, each with some more fuel. -/
theorem EndsIn.congr {a b : Nat} (h : X.EndsIn m r) (heq : ∀ n, X.run (n + a) m = Y.run (n + b) m) :
    Y.EndsIn m r := by
  obtain ⟨hr, n, hn⟩ := h
  refine ⟨hr, n + b, fun k hk => ?_⟩
  obtain ⟨k, rfl⟩ : ∃ k', k = k' + b := ⟨k - b, by omega⟩
  rw [← heq, hn (k + a) (by omega)]

/-- What comes first ends first, and what comes then ends after it. -/
theorem endsIn_bind {F : α → Fuelled β} {r : EStateM.Result Interrupt Machine β} : (X.bind F).EndsIn m r ↔
    (∃ a m', X.EndsIn m (.ok a m') ∧ (F a).EndsIn m' r) ∨
      ∃ i m', X.EndsIn m (.error i m') ∧ r = .error i m' := by
  constructor
  · rintro ⟨hr, n, hn⟩
    have heq : (X.run n >>= fun a => (F a).run n) m = r := hn n (Nat.le_refl n)
    have henough : (X.run n >>= fun a => (F a).run n).Enough m := by
      rw [Enough, heq]
      exact hr
    have hfirst := endsIn_of_enough henough.left
    cases hx : X.run n m with
    | ok a m' =>
      rw [hx] at hfirst
      have hthen := endsIn_of_enough (X := F a) (henough.right hx)
      rw [(bind_of_ok hx).symm.trans heq] at hthen
      exact .inl ⟨a, m', hfirst, hthen⟩
    | error i m' =>
      rw [hx] at hfirst
      exact .inr ⟨i, m', hfirst, heq.symm.trans (bind_of_error hx)⟩
  · rintro (⟨a, m', ⟨-, n, hn⟩, hr, n', hn'⟩ | ⟨i, m', ⟨hr, n, hn⟩, rfl⟩)
    · refine ⟨hr, max n n', fun k hk => ?_⟩
      exact (bind_of_ok (hn k (by omega))).trans (hn' k (by omega))
    · refine ⟨fun m₁ h => ?_, n, fun k hk => bind_of_error (hn k hk)⟩
      obtain ⟨rfl, rfl⟩ := EStateM.Result.error.inj h
      exact hr m' rfl

end Fuelled

end Sluice
