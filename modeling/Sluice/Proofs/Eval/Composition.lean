import Mathlib.Data.List.Induction
import Sluice.Proofs.Eval.Fuel
import Sluice.Proofs.Eval.Rules

/-! The composition law. A value that is sent through functions by name ends as it does in the nested call
of them. The nested call looks the names up before anything is run, the composition one by one in between;
that makes no difference when no name has come to stand for something else by then. -/
namespace Sluice

variable {α β : Type} {x y : Eval α} {m m' : Machine} {n k : Nat}

/-! ### Spans of calls -/

def Interrupt.spanless : Interrupt → Interrupt
  | .fault f => .fault { f with span := default }
  | i => i

def spanless : EStateM.Result Interrupt Machine α → EStateM.Result Interrupt Machine α
  | .ok a m => .ok a m
  | .error i m => .error i.spanless m

/-- The computations end in the same way but for spans. -/
def Eval.Like (x y : Eval α) : Prop := ∀ m, spanless (x m) = spanless (y m)

theorem spanless_ok {r : EStateM.Result Interrupt Machine α} {a : α} :
    spanless r = .ok a m ↔ r = .ok a m := by
  cases r <;> simp [spanless]

theorem Interrupt.spanless_outOfFuel {i : Interrupt} : i.spanless = .outOfFuel ↔ i = .outOfFuel := by
  cases i <;> simp [spanless]

namespace Eval

theorem Enough.of_like (hx : x.Enough m) (h : spanless (x m) = spanless (y m)) : y.Enough m := by
  intro m' hy
  rw [hy] at h
  cases heq : x m with
  | ok a m₁ =>
    rw [heq] at h
    cases h
  | error i m₁ =>
    rw [heq] at h
    obtain ⟨hi, -⟩ := EStateM.Result.error.inj h
    exact hx m₁ (heq.trans (by rw [Interrupt.spanless_outOfFuel.1 hi]))

theorem Like.of {r r' : Except Fault α}
    (h : r.mapError (fun f => { f with span := default }) = r'.mapError fun f => { f with span := default }) :
    Like (Eval.of r) (Eval.of r') := by
  intro m
  cases r <;> cases r' <;> simp_all [Except.mapError, Eval.of, spanless, Interrupt.spanless]

theorem Like.bind {f g : α → Eval β} (h : Like x y) (hf : ∀ a, Like (f a) (g a)) :
    Like (x >>= f) (y >>= g) := by
  intro m
  have hm := h m
  cases hx : x m with
  | ok a m' =>
    rw [hx] at hm
    rw [bind_of_ok hx, bind_of_ok (spanless_ok.1 hm.symm)]
    exact hf a m'
  | error i m' =>
    cases hy : y m with
    | ok b m₁ =>
      rw [hx, hy] at hm
      cases hm
    | error j m₁ =>
      rw [hx, hy] at hm
      rw [bind_of_error hx, bind_of_error hy]
      obtain ⟨hi, rfl⟩ := EStateM.Result.error.inj hm
      exact congrArg (EStateM.Result.error · m') hi

theorem Like.deeper (h : Like x y) (s s' : Span) : Like (Eval.deeper s x) (Eval.deeper s' y) := by
  intro m
  by_cases hdeep : m.maxDepth ≤ m.depth
  · rw [Eval.deeper, Eval.deeper, if_pos hdeep, if_pos hdeep]
    rfl
  · rw [Eval.deeper, Eval.deeper, if_neg hdeep, if_neg hdeep]
    have hbody := h { m with depth := m.depth + 1 }
    revert hbody
    cases x { m with depth := m.depth + 1 } <;> cases y { m with depth := m.depth + 1 } <;>
      simp +contextual [spanless]

theorem Like.inScope (h : Like x y) (parent : ScopeId) :
    Like (Eval.inScope parent x) (Eval.inScope parent y) := by
  intro m
  have hbody := h (m.enter parent)
  simp only [Eval.inScope]
  revert hbody
  cases x (m.enter parent) <;> cases y (m.enter parent) <;> simp +contextual [spanless]

end Eval

open Eval

namespace Runner

theorem apply_like (b : Builtin) (args : List Value) (s s' : Span) :
    Like (Eval.of (b.apply args s)) (Eval.of (b.apply args s')) := by
  refine Like.of ?_
  cases b <;> rcases args with _ | ⟨v, _ | ⟨w, args⟩⟩
  all_goals try rfl
  all_goals cases v <;> rfl

theorem build_like (c : Constructor) (args : List Value) (s s' : Span) :
    Like (Eval.of (c.build args s)) (Eval.of (c.build args s')) := by
  refine Like.of ?_
  cases c with
  | struct name fields =>
    simp only [Constructor.build]
    split <;> rfl
  | variant enumName name arity =>
    simp only [Constructor.build]
    split <;> rfl

theorem hostCall_like (name : String) (args : List Value) (s s' : Span) :
    Like (hostCall name args s) (hostCall name args s') := by
  intro m
  rw [hostCall_eq, hostCall_eq]
  cases (Host.call name args m.world).1 with
  | ok v => rfl
  | error e => cases e <;> rfl

/-- Of the span of a call there is nothing in what it does but in its fault. -/
theorem call_like (n : Nat) :
    (∀ f args s s', Like ((ofFuel n).call f args s) ((ofFuel n).call f args s')) ∧
      ∀ c args s s', Like ((ofFuel n).body c args s) ((ofFuel n).body c args s') := by
  induction n with
  | zero => exact ⟨fun _ _ _ _ _ => rfl, fun _ _ _ _ _ => rfl⟩
  | succ n ih =>
    obtain ⟨hcall, hbody⟩ := ih
    constructor
    · intro f args s s'
      show Like ((ofFuel n).callRule f args s) ((ofFuel n).callRule f args s')
      cases f with
      | fn c =>
        simp only [callRule, callFn]
        split
        · split
          · exact (hbody c args s s').deeper s s'
          · exact fun _ => rfl
        · exact (hbody c args s s').deeper s s'
      | builtin b => exact apply_like b args s s'
      | host name => exact hostCall_like name args s s'
      | constructor c => exact build_like c args s s'
      | method name =>
        refine Like.bind (fun m => Like.of ?_ m) fun f => hcall f args s s'
        rcases args with _ | ⟨v, args⟩
        · rfl
        · simp only [implementation]
          split <;> rfl
      | _ => exact fun _ => rfl
    · intro c args s s'
      show Like ((ofFuel n).bodyRule c args s) ((ofFuel n).bodyRule c args s')
      rw [bodyRule, bodyRule]
      split
      · exact fun _ => rfl
      · refine Like.inScope ?_ c.scope
        rcases args with _ | ⟨v, _ | ⟨w, args⟩⟩ <;> exact fun _ => rfl

end Runner

/-! ### Ends of one and ends of the other -/

namespace Fuelled

variable {X Y : Fuelled α} {F G : α → Fuelled β}

/-- Where `X` ends, `Y` ends in the same way but for spans. -/
def MatchedBy (X Y : Fuelled α) (m : Machine) : Prop :=
  ∀ r, X.EndsIn m r → ∃ r', Y.EndsIn m r' ∧ spanless r = spanless r'

/-- One ends exactly where the other does, and in the same way but for spans. -/
def Matches (X Y : Fuelled α) (m : Machine) : Prop := X.MatchedBy Y m ∧ Y.MatchedBy X m

theorem MatchedBy.bind (h : X.MatchedBy Y m)
    (hF : ∀ a m', X.EndsIn m (.ok a m') → (F a).MatchedBy (G a) m') : (X.bind F).MatchedBy (Y.bind G) m := by
  intro r hr
  obtain ⟨a, m', hX, hthen⟩ | ⟨i, m', hX, rfl⟩ := endsIn_bind.1 hr
  · obtain ⟨r₁, hY, hsame⟩ := h _ hX
    obtain rfl := spanless_ok.1 hsame.symm
    obtain ⟨r', hG, hsame'⟩ := hF a m' hX r hthen
    exact ⟨r', endsIn_bind.2 (.inl ⟨a, m', hY, hG⟩), hsame'⟩
  · obtain ⟨r', hY, hsame⟩ := h _ hX
    cases r' with
    | ok a m₁ => cases hsame
    | error j m₁ =>
      refine ⟨.error j m₁, endsIn_bind.2 (.inr ⟨j, m₁, hY, rfl⟩), ?_⟩
      obtain ⟨hi, hm⟩ := EStateM.Result.error.inj hsame
      rw [spanless, spanless, hi, hm]

namespace Matches

theorem symm (h : X.Matches Y m) : Y.Matches X m := ⟨h.2, h.1⟩

theorem trans {Z : Fuelled α} (h : X.Matches Y m) (h' : Y.Matches Z m) : X.Matches Z m := by
  constructor
  · intro r hr
    obtain ⟨r', hr', hsame⟩ := h.1 r hr
    obtain ⟨r'', hr'', hsame'⟩ := h'.1 r' hr'
    exact ⟨r'', hr'', hsame.trans hsame'⟩
  · intro r hr
    obtain ⟨r', hr', hsame⟩ := h'.2 r hr
    obtain ⟨r'', hr'', hsame'⟩ := h.2 r' hr'
    exact ⟨r'', hr'', hsame.trans hsame'⟩

theorem bind (h : X.Matches Y m) (hF : ∀ a m', X.EndsIn m (.ok a m') → (F a).Matches (G a) m') :
    (X.bind F).Matches (Y.bind G) m := by
  refine ⟨h.1.bind fun a m' hX => (hF a m' hX).1, h.2.bind fun a m' hY => ?_⟩
  obtain ⟨r, hX, hsame⟩ := h.2 _ hY
  obtain rfl := spanless_ok.1 hsame.symm
  exact (hF a m' hX).2

/-- Computations that do the same, each with some more fuel. -/
theorem of_run {a b : Nat} (heq : ∀ n, X.run (n + a) m = Y.run (n + b) m) : X.Matches Y m :=
  ⟨fun r hr => ⟨r, hr.congr heq, rfl⟩, fun r hr => ⟨r, hr.congr fun n => (heq n).symm, rfl⟩⟩

end Matches

theorem matches_call (f : Value) (args : List Value) (s s' : Span) (m : Machine) :
    (call f args s).Matches (call f args s') m := by
  suffices hmatched : ∀ s s', (call f args s).MatchedBy (call f args s') m from ⟨hmatched s s', hmatched s' s⟩
  rintro s s' r ⟨hr, n, hn⟩
  have hlike := (Runner.call_like n).1 f args s s' m
  have hend : (call f args s).run n m = r := hn n (Nat.le_refl n)
  have henough : ((call f args s).run n).Enough m := by
    rw [Enough, hend]
    exact hr
  exact ⟨_, endsIn_of_enough (X := call f args s') (henough.of_like hlike), hend ▸ hlike⟩

end Fuelled

/-! ### Compositions and nested calls -/

structure Link where
  name : String
  /-- The span of the name as a stage. -/
  stage : Span
  /-- The span of the name where it is called. -/
  callee : Span
  call : Span

/-- `e | f₁ | … | fₙ` -/
def piped (e : Expr) (links : List Link) (span : Span) : Expr :=
  .compose (e :: links.map fun l => .var ⟨l.name, l.stage⟩) .immediate span

/-- `fₙ(…(f₁(e)))` -/
def nested (e : Expr) (links : List Link) : Expr :=
  links.foldl (fun arg l => .call (.var ⟨l.name, l.callee⟩) [arg] l.call) e

def Machine.meaning? (m : Machine) (name : String) : Option Value := (m.lookup ⟨name, default⟩).toOption

theorem Machine.lookup_eq_ok {name : String} {v : Value} (span : Span) :
    m.lookup ⟨name, span⟩ = .ok v ↔ m.meaning? name = some v := by
  simp only [meaning?, lookup]
  cases m.arena.lookup? m.current name with
  | some v => simp [Except.toOption]
  | none => cases m.modules.contains name <;> simp [Except.toOption]

/-- When the turn of a name comes in the composition, it stands for what it stood for at first. -/
def Unrebound (e : Expr) (links : List Link) (m : Machine) : Prop :=
  ∀ front l back, links = front ++ l :: back → ∀ span v m',
    (Fuelled.expr (piped e front span)).EndsIn m (.ok v m') → m'.meaning? l.name = m.meaning? l.name

section

variable {e : Expr} {links : List Link} {l : Link}

theorem Runner.sendThrough_append (r : Runner) (xs ys : List Expr) (acc : Value) :
    r.sendThrough (xs ++ ys) acc = r.sendThrough xs acc >>= r.sendThrough ys := by
  induction xs generalizing acc with
  | nil => rfl
  | cons stage xs ih =>
    rw [List.cons_append, Runner.sendThrough, Runner.sendThrough]
    split <;> simp only [ih, bind_assoc]

/-- The composition with one more name. -/
theorem stages_append (e : Expr) (front : List Expr) (id : Ident) (n : Nat) :
    (Fuelled.stages (e :: (front ++ [.var id]))).run n =
      ((Fuelled.stages (e :: front)).bind fun v =>
        (Fuelled.expr (.var id)).bind fun f => .call f [v] id.span).run n := by
  show (Runner.ofFuel n).expr e >>= _ = ((Runner.ofFuel n).expr e >>= _) >>= _
  rw [bind_assoc]
  refine bind_congr fun v => ?_
  rw [Runner.sendThrough_append]
  refine bind_congr fun v => ?_
  exact bind_congr fun f => bind_pure _

/-- The call of a name that stands for something. -/
theorem call_named {id : Ident} {f : Value} (hf : m.lookup id = .ok f) (arg : Expr) (span : Span) (n : Nat) :
    (Fuelled.expr (.call (.var id) [arg] span)).run (n + 2) m =
      ((Fuelled.expr arg).bind fun v => .call f [v] span).run (n + 1) m := by
  have hname : (Runner.ofFuel (n + 1)).expr (.var id) m = .ok f m := by
    show Eval.of (m.lookup id) m = _
    rw [hf]
    rfl
  show ((Runner.ofFuel (n + 1)).expr (.var id) >>= fun f => (Runner.ofFuel (n + 1)).exprs [arg] >>= fun vs =>
    (Runner.ofFuel (n + 1)).call f vs span) m = _
  rw [bind_of_ok hname]
  show (((Runner.ofFuel (n + 1)).expr arg >>= fun v => pure [v]) >>= fun vs =>
    (Runner.ofFuel (n + 1)).call f vs span) m = _
  rw [bind_assoc]
  rfl

theorem nested_append (e : Expr) (links : List Link) (l : Link) :
    nested e (links ++ [l]) = .call (.var ⟨l.name, l.callee⟩) [nested e links] l.call := by
  rw [nested, List.foldl_append]
  rfl

theorem matches_piped (e : Expr) (links : List Link) (span : Span) (m : Machine) :
    (Fuelled.expr (piped e links span)).Matches
      (.stages (e :: links.map fun l => .var ⟨l.name, l.stage⟩)) m :=
  .of_run (a := 1) (b := 0) fun _ => rfl

theorem matches_nested (hbound : ∀ l ∈ links, (m.meaning? l.name).isSome) (hkept : Unrebound e links m) :
    (Fuelled.stages (e :: links.map fun l => .var ⟨l.name, l.stage⟩)).Matches (.expr (nested e links)) m := by
  induction links using List.reverseRecOn with
  | nil => exact .of_run (a := 0) (b := 0) fun _ => by exact congrFun (bind_pure _) m
  | append_singleton links l ih =>
    have hrest := ih (fun l' hl' => hbound l' (List.mem_append_left _ hl')) fun front l' back heq =>
      hkept front l' (back ++ [l]) (by simp [heq])
    obtain ⟨f, hf⟩ := Option.isSome_iff_exists.1 (hbound l (List.mem_append_right _ List.mem_cons_self))
    -- the nested call looks the name up at first
    have hnested : (Fuelled.expr (nested e (links ++ [l]))).Matches
        ((Fuelled.expr (nested e links)).bind fun v => .call f [v] l.call) m := by
      rw [nested_append]
      exact .of_run (call_named ((Machine.lookup_eq_ok l.callee).2 hf) _ _)
    -- the composition does when its turn comes
    have hturn : ∀ v m',
        (Fuelled.stages (e :: links.map fun l => .var ⟨l.name, l.stage⟩)).EndsIn m (.ok v m') →
        ((Fuelled.expr (.var ⟨l.name, l.stage⟩)).bind fun f => .call f [v] l.stage).Matches
          (.call f [v] l.call) m' := by
      intro v m' hfront
      have hpiped : (Fuelled.expr (piped e links default)).EndsIn m (.ok v m') :=
        hfront.congr (a := 0) (b := 1) fun _ => rfl
      have hmeaning := (hkept links l [] rfl default v m' hpiped).trans hf
      have hname : m'.lookup ⟨l.name, l.stage⟩ = .ok f := (Machine.lookup_eq_ok l.stage).2 hmeaning
      refine Fuelled.Matches.trans (.of_run (a := 1) (b := 1) fun n => bind_of_ok ?_)
        (Fuelled.matches_call f [v] l.stage l.call m')
      show Eval.of (m'.lookup ⟨l.name, l.stage⟩) m' = _
      rw [hname]
      rfl
    rw [List.map_append]
    refine Fuelled.Matches.trans (.of_run (a := 0) (b := 0) fun n => ?_)
      ((hrest.bind hturn).trans hnested.symm)
    exact congrFun (stages_append e _ ⟨l.name, l.stage⟩ n) m

/-- The composition law. If all names stand for something, and each still stands for it when its turn comes,
then the composition ends exactly where the nested call does: with the same value, the same exit code, or
a fault of the same kind with the same message, and in the same state of the machine with all that was
output. -/
theorem piped_matches_nested (e : Expr) (links : List Link) (span : Span) (m : Machine)
    (hbound : ∀ l ∈ links, (m.meaning? l.name).isSome) (hkept : Unrebound e links m) :
    (Fuelled.expr (piped e links span)).Matches (.expr (nested e links)) m :=
  (matches_piped e links span m).trans (matches_nested hbound hkept)

end

/-- `[1, 2]` -/
def oneTwo : Expr := .list [.lit (.int 1) default, .lit (.int 2) default] default

/-- `| len | print` -/
def lenPrint : List Link := [⟨"len", default, default, default⟩, ⟨"print", default, default, default⟩]

/-- `[1, 2] | len | print` and `print(len([1, 2]))` -/
theorem oneTwo_lenPrint_matches :
    (∀ l ∈ lenPrint, ((Machine.start [] 1 {}).meaning? l.name).isSome) ∧
      Unrebound oneTwo lenPrint (.start [] 1 {}) ∧
      (Fuelled.expr (piped oneTwo lenPrint default)).Matches (.expr (nested oneTwo lenPrint))
        (.start [] 1 {}) ∧
      (((Runner.ofFuel 5).expr (nested oneTwo lenPrint)).after (.start [] 1 {})).world.out.text = "2\n" := by
  have hbound : ∀ l ∈ lenPrint, ((Machine.start [] 1 {}).meaning? l.name).isSome := by
    simp only [lenPrint, List.forall_mem_cons]
    exact ⟨by decide +kernel, by decide +kernel, List.forall_mem_nil _⟩
  have hkept : Unrebound oneTwo lenPrint (.start [] 1 {}) := by
    intro front l back heq span v m' hend
    -- what comes before `print` leaves the machine as it is
    have hsame : m' = .start [] 1 {} := by
      match front, heq with
      | [], _ =>
        have hlist : (Fuelled.expr (piped oneTwo [] span)).EndsIn (.start [] 1 {})
            (.ok (.list [.int 1, .int 2]) (.start [] 1 {})) := Fuelled.endsIn_of_enough (n := 5) nofun
        cases hend.unique hlist
        rfl
      | [_], heq =>
        cases heq
        have hlen : (Fuelled.expr (piped oneTwo [⟨"len", default, default, default⟩] span)).EndsIn
            (.start [] 1 {}) (.ok (.int 2) (.start [] 1 {})) := Fuelled.endsIn_of_enough (n := 5) nofun
        cases hend.unique hlen
        rfl
      | _ :: _ :: _, heq => simp [lenPrint] at heq
    rw [hsame]
  exact ⟨hbound, hkept, piped_matches_nested _ _ _ _ hbound hkept, by decide +kernel⟩

/-- A call of a function that does `len = Just` and returns `1`. -/
def rebindsLen : Expr :=
  .call (.lambda [] none ⟨[.assign (.var ⟨"len", default⟩) none (.var ⟨"Just", default⟩) default,
    .ret (some (.lit (.int 1) default)) default], default⟩ default) [] default

-- The composition calls what `len` stands for by then, the nested call what it stood for at first.
example : ((((Runner.ofFuel 9).expr (piped rebindsLen (lenPrint.take 1) default)).outcome
      (.start [] 1 {})).1.toOption.map Value.repr = some "Just(1)") ∧
    (((Runner.ofFuel 9).expr (nested rebindsLen (lenPrint.take 1))).outcome
      (.start [] 1 {})).1.isOk = false :=
  ⟨by decide +kernel, by decide +kernel⟩

end Sluice
