import Sluice.Proofs.Eval.Watch

/-! What every computation keeps. A `Frame` says of an invariant and of a relation between the states
before and after that the ways in which the state can change respect them. Then so does everything that
can be run, at every point of it. -/
namespace Sluice

variable {I M : Machine → Prop} {R : Machine → Machine → Prop} {α β : Type} {m m' : Machine}
  {x y : Eval α} {f g : α → Eval β}

/-- The ways in which the state of a program changes, apart from scopes that begin and end, respect the
invariant `I` and the relation `R`. -/
structure Changes (I : Machine → Prop) (R : Machine → Machine → Prop) : Prop where
  refl : ∀ {m}, I m → R m m
  trans : ∀ {m₁ m₂ m₃}, R m₁ m₂ → R m₂ m₃ → R m₁ m₃
  bind : ∀ {m} name b, I m → I (m.bind name b) ∧ R m (m.bind name b)
  assign : ∀ {m name v arena}, I m → m.arena.assign m.current name v = .ok arena →
    I { m with arena } ∧ R m { m with arena }
  makeFn : ∀ {m} name params body, I m →
    I (m.makeFn name params body).2 ∧ R m (m.makeFn name params body).2
  register : ∀ {m} registry, I m → I { m with registry } ∧ R m { m with registry }
  world : ∀ {m} world, I m → I { m with world } ∧ R m { m with world }
  enterCall : ∀ {m}, I m → m.depth < m.maxDepth → I { m with depth := m.depth + 1 }
  exitCall : ∀ {m m'}, I m → m.depth < m.maxDepth → I m' → R { m with depth := m.depth + 1 } m' →
    I { m' with depth := m.depth } ∧ R m { m' with depth := m.depth }

/-- The ways in which the state of a program changes respect the invariant `I` and the relation `R`. A
module is only opened where `M` holds. -/
structure Frame (I : Machine → Prop) (R : Machine → Machine → Prop) (M : Machine → Prop) : Prop
    extends Changes I R where
  enter : ∀ {m} parent, I m → I (m.enter parent)
  exit : ∀ {m m'} parent, I m → I m' → R (m.enter parent) m' →
    I (m'.exit (m.enter parent).current m.current) ∧
      R m (m'.exit (m.enter parent).current m.current)
  enterModule : ∀ {m} modules, I m → M m → I { m.enter m.root with modules }
  exitModule : ∀ {m m'} modules, I m → M m → I m' → R { m.enter m.root with modules } m' →
    I { m' with current := m.current } ∧ R m { m' with current := m.current }

/-- From `m`, the two computations do the same and respect `I` and `R`. -/
def AlikeAt (I : Machine → Prop) (R : Machine → Machine → Prop) (x y : Eval α) (m : Machine) : Prop :=
  x m = y m ∧ I (x.after m) ∧ R m (x.after m)

def Alike (I : Machine → Prop) (R : Machine → Machine → Prop) (x y : Eval α) : Prop :=
  ∀ m, I m → AlikeAt I R x y m

theorem alikeAt_of_ok {a : α} (hx : x m = .ok a m') (hy : y m = .ok a m') (hI : I m') (hR : R m m') :
    AlikeAt I R x y m := by
  have hafter : x.after m = m' := Eval.after_of_ok hx
  exact ⟨hx.trans hy.symm, hafter ▸ hI, hafter ▸ hR⟩

theorem alikeAt_of_error {i : Interrupt} (hx : x m = .error i m') (hy : y m = .error i m') (hI : I m')
    (hR : R m m') : AlikeAt I R x y m := by
  have hafter : x.after m = m' := Eval.after_of_error hx
  exact ⟨hx.trans hy.symm, hafter ▸ hI, hafter ▸ hR⟩

theorem AlikeAt.congr {x' y' : Eval α} (h : AlikeAt I R x y m) (hx : x m = x' m) (hy : y m = y' m) :
    AlikeAt I R x' y' m := by
  have hafter : x.after m = x'.after m := Eval.after_congr hx
  exact ⟨hx.symm.trans (h.1.trans hy), hafter ▸ h.2.1, hafter ▸ h.2.2⟩

/-- A bracket runs `x` from another state and puts something back, whatever happens. -/
theorem Eval.after_bracket {z : Eval α} {start : Machine} (leave : Machine → Machine)
    (hz : z m = match x start with
      | .ok a m' => .ok a (leave m')
      | .error i m' => .error i (leave m')) : z.after m = leave (x.after start) := by
  cases h : x start with
  | ok a m' =>
    rw [h] at hz
    rw [Eval.after_of_ok hz, Eval.after_of_ok h]
  | error i m' =>
    rw [h] at hz
    rw [Eval.after_of_error hz, Eval.after_of_error h]

namespace Frame

theorem modifyM {u : Machine → Machine} (hu : ∀ m, I m → I (u m) ∧ R m (u m)) :
    Alike I R (modify u : Eval Unit) (modify u) := by
  intro m hm
  exact alikeAt_of_ok (a := ()) rfl rfl (hu m hm).1 (hu m hm).2

theorem bracket {I' : Machine → Prop} {R' : Machine → Machine → Prop} {z w : Eval α} {start : Machine}
    (leave : Machine → Machine)
    (hz : z m = match x start with
      | .ok a m' => .ok a (leave m')
      | .error i m' => .error i (leave m'))
    (hw : w m = match y start with
      | .ok a m' => .ok a (leave m')
      | .error i m' => .error i (leave m'))
    (hx : AlikeAt I' R' x y start)
    (hleave : ∀ m', I' m' → R' start m' → I (leave m') ∧ R m (leave m')) : AlikeAt I R z w m := by
  obtain ⟨heq, hI, hR⟩ := hx
  have hafter : z.after m = leave (x.after start) := Eval.after_bracket leave hz
  obtain ⟨hI', hR'⟩ := hleave _ hI hR
  exact ⟨by rw [hz, hw, heq], hafter ▸ hI', hafter ▸ hR'⟩

end Frame

namespace Changes

variable (F : Changes I R)

include F

theorem throw (i : Interrupt) : Alike I R (MonadExcept.throw i : Eval α) (MonadExcept.throw i) :=
  fun _ hm => alikeAt_of_error rfl rfl hm (F.refl hm)

theorem bindAt (hx : AlikeAt I R x y m) (hf : ∀ a, Alike I R (f a) (g a)) :
    AlikeAt I R (x >>= f) (y >>= g) m := by
  obtain ⟨heq, hI, hR⟩ := hx
  cases h : x m with
  | ok a m' =>
    rw [Eval.after_of_ok h] at hI hR
    obtain ⟨heq', hI', hR'⟩ := hf a m' hI
    have hafter : (x >>= f).after m = (f a).after m' := Eval.after_congr (Eval.bind_of_ok h)
    refine ⟨by rw [Eval.bind_of_ok h, Eval.bind_of_ok (heq.symm.trans h), heq'], hafter ▸ hI', ?_⟩
    rw [hafter]
    exact F.trans hR hR'
  | error i m' =>
    rw [Eval.after_of_error h] at hI hR
    exact alikeAt_of_error (Eval.bind_of_error h) (Eval.bind_of_error (heq.symm.trans h)) hI hR

theorem bindM (hx : Alike I R x y) (hf : ∀ a, Alike I R (f a) (g a)) :
    Alike I R (x >>= f) (y >>= g) :=
  fun m hm => F.bindAt (hx m hm) hf

theorem of (r : Except Fault α) : Alike I R (Eval.of r) (Eval.of r) := by
  intro m hm
  cases r with
  | ok a => exact alikeAt_of_ok rfl rfl hm (F.refl hm)
  | error e => exact alikeAt_of_error rfl rfl hm (F.refl hm)

theorem query (q : Machine → Except Fault α) : Alike I R (Eval.query q) (Eval.query q) := by
  intro m hm
  exact F.of (q m) m hm

theorem makeFnM (name : Option String) (params : List Param) (body : FnBody) :
    Alike I R (Eval.makeFn name params body) (Eval.makeFn name params body) := by
  intro m hm
  obtain ⟨hI, hR⟩ := F.makeFn name params body hm
  exact alikeAt_of_ok rfl rfl hI hR

theorem deeper (span : Span) (hx : Alike I R x y) :
    Alike I R (Eval.deeper span x) (Eval.deeper span y) := by
  intro m hm
  by_cases hdeep : m.maxDepth ≤ m.depth
  · refine alikeAt_of_error (i := .fault (.callTooDeep m.maxDepth span)) ?_ ?_ hm (F.refl hm)
    · rw [Eval.deeper, if_pos hdeep]
    · rw [Eval.deeper, if_pos hdeep]
  · have hlt := Nat.lt_of_not_le hdeep
    refine Frame.bracket ({ · with depth := m.depth }) ?_ ?_ (hx _ (F.enterCall hm hlt))
      fun m' hI hR => F.exitCall hm hlt hI hR
    · exact if_neg hdeep
    · exact if_neg hdeep

theorem registerM (span : Span) (u : Registry Value → Except RegistrationError (Registry Value)) :
    Alike I R (Eval.register span u) (Eval.register span u) := by
  intro m hm
  cases h : u m.registry with
  | ok registry =>
    obtain ⟨hI, hR⟩ := F.register registry hm
    exact alikeAt_of_ok (by rw [Eval.register, h]) (by rw [Eval.register, h]) hI hR
  | error e =>
    exact alikeAt_of_error (by rw [Eval.register, h]) (by rw [Eval.register, h]) hm (F.refl hm)

end Changes

namespace Frame

variable (F : Frame I R M)

include F

theorem inScope (parent : ScopeId) (hx : Alike I R x y) :
    Alike I R (Eval.inScope parent x) (Eval.inScope parent y) := by
  intro m hm
  exact bracket (·.exit (m.enter parent).current m.current) rfl rfl
    (hx (m.enter parent) (F.enter parent hm)) fun m' hI hR => F.exit parent hm hI hR

theorem inBlock (hx : Alike I R x y) : Alike I R (Eval.inBlock x) (Eval.inBlock y) := by
  intro m hm
  exact F.inScope m.current hx m hm

theorem inModule (name : String) (hx : Alike I R x y) (hm : I m) (hM : M m) :
    AlikeAt I R (Eval.inModule name x) (Eval.inModule name y) m :=
  bracket ({ · with current := m.current }) rfl rfl
    (hx _ (F.enterModule (m.modules.insert name (m.enter m.root).current) hm hM))
    fun _ hI hR => F.exitModule _ hm hM hI hR

end Frame

end Sluice
