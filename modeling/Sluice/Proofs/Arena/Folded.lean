import Sluice.Proofs.Arena.Shape
import Sluice.Proofs.Typeclass.Mapped

/-! Arenas of which one has a scope more, that is open and binds nothing. The other is the first one with
this hollow scope folded into the one around it, and with other slots. A name that is looked for in the
hollow scope is found where it is found from the scope around it, so searches cannot tell the two apart. -/
namespace Sluice

def Shape.map (f : ScopeId → ScopeId) (β : Binding → Binding) (sh : Shape) : Shape :=
  ⟨sh.parent.map f, sh.vars.mapValues β⟩

namespace Arena

variable {hollow s t p : ScopeId} {f f' : ScopeId → ScopeId} {β β' : Binding → Binding}
  {a a' b b' : Arena} {outside outside' : List Value} {name : String}

/-- Under `f`, which puts `hollow` where it puts its parent, what is rooted in `a` is in `a'` with the same
names, bound to what `β` makes of their bindings. -/
structure Folds (hollow : ScopeId) (f : ScopeId → ScopeId) (β : Binding → Binding) (a a' : Arena) : Prop where
  opened : ∀ t, a.isOpen t = true → a'.isOpen (f t) = true
  /-- The scope that takes in the hollow one is open anyway. -/
  handled : ∀ t, a.isHandled t = true → f t = f hollow ∨ a'.isHandled (f t) = true
  shape : ∀ t, a.Rooted t → t ≠ hollow → a'.shape? (f t) = (a.shape? t).map (·.map f β)
  apart : ∀ t u, a.Rooted t → a.Rooted u → t ≠ hollow → u ≠ hollow → f t = f u → t = u
  running : a.isOpen hollow = true
  hollow : ∃ p, a.shape? hollow = some ⟨some p, []⟩ ∧ p ≠ hollow ∧ f p = f hollow

namespace Folds

theorem rooted_hollow (h : Folds hollow f β a a') : a.Rooted hollow := .opened h.running

/-- The scope around the hollow one. -/
theorem exists_around (h : Folds hollow f β a a') : ∃ p, a.Rooted p ∧ p ≠ hollow ∧ f p = f hollow ∧
    a.parent? hollow = some p ∧ ∀ name, a.find? hollow name = a.find? p name := by
  obtain ⟨p, hshape, hne, hf⟩ := h.hollow
  have hparent : a.parent? hollow = some p := by rw [parent?_eq_bind, hshape]; rfl
  refine ⟨p, .parent h.rooted_hollow hparent, hne, hf, hparent, fun name => ?_⟩
  rw [find?_of_shape? hshape]
  rfl

theorem rooted (h : Folds hollow f β a a') (ht : a.Rooted t) : a'.Rooted (f t) := by
  induction ht with
  | opened hs => exact .opened (h.opened _ hs)
  | handled hs =>
    rcases h.handled _ hs with heq | hs
    · exact heq ▸ .opened (h.opened _ h.running)
    · exact .handled hs
  | @parent s p hs hp ih =>
    by_cases hsh : s = hollow
    · obtain ⟨p', -, -, hf, hparent, -⟩ := h.exists_around
      rw [hsh, hparent] at hp
      cases hp
      rw [hf, ← hsh]
      exact ih
    · refine .parent ih ?_
      rw [parent?_eq_bind, Option.bind_eq_some_iff] at hp
      obtain ⟨sh, hsh', hp⟩ := hp
      rw [parent?_eq_bind, h.shape s hs hsh, hsh']
      simp [Shape.map, hp]

/-! ### Questions -/

theorem local? (h : Folds hollow f β a a') (ht : a.Rooted t) (hne : t ≠ hollow) (name : String) :
    a'.local? (f t) name = (a.local? t name).map β := by
  rw [local?_eq_bind, local?_eq_bind, h.shape t ht hne]
  cases a.shape? t with
  | none => rfl
  | some sh => exact sh.vars.get?_mapValues β name

theorem find?_of_findFrom (h : Folds hollow f β a a') {n : Nat} (ht : a.Rooted t) {r : ScopeId × Binding}
    (hfind : a.findFrom name n t = some r) : a'.find? (f t) name = some (f r.1, β r.2) := by
  induction n generalizing t with
  | zero => cases hfind
  | succ n ih =>
    obtain ⟨-, sh, -, hsh⟩ := isSome_of_findFrom hfind
    have hnext : ∀ p, sh.parent = some p → a.Rooted p := fun p hp =>
      .parent ht (by rw [parent?_eq_bind, hsh]; exact hp)
    rw [findFrom_of_shape? hsh] at hfind
    by_cases hth : t = hollow
    · obtain ⟨p, hshape, -, hf⟩ := h.hollow
      rw [hth, hshape] at hsh
      cases hsh
      rw [hth, ← hf]
      exact ih (hnext p rfl) hfind
    · have hshape := h.shape t ht hth
      rw [hsh] at hshape
      rw [find?_of_shape? hshape]
      dsimp only [Shape.map]
      rw [Table.get?_mapValues]
      cases hget : sh.vars.get? name with
      | some b =>
        rw [hget] at hfind
        cases hfind
        rfl
      | none =>
        rw [hget] at hfind
        obtain ⟨p, hp, hfind⟩ := Option.bind_eq_some_iff.1 hfind
        rw [hp]
        exact ih (hnext p hp) hfind

theorem find?_of_folded (h : Folds hollow f β a a') {n : Nat} (ht : a.Rooted t) {r : ScopeId × Binding}
    (hfind : a'.findFrom name n (f t) = some r) :
    (a.find? t name).map (fun r => (f r.1, β r.2)) = some r := by
  induction n generalizing t with
  | zero => cases hfind
  | succ n ih =>
    have hbeside : ∀ t, a.Rooted t → t ≠ hollow → a'.findFrom name (n + 1) (f t) = some r →
        (a.find? t name).map (fun r => (f r.1, β r.2)) = some r := by
      intro t ht hth hfind
      obtain ⟨-, sh', -, hsh'⟩ := isSome_of_findFrom hfind
      have hshape := h.shape t ht hth
      rw [hsh'] at hshape
      obtain ⟨sh, hsh, rfl⟩ := Option.map_eq_some_iff.1 hshape.symm
      rw [findFrom_of_shape? hsh'] at hfind
      dsimp only [Shape.map] at hfind
      rw [Table.get?_mapValues] at hfind
      rw [find?_of_shape? hsh]
      cases hget : sh.vars.get? name with
      | some b =>
        rw [hget] at hfind
        exact hfind
      | none =>
        rw [hget] at hfind
        cases hp : sh.parent with
        | none =>
          rw [hp] at hfind
          cases hfind
        | some p =>
          rw [hp] at hfind
          exact ih (.parent ht (by rw [parent?_eq_bind, hsh]; exact hp)) hfind
    by_cases hth : t = hollow
    · -- a search in the hollow scope goes on in the one around it
      obtain ⟨p, hp, hne, hf, -, hfrom⟩ := h.exists_around
      rw [hth, ← hf] at hfind
      rw [hth, hfrom]
      exact hbeside p hp hne hfind
    · exact hbeside t ht hth hfind

/-- A name is found in the same scope on both sides. -/
theorem find? (h : Folds hollow f β a a') (ht : a.Rooted t) (name : String) :
    a'.find? (f t) name = (a.find? t name).map fun r => (f r.1, β r.2) := by
  cases hfind : a.find? t name with
  | some r => exact h.find?_of_findFrom ht hfind
  | none =>
    cases hfind' : a'.find? (f t) name with
    | none => rfl
    | some r =>
      have hback := h.find?_of_folded ht hfind'
      rw [hfind] at hback
      cases hback

/-- Scopes that are put in one place show the same. -/
theorem find?_eq_of_eq (h : Folds hollow f β a a') (hs : a.Rooted s) (ht : a.Rooted t) (heq : f s = f t)
    (name : String) : a.find? s name = a.find? t name := by
  have hbeside : ∀ {t}, a.Rooted t →
      ∃ u, a.Rooted u ∧ u ≠ hollow ∧ f u = f t ∧ a.find? t name = a.find? u name := by
    intro t ht
    by_cases hth : t = hollow
    · obtain ⟨p, hp, hne, hf, -, hfrom⟩ := h.exists_around
      exact ⟨p, hp, hne, hth ▸ hf, hth ▸ hfrom name⟩
    · exact ⟨t, ht, hth, rfl, rfl⟩
  obtain ⟨u, hu, hne, hfu, hfind⟩ := hbeside hs
  obtain ⟨u', hu', hne', hfu', hfind'⟩ := hbeside ht
  rw [hfind, hfind', h.apart u u' hu hu' hne hne' (hfu.trans (heq.trans hfu'.symm))]

/-- A name is found in a scope that stays, and that is not hollow. -/
theorem rooted_of_find? (h : Folds hollow f β a a') (ht : a.Rooted t) {b : Binding}
    (hfind : a.find? t name = some (s, b)) : a.Rooted s ∧ s ≠ hollow := by
  obtain ⟨n, hn⟩ := find?_eq_some_iff.1 hfind
  clear hfind
  induction n generalizing t with
  | zero => cases hn
  | succ n ih =>
    obtain ⟨-, sh, -, hsh⟩ := isSome_of_findFrom hn
    rw [findFrom_of_shape? hsh] at hn
    cases hget : sh.vars.get? name with
    | some b =>
      rw [hget] at hn
      cases hn
      refine ⟨ht, ?_⟩
      rintro rfl
      obtain ⟨p, hshape, -, -⟩ := h.hollow
      rw [hshape] at hsh
      cases hsh
      cases hget
    | none =>
      rw [hget] at hn
      obtain ⟨p, hp, hn⟩ := Option.bind_eq_some_iff.1 hn
      exact ih (.parent ht (by rw [parent?_eq_bind, hsh]; exact hp)) hn

theorem exports (h : Folds hollow f β a a') (ht : a.Rooted t) (hne : t ≠ hollow) {φ : Value → Value}
    (hβ : ∀ b, (β b).isPub = b.isPub ∧ (β b).value = φ b.value) :
    a'.exports (f t) = (a.exports t).map (Prod.map id φ) := by
  rw [exports_eq, exports_eq, h.shape t ht hne,
    List.map_mergeSort (s := fun x y => !decide (y.1 < x.1)) (by intros; rfl)]
  cases a.shape? t with
  | none => rfl
  | some sh => simp [Shape.map, Table.mapValues, List.filter_map, Function.comp_def, hβ]

/-! ### Changes -/

theorem congr (h : Folds hollow f β a a') (hf : ∀ t, a.Rooted t → f' t = f t)
    (hβ : ∀ t sh e, a.shape? t = some sh → e ∈ sh.vars → β' e.2 = β e.2) : Folds hollow f' β' a a' where
  opened t ht := hf t (.opened ht) ▸ h.opened t ht
  handled t ht := by
    rw [hf t (.handled ht), hf _ h.rooted_hollow]
    exact h.handled t ht
  shape t ht hne := by
    rw [hf t ht, h.shape t ht hne]
    refine Option.map_congr fun sh hsh => ?_
    rw [Shape.map, Shape.map, Table.mapValues_congr fun e he => hβ t sh e hsh he]
    congr 1
    refine Option.map_congr fun p hp => (hf p (.parent ht ?_)).symm
    rw [parent?_eq_bind, hsh]
    exact hp
  apart t u ht hu hth huh heq := h.apart t u ht hu hth huh (by rwa [hf t ht, hf u hu] at heq)
  running := h.running
  hollow := by
    obtain ⟨p, hp, hne, hfp, hparent, -⟩ := h.exists_around
    obtain ⟨q, hshape, -, -⟩ := h.hollow
    rw [parent?_eq_bind, hshape] at hparent
    cases hparent
    exact ⟨p, hshape, hne, by rw [hf p hp, hf _ h.rooted_hollow, hfp]⟩

/-- A change of how scopes are held. -/
theorem sameShapes (h : Folds hollow f β a a') (hshape : ∀ t, b.shape? t = a.shape? t)
    (hopen : ∀ t, b.isOpen t = a.isOpen t) (hrooted : ∀ t, b.isHandled t = true → a.Rooted t)
    (hshape' : ∀ t, b'.shape? t = a'.shape? t) (hopen' : ∀ t, b'.isOpen t = a'.isOpen t)
    (hhandled : ∀ t, b.isHandled t = true → f t = f hollow ∨ b'.isHandled (f t) = true) :
    Folds hollow f β b b' := by
  have hback : ∀ {t}, b.Rooted t → a.Rooted t := by
    intro t ht
    induction ht with
    | opened hs => exact .opened ((hopen _).symm.trans hs)
    | handled hs => exact hrooted _ hs
    | parent _ hp ih =>
      rw [parent?_eq_bind, hshape, ← parent?_eq_bind] at hp
      exact .parent ih hp
  refine ⟨fun t ht => ?_, hhandled, fun t ht hne => ?_,
    fun t u ht hu => h.apart t u (hback ht) (hback hu), (hopen _).trans h.running, ?_⟩
  · rw [hopen']
    exact h.opened t ((hopen t).symm.trans ht)
  · rw [hshape', hshape]
    exact h.shape t (hback ht) hne
  · rw [hshape]
    exact h.hollow

/-- A name is bound in a scope that is not hollow. -/
theorem define (h : Folds hollow f β a a') (hs : a.Rooted s) (hne : s ≠ hollow) (name : String)
    (v : Binding) : Folds hollow f β (a.define s name v) (a'.define (f s) name (β v)) := by
  have hhandled : ∀ (a : Arena) s v t, (a.define s name v).isHandled t = a.isHandled t := fun a s v t =>
    isHandled_modify a s t fun _ => rfl
  have hback : ∀ {t}, (a.define s name v).Rooted t → a.Rooted t := by
    intro t ht
    induction ht with
    | opened hs => exact .opened ((isOpen_define ..).symm.trans hs)
    | handled hs => exact .handled ((hhandled ..).symm.trans hs)
    | parent _ hp ih => exact .parent ih ((parent?_define ..).symm.trans hp)
  refine ⟨fun t ht => ?_, fun t ht => ?_, fun t ht hth => ?_,
    fun t u ht hu => h.apart t u (hback ht) (hback hu), (isOpen_define ..).trans h.running, ?_⟩
  · rw [isOpen_define] at ht ⊢
    exact h.opened t ht
  · rw [hhandled] at ht ⊢
    exact h.handled t ht
  · rw [shape?_define, shape?_define, h.shape t (hback ht) hth]
    by_cases hst : s = t
    · rw [if_pos hst, if_pos (congrArg f hst), Option.map_map, Option.map_map]
      refine Option.map_congr fun sh _ => ?_
      exact congrArg (Shape.mk (sh.parent.map f)) (Table.insert_mapValues β sh.vars name v)
    · rw [if_neg hst, if_neg fun heq => hst (h.apart s t hs (hback ht) hne hth heq)]
  · rw [shape?_define, if_neg hne]
    exact h.hollow

/-- A new scope on both sides. -/
theorem push (h : Folds hollow f β a a') (ha : a.Sound outside) (ha' : a'.Sound outside') (hp : a.Rooted p)
    (hnew : f (a.push (some p)).1 = (a'.push (some (f p))).1) :
    Folds hollow f β (a.push (some p)).2 (a'.push (some (f p))).2 := by
  have hold : ∀ {t}, a.Rooted t → t ≠ (a.push (some p)).1 := fun ht =>
    ha.free.ne_push (some p) (ha.isSome_of_rooted ht)
  have hold' : ∀ {t}, a.Rooted t → f t ≠ (a'.push (some (f p))).1 := fun ht =>
    ha'.free.ne_push (some (f p)) (ha'.isSome_of_rooted (h.rooted ht))
  refine ⟨fun t ht => ?_, fun t ht => ?_, fun t ht hth => ?_, fun t u ht hu hth huh heq => ?_, ?_, ?_⟩
  · rw [ha.free.isOpen_push, Bool.or_eq_true, decide_eq_true_eq] at ht
    rw [ha'.free.isOpen_push, Bool.or_eq_true, decide_eq_true_eq]
    refine ht.imp ?_ fun ht => h.opened t ht
    rintro rfl
    exact hnew
  · rw [ha.free.isHandled_push] at ht
    rw [ha'.free.isHandled_push]
    exact h.handled t ht
  · rw [ha.free.shape?_push, ha'.free.shape?_push]
    rcases Rooted.of_push ha.free hp ht with rfl | ht
    · rw [if_pos hnew, if_pos rfl]
      rfl
    · rw [if_neg (hold' ht), if_neg (hold ht)]
      exact h.shape t ht hth
  · rcases Rooted.of_push ha.free hp ht with rfl | ht <;> rcases Rooted.of_push ha.free hp hu with rfl | hu
    · rfl
    · exact (hold' hu (heq.symm.trans hnew)).elim
    · exact (hold' ht (heq.trans hnew)).elim
    · exact h.apart t u ht hu hth huh heq
  · rw [ha.free.isOpen_push, h.running, Bool.or_true]
  · rw [ha.free.shape?_push, if_neg (hold h.rooted_hollow)]
    exact h.hollow

/-- A scope is closed on both sides. -/
theorem release (h : Folds hollow f β a a') {o : SweepOrder} (ha' : a'.Sound outside')
    (hb : (a.releaseBy o outside s).Linked []) (hb' : (a'.releaseBy o outside' (f s)).Linked [])
    (hs : a.Rooted s) (hne : s ≠ hollow) (hparent : a.parent? hollow ≠ some s)
    (hkept : ((a.releaseBy o outside s).scope? hollow).isSome) :
    Folds hollow f β (a.releaseBy o outside s) (a'.releaseBy o outside' (f s)) := by
  have hback : ∀ {t}, (a.releaseBy o outside s).Rooted t → a.Rooted t := fun ht => ht.of_releaseBy.of_close
  have hopened : ∀ t, (a.close s).isOpen t = true → (a'.close (f s)).isOpen (f t) = true := by
    intro t ht
    rw [isOpen_close, Bool.and_eq_true, decide_eq_true_eq] at ht ⊢
    refine ⟨fun heq => ?_, h.opened t ht.2⟩
    by_cases hth : t = hollow
    · obtain ⟨p, hp, hpne, hfp, hpar, -⟩ := h.exists_around
      refine hparent (hpar.trans (congrArg some (h.apart p s hp hs hpne hne ?_)))
      rw [hfp, ← hth, heq]
    · exact ht.1 (h.apart t s (.opened ht.2) hs hth hne heq)
  have hhandled : ∀ t, a.isHandled t = true → f t = f hollow ∨ (a'.close (f s)).isHandled (f t) = true :=
    fun t ht => (h.handled t ht).imp_right (isHandled_close a' (f s) (f t)).trans
  have hrunning : (a'.close (f s)).isOpen (f hollow) = true := by
    refine hopened hollow ?_
    rw [isOpen_close, h.running, Bool.and_true, decide_eq_true_eq]
    exact Ne.symm hne
  have hsteady := ha'.steady_releaseBy o (f s)
  have hclosed : ∀ {t}, (a.close s).Rooted t → (a'.close (f s)).Rooted (f t) := by
    intro t ht
    induction ht with
    | opened hs => exact .opened (hopened _ hs)
    | handled hs =>
      rcases hhandled _ ((isHandled_close ..).symm.trans hs) with heq | hs
      · exact heq ▸ .opened hrunning
      · exact .handled hs
    | @parent t q ht hq ih =>
      rw [parent?_eq_bind, shape?_close] at hq
      by_cases hth : t = hollow
      · obtain ⟨p, -, -, hfp, hpar, -⟩ := h.exists_around
        rw [← parent?_eq_bind, hth, hpar] at hq
        cases hq
        rw [hfp, ← hth]
        exact ih
      · obtain ⟨sh, hsh, hq⟩ := Option.bind_eq_some_iff.1 hq
        refine .parent ih ?_
        rw [parent?_eq_bind, shape?_close, h.shape t ht.of_close hth, hsh]
        simp [Shape.map, hq]
  refine ⟨fun t ht => ?_, fun t ht => ?_, fun t ht hth => ?_,
    fun t u ht hu => h.apart t u (hback ht) (hback hu), ?_, ?_⟩
  · rw [isOpen_releaseBy] at ht
    exact hsteady.opened _ (hopened t ((isOpen_close a s t).trans ht))
  · exact (hhandled t (isHandled_of_releaseBy ht)).imp_right (hsteady.handled _)
  · have hthere := hb.isSome_of_rooted ht
    have hthere' := hb'.isSome_of_rooted (hsteady.rooted (hclosed ht.of_releaseBy))
    rw [shape?_releaseBy _ _ _ _ hthere, shape?_releaseBy _ _ _ _ hthere']
    exact h.shape t (hback ht) hth
  · rw [isOpen_releaseBy, h.running, Bool.and_true, decide_eq_true_eq]
    exact Ne.symm hne
  · rw [shape?_releaseBy _ _ _ _ hkept]
    exact h.hollow

end Folds

/-- Where a scope was closed, searches from what is still rooted find what they found. -/
theorem find?_releaseBy {o : SweepOrder} (hb : (a.releaseBy o outside s).Linked [])
    (ht : (a.releaseBy o outside s).Rooted t) (name : String) :
    (a.releaseBy o outside s).find? t name = a.find? t name := by
  have hfrom : ∀ n, (a.releaseBy o outside s).findFrom name n t = a.findFrom name n t := by
    intro n
    induction n generalizing t with
    | zero => rfl
    | succ n ih =>
      have hthere := hb.isSome_of_rooted ht
      have hshape := shape?_releaseBy a o outside s hthere
      obtain ⟨sh, hsh⟩ := Option.isSome_iff_exists.1 (isSome_shape?.trans hthere)
      rw [findFrom_of_shape? hsh, findFrom_of_shape? (hshape.symm.trans hsh)]
      cases sh.vars.get? name with
      | some b => rfl
      | none =>
        cases hp : sh.parent with
        | none => rfl
        | some p => exact ih (.parent ht (by rw [parent?_eq_bind, hsh]; exact hp))
  apply Option.ext
  intro r
  simp only [find?_eq_some_iff, hfrom]

end Arena

end Sluice
