import Sluice.Proofs.Arena.Mirror

/-! Reclaiming slots cannot be noticed. Every request is answered on an arena that reclaims slots as on
one that keeps every scope, and after a sweep exactly the scopes that can be reached are left. -/
namespace Sluice.Session

variable {k c : Session} {s t slot : ScopeId} {sk : Scope} {name : String}

/-! ### Names -/

namespace Image

theorem local? (h : Image k c) (hs : c.InPlace s) (name : String) :
    c.arena.local? (c.slotOf s) name = (k.arena.local? s name).map (·.rename c.slotOf) := by
  obtain ⟨sk, sc, hsk, hsc, hcopy⟩ := h.copy hs
  simp [Arena.local?, hsk, hsc, hcopy.vars, Table.get?_map]

theorem inPlace_of_local? (h : Image k c) (hs : c.InPlace s) {b : Binding}
    (hb : k.arena.local? s name = some b) : ∀ t ∈ b.value.scopes, c.InPlace t := by
  intro t ht
  obtain ⟨x, hx, rfl⟩ := Value.mem_scopes.1 ht
  obtain ⟨sk, hsk, hget⟩ := Option.bind_eq_some_iff.1 hb
  have hmem := Table.mem_of_get?_eq_some hget
  exact h.inPlace_of_functions hs hsk (List.mem_flatMap.2 ⟨_, hmem, hx⟩)

/-- The scopes from `s` outward are in their places. -/
theorem chain (h : Image k c) (hs : c.InPlace s) : ∃ l, k.arena.Chain s l ∧
    c.arena.Chain (c.slotOf s) (l.map c.slotOf) ∧ (∀ t ∈ l, t ≤ s ∧ c.InPlace t) ∧ l.Nodup := by
  -- A parent is older than the scopes under it, so the chain cannot come back.
  induction s using Nat.strong_induction_on with
  | _ s ih =>
    obtain ⟨sk, sc, hsk, hsc, hcopy⟩ := h.copy hs
    rcases hp : sk.parent with _ | p
    · refine ⟨[s], .last hsk hp, .last hsc (by rw [hcopy.parent, hp]; rfl), ?_, List.nodup_singleton s⟩
      rintro t ht
      rw [List.mem_singleton.1 ht]
      exact ⟨Nat.le_refl s, hs⟩
    · have hlt : p < s := h.older (Arena.parent?_eq_some.2 ⟨sk, hsk, hp⟩)
      have hplace : c.InPlace p := h.link hs hsk (Scope.mem_links.2 (.inl hp))
      obtain ⟨l, hk, hc, hl, hnd⟩ := ih p hlt hplace
      refine ⟨s :: l, .under hsk hp hk, .under hsc (by rw [hcopy.parent, hp]; rfl) hc, ?_, ?_⟩
      · rintro t ht
        rcases List.mem_cons.1 ht with rfl | ht
        · exact ⟨Nat.le_refl t, hs⟩
        · exact ⟨(hl t ht).1.trans (Nat.le_of_lt hlt), (hl t ht).2⟩
      · exact List.nodup_cons.2 ⟨fun hmem => Nat.not_lt_of_le (hl s hmem).1 hlt, hnd⟩

theorem nodup_map_slotOf {l : List ScopeId} (hnd : l.Nodup) (hl : ∀ t ∈ l, c.InPlace t) :
    (l.map c.slotOf).Nodup :=
  hnd.map_on fun s hs t ht heq => (hl s hs).inj (hl t ht) heq

/-- A name is found in the same scope on both sides. -/
theorem find? (h : Image k c) (hs : c.InPlace s) (name : String) :
    c.arena.find? (c.slotOf s) name =
      (k.arena.find? s name).map fun e => (c.slotOf e.1, e.2.rename c.slotOf) := by
  obtain ⟨l, hk, hc, hl, hnd⟩ := h.chain hs
  rw [hk.find? hnd, hc.find? (nodup_map_slotOf hnd fun t ht => (hl t ht).2), List.map_findSome?,
    List.findSome?_map]
  clear hk hc hnd
  induction l with
  | nil => rfl
  | cons t l ih =>
    have ht := (hl t List.mem_cons_self).2
    have hb : c.arena.bindingIn name (c.slotOf t) =
        (k.arena.bindingIn name t).map fun e => (c.slotOf e.1, e.2.rename c.slotOf) := by
      rw [Arena.bindingIn, Arena.bindingIn, h.local? ht, Option.map_map, Option.map_map]
      rfl
    rw [List.findSome?_cons, List.findSome?_cons, ih fun u hu => hl u (List.mem_cons_of_mem t hu),
      Function.comp_apply, hb]
    rfl

theorem inPlace_of_find? (h : Image k c) (hs : c.InPlace s) {b : Binding}
    (hb : k.arena.find? s name = some (t, b)) :
    c.InPlace t ∧ ∀ u ∈ b.value.scopes, c.InPlace u := by
  obtain ⟨l, hk, -, hl, hnd⟩ := h.chain hs
  rw [hk.find? hnd] at hb
  obtain ⟨u, hu, hbu⟩ := List.exists_of_findSome?_eq_some hb
  obtain ⟨b', hb', heq⟩ := Option.map_eq_some_iff.1 hbu
  cases heq
  exact ⟨(hl _ hu).2, h.inPlace_of_local? (hl _ hu).2 hb'⟩

theorem exports (h : Image k c) (hs : c.InPlace s) :
    c.arena.exports (c.slotOf s) =
      (k.arena.exports s).map fun e => (e.1, e.2.rename c.slotOf) := by
  obtain ⟨sk, sc, hsk, hsc, hcopy⟩ := h.copy hs
  rw [Arena.exports, Arena.exports, hsk, hsc]
  rw [List.map_mergeSort (s := fun x y => !decide (y.1 < x.1)) (by intros; rfl)]
  simp [hcopy.vars, List.filter_map, Function.comp_def, Binding.rename]

theorem inPlace_of_exports (h : Image k c) (hs : c.InPlace s) {e : String × Value}
    (he : e ∈ k.arena.exports s) : ∀ t ∈ e.2.scopes, c.InPlace t := by
  obtain ⟨sk, -, hsk, -⟩ := h.copy hs
  rw [Arena.exports, List.mem_mergeSort, hsk] at he
  obtain ⟨e', he', rfl⟩ := List.mem_map.1 he
  intro t ht
  obtain ⟨x, hx, rfl⟩ := Value.mem_scopes.1 ht
  exact h.inPlace_of_functions hs hsk
    (List.mem_flatMap.2 ⟨e', (List.mem_filter.1 he').1, hx⟩)

end Image

/-! ### One request -/

structure Mirrors (k c : Session) : Prop extends Image k c where
  sound : c.arena.Sound c.values

namespace Mirrors

theorem hold (h : Mirrors k c) (hs : c.InPlace s) :
    Mirrors { k with arena := k.arena.hold s, handles := k.handles ++ [some s] }
      { c with arena := c.arena.hold (c.slotOf s), handles := c.handles ++ [some s] } where
  toImage := by
    refine h.toImage.adjust hs (fun _ => ⟨rfl, rfl⟩) (fun _ => ⟨rfl, rfl⟩) h.running
      (by rw [h.handles]) ?_ ?_ (fun _ => id) ?_
    · intro t ht
      rcases List.mem_append.1 ht with ht | ht
      · exact h.handle t ht
      · rwa [Option.some.inj (List.mem_singleton.1 ht)]
    · intro t hts
      simp [Ne.symm hts]
    · intro sc hcount
      simp [hcount]
  sound := h.sound.hold _

/-- A handle on no scope is given back. -/
theorem forgetHandle (h : Mirrors k c) {i : Nat} (hi : (k.handles[i]?).join = none) :
    Mirrors { k with handles := k.handles.eraseIdx i } { c with handles := c.handles.eraseIdx i } := by
  have hcount : ∀ s, (k.handles.eraseIdx i).count (some s) = k.handles.count (some s) := by
    intro s
    rw [count_eraseIdx, if_neg (by simp [hi]), Nat.sub_zero]
  exact
    { toFresh := ⟨h.exact, h.full, h.slots, h.older⟩
      length := h.length
      nextClosure := h.nextClosure
      values := h.values
      handles := congrArg (·.eraseIdx i) h.handles
      running := h.running
      handle := fun s hs => h.handle s (List.mem_of_mem_eraseIdx hs)
      value := h.value
      link := h.link
      copy := fun {s} hs => by
        obtain ⟨sk, sc, hsk, hsc, hcopy⟩ := h.copy hs
        exact ⟨sk, sc, hsk, hsc, hcopy.parent, hcopy.vars, hcopy.isOpen,
          hcopy.handles.trans (hcount s).symm⟩
      covered := h.covered
      sound := h.sound }

theorem unholdOn (h : Mirrors k c) {i : Nat} (hi : (k.handles[i]?).join = some s) :
    Mirrors { k with arena := k.arena.unhold s, handles := k.handles.eraseIdx i }
      { c with arena := c.arena.unhold (c.slotOf s), handles := c.handles.eraseIdx i } where
  toImage := by
    have hget : k.handles[i]? = some (some s) := Option.join_eq_some_iff.1 hi
    refine h.toImage.adjust (h.handle s (List.mem_of_getElem? hget)) (fun _ => ⟨rfl, rfl⟩)
      (fun _ => ⟨rfl, rfl⟩) h.running (by rw [h.handles])
      (fun t ht => h.handle t (List.mem_of_mem_eraseIdx ht)) ?_ (fun _ => id) ?_
    · intro t hts
      rw [count_eraseIdx, hi, if_neg (by simpa using Ne.symm hts)]
      exact ⟨Iff.rfl, rfl⟩
    · intro sc hsc
      rw [count_eraseIdx, hi, if_pos rfl]
      exact congrArg (· - 1) hsc
  sound := h.sound.unhold _

theorem unhold (h : Mirrors k c) (i : Nat) :
    Mirrors (k.step .keeping (.unhold i)).2 (c.step .reclaiming (.unhold i)).2 := by
  simp only [Session.step, reply, unheld, h.handles]
  cases hi : (k.handles[i]?).join with
  | none =>
    have hdone := h.forgetHandle hi
    rwa [h.handles] at hdone
  | some s =>
    have hs := h.handle s (List.mem_of_getElem? (Option.join_eq_some_iff.1 hi))
    have hdone := h.unholdOn hi
    rw [h.handles] at hdone
    simp only [h.slotOf_eq hs, h.tenant?_eq hs, tenant?_of_inPlace hs, if_true]
    exact hdone

theorem define (h : Mirrors k c) (hs : c.InPlace s) (name : String) {b : Binding}
    (hb : ∀ t ∈ b.value.scopes, c.InPlace t)
    (hrefs : ∀ x ∈ (b.value.rename c.slotOf).closures, x ∈ c.arena.references c.values) :
    Mirrors { k with arena := k.arena.define s name b }
      { c with arena := c.arena.define (c.slotOf s) name (b.rename c.slotOf) } where
  toImage := by
    refine h.toImage.modify hs (fun _ => rfl) ?_ h.running h.handles h.handle
      (fun _ _ => ⟨Iff.rfl, rfl⟩) ?_
    · intro sk hsk t ht
      rcases Scope.mem_links.1 ht with hp | ⟨x, hx, rfl⟩
      · exact h.link hs hsk (Scope.mem_links.2 (.inl hp))
      · rcases Arena.mem_functions_insert hx with hx | hx
        · exact hb _ (Value.mem_scopes.2 ⟨x, hx, rfl⟩)
        · exact h.inPlace_of_functions hs hsk hx
    · intro sk sc hcopy
      refine ⟨hcopy.parent, ?_, hcopy.isOpen, hcopy.handles⟩
      rw [hcopy.vars, Table.insert_map]
  sound := h.sound.define _ name hrefs

theorem keep (h : Mirrors k c) {v : Value} (hv : k.Available v) :
    Mirrors { k with values := k.values ++ [v] }
      { c with values := c.values ++ [v.rename c.slotOf] } where
  toImage := by
    have hvs : ∀ w ∈ k.values ++ [v], ∀ t ∈ w.scopes, c.InPlace t := by
      intro w hw
      rcases List.mem_append.1 hw with hw | hw
      · exact h.value w hw
      · rw [List.mem_singleton.1 hw]
        exact h.inPlace_of_available hv
    have himage := h.toImage.withValues hvs
    rwa [List.map_append, ← h.values] at himage
  sound := by
    refine h.sound.withOutside fun w hw x hx => ?_
    rcases List.mem_append.1 hw with hw | hw
    · exact Arena.mem_references.2 (.inl ⟨w, hw, hx⟩)
    · rw [List.mem_singleton.1 hw] at hx
      exact h.mem_references hv x hx

theorem forget (h : Mirrors k c) (i : Nat) :
    Mirrors { k with values := k.values.eraseIdx i } { c with values := c.values.eraseIdx i } where
  toImage := by
    have hvs : ∀ w ∈ k.values.eraseIdx i, ∀ t ∈ w.scopes, c.InPlace t := fun w hw =>
      h.value w (List.mem_of_mem_eraseIdx hw)
    have himage := h.toImage.withValues hvs
    rwa [← List.eraseIdx_map, ← h.values] at himage
  sound := h.sound.withOutside fun w hw x hx =>
    Arena.mem_references.2 (.inl ⟨w, List.mem_of_mem_eraseIdx hw, hx⟩)

private theorem noteFn (h : Image k c) (hs : c.InPlace s) (n : Nat) :
    Image { k with arena := k.arena.modify s (·.noteFn n) }
      { c with arena := c.arena.modify (c.slotOf s) (·.noteFn n) } :=
  h.adjust hs (fun _ => ⟨rfl, rfl⟩) (fun _ => ⟨rfl, rfl⟩) h.running h.handles h.handle
    (fun _ _ => ⟨Iff.rfl, rfl⟩) (fun _ => id) (fun _ => id)

private theorem rename_makeClosure (h : Image k c) {name : Option String} {params : List String}
    {body : FnBody} : (Value.fn (k.arena.makeClosure s name params body).1).rename c.slotOf =
      .fn (c.arena.makeClosure (c.slotOf s) name params body).1 := by
  simp [Arena.makeClosure, Value.rename, Closure.rename, h.nextClosure]

theorem makeFn (h : Mirrors k c) (hs : c.InPlace s) (name : Option String) (params : List String)
    (body : FnBody) :
    Mirrors
      { k with
        arena := (k.arena.makeClosure s name params body).2,
        values := k.values ++ [.fn (k.arena.makeClosure s name params body).1] }
      { c with
        arena := (c.arena.makeClosure (c.slotOf s) name params body).2,
        values := c.values ++ [.fn (c.arena.makeClosure (c.slotOf s) name params body).1] } where
  toImage := by
    have hvs : ∀ v ∈ k.values ++ [.fn (k.arena.makeClosure s name params body).1],
        ∀ t ∈ v.scopes, c.InPlace t := by
      intro v hv t ht
      rcases List.mem_append.1 hv with hv | hv
      · exact h.value v hv t ht
      · rw [List.mem_singleton.1 hv] at ht
        rwa [show t = s by simpa [Value.scopes, Value.closures, Arena.makeClosure] using ht]
    have hkept := h.toImage.withValues hvs
    rw [List.map_append, ← h.values, List.map_singleton, rename_makeClosure h.toImage] at hkept
    have hcounted := (noteFn hkept hs k.arena.nextClosure).withCount (k.arena.nextClosure + 1)
    simp only [Arena.makeClosure, h.nextClosure] at hcounted ⊢
    exact hcounted
  sound := h.sound.makeClosure hs.2.1 name params body

theorem push (h : Mirrors k c) {parent : Option ScopeId} (hp : ∀ p, parent = some p → c.InPlace p) :
    Mirrors
      { k with
        arena := (k.arena.push parent).2, slots := k.slots ++ [(k.arena.push parent).1],
        running := k.slots.length :: k.running }
      { c with
        arena := (c.arena.push (parent.map c.slotOf)).2,
        slots := c.slots ++ [(c.arena.push (parent.map c.slotOf)).1],
        running := c.slots.length :: c.running } where
  toImage := h.toImage.push h.sound.free hp
  sound := by
    refine h.sound.push _ fun p hpp => ?_
    obtain ⟨q, hq, rfl⟩ := Option.map_eq_some_iff.1 hpp
    exact (hp q hq).2.1

/-- Closing a scope frees nothing that the client can reach. -/
theorem release (h : Mirrors k c) (hs : c.InPlace s) (o : SweepOrder) :
    Mirrors { k with running := k.running.filter (· ≠ s) }
      { c with
        arena := c.arena.releaseBy o c.values (c.slotOf s), running := c.running.filter (· ≠ s) } := by
  obtain ⟨sk, sc, -, hsc, -⟩ := h.copy hs
  obtain ⟨gone, hg, hf, hsound⟩ := h.sound.releaseBy hsc o
  have hclosed : Image { k with arena := k.arena.modify s id, running := k.running.filter (· ≠ s) }
      { c with arena := c.arena.close (c.slotOf s) } := by
    refine h.toImage.adjust hs (fun _ => ⟨rfl, rfl⟩) (fun _ => ⟨rfl, rfl⟩) ?_ h.handles h.handle
      ?_ ?_
      (fun _ => id)
    · intro t ht
      exact h.running t (List.mem_filter.1 ht).1
    · intro t hts
      simp [hts]
    · intro sc _
      simp
  rw [Arena.modify_id] at hclosed
  exact ⟨hclosed.frees hg hf, hsound⟩

theorem sweep (h : Mirrors k c) (o : SweepOrder) :
    Mirrors k { c with arena := c.arena.sweepBy o c.values } := by
  obtain ⟨hf, hsound⟩ := h.sound.sweepBy o
  exact ⟨h.toImage.frees (Arena.garbage_unreached _ _) hf, hsound⟩

private theorem numberOf_new (h : Mirrors k c) {n : Nat} {slots : List ScopeId}
    (hslots : c.slots = slots ++ [slot]) (hn : slots.length = n) (hrunning : n ∈ k.running) :
    c.numberOf slot = k.numberOf n := by
  have hplace := h.running n hrunning
  have hslot : c.slotOf n = slot := by
    rw [← hn]
    simp [slotOf, hslots]
  rw [h.numberOf_eq hplace, ← hslot]
  exact hplace.2.2

theorem assign (h : Mirrors k c) (hs : c.InPlace s) (name : String) {v : Value}
    (hv : k.Available v) :
    (c.step .reclaiming (.assign s name v)).1 = (k.step .keeping (.assign s name v)).1 ∧
      Mirrors (k.step .keeping (.assign s name v)).2 (c.step .reclaiming (.assign s name v)).2 := by
  have hplace := h.inPlace_of_available hv
  simp only [Session.step, reply, Arena.assign, h.slotOf_eq hs, h.find? hs, h.rename_slotOf hplace]
  rcases hb : k.arena.find? s name with _ | ⟨owner, b⟩
  · exact ⟨rfl, h⟩
  · obtain ⟨howner, -⟩ := h.inPlace_of_find? hs hb
    cases hconst : b.isConst with
    | true =>
      simp only [Option.map_some, Binding.rename, hconst, if_true]
      exact ⟨rfl, h⟩
    | false =>
      simp only [Option.map_some, Binding.rename, hconst, Bool.false_eq_true, if_false]
      exact ⟨rfl, h.define (b := { value := v, isPub := b.isPub }) howner name hplace (h.mem_references hv)⟩

/-- Each request is answered alike, and the sessions stay alike. -/
theorem step (h : Mirrors k c) {r : Request} (hr : k.Valid r) :
    (c.step .reclaiming r).1 = (k.step .keeping r).1 ∧
      Mirrors (k.step .keeping r).2 (c.step .reclaiming r).2 := by
  have hplace : ∀ {s}, k.Reaches s → c.InPlace s := h.inPlace_of_reaches
  cases r with
  | push parent =>
    have hp : ∀ p, parent = some p → c.InPlace p := fun p hpp => hplace (hr p hpp)
    have hmap : parent.map k.slotOf = parent := by
      rcases parent with _ | p
      · rfl
      · rw [Option.map_some, h.slotOf_eq (hp p rfl)]
    have hm := h.push hp
    have hnew : (k.arena.push parent).1 = k.slots.length := by rw [h.push_eq]
    simp only [Session.step, reply, hmap]
    refine ⟨?_, hm⟩
    rw [Answer.rename, Answer.rename, numberOf_new hm rfl h.length List.mem_cons_self, hnew]
  | hold s =>
    refine ⟨rfl, ?_⟩
    simp only [Session.step, reply, h.slotOf_eq (hplace hr), h.tenant?_eq (hplace hr),
      tenant?_of_inPlace (hplace hr)]
    exact h.hold (hplace hr)
  | unhold i => exact ⟨rfl, h.unhold i⟩
  | makeFn s name params body =>
    have hm := h.makeFn (hplace hr) name params body
    simp only [Session.step, reply, h.slotOf_eq (hplace hr)]
    refine ⟨?_, hm⟩
    have hfn : ∀ t ∈ (Value.fn (k.arena.makeClosure s name params body).1).scopes, c.InPlace t := by
      simpa [Value.scopes, Value.closures, Arena.makeClosure] using hplace hr
    have hrename := h.rename_numberOf hfn
    rw [rename_makeClosure h.toImage] at hrename
    exact congrArg (fun v => Answer.value (some v)) hrename
  | keep v =>
    refine ⟨rfl, ?_⟩
    simp only [Session.step, reply, h.rename_slotOf (h.inPlace_of_available hr)]
    exact h.keep hr
  | forget i => exact ⟨rfl, h.forget i⟩
  | define s name b =>
    have hb : b.rename k.slotOf = b := by
      rw [Binding.rename, h.rename_slotOf (h.inPlace_of_available hr.2)]
    refine ⟨rfl, ?_⟩
    simp only [Session.step, reply, h.slotOf_eq (hplace hr.1), hb]
    exact h.define (hplace hr.1) name (h.inPlace_of_available hr.2) (h.mem_references hr.2)
  | assign s name v =>
    exact h.assign (hplace hr.1) name hr.2
  | release s o =>
    exact ⟨rfl, h.release (hplace hr) o⟩
  | sweep o => exact ⟨rfl, h.sweep o⟩
  | lookup s name =>
    refine ⟨?_, h⟩
    simp only [Session.step, reply, Arena.lookup?, h.slotOf_eq (hplace hr), h.find? (hplace hr)]
    rcases hb : k.arena.find? s name with _ | ⟨owner, b⟩
    · rfl
    · simp [Answer.rename, Binding.rename, h.rename_numberOf (h.inPlace_of_find? (hplace hr) hb).2]
  | ownBinding s name =>
    refine ⟨?_, h⟩
    simp only [Session.step, reply, h.slotOf_eq (hplace hr), h.local? (hplace hr)]
    rcases hb : k.arena.local? s name with _ | b
    · rfl
    · simp [Answer.rename, Binding.rename, h.rename_numberOf (h.inPlace_of_local? (hplace hr) hb)]
  | find s name =>
    refine ⟨?_, h⟩
    simp only [Session.step, reply, h.slotOf_eq (hplace hr), h.find? (hplace hr)]
    rcases hb : k.arena.find? s name with _ | ⟨owner, b⟩
    · rfl
    · obtain ⟨howner, hvalue⟩ := h.inPlace_of_find? (hplace hr) hb
      simp [Answer.rename, Binding.rename, h.rename_numberOf hvalue, howner.2.2, h.numberOf_eq howner]
  | exports s =>
    refine ⟨?_, h⟩
    simp only [Session.step, reply, h.slotOf_eq (hplace hr), h.exports (hplace hr), Answer.rename,
      List.map_map]
    congr 1
    refine List.map_congr_left fun e he => ?_
    simp [h.rename_numberOf (h.inPlace_of_exports (hplace hr) he)]

/-- A whole run. -/
theorem run (h : Mirrors k c) {script : List Request} (hscript : k.ValidRun script) :
    (c.run .reclaiming script).1 = (k.run .keeping script).1 ∧
      Mirrors (k.run .keeping script).2 (c.run .reclaiming script).2 := by
  induction script generalizing k c with
  | nil => exact ⟨rfl, h⟩
  | cons r script ih =>
    obtain ⟨hanswer, hm⟩ := h.step hscript.1
    obtain ⟨hanswers, hm⟩ := ih hm hscript.2
    refine ⟨?_, hm⟩
    rw [Session.run, Session.run]
    dsimp only
    rw [hanswer, hanswers]

end Mirrors

theorem mirrors_empty : Mirrors {} {} := ⟨image_empty, Arena.sound_empty⟩

/-! ### Reclamation -/

/-- Reclaiming slots cannot be noticed: for every proper script the answers are those of an arena that
keeps every scope, no scope that can be reached has lost its slot, and a search along the parents
always comes to an end. -/
theorem run_reclaiming_eq_run_keeping (script : List Request) (h : ValidRun {} script) :
    (run .reclaiming {} script).1 = (run .keeping {} script).1 ∧
      (∀ s, (run .keeping {} script).2.Reaches s → (run .reclaiming {} script).2.InPlace s) ∧
      ∀ slot, ((run .reclaiming {} script).2.arena.scope? slot).isSome →
        ∃ l, (run .reclaiming {} script).2.arena.Chain slot l ∧ ∀ name,
          (run .reclaiming {} script).2.arena.find? slot name =
            l.findSome? ((run .reclaiming {} script).2.arena.bindingIn name) := by
  obtain ⟨hanswers, hm⟩ := mirrors_empty.run h
  refine ⟨hanswers, fun s hs => hm.inPlace_of_reaches hs, fun slot hslot => ?_⟩
  obtain ⟨s, hs, rfl⟩ := hm.covered hslot
  obtain ⟨l, -, hchain, hl, hnd⟩ := hm.chain hs
  have hnd' := Image.nodup_map_slotOf hnd fun t ht => (hl t ht).2
  exact ⟨l.map _, hchain, fun name => hchain.find? hnd' name⟩

/-- A script in which a function is bound in the scope it was made in: that scope is swept, and the next
one gets its slot. -/
def cycleScript : List Request :=
  [.push none, .push (some 0), .makeFn 1 none [] (.pipeline []),
    .define 1 "f" { value := .fn ⟨0, none, [], .pipeline [], 1⟩ }, .forget 0, .release 1 .plain,
    .sweep .plain, .push (some 0), .find 2 "f"]

theorem validRun_cycleScript : ValidRun {} cycleScript := by
  refine ⟨?_, ?_, ?_, ⟨?_, ?_⟩, trivial, ?_, trivial, ?_, ?_, trivial⟩
  · intro p hp
    cases hp
  · intro p hp
    cases hp
    exact .running (by decide)
  · exact .running (by decide)
  · exact .running (by decide)
  · intro x hx
    exact .inl ⟨_, List.mem_singleton_self _, hx⟩
  · exact .running (by decide)
  · intro p hp
    cases hp
    exact .running (by decide)
  · exact .running (by decide)

/-- The slot of the scope with the function is used again, and the answers do not show it. -/
theorem cycleScript_answers :
    (run .reclaiming {} cycleScript).2.slots = [0, 1, 1] ∧
      (run .keeping {} cycleScript).2.slots = [0, 1, 2] ∧
      (run .reclaiming {} cycleScript).1 = (run .keeping {} cycleScript).1 :=
  ⟨by decide +kernel, by decide +kernel,
    (run_reclaiming_eq_run_keeping cycleScript validRun_cycleScript).1⟩

theorem ValidRun.take {script : List Request} (h : c.ValidRun script) (n : Nat) :
    c.ValidRun (script.take n) := by
  induction script generalizing c n with
  | nil => simpa using h
  | cons r script ih =>
    cases n with
    | zero => trivial
    | succ n => exact ⟨h.1, ih h.2 n⟩

/-- The sweep is exact: after it, whatever the order it was done in, the scopes that have a slot are
those that can be reached. -/
theorem inPlace_sweep_iff_reaches (script : List Request) (h : ValidRun {} script) (o : SweepOrder) :
    (∀ s, ((run .reclaiming {} script).2.step .reclaiming (.sweep o)).2.InPlace s ↔
      (run .keeping {} script).2.Reaches s) ∧
    ∀ slot, (((run .reclaiming {} script).2.step .reclaiming (.sweep o)).2.arena.scope? slot).isSome ↔
      ∃ s, (run .keeping {} script).2.Reaches s ∧
        ((run .reclaiming {} script).2.step .reclaiming (.sweep o)).2.slotOf s = slot := by
  obtain ⟨-, hm⟩ := mirrors_empty.run h
  have hswept := hm.sweep o
  have hiff : ∀ s, ((run .reclaiming {} script).2.step .reclaiming (.sweep o)).2.InPlace s ↔
      (run .keeping {} script).2.Reaches s := by
    intro s
    refine ⟨fun hs => ?_, fun hs => hswept.inPlace_of_reaches hs⟩
    obtain ⟨hs, hgone⟩ := (inPlace_frees (hm.sound.sweepBy o).1).1 hs
    rw [← hm.reaches_iff hs]
    by_contra hr
    exact hgone ⟨hs.2.1, hr⟩
  refine ⟨hiff, fun slot => ⟨fun hslot => ?_, ?_⟩⟩
  · obtain ⟨s, hs, heq⟩ := hswept.covered hslot
    exact ⟨s, (hiff s).1 hs, heq⟩
  · rintro ⟨s, hs, rfl⟩
    exact ((hiff s).2 hs).2.1

/-- Before its sweep, the script has left a scope in place that cannot be reached. -/
theorem cycleScript_sweep :
    (run .reclaiming {} (cycleScript.take 6)).2.InPlace 1 ∧
      ¬ (run .keeping {} (cycleScript.take 6)).2.Reaches 1 ∧
      ((run .reclaiming {} (cycleScript.take 6)).2.step .reclaiming (.sweep .plain)).2.InPlace 0 := by
  obtain ⟨hiff, -⟩ :=
    inPlace_sweep_iff_reaches (cycleScript.take 6) (validRun_cycleScript.take 6) .plain
  refine ⟨⟨by decide +kernel, by decide +kernel, by decide +kernel⟩, fun hr => ?_,
    (hiff 0).2 (.running (by decide +kernel))⟩
  exact absurd ((hiff 1).2 hr).2.1 (by decide +kernel)

end Sluice.Session
