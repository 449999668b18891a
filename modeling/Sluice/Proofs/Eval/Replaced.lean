import Sluice.Proofs.Eval.Accounted

/-! Modules that take the name of another one. The scope of the other one is lost then, and nothing that is
run later closes it: between runs all open scopes are accounted for exactly if no module ever took the name
of another one. -/
namespace Sluice

open Machine

variable {α β : Type} {m : Machine} {s : ScopeId} {name : String} {i : Interrupt}
  {x y : Eval α} {f g : α → Eval β}

namespace Machine

/-- The states between what is run from outside. -/
inductive Rested : Machine → Prop where
  | start (args : List String) (maxDepth : Nat) (w : World) : Rested (.start args maxDepth w)
  | after {m : Machine} (x : Entry) (n : Nat) : Rested m → Rested ((x.run (.ofFuel n)).after m)

inductive Distinct : Machine → Prop where
  | start (args : List String) (maxDepth : Nat) (w : World) : Distinct (.start args maxDepth w)
  | after {m : Machine} {x : Entry} {n : Nat} : Distinct m → OpensOnce x n m →
    Distinct ((x.run (.ofFuel n)).after m)

end Machine

/-- From `m`, the computation `y` does what `x` does, or else a scope is lost at its end that is not one in
which something was in progress. -/
structure LosesAt (x y : Eval α) (m : Machine) : Prop where
  lodging : (y.after m).Lodging
  endures : m.Endures (y.after m)
  same_or_lost : x m = y m ∨ ∃ s, (y.after m).Lost s ∧ (m.arena.isOpen s = true → m.Lodges s)

def Loses (x y : Eval α) : Prop := ∀ m, m.Lodging → LosesAt x y m

/-! ### Computations that lose scopes -/

theorem loses_self (h : Alike Lodging Endures x x) : Loses x x := fun m hm =>
  ⟨(h m hm).2.1, (h m hm).2.2, .inl rfl⟩

theorem LosesAt.congr {x' y' : Eval α} (h : LosesAt x y m) (hx : x m = x' m) (hy : y m = y' m) :
    LosesAt x' y' m := by
  have hafter : y.after m = y'.after m := Eval.after_congr hy
  exact ⟨hafter ▸ h.lodging, hafter ▸ h.endures, by rw [← hx, ← hy, ← hafter]; exact h.same_or_lost⟩

theorem LosesAt.bind (hx : LosesAt x y m) (hf : ∀ a, Loses (f a) (g a)) :
    LosesAt (x >>= f) (y >>= g) m := by
  obtain ⟨hlodging, hendures, hsame⟩ := hx
  cases h : y m with
  | error i m' =>
    have hbind : (y >>= g) m = .error i m' := Eval.bind_of_error h
    rw [Eval.after_of_error h] at hlodging hendures hsame
    rw [h] at hsame
    refine ⟨?_, ?_, ?_⟩ <;> rw [Eval.after_of_error hbind]
    · exact hlodging
    · exact hendures
    · exact hsame.imp_left fun heq => (Eval.bind_of_error heq).trans hbind.symm
  | ok a m' =>
    have hbind : (y >>= g) m = g a m' := Eval.bind_of_ok h
    rw [Eval.after_of_ok h] at hlodging hendures hsame
    rw [h] at hsame
    obtain ⟨hlodging', hendures', hsame'⟩ := hf a m' hlodging
    refine ⟨?_, ?_, ?_⟩ <;> rw [Eval.after_congr hbind]
    · exact hlodging'
    · exact hendures.trans hendures'
    · rcases hsame with heq | ⟨s, hs, hlodges⟩
      · rcases hsame' with heq' | ⟨s, hs, hlodges⟩
        · exact .inl ((Eval.bind_of_ok heq).trans (heq'.trans hbind.symm))
        · exact .inr ⟨s, hs, fun hopen => hendures.lodges s (hlodges (hendures.opened s hopen)) hopen⟩
      · exact .inr ⟨s, hendures'.lost hs, hlodges⟩

/-- A bracket runs `y` from another state and puts something back, whatever happens. -/
theorem LosesAt.bracket {z w : Eval α} {start : Machine} (leave : Machine → Machine)
    (hz : z m = match x start with
      | .ok a m' => .ok a (leave m')
      | .error i m' => .error i (leave m'))
    (hw : w m = match y start with
      | .ok a m' => .ok a (leave m')
      | .error i m' => .error i (leave m'))
    (hxy : LosesAt x y start)
    (hleave : ∀ m', m'.Lodging → start.Endures m' → (leave m').Lodging ∧ m.Endures (leave m'))
    (hlost : ∀ m' s, start.Endures m' → m'.Lost s → (start.arena.isOpen s = true → start.Lodges s) →
      (leave m').Lost s ∧ (m.arena.isOpen s = true → m.Lodges s)) : LosesAt z w m := by
  have hafter : w.after m = leave (y.after start) := Eval.after_bracket leave hw
  obtain ⟨hlodging, hendures, hsame⟩ := hxy
  obtain ⟨hlodging', hendures'⟩ := hleave _ hlodging hendures
  refine ⟨hafter ▸ hlodging', hafter ▸ hendures', ?_⟩
  rcases hsame with heq | ⟨s, hs, hlodges⟩
  · exact .inl (by rw [hz, hw, heq])
  · exact .inr ⟨s, hafter ▸ hlost _ s hendures hs hlodges⟩

theorem Loses.deeper (span : Span) (h : Loses x y) : Loses (Eval.deeper span x) (Eval.deeper span y) := by
  intro m hm
  by_cases hdeep : m.maxDepth ≤ m.depth
  · exact (loses_self (changes_lodging.throw _) m hm).congr (if_pos hdeep).symm (if_pos hdeep).symm
  · have hlt := Nat.lt_of_not_le hdeep
    exact .bracket ({ · with depth := m.depth }) (if_neg hdeep) (if_neg hdeep)
      (h _ (changes_lodging.enterCall hm hlt)) (fun _ => changes_lodging.exitCall hm hlt)
      fun m' s _ hs hlodges => ⟨⟨hs.isOpen, hs.ne_root, hs.not_lodges⟩, hlodges⟩

theorem Loses.inScope (parent : ScopeId) (h : Loses x y) :
    Loses (Eval.inScope parent x) (Eval.inScope parent y) := by
  intro m hm
  refine .bracket (·.exit (m.enter parent).current m.current) rfl rfl (h _ (hm.enter parent))
    (fun m' hm' hk => ⟨hm.exit hm' hk, hk.exit hm.free⟩) fun m' s hk hs hlodges => ⟨⟨?_, ?_, ?_⟩, ?_⟩
  · refine (isOpen_exit _ _ _ s).2 ⟨?_, hs.isOpen⟩
    rintro rfl
    exact not_lodges_entered hm.free hm.opened (.refl _) (hlodges (isOpen_entered hm.free parent))
  · exact hs.ne_root
  · exact hs.not_lodges
  · exact fun hopen => hlodges (isOpen_enter_of_isOpen hm.free parent hopen)

theorem Loses.inModule (h : Loses x y) (hm : m.Lodging) (name : String) :
    LosesAt (Eval.inModule name x) (Eval.inModule name y) m := by
  refine .bracket ({ · with current := m.current }) rfl rfl (h _ (hm.enterModule name))
    (fun m' hm' hk => ⟨hm'.leaveModule m.current, hk.leaveModule hm.free⟩)
    fun m' s hk hs hlodges => ⟨⟨hs.isOpen, hs.ne_root, hs.not_lodges⟩, fun hopen => ?_⟩
  have hlodged := hlodges (isOpen_enter_of_isOpen hm.free m.root hopen)
  exact (lodges_of_enterModule hlodged).resolve_left (ne_entered hm.free m.root hopen)

/-- A module that takes the name of another one loses the scope of that one. -/
theorem Loses.lost_inModule (h : Loses x y) (hm : m.Lodging) (hs : m.modules.get? name = some s) :
    ((Eval.inModule name y).after m).Lost s := by
  have hafter : (Eval.inModule name y).after m = { y.after (m.enterModule name) with current := m.current } :=
    Eval.after_bracket ({ · with current := m.current }) rfl
  have hlost : (y.after (m.enterModule name)).Lost s :=
    (h _ (hm.enterModule name)).endures.lost (hm.lost_enterModule hs)
  rw [hafter]
  exact ⟨hlost.isOpen, hlost.ne_root, hlost.not_lodges⟩

theorem pervasive_loses :
    Pervasive fun {α : Type} (x : Bool → Eval α) => Loses (x true) (x false) where
  query _ := loses_self (changes_lodging.query _)
  outOfFuel := loses_self (changes_lodging.throw _)
  bind hx hf _ hm := (hx _ hm).bind hf
  bindName name b := loses_self (Frame.modifyM fun _ hm => changes_lodging.bind name b hm)
  makeFn name params body := loses_self (changes_lodging.makeFnM name params body)
  reassign root v span := loses_self (changes_lodging.reassign root v span)
  register span u := loses_self (changes_lodging.registerM span u)
  declareAdt _ := loses_self (Frame.modifyM fun _ hm => changes_lodging.register _ hm)
  inBlock hx m hm := (hx.inScope m.current m hm).congr rfl rfl
  deeper span hx := hx.deeper span
  inScope parent hx := hx.inScope parent
  inModule name hx _ hm := hx.inModule hm name

/-- The runner that stops where a module takes the name of another one, and the one that does not. -/
noncomputable def Runner.watchedOr (i : Interrupt) (n : Nat) : Bool → Runner
  | true => .watched OpensNew i n
  | false => .ofFuel n

theorem Loses.watched {j : Job} (h : Loses x y) (hj : ∀ m, OpensNew j m) :
    Loses (Eval.watched OpensNew i j x) y := fun m hm => (h m hm).congr (if_pos (hj m)).symm rfl

theorem Runner.rounds_watchedOr (i : Interrupt) (n : Nat) (watch : Bool) :
    (Runner.watchedOr i n watch).rounds = n - 1 := by
  cases watch with
  | true => exact rounds_watched n
  | false => cases n <;> rfl

theorem loses_submodule {r : Bool → Runner} {name : Ident}
    (h : Related (fun {α : Type} (x : Bool → Eval α) => Loses (x true) (x false)) r) (body : Block)
    (span : Span) (hm : m.Lodging) (hname : m.modules.get? name.text = some s) :
    LosesAt (throw i) ((r false).stmtRule (.submodule name body span)) m := by
  have V := pervasive_loses
  have hstmts := V.runStmts h body.stmts
  have hmodule := hstmts.inModule hm name.text
  have hlost : LosesAt (throw i) (Eval.inModule name.text ((r false).runStmts body.stmts)) m :=
    ⟨hmodule.lodging, hmodule.endures, .inr ⟨s, hstmts.lost_inModule hm hname, fun _ => ⟨_, hname⟩⟩⟩
  have hvalue : ∀ flow, Loses (discard (Runner.moduleValue flow)) (discard (Runner.moduleValue flow)) :=
    fun flow => V.bind (x := fun _ => Runner.moduleValue flow) (f := fun _ _ => Pure.pure ())
      (V.moduleValue flow) fun _ => V.pure ()
  have hrule := (hlost.bind hvalue).bind fun _ => V.pure (Flow.value .unit)
  exact hrule.congr rfl rfl

theorem related_loses (i : Interrupt) (n : Nat) :
    Related (fun {α : Type} (x : Bool → Eval α) => Loses (x true) (x false)) (.watchedOr i n) := by
  have V := pervasive_loses
  induction n with
  | zero =>
    have hsame : Runner.watchedOr i 0 = fun _ => .ofFuel 0 := funext fun watch => by cases watch <;> rfl
    rw [hsame]
    exact V.related_zero
  | succ n ih =>
    refine ⟨fun e => (V.exprRule ih e).watched fun _ => trivial, fun s => ?_, fun f args span => ?_,
      fun c args span => (V.bodyRule ih c args span).watched fun _ => trivial⟩
    · cases s with
      | submodule name body span =>
        intro m hm
        cases hname : m.modules.get? name.text with
        | none =>
          have hrule := V.stmtRule ih (V.loops ih (Runner.rounds_watchedOr i n)) (.submodule name body span)
          exact (hrule m hm).congr (if_pos hname).symm rfl
        | some s =>
          refine (loses_submodule ih body span hm hname).congr (if_neg fun hnone => ?_).symm rfl
          cases hname.symm.trans hnone
      | _ =>
        have hrule := V.stmtRule ih (V.loops ih (Runner.rounds_watchedOr i n))
        exact (hrule _).watched fun _ => trivial
    · cases f with
      | host name =>
        exact Loses.watched (loses_self (changes_lodging.hostCall name args span)) fun _ => trivial
      | _ =>
        refine (V.callRule ih _ args span ?_).watched fun _ => trivial
        nofun

/-! ### Between runs -/

/-- Unless at no point of the run a module takes the name of another one, a scope is lost. -/
theorem Machine.Lodging.entry (hm : m.Lodging) (x : Entry) (n : Nat) :
    ((x.run (.ofFuel n)).after m).Lodging ∧ m.Endures ((x.run (.ofFuel n)).after m) ∧
      (OpensOnce x n m ∨ ∃ s, ¬ m.Lost s ∧ ((x.run (.ofFuel n)).after m).Lost s) := by
  have hloses : ∀ i, LosesAt (x.run (.watched OpensNew i n)) (x.run (.ofFuel n)) m := fun i =>
    pervasive_loses.entry (related_loses i n) x m hm
  obtain ⟨hlodging, hendures, -⟩ := hloses .outOfFuel
  refine ⟨hlodging, hendures, ?_⟩
  have hfound : ∀ s, ((x.run (.ofFuel n)).after m).Lost s → (m.arena.isOpen s = true → m.Lodges s) →
      ∃ s, ¬ m.Lost s ∧ ((x.run (.ofFuel n)).after m).Lost s := fun s hs hlodges =>
    ⟨s, fun hlost => hlost.not_lodges (hlodges hlost.isOpen), hs⟩
  by_cases hnew : x.OpensNew m
  · refine or_iff_not_imp_right.2 fun hnone => ⟨hnew, fun i => ?_⟩
    refine (hloses i).same_or_lost.resolve_right ?_
    rintro ⟨s, hs, hlodges⟩
    exact hnone (hfound s hs hlodges)
  · cases x with
    | expr e => exact (hnew trivial).elim
    | module md =>
      obtain ⟨s, hname⟩ := Option.ne_none_iff_exists'.1 hnew
      have hbody := pervasive_loses.moduleBody (related_loses .outOfFuel n) md
      exact .inr (hfound s (hbody.lost_inModule hm hname) fun _ => ⟨md.name, hname⟩)

/-- All open scopes are accounted for if none is lost. -/
theorem Machine.Lodging.accounted_iff (hm : m.Lodging) :
    m.Accounted (· = m.root) ↔ ∀ s, ¬ m.Lost s := by
  constructor
  · intro h s hs
    exact ((h s).1 hs.isOpen).elim hs.ne_root hs.not_lodges
  · intro h s
    constructor
    · intro hopen
      refine or_iff_not_imp_left.2 fun hroot => Classical.byContradiction fun hlodges => ?_
      exact h s ⟨hopen, hroot, hlodges⟩
    · rintro (rfl | hs)
      · exact hm.root
      · exact hm.opened s hs

theorem Machine.Rested.lodging (hm : m.Rested) : m.Lodging := by
  induction hm with
  | start args maxDepth w => exact lodging_start args maxDepth w
  | after x n _ ih => exact (ih.entry x n).1

theorem Machine.Distinct.tracked (hm : m.Distinct) : m.Tracked (· = m.root) ∧ m.current = m.root := by
  induction hm with
  | start args maxDepth w =>
    refine ⟨.of_mem (lodging_start args maxDepth w).free rfl rfl fun s => ?_, rfl⟩
    rw [isOpen_start, or_iff_left (not_lodges_start args maxDepth w s)]
  | @after m x n _ hx ih =>
    obtain ⟨htracked, hcurrent⟩ := ih
    obtain ⟨-, hafter, hkept⟩ := htracked.entry hcurrent hx
    rw [hkept.root, hkept.current]
    exact ⟨hafter, hcurrent⟩

theorem Machine.Distinct.accounted (hm : m.Distinct) : m.Accounted (· = m.root) := fun s =>
  hm.tracked.1.accounted_of_mem hm.tracked.2 s

theorem Machine.Rested.distinct (hm : m.Rested) (h : m.Accounted (· = m.root)) : m.Distinct := by
  induction hm with
  | start args maxDepth w => exact .start args maxDepth w
  | @after m x n hm ih =>
    obtain ⟨hlodging, hendures, hlost⟩ := hm.lodging.entry x n
    have hnone := hlodging.accounted_iff.1 h
    have hbefore : m.Distinct := ih (hm.lodging.accounted_iff.2 fun s hs => hnone s (hendures.lost hs))
    refine hbefore.after (hlost.resolve_right ?_)
    rintro ⟨s, -, hs⟩
    exact hnone s hs

/-- Between runs the open scopes are the outermost one and those of modules exactly if no module ever took
the name of another one. Each run in which one does loses a scope more, which then stays open for good. As
long as none does, the open scopes are at every point those in which something is in progress and those of
modules, which are no more than their names. -/
theorem accounted_iff_distinct (hm : m.Rested) : (m.Accounted (· = m.root) ↔ m.Distinct) ∧
    ∀ x n, (∀ s, m.Lost s → ((x.run (.ofFuel n)).after m).Lost s) ∧
      (¬ OpensOnce x n m → ∃ s, ¬ m.Lost s ∧ ((x.run (.ofFuel n)).after m).Lost s) ∧
      (m.Distinct → OpensOnce x n m → AlwaysStaged Orderly (Entry.run · x) n m) := by
  refine ⟨⟨hm.distinct, Distinct.accounted⟩, fun x n => ?_⟩
  obtain ⟨-, hendures, hlost⟩ := hm.lodging.entry x n
  exact ⟨fun s => hendures.lost, hlost.resolve_left,
    fun hdistinct hx => (hdistinct.tracked.1.entry hdistinct.tracked.2 hx).1⟩

def moduleFile (names : List String) : Entry :=
  .module ⟨"main", ⟨names.map fun name => .submodule ⟨name, default⟩ ⟨[], default⟩ default, default⟩, default⟩

def afterModuleFile (names : List String) : Machine :=
  ((moduleFile names).run (.ofFuel 2)).after (.start [] 1 {})

/-- The scopes of two modules of different names are accounted for; that of the first of two modules of the
same name is not. -/
theorem moduleFile_accounted_iff :
    AlwaysStaged Orderly (Entry.run · (moduleFile ["m", "n"])) 2 (.start [] 1 {}) ∧
      (afterModuleFile ["m", "m"]).Lost 2 ∧ ¬ (afterModuleFile ["m", "m"]).Distinct := by
  have hstart : (start [] 1 {}).Rested := .start [] 1 {}
  have hlost : (afterModuleFile ["m", "m"]).Lost 2 := by
    have hmodules : (afterModuleFile ["m", "m"]).modules = [("main", 1), ("m", 3)] := by decide +kernel
    refine ⟨by decide +kernel, by decide +kernel, ?_⟩
    rintro ⟨name, hname⟩
    have hmem := Table.mem_of_get?_eq_some hname
    rw [hmodules] at hmem
    simp at hmem
  refine ⟨?_, hlost, fun hdistinct => ?_⟩
  · obtain ⟨-, hentries⟩ := accounted_iff_distinct hstart
    obtain ⟨-, hloses, hstaged⟩ := hentries (moduleFile ["m", "n"]) 2
    refine hstaged (.start [] 1 {}) (Classical.byContradiction fun hx => ?_)
    obtain ⟨s, -, hopen, hroot, hlodges⟩ := hloses hx
    obtain ⟨sc, hsc, -⟩ := (Option.any_eq_true _ _).1 hopen
    have hsize : (afterModuleFile ["m", "n"]).arena.slots.size = 4 := by decide +kernel
    have hcases : ∀ n : Nat, n < 4 → n = 0 ∨ n = 1 ∨ n = 2 ∨ n = 3 := by omega
    obtain rfl | rfl | rfl | rfl := hcases s (hsize ▸ Arena.lt_size_of_scope? hsc)
    · exact hroot (by decide +kernel)
    · exact hlodges ⟨"main", by decide +kernel⟩
    · exact hlodges ⟨"m", by decide +kernel⟩
    · exact hlodges ⟨"n", by decide +kernel⟩
  · have haccounted := (accounted_iff_distinct (hstart.after (moduleFile ["m", "m"]) 2)).1.2 hdistinct
    exact ((haccounted 2).1 hlost.isOpen).elim hlost.ne_root hlost.not_lodges

end Sluice
