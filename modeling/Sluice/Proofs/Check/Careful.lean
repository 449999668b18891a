import Sluice.Proofs.Check.Scopes

/-! Where the check of constants sees less than a run does. It looks at the text from top to bottom and at
plain targets only; a module is careful if no constant is assigned to where this makes a difference. -/
namespace Sluice

def Stmt.target? : Stmt → Option Ident
  | assign target _ _ _ => target.root?
  | _ => none

namespace Node

variable {n n' : Node} {x : String}

/-- What lies inside does not see that name from around: it is a parameter, or there is a module between. -/
def Hides (x : String) : Node → Prop
  | fn params _ => x ∈ params
  | stmt (.submodule ..) => True
  | _ => False

/-- Somewhere inside, the name is assigned to as it is seen from around. -/
inductive Assigns : Node → String → Prop
  | target {s : Stmt} {id : Ident} : s.target? = some id → Assigns (stmt s) id.text
  | part {n n' : Node} {x : String} : n' ∈ n.parts → ¬ n.Hides x → Assigns n' x → Assigns n x

inductive FnAssigns : Node → String → Prop
  | fn {params : List String} {body : List Stmt} {x : String} :
    Assigns (fn params body) x → FnAssigns (fn params body) x
  | part {n n' : Node} {x : String} : n' ∈ n.parts → ¬ n.Hides x → FnAssigns n' x → FnAssigns n x

/-- There is a constant of that name: that of every program, or one that is defined inside. -/
def Constant (n : Node) (x : String) : Prop :=
  x = "args" ∨ ∃ s, Within parts n (stmt s) ∧ s.Defines true x

def NamesVariant (n : Node) (x : String) : Prop :=
  ∃ d member, Within parts n (stmt (.enum d)) ∧ member ∈ d.members ∧
    (Variant.ofMember member).name = x ∧ (Variant.ofMember member).arity = 0

/-- The variants of a declared type are named inside. -/
theorem namesVariant_of_adt? {s : Stmt} {adt : Adt} (hs : Within parts n (stmt s))
    (hadt : s.adt? = some adt) : ∀ v ∈ adt.variants, v.arity = 0 → n.NamesVariant v.name := by
  intro v hv harity
  cases s with
  | struct d =>
    cases hadt
    cases hv
  | enum d =>
    cases hadt
    obtain ⟨member, hmember, rfl⟩ := List.mem_map.1 hv
    exact ⟨d, member, hs, hmember, rfl, harity⟩
  | _ => cases hadt

/-- A statement that evaluates or runs anything where it stands hides nothing. -/
theorem not_hides_stmt {s : Stmt} (h : s.exprs ≠ [] ∨ s.blocks ≠ [] ∨ s.arms ≠ [] ∨ s.fns ≠ []) :
    ¬ (stmt s).Hides x := by
  cases s with
  | submodule => simp [Stmt.exprs, Stmt.blocks, Stmt.arms, Stmt.fns] at h
  | _ => exact id

theorem FnAssigns.assigns (h : n.FnAssigns x) : n.Assigns x := by
  induction h with
  | fn h => exact h
  | part hn hx _ ih => exact .part hn hx ih

def Holds (l : List Stmt) : Node → Prop
  | block l' | fn _ l' => l' = l
  | _ => False

section Holds

variable {l : List Stmt} {s : Stmt}

theorem Holds.within (h : n.Holds l) : Within parts n (block l) := by
  cases n with
  | block l' =>
    obtain rfl := h
    exact .refl _
  | fn params l' =>
    obtain rfl := h
    exact .part List.mem_cons_self (.refl _)
  | _ => exact h.elim

theorem Holds.assigns (h : n.Holds l) (hs : s ∈ l) (hx : ¬ n.Hides x) (hassigns : (stmt s).Assigns x) :
    n.Assigns x := by
  cases n with
  | block l' =>
    obtain rfl := h
    exact .part (List.mem_map_of_mem hs) hx hassigns
  | fn params l' =>
    obtain rfl := h
    exact .part List.mem_cons_self hx (.part (List.mem_map_of_mem hs) id hassigns)
  | _ => exact h.elim

theorem Holds.fnAssigns (h : n.Holds l) (hs : s ∈ l) (hx : ¬ n.Hides x)
    (hassigns : (stmt s).FnAssigns x) : n.FnAssigns x := by
  cases n with
  | block l' =>
    obtain rfl := h
    exact .part (List.mem_map_of_mem hs) hx hassigns
  | fn params l' =>
    obtain rfl := h
    exact .part List.mem_cons_self hx (.part (List.mem_map_of_mem hs) id hassigns)
  | _ => exact h.elim

end Holds

/-- Expressions assign in their functions only. -/
theorem assigns_expr {e : Expr} (h : (expr e).Assigns x) : (expr e).FnAssigns x := by
  generalize hn : expr e = n at h ⊢
  induction h generalizing e with
  | target => cases hn
  | @part n n' x hn' hx h ih =>
    subst hn
    have hshape : (∃ params body, n' = fn params body) ∨ ∃ e', n' = expr e' := by
      cases e with
      | lambda => exact .inl ⟨_, _, List.mem_singleton.1 hn'⟩
      | _ =>
        obtain ⟨e', -, rfl⟩ := List.mem_map.1 hn'
        exact .inr ⟨e', rfl⟩
    rcases hshape with ⟨params, body, rfl⟩ | ⟨e', rfl⟩
    · exact .part hn' hx (.fn h)
    · exact .part hn' hx (ih rfl)

/-- No constant is assigned to in a way that the check does not see. -/
structure Careful (n : Node) : Prop where
  /-- An assignment to a part of something. -/
  places : ∀ {target op value span id}, Within parts n (stmt (.assign target op value span)) →
    target.root? = some id → n.Constant id.text → target = .var id
  /-- An assignment in a function whose text comes before the definition of the constant. -/
  order : ∀ {pre s post x t}, Within parts n (block (pre ++ s :: post)) → s.Defines true x →
    t ∈ pre ++ [s] → ¬ (stmt t).FnAssigns x
  /-- An assignment in a declared function, which can be called before what precedes it has run, to a
  name that its own block gives to a variable before it or to a function. -/
  hoist : ∀ {pre s post d x}, Within parts n (block (pre ++ s :: post)) → d ∈ s.fns →
    d.node.Assigns x → n.Constant x →
    (∀ t ∈ pre, ¬ t.Defines false x) ∧ ∀ t ∈ pre ++ s :: post, x ∉ t.fnNames
  /-- An assignment after a match, to a name in the pattern that is that of a variant and binds nothing. -/
  patterns : ∀ {s arm x}, Within parts n (stmt s) → arm ∈ s.arms → x ∈ arm.1.names →
    arm.2.node.Assigns x → n.Constant x → ¬ n.NamesVariant x

end Node

/-! ### Patterns -/

namespace AdtTable

/-- A name that binds nothing in a pattern, because it is that of a variant without payload. -/
def Nullary (adts : AdtTable) (x : String) : Prop :=
  ∃ owner v, adts.variant? x = some (owner, v) ∧ v.arity = 0

instance (adts : AdtTable) (x : String) : Decidable (adts.Nullary x) :=
  decidable_of_iff ((adts.variant? x).any (·.2.arity = 0) = true) (by
    simp [Nullary, Option.any_eq_true])

def bindable (adts : AdtTable) (names : List String) : List String :=
  names.filter fun x => ¬ adts.Nullary x

theorem bindable_append (adts : AdtTable) (l l' : List String) :
    adts.bindable (l ++ l') = adts.bindable l ++ adts.bindable l' := List.filter_append l l'

def NullaryIn (P : String → Prop) (adts : AdtTable) : Prop :=
  ∀ e ∈ adts.adts, ∀ v ∈ e.2.variants, v.arity = 0 → P v.name

theorem NullaryIn.of_nullary {P : String → Prop} {adts : AdtTable} {x : String} (h : adts.NullaryIn P)
    (hx : adts.Nullary x) : P x := by
  obtain ⟨owner, v, hv, harity⟩ := hx
  simp only [variant?, Option.pure_def, Option.bind_eq_bind, Option.bind_eq_some_iff,
    Option.some.injEq, Prod.mk.injEq] at hv
  obtain ⟨name, -, adt, hadt, v', hfind, rfl, rfl⟩ := hv
  have hname : v'.name = x := by simpa using List.find?_some hfind
  exact hname ▸ h _ (Table.mem_of_get?_eq_some hadt) v' (List.mem_of_find?_eq_some hfind) harity

theorem NullaryIn.declare {P : String → Prop} {adts : AdtTable} (h : adts.NullaryIn P) {adt : Adt}
    (hadt : ∀ v ∈ adt.variants, v.arity = 0 → P v.name) : (adts.declare adt).NullaryIn P := by
  intro e he
  rcases Table.mem_insert he with rfl | he
  · exact hadt
  · exact h e he

end AdtTable

namespace Pattern

variable {adts : AdtTable} {x : String}

theorem map_fst_matchName {name : String} {v : Value} {bs : List (String × Value)}
    (h : matchName adts name v = some bs) : bs.map (·.1) = adts.bindable [name] := by
  have hself : ¬ adts.Nullary name → some [(name, v)] = some bs →
      bs.map (·.1) = adts.bindable [name] := by
    rintro hbinds ⟨⟩
    simp [AdtTable.bindable, hbinds]
  rw [matchName.eq_def] at h
  split at h
  next owner decl hdecl =>
    split at h
    next harity =>
      have hnullary : adts.Nullary name := ⟨owner, decl, hdecl, harity⟩
      split at h
      · split_ifs at h
        cases h
        simp [AdtTable.bindable, hnullary]
      · cases h
    next harity =>
      refine hself ?_ h
      rintro ⟨owner', decl', hdecl', harity'⟩
      cases hdecl.symm.trans hdecl'
      exact harity harity'
  next hnone =>
    refine hself ?_ h
    rintro ⟨owner, decl, hdecl, -⟩
    cases hnone.symm.trans hdecl

mutual

/-- What a pattern binds has the names that the pattern has, whatever it is matched with. -/
theorem map_fst_bindings? (p : Pattern) {v : Value} {bs : List (String × Value)}
    (h : bindings? adts p v = some bs) : bs.map (·.1) = adts.bindable p.names := by
  have hnil : ∀ {bs : List (String × Value)}, some [] = some bs →
      bs.map (·.1) = adts.bindable [] := by
    rintro _ ⟨⟩
    rfl
  cases p with
  | wildcard span =>
    rw [bindings?] at h
    rw [names]
    exact hnil h
  | name id =>
    rw [bindings?] at h
    rw [names]
    exact map_fst_matchName h
  | literal l span =>
    rw [bindings?] at h
    split_ifs at h
    rw [names]
    exact hnil h
  | nothing span =>
    cases v <;> simp only [bindings?, reduceCtorEq] at h
    rw [names]
    exact hnil h
  | just p span =>
    rw [names]
    cases v <;> simp only [bindings?, reduceCtorEq] at h
    exact map_fst_bindings? p h
  | tuple ps span =>
    rw [names]
    cases v <;> simp only [bindings?, reduceCtorEq] at h
    · split_ifs at h with hlen
      exact map_fst_bindingsAll? ps hlen h
    · split_ifs at h with hempty
      rw [List.isEmpty_iff.1 hempty, namesAll]
      exact hnil h
  | variant head ps span =>
    rw [names]
    rw [bindings?.eq_def] at h
    cases v <;> simp only [reduceCtorEq] at h
    · split_ifs at h with hfields
      refine map_fst_bindingsAll? ps ?_ h
      rw [List.length_map, hfields.2]
    · split_ifs at h
      split at h
      · rw [namesAll]
        exact hnil h
      · cases h
      · rw [namesAll, namesAll, List.append_nil]
        exact map_fst_bindings? _ h
      · split_ifs at h with hlen
        exact map_fst_bindingsAll? ps hlen h
      · cases h
  | record head fields span =>
    rw [names]
    cases v <;> simp only [bindings?, reduceCtorEq] at h
    split_ifs at h
    exact map_fst_bindingsFields? fields h
termination_by sizeOf p

theorem map_fst_bindingsAll? (ps : List Pattern) {vs : List Value} {bs : List (String × Value)}
    (hlen : vs.length = ps.length) (h : bindingsAll? adts ps vs = some bs) :
    bs.map (·.1) = adts.bindable (namesAll ps) := by
  cases ps with
  | nil =>
    rw [bindingsAll?] at h
    · cases h
      rw [namesAll]
      rfl
    · exact nofun
  | cons p ps =>
    cases vs with
    | nil => cases hlen
    | cons v vs =>
      simp only [bindingsAll?, Option.pure_def, Option.bind_eq_bind, Option.bind_eq_some_iff,
        Option.some.injEq] at h
      obtain ⟨bs₁, h₁, bs₂, h₂, rfl⟩ := h
      rw [namesAll, AdtTable.bindable_append, List.map_append, map_fst_bindings? p h₁,
        map_fst_bindingsAll? ps (Nat.succ.inj hlen) h₂]
termination_by sizeOf ps

theorem map_fst_bindingsFields? (fields : List (Ident × Pattern)) {v : Value}
    {bs : List (String × Value)} (h : bindingsFields? adts fields v = some bs) :
    bs.map (·.1) = adts.bindable (namesFields fields) := by
  match fields, h with
  | [], h =>
    rw [bindingsFields?] at h
    cases h
    rw [namesFields]
    rfl
  | (field, p) :: fields, h =>
    simp only [bindingsFields?, Option.pure_def, Option.bind_eq_bind, Option.bind_eq_some_iff,
      Option.some.injEq] at h
    obtain ⟨u, hu, bs₁, h₁, bs₂, h₂, rfl⟩ := h
    rw [namesFields, AdtTable.bindable_append, List.map_append, map_fst_bindings? p h₁,
      map_fst_bindingsFields? fields h₂]
termination_by sizeOf fields

end

/-- A name in a pattern that matched is bound, or it is one that binds nothing. -/
theorem mem_or_nullary_of_bindings? (p : Pattern) {v : Value} {bs : List (String × Value)}
    (h : bindings? adts p v = some bs) (hx : x ∈ p.names) : x ∈ bs.map (·.1) ∨ adts.Nullary x := by
  by_cases hnullary : adts.Nullary x
  · exact .inr hnullary
  · rw [map_fst_bindings? p h]
    exact .inl (List.mem_filter.2 ⟨hx, decide_eq_true hnullary⟩)

end Pattern

end Sluice
