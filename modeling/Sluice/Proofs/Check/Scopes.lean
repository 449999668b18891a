import Sluice.ConstCheck
import Sluice.Proofs.Eval.Discipline

/-! What the check of constants knows at each place of a module. Its scopes change by one name at a time,
and a module in which it finds nothing is one in whose pieces it finds nothing. -/
namespace Sluice.ConstCheck

variable {T : Scopes} {x y : String} {c : Bool}

def here? (T : Scopes) (x : String) : Option Bool := T.head?.bind (·.get? x)

theorem find?_of_here? (h : here? T x = some c) : find? T x = some c := by
  cases T with
  | nil => cases h
  | cons frame T =>
    have hget : frame.get? x = some c := h
    simp [find?, hget]

theorem bind_ne_nil (hT : T ≠ []) (y : String) (c : Bool) : bind T y c ≠ [] := by
  cases T with
  | nil => exact absurd rfl hT
  | cons frame T => exact List.cons_ne_nil _ _

theorem here?_bind_self (hT : T ≠ []) (x : String) (c : Bool) : here? (bind T x c) x = some c := by
  cases T with
  | nil => exact absurd rfl hT
  | cons frame T => exact Table.get?_insert_self frame x c

theorem here?_bind_of_ne (h : x ≠ y) : here? (bind T y c) x = here? T x := by
  cases T with
  | nil => rfl
  | cons frame T => exact Table.get?_insert_of_ne frame c h

theorem find?_bind_self (hT : T ≠ []) (x : String) (c : Bool) : find? (bind T x c) x = some c :=
  find?_of_here? (here?_bind_self hT x c)

theorem find?_bind_of_ne (h : x ≠ y) : find? (bind T y c) x = find? T x := by
  cases T with
  | nil => rfl
  | cons frame T =>
    have hget : (frame.insert y c).get? x = frame.get? x := Table.get?_insert_of_ne frame c h
    rw [find?, find?, bind, List.findSome?_cons, List.findSome?_cons, hget]

/-! ### Variables -/

def bindNames (T : Scopes) (names : List String) : Scopes := names.foldl (bind · · false) T

theorem bindNames_ne_nil (hT : T ≠ []) (names : List String) : bindNames T names ≠ [] := by
  induction names generalizing T with
  | nil => exact hT
  | cons name names ih => exact ih (bind_ne_nil hT name false)

theorem find?_bindNames_of_not_mem {names : List String} (h : x ∉ names) :
    find? (bindNames T names) x = find? T x := by
  induction names generalizing T with
  | nil => rfl
  | cons name names ih =>
    rw [List.mem_cons, not_or] at h
    exact (ih h.2).trans (find?_bind_of_ne h.1)

/-- In a new scope that has variables only, all else is as around it. -/
theorem find?_frame {names : List String} (h : x ∉ names) :
    find? (bindNames ([] :: T) names) x = find? T x :=
  (find?_bindNames_of_not_mem h).trans rfl

theorem bindParams_eq (T : Scopes) (params : List Param) :
    bindParams T params = bindNames T (params.map (·.name.text)) := by
  rw [bindNames, List.foldl_map]
  rfl

theorem bindFns_eq (T : Scopes) (body : List Stmt) :
    bindFns T body = bindNames T (body.flatMap Stmt.fnNames) := by
  induction body generalizing T with
  | nil => rfl
  | cons s body ih =>
    have hstep : bindFns T (s :: body) = bindFns (bindNames T s.fnNames) body := by
      cases s <;> rfl
    rw [hstep, ih, List.flatMap_cons, bindNames, bindNames, bindNames, List.foldl_append]

end ConstCheck

namespace Pattern

mutual

def names : Pattern → List String
  | name id => [id.text]
  | just p _ => p.names
  | variant _ ps _ | tuple ps _ => namesAll ps
  | record _ fs _ => namesFields fs
  | wildcard _ | literal .. | nothing _ => []

def namesAll : List Pattern → List String
  | [] => []
  | p :: ps => p.names ++ namesAll ps

def namesFields : List (Ident × Pattern) → List String
  | [] => []
  | (_, p) :: fs => p.names ++ namesFields fs

end

end Pattern

namespace ConstCheck

theorem bindNames_append (T : Scopes) (l l' : List String) :
    bindNames T (l ++ l') = bindNames (bindNames T l) l' := List.foldl_append

mutual

theorem bindPattern_eq (T : Scopes) : (pat : Pattern) → bindPattern T pat = bindNames T pat.names
  | .name id => by simp [bindPattern, Pattern.names, bindNames]
  | .just p _ => by
    rw [bindPattern, Pattern.names]
    exact bindPattern_eq T p
  | .variant _ ps _ => by
    rw [bindPattern, Pattern.names]
    exact bindPatterns_eq T ps
  | .tuple ps _ => by
    rw [bindPattern, Pattern.names]
    exact bindPatterns_eq T ps
  | .record _ fs _ => by
    rw [bindPattern, Pattern.names]
    exact bindFields_eq T fs
  | .wildcard _ => by simp [bindPattern, Pattern.names, bindNames]
  | .literal .. => by simp [bindPattern, Pattern.names, bindNames]
  | .nothing _ => by simp [bindPattern, Pattern.names, bindNames]

theorem bindPatterns_eq (T : Scopes) :
    (ps : List Pattern) → bindPatterns T ps = bindNames T (Pattern.namesAll ps)
  | [] => by simp [bindPatterns, Pattern.namesAll, bindNames]
  | p :: ps => by
    rw [bindPatterns, Pattern.namesAll, bindNames_append, ← bindPattern_eq T p]
    exact bindPatterns_eq _ ps

theorem bindFields_eq (T : Scopes) :
    (fs : List (Ident × Pattern)) → bindFields T fs = bindNames T (Pattern.namesFields fs)
  | [] => by simp [bindFields, Pattern.namesFields, bindNames]
  | (_, p) :: fs => by
    rw [bindFields, Pattern.namesFields, bindNames_append, ← bindPattern_eq T p]
    exact bindFields_eq _ fs

end

/-! ### Statements -/

end ConstCheck

/-- The statement defines the name, as a constant or as a variable. -/
def Stmt.Defines (isConst : Bool) (x : String) : Stmt → Prop
  | var name _ c _ _ _ => name.text = x ∧ c = isConst
  | _ => False

namespace ConstCheck

def bindStmts (T : Scopes) (l : List Stmt) : Scopes := l.foldl bindStmt T

theorem bindStmt_ne_nil (hT : T ≠ []) (s : Stmt) : bindStmt T s ≠ [] := by
  unfold bindStmt
  split
  · exact bind_ne_nil hT _ _
  · split
    · exact hT
    · exact bind_ne_nil hT _ _
  · exact hT

/-- What is constant stays so until a variable is defined. -/
theorem find?_bindStmt (hT : T ≠ []) {s : Stmt} (hs : ¬ s.Defines false x)
    (h : find? T x = some true) : find? (bindStmt T s) x = some true := by
  unfold bindStmt
  split
  next name _ isConst _ _ _ =>
    by_cases hx : x = name.text
    · subst hx
      have hconst : isConst = true := by
        cases isConst with
        | true => rfl
        | false => exact absurd ⟨rfl, rfl⟩ hs
      rw [hconst]
      exact find?_bind_self hT _ _
    · rw [find?_bind_of_ne hx]
      exact h
  next id _ _ _ =>
    split
    next => exact h
    next hnone =>
      have hx : x ≠ id.text := by
        rintro rfl
        rw [hnone] at h
        cases h
      rw [find?_bind_of_ne hx]
      exact h
  next => exact h

theorem here?_bindStmt (hT : T ≠ []) {s : Stmt} (hs : ¬ s.Defines false x)
    (h : here? T x = some true) : here? (bindStmt T s) x = some true := by
  unfold bindStmt
  split
  next name _ isConst _ _ _ =>
    by_cases hx : x = name.text
    · subst hx
      have hconst : isConst = true := by
        cases isConst with
        | true => rfl
        | false => exact absurd ⟨rfl, rfl⟩ hs
      rw [hconst]
      exact here?_bind_self hT _ _
    · rw [here?_bind_of_ne hx]
      exact h
  next id _ _ _ =>
    split
    next => exact h
    next hnone =>
      have hx : x ≠ id.text := by
        rintro rfl
        rw [find?_of_here? h] at hnone
        cases hnone
      rw [here?_bind_of_ne hx]
      exact h
  next => exact h

theorem find?_bindStmts (hT : T ≠ []) {l : List Stmt} (hl : ∀ s ∈ l, ¬ s.Defines false x)
    (h : find? T x = some true) : find? (bindStmts T l) x = some true := by
  induction l generalizing T with
  | nil => exact h
  | cons s l ih =>
    exact ih (bindStmt_ne_nil hT s) (fun t ht => hl t (List.mem_cons_of_mem _ ht))
      (find?_bindStmt hT (hl s List.mem_cons_self) h)

theorem here?_bindStmt_self (hT : T ≠ []) {s : Stmt} (h : s.Defines true x) :
    here? (bindStmt T s) x = some true := by
  cases s with
  | var name type isConst isPub value span =>
    obtain ⟨rfl, rfl⟩ := h
    exact here?_bind_self hT _ _
  | _ => exact h.elim

/-- A constant that was defined is one, until a variable is defined. -/
theorem here?_bindStmts (hT : T ≠ []) {l : List Stmt} (hl : ∀ s ∈ l, ¬ s.Defines false x)
    (h : here? T x = some true ∨ ∃ s ∈ l, s.Defines true x) : here? (bindStmts T l) x = some true := by
  induction l generalizing T with
  | nil => exact h.resolve_right (by simp)
  | cons s l ih =>
    refine ih (bindStmt_ne_nil hT s) (fun t ht => hl t (List.mem_cons_of_mem _ ht)) ?_
    rcases h with h | ⟨t, ht, hdef⟩
    · exact .inl (here?_bindStmt hT (hl s List.mem_cons_self) h)
    · rcases List.mem_cons.1 ht with rfl | ht
      · exact .inl (here?_bindStmt_self hT hdef)
      · exact .inr ⟨t, ht, hdef⟩

/-! ### Where nothing is found -/

/-- Nothing is found in statements that run in this order. -/
def Clean (T : Scopes) (l : List Stmt) : Prop := stmts T [] l = []

-- Arguments are constant, so an assignment to them is found.
example : stmts prelude [] [.assign (.var ⟨"args", default⟩) none (.placeholder default) default] =
    [⟨"args", default⟩] := by cbv

theorem stmts_eq (T : Scopes) (found : List CheckError) (l : List Stmt) :
    stmts T found l = found.reverse ++ stmts T [] l := by
  induction l generalizing T found with
  | nil => simp [stmts]
  | cons s l ih =>
    rw [stmts, ih, stmts, ih (bindStmt T s) ((stmt T s).reverse ++ [])]
    simp

theorem clean_cons {s : Stmt} {l : List Stmt} :
    Clean T (s :: l) ↔ stmt T s = [] ∧ Clean (bindStmt T s) l := by
  rw [Clean, stmts, stmts_eq]
  simp [Clean]

theorem Clean.at {pre post : List Stmt} {s : Stmt} (h : Clean T (pre ++ s :: post)) :
    stmt (bindStmts T pre) s = [] := by
  induction pre generalizing T with
  | nil => exact (clean_cons.1 h).1
  | cons t pre ih => exact ih (clean_cons.1 h).2

theorem block_eq_nil {b : Block} : block T b = [] ↔ Clean (bindFns ([] :: T) b.stmts) b.stmts := by
  obtain ⟨body, span⟩ := b
  rw [block]
  rfl

theorem exprs_eq_nil {es : List Expr} : exprs T es = [] ↔ ∀ e ∈ es, expr T e = [] := by
  induction es with
  | nil => simp [exprs]
  | cons e es ih => simp [exprs, ih]

theorem entries_eq_nil {es : List (Expr × Expr)} :
    entries T es = [] ↔ ∀ e ∈ es, expr T e.1 = [] ∧ expr T e.2 = [] := by
  induction es with
  | nil => simp [entries]
  | cons e es ih =>
    obtain ⟨k, v⟩ := e
    simp [entries, ih, and_assoc]

theorem branches_eq_nil {bs : List (Expr × Block)} :
    branches T bs = [] ↔ ∀ b ∈ bs, expr T b.1 = [] ∧ block T b.2 = [] := by
  induction bs with
  | nil => simp [branches]
  | cons b bs ih =>
    obtain ⟨test, body⟩ := b
    simp [branches, ih, and_assoc]

theorem arms_eq_nil {as : List MatchArm} : arms T as = [] ↔ ∀ a ∈ as, arm T a = [] := by
  induction as with
  | nil => simp [arms]
  | cons a as ih => simp [arms, ih]

theorem fns_eq_nil {ds : List FnDecl} : fns T ds = [] ↔ ∀ d ∈ ds, fn T d = [] := by
  induction ds with
  | nil => simp [fns]
  | cons d ds ih => simp [fns, ih]

def ArmClean (T : Scopes) (pat : Pattern) : ArmBody → Prop
  | .expr e => expr (bindPattern ([] :: T) pat) e = []
  | .block b => block (bindPattern ([] :: T) pat) b = []

theorem arm_eq_nil {a : MatchArm} : arm T a = [] ↔ ArmClean T a.pat a.body := by
  obtain ⟨pat, body, span⟩ := a
  cases body with
  | expr e => rw [arm, ArmClean]
  | block b => rw [arm, ArmClean]

theorem fn_eq_nil {d : FnDecl} :
    fn T d = [] ↔ block (bindParams ([] :: T) d.params) d.body = [] := by
  obtain ⟨name, params, result, body, isPub, span⟩ := d
  rw [fn]

theorem stmt_cond (T : Scopes) (bs : List (Expr × Block)) (otherwise : Option Block) (span : Span) :
    stmt T (.cond bs otherwise span) = branches T bs ++ (otherwise.map (block T)).getD [] := by
  rw [stmt.eq_def]
  cases otherwise <;> rfl

theorem expr_lambda {params : List Param} {type : Option TypeExpr} {body : Block} {span : Span} :
    expr T (.lambda params type body span) = block (bindParams ([] :: T) params) body := by
  rw [expr]

theorem stmt_submodule {name : Ident} {body : Block} {span : Span} :
    stmt T (.submodule name body span) = block prelude body := by
  rw [stmt]

/-- A constant of the innermost scope is not defined again. -/
theorem not_here?_of_var {s : Stmt} (h : stmt T s = []) (hs : s.Defines c x) :
    here? T x ≠ some true := by
  cases s with
  | var name type isConst isPub value span =>
    obtain ⟨rfl, -⟩ := hs
    intro hhere
    rw [here?] at hhere
    simp [stmt, hhere] at h
  | _ => exact hs.elim

/-- A constant is not assigned to. -/
theorem not_find?_of_assign {id : Ident} {op : Option BinaryOp} {value : Expr} {span : Span}
    (h : stmt T (.assign (.var id) op value span) = []) : find? T id.text ≠ some true := by
  intro htrue
  simp [stmt, htrue] at h

theorem expr_part {e e' : Expr} (h : expr T e = []) (he' : e' ∈ e.parts) : expr T e' = [] := by
  cases e with
  | index base key span =>
    simp only [expr, List.append_eq_nil_iff] at h
    simp only [Expr.parts, List.mem_cons, List.not_mem_nil, or_false] at he'
    rcases he' with rfl | rfl
    · exact h.1
    · exact h.2
  | member base names span =>
    rw [List.mem_singleton.1 he']
    simpa [expr] using h
  | unary op operand span =>
    rw [List.mem_singleton.1 he']
    simpa [expr] using h
  | paren inner span =>
    rw [List.mem_singleton.1 he']
    simpa [expr] using h
  | call callee args span =>
    simp only [expr, List.append_eq_nil_iff, exprs_eq_nil] at h
    rcases List.mem_cons.1 he' with rfl | he'
    · exact h.1
    · exact h.2 e' he'
  | binary lhs op rhs span =>
    simp only [expr, List.append_eq_nil_iff] at h
    simp only [Expr.parts, List.mem_cons, List.not_mem_nil, or_false] at he'
    rcases he' with rfl | rfl
    · exact h.1
    · exact h.2
  | range lo hi span =>
    simp only [expr, List.append_eq_nil_iff] at h
    simp only [Expr.parts, List.mem_cons, List.not_mem_nil, or_false] at he'
    rcases he' with rfl | rfl
    · exact h.1
    · exact h.2
  | list items span =>
    rw [expr, exprs_eq_nil] at h
    exact h e' he'
  | tuple elems span =>
    rw [expr, exprs_eq_nil] at h
    exact h e' he'
  | compose stages mode span =>
    rw [expr, exprs_eq_nil] at h
    exact h e' he'
  | map entries span =>
    obtain ⟨entry, hentry, hpart⟩ := List.mem_flatMap.1 he'
    rw [expr, entries_eq_nil] at h
    have hclean := h entry hentry
    simp only [List.mem_cons, List.not_mem_nil, or_false] at hpart
    rcases hpart with rfl | rfl
    · exact hclean.1
    · exact hclean.2
  | lit | var | placeholder | lambda => cases he'

theorem stmt_expr {s : Stmt} {e : Expr} (h : stmt T s = []) (he : e ∈ s.exprs) : expr T e = [] := by
  cases s with
  | var name type isConst isPub value span =>
    rw [List.mem_singleton.1 he]
    simp only [stmt, List.append_eq_nil_iff] at h
    exact h.1
  | assign target op value span =>
    simp only [Stmt.exprs, List.mem_cons, List.not_mem_nil, or_false] at he
    cases target with
    | var id =>
      simp only [stmt, List.append_eq_nil_iff] at h
      rcases he with rfl | rfl
      · exact h.1
      · rw [expr]
    | _ =>
      simp only [stmt, List.append_eq_nil_iff] at h
      rcases he with rfl | rfl
      · exact h.1
      · exact h.2
  | forIn pat iter body span =>
    rw [List.mem_singleton.1 he]
    simp only [stmt, List.append_eq_nil_iff] at h
    exact h.1
  | cond branches otherwise span =>
    rw [stmt_cond, List.append_eq_nil_iff, branches_eq_nil] at h
    obtain ⟨b, hb, rfl⟩ := List.mem_map.1 he
    exact (h.1 b hb).1
  | loop test body span =>
    rw [List.mem_singleton.1 he]
    simp only [stmt, List.append_eq_nil_iff] at h
    exact h.1
  | select scrutinee arms span =>
    rw [List.mem_singleton.1 he]
    simp only [stmt, List.append_eq_nil_iff] at h
    exact h.1
  | ret value span =>
    cases value with
    | none => cases he
    | some v =>
      rw [List.mem_singleton.1 he]
      simpa [stmt] using h
  | expr value span =>
    rw [List.mem_singleton.1 he]
    simpa [stmt] using h
  | _ => cases he

theorem stmt_block {s : Stmt} {b : Block} (h : stmt T s = []) (hb : b ∈ s.blocks) : block T b = [] := by
  cases s with
  | cond branches otherwise span =>
    rw [stmt_cond, List.append_eq_nil_iff, branches_eq_nil] at h
    rcases List.mem_append.1 hb with hb | hb
    · obtain ⟨p, hp, rfl⟩ := List.mem_map.1 hb
      exact (h.1 p hp).2
    · obtain rfl := Option.mem_toList.1 hb
      exact h.2
  | loop test body span =>
    rw [List.mem_singleton.1 hb]
    simp only [stmt, List.append_eq_nil_iff] at h
    exact h.2
  | _ => cases hb

theorem stmt_arm {s : Stmt} {arm : Pattern × ArmBody} (h : stmt T s = []) (harm : arm ∈ s.arms) :
    ArmClean T arm.1 arm.2 := by
  cases s with
  | forIn pat iter body span =>
    rw [List.mem_singleton.1 harm]
    simp only [stmt, List.append_eq_nil_iff] at h
    exact h.2
  | select scrutinee arms span =>
    simp only [stmt, List.append_eq_nil_iff, arms_eq_nil] at h
    obtain ⟨a, ha, rfl⟩ := List.mem_map.1 harm
    exact arm_eq_nil.1 (h.2 a ha)
  | _ => cases harm

theorem stmt_fn {s : Stmt} {d : FnDecl} (h : stmt T s = []) (hd : d ∈ s.fns) : fn T d = [] := by
  cases s with
  | fn decl =>
    rw [List.mem_singleton.1 hd]
    simpa [stmt] using h
  | impl decl =>
    obtain ⟨typeclass, target, methods, span⟩ := decl
    rw [stmt, impl, fns_eq_nil] at h
    exact h d hd
  | _ => cases hd

end Sluice.ConstCheck
