import Sluice.Proofs.Parser.Below
import Sluice.Proofs.Parser.LaidParts
import Sluice.Proofs.Parser.RepeatsTree

/-! The limit on nesting. No more blocks and expressions are inside one another in a module than the limit allows,
and where more of them begin nothing is read. -/
namespace Sluice

namespace Parser

variable {n d : Nat} {ts : Tokens}

inductive Place where
  | expr | block | stmt

/-- Blocks and expressions that begin one inside the other, `n` of them inside the first one. A statement is none
of them, but those that it begins with are inside what it stands in. -/
inductive Opens : Place → Nat → Tokens → Prop
  | here {w : Place} (hw : w ≠ .stmt) (ts : Tokens) : Opens w 0 ts
  | unary {n : Nat} {k : Token.Kind} {op : UnaryOp} {r : Tokens} (s : Span) (hop : unaryOp? k = some op)
      (h : Opens .expr n r) : Opens .expr (n + 1) (⟨k, s⟩ :: r)
  | paren {n : Nat} {r : Tokens} (s : Span) (hr : isAt .rparen r = false) (h : Opens .expr n r) :
      Opens .expr (n + 1) (⟨.symbol .lparen, s⟩ :: r)
  | list {n : Nat} {r : Tokens} (s : Span) (hr : isAt .rbracket r = false) (h : Opens .expr n r) :
      Opens .expr (n + 1) (⟨.symbol .lbracket, s⟩ :: r)
  | map {n : Nat} {r : Tokens} (s : Span) (hr : isAt .rbrace (skip separates r).1 = false)
      (h : Opens .expr n (skip separates r).1) : Opens .expr (n + 1) (⟨.symbol .lbrace, s⟩ :: r)
  | call {n : Nat} {r : Tokens} (name : String) (s s' : Span) (hr : isAt .rparen r = false)
      (h : Opens .expr n r) : Opens .expr (n + 1) (⟨.ident name, s⟩ :: ⟨.symbol .lparen, s'⟩ :: r)
  | index {n : Nat} {r : Tokens} (name : String) (s s' : Span) (h : Opens .expr n r) :
      Opens .expr (n + 1) (⟨.ident name, s⟩ :: ⟨.symbol .lbracket, s'⟩ :: r)
  | lambda {n : Nat} {r ts₁ ts₂ : Tokens} {ps : List Param} {t : Option TypeExpr} {h₁ : ts₁.length < r.length}
      {h₂ : ts₂.length < r.length} (s : Span) (hps : params r = .ok ⟨ps, ts₁, h₁⟩)
      (ht : typeAfter .arrow r ts₁ h₁ = .ok ⟨t, ts₂, h₂⟩) (h : Opens .block n ts₂) :
      Opens .expr (n + 1) (⟨.keyword .fn, s⟩ :: r)
  | braces {n : Nat} {r : Tokens} (s : Span) (h : Opens .stmt n (skip endsStmt r).1) :
      Opens .block (n + 1) (⟨.symbol .lbrace, s⟩ :: r)
  | start {n : Nat} {ts : Tokens} (h : Opens .expr (n + 1) ts) : Opens .stmt (n + 1) ts
  | test {n : Nat} {r : Tokens} (s : Span) (h : Opens .expr n r) : Opens .stmt n (⟨.keyword .while, s⟩ :: r)
  | loop {n d : Nat} {r ts₁ : Tokens} {e : Expr} {h₁ : ts₁.length < r.length} (s : Span)
      (he : expr d 0 r = .ok ⟨e, ts₁, h₁⟩) (h : Opens .block n ts₁) : Opens .stmt n (⟨.keyword .while, s⟩ :: r)
  | cond {n d : Nat} {r ts₁ : Tokens} {e : Expr} {h₁ : ts₁.length < r.length} (s : Span)
      (he : expr d 0 r = .ok ⟨e, ts₁, h₁⟩) (h : Opens .block n ts₁) : Opens .stmt n (⟨.keyword .if, s⟩ :: r)
  | submodule {n : Nat} {r : Tokens} (name : String) (s s' : Span) (h : Opens .block n r) :
      Opens .stmt n (⟨.keyword .module, s⟩ :: ⟨.ident name, s'⟩ :: r)

/-- What is read at the place at depth `d` is too deep. -/
def Sinks (d : Nat) : Place → Tokens → Prop
  | .expr, ts => ∀ power, TooDeep (expr d power ts)
  | .block, ts => TooDeep (block d ts)
  | .stmt, ts => TooDeep (stmt d ts)

theorem tooDeep_fail {α : Type} (ts : Tokens) :
    TooDeep (fail s!"nesting depth at most {maxNesting}" ts : Except ParseError α) := ⟨_, rfl, rfl⟩

/-- Past the limit nothing is read. -/
theorem sinks_of_le {w : Place} (hw : w ≠ .stmt) (hd : maxNesting ≤ d) (ts : Tokens) : Sinks d w ts := by
  cases w with
  | expr =>
    intro power
    rw [expr, if_pos hd]
    exact tooDeep_fail ts
  | block =>
    show TooDeep (block d ts)
    rw [block, if_pos hd]
    exact tooDeep_fail ts
  | stmt => exact (hw rfl).elim

theorem tooDeep_expr_of_operand {power : Nat} (h : TooDeep (operand (d + 1) ts)) :
    TooDeep (expr d power ts) := by
  rw [expr]
  split
  · exact tooDeep_fail ts
  · exact h.bind _

/-- An expression that begins with a name goes on behind it. -/
theorem tooDeep_expr_of_operators {power : Nat} {name : String} {s : Span} {r : Tokens}
    (h : ∀ lhs, TooDeep (operators (d + 1) power (⟨.ident name, s⟩ :: r) lhs r (Nat.lt_succ_self _))) :
    TooDeep (expr d power (⟨.ident name, s⟩ :: r)) := by
  have hoperand : ∃ e, operand (d + 1) (⟨.ident name, s⟩ :: r) = .ok ⟨e, r, Nat.lt_succ_self _⟩ := by
    by_cases hname : name = "_"
    · subst hname
      exact ⟨.placeholder s, by rw [operand]; rfl⟩
    · refine ⟨.var ⟨name, s⟩, ?_⟩
      rw [operand]
      simp [next, unaryOp?, literal?, pure, Except.pure]
  obtain ⟨e, he⟩ := hoperand
  rw [expr]
  split
  · exact tooDeep_fail _
  · rw [he]
    exact h e

theorem eat_eq_none_of_isAt {sign : Symbol} (h : isAt sign ts = false) : eat sign ts = none :=
  Option.isNone_iff_eq_none.1 (by simpa [isAt] using h)

theorem guarded_of_expr {power : Nat} {p : Parsed Expr ts} (hg : Guarded ts) (hp : expr d power ts = .ok p) :
    Guarded p.rest := by
  have hrepeats : Repeats [] True True _ (expr d power ts) (expr d power (ts ++ [])) :=
    repeats_expr (fun _ => rfl) hg power
  exact (hrepeats.ok hp).1

/-- What is read at one depth is read at any other, or too deep there. -/
theorem expr_again {power d' : Nat} {p : Parsed Expr ts} (hg : Guarded ts) (hp : expr d' power ts = .ok p)
    (d : Nat) : (Fits (d + 1) (.expr p.value) → expr d power ts = .ok p) ∧
      (¬ Fits (d + 1) (.expr p.value) → TooDeep (expr d power ts)) :=
  (repeats_expr (False.elim : False → d = d') hg power).again (expr d power) hp

theorem block_again {d' : Nat} {p : Parsed Block ts} (hg : Guarded ts) (hp : block d' ts = .ok p) (d : Nat) :
    (Fits (d + 1) (.block p.value) → block d ts = .ok p) ∧
      (¬ Fits (d + 1) (.block p.value) → TooDeep (block d ts)) :=
  (repeats_block (False.elim : False → d = d') hg).again (block d) hp

/-- What goes on behind an expression that is read somewhere does so at every depth, if it gets there. -/
theorem TooDeep.after_expr {α : Type} {power d' : Nat} {p : Parsed Expr ts} (hg : Guarded ts)
    (hp : expr d' power ts = .ok p) {k : Parsed Expr ts → Except ParseError α} (hk : TooDeep (k p)) :
    TooDeep (expr d power ts >>= k) := by
  obtain ⟨hok, hdeep⟩ := expr_again hg hp d
  by_cases hfits : Fits (d + 1) (.expr p.value)
  · rw [hok hfits]
    exact hk
  · exact (hdeep hfits).bind k

/-- What begins with an expression inside another one is no definition. -/
theorem Opens.stmt_eq (h : Opens .expr (n + 1) ts) : stmt d ts = exprStmt d ts := by
  rw [stmt]
  cases h with
  | unary s hop h =>
    unfold unaryOp? at hop
    split at hop <;> first | rfl | cases hop
  | paren | list | map => rfl
  | call | index => rfl
  | @lambda _ r _ _ _ _ _ _ s hps =>
    rcases r with _ | ⟨⟨k, span⟩, r⟩
    · cases hps
    · cases k with
      | ident name => cases hps
      | _ => rfl

/-- Statements do not end where one begins. -/
theorem Opens.isBlockEnd_eq_false (h : Opens .stmt n ts) (inner : Bool) :
    isBlockEnd inner (peek ts).kind = false := by
  cases h with
  | start h =>
    cases h with
    | @unary _ k _ _ _ hop =>
      show isBlockEnd inner k = false
      unfold unaryOp? at hop
      split at hop <;> first | rfl | cases hop
    | _ => rfl
  | here hw => exact (hw rfl).elim
  | _ => rfl

theorem tooDeep_stmts {inner : Bool} {whole : Tokens} {seen : List Stmt} {h : ts.length < whole.length}
    (hopens : Opens .stmt n (skip endsStmt ts).1) (hin : TooDeep (stmt d (skip endsStmt ts).1)) :
    TooDeep (stmts d inner whole seen ts h) := by
  rw [stmts]
  dsimp only
  rw [hopens.isBlockEnd_eq_false, hopens.isBlockEnd_eq_false]
  exact hin.bind _

theorem Opens.sinks {w : Place} (h : Opens w n ts) (hg : Guarded ts) (hd : maxNesting ≤ d + n) :
    Sinks d w ts := by
  induction h generalizing d with
  | @here w hw ts => exact sinks_of_le hw hd ts
  | @unary n k op r s hop _ ih =>
    intro power
    have hin : Sinks (d + 1) .expr r := ih (hg.tail (kind_ne_eof_of_unaryOp hop)) (by omega)
    refine tooDeep_expr_of_operand ?_
    rw [operand]
    dsimp only [next]
    rw [hop]
    exact (hin _).bind _
  | @paren n r s hr _ ih =>
    intro power
    have hin : Sinks (d + 1) .expr r := ih (hg.tail (by simp)) (by omega)
    refine tooDeep_expr_of_operand ?_
    rw [operand]
    refine TooDeep.bind ?_ _
    rw [exprList, hr]
    exact (hin 0).bind _
  | @list n r s hr _ ih =>
    intro power
    have hin : Sinks (d + 1) .expr r := ih (hg.tail (by simp)) (by omega)
    refine tooDeep_expr_of_operand ?_
    rw [operand]
    dsimp only [next, unaryOp?, literal?]
    rw [eat_eq_none_of_isAt hr]
    exact (hin 0).bind _
  | @map n r s hr _ ih =>
    intro power
    have hin : Sinks (d + 1) .expr (skip separates r).1 := ih (guarded_skip rfl (hg.tail (by simp))) (by omega)
    refine tooDeep_expr_of_operand ?_
    rw [operand]
    refine TooDeep.bind ?_ _
    rw [mapEntries]
    dsimp only
    rw [hr]
    exact (hin 0).bind _
  | @call n r name s s' hr _ ih =>
    intro power
    have hin : Sinks (d + 1) .expr r := ih ((hg.tail (by simp)).tail (by simp)) (by omega)
    refine tooDeep_expr_of_operators fun lhs => ?_
    rw [operators]
    refine TooDeep.bind ?_ _
    rw [callArgs, eat_eq_none_of_isAt hr]
    exact (hin 0).bind _
  | @index n r name s s' _ ih =>
    intro power
    have hin : Sinks (d + 1) .expr r := ih ((hg.tail (by simp)).tail (by simp)) (by omega)
    refine tooDeep_expr_of_operators fun lhs => ?_
    rw [operators]
    exact (hin 0).bind _
  | @lambda n r ts₁ ts₂ ps t h₁ h₂ s hps ht _ ih =>
    intro power
    have hr : Guarded r := hg.tail (by simp)
    have hparams : Repeats [] True True _ (params r) _ := repeats_params hr
    have htype : Repeats [] True True _ (typeAfter .arrow r ts₁ h₁) _ :=
      repeats_typeAfter .arrow h₁ (append_lt h₁ []) (hparams.ok hps).1
    have hg₂ : Guarded ts₂ := (htype.ok ht).1
    have hin : Sinks (d + 1) .block ts₂ := ih hg₂ (by omega)
    refine tooDeep_expr_of_operand ?_
    rw [operand]
    dsimp only [next, unaryOp?, literal?]
    rw [hps]
    show TooDeep (typeAfter .arrow r ts₁ h₁ >>= _)
    rw [ht]
    exact hin.bind _
  | @braces n r s hopens ih =>
    have hin : Sinks (d + 1) .stmt (skip endsStmt r).1 := ih (guarded_skip rfl (hg.tail (by simp))) (by omega)
    show TooDeep (block d _)
    rw [block]
    split
    · exact tooDeep_fail _
    · exact (tooDeep_stmts hopens hin).bind _
  | start h ih =>
    show TooDeep (stmt d _)
    rw [h.stmt_eq, exprStmt]
    exact (ih hg hd 0).bind _
  | @test n r s _ ih =>
    have hin : Sinks d .expr r := ih (hg.tail (by simp)) hd
    show TooDeep (stmt d _)
    rw [stmt]
    exact (hin 0).bind _
  | @loop n d' r ts₁ e h₁ s he _ ih =>
    have hr : Guarded r := hg.tail (by simp)
    have hin : Sinks d .block ts₁ := ih (guarded_of_expr hr he) hd
    show TooDeep (stmt d _)
    rw [stmt]
    dsimp only [next]
    exact TooDeep.after_expr hr he (hin.bind _)
  | @cond n d' r ts₁ e h₁ s he _ ih =>
    have hr : Guarded r := hg.tail (by simp)
    have hin : Sinks d .block ts₁ := ih (guarded_of_expr hr he) hd
    show TooDeep (stmt d _)
    rw [stmt]
    dsimp only [next]
    rw [branches]
    exact (TooDeep.after_expr hr he (hin.bind _)).bind _
  | @submodule n r name s s' _ ih =>
    have hin : Sinks d .block r := ih ((hg.tail (by simp)).tail (by simp)) hd
    show TooDeep (stmt d _)
    rw [stmt]
    exact hin.bind _

/-- A module that begins with too many of them is not read. -/
theorem tooDeep_module (hg : Guarded ts) (hopens : Opens .stmt n (skip endsStmt ts).1) (hn : maxNesting ≤ n)
    (name : String) : TooDeep (module name ts) := by
  have hin : Sinks 0 .stmt (skip endsStmt ts).1 := hopens.sinks (guarded_skip rfl hg) (by omega)
  rw [module]
  exact (tooDeep_stmts hopens hin).bind _

end Parser

namespace Module

theorem guarded_of_scan {src : String} {ts : Parser.Tokens} (h : Token.scan src = .ok ts) :
    Parser.Guarded ts := by
  obtain ⟨front, last, rfl, hlast, -⟩ := Token.exists_front h
  exact Parser.guarded_of_eof hlast

/-- A module is within the limit. -/
theorem fits_of_read {file src : String} {md : Module} (h : Module.read file src = .ok md) :
    Fits 0 (.module md) := by
  obtain ⟨ts, p, hts, hbody, hp⟩ := exists_stmts_of_read h
  have hrepeats : Parser.Repeats [] True True _ _ _ := Parser.repeats_stmts (fun _ => rfl) (guarded_of_scan hts)
    (Nat.zero_le Parser.maxNesting) false (Parser.peek ts :: ts) (Nat.lt_succ_self _)
  have hfits := hrepeats.fits hp trivial
  rw [← hbody] at hfits
  exact fits_module.2 ⟨Nat.zero_le _, fits_block.2 ⟨Nat.zero_le _, hfits⟩⟩

theorem read_tooDeep {file src : String} {ts : Parser.Tokens} {n : Nat} (h : Token.scan src = .ok ts)
    (hopens : Parser.Opens .stmt n (Parser.skip Parser.endsStmt ts).1) (hn : Parser.maxNesting ≤ n) :
    ∃ e, Module.read file src = .error (.parse e) ∧
      e.expected = s!"nesting depth at most {Parser.maxNesting}" := by
  obtain ⟨e, he, hexpected⟩ := Parser.tooDeep_module (guarded_of_scan h) hopens hn (moduleName file)
  refine ⟨e, ?_, hexpected⟩
  rw [Module.read, h]
  simp only [Except.mapError, bind, Except.bind, he]

end Module

end Sluice
