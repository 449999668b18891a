import Sluice.Proofs.Parser.Nesting
import Sluice.Proofs.ReadBack.Parse
import Sluice.Proofs.Token.Lexical

/-! What the limit on nesting does not count. Texts with patterns and types of every depth are read. -/
namespace Sluice

namespace Piece

def isPattern : Piece → Bool
  | pattern _ => true
  | _ => false

def isType : Piece → Bool
  | type _ => true
  | _ => false

end Piece

/-- A way down through `n` pieces of one class, and through nothing else. -/
def Chain (p : Piece → Bool) (m : Piece) (n : Nat) : Prop :=
  ∃ l, Descent m l ∧ l.length = n ∧ ∀ q ∈ l, p q = true

namespace Chain

variable {p : Piece → Bool} {m q : Piece} {n : Nat}

theorem zero (p : Piece → Bool) (m : Piece) : Chain p m 0 := ⟨[], .stop m, rfl, List.forall_mem_nil _⟩

theorem into (h : Chain p q n) (hq : q ∈ m.parts.drop m.leads) (hnested : q.isNested = true) (hp : p q = true) :
    Chain p m (n + 1) := by
  obtain ⟨l, hl, hlen, hall⟩ := h
  exact ⟨q :: l, .into hq hnested hl, congrArg Nat.succ hlen, List.forall_mem_cons.2 ⟨hp, hall⟩⟩

/-- A module that holds a statement goes as deep as the statement. -/
theorem module {md : Module} {s : Stmt} (h : Chain p (.stmt s) n) (hs : s ∈ md.body.stmts) :
    Chain p (.module md) n := by
  obtain ⟨l, hl, hlen, hall⟩ := h
  refine ⟨l, .lead (List.mem_singleton_self _) (.along ?_ rfl hl), hlen, hall⟩
  simpa [Piece.parts, Piece.rows, Piece.leads] using hs

end Chain

namespace Parser

variable {d n : Nat}

/-- `Nothing` inside `n` pairs of `Just(` and `)`. -/
def justs : Nat → List Char
  | 0 => ['N', 'o', 't', 'h', 'i', 'n', 'g']
  | n + 1 => ['J', 'u', 's', 't'] ++ ('(' :: justs n ++ [')'])

def justKinds : Nat → List Token.Kind
  | 0 => [.ident "Nothing"]
  | n + 1 => .ident "Just" :: (Token.Kind.symbol .lparen :: justKinds n ++ [Token.Kind.symbol .rparen])

/-- `()` inside `n` pairs of parentheses. -/
def rounds : Nat → List Char
  | 0 => ['(', ')']
  | n + 1 => '(' :: rounds n ++ [')']

def roundKinds : Nat → List Token.Kind
  | 0 => [.symbol .lparen, .symbol .rparen]
  | n + 1 => Token.Kind.symbol .lparen :: roundKinds n ++ [Token.Kind.symbol .rparen]

def deepPattern (n : Nat) : List Char :=
  ['f', 'o', 'r', ' '] ++ justs n ++ [' ', 'i', 'n', ' ', 'x', ' ', '{', '}']

def patternKinds (n : Nat) : List Token.Kind :=
  .keyword .for :: (justKinds n ++ [Token.Kind.keyword .in, .ident "x", .symbol .lbrace])

def deepType (n : Nat) : List Char := ['x', ':', ' '] ++ rounds n ++ [' ', '=', ' ', 'x']

def typeKinds (n : Nat) : List Token.Kind :=
  .ident "x" :: .symbol .colon :: (roundKinds n ++ [Token.Kind.symbol .assign])

section Scan

open Lexeme Token

theorem scans_word {c : Char} {tail rest : List Char} (hvisible : isVisible c = true)
    (hc : (c.isAlpha || c = '_') = true) (htail : tail.all isWordChar = true)
    (hend : Lexeme.Ends isWordChar rest) :
    Scans (c :: tail) [.ofWord (String.ofList (c :: tail))] rest :=
  scans_lexeme hvisible (Lexical.word hc (List.all_eq_true.1 htail) hend).reads

theorem ends_of_stopped {rest : List Char} (h : Stopped rest) : Lexeme.Ends isWordChar rest := by
  cases rest with
  | nil => rfl
  | cons c rest => exact stops_isWordChar c (h c rfl)

theorem scans_justs (n : Nat) : ∀ rest, Lexeme.Ends isWordChar rest → Scans (justs n) (justKinds n) rest := by
  induction n with
  | zero => exact fun rest hrest => scans_word rfl rfl rfl hrest
  | succ n ih =>
    intro rest _
    have hword : Scans ['J', 'u', 's', 't'] [.ident "Just"] ('(' :: justs n ++ [')'] ++ rest) :=
      scans_word rfl rfl rfl rfl
    exact hword.append (scans_between rfl rfl rfl rfl rfl (fun rest h => ih rest (ends_of_stopped h)) rest)

theorem scans_rounds (n : Nat) (rest : List Char) : Scans (rounds n) (roundKinds n) rest := by
  induction n generalizing rest with
  | zero => exact (scans_mark rfl rfl ([')'] ++ rest)).append (scans_mark rfl rfl rest)
  | succ n ih => exact scans_between rfl rfl rfl rfl rfl (fun rest _ => ih rest) rest

theorem scans_deepPattern (n : Nat) : Scans (deepPattern n) (patternKinds n ++ [Kind.symbol .rbrace]) [] := by
  have htext : deepPattern n = ['f', 'o', 'r'] ++ ([' '] ++ (justs n ++ ([' '] ++ (['i', 'n'] ++ ([' '] ++
      (['x'] ++ ([' '] ++ (['{'] ++ ['}'])))))))) := by simp [deepPattern]
  have hkinds : patternKinds n ++ [Kind.symbol .rbrace] = [Kind.keyword .for] ++ ([] ++ (justKinds n ++ ([] ++
      ([Kind.keyword .in] ++ ([] ++ ([Kind.ident "x"] ++ ([] ++ ([Kind.symbol .lbrace] ++
      [Kind.symbol .rbrace])))))))) := by simp [patternKinds]
  rw [htext, hkinds]
  refine Scans.append (scans_word rfl rfl rfl rfl) (.append (scans_space _) ?_)
  refine Scans.append (scans_justs n _ rfl) (.append (scans_space _) ?_)
  refine Scans.append (scans_word rfl rfl rfl rfl) (.append (scans_space _) ?_)
  refine Scans.append (scans_word rfl rfl rfl rfl) (.append (scans_space _) ?_)
  exact .append (scans_mark rfl rfl _) (scans_mark rfl rfl _)

theorem scans_deepType (n : Nat) : Scans (deepType n) (typeKinds n ++ [Kind.ident "x"]) [] := by
  have htext : deepType n = ['x'] ++ ([':'] ++ ([' '] ++ (rounds n ++ ([' '] ++ (['='] ++ ([' '] ++
      ['x'])))))) := by simp [deepType]
  have hkinds : typeKinds n ++ [Kind.ident "x"] = [Kind.ident "x"] ++ ([Kind.symbol .colon] ++ ([] ++
      (roundKinds n ++ ([] ++ ([Kind.symbol .assign] ++ ([] ++ [Kind.ident "x"])))))) := by simp [typeKinds]
  have hassign : Lexical (.symbol .assign) '=' [] ([' '] ++ ['x'] ++ []) := .sign rfl rfl nofun
  rw [htext, hkinds]
  refine Scans.append (scans_word rfl rfl rfl rfl) (.append (scans_mark rfl rfl _) (.append (scans_space _) ?_))
  refine Scans.append (scans_rounds n _) (.append (scans_space _) ?_)
  refine Scans.append (scans_lexeme rfl hassign.reads) (.append (scans_space _) ?_)
  exact scans_word rfl rfl rfl rfl

end Scan

theorem pattern_justs {ts : Tokens} (hts : ts.map Token.kind = justKinds n) (rest : Tokens) :
    ∃ p h, pattern (ts ++ rest) = .ok ⟨p, rest, h⟩ ∧ Chain Piece.isPattern (.pattern p) n := by
  induction n generalizing ts rest with
  | zero =>
    obtain ⟨⟨_, s⟩, rfl, rfl⟩ := List.map_eq_singleton_iff.1 hts
    refine ⟨.nothing s, Nat.lt_succ_self _, ?_, .zero _ _⟩
    show pattern (⟨.ident "Nothing", s⟩ :: rest) = _
    rw [pattern]
    rfl
  | succ n ih =>
    obtain ⟨⟨_, s⟩, us, rfl, rfl, hus⟩ := List.map_eq_cons_iff.1 hts
    obtain ⟨start, vs, stop, htext, hvs⟩ := exists_between hus rest
    obtain ⟨p, h, hp, hchain⟩ := ih hvs (⟨.symbol .rparen, stop⟩ :: rest)
    rw [List.cons_append, htext]
    refine ⟨.just p (s.through stop), ?_, ?_, hchain.into (List.mem_singleton_self _) rfl rfl⟩
    · simp only [List.length_cons, List.length_append]
      omega
    · rw [pattern]
      simp only [next, bind, Except.bind, expect_cons_self, hp]
      rfl

theorem isAt_rounds {ts : Tokens} (hts : ts.map Token.kind = roundKinds n) (rest : Tokens) :
    isAt .rparen (ts ++ rest) = false := by
  cases n <;>
    · obtain ⟨⟨_, s⟩, us, rfl, rfl, -⟩ := List.map_eq_cons_iff.1 hts
      rfl

theorem typeExpr_rounds {ts : Tokens} (hts : ts.map Token.kind = roundKinds n) (rest : Tokens) :
    ∃ t h, typeExpr (ts ++ rest) = .ok ⟨t, rest, h⟩ ∧ Chain Piece.isType (.type t) n := by
  induction n generalizing ts rest with
  | zero =>
    have hts : ts.map Token.kind = Token.Kind.symbol .lparen :: [] ++ [Token.Kind.symbol .rparen] := hts
    obtain ⟨start, us, stop, htext, hus⟩ := exists_between hts rest
    obtain rfl := List.map_eq_nil_iff.1 hus
    rw [htext, List.nil_append]
    refine ⟨.tuple [] (start.through stop), Nat.lt_succ_of_lt (Nat.lt_succ_self _), ?_, .zero _ _⟩
    rw [typeExpr]
    simp only [eatWord, eat_cons_self, bind, Except.bind, peek, List.headD_cons]
    rw [typeList, isAt_cons_self]
    simp only [if_true, pure, Except.pure, List.reverse_nil, expect_cons_self]
  | succ n ih =>
    obtain ⟨start, us, stop, htext, hus⟩ := exists_between hts rest
    obtain ⟨t, h, ht, hchain⟩ := ih hus (⟨.symbol .rparen, stop⟩ :: rest)
    have hopen := isAt_rounds hus (⟨.symbol .rparen, stop⟩ :: rest)
    rw [htext]
    refine ⟨.tuple [t] (start.through stop), ?_, ?_, hchain.into (List.mem_singleton_self _) rfl rfl⟩
    · simp only [List.length_cons, List.length_append]
      omega
    · rw [typeExpr]
      simp only [eatWord, eat_cons_self, bind, Except.bind, peek, List.headD_cons]
      rw [typeList, hopen]
      simp only [Bool.false_eq_true, if_false, bind, Except.bind, ht, eat]
      rfl

/-- As expressions, parentheses are counted. -/
theorem opens_rounds {ts : Tokens} (hts : ts.map Token.kind = roundKinds n) (rest : Tokens) :
    Opens .expr n (ts ++ rest) := by
  induction n generalizing ts rest with
  | zero => exact .here (w := .expr) nofun _
  | succ n ih =>
    obtain ⟨start, us, stop, htext, hus⟩ := exists_between hts rest
    rw [htext]
    exact .paren start (isAt_rounds hus _) (ih hus _)

/-- A block without statements. -/
theorem block_empty (hd : d < maxNesting) (s s' : Span) (rest : Tokens) :
    block d (⟨.symbol .lbrace, s⟩ :: ⟨.symbol .rbrace, s'⟩ :: rest) =
      .ok ⟨⟨[], s.through s'⟩, rest, Nat.lt_succ_of_lt (Nat.lt_succ_self _)⟩ := by
  have hnone : stmts (d + 1) true (⟨.symbol .lbrace, s⟩ :: ⟨.symbol .rbrace, s'⟩ :: rest) []
      (⟨.symbol .rbrace, s'⟩ :: rest) (Nat.lt_succ_self _) =
        .ok ⟨[], ⟨.symbol .rbrace, s'⟩ :: rest, Nat.lt_succ_self _⟩ := by
    have hskip : (⟨.symbol .rbrace, s'⟩ :: rest : Tokens).dropWhile (endsStmt ·.kind) =
        ⟨.symbol .rbrace, s'⟩ :: rest := rfl
    rw [stmts_eq hskip (Nat.lt_succ_self _)]
    rfl
  rw [block, if_neg (Nat.not_le.2 hd), expect_cons_self]
  simp only [bind, Except.bind, hnone, expect_cons_self]
  rfl

/-- What is to be shown of a text of one statement, once it is cut into tokens. -/
def StmtReads (kinds : List Token.Kind) (P : Stmt → Prop) : Prop :=
  ∀ (ts : Tokens) (here : Span), ts.map Token.kind = kinds → ∃ t us s h, ts = t :: us ∧
    endsStmt t.kind = false ∧ isBlockEnd false t.kind = false ∧
    stmt 0 (t :: (us ++ [⟨.stmtEnd, here⟩, ⟨.eof, here⟩])) = .ok ⟨s, [⟨.stmtEnd, here⟩, ⟨.eof, here⟩], h⟩ ∧ P s

theorem stmt_deepPattern (n : Nat) : StmtReads (patternKinds n ++ [Token.Kind.symbol .rbrace])
    fun s => Chain Piece.isPattern (.stmt s) (n + 1) := by
  intro ts here hts
  rw [patternKinds, List.cons_append, List.append_assoc] at hts
  obtain ⟨⟨_, s₀⟩, us, rfl, rfl, hus⟩ := List.map_eq_cons_iff.1 hts
  obtain ⟨vs, ws₁, rfl, hvs, hws₁⟩ := List.map_eq_append_iff.1 hus
  obtain ⟨⟨_, s₁⟩, ws₂, rfl, rfl, hws₂⟩ := List.map_eq_cons_iff.1 hws₁
  obtain ⟨⟨_, s₂⟩, ws₃, rfl, rfl, hws₃⟩ := List.map_eq_cons_iff.1 hws₂
  obtain ⟨⟨_, s₃⟩, ws₄, rfl, rfl, hws₄⟩ := List.map_eq_cons_iff.1 hws₃
  obtain ⟨⟨_, s₄⟩, rfl, rfl⟩ := List.map_eq_singleton_iff.1 hws₄
  generalize ([⟨.stmtEnd, here⟩, ⟨.eof, here⟩] : Tokens) = rest
  obtain ⟨p, h, hp, hchain⟩ := pattern_justs hvs
    (⟨.keyword .in, s₁⟩ :: ⟨.ident "x", s₂⟩ :: ⟨.symbol .lbrace, s₃⟩ :: ⟨.symbol .rbrace, s₄⟩ :: rest)
  have hexpr : expr 0 0 (⟨.ident "x", s₂⟩ :: ⟨.symbol .lbrace, s₃⟩ :: ⟨.symbol .rbrace, s₄⟩ :: rest) =
      .ok ⟨.var ⟨"x", s₂⟩, ⟨.symbol .lbrace, s₃⟩ :: ⟨.symbol .rbrace, s₄⟩ :: rest, Nat.lt_succ_self _⟩ := by
    rw [expr, if_neg (by decide), operand]
    show operators 1 0 _ (.var ⟨"x", s₂⟩) (⟨.symbol .lbrace, s₃⟩ :: _) _ = _
    rw [operators]
    rfl
  refine ⟨_, _, .forIn p (.var ⟨"x", s₂⟩) ⟨[], s₃.through s₄⟩ (s₀.through (s₃.through s₄)), ?_, rfl, rfl, rfl, ?_,
    hchain.into List.mem_cons_self rfl rfl⟩
  · simp only [List.length_cons, List.length_append, List.length_nil]
    omega
  · rw [stmt]
    simp only [next, List.append_assoc, List.cons_append, List.nil_append, hp, bind, Except.bind, expectWord,
      eatWord, if_true, hexpr, block_empty (d := 0) (by decide)]
    rfl

theorem stmt_deepType (n : Nat) : StmtReads (typeKinds n ++ [Token.Kind.ident "x"])
    fun s => Chain Piece.isType (.stmt s) (n + 1) := by
  intro ts here hts
  simp only [typeKinds, List.cons_append, List.append_assoc, List.nil_append] at hts
  obtain ⟨⟨_, s₁⟩, us₁, rfl, rfl, hus₁⟩ := List.map_eq_cons_iff.1 hts
  obtain ⟨⟨_, s₂⟩, us₂, rfl, rfl, hus₂⟩ := List.map_eq_cons_iff.1 hus₁
  obtain ⟨vs, ws₁, rfl, hvs, hws₁⟩ := List.map_eq_append_iff.1 hus₂
  obtain ⟨⟨_, s₃⟩, ws₂, rfl, rfl, hws₂⟩ := List.map_eq_cons_iff.1 hws₁
  obtain ⟨⟨_, s₄⟩, rfl, rfl⟩ := List.map_eq_singleton_iff.1 hws₂
  obtain ⟨t, h, ht, hchain⟩ := typeExpr_rounds hvs
    (⟨.symbol .assign, s₃⟩ :: ⟨.ident "x", s₄⟩ :: [⟨.stmtEnd, here⟩, ⟨.eof, here⟩])
  have hvalue : expr 0 0 (⟨.ident "x", s₄⟩ :: [⟨.stmtEnd, here⟩, ⟨.eof, here⟩]) =
      .ok ⟨.var ⟨"x", s₄⟩, [⟨.stmtEnd, here⟩, ⟨.eof, here⟩], Nat.lt_succ_self _⟩ := by
    refine expr_of_operand (by decide) ?_ (closed_cons rfl here _)
    rw [operand]
    rfl
  refine ⟨_, _, .var ⟨"x", s₁⟩ (some t) false false (.var ⟨"x", s₄⟩) (s₁.through s₄), ?_, rfl, rfl, rfl, ?_,
    hchain.into (List.mem_cons_of_mem _ List.mem_cons_self) rfl rfl⟩
  · simp
  · rw [stmt]
    show varDef 0 s₁ false (⟨.ident "x", s₁⟩ :: ⟨.symbol .colon, s₂⟩ ::
      (vs ++ [⟨.symbol .assign, s₃⟩, ⟨.ident "x", s₄⟩] ++ [⟨.stmtEnd, here⟩, ⟨.eof, here⟩])) = _
    rw [varDef]
    simp only [eatWord, ident, typeAfter, eat_cons_self, List.append_assoc, List.cons_append, List.nil_append, ht,
      bind, Except.bind, pure, Except.pure, expect_cons_self, hvalue]
    rfl

end Parser

namespace Module

/-- A text of one statement is a module of it. -/
theorem exists_read_of_scans {text : List Char} {first : List Token.Kind} {last : Token.Kind} {P : Stmt → Prop}
    (hscans : Token.Scans text (first ++ [last]) []) (hlast : ∀ l : LineState, l.leavesOpen last = false)
    (hstmt : Parser.StmtReads (first ++ [last]) P) (file : String) :
    ∃ md, Module.read file (String.ofList text) = .ok md ∧ ∃ s ∈ md.body.stmts, P s := by
  obtain ⟨ts, here, hscan, hkinds⟩ := hscans.exists_scan hlast
  obtain ⟨t, us, s, h, rfl, hends, hblock, hs, hP⟩ := hstmt ts here hkinds
  obtain ⟨span, hmodule⟩ := Parser.module_of_stmt hends hblock hs (moduleName file)
  refine ⟨⟨moduleName file, ⟨[s], span⟩, span⟩, ?_, s, List.mem_singleton_self _, hP⟩
  rw [Module.read, hscan]
  simp only [List.cons_append, Except.mapError, bind, Except.bind, hmodule]

theorem exists_read_deepPattern (n : Nat) (file : String) :
    ∃ md, Module.read file (String.ofList (Parser.deepPattern n)) = .ok md ∧
      Chain Piece.isPattern (.module md) (n + 1) := by
  obtain ⟨md, hread, s, hs, hchain⟩ := exists_read_of_scans (Parser.scans_deepPattern n) (fun _ => rfl)
    (Parser.stmt_deepPattern n) file
  exact ⟨md, hread, hchain.module hs⟩

theorem exists_read_deepType (n : Nat) (file : String) :
    ∃ md, Module.read file (String.ofList (Parser.deepType n)) = .ok md ∧
      Chain Piece.isType (.module md) (n + 1) := by
  obtain ⟨md, hread, s, hs, hchain⟩ := exists_read_of_scans (Parser.scans_deepType n) (fun _ => rfl)
    (Parser.stmt_deepType n) file
  exact ⟨md, hread, hchain.module hs⟩

theorem exists_scan_rounds (n : Nat) : ∃ ts, Token.scan (String.ofList (Parser.rounds (n + 1))) = .ok ts ∧
    Parser.Opens .stmt (n + 1) (Parser.skip Parser.endsStmt ts).1 := by
  have hscans : Token.Scans (Parser.rounds (n + 1))
      (Token.Kind.symbol .lparen :: Parser.roundKinds n ++ [Token.Kind.symbol .rparen]) [] :=
    Parser.scans_rounds (n + 1) []
  obtain ⟨ts, here, hscan, hts⟩ := hscans.exists_scan fun _ => rfl
  have hopens := Parser.opens_rounds (n := n + 1) hts [⟨.stmtEnd, here⟩, ⟨.eof, here⟩]
  refine ⟨_, hscan, ?_⟩
  have hskip : (Parser.skip Parser.endsStmt (ts ++ [⟨.stmtEnd, here⟩, ⟨.eof, here⟩])).1 =
      ts ++ [⟨.stmtEnd, here⟩, ⟨.eof, here⟩] := by
    obtain ⟨⟨_, s⟩, us, rfl, rfl, -⟩ := List.map_eq_cons_iff.1 hts
    rfl
  rw [hskip]
  exact .start hopens

/-- No more than the limit of blocks and expressions are one inside the other in a module, so that only patterns and
types can take a way down past it. A text that begins more blocks and expressions is refused, and what is read at one
depth is read at another one or refused there, as it fits. Patterns and types are one inside the other to every
depth. A way down is one in the tree, where `((x))` as a pattern is `x`: the brackets, which the reader does not count
either, are not on it. -/
theorem limit_on_nesting (file src : String) :
    (∀ md, Module.read file src = .ok md →
      (∀ l, Descent (.module md) l → l.countP (·.isCounted) ≤ Parser.maxNesting) ∧
      ((∀ l, Descent (.module md) l → l.length ≤ Parser.maxNesting) ↔
        ∀ l, Descent (.module md) l → (∃ q ∈ l, q.isCounted = false) → l.length ≤ Parser.maxNesting)) ∧
    (∀ ts n, Token.scan src = .ok ts → Parser.Opens .stmt n (Parser.skip Parser.endsStmt ts).1 →
      Parser.maxNesting ≤ n → ∃ e, Module.read file src = .error (.parse e) ∧
        e.expected = s!"nesting depth at most {Parser.maxNesting}") ∧
    (∀ ts, Parser.Guarded ts → ∀ d d',
      (∀ power p, Parser.expr d power ts = .ok p →
        (Fits (d' + 1) (.expr p.value) → Parser.expr d' power ts = .ok p) ∧
        (¬ Fits (d' + 1) (.expr p.value) → Parser.TooDeep (Parser.expr d' power ts))) ∧
      ∀ p, Parser.block d ts = .ok p →
        (Fits (d' + 1) (.block p.value) → Parser.block d' ts = .ok p) ∧
        (¬ Fits (d' + 1) (.block p.value) → Parser.TooDeep (Parser.block d' ts))) ∧
    ∀ n,
      (∃ md, Module.read file (String.ofList (Parser.deepPattern n)) = .ok md ∧
        Chain Piece.isPattern (.module md) (n + 1)) ∧
      ∃ md, Module.read file (String.ofList (Parser.deepType n)) = .ok md ∧
        Chain Piece.isType (.module md) (n + 1) := by
  refine ⟨fun md h => ?_, fun ts n => read_tooDeep, fun ts hg d d' => ⟨?_, ?_⟩,
    fun n => ⟨exists_read_deepPattern n file, exists_read_deepType n file⟩⟩
  · have hbound : ∀ l, Descent (.module md) l → l.countP (·.isCounted) ≤ Parser.maxNesting := fun l hl => by
      simpa using fits_of_read h l hl
    refine ⟨hbound, fun hall l hl _ => hall l hl, fun huncounted l hl => ?_⟩
    by_cases hcounted : ∀ q ∈ l, q.isCounted = true
    · rw [← List.countP_eq_length.2 hcounted]
      exact hbound l hl
    · push Not at hcounted
      simp only [Bool.not_eq_true] at hcounted
      exact huncounted l hl hcounted
  · exact fun power p hp => Parser.expr_again hg hp d'
  · exact fun p hp => Parser.block_again hg hp d'

def nameAlone : Parser.Tokens := [⟨.ident "x", default⟩, ⟨.eof, default⟩]

theorem limit_on_nesting_reached :
    (∃ ts e, Token.scan (String.ofList (Parser.rounds 128)) = .ok ts ∧
      Parser.Opens .stmt 128 (Parser.skip Parser.endsStmt ts).1 ∧
      Module.read "m.sl" (String.ofList (Parser.rounds 128)) = .error (.parse e) ∧
      e.expected = "nesting depth at most 128") ∧
    (∃ md, Module.read "m.sl" (String.ofList (Parser.deepPattern 130)) = .ok md ∧
      Chain Piece.isPattern (.module md) 131 ∧
      ∀ l, Descent (.module md) l → l.countP (·.isCounted) ≤ 128) ∧
    (∃ md, Module.read "m.sl" (String.ofList (Parser.deepType 130)) = .ok md ∧
      Chain Piece.isType (.module md) 131) ∧
    Parser.Guarded nameAlone ∧ ∃ p, Parser.expr 0 0 nameAlone = .ok p ∧
      Parser.expr 127 0 nameAlone = .ok p ∧ Parser.TooDeep (Parser.expr 128 0 nameAlone) := by
  obtain ⟨-, htooDeep, hagain, huncounted⟩ := limit_on_nesting "m.sl" (String.ofList (Parser.rounds 128))
  obtain ⟨hbound, -⟩ := limit_on_nesting "m.sl" (String.ofList (Parser.deepPattern 130))
  obtain ⟨ts, hscan, hopens⟩ := exists_scan_rounds 127
  obtain ⟨e, he, hexpected⟩ := htooDeep ts 128 hscan hopens (Nat.le_refl _)
  obtain ⟨⟨md, hmd, hpattern⟩, hdeepType⟩ := huncounted 130
  have hguarded : Parser.Guarded nameAlone := ⟨_, List.mem_cons_of_mem _ (List.mem_singleton_self _), rfl⟩
  have hname : ∃ p, Parser.expr 0 0 nameAlone = .ok p ∧ p.value = .var ⟨"x", default⟩ := by
    refine ⟨⟨.var ⟨"x", default⟩, [⟨.eof, default⟩], by decide⟩, ?_, rfl⟩
    refine Parser.expr_of_operand (by decide) ?_ (Parser.closed_cons rfl default [])
    rw [Parser.operand]
    rfl
  obtain ⟨p, hp, hvalue⟩ := hname
  refine ⟨⟨ts, e, hscan, hopens, he, hexpected⟩, ⟨md, hmd, hpattern, (hbound md hmd).1⟩, hdeepType,
    hguarded, p, hp, ((hagain nameAlone hguarded 0 127).1 0 p hp).1 ?_,
    ((hagain nameAlone hguarded 0 128).1 0 p hp).2 ?_⟩
  · rw [hvalue, fits_var]
    decide
  · rw [hvalue, fits_var]
    decide

/-- Patterns take a way down past the limit. -/
theorem patterns_past_limit : ¬ ∀ file src md, Module.read file src = .ok md →
    ∀ l, Descent (.module md) l → l.length ≤ Parser.maxNesting := by
  intro hall
  obtain ⟨md, hread, l, hl, hlength, -⟩ := exists_read_deepPattern 130 "m.sl"
  have hle := hall _ _ md hread l hl
  rw [hlength] at hle
  exact absurd hle (by decide)

end Module

end Sluice
