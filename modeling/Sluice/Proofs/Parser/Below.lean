import Sluice.Proofs.Parser.InStepTree
import Sluice.Proofs.Parser.Yields

/-! Modules one below the other. A text that is a module leaves no bracket and no statement open, so what
stands below it is read as it is alone. -/
namespace Sluice

namespace Parser

variable {f : Span → Span} {more : Option Tokens} {all : Tokens} {ds : List Delim}

theorem stmts_congr_skip {depth : Nat} {inner : Bool} {whole : Tokens} {seen : List Stmt} {ts us : Tokens}
    (hskip : (skip endsStmt ts).1 = (skip endsStmt us).1) (h : ts.length < whole.length)
    (h' : us.length < whole.length) :
    stmts depth inner whole seen ts h = stmts depth inner whole seen us h' := by
  rw [stmts, stmts]
  generalize skip endsStmt ts = x, skip endsStmt us = y at hskip
  obtain ⟨ts₀, h₀⟩ := x
  obtain ⟨us₀, h₀'⟩ := y
  obtain rfl : ts₀ = us₀ := hskip
  rfl

theorem InStep.exists_after_eof {rest ts ts' : Tokens} (h : InStep f (some rest) ts ts')
    (heof : (peek ts).kind = .eof) : ∃ t r, ts = t :: r ∧ t.kind = .eof ∧ r ≠ [] := by
  cases h with
  | @cons _ r r' t h =>
    refine ⟨t, r, rfl, heof, ?_⟩
    rintro rfl
    cases h
  | @stop t _ _ _ ht =>
    have hkind : t.kind = .eof := heof
    rw [hkind] at ht
    cases ht

def GoesOn (f : Span → Span) (depth : Nat) (whole : Tokens) (seen : List Stmt) (vs : List Stmt)
    (x : Result (List Stmt) whole) : Option Tokens → Prop
  | none => ∃ rest hr, x = .ok ⟨seen.reverse ++ vs.map (Stmt.respan f), rest, hr⟩
  | some rest => ∃ hr, x = stmts depth false whole ((vs.map (Stmt.respan f)).reverse ++ seen) rest hr

/-- The statements of a module are read on both sides, and then the second side goes on. -/
theorem stmts_goesOn (hf : Through f) (hall : ∀ t r, t :: r <:+ all → t.kind = .eof → r = [])
    (depth : Nat) (whole whole' : Tokens) (seen seen' : List Stmt) (ts ts' : Tokens)
    (h : ts.length < whole.length) (h' : ts'.length < whole'.length)
    (hs : Sync f more all false ds ts ts') {p : Parsed (List Stmt) whole}
    (hp : stmts depth false whole seen ts h = .ok p) :
    ∃ vs, p.value = seen.reverse ++ vs ∧ (peek p.rest).kind = .eof ∧ Reach all false ds p.rest ∧
      GoesOn f depth whole' seen' vs (stmts depth false whole' seen' ts' h') more := by
  have hskip := (skip endsStmt ts).2
  have hreach := hs.reach.skip_endsStmt
  rw [stmts] at hp
  dsimp only at hp
  rcases hs.skip_endsStmt with hs₀ | ⟨heof, rest, rfl, hlen, hrest⟩
  · split at hp
    next hend =>
      obtain rfl := Except.ok.inj hp
      have heof : (peek (skip endsStmt ts).1).kind = .eof := by
        generalize (peek (skip endsStmt ts).1).kind = k at hend
        cases k with
        | eof => rfl
        | symbol s => cases s <;> cases hend
        | _ => cases hend
      refine ⟨[], by simp, heof, hreach, ?_⟩
      cases more with
      | none =>
        rw [← hs₀.step.peek_kind] at hend
        rw [stmts]
        dsimp only
        rw [if_pos hend]
        exact ⟨_, _, by simp [pure, Except.pure]; rfl⟩
      | some rest =>
        obtain ⟨t, r, htr, ht, hr⟩ := hs₀.step.exists_after_eof heof
        obtain ⟨used, rfl, -⟩ := hreach
        exact (hr (hall t r (htr ▸ List.suffix_append _ _) ht)).elim
    next hend =>
      cases hstmt : stmt depth (skip endsStmt ts).1 with
      | error e =>
        rw [hstmt] at hp
        cases hp
      | ok q =>
        obtain ⟨s, ts₁, h₁⟩ := q
        rw [hstmt] at hp
        obtain ⟨⟨s', ts₁', h₁'⟩, hstmt', hs', hs₁⟩ := carries_stmt hf depth hs₀ _ hstmt
        obtain rfl : s' = s.respan f := hs'
        change (if _ then _ else _) = _ at hp
        split at hp
        next hnext =>
          have hlen' := (skip endsStmt ts').2
          have hright : stmts depth false whole' seen' ts' h' =
              stmts depth false whole' (s.respan f :: seen') ts₁' (by omega) := by
            rw [← hs₀.step.peek_kind] at hend
            rw [← hs₁.step.peek_kind] at hnext
            rw [stmts]
            dsimp only
            rw [if_neg hend, hstmt']
            exact if_pos hnext
          obtain ⟨vs, hvs, heof, hreach, hgoes⟩ := stmts_goesOn hf hall depth whole whole' (s :: seen)
            (s.respan f :: seen') ts₁ ts₁' _ (by omega) hs₁ hp
          refine ⟨s :: vs, by simp [hvs], heof, hreach, ?_⟩
          rw [hright]
          cases more with
          | none =>
            obtain ⟨rest, hr, hx⟩ := hgoes
            exact ⟨rest, hr, by simp [hx]⟩
          | some rest =>
            obtain ⟨hr, hx⟩ := hgoes
            exact ⟨hr, by simp [hx]⟩
        next => cases hp
  · rw [heof] at hp
    obtain rfl := Except.ok.inj hp
    exact ⟨[], by simp, heof, hreach, Nat.lt_trans hlen h', stmts_congr_skip hrest h' _⟩
termination_by ts.length
decreasing_by all_goals omega

/-- No statement starts with `else`. -/
theorem eatWord_else_of_stmts {depth : Nat} {whole : Tokens} {seen : List Stmt} {ts : Tokens}
    {h : ts.length < whole.length} {p : Parsed (List Stmt) whole}
    (hp : stmts depth false whole seen ts h = .ok p) : eatWord .else ts = none := by
  cases ts with
  | nil => rfl
  | cons t r =>
    obtain ⟨k, span⟩ := t
    cases k with
    | keyword w =>
      refine if_neg ?_
      rintro rfl
      have hoperand : Fails (operand (depth + 1) (⟨.keyword .else, span⟩ :: r)) := by
        rw [operand]
        exact ⟨_, rfl⟩
      have hexpr : Fails (expr depth 0 (⟨.keyword .else, span⟩ :: r)) := by
        rw [expr]
        split
        · exact ⟨_, rfl⟩
        · exact hoperand.bind _
      have hstmt : Fails (stmt depth (⟨.keyword .else, span⟩ :: r)) := by
        rw [stmt]
        show Fails (exprStmt depth (⟨.keyword .else, span⟩ :: r))
        rw [exprStmt]
        exact hexpr.bind _
      rw [stmts] at hp
      obtain ⟨e, he⟩ := (hstmt.bind _ : Fails (stmt depth (⟨.keyword .else, span⟩ :: r) >>= _))
      cases he.symm.trans hp
    | _ => rfl

theorem through_moved (bytes lines : Nat) : Through (Span.moved bytes lines) := by
  intro a b
  simp only [Span.moved, Span.through, Span.mk.injEq, true_and, and_true]
  omega

theorem through_id : Through id := fun _ _ => rfl

theorem stmts_of_eof {depth : Nat} {whole r : Tokens} {seen : List Stmt} {last : Token}
    (hlast : last.kind = .eof) (h : (last :: r).length < whole.length) :
    stmts depth false whole seen (last :: r) h = .ok ⟨seen.reverse, last :: r, h⟩ := by
  obtain ⟨k, span⟩ := last
  cases hlast
  rw [stmts]
  rfl

theorem reach_start (all : Tokens) : Reach all false [] all :=
  ⟨[], rfl, rfl, List.forall_mem_nil _, fun _ => nofun⟩

/-- Nothing follows the end of the source. -/
theorem eq_nil_of_suffix {front : Tokens} (hfront : ∀ t ∈ front, t.kind ≠ .eof) (last t : Token)
    (r : Tokens) (h : t :: r <:+ front ++ [last]) (ht : t.kind = .eof) : r = [] := by
  obtain ⟨used, hused⟩ := h
  rcases List.eq_nil_or_concat r with rfl | ⟨init, u, rfl⟩
  · rfl
  · have hinit : used ++ t :: init = front := by
      have hdrop := congrArg List.dropLast hused
      rwa [List.concat_eq_append, ← List.cons_append, ← List.append_assoc, List.dropLast_concat,
        List.dropLast_concat] at hdrop
    exact (hfront t (hinit ▸ List.mem_append_right _ List.mem_cons_self) ht).elim

/-- The statements of a source end right before its end, which they do not use and which nothing follows. -/
theorem reach_of_stmts {front whole : Tokens} {last : Token} (hfront : ∀ t ∈ front, t.kind ≠ .eof)
    (hlast : last.kind = .eof) {h : (front ++ [last]).length < whole.length} {p : Parsed (List Stmt) whole}
    (hp : stmts 0 false whole [] (front ++ [last]) h = .ok p) :
    p.rest = [last] ∧ Reach (front ++ [last]) false [] [last] := by
  have hall := eq_nil_of_suffix hfront last
  obtain ⟨-, -, heof, hreach, -⟩ := stmts_goesOn through_id hall 0 whole
    (last :: (front ++ [last]).map (Token.respan id)) [] [] _ _ h (Nat.lt_succ_self _)
    ⟨.map id _, reach_start _⟩ hp
  have hrest : p.rest = [last] := by
    obtain ⟨used, hused, -, hnoEof, -⟩ := hreach
    cases hrest : p.rest with
    | nil =>
      rw [hrest, List.append_nil] at hused
      exact (hnoEof last (hused ▸ List.mem_append_right _ List.mem_cons_self) hlast).elim
    | cons t r =>
      rw [hrest] at hused heof
      obtain rfl := hall t r ⟨used, hused.symm⟩ heof
      exact (List.append_inj' hused rfl).2.symm
  exact ⟨hrest, hrest ▸ hreach⟩

/-- A module leaves no bracket and no statement open. -/
theorem settled_of_stmts {src : String} {ts whole : Tokens} (hscan : Token.scan src = .ok ts)
    {h : ts.length < whole.length} {p : Parsed (List Stmt) whole}
    (hp : stmts 0 false whole [] ts h = .ok p) : Token.Settled ts := by
  obtain ⟨front, last, rfl, hlast, hfront⟩ := Token.exists_front hscan
  obtain ⟨-, used, hused, hdelims, -, hrests⟩ := reach_of_stmts hfront.noEof hlast hp
  obtain rfl : front = used := (List.append_inj' hused rfl).1
  refine ⟨?_, fun t ht => ?_⟩
  · rw [List.foldl_append, LineState.delims_foldl, LineState.delims_foldl, hdelims]
    simp [hlast, LineState.nextDelims]
  · rw [List.dropLast_concat] at ht
    rcases hfront.last t ht with hends | ⟨l, hopen⟩
    · exact hends
    · rcases endsStmt_or_closed (hrests rfl t ht) l with hends | hclosed
      · exact hends
      · rw [hopen] at hclosed
        cases hclosed

/-- A settled text is read in step with what has another text below it. -/
theorem inStep_above {front b : Tokens} {last : Token} (hfront : Token.Front front)
    (hlast : last.kind = .eof) (hends : ∀ t ∈ front.getLast?, endsStmt t.kind = true) (hne : front ≠ [])
    (hb : eatWord .else b = none) :
    InStep id (some b) (front ++ [last]) (front.map Token.overLineEnd ++ b) := by
  obtain ⟨init, t, rfl⟩ := (List.eq_nil_or_concat front).resolve_left hne
  rw [List.concat_eq_append] at hfront hends ⊢
  have hinit : init.map Token.overLineEnd = init.map (Token.respan id) :=
    List.map_congr_left fun u hu => hfront.inside u (by rwa [List.dropLast_concat])
  have hstop : InStep id (some b) [t, last] (t.overLineEnd :: b) :=
    .stop (hends t (by simp)) t.kind_overLineEnd hlast hb
  rw [List.append_assoc, List.map_append, List.append_assoc, hinit]
  exact hstop.append_left init

/-- The statements of two texts one below the other. -/
theorem stmts_below {a b : String} {ts us whole whole' : Tokens} {h : ts.length < whole.length}
    {h' : us.length < whole'.length} {p : Parsed (List Stmt) whole} {q : Parsed (List Stmt) whole'}
    (hts : Token.scan a = .ok ts) (hus : Token.scan b = .ok us) (hp : stmts 0 false whole [] ts h = .ok p)
    (hq : stmts 0 false whole' [] us h' = .ok q) :
    ∃ ws, Token.scan (a ++ "\n" ++ b) = .ok ws ∧ ∀ (whole'' : Tokens) (h'' : ws.length < whole''.length),
      ∃ rest hr, stmts 0 false whole'' [] ws h'' =
        .ok ⟨p.value ++ q.value.map (Stmt.respan (Span.below (a ++ "\n"))), rest, hr⟩ := by
  have hsettled := settled_of_stmts hts hp
  obtain ⟨front, last, rfl, hlast, hfront⟩ := Token.exists_front hts
  obtain ⟨front', last', rfl, hlast', hfront'⟩ := Token.exists_front hus
  have hends := hsettled.last
  have hscan := Token.scan_below hts hsettled b
  rw [List.dropLast_concat] at hends hscan
  rw [hus] at hscan
  refine ⟨_, hscan, fun whole'' h'' => ?_⟩
  -- The lower text, after any statements.
  have hlower (seen : List Stmt) (hlen) : ∃ rest hr,
      stmts 0 false whole'' seen ((front' ++ [last']).map (Token.respan (Span.below (a ++ "\n")))) hlen =
        .ok ⟨seen.reverse ++ q.value.map (Stmt.respan (Span.below (a ++ "\n"))), rest, hr⟩ := by
    obtain ⟨vs, hvs, -, -, hgoes⟩ := stmts_goesOn (through_moved _ _)
      (eq_nil_of_suffix hfront'.noEof last') 0 whole' whole'' [] seen _ _ h' hlen
      ⟨.map (Span.below (a ++ "\n")) _, reach_start _⟩ hq
    rw [List.reverse_nil, List.nil_append] at hvs
    rw [hvs]
    exact hgoes
  by_cases hne : front = []
  · subst hne
    obtain rfl := Except.ok.inj (hp.symm.trans (stmts_of_eof hlast h))
    exact hlower [] h''
  · obtain ⟨_, _, hfirst⟩ := hlower [] (Nat.lt_of_le_of_lt (by simp) h'')
    obtain ⟨vs, hvs, -, -, hlen, hgoes⟩ := stmts_goesOn through_id
      (eq_nil_of_suffix hfront.noEof last) 0 whole whole'' [] [] _ _ h h''
      ⟨inStep_above hfront hlast hends hne (eatWord_else_of_stmts hfirst), reach_start _⟩ hp
    have hid : vs.map (Stmt.respan id) = vs := map_eq_self fun s _ => s.respan_id
    rw [List.reverse_nil, List.nil_append] at hvs
    obtain ⟨rest, hr, hrun⟩ := hlower vs.reverse hlen
    rw [List.reverse_reverse] at hrun
    simp only [hid, List.append_nil] at hgoes
    rw [hvs]
    exact ⟨rest, hr, hgoes.trans hrun⟩

end Parser

namespace Module

theorem exists_stmts_of_read {file src : String} {md : Module} (h : Module.read file src = .ok md) :
    ∃ ts p, Token.scan src = .ok ts ∧ md.body.stmts = p.value ∧
      Parser.stmts 0 false (Parser.peek ts :: ts) [] ts (Nat.lt_succ_self _) = .ok p := by
  obtain ⟨ts, hts, hmodule⟩ := exists_tokens_of_read h
  rw [Parser.module] at hmodule
  cases hstmts : Parser.stmts 0 false (Parser.peek ts :: ts) [] ts (Nat.lt_succ_self _) with
  | error e => simp only [bind, Except.bind, hstmts, reduceCtorEq] at hmodule
  | ok p =>
    simp only [bind, Except.bind, hstmts, pure, Except.pure, Except.ok.injEq] at hmodule
    exact ⟨ts, p, hts, by rw [← hmodule], hstmts⟩

theorem exists_read_of_stmts {src : String} {ts : Parser.Tokens} (hscan : Token.scan src = .ok ts)
    {p : Parser.Parsed (List Stmt) (Parser.peek ts :: ts)}
    (hstmts : Parser.stmts 0 false (Parser.peek ts :: ts) [] ts (Nat.lt_succ_self _) = .ok p) (file : String) :
    ∃ md, Module.read file src = .ok md ∧ md.body.stmts = p.value := by
  rw [Module.read, hscan]
  simp only [Except.mapError, bind, Except.bind, Parser.module, hstmts, pure, Except.pure]
  exact ⟨_, rfl, rfl⟩

/-- Two texts that are modules are one module together if they stand one below the other, with the
statements of the upper text followed by those of the lower one. -/
theorem read_append_newline {file₁ file₂ a b : String} {ma mb : Module}
    (ha : Module.read file₁ a = .ok ma) (hb : Module.read file₂ b = .ok mb) (file : String) :
    ∃ md, Module.read file (a ++ "\n" ++ b) = .ok md ∧
      md.body.stmts = ma.body.stmts ++ mb.body.stmts.map (Stmt.respan (Span.below (a ++ "\n"))) := by
  obtain ⟨ts, p, hts, hma, hp⟩ := exists_stmts_of_read ha
  obtain ⟨us, q, hus, hmb, hq⟩ := exists_stmts_of_read hb
  obtain ⟨ws, hws, hstmts⟩ := Parser.stmts_below hts hus hp hq
  obtain ⟨rest, hr, hrun⟩ := hstmts (Parser.peek ws :: ws) (Nat.lt_succ_self _)
  rw [hma, hmb]
  exact exists_read_of_stmts hws hrun file

/-- A text whose last statement could go on with an `else`. -/
def openBranch : String := "xs = [1,\n2]\nif xs \x7b f() \x7d // é"

/-- A text that starts as the arguments of a call do. -/
def bareCall : String := "(f | g)(xs)\nif xs \x7b f() \x7d\nelse \x7b g() \x7d"

theorem openBranch_above_bareCall : ∃ ma mb md, Module.read "a.sl" openBranch = .ok ma ∧
    Module.read "b.sl" bareCall = .ok mb ∧ ma.body.stmts.length = 2 ∧ mb.body.stmts.length = 2 ∧
    Module.read "c.sl" (openBranch ++ "\n" ++ bareCall) = .ok md ∧ md.body.stmts =
      ma.body.stmts ++ mb.body.stmts.map (Stmt.respan (Span.below (openBranch ++ "\n"))) := by
  have hupper : (Module.read "a.sl" openBranch).toOption.map (·.body.stmts.length) = some 2 := by
    decide +kernel
  have hlower : (Module.read "b.sl" bareCall).toOption.map (·.body.stmts.length) = some 2 := by
    decide +kernel
  cases ha : Module.read "a.sl" openBranch with
  | error e => simp [ha, Except.toOption] at hupper
  | ok ma =>
    cases hb : Module.read "b.sl" bareCall with
    | error e => simp [hb, Except.toOption] at hlower
    | ok mb =>
      obtain ⟨md, hread, hstmts⟩ := read_append_newline ha hb "c.sl"
      simp only [ha, hb, Except.toOption, Option.map_some, Option.some.injEq] at hupper hlower
      exact ⟨ma, mb, md, rfl, rfl, hupper, hlower, hread, hstmts⟩

end Module

end Sluice
