import Sluice.Parser.Module
import Sluice.Proofs.Parser.LaidParts

/-! Expressions, statements and blocks lie on the tokens that they are read from. -/
namespace Sluice.Parser

variable {s : Span} {n : Piece} {ps : List Piece} {ts mid mid' rest : Tokens}

/-! ### Pieces that are taken up again -/

/-- What a piece is made up of, to go on with. -/
theorem Laid.covers_row (h : Laid n ts rest) (hrows : n.rows = [ps]) : Covers n.span ps ts rest :=
  ⟨h.extent, h.rows ps (hrows ▸ List.mem_singleton_self _)⟩

theorem laid_addStage {lhs stage : Expr} (hlhs : Laid (.expr lhs) ts mid) (hmid : mid' <:+ mid)
    (hstage : Laid (.expr stage) mid' rest) : Laid (.expr (addStage lhs stage)) ts rest := by
  unfold addStage
  split
  next stages mode span =>
    have hstages := (hlhs.covers_row rfl).finish (.of_suffix hmid) hstage
    refine hstages.laid rfl ?_ trivial
    rw [Piece.rows, Expr.pieces, List.map_append]
    rfl
  next => exact (hlhs.covers.finish (.of_suffix hmid) hstage).laid rfl rfl trivial

theorem laid_addMember {base : Expr} {name : Ident} (hbase : Laid (.expr base) ts mid)
    (hmid : mid' <:+ mid) (hname : Laid (.ident name) mid' rest) :
    Laid (.expr (addMember base name)) ts rest := by
  unfold addMember
  split
  next inner names span =>
    have hnames := (hbase.covers_row rfl).finish (.of_suffix hmid) hname
    refine hnames.laid rfl ?_ trivial
    rw [Piece.rows, Expr.pieces, List.map_append]
    rfl
  next => exact (hbase.covers.finish (.of_suffix hmid) hname).laid rfl rfl trivial

theorem span_defer (e : Expr) : (defer e).span = e.span := by
  cases e with
  | _ => rfl

theorem laid_defer {e : Expr} (h : Laid (.expr e) ts rest) : Laid (.expr (defer e)) ts rest := by
  unfold defer
  split
  · exact (h.covers_row rfl).laid rfl rfl trivial
  · exact h

/-- What is left after a token, of tokens that start with it or behind it. -/
theorem Took.suffix_of_shorter {whole : Tokens} (h : Took s whole mid) (hts : ts = whole ∨ ts = mid)
    (hrest : rest <:+ ts) (hlt : rest.length < ts.length) : rest <:+ mid := by
  rcases hts with rfl | rfl
  · obtain ⟨k, rfl⟩ := h
    rcases List.suffix_cons_iff.1 hrest with rfl | hrest
    · exact absurd hlt (Nat.lt_irrefl _)
    · exact hrest
  · exact hrest

/-- An arm of a match starts where its pattern does, without the parentheses around it. -/
theorem row_arm {pat : Pattern} (body : ArmBody) {ts₁ ts₂ : Tokens}
    (hpat : Row Laid [.pattern pat] ts ts₁) (harrow : Took s ts₁ ts₂) (hbody : Laid body.piece ts₂ rest) :
    Row Laid [.arm ⟨pat, body, pat.span.through body.piece.span⟩] ts rest := by
  obtain ⟨a, b, ha, hb, hpat⟩ := hpat.exists_of_mem (fun _ _ _ h => h.suffix) List.mem_cons_self
  have harm : Laid (.arm ⟨pat, body, pat.span.through body.piece.span⟩) a rest :=
    (hpat.covers.finish (.of_suffix (harrow.suffix.trans hb)) hbody).laid rfl rfl trivial
  exact harm.row.after ha

theorem suffix_of_eatElse {p : Parsed Span ts} (h : eatElse ts = some p) : p.rest <:+ ts := by
  unfold eatElse at h
  split at h
  next span r =>
    obtain ⟨q, hq, rfl⟩ := Option.map_eq_some_iff.1 h
    exact (took_of_eatWord hq).suffix.trans (List.suffix_cons _ _)
  next => exact (took_of_eatWord h).suffix

theorem lays_implTarget (whole ts : Tokens) (h : ts.length < whole.length) :
    Yields (fun p => Row Laid (p.value.toList.map .ident) ts p.rest) (implTarget whole ts h) := by
  rw [implTarget]
  split
  next ts₁ h₁ heat =>
    refine (lays_typeName ts₁).step fun t ts₂ h₂ ht => yields_pure ?_
    exact ht.row.after (took_of_eatWord heat).suffix
  next => exact yields_pure (.nil _)

/-! ### Expressions and statements -/

mutual

theorem lays_expr (depth power : Nat) (ts : Tokens) :
    Yields (fun p => Laid (.expr p.value) ts p.rest) (expr depth power ts) := by
  rw [expr]
  split
  · exact yields_error _
  · refine (lays_operand (depth + 1) ts).step fun first ts₁ h₁ hfirst => ?_
    exact lays_operators (depth + 1) power ts first ts₁ h₁ hfirst
termination_by 8 * ts.length + 2
decreasing_by all_goals omega

theorem lays_operators (depth power : Nat) (whole : Tokens) (lhs : Expr) (ts : Tokens)
    (h : ts.length < whole.length) (hlhs : Laid (.expr lhs) whole ts) :
    Yields (fun p => Laid (.expr p.value) whole p.rest) (operators depth power whole lhs ts h) := by
  have hstop : Yields (fun p => Laid (.expr p.value) whole p.rest)
      (pure ⟨lhs, ts, h⟩ : Result Expr whole) := yields_pure hlhs
  rw [operators]
  split
  next kind span r hr hnext =>
    have hsign : Took span ts r := ⟨_, eq_cons_of_next hnext⟩
    split
    · refine (lays_callArgs depth ts [] r hr).step ?_
      rintro ⟨args, stop⟩ ts₁ h₁ ⟨mid, hargs, hclose⟩
      refine lays_operators depth power whole _ ts₁ _ ?_
      exact (hlhs.covers.close (hargs.rowMap.after hsign.suffix) hclose).laid rfl rfl trivial
    · refine (lays_expr depth 0 r).step fun key ts₁ h₁ hkey => ?_
      dsimp only
      refine (took_expect _ _ _).step fun stop ts₂ h₂ hclose => ?_
      refine lays_operators depth power whole _ ts₂ _ ?_
      exact (hlhs.covers.close (hkey.row.after hsign.suffix) hclose).laid rfl rfl trivial
    · refine (lays_ident r).step fun name ts₁ h₁ hname => ?_
      exact lays_operators depth power whole _ ts₁ _ (laid_addMember hlhs hsign.suffix hname)
    · split
      · exact hstop
      · refine (lays_expr depth (pipePower + 1) r).step fun stage ts₁ h₁ hstage => ?_
        exact lays_operators depth power whole _ ts₁ _ (laid_addStage hlhs hsign.suffix hstage)
    · split
      · exact hstop
      next op p _ =>
        split
        · exact hstop
        · refine (lays_expr depth (p + 1) r).step fun rhs ts₁ h₁ hrhs => ?_
          refine lays_operators depth power whole _ ts₁ _ ?_
          exact (hlhs.covers.finish (.of_suffix hsign.suffix) hrhs).laid rfl rfl trivial
  next => exact hstop
termination_by 8 * ts.length + 6
decreasing_by all_goals omega

theorem lays_callArgs (depth : Nat) (whole : Tokens) (seen : List Expr) (ts : Tokens)
    (h : ts.length < whole.length) :
    Yields (fun p => ∃ mid, Collects (fun e => [.expr e]) seen ts p.value.1 mid ∧
      Took p.value.2 mid p.rest) (callArgs depth whole seen ts h) := by
  rw [callArgs]
  split
  next stop ts₁ h₁ heat =>
    exact yields_pure ⟨ts, collects_nil (List.suffix_refl _), took_of_eat heat⟩
  next =>
    refine (lays_expr depth 0 ts).step fun arg ts₁ h₁ harg => ?_
    dsimp only
    split
    next ts₂ h₂ heat =>
      refine (lays_callArgs depth whole (arg :: seen) ts₂ _).imp fun p ⟨mid, hargs, hclose⟩ => ?_
      exact ⟨mid, hargs.cons (harg.row.before (took_of_eat heat).suffix), hclose⟩
    next =>
      refine (took_expect _ _ _).step fun stop ts₂ h₂ hclose => yields_pure ?_
      exact ⟨ts₁, collects_one harg.row, hclose⟩
termination_by 8 * ts.length + 6
decreasing_by all_goals omega

theorem lays_operand (depth : Nat) (ts : Tokens) :
    Yields (fun p => Laid (.expr p.value) ts p.rest) (operand depth ts) := by
  rw [operand]
  split
  next kind span r h hnext =>
    have hstart : Took span ts r := ⟨_, eq_cons_of_next hnext⟩
    dsimp only
    split
    next op _ =>
      refine (lays_expr depth unaryPower r).step fun e ts₁ h₁ he => yields_pure ?_
      exact (hstart.covers.finish (.nil _) he).laid rfl rfl trivial
    next =>
      split
      next => exact yields_pure (hstart.covers.laid rfl rfl trivial)
      next =>
        split
        · exact yields_pure (hstart.covers.laid rfl rfl trivial)
        next name _ _ _ =>
          have hname : Laid (.ident ⟨name, span⟩) ts r := by
            rw [eq_cons_of_next hnext]
            exact laid_ident (.inl rfl)
          exact yields_pure (hname.covers.laid rfl rfl trivial)
        · refine (lays_exprList depth ts [] false r h).step ?_
          rintro ⟨elems, trailing⟩ ts₁ h₁ helems
          dsimp only
          refine (took_expect _ _ _).step fun stop ts₂ h₂ hclose => ?_
          have hcovers := hstart.covers.close helems.rowMap hclose
          dsimp only
          split
          · exact yields_error _
          · exact yields_pure (hcovers.laid rfl rfl trivial)
          · exact yields_pure (hcovers.laid rfl rfl trivial)
        · split
          next stop ts₁ h₁ heat =>
            exact yields_pure ((hstart.covers.close (.nil _) (took_of_eat heat)).laid rfl rfl trivial)
          next =>
            refine (lays_expr depth 0 r).step fun first ts₁ h₁ hfirst => ?_
            dsimp only
            split
            next ts₂ h₂ heat =>
              refine (lays_expr depth 0 ts₂).step fun hi ts₃ h₃ hhi => ?_
              refine (took_expect _ _ _).step fun stop ts₄ h₄ hclose => yields_pure ?_
              have hrow := hfirst.row.append (hhi.row.after (took_of_eat heat).suffix)
              exact (hstart.covers.close hrow hclose).laid rfl rfl trivial
            next =>
              refine (lays_listItems depth r [first] ts₁ h₁).step fun items ts₂ h₂ hitems => ?_
              refine (took_expect _ _ _).step fun stop ts₃ h₃ hclose => yields_pure ?_
              have hall := hitems.cons hfirst.row
              exact (hstart.covers.close hall.rowMap hclose).laid rfl rfl trivial
        · refine (lays_mapEntries depth ts [] r h).step fun entries ts₁ h₁ hentries => ?_
          refine (took_expect _ _ _).step fun stop ts₂ h₂ hclose => yields_pure ?_
          exact (hstart.covers.close hentries.row hclose).laid rfl rfl trivial
        · refine (lays_params r).step fun params ts₁ h₁ hparams => ?_
          dsimp only
          refine (lays_typeAfter .arrow r ts₁ h₁).step fun result ts₂ h₂ hresult => ?_
          dsimp only
          refine (lays_block depth ts₂).step fun body ts₃ h₃ hbody => yields_pure ?_
          refine (hstart.covers.finish (hparams.append hresult.row) hbody).laid rfl ?_ trivial
          rw [List.append_assoc]
          rfl
        · exact yields_error _
  next => exact yields_error _
termination_by 8 * ts.length + 1
decreasing_by all_goals omega

theorem lays_exprList (depth : Nat) (whole : Tokens) (seen : List Expr) (trailing : Bool)
    (ts : Tokens) (h : ts.length < whole.length) :
    Yields (fun p => Collects (fun e => [.expr e]) seen ts p.value.1 p.rest)
      (exprList depth whole seen trailing ts h) := by
  rw [exprList]
  split
  · exact yields_pure (collects_nil (List.suffix_refl _))
  · refine (lays_expr depth 0 ts).step fun e ts₁ h₁ he => ?_
    dsimp only
    split
    next ts₂ h₂ heat =>
      refine (lays_exprList depth whole (e :: seen) true ts₂ _).imp fun p hp => ?_
      exact hp.cons (he.row.before (took_of_eat heat).suffix)
    next => exact yields_pure (collects_one he.row)
termination_by 8 * ts.length + 6
decreasing_by all_goals omega

theorem lays_listItems (depth : Nat) (whole : Tokens) (seen : List Expr) (ts : Tokens)
    (h : ts.length < whole.length) :
    Yields (fun p => Collects (fun e => [.expr e]) seen ts p.value p.rest)
      (listItems depth whole seen ts h) := by
  rw [listItems]
  split
  next ts₁ h₁ heat =>
    have hcomma := (took_of_eat heat).suffix
    dsimp only
    split
    · exact yields_pure (collects_nil hcomma)
    · refine (lays_expr depth 0 ts₁).step fun e ts₂ h₂ he => ?_
      refine (lays_listItems depth whole (e :: seen) ts₂ _).imp fun p hp => ?_
      exact hp.cons (he.row.after hcomma)
  next => exact yields_pure (collects_nil (List.suffix_refl _))
termination_by 8 * ts.length + 6
decreasing_by all_goals omega

theorem lays_mapEntries (depth : Nat) (whole : Tokens) (seen : List (Expr × Expr)) (ts : Tokens)
    (h : ts.length < whole.length) :
    Yields (fun p => Collects (fun e => [.expr e.1, .expr e.2]) seen ts p.value p.rest)
      (mapEntries depth whole seen ts h) := by
  have hskip := (skip separates ts).2
  have hafter := suffix_skip separates ts
  rw [mapEntries]
  dsimp only
  split
  · exact yields_pure (collects_nil hafter)
  · refine (lays_expr depth 0 (skip separates ts).1).step fun key ts₁ h₁ hkey => ?_
    dsimp only
    refine (took_expect _ _ _).step fun _ ts₂ h₂ hcolon => ?_
    dsimp only
    refine (lays_expr depth 0 ts₂).step fun value ts₃ h₃ hvalue => ?_
    refine (lays_mapEntries depth whole ((key, value) :: seen) ts₃ _).imp fun p hp => hp.cons ?_
    exact (hkey.row.append (hvalue.row.after hcolon.suffix)).after hafter
termination_by 8 * ts.length + 6
decreasing_by all_goals omega

theorem lays_block (depth : Nat) (ts : Tokens) :
    Yields (fun p => Laid (.block p.value) ts p.rest) (block depth ts) := by
  rw [block]
  split
  · exact yields_error _
  · refine (took_expect _ _ _).step fun start ts₁ h₁ hopen => ?_
    dsimp only
    refine (lays_stmts (depth + 1) true ts [] ts₁ h₁).step fun body ts₂ h₂ hbody => ?_
    refine (took_expect _ _ _).step fun stop ts₃ h₃ hclose => yields_pure ?_
    exact (hopen.covers.close hbody.rowMap hclose).laid rfl rfl trivial
termination_by 8 * ts.length
decreasing_by all_goals omega

theorem lays_stmts (depth : Nat) (inner : Bool) (whole : Tokens) (seen : List Stmt) (ts : Tokens)
    (h : ts.length < whole.length) :
    Yields (fun p => Collects (fun s => [.stmt s]) seen ts p.value p.rest)
      (stmts depth inner whole seen ts h) := by
  have hskip := (skip endsStmt ts).2
  have hafter := suffix_skip endsStmt ts
  rw [stmts]
  dsimp only
  split
  · exact yields_pure (collects_nil hafter)
  · refine (lays_stmt depth (skip endsStmt ts).1).step fun s ts₁ h₁ hs => ?_
    dsimp only
    split
    · refine (lays_stmts depth inner whole (s :: seen) ts₁ _).imp fun p hp => ?_
      exact hp.cons (hs.row.after hafter)
    · exact yields_error _
termination_by 8 * ts.length + 7
decreasing_by all_goals omega

theorem lays_stmt (depth : Nat) (ts : Tokens) :
    Yields (fun p => Laid (.stmt p.value) ts p.rest) (stmt depth ts) := by
  rw [stmt]
  split
  next kind span r h hnext =>
    have hstart : Took span ts r := ⟨_, eq_cons_of_next hnext⟩
    dsimp only
    split
    · split
      · refine (lays_fnDecl depth r).step fun d ts₁ h₁ hd => yields_pure ?_
        have hrow := (hd.covers_row rfl).row.after hstart.suffix
        have hover := hstart.extent.through hd.suffix hd.extent hstart.suffix
        exact Covers.laid ⟨hover, hrow⟩ rfl rfl trivial
      · exact (lays_varDef depth span true r ts r hstart (.inr rfl)).step fun s ts₁ h₁ hs => yields_pure hs
    · exact lays_varDef depth span false ts ts r hstart (.inl rfl)
    · split
      · exact (lays_fnDecl depth ts).step fun d ts₁ h₁ hd => yields_pure hd
      · exact lays_exprStmt depth ts
    · exact (lays_structDef ts).step fun d ts₁ h₁ hd => yields_pure hd
    · exact (lays_enumDef ts).step fun d ts₁ h₁ hd => yields_pure hd
    · exact (lays_typeclassDef ts).step fun d ts₁ h₁ hd => yields_pure hd
    · refine (lays_typeName r).step fun name ts₁ h₁ hname => ?_
      dsimp only
      refine (lays_implTarget r ts₁ h₁).step fun target ts₂ h₂ htarget => ?_
      dsimp only
      refine (took_expect _ _ _).step fun _ ts₃ h₃ hopen => ?_
      dsimp only
      refine (lays_implMethods depth ts₂ [] ts₃ h₃).step fun methods ts₄ h₄ hmethods => ?_
      refine (took_expect _ _ _).step fun stop ts₅ h₅ hclose => yields_pure ?_
      have hrow := hname.row.append (htarget.append (hmethods.rowMap.after hopen.suffix))
      exact (hstart.covers.close hrow hclose).laid rfl rfl trivial
    · refine (lays_pattern r).step fun pat ts₁ h₁ hpat => ?_
      dsimp only
      refine (took_expectWord _ _ _).step fun _ ts₂ h₂ hin => ?_
      dsimp only
      refine (lays_expr depth 0 ts₂).step fun iter ts₃ h₃ hiter => ?_
      dsimp only
      refine (lays_block depth ts₃).step fun body ts₄ h₄ hbody => yields_pure ?_
      have hrow := hpat.append (hiter.row.after hin.suffix)
      exact (hstart.covers.finish hrow hbody).laid rfl rfl trivial
    · refine (lays_branches depth ts [] r h).step ?_
      rintro ⟨branches, otherwise, stop⟩ ts₁ h₁ ⟨mid, last, hbranches, hotherwise, hlast, hstop⟩
      refine yields_pure ?_
      have hrow := (hbranches.row.append hotherwise).after hstart.suffix
      have hover := hstart.extent.through (hstop.suffix.trans hlast) hstop (hlast.trans hstart.suffix)
      exact Covers.laid ⟨hover, hrow⟩ rfl rfl trivial
    · refine (lays_expr depth 0 r).step fun test ts₁ h₁ htest => ?_
      dsimp only
      refine (lays_block depth ts₁).step fun body ts₂ h₂ hbody => yields_pure ?_
      exact (hstart.covers.finish htest.row hbody).laid rfl rfl trivial
    · refine (lays_expr depth 0 r).step fun scrutinee ts₁ h₁ hscrutinee => ?_
      dsimp only
      refine (took_expect _ _ _).step fun _ ts₂ h₂ hopen => ?_
      dsimp only
      refine (lays_matchArms depth ts₁ [] ts₂ h₂).step fun arms ts₃ h₃ harms => ?_
      refine (took_expect _ _ _).step fun stop ts₄ h₄ hclose => yields_pure ?_
      have hrow := hscrutinee.row.append (harms.rowMap.after hopen.suffix)
      exact (hstart.covers.close hrow hclose).laid rfl rfl trivial
    · exact lays_importStmt ts
    · refine (lays_ident r).step fun name ts₁ h₁ hname => ?_
      dsimp only
      refine (lays_block depth ts₁).step fun body ts₂ h₂ hbody => yields_pure ?_
      exact (hstart.covers.finish hname.row hbody).laid rfl rfl trivial
    · split
      · exact yields_pure (hstart.covers.laid rfl rfl trivial)
      · refine (lays_expr depth 0 r).step fun e ts₁ h₁ he => yields_pure ?_
        exact (hstart.covers.finish (.nil _) he).laid rfl rfl trivial
    · exact yields_pure (.mk hstart.extent trivial nofun)
    · exact yields_pure (.mk hstart.extent trivial nofun)
    · exact yields_error _
    · exact yields_error _
    · split
      · exact lays_varDef depth span false ts ts r hstart (.inl rfl)
      · exact lays_exprStmt depth ts
    · exact lays_exprStmt depth ts
  next => exact lays_exprStmt depth ts
termination_by 8 * ts.length + 5
decreasing_by all_goals omega

/-- A definition starts at its first token, or at the one before. -/
theorem lays_varDef (depth : Nat) (start : Span) (isPub : Bool) (ts whole mid : Tokens)
    (hstart : Took start whole mid) (hts : ts = whole ∨ ts = mid) :
    Yields (fun p => Laid (.stmt p.value) whole p.rest) (varDef depth start isPub ts) := by
  have hwhole : ts <:+ whole := by
    rcases hts with rfl | rfl
    · exact List.suffix_refl _
    · exact hstart.suffix
  rw [varDef]
  have hrest (isConst : Bool) (name : Ident) (ts₀ ts₁ : Tokens) (h₁ : ts₁.length < ts.length)
      (hbefore : ts₀ <:+ ts) (hname : Laid (.ident name) ts₀ ts₁) :
      Yields (fun p => Laid (.stmt p.value) whole p.rest) (do
        let ⟨type, ts₂, h₂⟩ ← typeAfter .colon ts ts₁ h₁
        let ⟨_, ts₃, h₃⟩ ← expect .assign "`=`" ts₂
        let ⟨value, ts₄, h₄⟩ ← expr depth 0 ts₃
        return ⟨.var name type isConst isPub (defer value) (start.through value.span), ts₄,
          by omega⟩ : Result Stmt ts) := by
    refine (lays_typeAfter .colon ts ts₁ h₁).step fun type ts₂ h₂ htype => ?_
    refine (took_expect _ _ _).step fun _ ts₃ h₃ hassign => ?_
    refine (lays_expr depth 0 ts₃).step fun value ts₄ h₄ hvalue => yields_pure ?_
    have hrow := hname.row.append (htype.row.append ((laid_defer hvalue).row.after hassign.suffix))
    have hvalueAt := hassign.suffix.trans (htype.row.le.trans (hname.suffix.trans hbefore))
    have hshort : ts₄ <:+ mid := hstart.suffix_of_shorter hts (hrow.le.trans hbefore) (by omega)
    refine Covers.laid ⟨?_, hrow.after (hbefore.trans hwhole)⟩ rfl rfl trivial
    exact hstart.extent.through hshort hvalue.extent (hvalueAt.trans hwhole)
  split
  next r hr heat =>
    exact (lays_ident r).step fun name ts₁ h₁ hname =>
      hrest true name r ts₁ (by omega) (took_of_eatWord heat).suffix hname
  next =>
    exact (lays_ident ts).step fun name ts₁ h₁ hname =>
      hrest false name ts ts₁ h₁ (List.suffix_refl _) hname
termination_by 8 * ts.length + 4
decreasing_by all_goals omega

theorem lays_exprStmt (depth : Nat) (ts : Tokens) :
    Yields (fun p => Laid (.stmt p.value) ts p.rest) (exprStmt depth ts) := by
  rw [exprStmt]
  refine (lays_expr depth 0 ts).step fun e ts₁ h₁ he => ?_
  have hexpr : Yields (fun p => Laid (.stmt p.value) ts p.rest)
      (pure ⟨.expr e e.span, ts₁, h₁⟩ : Result Stmt ts) := yields_pure (he.covers.laid rfl rfl trivial)
  dsimp only
  split
  next kind span ts₂ h₂ hnext =>
    have hop : Took span ts₁ ts₂ := ⟨_, eq_cons_of_next hnext⟩
    split
    · exact hexpr
    · split
      next =>
        refine (lays_expr depth 0 ts₂).step fun value ts₃ h₃ hvalue => yields_pure ?_
        have hcovers := he.covers.finish (.of_suffix hop.suffix) (laid_defer hvalue)
        refine hcovers.laid ?_ rfl trivial
        exact congrArg e.span.through (span_defer value).symm
      · exact yields_error _
  next => exact hexpr
termination_by 8 * ts.length + 4
decreasing_by all_goals omega

theorem lays_fnDecl (depth : Nat) (ts : Tokens) :
    Yields (fun p => Laid (.stmt (.fn p.value)) ts p.rest) (fnDecl depth ts) := by
  rw [fnDecl]
  refine (took_expectWord _ _ _).step fun start ts₁ h₁ hstart => ?_
  dsimp only
  refine (lays_ident ts₁).step fun name ts₂ h₂ hname => ?_
  dsimp only
  refine (lays_params ts₂).step fun params ts₃ h₃ hparams => ?_
  dsimp only
  refine (lays_typeAfter .arrow ts₂ ts₃ h₃).step fun result ts₄ h₄ hresult => ?_
  dsimp only
  refine (lays_block depth ts₄).step fun body ts₅ h₅ hbody => yields_pure ?_
  have hrow := hname.row.append (hparams.append hresult.row)
  refine (hstart.covers.finish hrow hbody).laid rfl ?_ trivial
  rw [List.append_assoc, List.append_assoc]
  rfl
termination_by 8 * ts.length + 4
decreasing_by all_goals omega

theorem lays_implMethods (depth : Nat) (whole : Tokens) (seen : List FnDecl) (ts : Tokens)
    (h : ts.length < whole.length) :
    Yields (fun p => Collects (fun d => [.stmt (.fn d)]) seen ts p.value p.rest)
      (implMethods depth whole seen ts h) := by
  have hskip := (skip separates ts).2
  have hafter := suffix_skip separates ts
  rw [implMethods]
  dsimp only
  split
  · exact yields_pure (collects_nil hafter)
  · refine (lays_fnDecl depth (skip separates ts).1).step fun d ts₁ h₁ hd => ?_
    refine (lays_implMethods depth whole (d :: seen) ts₁ _).imp fun p hp => ?_
    exact hp.cons (hd.row.after hafter)
termination_by 8 * ts.length + 6
decreasing_by all_goals omega

theorem lays_branches (depth : Nat) (whole : Tokens) (seen : List (Expr × Block)) (ts : Tokens)
    (h : ts.length < whole.length) :
    Yields (fun p => ∃ mid last, Collects (fun b => [.expr b.1, .block b.2]) seen ts p.value.1 mid ∧
        Row Laid (p.value.2.1.toList.map .block) mid p.rest ∧ last <:+ ts ∧ Over p.value.2.2 last p.rest)
      (branches depth whole seen ts h) := by
  rw [branches]
  refine (lays_expr depth 0 ts).step fun test ts₁ h₁ htest => ?_
  dsimp only
  refine (lays_block depth ts₁).step fun body ts₂ h₂ hbody => ?_
  have hrow := htest.row.append hbody.row
  dsimp only
  split
  next => exact yields_pure ⟨ts₂, ts₁, collects_one hrow, .nil _, htest.suffix, hbody.extent⟩
  next ts₃ h₃ helse =>
    have helse := suffix_of_eatElse helse
    split
    next ts₄ h₄ heat =>
      have hif := (took_of_eatWord heat).suffix.trans helse
      refine (lays_branches depth whole ((test, body) :: seen) ts₄ _).imp
        fun p ⟨mid, last, hbranches, hotherwise, hlast, hstop⟩ => ?_
      exact ⟨mid, last, hbranches.cons (hrow.before hif), hotherwise,
        hlast.trans (hif.trans hrow.le), hstop⟩
    next =>
      refine (lays_block depth ts₃).step fun last ts₄ h₄ hlast => yields_pure ?_
      exact ⟨ts₂, ts₃, collects_one hrow, hlast.row.after helse, helse.trans hrow.le, hlast.extent⟩
termination_by 8 * ts.length + 6
decreasing_by all_goals omega

theorem lays_matchArms (depth : Nat) (whole : Tokens) (seen : List MatchArm) (ts : Tokens)
    (h : ts.length < whole.length) :
    Yields (fun p => Collects (fun a => [.arm a]) seen ts p.value p.rest)
      (matchArms depth whole seen ts h) := by
  have hskip := (skip separates ts).2
  have hafter := suffix_skip separates ts
  rw [matchArms]
  dsimp only
  split
  · exact yields_pure (collects_nil hafter)
  · refine (lays_pattern (skip separates ts).1).step fun pat ts₁ h₁ hpat => ?_
    dsimp only
    refine (took_expect _ _ _).step fun _ ts₂ h₂ harrow => ?_
    dsimp only
    split
    · refine (lays_block depth ts₂).step fun b ts₃ h₃ hb => ?_
      refine (lays_matchArms depth whole _ ts₃ _).imp fun p hp => ?_
      exact hp.cons ((row_arm (.block b) hpat harrow hb).after hafter)
    · refine (lays_expr depth 0 ts₂).step fun e ts₃ h₃ he => ?_
      refine (lays_matchArms depth whole _ ts₃ _).imp fun p hp => ?_
      exact hp.cons ((row_arm (.expr e) hpat harrow he).after hafter)
termination_by 8 * ts.length + 6
decreasing_by all_goals omega

end

end Sluice.Parser
