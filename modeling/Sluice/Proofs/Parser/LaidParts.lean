import Sluice.Parser.Declaration
import Sluice.Parser.Pattern
import Sluice.Proofs.Parser.Laid
import Sluice.Proofs.Parser.Yields

/-! Types, patterns and declarations lie on the tokens that they are read from. -/
namespace Sluice.Parser

variable {s : Span} {ts mid rest : Tokens}

/-! ### Tokens and names -/

theorem eq_cons_of_next {p : Parsed Token ts} (h : next ts = some p) : ts = p.value :: p.rest := by
  cases ts with
  | nil => cases h
  | cons t r =>
    cases h
    rfl

theorem took_of_eat {sign : Symbol} {p : Parsed Span ts} (h : eat sign ts = some p) :
    Took p.value ts p.rest := by
  unfold eat at h
  split at h
  · split at h
    · cases h
      exact ⟨_, rfl⟩
    · cases h
  · cases h

theorem took_of_eatWord {word : Keyword} {p : Parsed Span ts} (h : eatWord word ts = some p) :
    Took p.value ts p.rest := by
  unfold eatWord at h
  split at h
  · split at h
    · cases h
      exact ⟨_, rfl⟩
    · cases h
  · cases h

theorem took_expect (sign : Symbol) (what : String) (ts : Tokens) :
    Yields (fun p => Took p.value ts p.rest) (expect sign what ts) := by
  unfold expect
  split
  next p hp => exact yields_ok (took_of_eat hp)
  next => exact yields_error _

theorem took_expectWord (word : Keyword) (what : String) (ts : Tokens) :
    Yields (fun p => Took p.value ts p.rest) (expectWord word what ts) := by
  unfold expectWord
  split
  next p hp => exact yields_ok (took_of_eatWord hp)
  next => exact yields_error _

theorem Took.peek (h : Took s ts rest) : Took (peek ts).span ts rest := by
  obtain ⟨k, rfl⟩ := h
  exact ⟨k, rfl⟩

theorem took_peek (h : ts ≠ []) : Took (peek ts).span ts ts.tail := by
  cases ts with
  | nil => exact absurd rfl h
  | cons t ts => exact ⟨t.kind, rfl⟩

theorem suffix_skip (p : Token.Kind → Bool) (ts : Tokens) : (skip p ts).1 <:+ ts :=
  List.dropWhile_suffix _

theorem laid_ident {k : Token.Kind} {text : String} (hk : k = .ident text ∨ k = .typeName text) :
    Laid (.ident ⟨text, s⟩) (⟨k, s⟩ :: rest) rest :=
  .mk (Took.extent ⟨k, rfl⟩) ⟨k, rest, rfl, hk⟩ nofun

theorem lays_ident (ts : Tokens) : Yields (fun p => Laid (.ident p.value) ts p.rest) (ident ts) := by
  unfold ident
  split
  · exact yields_ok (laid_ident (.inl rfl))
  · exact yields_error _

theorem lays_typeName (ts : Tokens) :
    Yields (fun p => Laid (.ident p.value) ts p.rest) (typeName ts) := by
  unfold typeName
  split
  · exact yields_ok (laid_ident (.inl rfl))
  · exact yields_ok (laid_ident (.inr rfl))
  · exact yields_error _

/-- A name starts where its token does. -/
theorem Laid.span_peek {x : Ident} (h : Laid (.ident x) ts rest) : (peek ts).span = x.span := by
  obtain ⟨-, ⟨k, r, rfl, -⟩, -⟩ := h
  rfl

/-! ### Types and parameters -/

mutual

theorem lays_typeExpr (ts : Tokens) :
    Yields (fun p => Laid (.type p.value) ts p.rest) (typeExpr ts) := by
  rw [typeExpr]
  dsimp only
  split
  next ts₁ h₁ heat =>
    have hstart := (took_of_eatWord heat).peek
    refine (took_expect _ _ _).step fun _ ts₂ h₂ hopen => ?_
    dsimp only
    refine (lays_typeList .rparen ts₁ [] ts₂ h₂).step fun params ts₃ h₃ hparams => ?_
    dsimp only
    refine (took_expect _ _ _).step fun _ ts₄ h₄ hclose => ?_
    dsimp only
    refine (took_expect _ _ _).step fun _ ts₅ h₅ harrow => ?_
    dsimp only
    refine (lays_typeExpr ts₅).step fun result ts₆ h₆ hresult => yields_pure ?_
    have hrow := hparams.rowMap.widen hopen.suffix (harrow.suffix.trans hclose.suffix)
    exact (hstart.covers.finish hrow hresult).laid rfl rfl trivial
  next =>
    split
    next ts₁ h₁ heat =>
      have hstart := (took_of_eat heat).peek
      refine (lays_typeList .rparen ts [] ts₁ h₁).step fun elems ts₂ h₂ helems => ?_
      refine (took_expect _ _ _).step fun stop ts₃ h₃ hclose => yields_pure ?_
      exact (hstart.covers.close helems.rowMap hclose).laid rfl rfl trivial
    next =>
      refine (lays_typeName ts).step fun name ts₁ h₁ hname => ?_
      rw [hname.span_peek]
      dsimp only
      split
      next ts₂ h₂ heat =>
        refine (lays_typeList .greater ts₁ [] ts₂ h₂).step fun args ts₃ h₃ hargs => ?_
        refine (took_expect _ _ _).step fun stop ts₄ h₄ hclose => yields_pure ?_
        have hrow := hargs.rowMap.after (took_of_eat heat).suffix
        exact (hname.covers.close hrow hclose).laid rfl rfl trivial
      next =>
        refine yields_pure (Covers.laid ⟨?_, hname.row⟩ rfl rfl trivial)
        exact hname.extent.through (List.suffix_refl _) hname.extent (List.suffix_refl _)
termination_by 2 * ts.length
decreasing_by all_goals omega

theorem lays_typeList (close : Symbol) (whole : Tokens) (seen : List TypeExpr) (ts : Tokens)
    (h : ts.length < whole.length) :
    Yields (fun p => Collects (fun t => [.type t]) seen ts p.value p.rest)
      (typeList close whole seen ts h) := by
  rw [typeList]
  split
  · exact yields_pure (collects_nil (List.suffix_refl _))
  · refine (lays_typeExpr ts).step fun t ts₁ h₁ ht => ?_
    dsimp only
    split
    next ts₂ h₂ heat =>
      refine (lays_typeList close whole (t :: seen) ts₂ _).imp fun p hp => ?_
      exact hp.cons (ht.row.before (took_of_eat heat).suffix)
    next => exact yields_pure (collects_one ht.row)
termination_by 2 * ts.length + 1
decreasing_by all_goals omega

end

inductive TypeAfter : Option TypeExpr → Tokens → Tokens → Prop
  | none (ts : Tokens) : TypeAfter none ts ts
  | some {t : TypeExpr} {ts mid rest : Tokens} (hmid : mid <:+ ts) (ht : Laid (.type t) mid rest) :
      TypeAfter (some t) ts rest

theorem TypeAfter.row {type : Option TypeExpr} (h : TypeAfter type ts rest) :
    Row Laid (type.toList.map .type) ts rest := by
  cases h with
  | none => exact .nil _
  | some hmid ht => exact ht.row.after hmid

theorem lays_typeAfter (mark : Symbol) (whole ts : Tokens) (h : ts.length < whole.length) :
    Yields (fun p => TypeAfter p.value ts p.rest) (typeAfter mark whole ts h) := by
  rw [typeAfter]
  split
  next ts₁ h₁ heat =>
    refine (lays_typeExpr ts₁).step fun t ts₂ h₂ ht => yields_pure ?_
    exact .some (took_of_eat heat).suffix ht
  next => exact yields_pure (.none ts)

theorem laid_param {name : Ident} {type : Option TypeExpr} (hname : Laid (.ident name) ts mid) :
    TypeAfter type mid rest → Laid (.param ⟨name, type, match type with
      | some t => name.span.through t.span
      | none => name.span⟩) ts rest := by
  intro htype
  cases htype with
  | none => exact hname.covers.laid rfl rfl trivial
  | some hmid ht => exact (hname.covers.finish (.of_suffix hmid) ht).laid rfl rfl trivial

theorem lays_paramList (whole : Tokens) (seen : List Param) (ts : Tokens)
    (h : ts.length < whole.length) :
    Yields (fun p => Collects (fun q => [.param q]) seen ts p.value p.rest)
      (paramList whole seen ts h) := by
  rw [paramList]
  split
  · exact yields_pure (collects_nil (List.suffix_refl _))
  · refine (lays_ident ts).step fun name ts₁ h₁ hname => ?_
    dsimp only
    split
    · exact yields_error _
    · refine (lays_typeAfter .colon ts ts₁ h₁).step fun type ts₂ h₂ htype => ?_
      have hparam := laid_param hname htype
      dsimp only
      split
      next ts₃ h₃ heat =>
        refine (lays_paramList whole _ ts₃ _).imp fun p hp => ?_
        exact hp.cons (hparam.row.before (took_of_eat heat).suffix)
      next => exact yields_pure (collects_one hparam.row)
termination_by ts.length
decreasing_by omega

theorem lays_params (ts : Tokens) :
    Yields (fun p => Row Laid (p.value.map .param) ts p.rest) (params ts) := by
  rw [params]
  refine (took_expect _ _ _).step fun _ ts₁ h₁ hopen => ?_
  refine (lays_paramList ts [] ts₁ h₁).step fun ps ts₂ h₂ hps => ?_
  refine (took_expect _ _ _).step fun _ ts₃ h₃ hclose => yields_pure ?_
  exact hps.rowMap.widen hopen.suffix hclose.suffix

theorem lays_nameList (whole : Tokens) (seen : List Ident) (ts : Tokens)
    (h : ts.length < whole.length) :
    Yields (fun p => Collects (fun x => [.ident x]) seen ts p.value p.rest)
      (nameList whole seen ts h) := by
  rw [nameList]
  refine (lays_typeName ts).step fun name ts₁ h₁ hname => ?_
  dsimp only
  split
  next ts₂ h₂ heat =>
    refine (lays_nameList whole (name :: seen) ts₂ _).imp fun p hp => ?_
    exact hp.cons (hname.row.before (took_of_eat heat).suffix)
  next => exact yields_pure (collects_one hname.row)
termination_by ts.length
decreasing_by omega

theorem lays_derivesClause (whole ts : Tokens) (h : ts.length < whole.length) :
    Yields (fun p => Row Laid (p.value.map .ident) ts p.rest) (derivesClause whole ts h) := by
  rw [derivesClause]
  split
  next => exact yields_pure (.nil _)
  next ts₁ h₁ hderives =>
    have hword := (took_of_eatWord hderives).suffix
    split
    next =>
      exact (lays_nameList whole [] ts₁ _).imp fun p hp => hp.rowMap.after hword
    next ts₂ h₂ heat =>
      refine (lays_nameList whole [] ts₂ _).step fun names ts₃ h₃ hnames => ?_
      refine (took_expect _ _ _).step fun _ ts₄ h₄ hclose => yields_pure ?_
      exact hnames.rowMap.widen ((took_of_eat heat).suffix.trans hword) hclose.suffix

/-! ### Declarations -/

theorem lays_structFields (whole : Tokens) (seen : List FieldDef) (ts : Tokens)
    (h : ts.length < whole.length) :
    Yields (fun p => Collects FieldDef.pieces seen ts p.value p.rest)
      (structFields whole seen ts h) := by
  have hskip := (skip separates ts).2
  have hafter := suffix_skip separates ts
  rw [structFields]
  dsimp only
  split
  · exact yields_pure (collects_nil hafter)
  · refine (lays_ident _).step fun name ts₁ h₁ hname => ?_
    dsimp only
    split
    · exact yields_error _
    · refine (took_expect _ _ _).step fun _ ts₂ h₂ hcolon => ?_
      dsimp only
      refine (lays_typeExpr ts₂).step fun type ts₃ h₃ htype => ?_
      refine (lays_structFields whole _ ts₃ _).imp fun p hp => hp.cons ?_
      exact (hname.row.append (htype.row.after hcolon.suffix)).after hafter
termination_by ts.length
decreasing_by omega

/-- A declaration between braces, after its name and the typeclasses that are derived for it. -/
theorem Took.covers_braces {name : Ident} {derives : List Ident} {members : List Piece} {stop other : Span}
    {ts₁ ts₂ ts₃ ts₄ ts₅ ts₆ : Tokens} (hstart : Took s ts ts₁) (hname : Laid (.ident name) ts₁ ts₂)
    (hderives : Row Laid (derives.map .ident) ts₂ ts₃) (hopen : Took other ts₃ ts₄)
    (hmembers : Row Laid members ts₄ ts₅) (hclose : Took stop ts₅ ts₆) :
    Covers (s.through stop) (.ident name :: (derives.map .ident ++ members)) ts ts₆ :=
  hstart.covers.close (hname.row.append (hderives.append (hmembers.after hopen.suffix))) hclose

theorem lays_structDef (ts : Tokens) :
    Yields (fun p => Laid (.stmt (.struct p.value)) ts p.rest) (structDef ts) := by
  rw [structDef]
  refine (took_expectWord _ _ _).step fun start ts₁ h₁ hstart => ?_
  refine (lays_typeName ts₁).step fun name ts₂ h₂ hname => ?_
  refine (lays_derivesClause ts₁ ts₂ h₂).step fun derives ts₃ h₃ hderives => ?_
  refine (took_expect _ _ _).step fun _ ts₄ h₄ hopen => ?_
  refine (lays_structFields ts₃ [] ts₄ h₄).step fun fields ts₅ h₅ hfields => ?_
  refine (took_expect _ _ _).step fun stop ts₆ h₆ hclose => yields_pure ?_
  exact (hstart.covers_braces hname hderives hopen hfields.row hclose).laid rfl rfl trivial

theorem lays_payload {name : Ident} (whole ts : Tokens) (h : ts.length < whole.length)
    (hname : Laid (.ident name) whole ts) :
    Yields (fun p => Row Laid (p.value.toList.map .type) whole p.rest ∧ p.rest <:+ ts)
      (payload name whole ts h) := by
  rw [payload]
  split
  next => exact yields_pure ⟨.of_suffix hname.suffix, List.suffix_refl _⟩
  next ts₁ h₁ heat =>
    have hopen := (took_of_eat heat).suffix
    refine (lays_typeList .rparen ts [] ts₁ h₁).step fun types ts₂ h₂ htypes => ?_
    refine (took_expect _ _ _).step fun stop ts₃ h₃ hclose => ?_
    have hrow : Row Laid (types.map .type) ts ts₂ := htypes.rowMap.after hopen
    have hrest : ts₃ <:+ ts := hclose.suffix.trans hrow.le
    dsimp only
    split
    · exact yields_error _
    next => exact yields_pure ⟨hrow.widen hname.suffix hclose.suffix, hrest⟩
    next =>
      -- The name is no part of the tuple, which starts with it all the same.
      have hstart : Covers name.span [] whole ts := ⟨hname.extent, .of_suffix hname.suffix⟩
      have htuple : Laid (.type (.tuple types (name.span.through stop))) whole ts₃ :=
        (hstart.close hrow hclose).laid rfl rfl trivial
      exact yields_pure ⟨htuple.row, hrest⟩

theorem lays_enumMembers (whole : Tokens) (seen : List EnumMember) (ts : Tokens)
    (h : ts.length < whole.length) :
    Yields (fun p => Collects (fun m => [.ident m.name]) seen ts p.value p.rest ∧
        Collects (fun m => m.payload.toList.map .type) seen ts p.value p.rest)
      (enumMembers whole seen ts h) := by
  have hskip := (skip separates ts).2
  have hafter := suffix_skip separates ts
  rw [enumMembers]
  dsimp only
  split
  · exact yields_pure ⟨collects_nil hafter, collects_nil hafter⟩
  · refine (lays_ident _).step fun name ts₁ h₁ hname => ?_
    dsimp only
    split
    · exact yields_error _
    · refine (lays_payload _ ts₁ h₁ hname).step fun type ts₂ h₂ ⟨htype, hrest⟩ => ?_
      refine (lays_enumMembers whole _ ts₂ _).imp fun p ⟨hnames, htypes⟩ => ?_
      exact ⟨hnames.cons (hname.row.widen hafter hrest), htypes.cons (htype.after hafter)⟩
termination_by ts.length
decreasing_by omega

theorem lays_enumDef (ts : Tokens) :
    Yields (fun p => Laid (.stmt (.enum p.value)) ts p.rest) (enumDef ts) := by
  rw [enumDef]
  refine (took_expectWord _ _ _).step fun start ts₁ h₁ hstart => ?_
  refine (lays_typeName ts₁).step fun name ts₂ h₂ hname => ?_
  refine (lays_derivesClause ts₁ ts₂ h₂).step fun derives ts₃ h₃ hderives => ?_
  refine (took_expect _ _ _).step fun _ ts₄ h₄ hopen => ?_
  refine (lays_enumMembers ts₃ [] ts₄ h₄).step fun members ts₅ h₅ ⟨hnames, htypes⟩ => ?_
  refine (took_expect _ _ _).step fun stop ts₆ h₆ hclose => yields_pure ?_
  have hcovers := hstart.covers_braces hname hderives hopen hnames.rowMap hclose
  have hbefore := hopen.suffix.trans (hderives.le.trans (hname.suffix.trans hstart.suffix))
  refine .mk hcovers.extent trivial (List.forall_mem_cons.2 ⟨hcovers.row, ?_⟩)
  exact List.forall_mem_singleton.2 (htypes.row.widen hbefore hclose.suffix)

theorem lays_methodSigs (whole : Tokens) (seen : List MethodSig) (ts : Tokens)
    (h : ts.length < whole.length) :
    Yields (fun p => Collects MethodSig.pieces seen ts p.value p.rest) (methodSigs whole seen ts h) := by
  have hskip := (skip separates ts).2
  have hafter := suffix_skip separates ts
  rw [methodSigs]
  dsimp only
  split
  · exact yields_pure (collects_nil hafter)
  · refine (took_expectWord _ _ _).step fun _ ts₁ h₁ hword => ?_
    dsimp only
    refine (lays_ident ts₁).step fun name ts₂ h₂ hname => ?_
    dsimp only
    refine (lays_params ts₂).step fun ps ts₃ h₃ hps => ?_
    dsimp only
    split
    · exact yields_error _
    · refine (lays_typeAfter .arrow ts₂ ts₃ h₃).step fun result ts₄ h₄ hresult => ?_
      refine (lays_methodSigs whole _ ts₄ _).imp fun p hp => hp.cons ?_
      exact (hname.row.append (hps.append hresult.row)).after (hword.suffix.trans hafter)
termination_by ts.length
decreasing_by omega

theorem lays_typeclassDef (ts : Tokens) :
    Yields (fun p => Laid (.stmt (.typeclass p.value)) ts p.rest) (typeclassDef ts) := by
  rw [typeclassDef]
  refine (took_expectWord _ _ _).step fun start ts₁ h₁ hstart => ?_
  refine (lays_typeName ts₁).step fun name ts₂ h₂ hname => ?_
  refine (lays_derivesClause ts₁ ts₂ h₂).step fun derives ts₃ h₃ hderives => ?_
  refine (took_expect _ _ _).step fun _ ts₄ h₄ hopen => ?_
  refine (lays_methodSigs ts₃ [] ts₄ h₄).step fun methods ts₅ h₅ hmethods => ?_
  refine (took_expect _ _ _).step fun stop ts₆ h₆ hclose => yields_pure ?_
  exact (hstart.covers_braces hname hderives hopen hmethods.row hclose).laid rfl rfl trivial

theorem lays_importNames (whole : Tokens) (seen : List Ident) (ts : Tokens)
    (h : ts.length < whole.length) :
    Yields (fun p => Collects (fun x => [.ident x]) seen ts p.value p.rest)
      (importNames whole seen ts h) := by
  have hskip := (skip separates ts).2
  have hafter := suffix_skip separates ts
  rw [importNames]
  dsimp only
  split
  · exact yields_pure (collects_nil hafter)
  · refine (lays_typeName _).step fun name ts₁ h₁ hname => ?_
    exact (lays_importNames whole _ ts₁ _).imp fun p hp => hp.cons (hname.row.after hafter)
termination_by ts.length
decreasing_by omega

theorem lays_importStmt (ts : Tokens) :
    Yields (fun p => Laid (.stmt p.value) ts p.rest) (importStmt ts) := by
  rw [importStmt]
  refine (took_expectWord _ _ _).step fun start ts₁ h₁ hstart => ?_
  refine (lays_ident ts₁).step fun source ts₂ h₂ hsource => ?_
  dsimp only
  split
  next => exact yields_pure ((hstart.covers.finish (.nil _) hsource).laid rfl rfl trivial)
  next ts₃ h₃ heat =>
    refine (lays_importNames ts₂ [] ts₃ h₃).step fun names ts₄ h₄ hnames => ?_
    refine (took_expect _ _ _).step fun stop ts₅ h₅ hclose => yields_pure ?_
    have hrow := hsource.row.append (hnames.rowMap.after (took_of_eat heat).suffix)
    exact (hstart.covers.close hrow hclose).laid rfl rfl trivial

/-! ### Patterns -/

theorem lays_negative (start : Span) (whole ts : Tokens) (hstart : Took start whole ts) :
    Yields (fun p => Laid (.pattern p.value) whole p.rest) (negative start ts) := by
  have hnumber (l : Literal) {p : Parsed Token ts} (hnext : next ts = some p) :
      Laid (.pattern (.literal l (start.through p.value.span))) whole p.rest := by
    have hstop : Took p.value.span ts p.rest := ⟨p.value.kind, eq_cons_of_next hnext⟩
    exact .mk (hstart.extent.through hstop.suffix hstop.extent hstart.suffix) trivial nofun
  unfold negative
  split
  next hnext => exact yields_ok (hnumber _ hnext)
  next hnext => exact yields_ok (hnumber _ hnext)
  next => exact yields_error _

mutual

/-- A pattern in parentheses is laid without them. -/
theorem lays_pattern (ts : Tokens) :
    Yields (fun p => Row Laid [.pattern p.value] ts p.rest) (pattern ts) := by
  rw [pattern]
  split
  next kind span r h hnext =>
    have hstart : Took span ts r := ⟨_, eq_cons_of_next hnext⟩
    split
    · exact yields_pure (Laid.row (.mk hstart.extent trivial nofun))
    · exact yields_pure (Laid.row (.mk hstart.extent trivial nofun))
    · refine (took_expect _ _ _).step fun _ ts₁ h₁ hopen => ?_
      dsimp only
      refine (lays_pattern ts₁).step fun inner ts₂ h₂ hinner => ?_
      refine (took_expect _ _ _).step fun stop ts₃ h₃ hclose => yields_pure (Laid.row ?_)
      exact (hstart.covers.close (hinner.after hopen.suffix) hclose).laid rfl rfl trivial
    next text _ _ _ =>
      have hname : Laid (.ident ⟨text, span⟩) ts r := by
        rw [eq_cons_of_next hnext]
        exact laid_ident (.inl rfl)
      dsimp only
      split
      next ts₁ h₁ heat =>
        refine (lays_patternList r [] false ts₁ h₁).step ?_
        rintro ⟨fields, _⟩ ts₂ h₂ hfields
        refine (took_expect _ _ _).step fun stop ts₃ h₃ hclose => yields_pure (Laid.row ?_)
        have hrow := hfields.rowMap.after (took_of_eat heat).suffix
        exact (hname.covers.close hrow hclose).laid rfl rfl trivial
      next =>
        split
        next ts₁ h₁ heat =>
          have hopen := (took_of_eat heat).suffix
          refine (lays_fieldPatterns r [] ts₁ h₁).step fun fields ts₂ h₂ ⟨hpatterns, hnames⟩ => ?_
          refine (took_expect _ _ _).step fun stop ts₃ h₃ hclose => yields_pure (Laid.row ?_)
          have hcovers := hname.covers.close (hpatterns.rowMap.after hopen) hclose
          refine .mk hcovers.extent trivial (List.forall_mem_cons.2 ⟨hcovers.row, ?_⟩)
          exact List.forall_mem_singleton.2
            (hnames.rowMap.widen (hopen.trans hname.suffix) hclose.suffix)
        next => exact yields_pure (Laid.row (hname.covers.laid rfl rfl trivial))
    · refine (lays_patternList ts [] false r h).step ?_
      rintro ⟨elems, trailing⟩ ts₁ h₁ helems
      dsimp only
      refine (took_expect _ _ _).step fun stop ts₂ h₂ hclose => ?_
      dsimp only
      split
      · exact yields_error _
      next => exact yields_pure (helems.rowMap.widen hstart.suffix hclose.suffix)
      next =>
        exact yields_pure (Laid.row ((hstart.covers.close helems.rowMap hclose).laid rfl rfl trivial))
    · exact (lays_negative span ts r hstart).step fun p ts₁ h₁ hp => yields_pure hp.row
    · split
      · exact yields_pure (Laid.row (.mk hstart.extent trivial nofun))
      · exact yields_error _
  next => exact yields_error _
termination_by 2 * ts.length
decreasing_by all_goals omega

theorem lays_patternList (whole : Tokens) (seen : List Pattern) (trailing : Bool) (ts : Tokens)
    (h : ts.length < whole.length) :
    Yields (fun p => Collects (fun q => [.pattern q]) seen ts p.value.1 p.rest)
      (patternList whole seen trailing ts h) := by
  rw [patternList]
  split
  · exact yields_pure (collects_nil (List.suffix_refl _))
  · refine (lays_pattern ts).step fun p ts₁ h₁ hp => ?_
    dsimp only
    split
    next ts₂ h₂ heat =>
      refine (lays_patternList whole (p :: seen) true ts₂ _).imp fun q hq => ?_
      exact hq.cons (hp.before (took_of_eat heat).suffix)
    next => exact yields_pure (collects_one hp)
termination_by 2 * ts.length + 1
decreasing_by all_goals omega

theorem lays_fieldPatterns (whole : Tokens) (seen : List (Ident × Pattern)) (ts : Tokens)
    (h : ts.length < whole.length) :
    Yields (fun p => Collects (fun f => [.pattern f.2]) seen ts p.value p.rest ∧
        Collects (fun f => [.ident f.1]) seen ts p.value p.rest) (fieldPatterns whole seen ts h) := by
  have hskip := (skip separates ts).2
  have hafter := suffix_skip separates ts
  rw [fieldPatterns]
  dsimp only
  split
  · exact yields_pure ⟨collects_nil hafter, collects_nil hafter⟩
  · refine (lays_ident _).step fun name ts₁ h₁ hname => ?_
    dsimp only
    split
    next ts₂ h₂ heat =>
      have hcolon := (took_of_eat heat).suffix
      refine (lays_pattern ts₂).step fun p ts₃ h₃ hp => ?_
      refine (lays_fieldPatterns whole ((name, p) :: seen) ts₃ _).imp
        fun q ⟨hpatterns, hnames⟩ => ⟨hpatterns.cons ?_, hnames.cons ?_⟩
      · exact hp.after (hcolon.trans (hname.suffix.trans hafter))
      · exact hname.row.widen hafter (hp.le.trans hcolon)
    next =>
      have hpattern : Laid (.pattern (.name name)) (skip separates ts).1 ts₁ :=
        hname.covers.laid rfl rfl trivial
      refine (lays_fieldPatterns whole ((name, .name name) :: seen) ts₁ _).imp
        fun q ⟨hpatterns, hnames⟩ => ?_
      exact ⟨hpatterns.cons (hpattern.row.after hafter), hnames.cons (hname.row.after hafter)⟩
termination_by 2 * ts.length + 1
decreasing_by all_goals omega

end

end Sluice.Parser
