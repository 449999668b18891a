import Sluice.Parser.Module
import Sluice.Proofs.Ast.Respan
import Sluice.Proofs.Token.Below

/-! Two lists of tokens that are parsed side by side. The second one has the tokens of the first one with
other spans, up to an end of a statement after which the first one ends and the second one may go on. What
is read from the first one is read from the second one too; meanwhile, brackets are closed in the order in
which they were opened. -/
namespace Sluice.Parser

def Through (f : Span → Span) : Prop := ∀ a b : Span, f (a.through b) = (f a).through (f b)

/-- The second list has the tokens of the first one, its spans changed by `f`. Where `more` is given, the
first list ends after an end of a statement and the second one goes on with `more` there. -/
inductive InStep (f : Span → Span) : Option Tokens → Tokens → Tokens → Prop
  | nil : InStep f none [] []
  | cons {more : Option Tokens} {ts ts' : Tokens} (t : Token) (h : InStep f more ts ts') :
      InStep f more (t :: ts) (t.respan f :: ts')
  | stop {t t' last : Token} {more : Tokens} (ht : endsStmt t.kind = true) (ht' : t'.kind = t.kind)
      (hlast : last.kind = .eof) (hmore : eatWord .else more = none) :
      InStep f (some more) [t, last] (t' :: more)

/-- A statement may end with this token, or a line that ends with it is empty. -/
def rests : Token.Kind → Bool
  | .symbol .greater | .symbol .lbrace => false
  | k => endsStmt k || !k.wantsOperand

theorem endsStmt_or_closed {k : Token.Kind} (h : rests k = true) (l : LineState) :
    endsStmt k = true ∨ l.leavesOpen k = false := by
  unfold rests at h
  split at h
  · cases h
  · cases h
  next hgreater hbrace =>
    cases hends : endsStmt k with
    | true => exact .inl rfl
    | false =>
      refine .inr ?_
      rw [hends, Bool.false_or] at h
      unfold LineState.leavesOpen
      split
      · cases hends
      · cases hends
      · exact (hbrace rfl).elim
      · exact (hgreater rfl).elim
      · exact Bool.not_eq_true' _ ▸ h

/-- `ts` is what is left of `all` at a point before its end where the brackets `ds` are open; unless `loose`, a
statement may end there. -/
structure Reach (all : Tokens) (loose : Bool) (ds : List Delim) (ts : Tokens) : Prop where
  used : ∃ used, all = used ++ ts ∧ used.foldl (fun ds t => LineState.nextDelims ds t.kind) [] = ds ∧
    (∀ t ∈ used, t.kind ≠ .eof) ∧ (loose = false → ∀ t ∈ used.getLast?, rests t.kind = true)

structure Sync (f : Span → Span) (more : Option Tokens) (all : Tokens) (loose : Bool) (ds : List Delim)
    (ts ts' : Tokens) : Prop where
  step : InStep f more ts ts'
  reach : Reach all loose ds ts

def Spent (ts : Tokens) : Prop := ∀ t ∈ ts.head?, t.kind = .eof ∨ endsStmt t.kind = true

variable {f : Span → Span} {more : Option Tokens} {all ts ts' : Tokens} {loose : Bool} {ds : List Delim}

namespace InStep

theorem map (f : Span → Span) (ts : Tokens) : InStep f none ts (ts.map (Token.respan f)) := by
  induction ts with
  | nil => exact .nil
  | cons t ts ih => exact .cons t ih

theorem append_left (l : Tokens) (h : InStep f more ts ts') :
    InStep f more (l ++ ts) (l.map (Token.respan f) ++ ts') := by
  induction l with
  | nil => exact h
  | cons t l ih => exact .cons t ih

theorem spent_or_cons (h : InStep f more ts ts') : Spent ts ∨ ∃ t r r', ts = t :: r ∧
    ts' = t.respan f :: r' ∧ t.kind ≠ .eof ∧ InStep f more r r' := by
  cases h with
  | nil => exact .inl nofun
  | cons t h =>
    by_cases ht : t.kind = .eof
    · refine .inl ?_
      rintro _ ⟨⟩
      exact .inl ht
    · exact .inr ⟨t, _, _, rfl, rfl, ht, h⟩
  | stop ht =>
    refine .inl ?_
    rintro _ ⟨⟩
    exact .inr ht

theorem spent_or_peek_span (h : InStep f more ts ts') : Spent ts ∨ (peek ts').span = f (peek ts).span := by
  rcases h.spent_or_cons with hspent | ⟨t, r, r', rfl, rfl, -, -⟩
  · exact .inl hspent
  · exact .inr rfl

theorem peek_kind (h : InStep f more ts ts') : (peek ts').kind = (peek ts).kind := by
  cases h with
  | nil => rfl
  | cons => rfl
  | stop _ ht' => exact ht'

/-- What ends statements is skipped on both sides, or the first list runs out and the second one goes on. -/
theorem skip {p : Token.Kind → Bool} (hp : ∀ k, endsStmt k = true → p k = true) (heof : p .eof = false)
    (h : InStep f more ts ts') :
    InStep f more (skip p ts) (skip p ts') ∨
      (∃ last, (skip p ts).1 = [last] ∧ last.kind = .eof) ∧
        ∃ rest, more = some rest ∧ rest.length < ts'.length ∧ (skip p ts').1 = (skip p rest).1 := by
  induction h with
  | nil => exact .inl .nil
  | @cons more ts ts' t h ih =>
    simp only [Parser.skip, List.dropWhile_cons] at ih ⊢
    split
    next ht =>
      rw [if_pos (by simpa [Token.respan] using ht)]
      rcases ih with ih | ⟨hlast, rest, hrest, hlen, hskip⟩
      · exact .inl ih
      · exact .inr ⟨hlast, rest, hrest, Nat.lt_succ_of_lt hlen, hskip⟩
    next ht =>
      rw [if_neg (by simpa [Token.respan] using ht)]
      exact .inl (.cons t h)
  | @stop t t' last more ht ht' hlast hmore =>
    refine .inr ⟨⟨last, ?_, hlast⟩, more, rfl, Nat.lt_succ_self _, ?_⟩
    · simp [Parser.skip, hp _ ht, hlast, heof]
    · simp [Parser.skip, hp _ ht, ht']

end InStep

namespace Reach

theorem loosen (h : Reach all loose ds ts) : Reach all true ds ts := by
  obtain ⟨used, hall, hds, heof, -⟩ := h
  exact ⟨used, hall, hds, heof, nofun⟩

theorem next {t : Token} (h : Reach all loose ds (t :: ts)) (ht : t.kind ≠ .eof) :
    Reach all (!rests t.kind) (LineState.nextDelims ds t.kind) ts := by
  obtain ⟨used, hall, hds, heof, -⟩ := h
  refine ⟨used ++ [t], by simp [hall], by simp [hds], ?_, fun hrests u hu => ?_⟩
  · exact List.forall_mem_append.2 ⟨heof, List.forall_mem_singleton.2 ht⟩
  · rw [List.getLast?_concat, Option.mem_some_iff] at hu
    rw [← hu]
    simpa using hrests

theorem skip {p : Token.Kind → Bool} (hdelims : ∀ k, p k = true → LineState.nextDelims ds k = ds)
    (hrests : loose = false → ∀ k, p k = true → rests k = true) (hp : p .eof = false)
    (h : Reach all loose ds ts) : Reach all loose ds (skip p ts) := by
  induction ts with
  | nil => exact h
  | cons t ts ih =>
    simp only [Parser.skip, List.dropWhile_cons] at ih ⊢
    split
    next ht =>
      refine ih ?_
      have hnext := h.next fun hk => by simp [hk, hp] at ht
      rw [hdelims _ ht] at hnext
      cases loose with
      | true => exact hnext.loosen
      | false => rwa [hrests rfl _ ht] at hnext
    next => exact h

end Reach

theorem kind_of_endsStmt {k : Token.Kind} (h : endsStmt k = true) :
    k = .stmtEnd ∨ k = .symbol .semicolon := by
  unfold endsStmt at h
  split at h
  · exact .inl rfl
  · exact .inr rfl
  · cases h

theorem nextDelims_of_separates {k : Token.Kind} (h : separates k = true) (ds : List Delim) :
    LineState.nextDelims ds k = ds := by
  unfold separates at h
  split at h
  · rfl
  · rcases kind_of_endsStmt h with rfl | rfl <;> rfl

theorem separates_of_endsStmt {k : Token.Kind} (h : endsStmt k = true) : separates k = true := by
  unfold separates
  split
  · rfl
  · exact h

theorem rests_of_endsStmt {k : Token.Kind} (h : endsStmt k = true) : rests k = true := by
  rcases kind_of_endsStmt h with rfl | rfl <;> rfl

theorem Reach.skip_endsStmt (h : Reach all loose ds ts) : Reach all loose ds (Parser.skip endsStmt ts) :=
  h.skip (fun _ hk => nextDelims_of_separates (separates_of_endsStmt hk) ds)
    (fun _ _ hk => rests_of_endsStmt hk) rfl

namespace Sync

theorem loosen (h : Sync f more all loose ds ts ts') : Sync f more all true ds ts ts' :=
  ⟨h.step, h.reach.loosen⟩

theorem next {t : Token} (h : Sync f more all loose ds (t :: ts) ts') (r' : Tokens)
    (ht : t.kind ≠ .eof) (hstep : InStep f more ts r') :
    Sync f more all (!rests t.kind) (LineState.nextDelims ds t.kind) ts r' := ⟨hstep, h.reach.next ht⟩

/-- What separates the members of a list is skipped on both sides, or the first list runs out. -/
theorem skip_separates (h : Sync f more all loose ds ts ts') :
    Sync f more all true ds (skip separates ts) (skip separates ts') ∨
      Spent (skip separates ts).1 := by
  have hreach : Reach all true ds (skip separates ts) :=
    h.loosen.reach.skip (fun k hk => nextDelims_of_separates hk ds) nofun rfl
  rcases h.step.skip (p := separates) (fun k hk => separates_of_endsStmt hk) rfl with hstep | ⟨⟨t, ht, hk⟩, -⟩
  · exact .inl ⟨hstep, hreach⟩
  · refine .inr ?_
    rw [ht]
    rintro _ ⟨⟩
    exact .inl hk

/-- Ends of statements are skipped on both sides, or the first list runs out and the second one goes on. -/
theorem skip_endsStmt (h : Sync f more all loose ds ts ts') :
    Sync f more all loose ds (skip endsStmt ts) (skip endsStmt ts') ∨
      (peek (skip endsStmt ts).1).kind = .eof ∧ ∃ rest, more = some rest ∧ rest.length < ts'.length ∧
        (skip endsStmt ts').1 = (skip endsStmt rest).1 := by
  rcases h.step.skip (p := endsStmt) (fun k hk => hk) rfl with hstep | ⟨⟨t, ht, hk⟩, hrest⟩
  · exact .inl ⟨hstep, h.reach.skip_endsStmt⟩
  · refine .inr ⟨?_, hrest⟩
    rw [ht]
    exact hk

end Sync

/-! ### Results -/

/-- What the first computation gives, the second one gives too, up to `R`. -/
def Carries {α β : Type} (R : α → β → Prop) (x : Except ParseError α) (y : Except ParseError β) : Prop :=
  ∀ a, x = .ok a → ∃ b, y = .ok b ∧ R a b

section Carries

variable {α β α' β' : Type} {R : α → β → Prop} {R' : α' → β' → Prop} {x : Except ParseError α}
  {y : Except ParseError β} {g : α → Except ParseError α'} {g' : β → Except ParseError β'}

theorem carries_ok {a : α} {b : β} (h : R a b) : Carries R (.ok a) (.ok b) := by
  rintro _ ⟨⟩
  exact ⟨b, rfl, h⟩

theorem carries_pure {a : α} {b : β} (h : R a b) : Carries R (pure a) (pure b) := carries_ok h

theorem carries_error (e : ParseError) : Carries R (.error e) y := nofun

theorem Carries.bind (hx : Carries R x y) (hg : ∀ a b, R a b → Carries R' (g a) (g' b)) :
    Carries R' (x >>= g) (y >>= g') := by
  cases x with
  | error e => exact nofun
  | ok a =>
    obtain ⟨b, rfl, hab⟩ := hx a rfl
    exact hg a b hab

end Carries

/-- What was read on the second side is what was read on the first side, its spans changed, and both are at
the same point afterwards. -/
structure Agrees (f : Span → Span) (more : Option Tokens) (all : Tokens) (loose : Bool) (ds : List Delim)
    {α : Type} (g : α → α) {whole whole' : Tokens} (p : Parsed α whole) (p' : Parsed α whole') : Prop where
  value : p'.value = g p.value
  sync : Sync f more all loose ds p.rest p'.rest

theorem Carries.step {f : Span → Span} {more : Option Tokens} {all : Tokens} {loose : Bool} {ds : List Delim}
    {α β γ : Type} {g : α → α} {whole whole' : Tokens} {x : Result α whole} {y : Result α whole'}
    {R : β → γ → Prop} {k : Parsed α whole → Except ParseError β} {k' : Parsed α whole' → Except ParseError γ}
    (hx : Carries (Agrees f more all loose ds g) x y)
    (hk : ∀ v r h r' h', Sync f more all loose ds r r' → Carries R (k ⟨v, r, h⟩) (k' ⟨g v, r', h'⟩)) :
    Carries R (x >>= k) (y >>= k') := by
  refine hx.bind ?_
  rintro ⟨v, r, h⟩ ⟨v', r', h'⟩ ⟨hv, hsync⟩
  obtain rfl : v' = g v := hv
  exact hk v r h r' h' hsync

/-! ### Single tokens -/

theorem eat_cases (s : Symbol) (hs : s ≠ .semicolon) (h : Sync f more all loose ds ts ts') :
    (eat s ts = none ∧ eat s ts' = none) ∨ ∃ span r r' hr hr', eat s ts = some ⟨span, r, hr⟩ ∧
      eat s ts' = some ⟨f span, r', hr'⟩ ∧
      Sync f more all (!rests (.symbol s)) (LineState.nextDelims ds (.symbol s)) r r' := by
  obtain ⟨hstep, hreach⟩ := h
  cases hstep with
  | nil => exact .inl ⟨rfl, rfl⟩
  | @cons _ r r' t hstep =>
    obtain ⟨k, span⟩ := t
    cases k with
    | symbol s' =>
      by_cases heq : s' = s
      · subst heq
        refine .inr ⟨span, r, r', Nat.lt_succ_self _, Nat.lt_succ_self _, ?_, ?_, hstep, hreach.next nofun⟩
        · simp [eat]
        · simp [eat, Token.respan]
      · exact .inl ⟨if_neg heq, if_neg heq⟩
    | _ => exact .inl ⟨rfl, rfl⟩
  | @stop t t' last rest ht ht' hlast hmore =>
    obtain ⟨k, span⟩ := t
    obtain ⟨k', span'⟩ := t'
    rcases kind_of_endsStmt ht with rfl | rfl <;> cases ht'
    · exact .inl ⟨rfl, rfl⟩
    · exact .inl ⟨if_neg hs.symm, if_neg hs.symm⟩

theorem eatWord_cases (k : Keyword) (h : Sync f more all loose ds ts ts') :
    (eatWord k ts = none ∧ eatWord k ts' = none) ∨ ∃ span r r' hr hr', eatWord k ts = some ⟨span, r, hr⟩ ∧
      eatWord k ts' = some ⟨f span, r', hr'⟩ ∧
      Sync f more all (!rests (.keyword k)) ds r r' := by
  obtain ⟨hstep, hreach⟩ := h
  cases hstep with
  | nil => exact .inl ⟨rfl, rfl⟩
  | @cons _ r r' t hstep =>
    obtain ⟨kind, span⟩ := t
    cases kind with
    | keyword k' =>
      by_cases heq : k' = k
      · subst heq
        refine .inr ⟨span, r, r', Nat.lt_succ_self _, Nat.lt_succ_self _, ?_, ?_, hstep, hreach.next nofun⟩
        · simp [eatWord]
        · simp [eatWord, Token.respan]
      · exact .inl ⟨if_neg heq, if_neg heq⟩
    | _ => exact .inl ⟨rfl, rfl⟩
  | @stop t t' last rest ht ht' hlast hmore =>
    obtain ⟨k, span⟩ := t
    obtain ⟨k', span'⟩ := t'
    rcases kind_of_endsStmt ht with rfl | rfl <;> cases ht' <;> exact .inl ⟨rfl, rfl⟩

theorem isAt_eq (s : Symbol) (hs : s ≠ .semicolon) (h : Sync f more all loose ds ts ts') :
    isAt s ts' = isAt s ts := by
  rcases eat_cases s hs h with ⟨hx, hy⟩ | ⟨_, _, _, _, _, hx, hy, -⟩
  · rw [isAt, isAt, hx, hy]
    rfl
  · rw [isAt, isAt, hx, hy]
    rfl

theorem carries_expect (s : Symbol) (hs : s ≠ .semicolon) (what : String)
    (h : Sync f more all loose ds ts ts') :
    Carries (Agrees f more all (!rests (.symbol s)) (LineState.nextDelims ds (.symbol s)) f)
      (expect s what ts) (expect s what ts') := by
  rw [expect, expect]
  rcases eat_cases s hs h with ⟨hx, hy⟩ | ⟨span, r, r', hr, hr', hx, hy, hsync⟩
  · rw [hx]
    exact carries_error _
  · rw [hx, hy]
    exact carries_ok ⟨rfl, hsync⟩

theorem carries_expectWord (k : Keyword) (what : String) (h : Sync f more all loose ds ts ts') :
    Carries (Agrees f more all (!rests (.keyword k)) ds f) (expectWord k what ts)
      (expectWord k what ts') := by
  rw [expectWord, expectWord]
  rcases eatWord_cases k h with ⟨hx, hy⟩ | ⟨span, r, r', hr, hr', hx, hy, hsync⟩
  · rw [hx]
    exact carries_error _
  · rw [hx, hy]
    exact carries_ok ⟨rfl, hsync⟩

theorem carries_ident (h : Sync f more all loose ds ts ts') :
    Carries (Agrees f more all false ds (Ident.respan f)) (ident ts) (ident ts') := by
  obtain ⟨hstep, hreach⟩ := h
  cases hstep with
  | nil => exact carries_error _
  | @cons _ r r' t hstep =>
    obtain ⟨kind, span⟩ := t
    cases kind with
    | ident name => exact carries_ok ⟨rfl, hstep, hreach.next nofun⟩
    | _ => exact carries_error _
  | @stop t t' last rest ht ht' hlast hmore =>
    obtain ⟨kind, span⟩ := t
    cases kind with
    | ident name => cases ht
    | _ => exact carries_error _

theorem carries_typeName (h : Sync f more all loose ds ts ts') :
    Carries (Agrees f more all false ds (Ident.respan f)) (typeName ts) (typeName ts') := by
  obtain ⟨hstep, hreach⟩ := h
  cases hstep with
  | nil => exact carries_error _
  | @cons _ r r' t hstep =>
    obtain ⟨kind, span⟩ := t
    cases kind with
    | ident name => exact carries_ok ⟨rfl, hstep, hreach.next nofun⟩
    | typeName name => exact carries_ok ⟨rfl, hstep, hreach.next nofun⟩
    | _ => exact carries_error _
  | @stop t t' last rest ht ht' hlast hmore =>
    obtain ⟨kind, span⟩ := t
    cases kind with
    | ident name => cases ht
    | typeName name => cases ht
    | _ => exact carries_error _

end Sluice.Parser
