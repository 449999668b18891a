import Sluice.Proofs.Parser.Below
import Sluice.Proofs.Parser.LaidTree

/-! Spans follow the text. Every piece of a module that was read starts where a token starts and ends where
one ends; it lies inside the piece that it is part of, and the pieces of a row stand one behind the other. -/
namespace Sluice

/-- A piece of a syntax tree lies in the source text, which was cut into tokens, as its span says. -/
structure Spanned (src : String) (tokens : List Token) (n : Piece) : Prop where
  opens : ∃ t ∈ tokens, n.span.start = t.span.start
  closes : ∃ t ∈ tokens, n.span.stop = t.span.stop
  proper : n.span.start ≤ n.span.stop
  place : ∃ before after, src = before ++ after ∧ n.span.StartsAfter before
  inside : ∀ m ∈ n.parts, n.span.start ≤ m.span.start ∧ m.span.stop ≤ n.span.stop
  ordered : ∀ row ∈ n.rows, row.Pairwise fun a b => a.span.stop ≤ b.span.start
  text : ∀ x, n = .ident x → ∃ after, Stretch src x.span.start x.span.stop x.text after

namespace Parser

variable {src : String} {tokens ts rest : Tokens} {n : Piece} {s : Span}

theorem sorted_of_accounts {k : Nat} (h : Token.Accounts src k tokens) : Sorted tokens where
  ordered := h.ordered
  proper t ht := by
    obtain ⟨before, text, after, -, hmarks⟩ := h.marks t ht
    rw [hmarks.starts.start, hmarks.stop, String.utf8ByteSize_append]
    exact Nat.le_add_right _ _

/-- Where a span over tokens starts and ends. -/
theorem Over.ends (h : Over s ts rest) (hts : ts <:+ tokens) :
    (∃ t ∈ tokens, s.start = t.span.start ∧ s.line = t.span.line ∧ s.col = t.span.col) ∧
      ∃ t ∈ tokens, s.stop = t.span.stop := by
  obtain ⟨front, rfl, ⟨t, ht, hstart⟩, ⟨u, hu, hstop⟩, -⟩ := h
  have hmem {v : Token} (hv : v ∈ front) : v ∈ tokens := hts.subset (List.mem_append_left _ hv)
  exact ⟨⟨t, hmem (List.mem_of_head? ht), hstart⟩, u, hmem hu, hstop⟩

theorem stretch_of_named {k : Nat} {x : Ident} (h : Token.Accounts src k tokens) (hts : ts <:+ tokens)
    (hnamed : Named (.ident x) ts) : ∃ after, Stretch src x.span.start x.span.stop x.text after := by
  obtain ⟨kind, r, rfl, hkind⟩ := hnamed
  obtain ⟨before, text, after, hsrc, hmarks⟩ := h.marks _ (hts.subset List.mem_cons_self)
  obtain rfl := hmarks.name x.text hkind
  exact ⟨after, before, hsrc, hmarks.starts.start, hmarks.stop⟩

/-- A piece that is laid on tokens of the text follows it, and so do all pieces inside it. -/
theorem Laid.every_spanned {k : Nat} (h : Token.Accounts src k tokens) (hn : Laid n ts rest)
    (hts : ts <:+ tokens) : Every Piece.parts (Spanned src tokens) n := by
  revert hts
  apply hn.induct (P := fun n ts _ => ts <:+ tokens → Every Piece.parts (Spanned src tokens) n)
  intro n ts rest hover hnamed hrows hts
  have hsorted := (sorted_of_accounts h).suffix hts
  have hplaced {m : Piece} (hm : m ∈ n.parts) : ∃ a b, a <:+ ts ∧ rest <:+ b ∧ Laid m a b ∧
      (a <:+ tokens → Every Piece.parts (Spanned src tokens) m) := by
    obtain ⟨row, hrow, hm⟩ := List.mem_flatten.1 hm
    exact (hrows row hrow).exists_of_mem (fun _ _ _ h => h.1.suffix) hm
  obtain ⟨⟨t, ht, hstart, hline, hcol⟩, hstop⟩ := hover.ends hts
  refine .mk ⟨⟨t, ht, hstart⟩, hstop, hover.start_le_stop hsorted, ?_, ?_, ?_, ?_⟩ ?_
  · obtain ⟨before, text, after, hsrc, hmarks⟩ := h.marks t ht
    obtain ⟨hbefore, hbeforeLine, hbeforeCol⟩ := hmarks.starts
    rw [String.append_assoc] at hsrc
    exact ⟨before, text ++ after, hsrc, hstart.trans hbefore, hline.trans hbeforeLine,
      hcol.trans hbeforeCol⟩
  · intro m hm
    obtain ⟨a, b, ha, hb, hlaid, -⟩ := hplaced hm
    exact hover.inside hsorted hlaid.extent ha hb
  · intro row hrow
    exact (hrows row hrow).pairwise (fun _ _ _ h => h.1.extent) hsorted
  · rintro x rfl
    exact stretch_of_named h hts hnamed
  · intro m hm
    obtain ⟨a, b, ha, -, -, hevery⟩ := hplaced hm
    exact hevery (ha.trans hts)

/-- A module lies on all its tokens. -/
theorem lays_module (name : String) (hscan : Token.scan src = .ok ts) :
    Yields (fun md => Laid (.module md) ts []) (module name ts) := by
  obtain ⟨front, last, rfl, hlast, hfront⟩ := Token.exists_front hscan
  have hstmts (whole : Tokens) (h : (front ++ [last]).length < whole.length) :
      Yields (fun p => Collects (fun s => [.stmt s]) [] (front ++ [last]) p.value p.rest ∧ p.rest = [last])
        (stmts 0 false whole [] (front ++ [last]) h) :=
    fun p hp => ⟨lays_stmts 0 false whole [] _ h p hp, (reach_of_stmts hfront.noEof hlast hp).1⟩
  rw [module]
  refine (hstmts _ _).step fun body rest hr hreads => yields_pure ?_
  obtain ⟨hbody, hrest⟩ := hreads
  obtain rfl : rest = [last] := hrest
  have hend : Took last.span [last] [] := ⟨last.kind, rfl⟩
  have hfirst := took_peek (List.append_ne_nil_of_right_ne_nil front (List.cons_ne_nil last []))
  have hover := hfirst.extent.through List.nil_suffix hend.extent (List.suffix_append _ _)
  have hblock : Laid (.block ⟨body, (peek (front ++ [last])).span.through last.span⟩) (front ++ [last]) [] :=
    Covers.laid ⟨hover, hbody.rowMap.before List.nil_suffix⟩ rfl rfl trivial
  exact hblock.covers.laid rfl rfl trivial

end Parser

namespace Module

/-- Every piece of a module that was read follows the text, at any depth: it starts and ends with tokens, and
its line and column are those of its start; it lies inside the piece that it is part of; the pieces of a row
are apart, in the order of the text; and under a name stands that name. -/
theorem every_spanned_of_read {file src : String} {md : Module} (h : Module.read file src = .ok md) :
    ∃ tokens, Token.scan src = .ok tokens ∧ Every Piece.parts (Spanned src tokens) (.module md) := by
  obtain ⟨tokens, hscan, hmodule⟩ := exists_tokens_of_read h
  have haccounts := Token.accounts_of_scanned (Token.scanned_of_scan hscan) [] rfl rfl
  have hlaid := Parser.lays_module _ hscan md hmodule
  exact ⟨tokens, hscan, hlaid.every_spanned haccounts (List.suffix_refl _)⟩

/-- A payload of two types, a parameter, patterns with and without parentheses, stages and a chain of names. -/
def nestedText : String :=
  "enum S \x7b P(A, B), Q \x7d\npub fn f(s: S) \x7b match s \x7b " ++
    "(P(a, _)) => \"é\" | g.h, R \x7b x \x7d => (a) \x7d \x7d"

theorem nestedText_spanned : ∃ md tokens, Module.read "nested.sl" nestedText = .ok md ∧
    md.body.stmts.map (fun s => (s.span, s.rows.map (·.map Piece.span))) =
      [(⟨0, 21, 1, 1⟩, [[⟨5, 6, 1, 6⟩, ⟨9, 10, 1, 10⟩, ⟨18, 19, 1, 19⟩], [⟨9, 16, 1, 10⟩]]),
        (⟨22, 92, 2, 1⟩, [[⟨29, 30, 2, 8⟩, ⟨31, 35, 2, 10⟩, ⟨37, 92, 2, 16⟩]])] ∧
    Token.scan nestedText = .ok tokens ∧ Every Piece.parts (Spanned nestedText tokens) (.module md) := by
  have hspans : (Module.read "nested.sl" nestedText).toOption.map
      (fun md => md.body.stmts.map fun s => (s.span, s.rows.map (·.map Piece.span))) = some
      [(⟨0, 21, 1, 1⟩, [[⟨5, 6, 1, 6⟩, ⟨9, 10, 1, 10⟩, ⟨18, 19, 1, 19⟩], [⟨9, 16, 1, 10⟩]]),
        (⟨22, 92, 2, 1⟩, [[⟨29, 30, 2, 8⟩, ⟨31, 35, 2, 10⟩, ⟨37, 92, 2, 16⟩]])] := by decide +kernel
  cases hread : Module.read "nested.sl" nestedText with
  | error e => simp [hread, Except.toOption] at hspans
  | ok md =>
    obtain ⟨tokens, hscan, hevery⟩ := every_spanned_of_read hread
    rw [hread] at hspans
    exact ⟨md, tokens, rfl, Option.some.inj hspans, hscan, hevery⟩

end Module

end Sluice
