import Sluice.Parser.Basic
import Sluice.Proofs.Ast.Piece
import Sluice.Proofs.Token.Account

/-! How a syntax tree lies on the tokens that it is read from. Each piece is read from the tokens between two
points of the list, and its span goes from the first of them to the last; the pieces that it is made up of are
read one behind the other from tokens between the same two points. Where the tokens stand in the text in their
order, so do the pieces. -/
namespace Sluice.Parser

/-- The span goes from the first of the tokens between two points of a list to the last. It ends where one of
them ends, and not before the last one does. -/
def Over (s : Span) (ts rest : Tokens) : Prop :=
  ∃ front, ts = front ++ rest ∧
    (∃ t ∈ front.head?, s.start = t.span.start ∧ s.line = t.span.line ∧ s.col = t.span.col) ∧
    (∃ u ∈ front, s.stop = u.span.stop) ∧ ∀ u ∈ front.getLast?, u.span.stop ≤ s.stop

def Took (s : Span) (ts rest : Tokens) : Prop := ∃ k, ts = ⟨k, s⟩ :: rest

/-- Pieces one behind the other between two points of a list of tokens, each where `R` says, with tokens
between them that belong to none. -/
inductive Row (R : Piece → Tokens → Tokens → Prop) : List Piece → Tokens → Tokens → Prop
  | nil (ts : Tokens) : Row R [] ts ts
  | skip {ps : List Piece} {ts rest : Tokens} (t : Token) (h : Row R ps ts rest) : Row R ps (t :: ts) rest
  | part {n : Piece} {ps : List Piece} {ts mid rest : Tokens} (hn : R n ts mid) (h : Row R ps mid rest) :
      Row R (n :: ps) ts rest

def Named : Piece → Tokens → Prop
  | .ident x, ts => ∃ k rest, ts = ⟨k, x.span⟩ :: rest ∧ (k = .ident x.text ∨ k = .typeName x.text)
  | _, _ => True

/-- A piece is read from the tokens between two points of a list, and so are its rows. -/
inductive Laid : Piece → Tokens → Tokens → Prop
  | mk {n : Piece} {ts rest : Tokens} (extent : Over n.span ts rest) (named : Named n ts)
      (rows : ∀ row ∈ n.rows, Row Laid row ts rest) : Laid n ts rest

variable {s s' : Span} {R : Piece → Tokens → Tokens → Prop} {n : Piece} {ps qs : List Piece}
  {ts mid mid' rest : Tokens}

/-! ### Spans over tokens -/

theorem Over.suffix (h : Over s ts rest) : rest <:+ ts := by
  obtain ⟨front, rfl, -⟩ := h
  exact List.suffix_append _ _

/-- From one span to another that ends later. -/
theorem Over.through (h : Over s ts mid) (hrest : rest <:+ mid) (h' : Over s' mid' rest)
    (hmid : mid' <:+ ts) : Over (s.through s') ts rest := by
  obtain ⟨front, rfl, ⟨t, ht, hstart⟩, ⟨u, hu, hstop⟩, -⟩ := h
  obtain ⟨back, rfl, -, ⟨u', hu', hstop'⟩, hlast'⟩ := h'
  obtain ⟨skipped, rfl⟩ := hrest
  obtain ⟨before, hbefore⟩ := hmid
  have hall : front ++ skipped = before ++ back := by
    rw [← List.append_assoc, ← List.append_assoc] at hbefore
    exact (List.append_cancel_right hbefore).symm
  refine ⟨front ++ skipped, (List.append_assoc ..).symm, ⟨t, ?_, hstart⟩, ?_, ?_⟩
  · rw [List.head?_append, Option.mem_def.1 ht]
    rfl
  · rcases Nat.le_total s.stop s'.stop with hle | hle
    · refine ⟨u', hall ▸ List.mem_append_right _ hu', ?_⟩
      rw [← hstop']
      exact Nat.max_eq_left hle
    · refine ⟨u, List.mem_append_left _ hu, ?_⟩
      rw [← hstop]
      exact Nat.max_eq_right hle
  · intro v hv
    rw [hall, List.getLast?_append_of_ne_nil _ (List.ne_nil_of_mem hu')] at hv
    exact Nat.le_trans (hlast' v hv) (Span.stop_le_through_right s s')

theorem Took.extent (h : Took s ts rest) : Over s ts rest := by
  obtain ⟨k, rfl⟩ := h
  refine ⟨[⟨k, s⟩], rfl, ⟨_, rfl, rfl, rfl, rfl⟩, ⟨_, List.mem_singleton_self _, rfl⟩, ?_⟩
  rintro u ⟨⟩
  exact Nat.le_refl _

theorem Took.suffix (h : Took s ts rest) : rest <:+ ts := h.extent.suffix

/-! ### Rows -/

namespace Row

theorem append (h : Row R ps ts mid) (h' : Row R qs mid rest) : Row R (ps ++ qs) ts rest := by
  induction h with
  | nil => exact h'
  | skip t _ ih => exact .skip t (ih h')
  | part hn _ ih => exact .part hn (ih h')

theorem of_suffix (h : rest <:+ ts) : Row R [] ts rest := by
  obtain ⟨front, rfl⟩ := h
  induction front with
  | nil => exact .nil _
  | cons t front ih => exact .skip t ih

/-- Tokens before and behind a row belong to none of its pieces. -/
theorem widen (h : Row R ps mid mid') (hmid : mid <:+ ts) (hrest : rest <:+ mid') : Row R ps ts rest := by
  have hrow := ((of_suffix hmid).append h).append (of_suffix (R := R) hrest)
  rwa [List.append_nil] at hrow

theorem after (h : Row R ps mid rest) (hmid : mid <:+ ts) : Row R ps ts rest :=
  h.widen hmid (List.suffix_refl _)

theorem before (h : Row R ps ts mid) (hrest : rest <:+ mid) : Row R ps ts rest :=
  h.widen (List.suffix_refl _) hrest

theorem suffix (h : Row R ps ts rest) (hR : ∀ n ts rest, R n ts rest → rest <:+ ts) : rest <:+ ts := by
  induction h with
  | nil => exact List.suffix_refl _
  | skip t _ ih => exact ih.trans (List.suffix_cons t _)
  | part hn _ ih => exact ih.trans (hR _ _ _ hn)

/-- Where a piece of a row is. -/
theorem exists_of_mem (h : Row R ps ts rest) (hR : ∀ n ts rest, R n ts rest → rest <:+ ts) (hn : n ∈ ps) :
    ∃ a b, a <:+ ts ∧ rest <:+ b ∧ R n a b := by
  induction h with
  | nil => cases hn
  | skip t _ ih =>
    obtain ⟨a, b, ha, hb, hab⟩ := ih hn
    exact ⟨a, b, ha.trans (List.suffix_cons t _), hb, hab⟩
  | @part m ps ts mid rest hm h ih =>
    rcases List.mem_cons.1 hn with rfl | hn
    · exact ⟨ts, mid, List.suffix_refl _, h.suffix hR, hm⟩
    · obtain ⟨a, b, ha, hb, hab⟩ := ih hn
      exact ⟨a, b, ha.trans (hR _ _ _ hm), hb, hab⟩

end Row

namespace Laid

theorem extent (h : Laid n ts rest) : Over n.span ts rest := by
  cases h with
  | mk extent => exact extent

theorem rows (h : Laid n ts rest) : ∀ row ∈ n.rows, Row Laid row ts rest := by
  cases h with
  | mk _ _ rows => exact rows

theorem suffix (h : Laid n ts rest) : rest <:+ ts := h.extent.suffix

/-- A piece is a row of one. -/
theorem row (h : Laid n ts rest) : Row Laid [n] ts rest := .part h (.nil _)

/-- What holds of a piece if it holds of the pieces of its rows holds of all pieces. -/
theorem induct {P : Piece → Tokens → Tokens → Prop}
    (h : ∀ n ts rest, Over n.span ts rest → Named n ts →
      (∀ row ∈ n.rows, Row (fun n ts rest => Laid n ts rest ∧ P n ts rest) row ts rest) → P n ts rest)
    (hn : Laid n ts rest) : P n ts rest :=
  @Laid.rec (fun n ts rest _ => P n ts rest)
    (fun row ts rest _ => Row (fun n ts rest => Laid n ts rest ∧ P n ts rest) row ts rest)
    (fun extent named _ ih => h _ _ _ extent named ih) .nil (fun t _ ih => .skip t ih)
    (fun hn _ ihn ih => .part ⟨hn, ihn⟩ ih) _ _ _ hn

end Laid

theorem Row.le (h : Row Laid ps ts rest) : rest <:+ ts := h.suffix fun _ _ _ h => h.suffix

/-! ### Spans over pieces -/

structure Covers (s : Span) (ps : List Piece) (ts rest : Tokens) : Prop where
  extent : Over s ts rest
  row : Row Laid ps ts rest

theorem Took.covers (h : Took s ts rest) : Covers s [] ts rest := ⟨h.extent, .of_suffix h.suffix⟩

theorem Laid.covers (h : Laid n ts rest) : Covers n.span [n] ts rest := ⟨h.extent, h.row⟩

theorem Covers.laid (h : Covers s ps ts rest) (hspan : n.span = s) (hrows : n.rows = [ps])
    (hnamed : Named n ts) : Laid n ts rest := by
  refine .mk (hspan ▸ h.extent) hnamed ?_
  rw [hrows]
  exact List.forall_mem_singleton.2 h.row

/-- On to a token, over a row of pieces. -/
theorem Covers.close (h : Covers s ps ts mid) (hrow : Row Laid qs mid mid') (hlast : Took s' mid' rest) :
    Covers (s.through s') (ps ++ qs) ts rest where
  extent := h.extent.through (hlast.suffix.trans hrow.le) hlast.extent (hrow.le.trans h.extent.suffix)
  row := h.row.append (hrow.before hlast.suffix)

/-- On to a piece, over a row of pieces. -/
theorem Covers.finish (h : Covers s ps ts mid) (hrow : Row Laid qs mid mid') (hlast : Laid n mid' rest) :
    Covers (s.through n.span) (ps ++ (qs ++ [n])) ts rest where
  extent := h.extent.through (hlast.suffix.trans hrow.le) hlast.extent (hrow.le.trans h.extent.suffix)
  row := h.row.append (hrow.append hlast.row)

/-! ### Lists of pieces -/

section Collects

variable {α : Type} {pieces : α → List Piece} {seen value : List α} {a : α}

def Collects (pieces : α → List Piece) (seen : List α) (ts : Tokens) (value : List α) (rest : Tokens) :
    Prop :=
  ∃ new, value = seen.reverse ++ new ∧ Row Laid (new.flatMap pieces) ts rest

theorem collects_nil (h : rest <:+ ts) : Collects pieces seen ts seen.reverse rest :=
  ⟨[], (List.append_nil _).symm, .of_suffix h⟩

theorem Collects.cons (h : Collects pieces (a :: seen) mid value rest) (ha : Row Laid (pieces a) ts mid) :
    Collects pieces seen ts value rest := by
  obtain ⟨new, hvalue, hrow⟩ := h
  refine ⟨a :: new, ?_, ?_⟩
  · rw [hvalue, List.reverse_cons, List.append_assoc]
    rfl
  · rw [List.flatMap_cons]
    exact ha.append hrow

theorem collects_one (ha : Row Laid (pieces a) ts rest) :
    Collects pieces seen ts (a :: seen).reverse rest := (collects_nil (List.suffix_refl _)).cons ha

theorem Collects.row (h : Collects pieces [] ts value rest) : Row Laid (value.flatMap pieces) ts rest := by
  obtain ⟨new, rfl, hrow⟩ := h
  exact hrow

theorem Collects.rowMap {f : α → Piece} (h : Collects (fun a => [f a]) [] ts value rest) :
    Row Laid (value.map f) ts rest := by
  rw [List.map_eq_flatMap]
  exact h.row

end Collects

/-! ### Tokens in their order -/

structure Sorted (ts : Tokens) : Prop where
  ordered : ts.Pairwise fun t u => t.span.stop ≤ u.span.start
  proper : ∀ t ∈ ts, t.span.start ≤ t.span.stop

theorem Sorted.suffix (h : Sorted ts) (hmid : mid <:+ ts) : Sorted mid :=
  ⟨h.ordered.sublist hmid.sublist, fun t ht => h.proper t (hmid.subset ht)⟩

theorem Sorted.start_le {front : Tokens} (h : Sorted (front ++ rest)) {t u : Token} (ht : t ∈ front.head?)
    (hu : u ∈ front) : t.span.start ≤ u.span.start := by
  cases front with
  | nil => cases hu
  | cons v front =>
    cases ht
    rcases List.mem_cons.1 hu with rfl | hu
    · exact Nat.le_refl _
    · have hproper := h.proper t List.mem_cons_self
      have hbefore := (List.pairwise_cons.1 h.ordered).1 u (List.mem_append_left _ hu)
      omega

theorem Sorted.le_stop {front : Tokens} (h : Sorted (front ++ rest)) {t u : Token} (ht : t ∈ front.getLast?)
    (hu : u ∈ front) : u.span.stop ≤ t.span.stop := by
  obtain ⟨init, rfl⟩ := List.getLast?_eq_some_iff.1 ht
  rcases List.mem_append.1 hu with hu | hu
  · have hproper := h.proper t (by simp)
    have hbefore := (List.pairwise_append.1 (List.pairwise_append.1 h.ordered).1).2.2 u hu t (by simp)
    omega
  · obtain rfl := List.mem_singleton.1 hu
    exact Nat.le_refl _

theorem Over.start_le_stop (h : Over s ts rest) (hts : Sorted ts) : s.start ≤ s.stop := by
  obtain ⟨front, rfl, ⟨t, ht, hstart, -⟩, ⟨u, hu, hstop⟩, -⟩ := h
  rw [hstart, hstop]
  exact Nat.le_trans (hts.start_le ht hu) (hts.proper u (List.mem_append_left _ hu))

/-- A span over some of the tokens of another one lies inside it. -/
theorem Over.inside (h : Over s ts rest) (hts : Sorted ts) (h' : Over s' mid mid') (hmid : mid <:+ ts)
    (hrest : rest <:+ mid') : s.start ≤ s'.start ∧ s'.stop ≤ s.stop := by
  obtain ⟨front, rfl, ⟨t, ht, hstart, -⟩, ⟨u, hu, -⟩, hlast⟩ := h
  obtain ⟨front', rfl, ⟨t', ht', hstart', -⟩, ⟨u', hu', hstop'⟩, -⟩ := h'
  obtain ⟨skipped, rfl⟩ := hrest
  obtain ⟨before, hbefore⟩ := hmid
  obtain rfl : front = before ++ front' ++ skipped := by
    rw [← List.append_assoc, ← List.append_assoc] at hbefore
    exact (List.append_cancel_right hbefore).symm
  constructor
  · rw [hstart, hstart']
    have hmem : t' ∈ front' := List.mem_of_head? ht'
    exact hts.start_le ht (by simp [hmem])
  · obtain ⟨last, hlast'⟩ := List.getLast?_isSome.2 (List.ne_nil_of_mem hu) |> Option.isSome_iff_exists.1
    have hle := hts.le_stop hlast' (u := u') (by simp [hu'])
    rw [hstop']
    exact Nat.le_trans hle (hlast last hlast')

/-- A span over later tokens starts after the end. -/
theorem Over.stop_le (h : Over s ts mid) (hts : Sorted ts) (h' : Over s' mid' rest) (hmid : mid' <:+ mid) :
    s.stop ≤ s'.start := by
  obtain ⟨front, rfl, -, ⟨u, hu, hstop⟩, -⟩ := h
  obtain ⟨front', rfl, ⟨t', ht', hstart', -⟩, -⟩ := h'
  rw [hstop, hstart']
  apply (List.pairwise_append.1 hts.ordered).2.2 u hu t'
  exact hmid.subset (List.mem_append_left _ (List.mem_of_head? ht'))

/-- The pieces of a row are apart, in their order. -/
theorem Row.pairwise (h : Row R ps ts rest) (hR : ∀ n ts rest, R n ts rest → Over n.span ts rest)
    (hts : Sorted ts) : ps.Pairwise fun a b => a.span.stop ≤ b.span.start := by
  induction h with
  | nil => exact .nil
  | skip t _ ih => exact ih (hts.suffix (List.suffix_cons t _))
  | part hn h ih =>
    refine List.pairwise_cons.2 ⟨fun m hm => ?_, ih (hts.suffix (hR _ _ _ hn).suffix)⟩
    obtain ⟨a, b, ha, -, hab⟩ := h.exists_of_mem (fun n ts rest h => (hR n ts rest h).suffix) hm
    exact (hR _ _ _ hn).stop_le hts (hR _ _ _ hab) ha

end Sluice.Parser
