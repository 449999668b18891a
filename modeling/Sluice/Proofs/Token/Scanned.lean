import Sluice.Proofs.Token.Below

/-! The layout of a text. `Scanned` cuts a text into white space, comments, lexemes and the line ends that
end statements, with the token of each; whatever scans is laid out in this way. -/
namespace Sluice

open Lexeme (isSpace Lexical lexical_of_read)

/-- White space and comments that `after` follows. A comment goes up to a line end or the end of the text,
so no line end is part of one. -/
inductive Trivia : List Char → List Char → Prop
  | nil (after : List Char) : Trivia [] after
  | space {c : Char} {text after : List Char} (hc : isSpace c = true) (h : Trivia text after) :
      Trivia (c :: text) after
  | comment {body text after : List Char} (hbody : '\n' ∉ body)
      (hend : ∀ d ∈ (text ++ after).head?, d = '\n') (h : Trivia text after) :
      Trivia ('/' :: '/' :: (body ++ text)) after

namespace Gap

def ahead (g : Gap) : List Char := if g.lineEnd.isSome then '\n' :: g.rest else g.rest

def finish (g : Gap) : Position := g.lineEnd.getD g.pos

/-- A gap holds white space and comments, after the rest of the comment that it starts in, if it does. It
has a line end only if line ends do not end statements. -/
theorem exists_trivia (breaks inComment : Bool) (p : Position) (cs : List Char) :
    ∃ body gap, cs = body ++ (gap ++ (skip breaks inComment p cs).ahead) ∧
      (skip breaks inComment p cs).finish = p.after (body ++ gap) ∧
      Trivia gap (skip breaks inComment p cs).ahead ∧ (breaks = true → '\n' ∉ gap) ∧ '\n' ∉ body ∧
      if inComment then ∀ d ∈ (gap ++ (skip breaks inComment p cs).ahead).head?, d = '\n'
      else body = [] := by
  fun_induction skip breaks inComment p cs with
  | case1 inComment p =>
    refine ⟨[], [], rfl, rfl, .nil _, by simp, by simp, ?_⟩
    split
    · rintro d ⟨⟩
    · rfl
  | case2 inComment p r hbreaks =>
    refine ⟨[], [], rfl, rfl, .nil _, by simp, by simp, ?_⟩
    split
    · rintro d ⟨⟩
      rfl
    · rfl
  | case3 inComment p r hbreaks ih =>
    obtain ⟨body, gap, hcs, hfinish, htrivia, -, -, hbody⟩ := ih
    obtain rfl : body = [] := hbody
    refine ⟨[], '\n' :: gap, congrArg _ hcs, hfinish, .space rfl htrivia, fun h => (hbreaks h).elim,
      by simp, ?_⟩
    split
    · rintro d ⟨⟩
      rfl
    · rfl
  | case4 inComment p c r hline hblank ih =>
    obtain ⟨body, gap, hcs, hfinish, htrivia, hgap, hbody, hstart⟩ := ih
    cases inComment with
    | true =>
      exact ⟨c :: body, gap, congrArg _ hcs, hfinish, htrivia, hgap,
        List.not_mem_cons_of_ne_of_not_mem (Ne.symm hline) hbody, hstart⟩
    | false =>
      obtain rfl : body = [] := hstart
      have hc : isSpace c = true := by rw [isSpace, show isBlank c = true from hblank, Bool.or_true]
      exact ⟨[], c :: gap, congrArg _ hcs, hfinish, .space hc htrivia,
        fun h => List.not_mem_cons_of_ne_of_not_mem (Ne.symm hline) (hgap h), by simp, rfl⟩
  | case5 inComment p c r hline hblank hslash ih =>
    obtain ⟨body, gap, hcs, hfinish, htrivia, hgap, hbody, hstart⟩ := ih
    obtain ⟨rfl, hr⟩ : c = '/' ∧ r.head? = some '/' := by simpa using hslash
    obtain rfl : inComment = false := by
      cases inComment with
      | true => exact (hblank rfl).elim
      | false => rfl
    -- The text goes on with a slash, and no line end is one, so the comment holds it.
    cases body with
    | nil =>
      rw [List.nil_append] at hcs
      rw [hcs] at hr
      exact absurd (hstart _ hr) (by decide)
    | cons d body =>
      obtain rfl : d = '/' := by
        rw [hcs] at hr
        exact Option.some.inj hr
      have hbody' : '\n' ∉ body := fun h => hbody (List.mem_cons_of_mem _ h)
      refine ⟨[], '/' :: '/' :: (body ++ gap), ?_, hfinish, .comment hbody' hstart htrivia, fun h => ?_,
        by simp, rfl⟩
      · rw [List.nil_append, List.cons_append, List.cons_append, List.append_assoc]
        exact congrArg _ hcs
      · simp [hgap h, hbody']
  | case6 inComment p c r hline hblank hslash =>
    refine ⟨[], [], rfl, rfl, .nil _, by simp, by simp, ?_⟩
    split
    next h => simp [h] at hblank
    next => rfl

theorem breaks_of_lineEnd (breaks inComment : Bool) (p : Position) (cs : List Char)
    (h : (skip breaks inComment p cs).lineEnd.isSome) : breaks = true := by
  fun_induction skip breaks inComment p cs with
  | case1 => cases h
  | case2 _ _ _ hbreaks => exact hbreaks
  | case3 _ _ _ _ ih => exact ih h
  | case4 _ _ _ _ _ _ ih => exact ih h
  | case5 _ _ _ _ _ _ _ ih => exact ih h
  | case6 => cases h

end Gap

namespace Token

/-- The tokens of a text that starts at `p`, where the tokens before it left the state `l`. -/
inductive Scanned : LineState → Position → List Char → List Token → Prop
  | lineEnd {l : LineState} {p : Position} {gap rest : List Char} {ts : List Token}
      (hgap : Trivia gap ('\n' :: rest)) (hline : '\n' ∉ gap) (hbreaks : l.breaksLine = true)
      (h : Scanned (l.next ⟨.stmtEnd, (p.after gap).spanTo ((p.after gap).advance '\n')⟩)
        ((p.after gap).advance '\n') rest ts) :
      Scanned l p (gap ++ '\n' :: rest)
        (⟨.stmtEnd, (p.after gap).spanTo ((p.after gap).advance '\n')⟩ :: ts)
  | finish {l : LineState} {p : Position} {gap : List Char} (hgap : Trivia gap [])
      (hline : l.breaksLine = true → '\n' ∉ gap) : Scanned l p gap (ending l (p.after gap))
  | lexeme {l : LineState} {p : Position} {gap rest : List Char} {kind : Kind} {c : Char}
      {tail : List Char} {ts : List Token} (hgap : Trivia gap (c :: (tail ++ rest)))
      (hline : l.breaksLine = true → '\n' ∉ gap) (hread : Lexical kind c tail rest)
      (h : Scanned (l.next ⟨kind, (p.after gap).spanTo ((p.after gap).after (c :: tail))⟩)
        ((p.after gap).after (c :: tail)) rest ts) :
      Scanned l p (gap ++ c :: (tail ++ rest))
        (⟨kind, (p.after gap).spanTo ((p.after gap).after (c :: tail))⟩ :: ts)

theorem scanned_of_scanFrom {l : LineState} {p : Position} {cs : List Char} {seen out : List Token}
    (h : scanFrom l p cs seen = .ok out) : ∃ ts, out = seen.reverse ++ ts ∧ Scanned l p cs ts := by
  fun_induction scanFrom l p cs seen with
  | case1 l p cs seen q rest start hg t ih =>
    obtain ⟨body, gap, hcs, hfinish, htrivia, hgap, -, hbody⟩ := Gap.exists_trivia l.breaksLine false p cs
    have hbreaks := Gap.breaks_of_lineEnd l.breaksLine false p cs (by rw [hg]; rfl)
    have hstop := Gap.pos_eq_of_lineEnd l.breaksLine false p cs start (by rw [hg])
    obtain rfl : body = [] := hbody
    simp only [hg, Gap.ahead, Gap.finish, Option.isSome_some, if_true, Option.getD_some,
      List.nil_append] at hcs hfinish htrivia hstop
    subst hcs hfinish hstop
    obtain ⟨ts, hout, hts⟩ := ih h
    exact ⟨t :: ts, by simpa using hout, .lineEnd htrivia (hgap hbreaks) hbreaks hts⟩
  | case2 l p cs seen q hg here ends =>
    obtain ⟨body, gap, hcs, hfinish, htrivia, hgap, -, hbody⟩ := Gap.exists_trivia l.breaksLine false p cs
    obtain rfl : body = [] := hbody
    simp only [hg, Gap.ahead, Gap.finish, Option.isSome_none, Bool.false_eq_true, if_false,
      Option.getD_none, List.nil_append, List.append_nil] at hcs hfinish htrivia
    subst hcs hfinish
    exact ⟨_, (Except.ok.inj h).symm, .finish htrivia hgap⟩
  | case3 => cases h
  | case4 l p cs seen q c r hg lx hlx e t ih =>
    obtain ⟨body, gap, hcs, hfinish, htrivia, hgap, -, hbody⟩ := Gap.exists_trivia l.breaksLine false p cs
    obtain rfl : body = [] := hbody
    simp only [hg, Gap.ahead, Gap.finish, Option.isSome_none, Bool.false_eq_true, if_false,
      Option.getD_none, List.nil_append] at hcs hfinish htrivia
    obtain ⟨ts, hout, hts⟩ := ih h
    rw [← lx.split] at hcs htrivia
    subst hcs hfinish
    exact ⟨t :: ts, by simpa using hout, .lexeme htrivia hgap (lexical_of_read hlx) hts⟩

theorem scanned_of_scan {src : String} {ts : List Token} (h : scan src = .ok ts) :
    Scanned {} .zero src.toList ts := by
  obtain ⟨ts', rfl, hscanned⟩ := scanned_of_scanFrom h
  exact hscanned

end Token

end Sluice
