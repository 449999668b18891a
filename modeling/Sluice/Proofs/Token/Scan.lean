import Sluice.Token.Lexer

/-! Scanning a text gap by gap: what follows a gap is the end of a line, the end of the source or a
lexeme. -/
namespace Sluice.Token

def scanAfter (l : LineState) (seen : List Token) : Gap → Except LexError (List Token)
  | ⟨q, rest, some start⟩ =>
    scanFrom (l.next ⟨.stmtEnd, start.spanTo q⟩) q rest (⟨.stmtEnd, start.spanTo q⟩ :: seen)
  | ⟨q, [], none⟩ =>
    let here := q.spanTo q
    .ok (seen.reverse ++ if l.continues then [⟨.eof, here⟩] else [⟨.stmtEnd, here⟩, ⟨.eof, here⟩])
  | ⟨q, c :: r, none⟩ =>
    match Lexeme.read c r with
    | .error k => .error ⟨k, q.line, q.col⟩
    | .ok lx =>
      let e := q.after (c :: lx.tail)
      scanFrom (l.next ⟨lx.kind, q.spanTo e⟩) e lx.rest (⟨lx.kind, q.spanTo e⟩ :: seen)

theorem scanFrom_eq (l : LineState) (p : Position) (cs : List Char) (seen : List Token) :
    scanFrom l p cs seen = scanAfter l seen (Gap.skip l.breaksLine false p cs) := by
  rw [scanFrom]
  split
  next hg => exact (congrArg (scanAfter l seen) hg).symm
  next hg => exact (congrArg (scanAfter l seen) hg).symm
  next hg => exact (congrArg (scanAfter l seen) hg).symm

end Sluice.Token
