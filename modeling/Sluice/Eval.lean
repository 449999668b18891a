import Sluice.Eval.Expr
import Sluice.Eval.Stmt

/-! Running programs: the rules put together, each step on one unit of fuel less. -/
namespace Sluice

namespace Runner

/-- Run what takes at most `fuel` steps, one inside the other. -/
def ofFuel : (fuel : Nat) → Runner
  | 0 =>
    { expr := fun _ => throw .outOfFuel
      stmt := fun _ => throw .outOfFuel
      call := fun _ _ _ => throw .outOfFuel
      body := fun _ _ _ => throw .outOfFuel
      rounds := 0 }
  | fuel + 1 =>
    { expr := fun e => (ofFuel fuel).exprRule e
      stmt := fun s => (ofFuel fuel).stmtRule s
      call := fun f args span => (ofFuel fuel).callRule f args span
      body := fun c args span => (ofFuel fuel).bodyRule c args span
      rounds := fuel }

end Runner

end Sluice
