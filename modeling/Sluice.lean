import Sluice.Adt
import Sluice.Ast
import Sluice.Ast.Outline
import Sluice.Ast.Show
import Sluice.Binary64
import Sluice.Command
import Sluice.ConstCheck
import Sluice.Decimal
import Sluice.Digest
import Sluice.Eval
import Sluice.Eval.Assign
import Sluice.Eval.Basic
import Sluice.Eval.Call
import Sluice.Eval.Declare
import Sluice.Eval.Expr
import Sluice.Eval.Stmt
import Sluice.Fault
import Sluice.Files
import Sluice.Host
import Sluice.Json
import Sluice.Machine
import Sluice.Main
import Sluice.Moment
import Sluice.Parser.Basic
import Sluice.Parser.Declaration
import Sluice.Parser.Module
import Sluice.Parser.Pattern
import Sluice.Parser.Type
import Sluice.Pattern.Match
import Sluice.Printf
import Sluice.Program
import Sluice.Proofs.Adt.Variants
import Sluice.Proofs.Arena.Chain
import Sluice.Proofs.Arena.Counted
import Sluice.Proofs.Arena.Counting
import Sluice.Proofs.Arena.Detached
import Sluice.Proofs.Arena.Folded
import Sluice.Proofs.Arena.Freeing
import Sluice.Proofs.Arena.Holds
import Sluice.Proofs.Arena.Mirror
import Sluice.Proofs.Arena.Opening
import Sluice.Proofs.Arena.Peak
import Sluice.Proofs.Arena.Prompt
import Sluice.Proofs.Arena.Reclamation
import Sluice.Proofs.Arena.Retained
import Sluice.Proofs.Arena.Rooted
import Sluice.Proofs.Arena.Session
import Sluice.Proofs.Arena.Shape
import Sluice.Proofs.Arena.Sharing
import Sluice.Proofs.Arena.Slots
import Sluice.Proofs.Arena.Sweep
import Sluice.Proofs.Ast.Descent
import Sluice.Proofs.Ast.Piece
import Sluice.Proofs.Ast.Respan
import Sluice.Proofs.Check.Blocks
import Sluice.Proofs.Check.Careful
import Sluice.Proofs.Check.Ledger
import Sluice.Proofs.Check.Scopes
import Sluice.Proofs.Check.Sight
import Sluice.Proofs.Check.Soundness
import Sluice.Proofs.Eval.Accounted
import Sluice.Proofs.Eval.Agree
import Sluice.Proofs.Eval.AgreeRules
import Sluice.Proofs.Eval.Alive
import Sluice.Proofs.Eval.Composition
import Sluice.Proofs.Eval.Compositional
import Sluice.Proofs.Eval.Constancy
import Sluice.Proofs.Eval.Deferred
import Sluice.Proofs.Eval.Discipline
import Sluice.Proofs.Eval.Folding
import Sluice.Proofs.Eval.Frame
import Sluice.Proofs.Eval.Fuel
import Sluice.Proofs.Eval.Housed
import Sluice.Proofs.Eval.Lockstep
import Sluice.Proofs.Eval.Lodged
import Sluice.Proofs.Eval.Obey
import Sluice.Proofs.Eval.Rearranged
import Sluice.Proofs.Eval.Regular
import Sluice.Proofs.Eval.Replaced
import Sluice.Proofs.Eval.Restore
import Sluice.Proofs.Eval.Rules
import Sluice.Proofs.Eval.Stored
import Sluice.Proofs.Eval.Update
import Sluice.Proofs.Eval.Watch
import Sluice.Proofs.Host.Calls
import Sluice.Proofs.Host.Directives
import Sluice.Proofs.Host.Traced
import Sluice.Proofs.Host.Unobserved
import Sluice.Proofs.Parser.Below
import Sluice.Proofs.Parser.Consumed
import Sluice.Proofs.Parser.Counter
import Sluice.Proofs.Parser.Grammar
import Sluice.Proofs.Parser.InStep
import Sluice.Proofs.Parser.InStepParts
import Sluice.Proofs.Parser.InStepTree
import Sluice.Proofs.Parser.Laid
import Sluice.Proofs.Parser.LaidParts
import Sluice.Proofs.Parser.LaidTree
import Sluice.Proofs.Parser.Nesting
import Sluice.Proofs.Parser.Precedence
import Sluice.Proofs.Parser.Proper
import Sluice.Proofs.Parser.Repeats
import Sluice.Proofs.Parser.RepeatsTree
import Sluice.Proofs.Parser.Spans
import Sluice.Proofs.Parser.Unambiguous
import Sluice.Proofs.Parser.Uncounted
import Sluice.Proofs.Parser.Wellformed
import Sluice.Proofs.Parser.Yields
import Sluice.Proofs.Parts
import Sluice.Proofs.Pattern.Bindings
import Sluice.Proofs.Pattern.Destructure
import Sluice.Proofs.ReadBack.Lexeme
import Sluice.Proofs.ReadBack.Parse
import Sluice.Proofs.ReadBack.Run
import Sluice.Proofs.ReadBack.Scan
import Sluice.Proofs.Token.Account
import Sluice.Proofs.Token.Below
import Sluice.Proofs.Token.Lexical
import Sluice.Proofs.Token.LineEnd
import Sluice.Proofs.Token.Placement
import Sluice.Proofs.Token.Respaced
import Sluice.Proofs.Token.Scan
import Sluice.Proofs.Token.Scanned
import Sluice.Proofs.Typeclass.Derived
import Sluice.Proofs.Typeclass.Fitting
import Sluice.Proofs.Typeclass.History
import Sluice.Proofs.Typeclass.Mapped
import Sluice.Proofs.Value.Equivalence
import Sluice.Proofs.Value.Lens
import Sluice.Proofs.Value.MapFns
import Sluice.Proofs.Value.Maps
import Sluice.Proofs.Value.Path
import Sluice.Proofs.Value.Relabelled
import Sluice.Proofs.Value.Sane
import Sluice.Proofs.Value.Sets
import Sluice.Proofs.Value.Wrapping
import Sluice.Scope
import Sluice.Scope.Arena
import Sluice.Source
import Sluice.Span
import Sluice.Table
import Sluice.Text.Quoted
import Sluice.Text.Unprintable
import Sluice.Token
import Sluice.Token.Lexer
import Sluice.Trace
import Sluice.Typeclass
import Sluice.Value
import Sluice.Value.Construct
import Sluice.Value.Equality
import Sluice.Value.Operators
import Sluice.Value.Path
import Sluice.Value.Show
