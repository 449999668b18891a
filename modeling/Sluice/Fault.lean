import Sluice.Typeclass
import Sluice.Value.Show

/-! What can go wrong while a program runs, and how it is told. -/
namespace Sluice

inductive Fault.Kind where
  | undefinedIdentifier
  | constReassignment
  | arityError
  | nonExhaustiveMatch
  | missingImplementation
  | indexOutOfBounds
  | keyNotFound
  | divisionByZero
  | typeMismatch
  | callDepthExceeded
  | controlOutsideLoop
  | returnOutsideFunction
  /-- A declaration that the typeclass registry refuses. -/
  | registration
  /-- A host function that failed. -/
  | host
deriving DecidableEq, Repr

def Fault.Kind.name : Fault.Kind → String
  | undefinedIdentifier => "UndefinedIdentifier"
  | constReassignment => "ConstReassignment"
  | arityError => "ArityError"
  | nonExhaustiveMatch => "NonExhaustiveMatch"
  | missingImplementation => "MissingImplementation"
  | indexOutOfBounds => "IndexOutOfBounds"
  | keyNotFound => "KeyNotFound"
  | divisionByZero => "DivisionByZero"
  | typeMismatch => "TypeMismatch"
  | callDepthExceeded => "CallDepthExceeded"
  | controlOutsideLoop => "ControlOutsideLoop"
  | returnOutsideFunction => "ReturnOutsideFunction"
  | registration => "Registration"
  | host => "Host"

structure Fault where
  kind : Fault.Kind
  message : String
  span : Span
deriving DecidableEq, Repr

namespace Fault

/-! ### Names -/

def undefinedVariable (name : String) (span : Span) : Fault :=
  ⟨.undefinedIdentifier, s!"undefined variable `{name}`", span⟩

def strayPlaceholder (span : Span) : Fault :=
  ⟨.undefinedIdentifier, "`_` outside a composition stage", span⟩

def unknownModule (name : String) (span : Span) : Fault :=
  ⟨.undefinedIdentifier, s!"unknown module `{name}`", span⟩

def notExported (source name : String) (span : Span) : Fault :=
  ⟨.undefinedIdentifier, s!"module `{source}` does not export `{name}`", span⟩

/-- A struct `type` without the field. -/
def noField (type : String) (field : Ident) : Fault :=
  ⟨.undefinedIdentifier, s!"`{type}` has no field `{field.text}`", field.span⟩

/-- A path through a value that does not have the field. -/
def noFieldOnPath (type : String) (field : Ident) : Fault :=
  ⟨.undefinedIdentifier, s!"{type} has no field `{field.text}`", field.span⟩

/-- A value that is no struct. -/
def noFields (type : String) (field : Ident) : Fault :=
  ⟨.typeMismatch, s!"{type} has no field `{field.text}`", field.span⟩

def noMethod (type : String) (method : Ident) : Fault :=
  ⟨.undefinedIdentifier, s!"no method `{method.text}` for {type}", method.span⟩

def constRedefined (name : String) (span : Span) : Fault :=
  ⟨.constReassignment, s!"cannot redefine constant `{name}`", span⟩

def constReassigned (name : String) (span : Span) : Fault :=
  ⟨.constReassignment, s!"cannot reassign constant `{name}`", span⟩

/-- The variable went away or became constant while its new value was computed. -/
def notReassignable (name : String) (span : Span) : Fault :=
  ⟨.constReassignment, s!"cannot reassign `{name}`", span⟩

def boundTwice (name : String) (span : Span) : Fault :=
  ⟨.typeMismatch, s!"`{name}` is bound more than once in the same pattern", span⟩

/-! ### Control -/

def strayReturn (span : Span) : Fault :=
  ⟨.returnOutsideFunction, "`return` outside of a function", span⟩

def strayLoopControl (span : Span) : Fault :=
  ⟨.controlOutsideLoop, "loop control outside of a loop", span⟩

def noArmMatches (v : Value) (span : Span) : Fault :=
  ⟨.nonExhaustiveMatch, s!"no pattern matched value {v.repr}", span⟩

def elementMismatch (v : Value) (span : Span) : Fault :=
  ⟨.typeMismatch, s!"pattern does not match element {v.repr}", span⟩

def notACondition (v : Value) (span : Span) : Fault :=
  ⟨.typeMismatch, s!"condition must be Bool, got {v.tag}", span⟩

def notIterable (v : Value) (span : Span) : Fault :=
  ⟨.typeMismatch, s!"cannot iterate over {v.tag}", span⟩

def notRangeBounds (lo hi : Value) (span : Span) : Fault :=
  ⟨.typeMismatch, s!"range bounds must be Int, got {lo.tag} and {hi.tag}", span⟩

/-! ### Calls -/

def notCallable (v : Value) (span : Span) : Fault :=
  ⟨.typeMismatch, s!"{v.repr} is not callable", span⟩

def wrongArgCount (name : String) (expected got : Nat) (span : Span) : Fault :=
  ⟨.arityError, s!"`{name}` expects {expected} argument(s), got {got}", span⟩

def notOneArg (name : String) (got : Nat) (span : Span) : Fault :=
  ⟨.arityError, s!"`{name}` expects 1 argument, got {got}", span⟩

def wrongFieldCount (name : String) (fields got : Nat) (span : Span) : Fault :=
  ⟨.arityError, s!"`{name}` has {fields} field(s), got {got} argument(s)", span⟩

def composedArgs (got : Nat) (span : Span) : Fault :=
  ⟨.arityError, s!"composed function takes at most 1 argument, got {got}", span⟩

def noReceiver (method : String) (span : Span) : Fault :=
  ⟨.arityError, s!"method `{method}` needs a receiver argument", span⟩

def notImplemented (typeclass method type : String) (span : Span) : Fault :=
  ⟨.missingImplementation,
    s!"no implementation of `{typeclass}.{method}` for type `{type}`", span⟩

def callTooDeep (limit : Nat) (span : Span) : Fault :=
  ⟨.callDepthExceeded, s!"maximum call depth of {limit} exceeded", span⟩

def notACollection (v : Value) (span : Span) : Fault :=
  ⟨.typeMismatch, s!"len expects a collection or String, got {v.tag}", span⟩

def refused (e : RegistrationError) (span : Span) : Fault := ⟨.registration, e.message, span⟩

def hostFailed (name message : String) (span : Span) : Fault :=
  ⟨.host, s!"{name}: {message}", span⟩

/-! ### Elements and fields -/

def outOfBounds (i : Int) (length : Nat) (span : Span) : Fault :=
  ⟨.indexOutOfBounds, s!"index {i} out of bounds for length {length}", span⟩

def noKey (key : Value) (span : Span) : Fault :=
  ⟨.keyNotFound, s!"key {key.repr} not found", span⟩

def notIndexable (base key : Value) (span : Span) : Fault :=
  ⟨.typeMismatch, s!"cannot index {base.tag} with {key.tag}", span⟩

def noElementToAssign (v : Value) (span : Span) : Fault :=
  ⟨.typeMismatch, s!"cannot assign into an element of {v.tag}", span⟩

def noFieldToAssign (v : Value) (field : Ident) : Fault :=
  ⟨.typeMismatch, s!"cannot assign field `{field.text}` of {v.tag}", field.span⟩

def notAPlace (span : Span) : Fault := ⟨.typeMismatch, "invalid assignment target", span⟩

/-! ### Operators -/

def notBool (op : BinaryOp) (v : Value) (span : Span) : Fault :=
  ⟨.typeMismatch, s!"`{op.sign}` expects Bool, got {v.tag}", span⟩

def unaryMismatch (op : UnaryOp) (v : Value) (span : Span) : Fault :=
  ⟨.typeMismatch, s!"`{op.sign}` cannot apply to {v.tag}", span⟩

def binaryMismatch (op : BinaryOp) (l r : Value) (span : Span) : Fault :=
  ⟨.typeMismatch, s!"`{op.sign}` cannot apply to {l.tag} and {r.tag}", span⟩

def incomparable (l r : Value) (span : Span) : Fault :=
  ⟨.typeMismatch, s!"cannot compare {l.tag} with {r.tag}", span⟩

def remainderByZero (span : Span) : Fault := ⟨.divisionByZero, "remainder by zero", span⟩

def badShift (amount : Int) (span : Span) : Fault :=
  ⟨.typeMismatch, s!"negative shift amount {amount}", span⟩

end Fault

end Sluice
