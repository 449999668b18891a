import Sluice.Eval.Basic

/-! Declarations. Those of a block take effect before its other statements: first the types and
typeclasses, then the functions, then the implementations, and last the `derives` clauses, which
see all implementations of the block. -/
namespace Sluice.Eval

def bindName (name : String) (v : Value) (isPub : Bool) : Eval Unit :=
  modify fun m => m.bind name ⟨v, false, isPub⟩

/-- Change the registry, or fail at `span`. -/
def register (span : Span)
    (f : Registry Value → Except RegistrationError (Registry Value)) : Eval Unit := fun m =>
  match f m.registry with
  | .ok registry => .ok () { m with registry }
  | .error e => .error (.fault (.refused e span)) m

def declareAdt (a : Adt) : Eval Unit := modify fun m =>
  { m with registry := { m.registry with adts := m.registry.adts.declare a } }

def declareTypeclass (d : TypeclassDef) : Eval Unit := do
  register d.span (·.addClass (.ofDef d))
  d.methods.forM fun s => bindName s.name.text (.method s.name.text) true

def declareStruct (d : StructDef) : Eval Unit := do
  declareAdt (.ofStruct d)
  let fields := d.fields.map (·.name.text)
  bindName d.name.text (.constructor (.struct d.name.text fields)) true

/-- What the name of a variant stands for: itself, if it has no payload. -/
def variantValue (enumName : String) (v : Variant) : Value :=
  if v.arity = 0 then .variant enumName v.name none
  else .constructor (.variant enumName v.name v.arity)

def declareEnum (d : EnumDef) : Eval Unit := do
  let adt := Adt.ofEnum d
  adt.variants.forM fun v => bindName v.name (variantValue d.name.text v) true
  declareAdt adt

def declareType : Stmt → Eval Unit
  | .typeclass d => declareTypeclass d
  | .struct d => declareStruct d
  | .enum d => declareEnum d
  | _ => pure ()

def makeNamedFn (d : FnDecl) : Eval Value := makeFn (some d.name.text) d.params (.block d.body)

def declareFn : Stmt → Eval Unit
  | .fn d => do bindName d.name.text (← makeNamedFn d) d.isPub
  | _ => pure ()

def declareImpl : Stmt → Eval Unit
  | .impl d => do
    let methods ← d.methods.mapM fun f => return (f.name.text, f.params.length, ← makeNamedFn f)
    register d.span (·.addImpl d.typeclass.text (d.target.map (·.text)) methods)
  | _ => pure ()

/-- Check what the type now registered under a name derives. -/
def validate (name : String) (span : Span) : Eval Unit :=
  register span fun r =>
    match r.adts.get? name with
    | some adt => do r.checkDerives name adt.derives; return r
    | none => .ok r

def checkDerives : Stmt → Eval Unit
  | .struct d => if d.derives.isEmpty then pure () else validate d.name.text d.span
  | .enum d => if d.derives.isEmpty then pure () else validate d.name.text d.span
  | _ => pure ()

def declare (stmts : List Stmt) : Eval Unit := do
  stmts.forM declareType
  stmts.forM declareFn
  stmts.forM declareImpl
  stmts.forM checkDerives

end Sluice.Eval
