import Sluice.Ast
import Sluice.Table

/-! A check before a module runs: no constant is assigned to or defined again. -/
namespace Sluice

structure CheckError where
  name : String
  span : Span
deriving DecidableEq, Repr

def CheckError.message (e : CheckError) : String :=
  s!"cannot reassign constant `{e.name}` at {e.span.place}"

namespace ConstCheck

/-- For each scope, innermost first, its names and whether they are constant. -/
abbrev Scopes := List (Table String Bool)

/-- The scope around every module: the arguments of the program are constant. -/
def prelude : Scopes := [[("args", true)]]

def bind (scopes : Scopes) (name : String) (isConst : Bool) : Scopes :=
  match scopes with
  | [] => []
  | s :: r => s.insert name isConst :: r

/-- Whether the nearest binding of `name` is constant. -/
def find? (scopes : Scopes) (name : String) : Option Bool := scopes.findSome? (·.get? name)

def bindParams (scopes : Scopes) (params : List Param) : Scopes :=
  params.foldl (fun s p => bind s p.name.text false) scopes

/-- Functions are visible in all of their block. -/
def bindFns (scopes : Scopes) (body : List Stmt) : Scopes :=
  body.foldl (fun s st => match st with
    | .fn d => bind s d.name.text false
    | _ => s) scopes

mutual

def bindPattern (scopes : Scopes) : Pattern → Scopes
  | .name id => bind scopes id.text false
  | .just p _ => bindPattern scopes p
  | .variant _ ps _ | .tuple ps _ => bindPatterns scopes ps
  | .record _ fs _ => bindFields scopes fs
  | .wildcard _ | .literal .. | .nothing _ => scopes

def bindPatterns (scopes : Scopes) : List Pattern → Scopes
  | [] => scopes
  | p :: r => bindPatterns (bindPattern scopes p) r

def bindFields (scopes : Scopes) : List (Ident × Pattern) → Scopes
  | [] => scopes
  | (_, p) :: r => bindFields (bindPattern scopes p) r

end

/-- The scopes after a statement. -/
def bindStmt (scopes : Scopes) : Stmt → Scopes
  | .var name _ isConst _ _ _ => bind scopes name.text isConst
  | .assign (.var id) _ _ _ =>
    match find? scopes id.text with
    | some _ => scopes
    | none => bind scopes id.text false
  | _ => scopes

mutual

/-- Expressions matter only for the functions inside them. -/
def expr (scopes : Scopes) : Expr → List CheckError
  | .lambda params _ body _ => block (bindParams ([] :: scopes) params) body
  | .lit .. | .var _ | .placeholder _ => []
  | .index b k _ => expr scopes b ++ expr scopes k
  | .member b _ _ => expr scopes b
  | .unary _ e _ => expr scopes e
  | .paren e _ => expr scopes e
  | .call f args _ => expr scopes f ++ exprs scopes args
  | .binary l _ r _ => expr scopes l ++ expr scopes r
  | .range lo hi _ => expr scopes lo ++ expr scopes hi
  | .list es _ | .tuple es _ | .compose es _ _ => exprs scopes es
  | .map es _ => entries scopes es

def exprs (scopes : Scopes) : List Expr → List CheckError
  | [] => []
  | e :: r => expr scopes e ++ exprs scopes r

def entries (scopes : Scopes) : List (Expr × Expr) → List CheckError
  | [] => []
  | (k, v) :: r => expr scopes k ++ expr scopes v ++ entries scopes r

def block (scopes : Scopes) : Block → List CheckError
  | ⟨body, _⟩ => stmts (bindFns ([] :: scopes) body) [] body

/-- The findings in a list of statements after those of `found`, which come last first. -/
def stmts (scopes : Scopes) (found : List CheckError) : List Stmt → List CheckError
  | [] => found.reverse
  | s :: r => stmts (bindStmt scopes s) ((stmt scopes s).reverse ++ found) r

def fn (scopes : Scopes) : FnDecl → List CheckError
  | ⟨_, params, _, body, _, _⟩ => block (bindParams ([] :: scopes) params) body

def fns (scopes : Scopes) : List FnDecl → List CheckError
  | [] => []
  | d :: r => fn scopes d ++ fns scopes r

def branches (scopes : Scopes) : List (Expr × Block) → List CheckError
  | [] => []
  | (c, b) :: r => expr scopes c ++ block scopes b ++ branches scopes r

def arm (scopes : Scopes) : MatchArm → List CheckError
  | ⟨pat, .expr e, _⟩ => expr (bindPattern ([] :: scopes) pat) e
  | ⟨pat, .block b, _⟩ => block (bindPattern ([] :: scopes) pat) b

def arms (scopes : Scopes) : List MatchArm → List CheckError
  | [] => []
  | a :: r => arm scopes a ++ arms scopes r

def impl (scopes : Scopes) : ImplDef → List CheckError
  | ⟨_, _, methods, _⟩ => fns scopes methods

def stmt (scopes : Scopes) : Stmt → List CheckError
  | .var name _ _ _ value span =>
    expr scopes value ++
      if (scopes.head?.bind (·.get? name.text)) = some true then [⟨name.text, span⟩] else []
  | .assign (.var id) _ value span =>
    expr scopes value ++ if find? scopes id.text = some true then [⟨id.text, span⟩] else []
  | .assign target _ value _ => expr scopes value ++ expr scopes target
  | .fn d => fn scopes d
  | .impl d => impl scopes d
  | .struct _ | .enum _ | .typeclass _ | .use .. | .leave _ | .next _ => []
  | .forIn pat iter body _ =>
    expr scopes iter ++ block (bindPattern ([] :: scopes) pat) body
  | .cond bs otherwise _ =>
    branches scopes bs ++ match otherwise with
      | none => []
      | some b => block scopes b
  | .loop test body _ => expr scopes test ++ block scopes body
  | .select scrutinee as _ => expr scopes scrutinee ++ arms scopes as
  -- the body of a module does not see the scopes around it
  | .submodule _ body _ => block prelude body
  | .ret none _ => []
  | .ret (some e) _ => expr scopes e
  | .expr e _ => expr scopes e

end

end ConstCheck

/-- Every constant that a module would change, in the order of the text. -/
def Module.checkConsts (m : Module) : List CheckError := ConstCheck.block ConstCheck.prelude m.body

end Sluice
