import Mathlib.Data.List.Basic
import Sluice.Proofs.Arena.Holds

/-! Clients of the arena. A client names scopes by the number of the push that opened them, and keeps
handles and values outside. The same requests can be run on an arena that reclaims slots and on one
that never does; `Valid` says which requests are proper at a moment of the run, in terms of the arena
that never does. -/
namespace Sluice

/-! ### Scopes renamed -/

def Closure.rename (f : ScopeId → ScopeId) (c : Closure) : Closure := { c with scope := f c.scope }

namespace Value

mutual

def rename (f : ScopeId → ScopeId) : Value → Value
  | fn c => fn (c.rename f)
  | list vs => list (renameAll f vs)
  | tuple vs => tuple (renameAll f vs)
  | set vs => set (renameAll f vs)
  | map es => map (renameEntries f es)
  | just v => just (v.rename f)
  | struct name fs => struct name (renameFields f fs)
  | variant enumName name (some v) => variant enumName name (some (v.rename f))
  | v => v

def renameAll (f : ScopeId → ScopeId) : List Value → List Value
  | [] => []
  | v :: r => v.rename f :: renameAll f r

def renameEntries (f : ScopeId → ScopeId) : List (Value × Value) → List (Value × Value)
  | [] => []
  | (k, v) :: r => (k.rename f, v.rename f) :: renameEntries f r

def renameFields (f : ScopeId → ScopeId) : List (String × Value) → List (String × Value)
  | [] => []
  | (n, v) :: r => (n, v.rename f) :: renameFields f r

end

mutual

theorem closures_rename (f : ScopeId → ScopeId) :
    (v : Value) → (v.rename f).closures = v.closures.map (·.rename f)
  | fn c => by simp [rename, closures]
  | list vs => by simp [rename, closures, closuresAll_rename f vs]
  | tuple vs => by simp [rename, closures, closuresAll_rename f vs]
  | set vs => by simp [rename, closures, closuresAll_rename f vs]
  | map es => by simp [rename, closures, closuresEntries_rename f es]
  | just v => by simp [rename, closures, closures_rename f v]
  | struct name fs => by simp [rename, closures, closuresFields_rename f fs]
  | variant enumName name (some v) => by simp [rename, closures, closures_rename f v]
  | variant _ _ none | int _ | float _ | char _ | str _ | bool _ | nothing | builtin _ | host _
  | constructor _ | method _ | module _ | unit => by simp [rename, closures]

theorem closuresAll_rename (f : ScopeId → ScopeId) :
    (vs : List Value) → closuresAll (renameAll f vs) = (closuresAll vs).map (·.rename f)
  | [] => rfl
  | v :: r => by simp [renameAll, closuresAll, closures_rename f v, closuresAll_rename f r]

theorem closuresEntries_rename (f : ScopeId → ScopeId) : (es : List (Value × Value)) →
    closuresEntries (renameEntries f es) = (closuresEntries es).map (·.rename f)
  | [] => rfl
  | (k, v) :: r => by
    simp [renameEntries, closuresEntries, closures_rename f k, closures_rename f v,
      closuresEntries_rename f r]

theorem closuresFields_rename (f : ScopeId → ScopeId) : (fs : List (String × Value)) →
    closuresFields (renameFields f fs) = (closuresFields fs).map (·.rename f)
  | [] => rfl
  | (_, v) :: r => by
    simp [renameFields, closuresFields, closures_rename f v, closuresFields_rename f r]

end

mutual

theorem rename_id : (v : Value) → v.rename id = v
  | fn c => by simp [rename, Closure.rename]
  | list vs => by simp [rename, renameAll_id vs]
  | tuple vs => by simp [rename, renameAll_id vs]
  | set vs => by simp [rename, renameAll_id vs]
  | map es => by simp [rename, renameEntries_id es]
  | just v => by simp [rename, rename_id v]
  | struct name fs => by simp [rename, renameFields_id fs]
  | variant enumName name (some v) => by simp [rename, rename_id v]
  | variant _ _ none | int _ | float _ | char _ | str _ | bool _ | nothing | builtin _ | host _
  | constructor _ | method _ | module _ | unit => by simp [rename]

theorem renameAll_id : (vs : List Value) → renameAll id vs = vs
  | [] => rfl
  | v :: r => by simp [renameAll, rename_id v, renameAll_id r]

theorem renameEntries_id : (es : List (Value × Value)) → renameEntries id es = es
  | [] => rfl
  | (k, v) :: r => by simp [renameEntries, rename_id k, rename_id v, renameEntries_id r]

theorem renameFields_id : (fs : List (String × Value)) → renameFields id fs = fs
  | [] => rfl
  | (_, v) :: r => by simp [renameFields, rename_id v, renameFields_id r]

end

variable {f g k : ScopeId → ScopeId}

mutual

/-- Two renamings in a row, when they agree with a third on the functions of the value. -/
theorem rename_rename : (v : Value) → (∀ c ∈ v.closures, g (f c.scope) = k c.scope) →
    (v.rename f).rename g = v.rename k
  | fn c, h => by simpa [rename, Closure.rename, closures] using h
  | list vs, h => by simp [rename, renameAll_renameAll vs (by simpa [closures] using h)]
  | tuple vs, h => by simp [rename, renameAll_renameAll vs (by simpa [closures] using h)]
  | set vs, h => by simp [rename, renameAll_renameAll vs (by simpa [closures] using h)]
  | map es, h => by simp [rename, renameEntries_renameEntries es (by simpa [closures] using h)]
  | just v, h => by simp [rename, rename_rename v (by simpa [closures] using h)]
  | struct name fs, h => by
    simp [rename, renameFields_renameFields fs (by simpa [closures] using h)]
  | variant enumName name (some v), h => by
    simp [rename, rename_rename v (by simpa [closures] using h)]
  | variant _ _ none, _ | int _, _ | float _, _ | char _, _ | str _, _ | bool _, _ | nothing, _
  | builtin _, _ | host _, _ | constructor _, _ | method _, _ | module _, _ | unit, _ => by
    simp [rename]

theorem renameAll_renameAll : (vs : List Value) →
    (∀ c ∈ closuresAll vs, g (f c.scope) = k c.scope) → renameAll g (renameAll f vs) = renameAll k vs
  | [], _ => rfl
  | v :: r, h => by
    simp only [closuresAll, List.mem_append] at h
    simp [renameAll, rename_rename v fun c hc => h c (.inl hc),
      renameAll_renameAll r fun c hc => h c (.inr hc)]

theorem renameEntries_renameEntries : (es : List (Value × Value)) →
    (∀ c ∈ closuresEntries es, g (f c.scope) = k c.scope) →
    renameEntries g (renameEntries f es) = renameEntries k es
  | [], _ => rfl
  | (x, v) :: r, h => by
    simp only [closuresEntries, List.mem_append] at h
    simp [renameEntries, rename_rename x fun c hc => h c (.inl (.inl hc)),
      rename_rename v fun c hc => h c (.inl (.inr hc)),
      renameEntries_renameEntries r fun c hc => h c (.inr hc)]

theorem renameFields_renameFields : (fs : List (String × Value)) →
    (∀ c ∈ closuresFields fs, g (f c.scope) = k c.scope) →
    renameFields g (renameFields f fs) = renameFields k fs
  | [], _ => rfl
  | (_, v) :: r, h => by
    simp only [closuresFields, List.mem_append] at h
    simp [renameFields, rename_rename v fun c hc => h c (.inl hc),
      renameFields_renameFields r fun c hc => h c (.inr hc)]

end

theorem rename_congr (v : Value) (h : ∀ c ∈ v.closures, f c.scope = g c.scope) :
    v.rename f = v.rename g := by
  rw [← rename_id (v.rename f)]
  exact rename_rename v h

end Value

def Binding.rename (f : ScopeId → ScopeId) (b : Binding) : Binding :=
  { b with value := b.value.rename f }

/-! ### Requests and answers -/

/-- What a client can ask for. Scopes, also those of functions in values, are named by number. -/
inductive Request where
  | push (parent : Option ScopeId)
  | hold (s : ScopeId)
  /-- Give back the handle at a place. -/
  | unhold (i : Nat)
  /-- Make a function and keep it outside. -/
  | makeFn (s : ScopeId) (name : Option String) (params : List String) (body : FnBody)
  /-- Keep a value outside. -/
  | keep (v : Value)
  /-- Drop the value kept at a place. -/
  | forget (i : Nat)
  | define (s : ScopeId) (name : String) (b : Binding)
  | assign (s : ScopeId) (name : String) (v : Value)
  | release (s : ScopeId) (o : SweepOrder)
  | sweep (o : SweepOrder)
  | lookup (s : ScopeId) (name : String)
  /-- Look a name up in the scope itself. -/
  | ownBinding (s : ScopeId) (name : String)
  | find (s : ScopeId) (name : String)
  | exports (s : ScopeId)

inductive Answer where
  | done
  | scope (s : ScopeId)
  | value (v : Option Value)
  | binding (b : Option Binding)
  | found (b : Option (ScopeId × Binding))
  | assigned (e : Option AssignError)
  | exports (l : List (String × Value))

def Answer.rename (f : ScopeId → ScopeId) : Answer → Answer
  | done => done
  | scope s => scope (f s)
  | value v => value (v.map (·.rename f))
  | binding b => binding (b.map (·.rename f))
  | found b => found (b.map fun (s, b) => (f s, b.rename f))
  | assigned e => assigned e
  | exports l => exports (l.map fun (n, v) => (n, v.rename f))

structure Policy where
  release : Arena → SweepOrder → List Value → ScopeId → Arena
  sweep : Arena → SweepOrder → List Value → Arena

namespace Policy

def reclaiming : Policy := ⟨Arena.releaseBy, Arena.sweepBy⟩

/-- Nothing is ever freed, so that each push gives a slot that no scope had before. -/
def keeping : Policy := ⟨fun a _ _ _ => a, fun a _ _ => a⟩

end Policy

/-! ### Sessions -/

structure Session where
  arena : Arena := {}
  /-- The slots that the pushes gave, in order. -/
  slots : List ScopeId := []
  /-- The scopes that were opened and not closed. -/
  running : List ScopeId := []
  /-- The scope that each handle is on. A handle that was taken on an empty slot is on none. -/
  handles : List (Option ScopeId) := []
  /-- The values kept outside, as the arena knows them. -/
  values : List Value := []

namespace Session

/-- The slot that a push gave. -/
def slotOf (c : Session) (s : ScopeId) : ScopeId := c.slots.getD s 0

/-- The number of the scope that was put in a slot last. -/
def numberOf (c : Session) (slot : ScopeId) : ScopeId :=
  ((List.range c.slots.length).reverse.find? (c.slotOf · = slot)).getD 0

/-- The scope is still in the slot that it was given. -/
def InPlace (c : Session) (s : ScopeId) : Prop :=
  s < c.slots.length ∧ (c.arena.scope? (c.slotOf s)).isSome ∧ c.numberOf (c.slotOf s) = s

def tenant? (c : Session) (slot : ScopeId) : Option ScopeId :=
  (c.arena.scope? slot).map fun _ => c.numberOf slot

/-- The arena in which the handle at a place has been given back. Where its scope has gone, the handle
counts for none that came after. -/
def unheld (c : Session) (i : Nat) : Arena :=
  match (c.handles[i]?).join with
  | some s => if c.tenant? (c.slotOf s) = some s then c.arena.unhold (c.slotOf s) else c.arena
  | none => c.arena

theorem unheld_eq (c : Session) (i : Nat) :
    c.unheld i = c.arena ∨ ∃ s, c.unheld i = c.arena.unhold s := by
  rw [unheld]
  split
  · split
    · exact .inr ⟨_, rfl⟩
    · exact .inl rfl
  · exact .inl rfl

/-- Do as asked. The answer names scopes by slot. -/
def reply (p : Policy) (c : Session) : Request → Answer × Session
  | .push parent =>
    let (s, arena) := c.arena.push (parent.map c.slotOf)
    (.scope s, { c with
      arena, slots := c.slots ++ [s], running := c.slots.length :: c.running })
  | .hold s =>
    (.done, { c with
      arena := c.arena.hold (c.slotOf s), handles := c.handles ++ [c.tenant? (c.slotOf s)] })
  | .unhold i => (.done, { c with arena := c.unheld i, handles := c.handles.eraseIdx i })
  | .makeFn s name params body =>
    let (f, arena) := c.arena.makeClosure (c.slotOf s) name params body
    (.value (some (.fn f)), { c with arena, values := c.values ++ [.fn f] })
  | .keep v => (.done, { c with values := c.values ++ [v.rename c.slotOf] })
  | .forget i => (.done, { c with values := c.values.eraseIdx i })
  | .define s name b =>
    (.done, { c with arena := c.arena.define (c.slotOf s) name (b.rename c.slotOf) })
  | .assign s name v =>
    match c.arena.assign (c.slotOf s) name (v.rename c.slotOf) with
    | .ok arena => (.assigned none, { c with arena })
    | .error e => (.assigned (some e), c)
  | .release s o =>
    (.done, { c with
      arena := p.release c.arena o c.values (c.slotOf s), running := c.running.filter (· ≠ s) })
  | .sweep o => (.done, { c with arena := p.sweep c.arena o c.values })
  | .lookup s name => (.value (c.arena.lookup? (c.slotOf s) name), c)
  | .ownBinding s name => (.binding (c.arena.local? (c.slotOf s) name), c)
  | .find s name => (.found (c.arena.find? (c.slotOf s) name), c)
  | .exports s => (.exports (c.arena.exports (c.slotOf s)), c)

def step (p : Policy) (c : Session) (r : Request) : Answer × Session :=
  let (a, c) := c.reply p r
  (a.rename c.numberOf, c)

def run (p : Policy) (c : Session) : List Request → List Answer × Session
  | [] => ([], c)
  | r :: rs =>
    let (a, c) := c.step p r
    let (as, c) := c.run p rs
    (a :: as, c)

def after (script : List Request) : Session := (run .reclaiming {} script).2

theorem run_append (p : Policy) (c : Session) (script rest : List Request) :
    (c.run p (script ++ rest)).2 = ((c.run p script).2.run p rest).2 := by
  induction script generalizing c with
  | nil => rfl
  | cons r script ih => exact ih _

/-! ### Proper requests -/

/-- The scopes that can be reached, in a session that keeps every scope. -/
inductive Reaches (c : Session) : ScopeId → Prop where
  | running {s : ScopeId} : s ∈ c.running → Reaches c s
  | handle {s : ScopeId} : some s ∈ c.handles → Reaches c s
  | value {v : Value} {s : ScopeId} : v ∈ c.values → s ∈ v.scopes → Reaches c s
  | link {s t : ScopeId} {sc : Scope} :
    Reaches c s → c.arena.scope? s = some sc → t ∈ sc.links → Reaches c t

/-- The functions in a value are ones that the client can get at. -/
def Available (c : Session) (v : Value) : Prop :=
  ∀ f ∈ v.closures, (∃ w ∈ c.values, f ∈ w.closures) ∨
    ∃ s sc, c.Reaches s ∧ c.arena.scope? s = some sc ∧ f ∈ sc.functions

/-- The scopes that a request names can be reached, and so can the functions in its values. -/
def Valid (c : Session) : Request → Prop
  | .push parent => ∀ p, parent = some p → c.Reaches p
  | .unhold i => i < c.handles.length
  | .keep v => c.Available v
  | .define s _ b => c.Reaches s ∧ c.Available b.value
  | .assign s _ v => c.Reaches s ∧ c.Available v
  | .hold s | .makeFn s _ _ _ | .release s _ | .lookup s _ | .ownBinding s _ | .find s _
  | .exports s => c.Reaches s
  | .forget _ | .sweep _ => True

def ValidRun (c : Session) : List Request → Prop
  | [] => True
  | r :: rs => c.Valid r ∧ (c.step .keeping r).2.ValidRun rs

end Session

end Sluice
