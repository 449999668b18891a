import Mathlib.Data.List.Forall2
import Sluice.Proofs.Check.Careful
import Sluice.Value.Construct

/-! A pattern takes apart what a constructor has put together. One argument is kept as it is and several as a
tuple, and a pattern with as many parts as the constructor has arguments finds each of them again, also if it
is a tuple itself. -/
namespace Sluice

def Constructor.name : Constructor → String
  | struct name _ | variant _ name _ => name

def Constructor.arity : Constructor → Nat
  | struct _ fields => fields.length
  | variant _ _ arity => arity

/-- The field of a struct is the argument at the place where the name is declared first. -/
theorem Value.field?_zip {type name : String} {fields : List String} {args : List Value}
    (hargs : args.length = fields.length) :
    (Value.struct type (fields.zip args)).field? name = args[fields.idxOf name]? := by
  induction fields generalizing args with
  | nil =>
    rw [List.eq_nil_of_length_eq_zero hargs]
    rfl
  | cons field fields ih =>
    cases args with
    | nil => cases hargs
    | cons v args =>
      have ih := ih (Nat.succ.inj hargs)
      rw [field?] at ih ⊢
      by_cases hfield : field = name
      · simp [hfield]
      · simpa [hfield, List.idxOf_cons_ne _ hfield] using ih

namespace Pattern

variable {adts : AdtTable} {bs : List (String × Value)}

/-- Each pattern matches its value, and `bs` is what they bind, one after the other. -/
def MatchEach (adts : AdtTable) (pairs : List (Pattern × Value)) (bs : List (String × Value)) : Prop :=
  ∃ parts, List.Forall₂ (fun e part => bindings? adts e.1 e.2 = some part) pairs parts ∧ bs = parts.flatten

theorem matchEach_nil : MatchEach adts [] bs ↔ bs = [] := by
  simp [MatchEach]

theorem matchEach_cons {e : Pattern × Value} {pairs : List (Pattern × Value)} :
    MatchEach adts (e :: pairs) bs ↔
      ∃ bs₁ bs₂, bindings? adts e.1 e.2 = some bs₁ ∧ MatchEach adts pairs bs₂ ∧ bs = bs₁ ++ bs₂ := by
  constructor
  · rintro ⟨parts, hparts, rfl⟩
    obtain ⟨bs₁, rest, hhead, hrest, rfl⟩ := List.forall₂_cons_left_iff.1 hparts
    exact ⟨bs₁, rest.flatten, hhead, ⟨rest, hrest, rfl⟩, List.flatten_cons⟩
  · rintro ⟨bs₁, _, hhead, ⟨rest, hrest, rfl⟩, rfl⟩
    exact ⟨bs₁ :: rest, .cons hhead hrest, List.flatten_cons.symm⟩

theorem bindingsAll?_eq_some_iff {ps : List Pattern} {vs : List Value} :
    bindingsAll? adts ps vs = some bs ↔ MatchEach adts (ps.zip vs) bs := by
  induction ps generalizing vs bs with
  | nil => simp [bindingsAll?, matchEach_nil, eq_comm]
  | cons p ps ih =>
    cases vs with
    | nil => simp [bindingsAll?, matchEach_nil, eq_comm]
    | cons v vs =>
      simp only [bindingsAll?, Option.pure_def, Option.bind_eq_bind, Option.bind_eq_some_iff,
        Option.some.injEq, List.zip_cons_cons, matchEach_cons, ih]
      constructor
      · rintro ⟨bs₁, h₁, bs₂, h₂, rfl⟩
        exact ⟨bs₁, bs₂, h₁, h₂, rfl⟩
      · rintro ⟨bs₁, bs₂, h₁, h₂, rfl⟩
        exact ⟨bs₁, h₁, bs₂, h₂, rfl⟩

/-- The fields are found, and their patterns match them. -/
theorem bindingsFields?_eq_some_iff {fields : List (Ident × Pattern)} {v : Value} :
    bindingsFields? adts fields v = some bs ↔
      ∃ values, List.Forall₂ (fun f u => v.field? f.1.text = some u) fields values ∧
        MatchEach adts ((fields.map (·.2)).zip values) bs := by
  induction fields generalizing bs with
  | nil => simp [bindingsFields?, matchEach_nil, eq_comm]
  | cons f fields ih =>
    simp only [bindingsFields?, Option.pure_def, Option.bind_eq_bind, Option.bind_eq_some_iff,
      Option.some.injEq, ih]
    constructor
    · rintro ⟨u, hu, bs₁, h₁, bs₂, ⟨values, hvalues, h₂⟩, rfl⟩
      exact ⟨u :: values, .cons hu hvalues, matchEach_cons.2 ⟨bs₁, bs₂, h₁, h₂, rfl⟩⟩
    · rintro ⟨_, hall, hmatch⟩
      obtain ⟨u, values, hu, hvalues, rfl⟩ := List.forall₂_cons_left_iff.1 hall
      obtain ⟨bs₁, bs₂, h₁, h₂, rfl⟩ := matchEach_cons.1 hmatch
      exact ⟨u, hu, bs₁, h₁, bs₂, ⟨values, hvalues, h₂⟩, rfl⟩

theorem bindingsAll?_names {ids : List Ident} {args : List Value}
    (hfresh : ∀ id ∈ ids, ¬ adts.Nullary id.text) :
    bindingsAll? adts (ids.map .name) args = some ((ids.map (·.text)).zip args) := by
  induction ids generalizing args with
  | nil => simp [bindingsAll?]
  | cons id ids ih =>
    rw [List.forall_mem_cons] at hfresh
    cases args with
    | nil => simp [bindingsAll?]
    | cons v args =>
      have hid : bindings? adts (.name id) v = some [(id.text, v)] := by
        rw [bindings?, matchName.eq_def]
        split
        next owner decl hdecl => exact if_neg fun harity => hfresh.1 ⟨owner, decl, hdecl, harity⟩
        next => rfl
      simp [bindingsAll?, hid, ih hfresh.2]

/-- What a constructor builds is matched by as many patterns as it has arguments, one by one. -/
theorem exists_build_eq (adts : AdtTable) {c : Constructor} {args : List Value} (span : Span)
    (hargs : args.length = c.arity) :
    ∃ v, c.build args span = .ok v ∧ ∀ head ps span', head.text = c.name → ps.length = args.length →
      bindings? adts (.variant head ps span') v = bindingsAll? adts ps args := by
  cases c with
  | struct name fields =>
    have hfields : fields.length = args.length := hargs.symm
    refine ⟨_, if_pos hargs, fun head ps span' hhead hps => ?_⟩
    have hlen : (fields.zip args).length = ps.length := by
      rw [List.length_zip, hfields, Nat.min_self, hps]
    rw [bindings?, if_pos ⟨hhead.symm, hlen⟩, List.map_snd_zip (Nat.le_of_eq hfields.symm)]
  | variant enumName name arity =>
    refine ⟨_, if_pos hargs, fun head ps span' hhead hps => ?_⟩
    have hname : name = head.text := hhead.symm
    rw [bindings?.eq_def]
    dsimp only
    rw [if_pos hname]
    match ps, args with
    | [], [] => simp [bindingsAll?]
    | [p], [v] => cases h : bindings? adts p v <;> simp [bindingsAll?, h]
    | p :: p' :: ps, v :: v' :: args => exact if_pos hps.symm

/-- A constructor with as many arguments as it wants builds a value. Patterns for all of the arguments match
it if and only if each matches its argument, and then bind what these bind, from left to right. The same goes
for a struct and patterns for some of its fields, in any order; a field is the argument at the place where
its name is declared. Names that are not variants without payload get just the arguments. -/
theorem bindings?_build (adts : AdtTable) (c : Constructor) (args : List Value) (span : Span)
    (hargs : args.length = c.arity) : ∃ v, c.build args span = .ok v ∧
      (∀ head ps span' bs, head.text = c.name → ps.length = args.length →
        (bindings? adts (.variant head ps span') v = some bs ↔ MatchEach adts (ps.zip args) bs)) ∧
      (∀ declared head fields span' bs, c = .struct head.text declared →
        (bindings? adts (.record head fields span') v = some bs ↔
          ∃ values, List.Forall₂ (fun f u => args[declared.idxOf f.1.text]? = some u) fields values ∧
            MatchEach adts ((fields.map (·.2)).zip values) bs)) ∧
      ∀ head (ids : List Ident) span', head.text = c.name → ids.length = args.length →
        (∀ id ∈ ids, ¬ adts.Nullary id.text) →
        bindings? adts (.variant head (ids.map .name) span') v =
          some ((ids.map (·.text)).zip args) := by
  obtain ⟨v, hbuild, hmatch⟩ := exists_build_eq adts span hargs
  refine ⟨v, hbuild, fun head ps span' bs hhead hps => ?_, fun declared head fields span' bs hc => ?_,
    fun head ids span' hhead hids hfresh => ?_⟩
  · rw [hmatch head ps span' hhead hps]
    exact bindingsAll?_eq_some_iff
  · subst hc
    obtain rfl := Except.ok.inj ((if_pos hargs).symm.trans hbuild)
    rw [bindings?, if_pos rfl, bindingsFields?_eq_some_iff]
    simp only [Value.field?_zip hargs]
  · rw [hmatch head _ span' hhead (by rw [List.length_map, hids])]
    exact bindingsAll?_names hfresh

/-- Takes a tuple as its only argument. -/
def box : Constructor := .variant "Holder" "Box" 1

def point : Constructor := .struct "Point" ["x", "y"]

def oneTwo : Value := .tuple [.int 1, .int 2]

/-- `Point { y: (a, b), x: c }` -/
def pointFields : List (Ident × Pattern) :=
  [(⟨"y", default⟩, .tuple [.name ⟨"a", default⟩, .name ⟨"b", default⟩] default),
   (⟨"x", default⟩, .name ⟨"c", default⟩)]

theorem oneTwo_recovered :
    (∃ v, box.build [oneTwo] default = .ok v ∧
      bindings? {} (.variant ⟨"Box", default⟩ [.name ⟨"t", default⟩] default) v = some [("t", oneTwo)]) ∧
    (∃ v, point.build [.int 3, oneTwo] default = .ok v ∧
      bindings? {} (.record ⟨"Point", default⟩ pointFields default) v =
        some [("a", .int 1), ("b", .int 2), ("c", .int 3)]) ∧
    ∃ v, point.build [.int 3, oneTwo] default = .ok v ∧
      bindings? {} (.variant ⟨"Point", default⟩ [.literal (.int 4) default, .wildcard default] default) v =
        none := by
  obtain ⟨v, hv, -, -, hfresh⟩ := bindings?_build {} box [oneTwo] default rfl
  obtain ⟨w, hw, hall, hfields, -⟩ := bindings?_build {} point [.int 3, oneTwo] default rfl
  refine ⟨⟨v, hv, hfresh _ [⟨"t", default⟩] _ rfl rfl (by decide)⟩, ⟨w, hw, ?_⟩, w, hw,
    Option.eq_none_iff_forall_ne_some.2 fun bs hmatch => ?_⟩
  · refine (hfields ["x", "y"] _ pointFields _ _ rfl).2 ⟨[oneTwo, .int 3], ?_, ?_⟩
    · exact .cons rfl (.cons rfl .nil)
    · exact ⟨[[("a", .int 1), ("b", .int 2)], [("c", .int 3)]], .cons rfl (.cons rfl .nil), rfl⟩
  · obtain ⟨_, _, hfour, -, -⟩ := matchEach_cons.1 ((hall _ _ _ _ rfl rfl).1 hmatch)
    simp [bindings?, Value.ofLiteral, Value.beq] at hfour

end Pattern

end Sluice
