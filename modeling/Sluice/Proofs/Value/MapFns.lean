import Sluice.Proofs.Value.Equivalence

/-! Values with their functions replaced. Operations on values look at no more of a function than its name
and which function it is. So what they make of values whose functions were replaced, with the same name
and different functions by different ones, is what they make of the values, with its functions replaced. -/
namespace Sluice

/-- Functions get others of the same name in their place, and different ones of `Q` get different ones. -/
structure Closure.Relabels (Q : Closure → Prop) (g : Closure → Closure) : Prop where
  name : ∀ c, (g c).name = c.name
  id : ∀ c d, Q c → Q d → ((g c).id = (g d).id ↔ c.id = d.id)

namespace Value

mutual

def mapFns (g : Closure → Closure) : Value → Value
  | fn c => fn (g c)
  | list vs => list (mapFnsAll g vs)
  | tuple vs => tuple (mapFnsAll g vs)
  | set vs => set (mapFnsAll g vs)
  | map es => map (mapFnsEntries g es)
  | just v => just (v.mapFns g)
  | struct name fs => struct name (mapFnsFields g fs)
  | variant enumName name payload => variant enumName name (mapFnsPayload g payload)
  | v => v

def mapFnsAll (g : Closure → Closure) : List Value → List Value
  | [] => []
  | v :: r => v.mapFns g :: mapFnsAll g r

def mapFnsEntries (g : Closure → Closure) : List (Value × Value) → List (Value × Value)
  | [] => []
  | (k, v) :: r => (k.mapFns g, v.mapFns g) :: mapFnsEntries g r

def mapFnsFields (g : Closure → Closure) : List (String × Value) → List (String × Value)
  | [] => []
  | (n, v) :: r => (n, v.mapFns g) :: mapFnsFields g r

def mapFnsPayload (g : Closure → Closure) : Option Value → Option Value
  | none => none
  | some v => some (v.mapFns g)

end

variable {proper : Prop} {Q Q' : Closure → Prop} {f g : Closure → Closure} {a b v key : Value}
  {vs args : List Value} {es : List (Value × Value)}

@[simp] theorem mapFnsAll_eq_map (g : Closure → Closure) (vs : List Value) :
    mapFnsAll g vs = vs.map (mapFns g) := by
  induction vs with
  | nil => rfl
  | cons v vs ih => rw [mapFnsAll, ih, List.map_cons]

@[simp] theorem mapFnsEntries_eq_map (g : Closure → Closure) (es : List (Value × Value)) :
    mapFnsEntries g es = es.map (Prod.map (mapFns g) (mapFns g)) := by
  induction es with
  | nil => rfl
  | cons e es ih => rw [mapFnsEntries, ih, List.map_cons, Prod.map]

@[simp] theorem mapFnsFields_eq_map (g : Closure → Closure) (fs : List (String × Value)) :
    mapFnsFields g fs = fs.map (Prod.map id (mapFns g)) := by
  induction fs with
  | nil => rfl
  | cons f fs ih => rw [mapFnsFields, ih, List.map_cons, Prod.map, id]

@[simp] theorem mapFnsPayload_eq_map (g : Closure → Closure) (payload : Option Value) :
    mapFnsPayload g payload = payload.map (mapFns g) := by
  cases payload <;> rfl

/-! ### Parts -/

theorem children_mapFns (g : Closure → Closure) (v : Value) :
    (v.mapFns g).children = v.children.map (mapFns g) := by
  cases v with
  | variant enumName name payload => cases payload <;> rfl
  | map es => simp [mapFns, children, List.map_flatMap, List.flatMap_map]
  | struct name fs => simp [mapFns, children]
  | _ => simp [mapFns, children]

/-- Induction from the parts of a value to the value. -/
theorem induct_children {P : Value → Prop} (h : ∀ v : Value, (∀ u ∈ v.children, P u) → P v) (v : Value) :
    P v := by
  induction hn : sizeOf v using Nat.strong_induction_on generalizing v with
  | _ n ih =>
    subst hn
    exact h v fun u hu => ih _ (sizeOf_lt_of_mem_children hu) u rfl

/-- Replacements that do the same to the functions of a value and to its parts do the same to it. -/
private theorem mapFns_congr_children (hfn : ∀ c, v = fn c → f c = g c)
    (h : ∀ u ∈ v.children, u.mapFns f = u.mapFns g) : v.mapFns f = v.mapFns g := by
  cases v with
  | fn c => exact congrArg fn (hfn c rfl)
  | list vs => simpa [mapFns, children] using h
  | tuple vs => simpa [mapFns, children] using h
  | set vs => simpa [mapFns, children] using h
  | map es =>
    simp only [mapFns, mapFnsEntries_eq_map, map.injEq]
    refine List.map_congr_left fun e he => ?_
    obtain ⟨hkey, hvalue⟩ := mem_children_map he
    rw [Prod.map, Prod.map, h _ hkey, h _ hvalue]
  | just v => exact congrArg just (h v List.mem_cons_self)
  | struct name fs =>
    simp only [mapFns, mapFnsFields_eq_map, struct.injEq, true_and]
    refine List.map_congr_left fun e he => ?_
    rw [Prod.map, Prod.map, h _ (List.mem_map_of_mem he)]
  | variant enumName name payload =>
    cases payload with
    | none => rfl
    | some v => exact congrArg (fun v => variant enumName name (some v)) (h v List.mem_cons_self)
  | _ => rfl

theorem mapFns_congr (hv : v.Sane proper Q) (h : ∀ c, Q c → f c = g c) : v.mapFns f = v.mapFns g := by
  induction v using induct_children with
  | _ v ih =>
    refine mapFns_congr_children (fun c hc => ?_) fun u hu => ih u hu (hv.child hu)
    subst hc
    exact h c hv.self

mutual

theorem mapFns_id : (v : Value) → v.mapFns id = v
  | list vs => congrArg list (mapFnsAll_id vs)
  | tuple vs => congrArg tuple (mapFnsAll_id vs)
  | set vs => congrArg set (mapFnsAll_id vs)
  | map es => congrArg map (mapFnsEntries_id es)
  | just v => congrArg just (mapFns_id v)
  | struct name fs => congrArg (struct name) (mapFnsFields_id fs)
  | variant enumName name (some v) => congrArg (fun v => variant enumName name (some v)) (mapFns_id v)
  | variant _ _ none | fn _ | int _ | float _ | char _ | str _ | bool _ | nothing | builtin _ | host _
  | constructor _ | method _ | module _ | unit => rfl

theorem mapFnsAll_id : (vs : List Value) → mapFnsAll id vs = vs
  | [] => rfl
  | v :: r => congrArg₂ List.cons (mapFns_id v) (mapFnsAll_id r)

theorem mapFnsEntries_id : (es : List (Value × Value)) → mapFnsEntries id es = es
  | [] => rfl
  | (k, v) :: r =>
    congrArg₂ List.cons (congrArg₂ Prod.mk (mapFns_id k) (mapFns_id v)) (mapFnsEntries_id r)

theorem mapFnsFields_id : (fs : List (String × Value)) → mapFnsFields id fs = fs
  | [] => rfl
  | (n, v) :: r => congrArg₂ List.cons (congrArg (Prod.mk n) (mapFns_id v)) (mapFnsFields_id r)

end

/-- A value none of whose functions is replaced by another stays what it is. -/
theorem mapFns_eq_self (hv : v.Sane proper Q) (h : ∀ c, Q c → g c = c) : v.mapFns g = v :=
  (mapFns_congr hv h).trans (mapFns_id v)

theorem Sane.mapFns (hv : v.Sane proper Q) (h : ∀ c, Q c → Q' (g c)) : (v.mapFns g).Sane False Q' := by
  induction v using induct_children with
  | _ v ih =>
    refine .mk ?_ fun u hu => ?_
    · cases v with
      | fn c => exact h c hv.self
      | constructor c => cases c <;> exact False.elim
      | _ => exact False.elim
    · rw [children_mapFns] at hu
      obtain ⟨w, hw, rfl⟩ := List.mem_map.1 hu
      exact ih w hw (hv.child hw)

/-! ### Text -/

@[simp] theorem tag_mapFns (g : Closure → Closure) (v : Value) : (v.mapFns g).tag = v.tag := by
  cases v <;> rfl

theorem text_mapFns (hg : ∀ c, (g c).name = c.name) (nested : Bool) (v : Value) :
    (v.mapFns g).text nested = v.text nested := by
  induction v using induct_children generalizing nested with
  | _ v ih =>
    have hlist : ∀ {vs}, vs ⊆ v.children → texts (vs.map (mapFns g)) = texts vs := by
      intro vs hvs
      rw [texts_eq_map, texts_eq_map, List.map_map]
      exact List.map_congr_left fun u hu => ih u (hvs hu) true
    cases v with
    | fn c => simp only [mapFns, text, hg c]
    | list vs => simp only [mapFns, mapFnsAll_eq_map, text, hlist (List.Subset.refl vs)]
    | tuple vs => simp only [mapFns, mapFnsAll_eq_map, text, hlist (List.Subset.refl vs)]
    | set vs =>
      cases vs with
      | nil => rfl
      | cons v vs =>
        have hall := hlist (List.Subset.refl (v :: vs))
        rw [List.map_cons] at hall
        simp only [mapFns, mapFnsAll_eq_map, List.map_cons, text, hall]
    | map es =>
      have hall : entryTexts (es.map (Prod.map (mapFns g) (mapFns g))) = entryTexts es := by
        rw [entryTexts_eq_map, entryTexts_eq_map, List.map_map]
        refine List.map_congr_left fun e he => ?_
        obtain ⟨hkey, hvalue⟩ := mem_children_map he
        simp only [Function.comp_apply, Prod.map, repr, ih _ hkey, ih _ hvalue]
      simp only [mapFns, mapFnsEntries_eq_map, text, hall]
    | just v => simp only [mapFns, text, ih v List.mem_cons_self]
    | struct name fs =>
      have hall : fieldTexts (fs.map (Prod.map id (mapFns g))) = fieldTexts fs := by
        rw [fieldTexts_eq_map, fieldTexts_eq_map, List.map_map]
        refine List.map_congr_left fun f hf => ?_
        simp only [Function.comp_apply, Prod.map, id, repr, ih _ (List.mem_map_of_mem hf)]
      simp only [mapFns, mapFnsFields_eq_map, text, hall]
    | variant enumName name payload =>
      cases payload with
      | none => rfl
      | some v =>
        have hv := ih v List.mem_cons_self true
        cases v with
        | tuple vs =>
          simp only [mapFns, mapFnsPayload, text, String.append_assoc] at hv ⊢
          rw [hv]
        | _ => exact congrArg (fun t => name ++ "(" ++ t ++ ")") hv
    | _ => rfl

theorem repr_mapFns (hg : ∀ c, (g c).name = c.name) (v : Value) : (v.mapFns g).repr = v.repr :=
  text_mapFns hg true v

theorem display_mapFns (hg : ∀ c, (g c).name = c.name) (v : Value) : (v.mapFns g).display = v.display :=
  text_mapFns hg false v

/-! ### Equality and order -/

section Equality

variable {φ : Value → Value} {xs ys : List Value} {ks ls : List (Value × Value)}
  {fs hs : List (String × Value)}

private theorem beqAll_map (h : ∀ x ∈ xs, ∀ y ∈ ys, beq (φ x) (φ y) = beq x y) :
    beqAll (xs.map φ) (ys.map φ) = beqAll xs ys := by
  induction xs generalizing ys with
  | nil => cases ys <;> simp [beqAll]
  | cons x xs ih =>
    cases ys with
    | nil => simp [beqAll]
    | cons y ys =>
      rw [List.map_cons, List.map_cons, beqAll, beqAll, h x List.mem_cons_self y List.mem_cons_self,
        ih fun x' hx y' hy => h x' (List.mem_cons_of_mem _ hx) y' (List.mem_cons_of_mem _ hy)]

private theorem beqFields_map (h : ∀ f ∈ fs, ∀ e ∈ hs, beq (φ f.2) (φ e.2) = beq f.2 e.2) :
    beqFields (fs.map (Prod.map id φ)) (hs.map (Prod.map id φ)) = beqFields fs hs := by
  induction fs generalizing hs with
  | nil => cases hs <;> simp [beqFields]
  | cons f fs ih =>
    cases hs with
    | nil => simp [beqFields]
    | cons e hs =>
      have hrest := ih fun f' hf e' he => h f' (List.mem_cons_of_mem _ hf) e' (List.mem_cons_of_mem _ he)
      obtain ⟨m, x⟩ := f
      obtain ⟨n, y⟩ := e
      have hhead : beq (φ x) (φ y) = beq x y := h (m, x) List.mem_cons_self (n, y) List.mem_cons_self
      simp only [List.map_cons, Prod.map, id, beqFields, hhead, hrest]

private theorem mem_map {x : Value} (h : ∀ y ∈ ys, beq (φ y) (φ x) = beq y x) :
    mem (ys.map φ) (φ x) = mem ys x := by
  induction ys with
  | nil => rw [List.map_nil, mem, mem]
  | cons y ys ih =>
    rw [List.map_cons, mem, mem, h y List.mem_cons_self, ih fun z hz => h z (List.mem_cons_of_mem _ hz)]

private theorem subset_map (h : ∀ y ∈ ys, ∀ x ∈ xs, beq (φ y) (φ x) = beq y x) :
    subset (xs.map φ) (ys.map φ) = subset xs ys := by
  induction xs with
  | nil => rw [List.map_nil, subset, subset]
  | cons x xs ih =>
    rw [List.map_cons, subset, subset, mem_map fun y hy => h y hy x List.mem_cons_self,
      ih fun y hy z hz => h y hy z (List.mem_cons_of_mem _ hz)]

private theorem valueAt?_map (h : ∀ e ∈ ks, beq (φ e.1) (φ key) = beq e.1 key) :
    valueAt? (ks.map (Prod.map φ φ)) (φ key) = (valueAt? ks key).map φ := by
  induction ks with
  | nil => rfl
  | cons e ks ih =>
    rw [List.map_cons, Prod.map, valueAt?, valueAt?, h e List.mem_cons_self]
    split
    · rfl
    · exact ih fun e' he => h e' (List.mem_cons_of_mem _ he)

private theorem submap_map
    (h : ∀ e ∈ ls, ∀ k ∈ ks, beq (φ e.1) (φ k.1) = beq e.1 k.1 ∧ beq (φ e.2) (φ k.2) = beq e.2 k.2) :
    submap (ks.map (Prod.map φ φ)) (ls.map (Prod.map φ φ)) = submap ks ls := by
  rw [Bool.eq_iff_iff, submap_iff, submap_iff, List.forall_mem_map]
  refine forall₂_congr fun k hk => ?_
  rw [Prod.map, valueAt?_map fun e he => (h e he k hk).1]
  cases hu : valueAt? ls k.1 with
  | none => simp
  | some u =>
    obtain ⟨e, he, -, rfl⟩ := entry_of_valueAt? hu
    simp [(h e he k hk).2]

end Equality

section Relabels

variable (hg : Closure.Relabels Q g)

include hg

theorem beq_mapFns (ha : a.Sane proper Q) (hb : b.Sane proper Q) :
    beq (a.mapFns g) (b.mapFns g) = beq a b := by
  induction hn : sizeOf a + sizeOf b using Nat.strong_induction_on generalizing a b with
  | _ n ih =>
    subst hn
    -- the parts of one are compared with those of the other, in either order
    have hparts : ∀ x ∈ a.children, ∀ y ∈ b.children,
        beq (x.mapFns g) (y.mapFns g) = beq x y ∧ beq (y.mapFns g) (x.mapFns g) = beq y x := by
      intro x hx y hy
      have hxa := sizeOf_lt_of_mem_children hx
      have hyb := sizeOf_lt_of_mem_children hy
      exact ⟨ih _ (by omega) (ha.child hx) (hb.child hy) rfl,
        ih _ (by omega) (hb.child hy) (ha.child hx) rfl⟩
    rw [beq.eq_def (mapFns g a), beq.eq_def a]
    cases a <;> cases b <;> try rfl
    case list.list xs ys =>
      show beqAll (mapFnsAll g xs) (mapFnsAll g ys) = beqAll xs ys
      rw [mapFnsAll_eq_map, mapFnsAll_eq_map, beqAll_map]
      exact fun x hx y hy => (hparts x hx y hy).1
    case tuple.tuple xs ys =>
      show beqAll (mapFnsAll g xs) (mapFnsAll g ys) = beqAll xs ys
      rw [mapFnsAll_eq_map, mapFnsAll_eq_map, beqAll_map]
      exact fun x hx y hy => (hparts x hx y hy).1
    case set.set xs ys =>
      show ((mapFnsAll g xs).length == (mapFnsAll g ys).length &&
        subset (mapFnsAll g xs) (mapFnsAll g ys)) = (xs.length == ys.length && subset xs ys)
      rw [mapFnsAll_eq_map, mapFnsAll_eq_map, List.length_map, List.length_map, subset_map]
      exact fun y hy x hx => (hparts x hx y hy).2
    case map.map xs ys =>
      show ((mapFnsEntries g xs).length == (mapFnsEntries g ys).length &&
        submap (mapFnsEntries g xs) (mapFnsEntries g ys)) = (xs.length == ys.length && submap xs ys)
      rw [mapFnsEntries_eq_map, mapFnsEntries_eq_map, List.length_map, List.length_map, submap_map]
      intro e he k hk
      exact ⟨(hparts _ (mem_children_map hk).1 _ (mem_children_map he).1).2,
        (hparts _ (mem_children_map hk).2 _ (mem_children_map he).2).2⟩
    case just.just x y => exact (hparts x List.mem_cons_self y List.mem_cons_self).1
    case struct.struct m xs n ys =>
      show (m == n && beqFields (mapFnsFields g xs) (mapFnsFields g ys)) = (m == n && beqFields xs ys)
      rw [mapFnsFields_eq_map, mapFnsFields_eq_map, beqFields_map]
      intro f hf e he
      exact (hparts _ (List.mem_map_of_mem hf) _ (List.mem_map_of_mem he)).1
    case variant.variant e m p f n q =>
      cases p with
      | none => cases q <;> rfl
      | some x =>
        cases q with
        | none => rfl
        | some y =>
          exact congrArg (e == f && m == n && ·) (hparts x List.mem_cons_self y List.mem_cons_self).1
    case fn.fn c d =>
      show ((g c).id == (g d).id) = (c.id == d.id)
      rw [Bool.eq_iff_iff, beq_iff_eq, beq_iff_eq, hg.id c d ha.self hb.self]

theorem mem_mapFns (hvs : ∀ u ∈ vs, u.Sane proper Q) (hv : v.Sane proper Q) :
    mem (vs.map (mapFns g)) (v.mapFns g) = mem vs v :=
  mem_map fun u hu => beq_mapFns hg (hvs u hu) hv

theorem valueAt?_mapFns (hes : ∀ e ∈ es, e.1.Sane proper Q) (hkey : key.Sane proper Q) :
    valueAt? (es.map (Prod.map (mapFns g) (mapFns g))) (key.mapFns g) =
      (valueAt? es key).map (mapFns g) :=
  valueAt?_map fun e he => beq_mapFns hg (hes e he) hkey

theorem putEntry_mapFns (hes : ∀ e ∈ es, e.1.Sane proper Q) (hkey : key.Sane proper Q) (v : Value) :
    putEntry (es.map (Prod.map (mapFns g) (mapFns g))) (key.mapFns g) (v.mapFns g) =
      (putEntry es key v).map (Prod.map (mapFns g) (mapFns g)) := by
  induction es with
  | nil => rfl
  | cons e es ih =>
    rw [List.map_cons, Prod.map, putEntry, putEntry, beq_mapFns hg (hes e List.mem_cons_self) hkey]
    split
    · rfl
    · rw [List.map_cons, ih fun e' he' => hes e' (List.mem_cons_of_mem _ he'), Prod.map]

theorem insertElem_mapFns (hvs : ∀ u ∈ vs, u.Sane proper Q) (hv : v.Sane proper Q) :
    insertElem (vs.map (mapFns g)) (v.mapFns g) = (insertElem vs v).map (mapFns g) := by
  rw [insertElem, insertElem, mem_mapFns hg hvs hv]
  split
  · rfl
  · rw [List.map_append, List.map_singleton]

theorem setOf_mapFns (hvs : ∀ u ∈ vs, u.Sane proper Q) :
    setOf (vs.map (mapFns g)) = (setOf vs).mapFns g := by
  have hfold : ∀ elems : List Value, (∀ u ∈ elems, u.Sane proper Q) →
      (vs.map (mapFns g)).foldl insertElem (elems.map (mapFns g)) =
        (vs.foldl insertElem elems).map (mapFns g) := by
    induction vs with
    | nil => exact fun _ _ => rfl
    | cons v vs ih =>
      intro elems helems
      rw [List.forall_mem_cons] at hvs
      rw [List.map_cons, List.foldl_cons, List.foldl_cons, insertElem_mapFns hg helems hvs.1]
      refine ih hvs.2 _ fun u hu => ?_
      rcases mem_insertElem hu with hu | rfl
      · exact helems u hu
      · exact hvs.1
  rw [setOf, setOf, mapFns, mapFnsAll_eq_map, ← hfold [] (List.forall_mem_nil _), List.map_nil]

end Relabels

end Value

end Sluice
