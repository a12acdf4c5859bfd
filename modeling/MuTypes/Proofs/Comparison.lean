import Mathlib.Data.List.Nodup
import Mathlib.Data.List.Zip
import MuTypes.Proofs.Alpha
import MuTypes.Proofs.Nameless.Agreement
import MuTypes.Proofs.Unroll

/-!
# Comparisons of types

A comparison of two types below pairs of binders asks comparisons of their parts (`Comparison.parts`), and the shapes
fit when all of these succeed (`shapesFit_eq_allM`).  Located at the levels of the binders, a comparison is one of
nameless types, and so are its parts (`map_located_parts`) and what it becomes when its heads are unrolled
(`Ready.unrolled_returns`).
-/

namespace MuTypes

open Nameless NameSupply

/-- The level of the binder that a name stands for, counted from the outermost one. -/
def level (ctx : List Name) (x : Name) : Nat :=
  match place ctx x with
  | some i => ctx.length - 1 - i
  | none => 0

theorem level_lt {ctx : List Name} {x : Name} (h : x ∈ ctx) : level ctx x < ctx.length := by
  have hpos := List.length_pos_of_mem h
  unfold level
  split <;> omega

/-- The name of the binder at a level. -/
def nameAt (ctx : List Name) (l : Nat) : Name :=
  ctx[ctx.length - 1 - l]?.getD ""

theorem nameAt_level {ctx : List Name} {x : Name} (h : x ∈ ctx) : nameAt ctx (level ctx x) = x := by
  cases hp : place ctx x with
  | none => exact absurd h (place_eq_none_iff.1 hp)
  | some i =>
    obtain ⟨hi, hx⟩ := place_eq_some hp
    rw [nameAt, level, hp]
    simp only
    rw [show ctx.length - 1 - (ctx.length - 1 - i) = i from by omega, hx]
    rfl

theorem nameAt_mem {ctx : List Name} {l : Nat} (h : l < ctx.length) : nameAt ctx l ∈ ctx := by
  rw [nameAt, List.getElem?_eq_getElem (by omega)]
  exact List.getElem_mem _

theorem level_append_of_not_mem {ns : List Name} {x : Name} (h : x ∉ ns) (ctx : List Name) :
    level (ns ++ ctx) x = level ctx x := by
  rw [level, level, place_append_of_not_mem h]
  cases place ctx x with
  | none => rfl
  | some i =>
    simp only [Option.map_some, List.length_append]
    omega

theorem level_append_of_getElem? {ns : List Name} (hn : ns.Nodup) {j : Nat} {x : Name} (h : ns[j]? = some x)
    (ctx : List Name) : level (ns ++ ctx) x = ctx.length + (ns.length - 1 - j) := by
  obtain ⟨hj, hx⟩ := List.getElem?_eq_some_iff.1 h
  have hplace : place ns x = some j := by
    refine List.findIdx?_eq_some_iff_getElem.2 ⟨hj, by simp [hx], fun i hi => ?_⟩
    have hne : ns[i] ≠ ns[j] := fun e => by
      have := (hn.getElem_inj_iff).1 e
      omega
    simp [← hx, hne]
  rw [level, place_append, hplace]
  simp only [Option.some_or, List.length_append]
  omega

theorem levels_eq_map {ns : List Name} (hn : ns.Nodup) (ctx : List Name) :
    ns.map (fun x => Nameless.free (level (ns ++ ctx) x)) = levels ctx.length ns.length := by
  refine List.ext_getElem? fun j => ?_
  rw [List.getElem?_map, levels, List.getElem?_map]
  cases h : ns[j]? with
  | none =>
    rw [List.getElem?_eq_none_iff] at h
    rw [List.getElem?_eq_none (by simpa using h)]
    rfl
  | some x =>
    have hj := (List.getElem?_eq_some_iff.1 h).1
    rw [List.getElem?_range hj, Option.map_some, Option.map_some, level_append_of_getElem? hn h]

namespace Ty

/-- The nameless form of a type, with the levels of binders for its free names. -/
def located (ctx : List Name) (t : Ty) : Nameless Nat :=
  t.bare.relabel (level ctx)

/-- Below further binders the located form of a body is the opened form of its scope. -/
theorem located_body {ns : List Name} (hn : ns.Nodup) (ctx : List Name) (b : Ty) :
    b.located (ns.reverse ++ ctx) =
      ((b.nameless ns.reverse).relabel (level ctx)).openAt 0 (levels ctx.length ns.length) := by
  have hlevels := levels_eq_map (List.nodup_reverse.2 hn) ctx
  have hcongr : (b.nameless ns.reverse).relabel (level (ns.reverse ++ ctx)) =
      (b.nameless ns.reverse).relabel (level ctx) :=
    relabel_congr fun x hx => level_append_of_not_mem (has_nameless_iff.1 hx).2 ctx
  rw [List.length_reverse] at hlevels
  rw [located, bare, nameless_eq_openAt [] ns.reverse, relabel_openAt, List.map_map, ← hlevels]
  exact congrArg (fun t => Nameless.openAt 0 _ t) hcongr

/-- Two types to be compared below pairs of binders. -/
structure Comparison where
  binders : Binders
  fit : Fit
  expected : Ty
  actual : Ty

namespace Comparison

/-- Is one of the types the type of `undefined`? -/
abbrev Trivial (c : Comparison) : Prop :=
  c.expected = .undefined ∨ c.actual = .undefined

/-- Is one of the types headed by a recursive binder? -/
def headed (c : Comparison) : Bool :=
  c.expected.isMu || c.actual.isMu

/-- The same comparison of two parts. -/
def part (c : Comparison) (expected actual : Ty) : Comparison :=
  { c with expected, actual }

/-- The comparison of two parameters, whose order depends on the fit. -/
def param (c : Comparison) (expected actual : Ty) : Comparison :=
  match c.fit with
  | .exact => c.part expected actual
  | .wide => { c with binders := c.binders.swap, expected := actual, actual := expected }

/-- The exact comparison of two rows. -/
def rowParts (c : Comparison) (ps qs : Row) : List (Option Comparison) :=
  if ps.length = qs.length then offered (fun t u => [some { c.part t u with fit := .exact }]) ps qs else [none]

/-- The comparisons of parts that a comparison of types without recursive heads asks; `none` for one that fails. -/
def parts (c : Comparison) : List (Option Comparison) :=
  match c.expected, c.actual with
  | .prim p, .prim q => if p = q then [] else [none]
  | .container k t, .container l u => if k = l then [some (c.part t u)] else [none]
  | .func ps r, .func qs s =>
    if ps.length = qs.length then
      ((ps.zip qs).map fun p => some (c.param p.1.2 p.2.2)) ++ [some (c.part r s)]
    else
      [none]
  | .object ps, .object qs =>
    if c.fit = .wide ∨ ps.length = qs.length then offered (fun t u => [some (c.part t u)]) ps qs else [none]
  | .union vs, .union ws => if vs.length = ws.length then offered c.rowParts vs ws else [none]
  | .generic ns t, .generic ms u =>
    if ns.length = ms.length then [some ⟨c.binders.enter ns ms, c.fit, t, u⟩] else [none]
  | .var n, .var m => if c.binders.left? n = c.binders.right? m then [] else [none]
  | _, _ => [none]

/-- The comparison of the nameless forms, located at the levels of the binders. -/
def located (c : Comparison) : Nameless.Comparison :=
  ⟨c.binders.length, c.fit, c.expected.located c.binders.lefts, c.actual.located c.binders.rights⟩

/-- As far as `k` unrollings show, the actual type fits where the expected one is required. -/
def Agree (k : Nat) (c : Comparison) : Prop :=
  Nameless.Comparison.Agree k c.located

/-- The free names of both types are names of the binders. -/
structure Scoped (c : Comparison) : Prop where
  expected : ∀ x, c.expected.mentions x = true → x ∈ c.binders.lefts
  actual : ∀ x, c.actual.mentions x = true → x ∈ c.binders.rights

end Comparison

/-! ### Shapes -/

/-- Answers one of the comparisons that a comparison asks. -/
def perform (f : Binders → Fit → Ty → Ty → CompareM Bool) : Option Comparison → CompareM Bool
  | some c => f c.binders c.fit c.expected c.actual
  | none => return false

theorem allM_append {τ : Type} (f : τ → CompareM Bool) (l l' : List τ) :
    (l ++ l').allM f = do if ← l.allM f then l'.allM f else return false := by
  induction l with
  | nil => simp [List.allM]
  | cons a l ih =>
    simp only [List.cons_append, List.allM, bind_assoc, ih]
    refine bind_congr fun b => ?_
    cases b <;> simp

theorem allM_singleton {τ : Type} (f : τ → CompareM Bool) (a : τ) : [a].allM f = f a := by
  simp only [List.allM]
  conv_rhs => rw [← bind_pure (f a)]
  exact bind_congr fun b => by cases b <;> rfl

theorem allM_map {σ τ : Type} (f : τ → CompareM Bool) (h : σ → τ) (l : List σ) :
    (l.map h).allM f = l.allM fun a => f (h a) := by
  induction l with
  | nil => rfl
  | cons a l ih =>
    simp only [List.map_cons, List.allM, ih]

/-- What is offered fits when all the comparisons asked succeed. -/
theorem allOffered_eq_allM {τ : Type} {fits : τ → τ → CompareM Bool} {part : τ → τ → List (Option Comparison)}
    {f : Option Comparison → CompareM Bool} (hf : f none = return false) (ps qs : List (Name × τ))
    (h : ∀ t u, fits t u = (part t u).allM f) : allOffered fits ps qs = (offered part ps qs).allM f := by
  induction ps with
  | nil => rfl
  | cons p ps ih =>
    rw [offered, List.flatMap_cons, allM_append, ← offered, ← ih, allOffered, List.allM]
    cases qs.lookup p.1 with
    | none =>
      simp only [allM_singleton, hf, pure_bind]
      rfl
    | some q =>
      simp only [h]
      refine bind_congr fun b => ?_
      cases b with
      | false => rfl
      | true =>
        simp only [allOffered, h, if_true]

theorem left?_isSome {bs : Binders} {x : Name} (h : x ∈ bs.lefts) : ∃ i, bs.left? x = some i := by
  rw [Binders.left?_eq_place]
  cases hp : place bs.lefts x with
  | some i => exact ⟨i, rfl⟩
  | none => exact absurd h (place_eq_none_iff.1 hp)

theorem right?_isSome {bs : Binders} {x : Name} (h : x ∈ bs.rights) : ∃ i, bs.right? x = some i := by
  rw [← Binders.left?_swap]
  exact left?_isSome (by rwa [Binders.lefts_swap])

/-- Shapes fit when all the comparisons of parts succeed. -/
theorem shapesFit_eq_allM (f : Binders → Fit → Ty → Ty → CompareM Bool) {c : Comparison} (hc : c.Scoped) :
    shapesFit f c.binders c.fit c.expected c.actual = c.parts.allM (perform f) := by
  obtain ⟨bs, fit, t, u⟩ := c
  have hfail : ([none] : List (Option Comparison)).allM (perform f) = return false := allM_singleton ..
  have hone : ∀ bs fit t u, [some ⟨bs, fit, t, u⟩].allM (perform f) = f bs fit t u := fun _ _ _ _ =>
    allM_singleton ..
  cases t <;> cases u
  case prim.prim p q =>
    simp only [shapesFit, Comparison.parts]
    by_cases h : p = q
    · simp [h]
    · rw [if_neg h, hfail, decide_eq_false h]
  case container.container k t l u =>
    simp only [shapesFit, Comparison.parts]
    split
    · exact (hone _ _ _ _).symm
    · exact hfail.symm
  case func.func ps r qs s =>
    simp only [shapesFit, Comparison.parts]
    split
    · rw [allM_append, allM_map, Comparison.part, hone]
      cases fit <;> rfl
    · exact hfail.symm
  case object.object ps qs =>
    simp only [shapesFit, Comparison.parts]
    split
    · exact allOffered_eq_allM rfl ps qs fun t u => (hone _ _ _ _).symm
    · exact hfail.symm
  case union.union vs ws =>
    simp only [shapesFit, Comparison.parts]
    split
    · refine allOffered_eq_allM rfl vs ws fun ps qs => ?_
      rw [Comparison.rowParts]
      split
      · exact allOffered_eq_allM rfl ps qs fun t u => (hone _ _ _ _).symm
      · exact hfail.symm
    · exact hfail.symm
  case generic.generic ns t ms u =>
    simp only [shapesFit, Comparison.parts]
    split
    · exact (hone _ _ _ _).symm
    · exact hfail.symm
  case var.var n m =>
    obtain ⟨i, hi⟩ := left?_isSome (hc.expected n ((mentions_var ..).2 rfl))
    obtain ⟨j, hj⟩ := right?_isSome (hc.actual m ((mentions_var ..).2 rfl))
    simp only [shapesFit, Comparison.parts, fitsVar]
    rw [hi, hj]
    by_cases h : i = j
    · simp [h]
    · rw [if_neg fun e => h (Option.some.inj e), hfail]
      simp only [decide_eq_false h]
  all_goals exact hfail.symm

/-! ### Located parts -/

theorem located_func (ctx : List Name) (ps : Row) (r : Ty) :
    (Ty.func ps r).located ctx = .func (ps.map fun p => (p.1, p.2.located ctx)) (r.located ctx) := by
  rw [located, bare_func, relabel_func, map_snd_map_snd]
  rfl

theorem located_object (ctx : List Name) (ps : Row) :
    (Ty.object ps).located ctx = .object (ps.map fun p => (p.1, p.2.located ctx)) := by
  rw [located, bare_object, relabel_object, map_snd_map_snd]
  rfl

theorem located_union (ctx : List Name) (vs : Variants) :
    (Ty.union vs).located ctx = .union (vs.map fun v => (v.1, v.2.map fun p => (p.1, p.2.located ctx))) := by
  rw [located, bare_union, relabel_union, map_snd_map_snd]
  simp only [map_snd_map_snd]
  rfl

theorem located_var (ctx : List Name) (x : Name) : (Ty.var x).located ctx = .free (level ctx x) := by
  rw [located, bare_var]
  rfl

theorem isMu_located (ctx : List Name) (t : Ty) : (t.located ctx).isMu = t.isMu := by
  cases t with
  | func ps r => rw [located_func]; rfl
  | object ps => rw [located_object]; rfl
  | union vs => rw [located_union]; rfl
  | var x => rw [located_var]; rfl
  | generic ns b => rw [located, bare_generic]; rfl
  | _ => rfl

theorem located_eq_undefined_iff {ctx : List Name} {t : Ty} : t.located ctx = .prim .undefined ↔ t = .undefined := by
  cases t with
  | prim p =>
    show Nameless.prim p = .prim .undefined ↔ _
    simp
  | func ps r => rw [located_func]; simp
  | object ps => rw [located_object]; simp
  | union vs => rw [located_union]; simp
  | var x => rw [located_var]; simp
  | generic ns b =>
    rw [located, bare_generic]
    simp [relabel]
  | container k e => simp [located, relabel]
  | mu x b => simp [located, relabel]

private theorem map_offered {σ τ γ δ : Type} {part : σ → σ → List (Option γ)} {part' : τ → τ → List (Option δ)}
    (h h' : σ → τ) (k : γ → δ) (hk : ∀ a b, (part a b).map (Option.map k) = part' (h a) (h' b))
    (ps qs : List (Name × σ)) :
    (offered part ps qs).map (Option.map k) =
      offered part' (ps.map fun p => (p.1, h p.2)) (qs.map fun q => (q.1, h' q.2)) := by
  rw [offered, offered, List.map_flatMap, List.flatMap_map]
  refine List.flatMap_congr fun p _ => ?_
  rw [lookup_map_snd h']
  cases qs.lookup p.1 with
  | none => rfl
  | some q => exact hk p.2 q

@[simp] theorem Binders.length_lefts (bs : Binders) : bs.lefts.length = bs.length := by
  simp [Binders.lefts]

@[simp] theorem Binders.length_rights (bs : Binders) : bs.rights.length = bs.length := by
  simp [Binders.rights]

@[simp] theorem Binders.lefts_ofScope (scope : List Name) : (Binders.ofScope scope).lefts = scope.reverse := by
  rw [Binders.ofScope, Binders.lefts_enter [] rfl]
  simp [Binders.lefts]

@[simp] theorem Binders.rights_ofScope (scope : List Name) : (Binders.ofScope scope).rights = scope.reverse := by
  rw [Binders.ofScope, Binders.rights_enter [] rfl]
  simp [Binders.rights]

theorem mem_lefts_ofScope {scope : List Name} {x : Name} : x ∈ (Binders.ofScope scope).lefts ↔ x ∈ scope := by
  simp

theorem mem_rights_ofScope {scope : List Name} {x : Name} : x ∈ (Binders.ofScope scope).rights ↔ x ∈ scope := by
  simp

/-- In a scope, every name is located where it stands. -/
theorem Comparison.located_ofScope (scope : List Name) (fit : Fit) (e a : Ty) :
    located ⟨.ofScope scope, fit, e, a⟩ =
      ⟨scope.length, fit, e.located scope.reverse, a.located scope.reverse⟩ := by
  have hlength : (Binders.ofScope scope).length = scope.length := by
    rw [← Binders.length_lefts, Binders.lefts_ofScope, List.length_reverse]
  rw [located, Binders.lefts_ofScope, Binders.rights_ofScope, hlength]

/-- Variables stand for the same pair of binders when they are located at the same level. -/
theorem level_eq_iff {bs : Binders} {n m : Name} (hn : n ∈ bs.lefts) (hm : m ∈ bs.rights) :
    level bs.lefts n = level bs.rights m ↔ bs.left? n = bs.right? m := by
  obtain ⟨i, hi⟩ := left?_isSome hn
  obtain ⟨j, hj⟩ := right?_isSome hm
  rw [hi, hj]
  rw [Binders.left?_eq_place] at hi
  rw [Binders.right?_eq_place] at hj
  have hil := (place_eq_some hi).1
  have hjl := (place_eq_some hj).1
  rw [Binders.length_lefts] at hil
  rw [Binders.length_rights] at hjl
  simp only [level, hi, hj, Binders.length_lefts, Binders.length_rights, Option.some.injEq]
  omega

/-- The comparisons of located parts are those of the parts, located. -/
theorem Comparison.map_located_parts {c : Comparison} (hc : c.Scoped) (hd : c.expected.DistinctParams)
    (hd' : c.actual.DistinctParams) : c.parts.map (Option.map located) = c.located.parts := by
  obtain ⟨bs, fit, t, u⟩ := c
  cases t <;> cases u
  case prim.prim p q =>
    show (if p = q then [] else [none]).map _ = if p = q then [] else [none]
    split <;> rfl
  case container.container k t l u =>
    show (if k = l then _ else [none]).map _ = if k = l then _ else [none]
    split <;> rfl
  case func.func ps r qs s =>
    simp only [located, located_func, Nameless.Comparison.parts, parts, List.length_map]
    split
    · rw [List.map_append, List.map_map, List.zip_map, List.map_map]
      congr 1
      refine List.map_congr_left fun p _ => ?_
      cases fit
      · rfl
      · simp [Comparison.param, located, Nameless.Comparison.param, Nameless.Comparison.part]
    · rfl
  case object.object ps qs =>
    simp only [located, located_object, Nameless.Comparison.parts, parts, List.length_map]
    split
    · exact map_offered _ _ _ (fun t u => rfl) ps qs
    · rfl
  case union.union vs ws =>
    simp only [located, located_union, Nameless.Comparison.parts, parts, List.length_map]
    split
    · refine map_offered (fun ps : Row => ps.map fun p => (p.1, p.2.located bs.lefts))
        (fun qs : Row => qs.map fun q => (q.1, q.2.located bs.rights)) located (fun ps qs => ?_) vs ws
      simp only [rowParts, Nameless.Comparison.rowParts, List.length_map]
      split
      · exact map_offered _ _ _ (fun t u => rfl) ps qs
      · rfl
    · rfl
  case generic.generic ns t ms u =>
    show (if ns.length = ms.length then _ else [none]).map _ = if ns.length = ms.length then _ else [none]
    split
    · rename_i h
      have hns : ns.Nodup := by cases hd; assumption
      have hms : ms.Nodup := by cases hd'; assumption
      simp only [List.map_cons, List.map_nil, Option.map_some, located, Binders.length_enter bs h,
        Binders.lefts_enter bs h, Binders.rights_enter bs h, located_body hns, located_body hms, ← h,
        Binders.length_lefts, Binders.length_rights, List.append_nil]
      rfl
    · rfl
  case var.var n m =>
    have hlevel := level_eq_iff (hc.expected n ((mentions_var ..).2 rfl)) (hc.actual m ((mentions_var ..).2 rfl))
    simp only [located, located_var, Nameless.Comparison.parts, parts, hlevel]
    split <;> rfl
  all_goals rfl

/-! ### Parts -/

/-- The second type is a direct part of the first one and stands below the given further binders. -/
inductive Part : Ty → List Name → Ty → Prop where
  | elem {k : Container} {t : Ty} : Part (.container k t) [] t
  | param {ps : Row} {r : Ty} {p : Name × Ty} (hp : p ∈ ps) : Part (.func ps r) [] p.2
  | result {ps : Row} {r : Ty} : Part (.func ps r) [] r
  | property {ps : Row} {p : Name × Ty} (hp : p ∈ ps) : Part (.object ps) [] p.2
  | variant {vs : Variants} {v : Name × Row} {p : Name × Ty} (hv : v ∈ vs) (hp : p ∈ v.2) : Part (.union vs) [] p.2
  | body {ns : List Name} {t : Ty} : Part (.generic ns t) ns t

namespace Part

variable {t u : Ty} {ns : List Name}

theorem height_lt (h : Part t ns u) : u.height < t.height := by
  cases h with
  | elem => exact Nat.lt_succ_self _
  | param hp =>
    have := height_le_rowHeight hp
    simp only [height]
    omega
  | result =>
    simp only [height]
    omega
  | property hp =>
    have := height_le_rowHeight hp
    simp only [height]
    omega
  | variant hv hp =>
    have := height_le_rowHeight hp
    have := rowHeight_le_variantsHeight hv
    simp only [height]
    omega
  | body => exact Nat.lt_succ_self _

theorem wellFormed (h : Part t ns u) (ht : t.WellFormed) : u.WellFormed := by
  cases h with
  | elem => cases ht; assumption
  | param hp =>
    cases ht with
    | func hps _ => exact hps _ hp
  | result => cases ht; assumption
  | property hp =>
    cases ht with
    | object _ hps => exact hps _ hp
  | variant hv hp =>
    cases ht with
    | union _ _ hvs => exact hvs _ hv _ hp
  | body => cases ht; assumption

theorem mem_typeNames (h : Part t ns u) {x : Name} (hx : x ∈ u.typeNames) : x ∈ t.typeNames := by
  cases h with
  | elem => exact hx
  | param hp => exact mem_typeNames_func.2 (.inl ⟨_, hp, hx⟩)
  | result => exact mem_typeNames_func.2 (.inr hx)
  | property hp => exact mem_typeNames_object.2 ⟨_, hp, hx⟩
  | variant hv hp => exact mem_typeNames_union.2 ⟨_, hv, _, hp, hx⟩
  | body => exact mem_typeNames_generic.2 (.inr hx)

/-- The free names of a part are those of the whole and the further binders. -/
theorem mentions (h : Part t ns u) {x : Name} (hx : u.mentions x = true) : x ∈ ns ∨ t.mentions x = true := by
  cases h with
  | elem => exact .inr hx
  | param hp => exact .inr ((mentions_func ..).2 (.inl ⟨_, hp, hx⟩))
  | result => exact .inr ((mentions_func ..).2 (.inr hx))
  | property hp => exact .inr ((mentions_object ..).2 ⟨_, hp, hx⟩)
  | variant hv hp => exact .inr ((mentions_union ..).2 ⟨_, hv, _, hp, hx⟩)
  | body =>
    by_cases hn : x ∈ ns
    · exact .inl hn
    · exact .inr ((mentions_generic ..).2 ⟨hn, hx⟩)

end Part

/-- The last two types are parts of the first two at the same place, which is one that has the same name, or the same
number among the parameters.  They stand below the given further binders. -/
inductive Beside : Ty → Ty → List Name → List Name → Ty → Ty → Prop where
  | elem {k l : Container} {t u : Ty} : Beside (.container k t) (.container l u) [] [] t u
  | param {ps qs : Row} {r s : Ty} {p q : Name × Ty} (h : (p, q) ∈ ps.zip qs) :
    Beside (.func ps r) (.func qs s) [] [] p.2 q.2
  | result {ps qs : Row} {r s : Ty} : Beside (.func ps r) (.func qs s) [] [] r s
  | property {ps qs : Row} {p q : Name × Ty} (hp : p ∈ ps) (hq : q ∈ qs) (hn : p.1 = q.1) :
    Beside (.object ps) (.object qs) [] [] p.2 q.2
  | variant {vs ws : Variants} {v w : Name × Row} {p q : Name × Ty} (hv : v ∈ vs) (hw : w ∈ ws) (hl : v.1 = w.1)
    (hp : p ∈ v.2) (hq : q ∈ w.2) (hn : p.1 = q.1) : Beside (.union vs) (.union ws) [] [] p.2 q.2
  | body {ns ms : List Name} {t u : Ty} (h : ns.length = ms.length) :
    Beside (.generic ns t) (.generic ms u) ns ms t u

namespace Beside

variable {t u t' u' : Ty} {ns ms : List Name}

theorem length_eq (h : Beside t u ns ms t' u') : ns.length = ms.length := by
  cases h with
  | body h => exact h
  | _ => rfl

theorem symm (h : Beside t u ns ms t' u') : Beside u t ms ns u' t' := by
  cases h with
  | elem => exact .elem
  | param h => exact .param (List.zip_swap _ _ ▸ List.mem_map_of_mem (f := Prod.swap) h)
  | result => exact .result
  | property hp hq hn => exact .property hq hp hn.symm
  | variant hv hw hl hp hq hn => exact .variant hw hv hl.symm hq hp hn.symm
  | body h => exact .body h.symm

theorem left (h : Beside t u ns ms t' u') : Part t ns t' := by
  cases h with
  | elem => exact .elem
  | param h => exact .param (List.of_mem_zip h).1
  | result => exact .result
  | property hp _ _ => exact .property hp
  | variant hv _ _ hp _ _ => exact .variant hv hp
  | body _ => exact .body

theorem right (h : Beside t u ns ms t' u') : Part u ms u' :=
  h.symm.left

end Beside

namespace Comparison

variable {c d : Comparison}

/-- The first comparison is one of parts of the second, below binders that are entered together. -/
def Straight (d c : Comparison) : Prop :=
  ∃ ns ms, ns.length = ms.length ∧ d.binders = c.binders.enter ns ms ∧ Part c.expected ns d.expected ∧
    Part c.actual ms d.actual

/-- The first comparison is one of parts of the second, the other way round. -/
def Crossed (d c : Comparison) : Prop :=
  d.binders = c.binders.swap ∧ Part c.expected [] d.actual ∧ Part c.actual [] d.expected

/-- The first comparison is one of parts of the second. -/
def PartOf (d c : Comparison) : Prop :=
  d.Straight c ∨ d.Crossed c

theorem mem_rowParts {ps qs : Row} (h : some d ∈ c.rowParts ps qs) :
    ∃ p ∈ ps, ∃ u, qs.lookup p.1 = some u ∧ d = { c.part p.2 u with fit := .exact } := by
  unfold rowParts at h
  split at h
  · obtain ⟨p, hp, ⟨u, hu, hd⟩ | ⟨-, hd⟩⟩ := mem_offered.1 h
    · exact ⟨p, hp, u, hu, Option.some.inj (List.mem_singleton.1 hd)⟩
    · cases hd
  · cases List.mem_singleton.1 h

/-- The comparisons asked are of parts at the same place, in this order or in the other. -/
theorem beside_of_mem_parts (h : some d ∈ c.parts) :
    (∃ ns ms, d.binders = c.binders.enter ns ms ∧ Beside c.expected c.actual ns ms d.expected d.actual) ∨
      d.binders = c.binders.swap ∧ Beside c.expected c.actual [] [] d.actual d.expected := by
  obtain ⟨bs, fit, t, u⟩ := c
  have hnone : ∀ {l : List (Option Comparison)}, l = [none] → some d ∉ l := by simp
  cases t <;> cases u
  case prim.prim p q =>
    simp only [parts] at h
    split at h <;> simp at h
  case container.container k t l u =>
    simp only [parts] at h
    split at h
    · obtain rfl := Option.some.inj (List.mem_singleton.1 h)
      exact .inl ⟨[], [], rfl, .elem⟩
    · exact absurd h (hnone rfl)
  case func.func ps r qs s =>
    simp only [parts] at h
    split at h
    · rcases List.mem_append.1 h with h | h
      · obtain ⟨⟨p, q⟩, hpq, hd⟩ := List.mem_map.1 h
        obtain rfl := Option.some.inj hd
        cases fit
        · exact .inl ⟨[], [], rfl, .param hpq⟩
        · exact .inr ⟨rfl, .param hpq⟩
      · obtain rfl := Option.some.inj (List.mem_singleton.1 h)
        exact .inl ⟨[], [], rfl, .result⟩
    · exact absurd h (hnone rfl)
  case object.object ps qs =>
    simp only [parts] at h
    split at h
    · obtain ⟨p, hp, ⟨u, hu, hd⟩ | ⟨-, hd⟩⟩ := mem_offered.1 h
      · obtain rfl := Option.some.inj (List.mem_singleton.1 hd)
        exact .inl ⟨[], [], rfl, .property hp (mem_of_lookup hu) rfl⟩
      · cases hd
    · exact absurd h (hnone rfl)
  case union.union vs ws =>
    simp only [parts] at h
    split at h
    · obtain ⟨v, hv, ⟨qs, hqs, hd⟩ | ⟨-, hd⟩⟩ := mem_offered.1 h
      · obtain ⟨p, hp, u, hu, rfl⟩ := mem_rowParts hd
        exact .inl ⟨[], [], rfl, .variant hv (mem_of_lookup hqs) rfl hp (mem_of_lookup hu) rfl⟩
      · cases hd
    · exact absurd h (hnone rfl)
  case generic.generic ns t ms u =>
    simp only [parts] at h
    split at h
    · rename_i e
      obtain rfl := Option.some.inj (List.mem_singleton.1 h)
      exact .inl ⟨ns, ms, rfl, .body e⟩
    · exact absurd h (hnone rfl)
  case var.var n m =>
    simp only [parts] at h
    split at h <;> simp at h
  all_goals exact absurd h (hnone rfl)

theorem partOf_of_mem_parts (h : some d ∈ c.parts) : d.PartOf c := by
  rcases beside_of_mem_parts h with ⟨ns, ms, hb, hd⟩ | ⟨hb, hd⟩
  · exact .inl ⟨ns, ms, hd.length_eq, hb, hd.left, hd.right⟩
  · exact .inr ⟨hb, hd.left, hd.right⟩

/-- The sum of the heights, which bounds the walk through the shapes. -/
def height (c : Comparison) : Nat :=
  c.expected.height + c.actual.height

theorem PartOf.height_lt (h : d.PartOf c) : d.height < c.height := by
  unfold height
  rcases h with ⟨ns, ms, -, -, he, ha⟩ | ⟨-, he, ha⟩
  · have := he.height_lt
    have := ha.height_lt
    omega
  · have := he.height_lt
    have := ha.height_lt
    omega

/-! ### Comparisons in scope -/

theorem scoped_ofScope {scope : List Name} {fit : Fit} {expected actual : Ty}
    (he : ∀ x, expected.mentions x = true → x ∈ scope) (ha : ∀ x, actual.mentions x = true → x ∈ scope) :
    Scoped ⟨.ofScope scope, fit, expected, actual⟩ :=
  ⟨fun x hx => mem_lefts_ofScope.2 (he x hx), fun x hx => mem_rights_ofScope.2 (ha x hx)⟩

namespace Scoped

theorem swap {bs : Binders} {fit fit' : Fit} {t u : Ty} (h : Scoped ⟨bs, fit, t, u⟩) : Scoped ⟨bs.swap, fit', u, t⟩ where
  expected := fun x hx => by simpa using h.actual x hx
  actual := fun x hx => by simpa using h.expected x hx

private theorem enter {ns ms : List Name} (h : c.Scoped) (hl : ns.length = ms.length)
    (hb : d.binders = c.binders.enter ns ms) (he : Part c.expected ns d.expected) (ha : Part c.actual ms d.actual) :
    d.Scoped where
  expected := fun x hx => by
    rw [hb, Binders.lefts_enter _ hl, List.mem_append, List.mem_reverse]
    exact (he.mentions hx).imp_right (h.expected x)
  actual := fun x hx => by
    rw [hb, Binders.rights_enter _ hl, List.mem_append, List.mem_reverse]
    exact (ha.mentions hx).imp_right (h.actual x)

theorem partOf (h : c.Scoped) (hd : d.PartOf c) : d.Scoped := by
  rcases hd with ⟨ns, ms, hl, hb, he, ha⟩ | ⟨hb, he, ha⟩
  · exact h.enter hl hb he ha
  · obtain ⟨bs, fit, t, u⟩ := d
    obtain rfl : bs = c.binders.swap := hb
    have hlength : ([] : List Name).length = ([] : List Name).length := rfl
    have hswap : Scoped ⟨c.binders, c.fit, u, t⟩ := h.enter hlength rfl he ha
    exact hswap.swap

end Scoped

/-! ### Comparisons that can be made -/

/-- Both types are well-formed, their free names are names of the binders, and the supply is ahead of all names. -/
structure Ready (c : Comparison) (s : NameSupply) : Prop extends c.Scoped where
  expected_wellFormed : c.expected.WellFormed
  actual_wellFormed : c.actual.WellFormed
  expected_ahead : s.AheadOfTy c.expected
  actual_ahead : s.AheadOfTy c.actual

/-- Well-formed types can be compared in a scope that has their free names. -/
theorem ready_ofScope {scope : List Name} {fit : Fit} {expected actual : Ty} {s : NameSupply}
    (he : expected.WellFormed) (ha : actual.WellFormed) (hse : ∀ x, expected.mentions x = true → x ∈ scope)
    (hsa : ∀ x, actual.mentions x = true → x ∈ scope) (hne : s.AheadOfTy expected) (hna : s.AheadOfTy actual) :
    Ready ⟨.ofScope scope, fit, expected, actual⟩ s :=
  ⟨scoped_ofScope hse hsa, he, ha, hne, hna⟩

namespace Ready

variable {s s' : NameSupply}

theorem mono (h : c.Ready s) (hs : s ≤ s') : c.Ready s' :=
  { h with expected_ahead := h.expected_ahead.mono hs, actual_ahead := h.actual_ahead.mono hs }

theorem partOf (h : c.Ready s) (hd : d.PartOf c) : d.Ready s := by
  refine ⟨h.toScoped.partOf hd, ?_, ?_, ?_, ?_⟩
  all_goals rcases hd with ⟨ns, ms, -, -, he, ha⟩ | ⟨-, he, ha⟩
  · exact he.wellFormed h.expected_wellFormed
  · exact ha.wellFormed h.actual_wellFormed
  · exact ha.wellFormed h.actual_wellFormed
  · exact he.wellFormed h.expected_wellFormed
  · exact fun x hx => h.expected_ahead x (he.mem_typeNames hx)
  · exact fun x hx => h.actual_ahead x (ha.mem_typeNames hx)
  · exact fun x hx => h.actual_ahead x (ha.mem_typeNames hx)
  · exact fun x hx => h.expected_ahead x (he.mem_typeNames hx)

theorem located_parts (h : c.Ready s) : c.parts.map (Option.map located) = c.located.parts :=
  map_located_parts h.toScoped h.expected_wellFormed.distinctParams h.actual_wellFormed.distinctParams

theorem sound (h : c.Ready s) : c.located.Sound := by
  have hlevel : ∀ {t : Ty} {ctx : List Name}, (∀ x, t.mentions x = true → x ∈ ctx) →
      ∀ i, (t.located ctx).Has i → i < ctx.length := by
    intro t ctx ht i hi
    obtain ⟨x, hx, rfl⟩ := has_relabel hi
    exact level_lt (ht x (has_nameless_iff.1 hx).1)
  refine ⟨⟨closedAt_relabel h.expected_wellFormed.sound.closed _,
      wellFormed_relabel h.expected_wellFormed.sound.wellFormed _⟩,
    ⟨closedAt_relabel h.actual_wellFormed.sound.closed _,
      wellFormed_relabel h.actual_wellFormed.sound.wellFormed _⟩, ?_, ?_⟩
  · intro i hi
    have hlt := hlevel h.expected i hi
    rwa [Binders.length_lefts] at hlt
  · intro i hi
    have hlt := hlevel h.actual i hi
    rwa [Binders.length_rights] at hlt

theorem trivial_located : c.located.Trivial ↔ c.Trivial :=
  or_congr located_eq_undefined_iff located_eq_undefined_iff

theorem headed_located : c.located.headed = c.headed := by
  rw [Nameless.Comparison.headed, headed, located, isMu_located, isMu_located]

theorem mem_located_parts {o : Nameless.Comparison} (h : c.Ready s) :
    some o ∈ c.located.parts ↔ ∃ d, some d ∈ c.parts ∧ d.located = o := by
  rw [← h.located_parts, List.mem_map]
  constructor
  · rintro ⟨_ | d, hd, e⟩
    · cases e
    · exact ⟨d, hd, Option.some.inj e⟩
  · rintro ⟨d, hd, rfl⟩
    exact ⟨some d, hd, rfl⟩

theorem none_mem_located_parts (h : c.Ready s) : none ∈ c.located.parts ↔ none ∈ c.parts := by
  rw [← h.located_parts, List.mem_map]
  constructor
  · rintro ⟨_ | d, hd, e⟩
    · exact hd
    · cases e
  · exact fun hn => ⟨none, hn, rfl⟩

/-- Agreement of types without recursive heads is agreement of their parts. -/
theorem agree_iff_parts {k : Nat} (h : c.Ready s) (ht : ¬ c.Trivial) (hh : c.headed = false) :
    c.Agree (k + 1) ↔ none ∉ c.parts ∧ ∀ d, some d ∈ c.parts → d.Agree (k + 1) := by
  rw [← headed_located] at hh
  constructor
  · intro ha
    obtain ⟨hn, hp⟩ := ha.of_parts (fun e => ht (trivial_located.1 e)) hh
    exact ⟨fun e => hn (h.none_mem_located_parts.2 e), fun d hd => hp _ (h.mem_located_parts.2 ⟨d, hd, rfl⟩)⟩
  · rintro ⟨hn, hp⟩
    refine .parts hh (fun e => hn (h.none_mem_located_parts.1 e)) fun o ho => ?_
    obtain ⟨d, hd, rfl⟩ := h.mem_located_parts.1 ho
    exact hp d hd

end Ready

end Comparison

theorem unrolled_returns {t : Ty} {n : Nameless Name} {s : NameSupply} (hn : n.Sound) (ht : t.Spells n s) :
    s.Returns t.unrolled fun t' s' => t'.isMu = false ∧ t'.Spells n.unroll s' := by
  refine Returns.bind (Returns.lift (unroll_yields hn ht)) fun o s' _ ho => ?_
  obtain ⟨t', rfl, ht'⟩ := ho
  exact .pure ht'

theorem WellFormed.spells {t : Ty} {s : NameSupply} (h : t.WellFormed) (hs : s.AheadOfTy t) : t.Spells t.bare s :=
  ⟨rfl, h.distinctParams, hs⟩

/-- Unrolling keeps well-formed types well-formed and adds no free name. -/
theorem WellFormed.unrolled_returns {t : Ty} {s : NameSupply} (h : t.WellFormed) (hs : s.AheadOfTy t) :
    s.Returns t.unrolled fun t' s' => t'.isMu = false ∧ t'.WellFormed ∧ s'.AheadOfTy t' ∧
      t'.bare = t.bare.unroll ∧ ∀ x, t'.mentions x = true → t.mentions x = true := by
  refine (Ty.unrolled_returns h.sound (h.spells hs)).mono fun t' s' _ ht' => ?_
  refine ⟨ht'.1, ht'.2.wellFormed h.sound.unroll.wellFormed, ht'.2.ahead, ht'.2.bare, fun x hx => ?_⟩
  have hmem : t'.bare.Has x := has_nameless_iff.2 ⟨hx, List.not_mem_nil⟩
  rw [ht'.2.bare] at hmem
  exact (has_nameless_iff.1 (has_unroll hmem)).1

namespace Comparison

variable {c : Comparison} {s : NameSupply}

/-- The first comparison is, up to bound names, the second one with both heads unrolled. -/
structure UnrolledFrom (d c : Comparison) : Prop where
  binders : d.binders = c.binders
  fit : d.fit = c.fit
  expected : d.expected.bare = c.expected.bare.unroll
  actual : d.actual.bare = c.actual.bare.unroll

theorem UnrolledFrom.located {c d : Comparison} (h : d.UnrolledFrom c) : d.located = c.located.unrolled := by
  simp only [Comparison.located, Ty.located, Nameless.Comparison.unrolled, h.binders, h.fit, h.expected, h.actual,
    relabel_unroll]

/-- Unrolls both heads. -/
def unrollHeads (c : Comparison) : CompareM Comparison := do
  let expected ← c.expected.unrolled
  let actual ← c.actual.unrolled
  return { c with expected, actual }

theorem unrollHeads_bind {β : Type} (c : Comparison) (f : Binders → Fit → Ty → Ty → CompareM β) :
    (do f c.binders c.fit (← c.expected.unrolled) (← c.actual.unrolled)) =
      c.unrollHeads >>= fun d => f d.binders d.fit d.expected d.actual := by
  simp [unrollHeads]

/-- Unrolling both heads of a comparison unrolls the located one. -/
theorem Ready.unrollHeads_returns (h : c.Ready s) :
    s.Returns c.unrollHeads fun d s' => d.Ready s' ∧ d.located = c.located.unrolled ∧ d.headed = false ∧
      d.UnrolledFrom c := by
  refine (h.expected_wellFormed.unrolled_returns h.expected_ahead).bind fun e s₁ h₁ he => ?_
  obtain ⟨hemu, hew, heahead, hebare, hefree⟩ := he
  refine (h.actual_wellFormed.unrolled_returns (h.actual_ahead.mono h₁)).bind fun a s₂ h₂ ha => ?_
  obtain ⟨hamu, haw, haahead, habare, hafree⟩ := ha
  have hfrom : UnrolledFrom { c with expected := e, actual := a } c := ⟨rfl, rfl, hebare, habare⟩
  refine .pure ⟨?_, hfrom.located, ?_, hfrom⟩
  · exact ⟨⟨fun x hx => h.expected x (hefree x hx), fun x hx => h.actual x (hafree x hx)⟩, hew, haw,
      heahead.mono h₂, haahead⟩
  · rw [headed, hemu, hamu]
    rfl

/-- Agreement with one more unrolling is agreement of the unrolled types. -/
theorem agree_iff_unrolled {k : Nat} {d : Comparison} (hd : d.located = c.located.unrolled) (ht : ¬ c.Trivial)
    (hh : c.headed = true) : c.Agree (k + 1) ↔ d.Agree k := by
  rw [← Ready.headed_located] at hh
  rw [Agree, Agree, hd]
  exact ⟨fun h => h.of_headed (fun e => ht (Ready.trivial_located.1 e)) hh, fun h => .unrolled hh h⟩

/-! ### Answers for all parts -/

section Parts

variable {f : Binders → Fit → Ty → Ty → CompareM Bool} {P N : Comparison → Prop}

theorem shapesFit_ensures (hc : c.Scoped)
    (h : ∀ d, some d ∈ c.parts → ∀ t, s ≤ t →
      t.Ensures (f d.binders d.fit d.expected d.actual) fun b _ => (b = true → P d) ∧ (b = false → N d)) :
    s.Ensures (shapesFit f c.binders c.fit c.expected c.actual) fun b _ =>
      (b = true → none ∉ c.parts ∧ ∀ d, some d ∈ c.parts → P d) ∧
        (b = false → none ∈ c.parts ∨ ∃ d, some d ∈ c.parts ∧ N d) := by
  rw [shapesFit_eq_allM f hc]
  refine (Ensures.allM (P := fun o => ∃ d, o = some d ∧ P d) (N := fun o => ∀ d, o = some d → N d)
    fun o ho t ht => ?_).mono fun b t _ hb => ⟨fun e => ⟨fun hn => ?_, fun d hd => ?_⟩, fun e => ?_⟩
  · cases o with
    | none => exact .pure ⟨nofun, nofun⟩
    | some d =>
      exact (h d ho t ht).mono fun b _ _ hb => ⟨fun e => ⟨d, rfl, hb.1 e⟩, fun e d' hd' =>
        Option.some.inj hd' ▸ hb.2 e⟩
  · obtain ⟨d, hd, -⟩ := hb.1 e none hn
    cases hd
  · obtain ⟨d', hd', hP⟩ := hb.1 e _ hd
    exact Option.some.inj hd' ▸ hP
  · obtain ⟨o, ho, hN⟩ := hb.2 e
    cases o with
    | none => exact .inl ho
    | some d => exact .inr ⟨d, ho, hN d rfl⟩

theorem shapesFit_returns (hc : c.Scoped)
    (h : ∀ d, some d ∈ c.parts → ∀ t, s ≤ t →
      t.Returns (f d.binders d.fit d.expected d.actual) fun b _ => (b = true ↔ P d)) :
    s.Returns (shapesFit f c.binders c.fit c.expected c.actual) fun b _ =>
      (b = true ↔ none ∉ c.parts ∧ ∀ d, some d ∈ c.parts → P d) := by
  rw [shapesFit_eq_allM f hc]
  refine (Returns.allM (P := fun o => ∃ d, o = some d ∧ P d) fun o ho t ht => ?_).mono fun b t _ hb => hb.trans ?_
  · cases o with
    | none => exact .pure ⟨nofun, nofun⟩
    | some d =>
      refine (h d ho t ht).mono fun b _ _ hb => hb.trans ⟨fun hP => ⟨d, rfl, hP⟩, ?_⟩
      rintro ⟨d', hd', hP⟩
      exact Option.some.inj hd' ▸ hP
  · constructor
    · intro hall
      refine ⟨fun hn => ?_, fun d hd => ?_⟩
      · obtain ⟨d, hd, -⟩ := hall none hn
        cases hd
      · obtain ⟨d', hd', hP⟩ := hall _ hd
        exact Option.some.inj hd' ▸ hP
    · rintro ⟨hn, hp⟩ (_ | d) ho
      · exact absurd ho hn
      · exact ⟨d, rfl, hp d ho⟩

end Parts

end Comparison

end Ty

end MuTypes
