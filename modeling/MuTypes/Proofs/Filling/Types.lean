import MuTypes.Proofs.Filling.Binders
import MuTypes.Proofs.Hygiene.Resolution
import MuTypes.Proofs.Lookup
import MuTypes.Proofs.Typing

/-!
# Filled types

A type is another one, filled (`Ty.Filled`), when its nameless form is that of the other one with types put for the free
names.  Parts of filled types are filled parts.  So the questions about shapes that have an answer for the first type
have the corresponding answer for the second one: what is unrolled to something else than a type variable is unrolled to
the same shape (`unrolled_filled`).
-/

namespace MuTypes

open NameSupply

namespace Ty

/-! ### Shapes of nameless forms -/

section Inversion

variable {t : Ty}

theorem bare_eq_prim_iff {p : Prim} : t.bare = .prim p ↔ t = .prim p := by
  cases t <;> simp [bare, leaf, place]

theorem bare_eq_container_iff {k : Container} {e : Nameless Name} :
    t.bare = .container k e ↔ ∃ e', t = .container k e' ∧ e'.bare = e := by
  cases t <;> simp [bare, leaf, place]

theorem bare_eq_func_iff {ps : List (Name × Nameless Name)} {r : Nameless Name} :
    t.bare = .func ps r ↔ ∃ qs s, t = .func qs s ∧ (qs.map fun p => (p.1, p.2.bare)) = ps ∧ s.bare = r := by
  cases t <;> simp [bare, leaf, place]

theorem bare_eq_object_iff {ps : List (Name × Nameless Name)} :
    t.bare = .object ps ↔ ∃ qs, t = .object qs ∧ (qs.map fun p => (p.1, p.2.bare)) = ps := by
  cases t <;> simp [bare, leaf, place]

theorem bare_eq_union_iff {vs : List (Name × List (Name × Nameless Name))} :
    t.bare = .union vs ↔ ∃ ws, t = .union ws ∧ (ws.map fun v => (v.1, v.2.map fun p => (p.1, p.2.bare))) = vs := by
  cases t <;> simp [bare, leaf, place]

theorem bare_eq_generic_iff {n : Nat} {b : Nameless Name} :
    t.bare = .generic n b ↔ ∃ ns u, t = .generic ns u ∧ ns.length = n ∧ u.nameless ns.reverse = b := by
  cases t <;> simp [bare, leaf, place]

theorem bare_eq_free_iff {x : Name} : t.bare = .free x ↔ t = .var x := by
  cases t <;> simp [bare, leaf, place]

end Inversion

/-! ### Filled types and their parts -/

/-- The second type is the first one with what is put for its free names, and both are in order. -/
structure Filled (σ : Name → Nameless Name) (names names' : List Name) (t t' : Ty) (s s' : NameSupply) : Prop where
  left : t.InOrder names s
  right : t'.InOrder names' s'
  bare : t'.bare = t.bare.fill σ

/-- The types of the second row are those of the first one, filled. -/
def FilledRow (σ : Name → Nameless Name) (names names' : List Name) (ps ps' : Row) (s s' : NameSupply) : Prop :=
  List.Forall₂ (fun p p' => p'.1 = p.1 ∧ Filled σ names names' p.2 p'.2 s s') ps ps'

section Parts

variable {σ : Name → Nameless Name} {names names' : List Name} {t t' : Ty} {ps ps' : Row} {vs vs' : Variants}
  {s s' u u' : NameSupply}

theorem Filled.mono (h : Filled σ names names' t t' s s') (hs : s ≤ u) (hs' : s' ≤ u') :
    Filled σ names names' t t' u u' :=
  { h with left := h.left.mono hs, right := h.right.mono hs' }

theorem FilledRow.mono (h : FilledRow σ names names' ps ps' s s') (hs : s ≤ u) (hs' : s' ≤ u') :
    FilledRow σ names names' ps ps' u u' :=
  h.imp fun _ _ hp => ⟨hp.1, hp.2.mono hs hs'⟩

theorem FilledRow.of_bare (hl : ∀ p ∈ ps, p.2.InOrder names s) (hr : ∀ p ∈ ps', p.2.InOrder names' s')
    (h : (ps'.map fun p => (p.1, p.2.bare)) = ps.map fun p => (p.1, p.2.bare.fill σ)) :
    FilledRow σ names names' ps ps' s s' := by
  induction ps generalizing ps' with
  | nil =>
    cases List.map_eq_nil_iff.1 h
    exact .nil
  | cons p ps ih =>
    cases ps' with
    | nil => cases h
    | cons p' ps' =>
      simp only [List.map_cons, List.cons.injEq, Prod.mk.injEq] at h
      obtain ⟨⟨hname, hbare⟩, hps⟩ := h
      obtain ⟨hpl, hl⟩ := List.forall_mem_cons.1 hl
      obtain ⟨hpr, hr⟩ := List.forall_mem_cons.1 hr
      exact .cons ⟨hname, hpl, hpr, hbare⟩ (ih hl hr hps)

theorem FilledRow.bare (h : FilledRow σ names names' ps ps' s s') :
    (ps'.map fun p => (p.1, p.2.bare)) = ps.map fun p => (p.1, p.2.bare.fill σ) := by
  induction h with
  | nil => rfl
  | cons hp _ ih => rw [List.map_cons, List.map_cons, ih, hp.1, hp.2.bare]

theorem FilledRow.left (h : FilledRow σ names names' ps ps' s s') : ∀ p ∈ ps, p.2.InOrder names s := by
  induction h with
  | nil => exact List.forall_mem_nil _
  | cons hp _ ih => exact List.forall_mem_cons.2 ⟨hp.2.left, ih⟩

theorem FilledRow.right (h : FilledRow σ names names' ps ps' s s') : ∀ p ∈ ps', p.2.InOrder names' s' := by
  intro p' hp'
  obtain ⟨p, -, hp⟩ := exists_of_mem_right h hp'
  exact hp.2.right

theorem FilledRow.names_eq (h : FilledRow σ names names' ps ps' s s') : ps'.map Prod.fst = ps.map Prod.fst := by
  induction h with
  | nil => rfl
  | cons hp _ ih => rw [List.map_cons, List.map_cons, ih, hp.1]

theorem filled_prim (p : Prim) : Filled σ names names' (.prim p) (.prim p) s s' :=
  ⟨inOrder_prim p, inOrder_prim p, rfl⟩

theorem filled_container {k : Container} {e e' : Ty} (h : Filled σ names names' e e' s s') :
    Filled σ names names' (.container k e) (.container k e') s s' :=
  ⟨inOrder_container.2 h.left, inOrder_container.2 h.right, congrArg _ h.bare⟩

theorem filled_func {r r' : Ty} (hps : FilledRow σ names names' ps ps' s s') (hr : Filled σ names names' r r' s s') :
    Filled σ names names' (.func ps r) (.func ps' r') s s' := by
  refine ⟨inOrder_func.2 ⟨hps.left, hr.left⟩, inOrder_func.2 ⟨hps.right, hr.right⟩, ?_⟩
  rw [bare_func, bare_func, Nameless.fill_func, hps.bare, hr.bare, List.map_map]
  rfl

/-- The names of filled rows are the same, so they repeat in both or in neither. -/
theorem filled_object (hps : FilledRow σ names names' ps ps' s s') (hd : (ps.map Prod.fst).Nodup) :
    Filled σ names names' (.object ps) (.object ps') s s' := by
  refine ⟨inOrder_object.2 ⟨hd, hps.left⟩, inOrder_object.2 ⟨hps.names_eq ▸ hd, hps.right⟩, ?_⟩
  rw [bare_object, bare_object, Nameless.fill_object, hps.bare, List.map_map]
  rfl

theorem Filled.prim {p : Prim} (h : Filled σ names names' (.prim p) t' s s') : t' = .prim p :=
  bare_eq_prim_iff.1 h.bare

theorem Filled.container {k : Container} {e : Ty} (h : Filled σ names names' (.container k e) t' s s') :
    ∃ e', t' = .container k e' ∧ Filled σ names names' e e' s s' := by
  obtain ⟨e', rfl, hbare⟩ := bare_eq_container_iff.1 h.bare
  exact ⟨e', rfl, inOrder_container.1 h.left, inOrder_container.1 h.right, hbare⟩

theorem Filled.func {r : Ty} (h : Filled σ names names' (.func ps r) t' s s') :
    ∃ ps' r', t' = .func ps' r' ∧ FilledRow σ names names' ps ps' s s' ∧ Filled σ names names' r r' s s' := by
  obtain ⟨hl, hr, hbare⟩ := h
  rw [bare_func, Nameless.fill_func, List.map_map] at hbare
  obtain ⟨ps', r', rfl, hps, hresult⟩ := bare_eq_func_iff.1 hbare
  obtain ⟨hlps, hlr⟩ := inOrder_func.1 hl
  obtain ⟨hrps, hrr⟩ := inOrder_func.1 hr
  exact ⟨ps', r', rfl, .of_bare hlps hrps hps, hlr, hrr, hresult⟩

theorem Filled.object (h : Filled σ names names' (.object ps) t' s s') :
    ∃ ps', t' = .object ps' ∧ FilledRow σ names names' ps ps' s s' := by
  obtain ⟨hl, hr, hbare⟩ := h
  rw [bare_object, Nameless.fill_object, List.map_map] at hbare
  obtain ⟨ps', rfl, hps⟩ := bare_eq_object_iff.1 hbare
  exact ⟨ps', rfl, .of_bare (inOrder_object.1 hl).2 (inOrder_object.1 hr).2 hps⟩

private theorem bare_union_fill :
    (Ty.union vs).bare.fill σ = .union (vs.map fun v => (v.1, v.2.map fun p => (p.1, p.2.bare.fill σ))) := by
  rw [bare_union, Nameless.fill_union, List.map_map]
  simp only [Function.comp_def, List.map_map]

theorem Filled.union (h : Filled σ names names' (.union vs) t' s s') :
    ∃ vs', t' = .union vs' ∧
      List.Forall₂ (fun v v' => v'.1 = v.1 ∧ Filled σ names names' (.object v.2) (.object v'.2) s s') vs vs' := by
  obtain ⟨hl, hr, hbare⟩ := h
  rw [bare_union_fill] at hbare
  obtain ⟨vs', rfl, hvs⟩ := bare_eq_union_iff.1 hbare
  refine ⟨vs', rfl, ?_⟩
  replace hl := (inOrder_union.1 hl).2
  replace hr := (inOrder_union.1 hr).2
  clear hbare
  induction vs generalizing vs' with
  | nil =>
    cases List.map_eq_nil_iff.1 hvs
    exact .nil
  | cons v vs ih =>
    cases vs' with
    | nil => cases hvs
    | cons v' vs' =>
      simp only [List.map_cons, List.cons.injEq, Prod.mk.injEq] at hvs
      obtain ⟨⟨hlabel, hrow⟩, hvs⟩ := hvs
      obtain ⟨hlv, hl⟩ := List.forall_mem_cons.1 hl
      obtain ⟨hrv, hr⟩ := List.forall_mem_cons.1 hr
      have hrow : FilledRow σ names names' v.2 v'.2 s s' :=
        .of_bare (inOrder_object.1 hlv).2 (inOrder_object.1 hrv).2 hrow
      exact .cons ⟨hlabel, filled_object hrow (inOrder_object.1 hlv).1⟩ (ih vs' hvs hl hr)

/-- The variants whose label has a property are filled as all variants are. -/
theorem Filled.filter (h : Filled σ names names' (.union vs) (.union vs') s s') (p : Name → Bool) :
    Filled σ names names' (.union (vs.filter fun v => p v.1)) (.union (vs'.filter fun v => p v.1)) s s' := by
  have hfilter : ∀ {β : Type} (f : Row → β) (vs : Variants), ((vs.filter fun v => p v.1).map fun v => (v.1, f v.2)) =
      (vs.map fun v => (v.1, f v.2)).filter fun v => p v.1 := fun f vs => by
    rw [List.filter_map]
    rfl
  have hbare := h.bare
  rw [bare_union_fill, bare_union] at hbare
  refine ⟨h.left.union_filter _, h.right.union_filter _, ?_⟩
  rw [bare_union_fill, bare_union, hfilter, hfilter, Nameless.union.inj hbare]

theorem Filled.isEmpty_eq (h : Filled σ names names' (.union vs) (.union vs') s s') : vs'.isEmpty = vs.isEmpty := by
  obtain ⟨_, ⟨⟩, hrows⟩ := h.union
  cases hrows <;> rfl

theorem Filled.generic {ns : List Name} {b : Ty} (h : Filled σ names names' (.generic ns b) t' s s') :
    ∃ ns' b', t' = .generic ns' b' ∧ ns'.length = ns.length ∧
      b'.nameless ns'.reverse = (b.nameless ns.reverse).fill σ := by
  have hbare := h.bare
  rw [bare_generic, Nameless.fill_generic] at hbare
  exact bare_eq_generic_iff.1 hbare

/-- The nameless form of what is not a type variable is no free name, so it keeps its shape when it is filled. -/
private theorem Filled.bare_ne_free (hvar : ∀ x, t ≠ .var x) (x : Name) : t.bare ≠ .free x :=
  mt bare_eq_free_iff.1 (hvar x)

theorem Filled.of_prim {p : Prim} (h : Filled σ names names' t (.prim p) s s') (hvar : ∀ x, t ≠ .var x) :
    t = .prim p := by
  have hbare : t.bare.fill σ = .prim p := h.bare.symm
  have hfree := bare_ne_free hvar
  rw [← bare_eq_prim_iff]
  generalize t.bare = n at hbare hfree
  cases n <;> simp_all

theorem Filled.of_container {k : Container} {e' : Ty} (h : Filled σ names names' t (.container k e') s s')
    (hvar : ∀ x, t ≠ .var x) : ∃ e, t = .container k e := by
  have hbare : t.bare.fill σ = .container k e'.bare := h.bare.symm
  have hfree := bare_ne_free hvar
  suffices hn : ∃ n, t.bare = .container k n from hn.elim fun _ hn => (bare_eq_container_iff.1 hn).imp fun _ => And.left
  generalize t.bare = n at hbare hfree
  cases n <;> simp_all

theorem Filled.of_union (h : Filled σ names names' t (.union vs') s s') (hvar : ∀ x, t ≠ .var x) :
    ∃ vs, t = .union vs := by
  have hbare : t.bare.fill σ = (Ty.union vs').bare := h.bare.symm
  have hfree := bare_ne_free hvar
  rw [bare_union] at hbare
  suffices hn : ∃ n, t.bare = .union n from hn.elim fun _ hn => (bare_eq_union_iff.1 hn).imp fun _ => And.left
  generalize t.bare = n at hbare hfree
  cases n <;> simp_all

end Parts

end Ty

/-! ### Questions about shapes -/

section Shapes

open Ty

variable {σ : Name → Nameless Name} {names names' : List Name} {t t' : Ty} {row row' : Row} {vs vs' : Variants}
  {s s' : NameSupply}

theorem expectProperty_filled (h : FilledRow σ names names' row row' s s') (name : Name) {span span' : Span} :
    Mirrors s s' (expectProperty row name span) (expectProperty row' name span') (Filled σ names names') := by
  unfold expectProperty
  have hlookup := rel_lookup (fun t t' => Filled σ names names' t t' s s') h name
  generalize row.lookup name = o, row'.lookup name = o' at hlookup ⊢
  cases hlookup with
  | none => exact .violation _ _ _
  | some ht => exact .pure ht

theorem expectVariant_filled (h : Filled σ names names' (.union vs) (.union vs') s s') (label : Name)
    {span span' : Span} : Mirrors s s' (expectVariant vs label span) (expectVariant vs' label span') fun row row' =>
      Filled σ names names' (.object row) (.object row') := by
  obtain ⟨_, ⟨⟩, hvs⟩ := h.union
  unfold expectVariant
  have hlookup := rel_lookup (fun ps ps' => Filled σ names names' (.object ps) (.object ps') s s') hvs label
  generalize vs.lookup label = o, vs'.lookup label = o' at hlookup ⊢
  cases hlookup with
  | none => exact .violation _ _ _
  | some hrow => exact .pure hrow

variable (hσ : Filling σ names names')
include hσ

/-- What is put for a name is not the type of `undefined`, so a filled type is that type only when it was. -/
theorem orElse_filled {e e' a a' : Ty} (he : Filled σ names names' e e' s s')
    (ha : Filled σ names names' a a' s s') : Filled σ names names' (e.orElse a) (e'.orElse a') s s' := by
  unfold Ty.orElse
  by_cases h : e = .undefined
  · have h' : e' = .undefined := (h ▸ he).prim
    rw [if_pos h, if_pos h']
    exact ha
  · have h' : e' ≠ .undefined := by
      rintro rfl
      by_cases hvar : ∃ x, e = .var x
      · obtain ⟨x, rfl⟩ := hvar
        exact hσ.defined x he.bare.symm
      · exact h (he.of_prim (not_exists.1 hvar))
    rw [if_neg h, if_neg h']
    exact he

variable (h : Filled σ names names' t t' s s')
include h

/-- What is unrolled to a variable may be anything when it is filled, and everything else keeps its shape. -/
theorem unrolled_filled : Mirrors s s' (liftM t.unrolled) (liftM t'.unrolled) fun u u' v v' =>
    (∀ x, u ≠ .var x) → Filled σ names names' u u' v v' := by
  have hleft := h.left.wellFormed.unrolled_returns h.left.ahead
  have hright := h.right.wellFormed.unrolled_returns h.right.ahead
  refine (Mirrors.compare hleft hright).mono fun u u' v v' hu hvar => ?_
  obtain ⟨⟨-, hw, hs, hbare, hmem⟩, -, hw', hs', hbare', hmem'⟩ := hu
  refine ⟨⟨hw, fun x hx => h.left.mem x (hmem x hx), hs⟩, ⟨hw', fun x hx => h.right.mem x (hmem' x hx), hs'⟩, ?_⟩
  rw [hbare', h.bare, hbare]
  refine Nameless.Sound.unroll_fill_of_ne_free hσ.sound h.left.wellFormed.sound fun x hx => hvar x ?_
  exact bare_eq_free_iff.1 (hbare.trans hx)

theorem expectPrim_filled (p : Prim) {span span' : Span} :
    Mirrors s s' (t.expectPrim p span) (t'.expectPrim p span') fun _ _ _ _ => True := by
  refine (unrolled_filled hσ h).bind fun u u' v v' _ _ hu => ?_
  split
  · rename_i hp
    rw [if_pos ((hp ▸ hu) nofun).prim]
    exact .pure trivial
  · exact .violation _ _ _

theorem expectArray_filled {span span' : Span} :
    Mirrors s s' (t.expectArray span) (t'.expectArray span') (Filled σ names names') := by
  refine (unrolled_filled hσ h).bind fun u u' v v' _ _ hu => ?_
  split
  · obtain ⟨e', rfl, he⟩ := (hu nofun).container
    exact .pure he
  · exact .violation _ _ _

theorem expectMap_filled {span span' : Span} :
    Mirrors s s' (t.expectMap span) (t'.expectMap span') (Filled σ names names') := by
  refine (unrolled_filled hσ h).bind fun u u' v v' _ _ hu => ?_
  split
  · obtain ⟨e', rfl, he⟩ := (hu nofun).container
    exact .pure he
  · exact .violation _ _ _

theorem expectFunc_filled {span span' : Span} :
    Mirrors s s' (t.expectFunc span) (t'.expectFunc span') fun q q' v v' =>
      FilledRow σ names names' q.1 q'.1 v v' ∧ Filled σ names names' q.2 q'.2 v v' := by
  refine (unrolled_filled hσ h).bind fun u u' v v' _ _ hu => ?_
  split
  · obtain ⟨ps', r', rfl, hq⟩ := (hu nofun).func
    exact .pure hq
  · exact .violation _ _ _

theorem expectGeneric_filled {span span' : Span} :
    Mirrors s s' (t.expectGeneric span) (t'.expectGeneric span') fun q q' v v' =>
      Filled σ names names' (.generic q.1 q.2) (.generic q'.1 q'.2) v v' := by
  refine (unrolled_filled hσ h).bind fun u u' v v' _ _ hu => ?_
  split
  · obtain ⟨ns', b', rfl, -⟩ := (hu nofun).generic
    exact .pure (hu nofun)
  · exact .violation _ _ _

theorem expectUnion_filled {span span' : Span} :
    Mirrors s s' (t.expectUnion span) (t'.expectUnion span') fun vs vs' =>
      Filled σ names names' (.union vs) (.union vs') := by
  refine (unrolled_filled hσ h).bind fun u u' v v' _ _ hu => ?_
  split
  · obtain ⟨vs', rfl, -⟩ := (hu nofun).union
    exact .pure (hu nofun)
  · exact .violation _ _ _

omit hσ in
private theorem arrayRow_filled : FilledRow σ names names' (arrayRow t) (arrayRow t') s s' := by
  have htest : FilledRow σ names names' [itemTest t] [itemTest t'] s s' :=
    .cons ⟨rfl, filled_func (.cons ⟨rfl, h⟩ .nil) (filled_prim .boolean)⟩ .nil
  exact .cons ⟨rfl, filled_prim .number⟩ (.cons ⟨rfl, filled_func htest (filled_container h)⟩
    (.cons ⟨rfl, filled_func htest (filled_container h)⟩ .nil))

theorem property_filled (name : Name) {baseSpan baseSpan' span span' : Span} :
    Mirrors s s' (t.property name baseSpan span) (t'.property name baseSpan' span') (Filled σ names names') := by
  refine (unrolled_filled hσ h).bind fun u u' v v' _ _ hu => ?_
  split
  · obtain ⟨row', rfl, hrow⟩ := (hu nofun).object
    exact expectProperty_filled hrow name
  · obtain ⟨vs', rfl, hvs⟩ := (hu nofun).union
    dsimp only
    by_cases hn : name = "tag"
    · rw [if_pos hn, if_pos hn]
      exact .pure (filled_prim .string)
    · rw [if_neg hn, if_neg hn]
      split
      · cases hvs with
        | cons hv hnil =>
          cases hnil
          obtain ⟨_, ⟨⟩, hrow⟩ := hv.2.object
          exact expectProperty_filled hrow name
      · exact .violation _ _ _
  · obtain ⟨e', rfl, he⟩ := (hu nofun).container
    exact expectProperty_filled (arrayRow_filled he) name
  · exact .violation _ _ _

theorem item_filled {i i' : Ty} (hi : Filled σ names names' i i' s s')
    {baseSpan baseSpan' indexSpan indexSpan' : Span} :
    Mirrors s s' (t.item i baseSpan indexSpan) (t'.item i' baseSpan' indexSpan') (Filled σ names names') := by
  refine (unrolled_filled hσ h).bind fun u u' v v' hs hs' hu => ?_
  split
  · obtain ⟨e', rfl, he⟩ := (hu nofun).container
    exact (expectPrim_filled hσ (hi.mono hs hs') .number).bind fun _ _ _ _ hs hs' _ => .pure (he.mono hs hs')
  · obtain ⟨e', rfl, he⟩ := (hu nofun).container
    exact (expectPrim_filled hσ (hi.mono hs hs') .string).bind fun _ _ _ _ hs hs' _ => .pure (he.mono hs hs')
  · exact .violation _ _ _

omit hσ h in
private theorem filled_args {ts ts' : List Ty}
    (h : List.Forall₂ (fun t t' => Filled σ names names' t t' s s') ts ts') :
    (∀ t ∈ ts, t.InOrder names s) ∧ (∀ t ∈ ts', t.InOrder names' s') ∧
      ts'.map bare = (ts.map bare).map (Nameless.fill σ) := by
  induction h with
  | nil => exact ⟨List.forall_mem_nil _, List.forall_mem_nil _, rfl⟩
  | cons ht _ ih =>
    obtain ⟨hl, hr, hbare⟩ := ih
    refine ⟨List.forall_mem_cons.2 ⟨ht.left, hl⟩, List.forall_mem_cons.2 ⟨ht.right, hr⟩, ?_⟩
    rw [List.map_cons, List.map_cons, List.map_cons, hbare, ht.bare]

omit h in
/-- A filled generic type with filled arguments for its parameters is filled. -/
theorem instantiate_filled {ns ns' : List Name} {b b' : Ty} {ts ts' : List Ty}
    (hb : Filled σ names names' (.generic ns b) (.generic ns' b') s s') (hl : ns.length = ts.length)
    (hts : List.Forall₂ (fun t t' => Filled σ names names' t t' s s') ts ts') :
    Mirrors s s' (liftM (b.instantiate ns ts)) (liftM (b'.instantiate ns' ts')) (Filled σ names names') := by
  obtain ⟨_, _, ⟨⟩, hlength, hbody⟩ := hb.generic
  obtain ⟨hd, hns, hbl⟩ := inOrder_generic.1 hb.left
  obtain ⟨hd', hns', hbr⟩ := inOrder_generic.1 hb.right
  obtain ⟨htl, htr, hargs⟩ := filled_args hts
  have hl' : ns'.length = ts'.length := hlength.trans (hl.trans hts.length_eq)
  have hleft := (instantiate_yields hl hd hns (fun t ht => (htl t ht).spells) hbl.spells).and
    (instantiate_inOrder hl hd hns hbl htl)
  have hright := (instantiate_yields hl' hd' hns' (fun t ht => (htr t ht).spells) hbr.spells).and
    (instantiate_inOrder hl' hd' hns' hbr htr)
  refine (Mirrors.lift hleft hright).mono fun t t' u u' ht => ?_
  obtain ⟨⟨hspells, hin⟩, hspells', hin'⟩ := ht
  refine ⟨hin, hin', ?_⟩
  rw [hspells'.bare, hspells.bare, hbody, hargs, ← List.map_reverse, Nameless.fill_openAt hσ.closed]

end Shapes

end MuTypes
