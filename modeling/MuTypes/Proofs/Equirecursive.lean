import MuTypes.Proofs.Cycles
import MuTypes.Proofs.Monomorphic

/-!
# Comparing equirecursive types

Types with recursive types in them stand for their infinite unrollings, and a type fits where another is required when
the unrollings do.  `Related` is the greatest relation that compares the heads of two types, both unrolled, and asks
itself for the parts.  On monomorphic types `fits` decides it: it ends, and says yes to what is related
(`fits_decides_related`).
-/

namespace MuTypes.Ty

open Nameless NameSupply

/-- The second type is the first one with its head unrolled; the binders that are renamed on the way get any names
that are new to the type. -/
def Unrolls (t t' : Ty) : Prop :=
  ∃ s : NameSupply, s.AheadOfTy t ∧ (t.unroll.run s).1 = some t'

/-- Two heads match, with parts that are in the relation. -/
inductive Matches (scope : List Name) (R : Fit → Ty → Ty → Prop) : Fit → Ty → Ty → Prop where
  | undefined {fit : Fit} {e a : Ty} (h : e = .undefined ∨ a = .undefined) : Matches scope R fit e a
  | prim {fit : Fit} (p : Prim) : Matches scope R fit (.prim p) (.prim p)
  | var {fit : Fit} {x : Name} (h : x ∈ scope) : Matches scope R fit (.var x) (.var x)
  | container {fit : Fit} {k : Container} {e a : Ty} (h : R fit e a) :
    Matches scope R fit (.container k e) (.container k a)
  | funcExact {ps qs : Row} {r s : Ty} (hps : List.Forall₂ (fun p q => R .exact p.2 q.2) ps qs) (hr : R .exact r s) :
    Matches scope R .exact (.func ps r) (.func qs s)
  | funcWide {ps qs : Row} {r s : Ty} (hps : List.Forall₂ (fun p q => R .wide q.2 p.2) ps qs) (hr : R .wide r s) :
    Matches scope R .wide (.func ps r) (.func qs s)
  | object {fit : Fit} {ps qs : Row} (hcount : fit = .exact → ps.length = qs.length)
    (hps : ∀ p ∈ ps, ∃ q ∈ qs, q.1 = p.1 ∧ R fit p.2 q.2) : Matches scope R fit (.object ps) (.object qs)
  | union {fit : Fit} {vs ws : Variants} (hlabels : ∀ l, l ∈ vs.map Prod.fst ↔ l ∈ ws.map Prod.fst)
    (hnames : ∀ v ∈ vs, ∀ w ∈ ws, v.1 = w.1 → ∀ n, n ∈ v.2.map Prod.fst ↔ n ∈ w.2.map Prod.fst)
    (hps : ∀ v ∈ vs, ∀ w ∈ ws, v.1 = w.1 → ∀ p ∈ v.2, ∀ q ∈ w.2, p.1 = q.1 → R .exact p.2 q.2) :
    Matches scope R fit (.union vs) (.union ws)

/-- Related types unroll to types with heads that match and parts that are related. -/
def Consistent (scope : List Name) (R : Fit → Ty → Ty → Prop) : Prop :=
  ∀ fit e a, R fit e a → ∃ e' a', Unrolls e e' ∧ Unrolls a a' ∧ Matches scope R fit e' a'

/-- The greatest consistent relation. -/
def Related (scope : List Name) (fit : Fit) (expected actual : Ty) : Prop :=
  ∃ R, Consistent scope R ∧ R fit expected actual

/-! ### The greatest relation -/

theorem Matches.mono {scope : List Name} {R R' : Fit → Ty → Ty → Prop} (hR : ∀ fit e a, R fit e a → R' fit e a)
    {fit : Fit} {e a : Ty} (h : Matches scope R fit e a) : Matches scope R' fit e a := by
  cases h with
  | undefined h => exact .undefined h
  | prim p => exact .prim p
  | var h => exact .var h
  | container h => exact .container (hR _ _ _ h)
  | funcExact hps hr => exact .funcExact (hps.imp fun _ _ h => hR _ _ _ h) (hR _ _ _ hr)
  | funcWide hps hr => exact .funcWide (hps.imp fun _ _ h => hR _ _ _ h) (hR _ _ _ hr)
  | object hcount hps =>
    refine .object hcount fun p hp => ?_
    obtain ⟨q, hq, hname, h⟩ := hps p hp
    exact ⟨q, hq, hname, hR _ _ _ h⟩
  | union hlabels hnames hps =>
    exact .union hlabels hnames fun v hv w hw hvw p hp q hq hpq => hR _ _ _ (hps v hv w hw hvw p hp q hq hpq)

/-- `Related` is consistent, so it is the greatest relation that is. -/
theorem consistent_related (scope : List Name) : Consistent scope (Related scope) := by
  rintro fit e a ⟨R, hR, hea⟩
  obtain ⟨e', a', he, ha, hmatch⟩ := hR fit e a hea
  exact ⟨e', a', he, ha, hmatch.mono fun _ _ _ h => ⟨R, hR, h⟩⟩

/-! ### Matching heads and the comparisons of parts -/

/-- All comparisons that are asked are in the relation, and none fails. -/
private def AllHold {γ : Type} (Q : γ → Prop) (os : List (Option γ)) : Prop :=
  ∀ o ∈ os, ∃ d, o = some d ∧ Q d

private theorem allHold_iff {γ : Type} {Q : γ → Prop} {os : List (Option γ)} :
    AllHold Q os ↔ none ∉ os ∧ ∀ d, some d ∈ os → Q d := by
  constructor
  · refine fun h => ⟨fun hn => ?_, fun d hd => ?_⟩
    · obtain ⟨d, hd, -⟩ := h none hn
      cases hd
    · obtain ⟨d', hd', hQ⟩ := h _ hd
      exact Option.some.inj hd' ▸ hQ
  · rintro ⟨hn, h⟩ o ho
    cases o with
    | none => exact absurd ho hn
    | some d => exact ⟨d, rfl, h d ho⟩

private theorem allHold_fail {γ : Type} {Q : γ → Prop} : ¬ AllHold Q [none] := by
  intro h
  obtain ⟨d, hd, -⟩ := h none (List.mem_singleton_self _)
  cases hd

private theorem allHold_one {γ : Type} {Q : γ → Prop} {d : γ} : AllHold Q [some d] ↔ Q d := by
  simp [AllHold]

private theorem allHold_append {γ : Type} {Q : γ → Prop} {os os' : List (Option γ)} :
    AllHold Q (os ++ os') ↔ AllHold Q os ∧ AllHold Q os' :=
  List.forall_mem_append

private theorem allHold_offered {γ τ : Type} {Q : γ → Prop} {part : τ → τ → List (Option γ)} {ps qs : List (Name × τ)}
    (hd : (qs.map Prod.fst).Nodup) :
    AllHold Q (offered part ps qs) ↔ ∀ p ∈ ps, ∃ q ∈ qs, q.1 = p.1 ∧ AllHold Q (part p.2 q.2) := by
  constructor
  · intro h p hp
    have hnone : none ∉ offered part ps qs := (allHold_iff.1 h).1
    obtain ⟨q, hq, -⟩ := exists_lookup_of_offered hnone hp
    refine ⟨(p.1, q), mem_of_lookup hq, rfl, fun o ho => h o (mem_offered.2 ⟨p, hp, .inl ⟨q, hq, ho⟩⟩)⟩
  · intro h o ho
    obtain ⟨p, hp, ⟨q, hq, ho⟩ | ⟨hnone, -⟩⟩ := mem_offered.1 ho
    · obtain ⟨q', hq', hname, hall⟩ := h p hp
      have hlookup : qs.lookup p.1 = some q'.2 := lookup_of_mem hd (hname ▸ hq')
      obtain rfl : q = q'.2 := Option.some.inj (hq.symm.trans hlookup)
      exact hall o ho
    · obtain ⟨q', hq', hname, -⟩ := h p hp
      have hlookup : qs.lookup p.1 = some q'.2 := lookup_of_mem hd (hname ▸ hq')
      rw [hnone] at hlookup
      cases hlookup

/-- Lists of the same length with all entries of the one found in the other, where neither repeats names, have the same
names, and each name has one entry. -/
private theorem found_iff_sameNames {τ : Type} {S : τ → τ → Prop} {ps qs : List (Name × τ)}
    (hd : (ps.map Prod.fst).Nodup) (hd' : (qs.map Prod.fst).Nodup) :
    (ps.length = qs.length ∧ ∀ p ∈ ps, ∃ q ∈ qs, q.1 = p.1 ∧ S p.2 q.2) ↔
      (∀ n, n ∈ ps.map Prod.fst ↔ n ∈ qs.map Prod.fst) ∧ ∀ p ∈ ps, ∀ q ∈ qs, p.1 = q.1 → S p.2 q.2 := by
  constructor
  · rintro ⟨hlength, h⟩
    have hlookup : ∀ p ∈ ps, ∃ u, qs.lookup p.1 = some u := by
      intro p hp
      obtain ⟨q, hq, hname, -⟩ := h p hp
      exact ⟨q.2, lookup_of_mem hd' (hname ▸ hq)⟩
    refine ⟨fun n => ⟨fun hn => ?_, fun hn => ?_⟩, fun p hp q hq hpq => ?_⟩
    · obtain ⟨p, hp, rfl⟩ := List.mem_map.1 hn
      obtain ⟨q, hq, hname, -⟩ := h p hp
      exact List.mem_map.2 ⟨q, hq, hname⟩
    · obtain ⟨q, hq, rfl⟩ := List.mem_map.1 hn
      exact mem_names_of_forall_lookup hd hlength hlookup hq
    · obtain ⟨q', hq', hname, hS⟩ := h p hp
      have hq2 : qs.lookup p.1 = some q.2 := lookup_of_mem hd' (hpq ▸ hq)
      have hq2' : qs.lookup p.1 = some q'.2 := lookup_of_mem hd' (hname ▸ hq')
      rwa [Option.some.inj (hq2.symm.trans hq2')]
  · rintro ⟨hnames, h⟩
    have hperm : (ps.map Prod.fst).Perm (qs.map Prod.fst) := (List.perm_ext_iff_of_nodup hd hd').2 hnames
    refine ⟨by simpa using hperm.length_eq, fun p hp => ?_⟩
    obtain ⟨q, hq, hname⟩ := List.mem_map.1 ((hnames p.1).1 (List.mem_map_of_mem hp))
    exact ⟨q, hq, hname, h p hp q hq hname.symm⟩

section Parts

variable {scope : List Name} {R : Fit → Ty → Ty → Prop} {c : Comparison}

private theorem allHold_ite {γ : Type} {Q : γ → Prop} {p : Prop} [Decidable p] {os : List (Option γ)} :
    AllHold Q (if p then os else [none]) ↔ p ∧ AllHold Q os := by
  split
  · rename_i h
    simp [h]
  · rename_i h
    simp [h, allHold_fail]

private theorem allHold_rowParts {ps qs : Row} (hd : (ps.map Prod.fst).Nodup) (hd' : (qs.map Prod.fst).Nodup) :
    AllHold (fun d : Comparison => R d.fit d.expected d.actual) (c.rowParts ps qs) ↔
      (∀ n, n ∈ ps.map Prod.fst ↔ n ∈ qs.map Prod.fst) ∧
        ∀ p ∈ ps, ∀ q ∈ qs, p.1 = q.1 → R .exact p.2 q.2 := by
  rw [← found_iff_sameNames hd hd', Comparison.rowParts, allHold_ite, allHold_offered hd']
  simp only [allHold_one, Comparison.part]

private theorem allHold_params {ps qs : Row} :
    (ps.length = qs.length ∧ AllHold (fun d : Comparison => R d.fit d.expected d.actual)
      ((ps.zip qs).map fun p => some (c.param p.1.2 p.2.2))) ↔
      List.Forall₂ (fun p q => match c.fit with
        | .exact => R .exact p.2 q.2
        | .wide => R .wide q.2 p.2) ps qs := by
  rw [List.forall₂_iff_zip]
  refine and_congr_right fun _ => ?_
  simp only [AllHold, List.forall_mem_map, Option.some.injEq, exists_eq_left', Prod.forall]
  unfold Comparison.param
  cases hfit : c.fit
  · simp only [Comparison.part, hfit]
  · exact Iff.rfl

/-- Heads match when the comparisons of parts are in the relation. -/
private theorem matches_iff_parts {s : NameSupply} (hr : c.Ready s) (hc : c.MonomorphicIn scope) (ht : ¬ c.Trivial)
    (hh : c.headed = false) :
    Matches scope R c.fit c.expected c.actual ↔
      AllHold (fun d : Comparison => R d.fit d.expected d.actual) c.parts := by
  obtain ⟨bs, fit, e, a⟩ := c
  obtain ⟨rfl, hem, ham⟩ := hc
  have hfail : ∀ {e a : Ty} {os : List (Option Comparison)}, ¬ Matches scope R fit e a → os = [none] →
      (Matches scope R fit e a ↔ AllHold (fun d : Comparison => R d.fit d.expected d.actual) os) := by
    rintro e a _ hn rfl
    exact iff_of_false hn allHold_fail
  have hew := hr.expected_wellFormed
  have haw := hr.actual_wellFormed
  cases e <;> cases a
  case prim.prim p q =>
    by_cases h : p = q
    · subst h
      refine iff_of_true (.prim p) ?_
      simp [Comparison.parts, AllHold]
    · refine hfail (fun hm => ?_) (if_neg h)
      cases hm with
      | undefined hu => exact ht hu
      | prim => exact h rfl
  case container.container k e l a =>
    by_cases h : k = l
    · subst h
      have hparts : Comparison.parts ⟨.ofScope scope, fit, .container k e, .container k a⟩ =
          [some ⟨.ofScope scope, fit, e, a⟩] := if_pos rfl
      rw [hparts, allHold_one]
      constructor
      · intro hm
        cases hm with
        | undefined hu => exact absurd hu ht
        | container h => exact h
      · exact .container
    · refine hfail (fun hm => ?_) (if_neg h)
      cases hm with
      | undefined hu => exact ht hu
      | container => exact h rfl
  case func.func ps r qs s =>
    show Matches scope R fit (.func ps r) (.func qs s) ↔ AllHold _ (if ps.length = qs.length then
      (ps.zip qs).map (fun p => some (Comparison.param ⟨.ofScope scope, fit, .func ps r, .func qs s⟩ p.1.2 p.2.2)) ++
        [some ⟨.ofScope scope, fit, r, s⟩] else [none])
    rw [allHold_ite, allHold_append, allHold_one, ← and_assoc, allHold_params]
    constructor
    · intro hm
      cases hm with
      | undefined hu => exact absurd hu ht
      | funcExact hps hr => exact ⟨hps, hr⟩
      | funcWide hps hr => exact ⟨hps, hr⟩
    · rintro ⟨hps, hr⟩
      cases fit with
      | exact => exact .funcExact hps hr
      | wide => exact .funcWide hps hr
  case object.object ps qs =>
    have hd : (qs.map Prod.fst).Nodup := by
      cases haw with
      | object hd _ => exact hd
    show Matches scope R fit (.object ps) (.object qs) ↔ AllHold _ (if fit = .wide ∨ ps.length = qs.length then
      offered (fun t u : Ty => [some (Comparison.part ⟨.ofScope scope, fit, .object ps, .object qs⟩ t u)]) ps qs
        else [none])
    rw [allHold_ite, allHold_offered hd]
    simp only [allHold_one, Comparison.part]
    constructor
    · intro hm
      cases hm with
      | undefined hu => exact absurd hu ht
      | object hcount hps =>
        refine ⟨?_, hps⟩
        cases fit with
        | exact => exact .inr (hcount rfl)
        | wide => exact .inl rfl
    · rintro ⟨hcount, hps⟩
      refine .object (fun hfit => ?_) hps
      rcases hcount with h | h
      · rw [hfit] at h
        cases h
      · exact h
  case union.union vs ws =>
    obtain ⟨hd, hds⟩ : (vs.map Prod.fst).Nodup ∧ ∀ v ∈ vs, (v.2.map Prod.fst).Nodup := by
      cases hew with
      | union hd hds _ => exact ⟨hd, hds⟩
    obtain ⟨hd', hds'⟩ : (ws.map Prod.fst).Nodup ∧ ∀ w ∈ ws, (w.2.map Prod.fst).Nodup := by
      cases haw with
      | union hd hds _ => exact ⟨hd, hds⟩
    show Matches scope R fit (.union vs) (.union ws) ↔ AllHold _ (if vs.length = ws.length then
      offered (Comparison.rowParts ⟨.ofScope scope, fit, .union vs, .union ws⟩) vs ws else [none])
    rw [allHold_ite, allHold_offered hd', found_iff_sameNames (S := fun ps qs => AllHold _ (Comparison.rowParts _ ps qs))
      hd hd']
    constructor
    · intro hm
      cases hm with
      | undefined hu => exact absurd hu ht
      | union hlabels hnames hps =>
        refine ⟨hlabels, fun v hv w hw hvw => (allHold_rowParts (hds v hv) (hds' w hw)).2 ?_⟩
        exact ⟨hnames v hv w hw hvw, hps v hv w hw hvw⟩
    · rintro ⟨hlabels, hrows⟩
      have hrow := fun v hv w hw hvw => (allHold_rowParts (hds v hv) (hds' w hw)).1 (hrows v hv w hw hvw)
      exact .union hlabels (fun v hv w hw hvw => (hrow v hv w hw hvw).1) fun v hv w hw hvw => (hrow v hv w hw hvw).2
  case var.var x y =>
    have hx : x ∈ scope := mem_lefts_ofScope.1 (hr.expected x ((mentions_var ..).2 rfl))
    have hy : y ∈ scope := mem_rights_ofScope.1 (hr.actual y ((mentions_var ..).2 rfl))
    have hsame : (Binders.ofScope scope).left? x = (Binders.ofScope scope).right? y ↔ x = y := by
      rw [← Binders.left?_swap, swap_ofScope]
      constructor
      · intro h
        obtain ⟨i, hi⟩ := left?_isSome (mem_lefts_ofScope.2 hx)
        have hi' := h.symm.trans hi
        rw [Binders.left?_eq_place] at hi hi'
        exact Option.some.inj ((place_eq_some hi).2.symm.trans (place_eq_some hi').2)
      · rintro rfl
        rfl
    show Matches scope R fit (.var x) (.var y) ↔
      AllHold _ (if (Binders.ofScope scope).left? x = (Binders.ofScope scope).right? y then [] else [none])
    rw [allHold_ite, hsame]
    constructor
    · intro hm
      cases hm with
      | undefined hu => exact absurd hu ht
      | var h => exact ⟨rfl, fun o ho => absurd ho List.not_mem_nil⟩
    · rintro ⟨rfl, -⟩
      exact .var hx
  case generic.generic ns e ms a =>
    rw [bare_generic] at hem
    cases hem
  all_goals
    refine hfail (fun hm => ?_) rfl
    cases hm
    exact ht ‹_›

end Parts

/-! ### Agreement of the infinite unrollings -/

theorem Unrolls.eq_of_not_isMu {t t' : Ty} (h : Unrolls t t') (ht : t.isMu = false) : t' = t := by
  obtain ⟨s, -, hrun⟩ := h
  rw [unroll_of_not_isMu ht] at hrun
  exact (Option.some.inj hrun).symm

/-- Whatever the new names are, the unrolled type has the unrolled nameless form. -/
theorem WellFormed.of_unrolls {t t' : Ty} (h : t.WellFormed) (hu : Unrolls t t') :
    t'.isMu = false ∧ t'.WellFormed ∧ t'.bare = t.bare.unroll ∧ ∀ x, t'.mentions x = true → t.mentions x = true := by
  obtain ⟨s, hs, hrun⟩ := hu
  obtain ⟨-, u, hu, hmu, hspells⟩ := unroll_yields h.sound (h.spells hs)
  obtain rfl : t' = u := Option.some.inj (hrun.symm.trans hu)
  refine ⟨hmu, hspells.wellFormed h.sound.unroll.wellFormed, hspells.bare, fun x hx => ?_⟩
  have hmem : t'.bare.Has x := has_nameless_iff.2 ⟨hx, List.not_mem_nil⟩
  rw [hspells.bare] at hmem
  exact (has_nameless_iff.1 (has_unroll hmem)).1

theorem WellFormed.exists_unrolls {t : Ty} (h : t.WellFormed) {s : NameSupply} (hs : s.AheadOfTy t) :
    ∃ t', Unrolls t t' := by
  obtain ⟨-, t', hrun, -⟩ := unroll_yields h.sound (h.spells hs)
  exact ⟨t', s, hs, hrun⟩

namespace Comparison

variable {scope : List Name} {R : Fit → Ty → Ty → Prop} {c : Comparison} {s : NameSupply}

private theorem Ready.of_unrolls (hc : c.Ready s) {e a : Ty} (he : Unrolls c.expected e) (ha : Unrolls c.actual a) :
    UnrolledFrom { c with expected := e, actual := a } c ∧ headed { c with expected := e, actual := a } = false ∧
      ∃ t, Ready { c with expected := e, actual := a } t := by
  obtain ⟨hemu, hew, hebare, hefree⟩ := hc.expected_wellFormed.of_unrolls he
  obtain ⟨hamu, haw, habare, hafree⟩ := hc.actual_wellFormed.of_unrolls ha
  obtain ⟨t, ht⟩ := exists_aheadOf (e.typeNames ++ a.typeNames)
  refine ⟨⟨rfl, rfl, hebare, habare⟩, ?_, t, ⟨fun x hx => hc.expected x (hefree x hx), fun x hx =>
    hc.actual x (hafree x hx)⟩, hew, haw, fun x hx => ht x (List.mem_append_left _ hx), fun x hx =>
    ht x (List.mem_append_right _ hx)⟩
  rw [headed, hemu, hamu]
  rfl

/-- What a consistent relation has holds up to any number of unrollings. -/
private theorem agree_of_consistent (hR : Consistent scope R) (k : Nat) (hc : c.Ready s) (hm : c.MonomorphicIn scope)
    (h : R c.fit c.expected c.actual ∨ c.headed = false ∧ Matches scope R c.fit c.expected c.actual) :
    c.Agree k := by
  induction k generalizing c s with
  | zero => exact .start _
  | succ k ih =>
    induction hn : c.height using Nat.strong_induction_on generalizing c s with
    | _ n ihn =>
      by_cases ht : c.Trivial
      · exact .trivial (Ready.trivial_located.2 ht)
      by_cases hh : c.headed = true
      · have hrel : R c.fit c.expected c.actual := h.resolve_right fun hm => by simp [hh] at hm
        obtain ⟨e, a, he, ha, hmatch⟩ := hR _ _ _ hrel
        obtain ⟨hfrom, hheaded, t, hready⟩ := hc.of_unrolls he ha
        exact (agree_iff_unrolled hfrom.located ht hh).2 (ih hready (hm.unrolled hfrom) (.inr ⟨hheaded, hmatch⟩))
      · have hh : c.headed = false := Bool.of_not_eq_true hh
        have hmatch : Matches scope R c.fit c.expected c.actual := by
          rcases h with hrel | ⟨-, hmatch⟩
          · obtain ⟨e, a, he, ha, hmatch⟩ := hR _ _ _ hrel
            obtain ⟨hemu, hamu⟩ := Bool.or_eq_false_iff.1 hh
            rwa [he.eq_of_not_isMu hemu, ha.eq_of_not_isMu hamu] at hmatch
          · exact hmatch
        obtain ⟨hnone, hparts⟩ := allHold_iff.1 ((matches_iff_parts hc hm ht hh).1 hmatch)
        refine (hc.agree_iff_parts ht hh).2 ⟨hnone, fun d hd => ?_⟩
        have hpart := partOf_of_mem_parts hd
        exact ihn d.height (hn ▸ hpart.height_lt) (hc.partOf hpart) (hm.part hpart) (.inl (hparts d hd)) rfl

/-- Agreement up to every number of unrollings is a consistent relation. -/
private theorem consistent_agree (scope : List Name) :
    Consistent scope fun fit e a => ∃ s, Ready ⟨.ofScope scope, fit, e, a⟩ s ∧
      MonomorphicIn scope ⟨.ofScope scope, fit, e, a⟩ ∧ ∀ k, Agree k ⟨.ofScope scope, fit, e, a⟩ := by
  rintro fit e a ⟨s, hc, hm, hall⟩
  obtain ⟨e', he⟩ := hc.expected_wellFormed.exists_unrolls hc.expected_ahead
  obtain ⟨a', ha⟩ := hc.actual_wellFormed.exists_unrolls hc.actual_ahead
  obtain ⟨hfrom, hheaded, t, hready⟩ := hc.of_unrolls he ha
  refine ⟨e', a', he, ha, ?_⟩
  have hm' := hm.unrolled hfrom
  by_cases ht' : Trivial ⟨.ofScope scope, fit, e', a'⟩
  · exact .undefined ht'
  have hall' : ∀ k, Agree k ⟨.ofScope scope, fit, e', a'⟩ := by
    intro k
    by_cases hh : headed ⟨.ofScope scope, fit, e, a⟩ = true
    · have ht : ¬ Trivial ⟨.ofScope scope, fit, e, a⟩ := by
        refine fun ht => ht' (ht.imp (fun h => ?_) fun h => ?_)
        · obtain rfl : e = .undefined := h
          exact he.eq_of_not_isMu rfl
        · obtain rfl : a = .undefined := h
          exact ha.eq_of_not_isMu rfl
      exact (agree_iff_unrolled hfrom.located ht hh).1 (hall (k + 1))
    · obtain ⟨hemu, hamu⟩ := Bool.or_eq_false_iff.1 (Bool.of_not_eq_true hh)
      obtain rfl : e' = e := he.eq_of_not_isMu hemu
      obtain rfl : a' = a := ha.eq_of_not_isMu hamu
      exact hall k
  have hparts := fun k => (hready.agree_iff_parts ht' hheaded).1 (hall' (k + 1))
  refine (matches_iff_parts hready hm' ht' hheaded).2 (allHold_iff.2 ⟨(hparts 0).1, fun d hd => ?_⟩)
  have hpart := partOf_of_mem_parts hd
  have hdm := hm'.part hpart
  obtain ⟨bs, fit', t, u⟩ := d
  obtain rfl : bs = .ofScope scope := hdm.binders
  exact ⟨_, hready.partOf hpart, hdm, fun k => ((hparts k).2 _ hd).anti (Nat.le_succ k)⟩

theorem related_iff_agree {fit : Fit} {e a : Ty} (hc : Ready ⟨.ofScope scope, fit, e, a⟩ s)
    (hm : MonomorphicIn scope ⟨.ofScope scope, fit, e, a⟩) :
    Related scope fit e a ↔ ∀ k, Agree k ⟨.ofScope scope, fit, e, a⟩ := by
  constructor
  · rintro ⟨R, hR, h⟩ k
    exact agree_of_consistent hR k hc hm (.inl h)
  · intro h
    exact ⟨_, consistent_agree scope, s, hc, hm, h⟩

end Comparison

/-! ### The decision -/

/-- The binders of comparisons of monomorphic types are always the same, so the pairs are those of the assumption. -/
theorem soundRule_of_monomorphicIn (scope : List Name) :
    SoundRule (Comparison.MonomorphicIn scope) (covered fun _ => true) := by
  intro entered c s hc hm hentered h
  unfold covered at h
  split at h
  · rename_i hany
    obtain ⟨e, he, hcov⟩ := List.any_eq_true.1 hany
    refine .inr ⟨e, he, Comparison.embeds_of_covers (hentered e he).1 hc hcov ?_⟩
    have hbinders : c.binders = e.binders := hm.binders.trans (hentered e he).2.binders.symm
    rw [Comparison.keepsPairs, hbinders]
    simp
  · cases h

theorem kept_monomorphicIn (scope : List Name) : Kept (Comparison.MonomorphicIn scope) :=
  ⟨fun h hd => h.unrolled hd, fun h hd => h.part hd⟩

/-- Between monomorphic types the answer yes is right. -/
theorem Comparison.MonomorphicIn.agree_of_fits {scope : List Name} {fuel : Nat} {fit : Fit} {e a : Ty} {s : NameSupply}
    (hm : Comparison.MonomorphicIn scope ⟨.ofScope scope, fit, e, a⟩)
    (hc : Comparison.Ready ⟨.ofScope scope, fit, e, a⟩ s) (hyes : ((fits fuel scope fit e a).run.run s).1 = .ok true) :
    ∀ k, Comparison.Agree k ⟨.ofScope scope, fit, e, a⟩ := by
  rw [fits_eq_closing] at hyes
  exact (closing_true (kept_monomorphicIn scope) (soundRule_of_monomorphicIn scope) hc hm).2 true hyes rfl

/-- On monomorphic types `fits` ends, and says yes when the types are related. -/
theorem fits_decides_related {scope : List Name} {fit : Fit} {expected actual : Ty} {s : NameSupply}
    (he : expected.WellFormed) (ha : actual.WellFormed) (hme : expected.Monomorphic) (hma : actual.Monomorphic)
    (hse : ∀ x, expected.mentions x = true → x ∈ scope) (hsa : ∀ x, actual.mentions x = true → x ∈ scope)
    (hne : s.AheadOfTy expected) (hna : s.AheadOfTy actual) :
    ∃ fuel b, (∀ n, fuel ≤ n → ((fits n scope fit expected actual).run.run s).1 = .ok b) ∧
      (b = true ↔ Related scope fit expected actual) := by
  have hc : Comparison.Ready ⟨.ofScope scope, fit, expected, actual⟩ s :=
    Comparison.ready_ofScope he ha hse hsa hne hna
  have hm : Comparison.MonomorphicIn scope ⟨.ofScope scope, fit, expected, actual⟩ := ⟨rfl, hme.bare, hma.bare⟩
  obtain ⟨fuel, b, t, hrun⟩ : Position.Settles ⟨[], ⟨.ofScope scope, fit, expected, actual⟩, false, s⟩ :=
    Monomorphic.settles hc false hme
  have hfits : ∀ n, fuel ≤ n → ((fits n scope fit expected actual).run.run s).1 = .ok b := fun n hn =>
    congrArg Prod.fst (hrun n hn)
  refine ⟨fuel, b, hfits, ?_⟩
  have hb := hfits fuel (Nat.le_refl fuel)
  rw [fits_eq_closing] at hb
  rw [Comparison.related_iff_agree hc hm]
  constructor
  · intro htrue
    exact (closing_true (kept_monomorphicIn scope) (soundRule_of_monomorphicIn scope) hc hm).2 b hb htrue
  · intro hall
    cases b with
    | true => rfl
    | false =>
      obtain ⟨k, hk⟩ := (closing_false covered_true_ne_false hc).2 false hb rfl
      exact absurd (hall k) hk

/-- `mu L. { head: number, tail: L? }`. -/
def shortPeriod : Ty :=
  .mu "L" (.object [("head", .prim .number), ("tail", .container .option (.var "L"))])

/-- `mu M. { tail: { tail: M?, head: number }?, head: number }`, which has the same infinite unrolling. -/
def longPeriod : Ty :=
  .mu "M" (.object [("tail", .container .option (.object [("tail", .container .option (.var "M")),
    ("head", .prim .number)])), ("head", .prim .number)])

/-- The two types are related, as the comparison says. -/
theorem related_shortPeriod_longPeriod : Related [] .exact shortPeriod longPeriod := by
  have hem : shortPeriod.Monomorphic := by
    refine .mu (.object ?_)
    simp only [List.forall_mem_cons, List.not_mem_nil, false_imp_iff, implies_true, and_true]
    exact ⟨.prim _, .container (.var _)⟩
  have ham : longPeriod.Monomorphic := by
    refine .mu (.object ?_)
    simp only [List.forall_mem_cons, List.not_mem_nil, false_imp_iff, implies_true, and_true]
    refine ⟨.container (.object ?_), .prim _⟩
    simp only [List.forall_mem_cons, List.not_mem_nil, false_imp_iff, implies_true, and_true]
    exact ⟨.container (.var _), .prim _⟩
  obtain ⟨fuel, b, hfits, hrelated⟩ : ∃ fuel b,
      (∀ n, fuel ≤ n → ((fits n [] .exact shortPeriod longPeriod).run.run {}).1 = .ok b) ∧
        (b = true ↔ Related [] .exact shortPeriod longPeriod) :=
    fits_decides_related (by decide) (by decide) hem ham (mentions_mem_of_freeNames (by decide))
      (mentions_mem_of_freeNames (by decide)) (aheadOfTy_of_at_sign_not_mem (by decide) _)
      (aheadOfTy_of_at_sign_not_mem (by decide) _)
  have hten : ((fits 10 [] .exact shortPeriod longPeriod).run.run {}).1 = .ok true := by cbv
  have hmore := fitsUnder_mono (Nat.le_max_right fuel 10) [] (.ofScope []) .exact shortPeriod longPeriod {} true _
    (Prod.ext hten rfl)
  have hboth := (hfits _ (Nat.le_max_left fuel 10)).symm.trans (congrArg Prod.fst hmore)
  exact hrelated.1 (Except.ok.inj hboth)

end MuTypes.Ty
