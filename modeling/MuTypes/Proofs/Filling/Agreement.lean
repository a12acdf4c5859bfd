import MuTypes.Proofs.BoundNames
import MuTypes.Proofs.Equirecursive
import MuTypes.Proofs.Filling.Types

/-!
# Checks of filled types

A check imitates another one when it gives a corresponding result, or has an excuse for its failure (`Imitates`).  Two
failures are excused.  A comparison of types may lack fuel.  And types may be refused that the first check should have
refused before they were filled: its comparison said yes without being justified (`AcceptedWrongly`).  Otherwise types
that fit still do so when they are filled, and when the fit is wider (`expectFit_imitates`).
-/

namespace MuTypes

open NameSupply Ty

/-! ### Wider fits -/

/-- The second fit is the first one, or it is wide where the first one is exact. -/
def Fit.Widens (fit fit' : Fit) : Prop :=
  fit' = fit ∨ fit = .exact ∧ fit' = .wide

/-- The second policy has the fits of the first one, or wider ones. -/
structure Policy.Widens (p p' : Policy) : Prop where
  argument : p.argument.Widens p'.argument
  assignment : p.assignment.Widens p'.assignment

theorem Fit.Widens.refl (fit : Fit) : fit.Widens fit :=
  .inl rfl

/-! ### Types that are accepted wrongly -/

/-- A comparison says yes without being justified, and the two types are those that it compares, filled. -/
def AcceptedWrongly (fuel : Nat) (expected actual : Ty) : Prop :=
  ∃ σ names names' fit e a s s', Filling σ names names' ∧ Filled σ names names' e expected s s' ∧
    Filled σ names names' a actual s s' ∧ ((Ty.fits fuel names fit e a).run.run s).1 = .ok true ∧
    ¬ Justified fuel names fit e a s true

/-- There is no generic type in a type when there is none in it once it is filled. -/
private theorem monomorphic_of_fill {σ : Name → Nameless Name} {n : Nameless Name} (h : (n.fill σ).Monomorphic) :
    n.Monomorphic := by
  induction n with
  | prim p => exact .prim p
  | container k e ih =>
    cases h with
    | container he => exact .container (ih he)
  | func ps r ihps ihr =>
    rw [Nameless.fill_func] at h
    cases h with
    | func hps hr => exact .func (fun p hp => ihps p hp (List.forall_mem_map.1 hps p hp)) (ihr hr)
  | object ps ih =>
    rw [Nameless.fill_object] at h
    cases h with
    | object hps => exact .object fun p hp => ih p hp (List.forall_mem_map.1 hps p hp)
  | union vs ih =>
    rw [Nameless.fill_union] at h
    cases h with
    | union hvs =>
      refine .union fun v hv p hp => ih v hv p hp ?_
      exact List.forall_mem_map.1 (List.forall_mem_map.1 hvs v hv) p hp
  | mu b ih =>
    cases h with
    | mu hb => exact .mu (ih hb)
  | generic _ _ => cases h
  | bound i => exact .bound i
  | free x => exact .free x

/-- Types without generic types in them are never accepted wrongly. -/
theorem AcceptedWrongly.not_monomorphic {fuel : Nat} {expected actual : Ty} (h : AcceptedWrongly fuel expected actual) :
    ¬ (expected.Monomorphic ∧ actual.Monomorphic) := by
  rintro ⟨hexpected, hactual⟩
  obtain ⟨σ, names, names', fit, e, a, s, s', -, he, ha, hyes, hnot⟩ := h
  have hready := he.left.ready ha.left fit
  have hmono : Comparison.MonomorphicIn names ⟨.ofScope names, fit, e, a⟩ :=
    ⟨rfl, monomorphic_of_fill (he.bare ▸ hexpected.bare), monomorphic_of_fill (ha.bare ▸ hactual.bare)⟩
  exact hnot ((justified_iff hready hyes).2 (iff_of_true rfl (hmono.agree_of_fits hready hyes)))

section Fits

variable {σ : Name → Nameless Name} {names names' : List Name} {e e' a a' : Ty} {s s' : NameSupply}
  {fit fit' : Fit} (hσ : Filling σ names names')

/-- Filled types are located where the levels of their names are filled. -/
private theorem located_filled (he : Filled σ names names' e e' s s') :
    e'.located names'.reverse =
      (e.located names.reverse).fill fun l => (σ (nameAt names.reverse l)).relabel (level names'.reverse) := by
  rw [located, located, he.bare, Nameless.relabel_fill, Nameless.fill_relabel]
  refine Nameless.fill_congr fun x hx => ?_
  rw [nameAt_level (List.mem_reverse.2 (he.left.mem x (has_nameless_iff.1 hx).1))]

include hσ

/-- Types that agree go on to agree when they are filled, also for a wider fit. -/
theorem agree_filled (he : Filled σ names names' e e' s s') (ha : Filled σ names names' a a' s s')
    (hfit : fit.Widens fit') (h : ∀ k, Comparison.Agree k ⟨.ofScope names, fit, e, a⟩) (k : Nat) :
    Comparison.Agree k ⟨.ofScope names', fit', e', a'⟩ := by
  have hsound := (he.left.ready ha.left fit).sound
  have hsound' := (he.right.ready ha.right fit).sound
  simp only [Comparison.Agree, Comparison.located_ofScope] at h hsound hsound' ⊢
  have hagrees : Nameless.Comparison.Agrees
      ⟨names'.length, fit, e'.located names'.reverse, a'.located names'.reverse⟩ := by
    rw [located_filled he, located_filled ha]
    refine Nameless.Comparison.Agrees.fill h hsound (fun l => ?_) fun l hl y hy => ?_
    · exact ⟨Nameless.closedAt_relabel (hσ.closed _) _, Nameless.wellFormed_relabel (hσ.sound _).wellFormed _⟩
    · obtain ⟨x, hx, rfl⟩ := Nameless.has_relabel hy
      have hmem : nameAt names.reverse l ∈ names.reverse := nameAt_mem (by simpa using hl)
      have hlt := level_lt (List.mem_reverse.2 (hσ.mem _ (List.mem_reverse.1 hmem) x hx))
      rwa [List.length_reverse] at hlt
  rcases hfit with rfl | ⟨rfl, rfl⟩
  · exact hagrees k
  · exact hagrees.of_exact hsound' .wide k

/-- When filled types are refused, although they were accepted before, they were accepted wrongly. -/
theorem acceptedWrongly_of_refused {fuel fuel' : Nat} (he : Filled σ names names' e e' s s')
    (ha : Filled σ names names' a a' s s') (hfit : fit.Widens fit')
    (hyes : ((Ty.fits fuel names fit e a).run.run s).1 = .ok true)
    (hno : ((Ty.fits fuel' names' fit' e' a').run.run s').1 = .ok false) : AcceptedWrongly fuel e' a' := by
  refine ⟨σ, names, names', fit, e, a, s, s', hσ, he, ha, hyes, fun hj => ?_⟩
  have hall := ((justified_iff (he.left.ready ha.left fit) hyes).1 hj).1 rfl
  -- a refusal is right, but the filled types agree
  exact fits_ne_false (he.right.ready ha.right fit') (agree_filled hσ he ha hfit hall) fuel' hno

end Fits

/-! ### Checks that imitate others -/

/-- The failure is excused: a comparison lacks fuel, or types that were accepted wrongly are refused. -/
inductive Failure.Excused (fuel : Nat) : Failure → Prop where
  | unfinished : Excused fuel (.halt .unfinished)
  | mismatch {site : Site} {e a : Ty} {span : Span} (h : AcceptedWrongly fuel e a) :
    Excused fuel (.rule ⟨.mismatch site e a, span⟩)
  | wrongReturn {e a : Ty} {span : Span} (h : AcceptedWrongly fuel e a) :
    Excused fuel (.rule ⟨.wrongReturn e a, span⟩)

/-- When the first check gives a result, started from the first supply, the second one gives one that is related,
started from the second supply, and the supplies have not gone back, or the second one fails with an excuse. -/
def Imitates (fuel : Nat) {α α' : Type} (s s' : NameSupply) (m : CheckM α) (m' : CheckM α')
    (R : α → α' → NameSupply → NameSupply → Prop) : Prop :=
  ∀ a t, m.run.run s = (.ok a, t) →
    (∃ a' t', m'.run.run s' = (.ok a', t') ∧ s ≤ t ∧ s' ≤ t' ∧ R a a' t t') ∨
      ∃ f, (m'.run.run s').1 = .error f ∧ f.Excused fuel

theorem Mirrors.imitates {α α' : Type} {s s' : NameSupply} {m : CheckM α} {m' : CheckM α'}
    {R : α → α' → NameSupply → NameSupply → Prop} (h : Mirrors s s' m m' R) (fuel : Nat) : Imitates fuel s s' m m' R :=
  fun a t ha => .inl (h a t ha)

namespace Imitates

/-- What is so of checks that start from the first supply. -/
theorem result {fuel : Nat} {α α' : Type} {m : CheckM α} {m' : CheckM α'}
    {R : α → α' → NameSupply → NameSupply → Prop} (h : Imitates fuel {} {} m m' R) {a : α} (ha : m.result = .ok a) :
    (∃ a' t t', m'.result = .ok a' ∧ R a a' t t') ∨ ∃ f, m'.result = .error f ∧ f.Excused fuel := by
  rcases h a (m.run.run {}).2 (Prod.ext ha rfl) with ⟨a', t', ha', -, -, hR⟩ | hfails
  · exact .inl ⟨a', _, t', congrArg Prod.fst ha', hR⟩
  · exact .inr hfails

variable {fuel : Nat} {α α' β β' τ τ' : Type} {s s' : NameSupply} {m : CheckM α} {m' : CheckM α'} {g : α → CheckM β}
  {g' : α' → CheckM β'} {R : α → α' → NameSupply → NameSupply → Prop} {S : β → β' → NameSupply → NameSupply → Prop}

theorem pure {a : α} {a' : α'} (h : R a a' s s') :
    Imitates fuel s s' (Pure.pure a : CheckM α) (Pure.pure a' : CheckM α') R :=
  (Mirrors.pure h).imitates fuel

theorem violation (v : Violation) (span : Span) (m' : CheckM α') :
    Imitates fuel s s' (CheckM.violation v span : CheckM α) m' R :=
  (Mirrors.violation v span m').imitates fuel

/-- Nothing has to be shown of the second check when the first one gives no result. -/
theorem of_failing (h : s.Checks m fun _ _ => False) : Imitates fuel s s' m m' R :=
  fun a _ ha => (h.2.1 a (congrArg Prod.fst ha)).elim

theorem bind (hm : Imitates fuel s s' m m' R)
    (hg : ∀ a a' t t', s ≤ t → s' ≤ t' → R a a' t t' → Imitates fuel t t' (g a) (g' a') S) :
    Imitates fuel s s' (m >>= g) (m' >>= g') S := by
  intro b u hb
  obtain ⟨a, t, hrun, hb⟩ := run_bind_eq_ok hb
  rcases hm a t hrun with ⟨a', t', hrun', ht, ht', hR⟩ | ⟨f, hf, hexcused⟩
  · rw [run_bind_of_ok hrun' g']
    rcases hg a a' t t' ht ht' hR b u hb with ⟨b', u', hb', hu, hu', hS⟩ | hfails
    · exact .inl ⟨b', u', hb', le_trans ht hu, le_trans ht' hu', hS⟩
    · exact .inr hfails
  · exact .inr ⟨f, run_bind_of_error hf g', hexcused⟩

theorem forM {P : τ → τ' → Prop} {l : List τ} {l' : List τ'} {f : τ → CheckM Unit} {f' : τ' → CheckM Unit}
    (hl : List.Forall₂ P l l')
    (h : ∀ a a' t t', s ≤ t → s' ≤ t' → P a a' → Imitates fuel t t' (f a) (f' a') fun _ _ _ _ => True) :
    Imitates fuel s s' (l.forM f) (l'.forM f') fun _ _ _ _ => True := by
  induction hl generalizing s s' with
  | nil => exact .pure trivial
  | cons ha _ ih =>
    refine (h _ _ s s' (le_refl s) (le_refl s') ha).bind fun _ _ t t' ht ht' _ => ?_
    exact ih fun a a' u u' hu hu' => h a a' u u' (le_trans ht hu) (le_trans ht' hu')

end Imitates

/-! ### Questions about fitting -/

/-- The second context has the same aliases and a policy that is as permissive.  Its comparisons may go less deep. -/
structure Context.Widens (cx cx' : Context) : Prop where
  aliases : cx'.aliases = cx.aliases
  policy : cx.policy.Widens cx'.policy

theorem Context.Widens.refl (cx : Context) : cx.Widens cx :=
  ⟨rfl, .refl _, .refl _⟩

/-- A comparison of types in order answers or lacks fuel. -/
private theorem fits_outcome (cx : Context) {scope : Scope} (fit : Fit) {e a : Ty} {s : NameSupply}
    (he : e.InOrder scope.meanings s) (ha : a.InOrder scope.meanings s) :
    ∃ t, s ≤ t ∧ ((cx.fits scope fit e a).run.run s = (.error (.halt .unfinished), t) ∨
      ∃ b, (cx.fits scope fit e a).run.run s = (.ok b, t) ∧
        ((Ty.fits cx.fuel scope.meanings fit e a).run.run s).1 = .ok b) := by
  obtain ⟨hle, -, hscope⟩ := fits_checks cx fit he ha
  have hlift : (cx.fits scope fit e a).run.run s =
      (((Ty.fits cx.fuel scope.meanings fit e a).run.run s).1.mapError Failure.halt,
        ((cx.fits scope fit e a).run.run s).2) := rfl
  refine ⟨_, hle, ?_⟩
  rcases hrun : ((Ty.fits cx.fuel scope.meanings fit e a).run.run s).1 with h | b
  · rw [hrun] at hlift
    cases h with
    | unfinished => exact .inl hlift
    | unscoped x y => exact absurd rfl (hscope _ (congrArg Prod.fst hlift) x y)
  · rw [hrun] at hlift
    exact .inr ⟨b, hlift, rfl⟩

section Agreement

variable {σ : Name → Nameless Name} {cx cx' : Context} {scope scope' : Scope} {e e' a a' : Ty} {s s' : NameSupply}
  {fit fit' : Fit} (hσ : Filling σ scope.meanings scope'.meanings)
include hσ

/-- A question about types that fit, whose violation the caller has an excuse for. -/
private theorem fits_imitates (he : Filled σ scope.meanings scope'.meanings e e' s s')
    (ha : Filled σ scope.meanings scope'.meanings a a' s s') (hfit : fit.Widens fit') {v v' : Violation}
    {span span' : Span} (hexcuse : AcceptedWrongly cx.fuel e' a' → Failure.Excused cx.fuel (.rule ⟨v', span'⟩)) :
    Imitates cx.fuel s s'
      (do if ← cx.fits scope fit e a then return () else CheckM.violation v span)
      (do if ← cx'.fits scope' fit' e' a' then return () else CheckM.violation v' span') fun _ _ _ _ => True := by
  intro u t hu
  obtain ⟨b, t, hrun, hu⟩ := run_bind_eq_ok hu
  cases b with
  | false => cases hu
  | true =>
    obtain ⟨⟩ := hu
    obtain ⟨_, hs, hstop | ⟨b, hrun₁, hyes⟩⟩ := fits_outcome cx fit he.left ha.left
    · rw [hrun] at hstop
      cases hstop
    obtain ⟨⟩ := hrun.symm.trans hrun₁
    obtain ⟨t₁', hs', hstop' | ⟨b', hrun', hanswer⟩⟩ := fits_outcome cx' fit' he.right ha.right
    · exact .inr ⟨_, run_bind_of_error (congrArg Prod.fst hstop') _, .unfinished⟩
    · rw [run_bind_of_ok hrun']
      cases b' with
      | true => exact .inl ⟨(), t₁', rfl, hs, hs', trivial⟩
      | false => exact .inr ⟨_, rfl, hexcuse (acceptedWrongly_of_refused hσ he ha hfit hyes hanswer)⟩

theorem expectFit_imitates (site : Site) (he : Filled σ scope.meanings scope'.meanings e e' s s')
    (ha : Filled σ scope.meanings scope'.meanings a a' s s') (hfit : fit.Widens fit') {span span' : Span} :
    Imitates cx.fuel s s' (cx.expectFit scope site fit e a span) (cx'.expectFit scope' site fit' e' a' span')
      fun _ _ _ _ => True :=
  fits_imitates hσ he ha hfit .mismatch

theorem expectResult_imitates (he : Filled σ scope.meanings scope'.meanings e e' s s')
    (ha : Filled σ scope.meanings scope'.meanings a a' s s') {span span' : Span} :
    Imitates cx.fuel s s' (cx.expectResult scope e a span) (cx'.expectResult scope' e' a' span') fun _ _ _ _ => True :=
  fits_imitates hσ he ha (.refl .exact) .wrongReturn

theorem common_imitates (site : Site) (he : Filled σ scope.meanings scope'.meanings e e' s s')
    (ha : Filled σ scope.meanings scope'.meanings a a' s s') {span span' : Span} :
    Imitates cx.fuel s s' (cx.common scope site e a span) (cx'.common scope' site e' a' span')
      (Filled σ scope.meanings scope'.meanings) :=
  (expectFit_imitates hσ site he ha (.refl .exact)).bind fun _ _ _ _ hs hs' _ =>
    .pure (orElse_filled hσ (he.mono hs hs') (ha.mono hs hs'))

theorem commonClause_imitates {o o' : Option Ty}
    (ho : Option.Rel (fun t t' => Filled σ scope.meanings scope'.meanings t t' s s') o o')
    (ha : Filled σ scope.meanings scope'.meanings a a' s s') {span span' : Span} :
    Imitates cx.fuel s s' (cx.commonClause scope o a span) (cx'.commonClause scope' o' a' span')
      (Filled σ scope.meanings scope'.meanings) := by
  cases ho with
  | none => exact .pure ha
  | some ht => exact common_imitates hσ .clauses ht ha

theorem expectRow_imitates {ps ps' qs qs' : Row} (hps : FilledRow σ scope.meanings scope'.meanings ps ps' s s')
    (hqs : FilledRow σ scope.meanings scope'.meanings qs qs' s s') {span span' : Span} :
    Imitates cx.fuel s s' (cx.expectRow scope ps qs span) (cx'.expectRow scope' ps' qs' span')
      fun _ _ _ _ => True := by
  unfold Context.expectRow
  refine (Imitates.forM hqs fun q q' t t' hs hs' hq => ?_).bind fun _ _ t t' _ _ _ => ?_
  · rw [hq.1]
    refine ((expectProperty_filled (hps.mono hs hs') q.1).imitates _).bind fun u u' v v' hv hv' hu => ?_
    exact expectFit_imitates hσ .variant hu ((hq.2.mono hs hs').mono hv hv') (.refl .exact)
  · -- the same declared properties are missing in both
    have hmissing : (fun n => (qs'.lookup n).isNone) = fun n => (qs.lookup n).isNone := by
      funext n
      have hlookup := rel_lookup (fun t t' => Filled σ scope.meanings scope'.meanings t t' s s') hqs n
      generalize qs.lookup n = o, qs'.lookup n = o' at hlookup ⊢
      cases hlookup <;> rfl
    have hnames : ∀ (ps : Row) (p : Name → Bool), (ps.find? fun q => p q.1).map Prod.fst = (ps.map Prod.fst).find? p :=
      fun ps p => List.find?_map.symm
    have hfind := hnames ps' fun n => (qs'.lookup n).isNone
    rw [hps.names_eq, hmissing, ← hnames ps] at hfind
    split
    · exact .violation _ _ _
    · rename_i hnone
      rw [hnone, Option.map_none, Option.map_eq_none_iff] at hfind
      rw [hfind]
      exact .pure trivial

theorem expectVariants_imitates {vs vs' ws ws' : Variants}
    (hvs : Filled σ scope.meanings scope'.meanings (.union vs) (.union vs') s s')
    (hws : Filled σ scope.meanings scope'.meanings (.union ws) (.union ws') s s') {span span' : Span} :
    Imitates cx.fuel s s' (cx.expectVariants scope vs ws span) (cx'.expectVariants scope' vs' ws' span')
      fun _ _ _ _ => True := by
  obtain ⟨_, ⟨⟩, hrows⟩ := hws.union
  refine Imitates.forM hrows fun w w' t t' hs hs' hw => ?_
  rw [hw.1]
  refine ((expectVariant_filled (hvs.mono hs hs') w.1).imitates _).bind fun row row' v v' hv hv' hrow => ?_
  obtain ⟨_, ⟨⟩, hps⟩ := hrow.object
  obtain ⟨_, hqs, hqs'⟩ := ((hw.2.mono hs hs').mono hv hv').object
  obtain rfl := Ty.object.inj hqs
  exact expectRow_imitates hσ hps hqs'

end Agreement

end MuTypes
