import MuTypes.Proofs.BoundNames
import MuTypes.Proofs.Calls
import MuTypes.Proofs.Divergence
import MuTypes.Proofs.OrderLaws

/-!
# The types of clauses

The type of a clause is compared with what the clauses before it have in common, and never with theirs directly.  This
common type is the first of their types that is not `undefined`, and once there is such a one it stays
(`Shares.step`).  So at the end the types of all bodies have been compared with the type of the dispatch
(`ClausesPass.shares`), and agree with it when the comparisons were right.

With each other they need not agree, since `undefined` may occur inside the common type and agrees with everything
there (`clauses_disagree`).  They do when it does not occur there (`Expr.dispatch_types_agree`).
-/

namespace MuTypes

open NameSupply

namespace Ty

variable {fuel : Nat} {names : List Name} {t u : Ty} {s s' : NameSupply}

/-! ### Answers that can be relied on -/

/-- Some comparison that has the fuel says that the second type fits exactly where the first one is required. -/
def Fitted (fuel : Nat) (names : List Name) (t u : Ty) : Prop :=
  ∃ s : NameSupply, s.AheadOfTy t ∧ s.AheadOfTy u ∧ ((fits fuel names .exact t u).run.run s).1 = .ok true

/-- Some comparison that has the fuel says so without being justified. -/
def FittedWrongly (fuel : Nat) (names : List Name) (t u : Ty) : Prop :=
  ∃ s : NameSupply, s.AheadOfTy t ∧ s.AheadOfTy u ∧ ((fits fuel names .exact t u).run.run s).1 = .ok true ∧
    ¬ Justified fuel names .exact t u s true

/-- No comparison refuses the second type where the first one is required exactly.  When on one side no generic type
stands inside a recursive one, each comparison accepts it. -/
structure Compatible (names : List Name) (t u : Ty) : Prop where
  not_refused : ∀ (fuel : Nat) (s : NameSupply), s.AheadOfTy t → s.AheadOfTy u →
    ((fits fuel names .exact t u).run.run s).1 ≠ .ok false
  accepted : t.Stratified ∨ u.Stratified → AlwaysAccepts names .exact t u

/-- Types are compatible when their nameless forms agree. -/
theorem InOrder.compatible (ht : t.InOrder names s) (hu : u.InOrder names s')
    (h : (scopedComparison names .exact t u).Agrees) : Compatible names t u := by
  rw [← located_scoped] at h
  have hready : ∀ r : NameSupply, r.AheadOfTy t → r.AheadOfTy u →
      Comparison.Ready ⟨.ofScope names, .exact, t, u⟩ r := fun r hrt hru =>
    InOrder.ready { ht with ahead := hrt } { hu with ahead := hru } .exact
  refine ⟨fun fuel r hrt hru => fits_ne_false (hready r hrt hru) h fuel, fun hstratified r hrt hru => ?_⟩
  let start : Position := ⟨[], ⟨.ofScope names, .exact, t, u⟩, false, r⟩
  have hstart : start.comparison.Ready start.supply := hready r hrt hru
  have hsettles : start.Settles := hstratified.elim (Stratified.settles hstart false) (Stratified.settles hstart true)
  exact accepts_of_settles hstart hsettles h

/-- A comparison that says yes is right, unless the type is accepted wrongly. -/
theorem InOrder.agrees_of_fitted (ht : t.InOrder names s) (hu : u.InOrder names s') (h : Fitted fuel names t u)
    (hwrong : ¬ FittedWrongly fuel names t u) : (scopedComparison names .exact t u).Agrees := by
  obtain ⟨r, hrt, hru, hyes⟩ := h
  have hready : Comparison.Ready ⟨.ofScope names, .exact, t, u⟩ r :=
    InOrder.ready { ht with ahead := hrt } { hu with ahead := hru } .exact
  have hjustified : Justified fuel names .exact t u r true := by
    by_contra hnot
    exact hwrong ⟨r, hrt, hru, hyes, hnot⟩
  rw [← located_scoped]
  exact ((justified_iff hready hyes).1 hjustified).1 rfl

/-- Types without generic types in them are not accepted wrongly. -/
theorem Regular.not_fittedWrongly (ht : t.Regular names) (hu : u.Regular names) : ¬ FittedWrongly fuel names t u := by
  rintro ⟨s, hst, hsu, hyes, hnot⟩
  have hready := (ht.inOrder hst).ready (hu.inOrder hsu) .exact
  have hmono : Comparison.MonomorphicIn names ⟨.ofScope names, .exact, t, u⟩ :=
    ⟨rfl, ht.monomorphic.bare, hu.monomorphic.bare⟩
  exact hnot ((justified_iff hready hyes).2 (iff_of_true rfl (hmono.agree_of_fits hready hyes)))

end Ty

/-! ### What clauses have in common -/

/-- The type is what the given types have in common: one of them, which is `undefined` only if all are, and where it is
required the others have been accepted. -/
structure CommonOf (fuel : Nat) (names : List Name) (B : Ty → Prop) (u : Ty) : Prop where
  mem : B u
  eq_undefined : u = .undefined → ∀ b, B b → b = .undefined
  fitted : ∀ b, B b → b = .undefined ∨ b = u ∨ Ty.Fitted fuel names u b

/-- What the types have in common, if there are any. -/
def Shares (fuel : Nat) (names : List Name) (B : Ty → Prop) : Option Ty → Prop
  | none => ∀ b, ¬ B b
  | some u => CommonOf fuel names B u

section Common

variable {fuel : Nat} {names : List Name} {B B' : Ty → Prop} {sofar common : Option Ty} {t u : Ty}

theorem Shares.congr (h : Shares fuel names B sofar) (hB : ∀ b, B b ↔ B' b) : Shares fuel names B' sofar := by
  obtain rfl : B = B' := funext fun b => propext (hB b)
  exact h

/-- What types have in common agrees with each of them, unless this was accepted wrongly. -/
theorem CommonOf.agrees {s s' : NameSupply} (h : CommonOf fuel names B u) (hu : u.InOrder names s)
    (ht : t.InOrder names s') (hB : B t) (hwrong : ¬ Ty.FittedWrongly fuel names u t) :
    (Ty.scopedComparison names .exact u t).Agrees := by
  rcases h.fitted t hB with rfl | rfl | hfitted
  · exact fun k => .trivial (.inr rfl)
  · have hsound := hu.sound_scoped ht .exact
    exact Nameless.Comparison.agrees_of_alike hsound (Nameless.alike_refl hsound.expected.unroll.wellFormed)
  · exact hu.agrees_of_fitted ht hfitted hwrong

variable {cx : Context} {scope : Scope} {env : Env} {span : Span} {x : Name} {vs : Variants} {seen : List Name}
  {clauses : List (Name × Expr)} {s s' : NameSupply}

theorem expectFit_eq_ok {site : Site} {fit : Fit} {e a : Ty} {r : Unit}
    (h : (cx.expectFit scope site fit e a span).run.run s = (.ok r, s')) :
    ((Ty.fits cx.fuel scope.meanings fit e a).run.run s).1 = .ok true := by
  obtain ⟨b, s₁, hb, h⟩ := run_bind_eq_ok h
  cases b with
  | false => cases h
  | true => exact congrArg Prod.fst (compare_eq_ok_iff.1 hb)

/-- What the types have in common with one more. -/
theorem Shares.step (h : Shares cx.fuel scope.meanings B sofar) (hsofar : ∀ v, sofar = some v → s.AheadOfTy v)
    (ht : s.AheadOfTy t) (hrun : (cx.commonClause scope sofar t span).run.run s = (.ok u, s')) :
    CommonOf cx.fuel scope.meanings (fun b => B b ∨ b = t) u := by
  cases sofar with
  | none =>
    cases hrun
    refine ⟨.inr rfl, fun hu b hb => ?_, fun b hb => ?_⟩
    · exact (hb.resolve_left (h b)).trans hu
    · exact .inr (.inl (hb.resolve_left (h b)))
  | some v =>
    obtain ⟨_, s₁, hfits, hu⟩ := run_bind_eq_ok hrun
    cases hu
    have hfitted : Ty.Fitted cx.fuel scope.meanings v t := ⟨s, hsofar v rfl, ht, expectFit_eq_ok hfits⟩
    by_cases hv : v = .undefined
    · have hall : ∀ b, B b → b = .undefined := h.eq_undefined hv
      rw [Ty.orElse, if_pos hv]
      refine ⟨.inr rfl, fun hu b hb => ?_, fun b hb => ?_⟩
      · exact hb.elim (hall b) fun hb => hb.trans hu
      · exact hb.elim (fun hb => .inl (hall b hb)) fun hb => .inr (.inl hb)
    · rw [Ty.orElse, if_neg hv]
      refine ⟨.inl h.mem, fun hu => absurd hu hv, fun b hb => ?_⟩
      rcases hb with hb | rfl
      · exact h.fitted b hb
      · exact .inr (.inr hfitted)

/-- All types that checking the clauses can meet are in order. -/
structure ClausesReady (cx : Context) (scope : Scope) (env : Env) (vs : Variants) (sofar : Option Ty) (s : NameSupply)
    (clauses : List (Name × Expr)) : Prop where
  proper : Proper cx scope env s
  variants : (Ty.union vs).InOrder scope.meanings s
  sofar : ∀ t, sofar = some t → t.InOrder scope.meanings s
  clauses : ∀ c ∈ clauses, c.2.Binds s.AheadOf

theorem ClausesReady.mono (h : ClausesReady cx scope env vs sofar s clauses) (hs : s ≤ s') :
    ClausesReady cx scope env vs sofar s' clauses :=
  ⟨h.proper.mono hs, h.variants.mono hs, fun t e => (h.sofar t e).mono hs,
    fun c hc => (h.clauses c hc).mono fun _ hn => hn.mono hs⟩

/-- One more body, which sees the variable with some type. -/
theorem ClausesReady.step {s₁ s₂ : NameSupply} {body : Expr} {bound : Ty}
    (h : ClausesReady cx scope env vs sofar s clauses) (hB : Shares cx.fuel scope.meanings B sofar)
    (hbinds : body.Binds s.AheadOf) (hbound : bound.InOrder scope.meanings s)
    (hbody : (body.typeIn cx scope (env.bind x bound)).run.run s = (.ok t, s₁))
    (hagree : (cx.commonClause scope sofar t span).run.run s₁ = (.ok u, s₂)) :
    s ≤ s₂ ∧ ClausesReady cx scope env vs (some u) s₂ clauses ∧
      CommonOf cx.fuel scope.meanings (fun b => B b ∨ b = t) u := by
  obtain ⟨h₁, ht⟩ := (Expr.typeIn_right cx body scope _ s (h.proper.bind hbound x) hbinds).of_ok hbody
  have hready := h.mono h₁
  obtain ⟨h₂, hu⟩ := (commonClause_checks cx hready.sofar ht span).of_ok hagree
  refine ⟨le_trans h₁ h₂, { hready.mono h₂ with sofar := fun _ e => Option.some.inj e ▸ hu }, ?_⟩
  exact hB.step (fun v hv => (hready.sofar v hv).ahead) ht.ahead hagree

/-- When the first clause passes, the calls for the clauses are that for the first one and those for the others. -/
theorem clauseCall_cons_iff {s₁ s₂ : NameSupply} {label : Name} {body : Expr} {row : Row} {q : Call}
    (hnew : label ∉ seen) (hknown : vs.lookup label = some row)
    (hbody : (body.typeIn cx scope (env.bind x (.object row))).run.run s = (.ok t, s₁))
    (hagree : (cx.commonClause scope sofar t span).run.run s₁ = (.ok u, s₂)) :
    ClauseCall cx scope env span x vs seen sofar s ((label, body) :: clauses) q ↔
      q = ⟨scope, env.bind x (.object row), body, s⟩ ∨
      ClauseCall cx scope env span x vs (label :: seen) (some u) s₂ clauses q := by
  constructor
  · intro h
    cases h with
    | head _ hknown' =>
      obtain rfl := Option.some.inj (hknown.symm.trans hknown')
      exact .inl rfl
    | tail _ hknown' hbody' hagree' hrest =>
      obtain rfl := Option.some.inj (hknown.symm.trans hknown')
      cases hbody.symm.trans hbody'
      cases hagree.symm.trans hagree'
      exact .inr hrest
  · rintro (rfl | h)
    · exact .head hnew hknown
    · exact .tail hnew hknown hbody hagree h

/-- When all clauses pass, they end with what the types of their bodies have in common with those before. -/
theorem ClausesPass.shares (h : ClausesPass cx scope env span x vs seen sofar s clauses common s')
    (hready : ClausesReady cx scope env vs sofar s clauses) (hB : Shares cx.fuel scope.meanings B sofar) :
    s ≤ s' ∧ ClausesReady cx scope env vs common s' [] ∧
      Shares cx.fuel scope.meanings (fun b => B b ∨ ∃ q, ClauseCall cx scope env span x vs seen sofar s clauses q ∧
        (q.outcome (Expr.typeIn cx)).1 = .ok b) common := by
  induction h generalizing B with
  | nil =>
    exact ⟨le_refl _, hready, hB.congr fun b => ⟨.inl, fun hb => hb.resolve_right fun ⟨q, hq, _⟩ => nomatch hq⟩⟩
  | @cons seen sofar common s s₁ s₂ s₃ label body row t u rest hnew hknown hbody hagree hrest ih =>
    obtain ⟨hbinds, hlater⟩ := List.forall_mem_cons.1 hready.clauses
    have hrow := (Ty.inOrder_union.1 hready.variants).2 _ (mem_of_lookup hknown)
    have hrest : ClausesReady cx scope env vs sofar s rest := { hready with clauses := hlater }
    obtain ⟨hs, hready', hstep⟩ := hrest.step hB hbinds hrow hbody hagree
    obtain ⟨hs', hend, hall⟩ := ih hready' hstep
    refine ⟨le_trans hs hs', hend, hall.congr fun b => ?_⟩
    have hfirst : (Call.outcome (Expr.typeIn cx) ⟨scope, env.bind x (.object row), body, s⟩).1 = .ok t :=
      congrArg Prod.fst hbody
    simp only [clauseCall_cons_iff hnew hknown hbody hagree, or_and_right, exists_or, exists_eq_left, hfirst,
      Except.ok.injEq, eq_comm (a := t), or_assoc]

/-- Each clause of those that pass has a call for its body, which has a type. -/
theorem ClausesPass.exists_call (h : ClausesPass cx scope env span x vs seen sofar s clauses common s')
    {c : Name × Expr} (hc : c ∈ clauses) : ∃ q b, ClauseCall cx scope env span x vs seen sofar s clauses q ∧
      q.expr = c.2 ∧ (q.outcome (Expr.typeIn cx)).1 = .ok b := by
  induction h with
  | nil => cases hc
  | cons hnew hknown hbody hagree _ ih =>
    rcases List.mem_cons.1 hc with rfl | hc
    · exact ⟨_, _, .head hnew hknown, rfl, congrArg Prod.fst hbody⟩
    · obtain ⟨q, b, hq, hexpr, hb⟩ := ih hc
      exact ⟨q, b, .tail hnew hknown hbody hagree hq, hexpr, hb⟩

/-! ### Dispatches -/

/-- Checking the call leads to a body of the type. -/
def BodyType (cx : Context) (p : Call) (b : Ty) : Prop :=
  ∃ q, Calls cx p q ∧ (q.outcome (Expr.typeIn cx)).1 = .ok b

variable {p : Call} {fallback : Option Expr}

/-- When a dispatch has a type, its clauses and its fallback are all checked, and their bodies have types. -/
theorem Call.dispatch_bodies (hform : p.expr = .mk span (.dispatch x clauses fallback))
    (ht : (p.outcome (Expr.typeIn cx)).1 = .ok t) {body : Expr}
    (hbody : body ∈ clauses.map Prod.snd ++ fallback.toList) :
    ∃ q b, Calls cx p q ∧ q.expr = body ∧ (q.outcome (Expr.typeIn cx)).1 = .ok b := by
  obtain ⟨scope, env, _, s⟩ := p
  obtain rfl : _ = Expr.mk span (.dispatch x clauses fallback) := hform
  obtain ⟨bound, vs, s₁, sofar, s₂, hx, hvs, hpass, hend⟩ := Call.dispatch_eq_ok (Prod.ext ht rfl)
  rcases List.mem_append.1 hbody with hclause | hlast
  · obtain ⟨c, hc, rfl⟩ := List.mem_map.1 hclause
    obtain ⟨q, b, hq, hexpr, hb⟩ := hpass.exists_call hc
    exact ⟨q, b, (Calls.dispatch_iff hx hvs).2 (.inl hq), hexpr, hb⟩
  · obtain rfl := Option.mem_toList.1 hlast
    rcases hend with ⟨hnone, -⟩ | ⟨_, b, s₃, ⟨⟩, hb, -⟩
    · cases hnone
    · exact ⟨_, b, (Calls.dispatch_iff hx hvs).2 (.inr ⟨body, sofar, s₂, rfl, hpass, rfl⟩), rfl, congrArg Prod.fst hb⟩

/-- The type of a dispatch is what the types of its bodies have in common, or `undefined` when it has none. -/
theorem Call.dispatch_shares (hp : p.Proper cx) (hform : p.expr = .mk span (.dispatch x clauses fallback))
    (ht : (p.outcome (Expr.typeIn cx)).1 = .ok t) :
    ∃ common, Shares cx.fuel p.scope.meanings (BodyType cx p) common ∧ t = common.getD .undefined := by
  obtain ⟨scope, env, _, s⟩ := p
  obtain rfl : _ = Expr.mk span (.dispatch x clauses fallback) := hform
  obtain ⟨bound, vs, s₁, sofar, s₂, hx, hvs, hpass, hend⟩ := Call.dispatch_eq_ok (Prod.ext ht rfl)
  obtain ⟨hproper, ⟨-, hparts⟩⟩ := hp
  obtain ⟨h₁, hunion⟩ := (expectUnion_checks (hproper.env.find? hx) span).of_ok hvs
  have hready : ClausesReady cx scope env vs none s₁ clauses :=
    ⟨hproper.mono h₁, hunion, nofun, fun c hc =>
      (hparts c.2 (List.mem_append_left _ (List.mem_map_of_mem hc))).mono fun _ hn => hn.mono h₁⟩
  obtain ⟨h₂, hready', hshares⟩ := hpass.shares hready (B := fun _ => False) fun _ => id
  simp only [false_or] at hshares
  rcases hend with ⟨rfl, hdefault⟩ | ⟨body, b, s₃, rfl, hb, hagree⟩
  · refine ⟨sofar, hshares.congr fun b => ?_, hdefault⟩
    simp only [BodyType, Calls.dispatch_iff hx hvs, reduceCtorEq, false_and, exists_false, or_false]
  · have hbinds := (hparts body (by simp [Term.parts])).mono fun _ hn => hn.mono (le_trans h₁ h₂)
    obtain ⟨-, -, hcommon⟩ := hready'.step hshares hbinds (hready'.variants.union_filter _) hb hagree
    refine ⟨some t, Shares.congr hcommon fun b' => ?_, rfl⟩
    simp only [BodyType, Calls.dispatch_iff hx hvs, or_and_right, exists_or]
    refine or_congr_right ⟨?_, ?_⟩
    · rintro rfl
      exact ⟨_, ⟨body, sofar, s₂, rfl, hpass, rfl⟩, congrArg Prod.fst hb⟩
    · rintro ⟨_, ⟨_, _, _, ⟨⟩, hpass', rfl⟩, hb'⟩
      cases (clausesType_eq_ok_iff.2 hpass).symm.trans (clausesType_eq_ok_iff.2 hpass')
      exact (Except.ok.inj ((congrArg Prod.fst hb).symm.trans hb')).symm

/-- The types of the bodies of a dispatch are in order for its scope. -/
private theorem BodyType.exists_inOrder (hp : p.Proper cx) (hform : p.expr = .mk span (.dispatch x clauses fallback))
    (ht : (p.outcome (Expr.typeIn cx)).1 = .ok t) {b : Ty} (h : BodyType cx p b) :
    ∃ s, b.InOrder p.scope.meanings s := by
  obtain ⟨q, hq, hb⟩ := h
  have hin := (hp.calls hq).checks.2.1 b hb
  suffices hscope : q.scope = p.scope from ⟨_, hscope ▸ hin⟩
  obtain ⟨scope, env, _, s⟩ := p
  obtain rfl : _ = Expr.mk span (.dispatch x clauses fallback) := hform
  obtain ⟨bound, vs, s₁, sofar, s₂, hx, hvs, -⟩ := Call.dispatch_eq_ok (Prod.ext ht rfl)
  rcases (Calls.dispatch_iff hx hvs).1 hq with hclause | ⟨body, _, _, -, -, rfl⟩
  · exact hclause.exists_clause.1
  · rfl

/-! ### Results -/

/-- What types have in common is compatible with each of them, in either order, and when `undefined` does not occur in
it then so are any two of them, unless some type was accepted wrongly. -/
theorem CommonOf.compatible (h : CommonOf fuel names B u) (hB : ∀ b, B b → ∃ s, b.InOrder names s) :
    (∀ b, B b → Ty.FittedWrongly fuel names u b ∨ Ty.Compatible names u b ∧ Ty.Compatible names b u) ∧
    (u = .undefined ∨ u.bare.Lacks .undefined → ∀ b c, B b → B c → Ty.FittedWrongly fuel names u b ∨
      Ty.FittedWrongly fuel names u c ∨ Ty.Compatible names b c) := by
  obtain ⟨s, hu⟩ := hB u h.mem
  refine ⟨fun b hb => or_iff_not_imp_left.2 fun hwrong => ?_, fun hundefined b c hb hc => ?_⟩
  · obtain ⟨s', hbo⟩ := hB b hb
    have hagrees := h.agrees hu hbo hb hwrong
    exact ⟨hu.compatible hbo hagrees, hbo.compatible hu (hagrees.symm (hu.sound_scoped hbo .exact))⟩
  · obtain ⟨s₁, hbo⟩ := hB b hb
    obtain ⟨s₂, hco⟩ := hB c hc
    refine or_iff_not_imp_left.2 fun hwrong => or_iff_not_imp_left.2 fun hwrong' => hbo.compatible hco ?_
    rcases hundefined with hundefined | hlacks
    · obtain rfl := h.eq_undefined hundefined b hb
      exact fun k => .trivial (.inl rfl)
    · exact (h.agrees hu hbo hb hwrong).of_shared (h.agrees hu hco hc hwrong') (hu.sound_scoped hbo .exact)
        (hu.sound_scoped hco .exact) (Ty.lacks_located hlacks _)

end Common

/-- When a dispatch has a type, all its bodies have types, and its own type is one of these, or `undefined` when these
all are.  It is compatible with each of them, in either order, and when `undefined` does not occur in it then any two of
them are compatible, unless some of them was accepted wrongly. -/
theorem Expr.dispatch_types_agree {cx : Context} {env : Env} {e : Expr} {p : Call} {span : Span} {x : Name}
    {clauses : List (Name × Expr)} {fallback : Option Expr} {t : Ty} (haliases : cx.aliases.Unnumbered)
    (henv : env.Unnumbered) (he : e.Unnumbered) (hp : Relation.ReflTransGen (Calls cx) ⟨[], env, e, {}⟩ p)
    (hform : p.expr = .mk span (.dispatch x clauses fallback)) (ht : (p.outcome (typeIn cx)).1 = .ok t) :
    (∀ body ∈ clauses.map Prod.snd ++ fallback.toList, ∃ q b, Calls cx p q ∧ q.expr = body ∧
      (q.outcome (typeIn cx)).1 = .ok b) ∧
    (t = .undefined ∨ BodyType cx p t) ∧ (t = .undefined → ∀ b, BodyType cx p b → b = .undefined) ∧
    (∀ b, BodyType cx p b → Ty.FittedWrongly cx.fuel p.scope.meanings t b ∨
      Ty.Compatible p.scope.meanings t b ∧ Ty.Compatible p.scope.meanings b t) ∧
    (t = .undefined ∨ t.bare.Lacks .undefined → ∀ b c, BodyType cx p b → BodyType cx p c →
      Ty.FittedWrongly cx.fuel p.scope.meanings t b ∨ Ty.FittedWrongly cx.fuel p.scope.meanings t c ∨
      Ty.Compatible p.scope.meanings b c) := by
  have hproper := (Call.proper_of_unnumbered haliases henv he {}).calls_all hp
  refine ⟨fun body hbody => Call.dispatch_bodies hform ht hbody, ?_⟩
  obtain ⟨common, hshares, hcommon⟩ := Call.dispatch_shares hproper hform ht
  cases common with
  | none =>
    have hnone : ∀ b, ¬ BodyType cx p b := hshares
    exact ⟨.inl hcommon, fun _ b hb => absurd hb (hnone b), fun b hb => absurd hb (hnone b),
      fun _ b _ hb => absurd hb (hnone b)⟩
  | some u =>
    obtain rfl : t = u := hcommon
    have hall : CommonOf cx.fuel p.scope.meanings (BodyType cx p) t := hshares
    exact ⟨.inr hall.mem, hall.eq_undefined, hall.compatible fun b hb => hb.exists_inOrder hproper hform ht⟩

private def letters : Variants :=
  [("a", []), ("b", []), ("c", [])]

/-- A dispatch on `x: a | b | c` -/
private def lettersCall (env : Env) (span : Span) (clauses : List (Name × Expr)) (fallback : Option Expr) : Call :=
  ⟨[], env.bind "x" (.union letters), .mk span (.dispatch "x" clauses fallback), {}⟩

private theorem letters_union (span : Span) : ((Ty.union letters).expectUnion span).run.run {} = (.ok letters, {}) :=
  expectUnion_eq_ok_iff.2 rfl

private theorem bodyType_clause {env : Env} {span : Span} {clauses : List (Name × Expr)} {fallback : Option Expr}
    {q : Call} {t : Ty} (h : ClauseCall {} [] (env.bind "x" (.union letters)) span "x" letters [] none {} clauses q)
    (ht : (q.outcome (Expr.typeIn {})).1 = .ok t) : BodyType {} (lettersCall env span clauses fallback) t :=
  ⟨q, (Calls.dispatch_iff (Env.find?_bind_self ..) (letters_union span)).2 (.inl h), ht⟩

/-- `{ p: v }` -/
private def cell (n : Nat) (v : Literal) : Expr :=
  .mk ⟨n + 1, n + 2⟩ (.object [("p", .mk ⟨n, n + 1⟩ (.lit v))])

private def cellType (p : Prim) : Ty :=
  .object [("p", .prim p)]

/-- `case a: { p: undefined }, case b: { p: 1 }, case c: { p: "s" }` -/
private def cellsCall : Call :=
  lettersCall .empty ⟨6, 7⟩ [("a", cell 0 .undefined), ("b", cell 2 .number), ("c", cell 4 (.string "s"))] none

/-- A dispatch has a type, with `undefined` in it, and the types of two of its bodies do not fit each other. -/
theorem clauses_disagree :
    cellsCall.env.Unnumbered ∧ cellsCall.expr.Unnumbered ∧
    (cellsCall.outcome (Expr.typeIn {})).1 = .ok (cellType .undefined) ∧
    BodyType {} cellsCall (cellType .number) ∧ BodyType {} cellsCall (cellType .string) ∧
    ((Ty.fits 1000000 [] .exact (cellType .number) (cellType .string)).run.run {}).1 = .ok false ∧
    ((Ty.fits 1000000 [] .exact (cellType .string) (cellType .number)).run.run {}).1 = .ok false := by
  refine ⟨unnumbered_of_freeNames (by decide), ?_, by cbv, ?_, ?_, by cbv, by cbv⟩
  · have hcell : ∀ n v, (cell n v).Unnumbered := fun n v => by
      refine .mk (by simp [Term.ownBinders]) (List.forall_mem_singleton.2 (.mk (by simp [Term.ownBinders]) ?_))
      exact List.forall_mem_nil _
    refine .mk (by simp [Term.ownBinders]) (List.forall_mem_cons.2 ⟨hcell .., List.forall_mem_cons.2 ⟨hcell .., ?_⟩⟩)
    exact List.forall_mem_singleton.2 (hcell ..)
  · exact bodyType_clause (.tail (by decide) rfl (by cbv) rfl (.head (by decide) rfl)) (by cbv)
  · exact bodyType_clause (.tail (by decide) rfl (by cbv) rfl
      (.tail (by decide) rfl (by cbv) (by cbv) (.head (by decide) rfl))) (by cbv)

/-- `case a: f, case b: g, default: h` -/
private def functionsCall : Call :=
  lettersCall (((Env.empty.bind "f" Ty.feedback).bind "g" Ty.lateResult).bind "h" Ty.lateParameter) ⟨3, 4⟩
    [("a", .mk ⟨0, 1⟩ (.var "f")), ("b", .mk ⟨1, 2⟩ (.var "g"))] (some (.mk ⟨2, 3⟩ (.var "h")))

/-- The types of these functions come back after different numbers of steps.  Those of `g` and `h` are only compared
with that of `f`, and fit each other. -/
theorem dispatch_types_agree_functions :
    (functionsCall.outcome (Expr.typeIn {})).1 = .ok Ty.feedback ∧
    Ty.AlwaysAccepts [] .exact Ty.feedback Ty.lateResult ∧
    Ty.AlwaysAccepts [] .exact Ty.lateResult Ty.lateParameter ∧
    Ty.AlwaysAccepts [] .exact Ty.lateParameter Ty.lateResult := by
  have haliases : (Context.aliases {}).Unnumbered := List.forall_mem_nil _
  have henv : functionsCall.env.Unnumbered := unnumbered_of_freeNames (by decide)
  have hexpr : functionsCall.expr.Unnumbered := by
    have hvar : ∀ span x, (Expr.mk span (.var x)).Unnumbered := fun _ _ =>
      .mk (by simp [Term.ownBinders]) (List.forall_mem_nil _)
    refine .mk (by simp [Term.ownBinders]) (List.forall_mem_cons.2 ⟨hvar _ _, List.forall_mem_cons.2 ⟨hvar _ _, ?_⟩⟩)
    exact List.forall_mem_singleton.2 (hvar _ _)
  have hok : (functionsCall.outcome (Expr.typeIn {})).1 = .ok Ty.feedback := by cbv
  have hresult : BodyType {} functionsCall Ty.lateResult :=
    bodyType_clause (.tail (by decide) rfl (by cbv) rfl (.head (by decide) rfl)) (by cbv)
  have hpass : ClausesPass {} [] functionsCall.env ⟨3, 4⟩ "x" letters [] none {}
      [("a", .mk ⟨0, 1⟩ (.var "f")), ("b", .mk ⟨1, 2⟩ (.var "g"))] (some Ty.feedback) {} :=
    .cons (by decide) rfl (by cbv) rfl (.cons (by decide) rfl (by cbv) (by cbv) .nil)
  have hparameter : BodyType {} functionsCall Ty.lateParameter :=
    ⟨_, (Calls.dispatch_iff rfl (letters_union _)).2 (.inr ⟨_, _, _, rfl, hpass, rfl⟩), by cbv⟩
  obtain ⟨-, -, -, hall, hpairs⟩ := Expr.dispatch_types_agree haliases henv hexpr .refl rfl hok
  have hright : ∀ {t : Ty}, t.Regular [] → ¬ Ty.FittedWrongly 1000000 [] Ty.feedback t := fun ht =>
    Ty.regular_feedback.not_fittedWrongly ht
  have hlacks : Ty.feedback.bare.Lacks .undefined :=
    .mu (.func (List.forall_mem_singleton.2 (.bound 0)) (.bound 0))
  have hpair : ∀ {t u : Ty}, t.Regular [] → u.Regular [] → BodyType {} functionsCall t → BodyType {} functionsCall u →
      Ty.AlwaysAccepts [] .exact t u := fun ht hu hbt hbu =>
    (((hpairs (.inr hlacks) _ _ hbt hbu).resolve_left (hright ht)).resolve_left (hright hu)).accepted
      (.inl ht.monomorphic.stratified)
  refine ⟨hok, ?_, hpair Ty.regular_lateResult Ty.regular_lateParameter hresult hparameter,
    hpair Ty.regular_lateParameter Ty.regular_lateResult hparameter hresult⟩
  exact ((hall _ hresult).resolve_left (hright Ty.regular_lateResult)).1.accepted
    (.inl Ty.regular_feedback.monomorphic.stratified)

end MuTypes
