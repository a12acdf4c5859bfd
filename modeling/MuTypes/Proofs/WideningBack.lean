import MuTypes.Proofs.Narrowing
import MuTypes.Proofs.Reruns
import MuTypes.Proofs.Twins
import MuTypes.Proofs.Widening

/-!
# What was narrowed can be widened back

A variable has the type that an annotation means, which unrolls to a union, and tests of its tag narrow it.  However it
is narrowed, its type is a union of some of the variants of that union, up to bound names (`Ty.LeftOf`,
`NarrowingStep.leftOf`).  The annotation means the same type when it is resolved again, up to the numbers of drawn
names, so it unrolls to a union with these variants among its own ones, and each property is compared with itself under
other bound names (`takes_of_leftOf`).  Such comparisons say yes with enough fuel, so the variable can be widened to the
annotation again (`Expr.narrowed_widens_back`).
-/

namespace MuTypes

open Nameless NameSupply

/-! ### Enough fuel for widening -/

namespace NameSupply

theorem Returns.forM {ε τ : Type} {s : NameSupply} {f : τ → ExceptT ε SupplyM Unit} {l : List τ}
    (h : ∀ a ∈ l, ∀ t, s ≤ t → t.Returns (f a) fun _ _ => True) : s.Returns (l.forM f) fun _ _ => True := by
  induction l generalizing s with
  | nil => exact .pure trivial
  | cons a l ih =>
    refine (h a List.mem_cons_self s (le_refl s)).bind fun _ t hst _ => ?_
    exact ih fun b hb u hu => h b (List.mem_cons_of_mem a hb) u (le_trans hst hu)

end NameSupply

section Fuel

variable {cx : Context} {scope : Scope} {s : NameSupply} {span : Span}

private theorem expectFit_returns {site : Site} {e a : Ty}
    (h : ((Ty.fits cx.fuel scope.meanings .exact e a).run.run s).1 = .ok true) :
    s.Returns (cx.expectFit scope site .exact e a span) fun _ _ => True := by
  have hfits : s.Returns (cx.fits scope .exact e a) fun b _ => b = true :=
    ⟨Ty.le_fits .., true, congrArg (Except.mapError Failure.halt) h, rfl⟩
  refine hfits.bind fun b t _ hb => ?_
  subst hb
  exact .pure trivial

/-- When the target takes all variants of the source, then widening is accepted with enough fuel. -/
theorem exists_fuel_expectVariants {target source : Variants} (h : ∀ v ∈ source, Takes scope.meanings target v) :
    ∃ fuel, ∀ (cx : Context) (s : NameSupply) (span : Span), fuel ≤ cx.fuel →
      Ty.Ahead s scope.meanings (.union target) (.union source) →
      s.Returns (cx.expectVariants scope target source span) fun _ _ => True := by
  obtain ⟨fuel, hfuel⟩ := Ty.exists_fuel_variants (C := fun given row => ∀ q ∈ row, q.1 ∈ given.map Prod.fst)
    (P := fun p t n => ∀ s, Ty.Ahead s scope.meanings t p → ((Ty.fits n scope.meanings .exact t p).run.run s).1 = .ok true)
    fun v hv => by
      obtain ⟨row, hrow, hgiven, hdeclared⟩ := h v hv
      exact ⟨row, hrow, hdeclared, hgiven⟩
  refine ⟨fuel, fun cx s span hcx hs => Returns.forM fun v hv t hst => ?_⟩
  obtain ⟨row, hrow, hdeclared, hgiven⟩ := hfuel cx.fuel hcx v hv
  rw [expectVariant_of_lookup hrow, pure_bind]
  refine (Returns.forM fun p hp u htu => ?_).bind fun _ u _ _ => ?_
  · obtain ⟨ty, hty, hfits⟩ := hgiven p hp
    have hproperty : expectProperty row p.1 span = pure ty := by rw [expectProperty, hty]
    rw [hproperty, pure_bind]
    refine expectFit_returns (hfits u ?_)
    exact (hs.property (mem_of_lookup hrow) hv (mem_of_lookup hty) hp).mono (le_trans hst htu)
  · have hnone : row.find? (fun q => (v.2.lookup q.1).isNone) = none := List.find?_eq_none.2 fun q hq hmissing =>
      lookup_eq_none_iff.1 (Option.isNone_iff_eq_none.1 hmissing) (hdeclared q hq)
    rw [hnone]
    exact .pure trivial

end Fuel

/-! ### What is left of a union -/

/-- The variants of a union without the names that bind variables. -/
def bareVariants (vs : Variants) : List (Name × List (Name × Nameless Name)) :=
  vs.map fun v => (v.1, v.2.map fun p => (p.1, p.2.bare))

/-- The type unrolls to a union of some of the variants, up to bound names. -/
def Ty.LeftOf (ws : List (Name × List (Name × Nameless Name))) (t : Ty) : Prop :=
  ∃ keep : Name → Bool, t.bare.unroll = .union (ws.filter fun w => keep w.1)

section Left

variable {names : List Name} {ws : List (Name × List (Name × Nameless Name))} {vs : Variants} {t : Ty}
  {s : NameSupply}

private theorem bareVariants_filter (keep : Name → Bool) (vs : Variants) :
    bareVariants (vs.filter fun v => keep v.1) = (bareVariants vs).filter fun w => keep w.1 := by
  rw [bareVariants, bareVariants, List.filter_map]
  rfl

private theorem eq_union_of_bare {zs : List (Name × List (Name × Nameless Name))} (h : t.bare = .union zs) :
    ∃ vs, t = .union vs ∧ bareVariants vs = zs := by
  cases t with
  | union vs =>
    rw [Ty.bare_union] at h
    exact ⟨vs, rfl, Nameless.union.inj h⟩
  | func ps r =>
    rw [Ty.bare_func] at h
    cases h
  | object ps =>
    rw [Ty.bare_object] at h
    cases h
  | generic ns b =>
    rw [Ty.bare_generic] at h
    cases h
  | var x =>
    rw [Ty.bare_var] at h
    cases h
  | _ => cases h

theorem bare_unroll_of_unroll (ht : t.InOrder names s) {s' : NameSupply}
    (h : t.unroll.run s = (some (.union vs), s')) : t.bare.unroll = .union (bareVariants vs) := by
  obtain ⟨-, u, hu, -, hspells⟩ := Ty.unroll_yields ht.wellFormed.sound ht.spells
  rw [h] at hu
  obtain rfl := Option.some.inj hu
  exact hspells.bare.symm.trans (Ty.bare_union vs)

theorem exists_unroll_of_bare {zs : List (Name × List (Name × Nameless Name))} (ht : t.InOrder names s)
    (h : t.bare.unroll = .union zs) :
    ∃ vs s', t.unroll.run s = (some (.union vs), s') ∧ s ≤ s' ∧ (Ty.union vs).InOrder names s' ∧
      bareVariants vs = zs := by
  have hsound := ht.wellFormed.sound
  obtain ⟨hs, u, hu, -, hspells⟩ := Ty.unroll_yields hsound ht.spells
  obtain ⟨vs, rfl, hvs⟩ := eq_union_of_bare (hspells.bare.trans h)
  refine ⟨vs, _, Prod.ext hu rfl, hs, hspells.inOrder hsound.unroll.wellFormed fun x hx => ?_, hvs⟩
  exact ht.mem x (Ty.has_nameless_iff.1 (has_unroll hx)).1

theorem leftOf_self (h : t.bare.unroll = .union ws) : t.LeftOf ws :=
  ⟨fun _ => true, by rw [h, List.filter_true]⟩

/-- Some of what is left is left. -/
theorem leftOf_filter {keep : Name → Bool} (h : bareVariants vs = ws.filter fun w => keep w.1) (also : Name → Bool) :
    (Ty.union (vs.filter fun v => also v.1)).LeftOf ws := by
  refine ⟨fun n => also n && keep n, ?_⟩
  have hbare : (Ty.union (vs.filter fun v => also v.1)).bare = .union (bareVariants (vs.filter fun v => also v.1)) :=
    Ty.bare_union _
  rw [hbare, unroll_of_isMu_eq_false rfl, bareVariants_filter, h, List.filter_filter]

/-- A union takes what is left of it under other bound names. -/
theorem takes_of_leftOf {target source : Variants} {keep : Name → Bool} (hnames : ∀ n ∈ names, s.AheadOf n)
    (ht : (Ty.union target).InOrder names s) (hs : (Ty.union source).InOrder names s)
    (h : bareVariants source = (bareVariants target).filter fun w => keep w.1) {v : Name × Row} (hv : v ∈ source) :
    Takes names target v := by
  obtain ⟨hlabels, hrows⟩ := Ty.inOrder_union.1 ht
  have hmem : (v.1, v.2.map fun p => (p.1, p.2.bare)) ∈ bareVariants target := by
    have hv' := List.mem_map_of_mem (f := fun v : Name × Row => (v.1, v.2.map fun p => (p.1, p.2.bare))) hv
    rw [← bareVariants, h] at hv'
    exact (List.mem_filter.1 hv').1
  obtain ⟨w, hw, he⟩ := List.mem_map.1 hmem
  obtain ⟨hlabel, hrow⟩ := Prod.mk.inj he
  obtain ⟨hdistinct, hprops⟩ := Ty.inOrder_object.1 (hrows w hw)
  have hsame : w.2.map Prod.fst = v.2.map Prod.fst := by
    have := congrArg (List.map Prod.fst) hrow
    simpa only [map_fst_map_snd] using this
  refine ⟨w.2, hlabel ▸ lookup_of_mem hlabels hw, fun p hp => ?_, fun q hq => ?_⟩
  · have hp' := List.mem_map_of_mem (f := fun p : Name × Ty => (p.1, p.2.bare)) hp
    rw [← hrow] at hp'
    obtain ⟨q, hq, he⟩ := List.mem_map.1 hp'
    obtain ⟨hname, hbare⟩ := Prod.mk.inj he
    refine ⟨q.2, hname ▸ lookup_of_mem hdistinct hq, ?_⟩
    -- the two types differ in bound names alone, so they fit
    have hq' := hprops q hq
    have hp' := (Ty.inOrder_object.1 ((Ty.inOrder_union.1 hs).2 v hv)).2 p hp
    have halike : Alike q.2.bare.unroll p.2.bare.unroll :=
      hbare ▸ alike_refl hq'.wellFormed.sound.unroll.wellFormed
    have haccepts : Ty.Accepts names .exact q.2 p.2 s := Ty.accepts_of_alike hq' hp' halike
    obtain ⟨fuel, hfuel⟩ := haccepts
    exact Ty.answers_of_run ⟨hnames, hq'.ahead, hp'.ahead⟩ (hfuel fuel (Nat.le_refl fuel))
  · rw [← hsame]
    exact List.mem_map_of_mem hq

end Left

/-! ### The way to a branch -/

/-- The first call makes the second one in the same scope, and there the variable has the type that it had, or the test
of a conditional on its tag has narrowed it. -/
inductive NarrowingStep (cx : Context) (x : Name) (p q : Call) : Prop where
  | keep (hcalls : Calls cx p q) (hscope : q.scope = p.scope) (hx : q.env.find? x = p.env.find? x)
  | test {span : Span} {test yes no : Expr} {label : Name} {outcome : Bool} (hcalls : Calls cx p q)
    (hform : p.expr = .mk span (.cond test yes no)) (htest : test.evidence? = some (.tagged x label outcome))

section Steps

variable {cx : Context} {x : Name} {p q : Call} {t : Ty} {ws : List (Name × List (Name × Nameless Name))}

theorem NarrowingStep.calls (h : NarrowingStep cx x p q) : Calls cx p q := by
  cases h with
  | keep h _ _ => exact h
  | test h _ _ => exact h

/-- A test of the tag gives the variants with the label to the one branch and the others to the other branch. -/
private theorem run_refine?_of_tagged {env : Env} {test : Expr} {label : Name} {outcome : Bool} {vs : Variants}
    {s s₁ : NameSupply} (htest : test.evidence? = some (.tagged x label outcome)) (hx : env.find? x = some t)
    (hvs : t.unroll.run s = (some (.union vs), s₁)) :
    (env.refine? test).run.run s =
      if label ∈ vs.map Prod.fst then
        (.ok (some (env.bind x (.union (vs.filter fun v => decide (v.1 = label) == outcome)),
          env.bind x (.union (vs.filter fun v => decide (v.1 = label) != outcome)))), s₁)
      else (.error (.rule ⟨.unknownVariant label, test.span⟩), s₁) := by
  have hsplit := Env.run_split? hx hvs label test.span
  rw [Env.refine?, htest]
  cases outcome with
  | true =>
    dsimp only
    rw [hsplit]
    simp
  | false =>
    dsimp only
    by_cases hlabel : label ∈ vs.map Prod.fst
    · rw [if_pos hlabel] at hsplit ⊢
      rw [run_bind_of_ok hsplit]
      simp
      rfl
    · rw [if_neg hlabel] at hsplit ⊢
      rw [ExceptT.run_bind, StateT.run_bind, hsplit]
      rfl

/-- However the variable is narrowed, it has a union of some of the variants. -/
theorem NarrowingStep.leftOf (h : NarrowingStep cx x p q) (hp : p.Proper cx) (hx : p.env.find? x = some t)
    (ht : t.LeftOf ws) : q.scope = p.scope ∧ ∃ u, q.env.find? x = some u ∧ u.LeftOf ws := by
  cases h with
  | keep _ hscope hq => exact ⟨hscope, t, hq.trans hx, ht⟩
  | @test span test yes no label outcome hcalls hform htest =>
    obtain ⟨scope, env, _, s⟩ := p
    obtain rfl : _ = Expr.mk span (.cond test yes no) := hform
    obtain ⟨keep, hkeep⟩ := ht
    obtain ⟨vs, s₁, hunroll, -, -, hvs⟩ := exists_unroll_of_bare (hp.1.env.find? hx) hkeep
    have hrefine := run_refine?_of_tagged htest hx hunroll
    by_cases hlabel : label ∈ vs.map Prod.fst
    · rw [if_pos hlabel] at hrefine
      rcases (Calls.cond_iff hrefine).1 hcalls with rfl | ⟨_, _, -, rfl⟩
      · exact ⟨rfl, _, Env.find?_bind_self .., leftOf_filter hvs fun n => decide (n = label) == outcome⟩
      · exact ⟨rfl, _, Env.find?_bind_self .., leftOf_filter hvs fun n => decide (n = label) != outcome⟩
    · rw [if_neg hlabel] at hrefine
      exact absurd hcalls (Calls.not_cond (congrArg Prod.fst hrefine))

theorem leftOf_of_narrowingSteps (h : Relation.ReflTransGen (NarrowingStep cx x) p q) (hp : p.Proper cx)
    (hx : p.env.find? x = some t) (ht : t.LeftOf ws) :
    q.Proper cx ∧ q.scope = p.scope ∧ ∃ u, q.env.find? x = some u ∧ u.LeftOf ws := by
  induction h with
  | refl => exact ⟨hp, rfl, t, hx, ht⟩
  | tail _ hstep ih =>
    obtain ⟨hproper, hscope, u, hu, hleft⟩ := ih
    obtain ⟨hscope', hnext⟩ := hstep.leftOf hproper hu hleft
    exact ⟨hproper.calls hstep.calls, hscope'.trans hscope, hnext⟩

end Steps

/-! ### Widening back -/

section Back

variable {cx : Context} {env : Env} {e : Expr} {p q : Call} {x : Name} {type : TyExpr} {t : Ty} {vs : Variants}
  {s s₁ s₂ : NameSupply}

/-- A variable has the type that an annotation means in the scope, which unrolls to a union.  Wherever tests of its tag
lead to in that scope, it can be widened to the annotation, and then has the type that it had, up to bound names. -/
theorem Expr.narrowed_widens_back (haliases : cx.aliases.Unnumbered) (henv : env.Unnumbered) (he : e.Unnumbered)
    (htype : type.Unnumbered) (hp : Relation.ReflTransGen (Calls cx) ⟨[], env, e, {}⟩ p)
    (hs : ∀ n ∈ p.scope.meanings, s.AheadOf n) (ht : (cx.resolve p.scope type).run.run s = (.ok t, s₁))
    (hunion : t.unroll.run s₁ = (some (.union vs), s₂)) (hx : p.env.find? x = some t)
    (hq : Relation.ReflTransGen (NarrowingStep cx x) p q) :
    ∃ fuel, ∀ cx' : Context, cx'.aliases = cx.aliases → fuel ≤ cx'.fuel → ∀ span varSpan, ∃ u,
      (Call.outcome (typeIn cx') ⟨q.scope, q.env, .mk span (.widen (.mk varSpan (.var x)) type), q.supply⟩).1 = .ok u ∧
        t.alphaEquiv u = true := by
  have hproper := (Call.proper_of_unnumbered haliases henv he {}).calls_all hp
  have hresolvable : Resolvable cx p.scope type s := resolvable_of_unnumbered haliases htype hs
  obtain ⟨hss, hin⟩ := (TyExpr.resolve_inOrder hresolvable.aliases hresolvable.scope type hresolvable.binders).of_ok ht
  have hbare := bare_unroll_of_unroll hin hunion
  obtain ⟨⟨hq, hbinds⟩, hscope, b, hb, keep, hkeep⟩ := leftOf_of_narrowingSteps hq hproper hx (leftOf_self hbare)
  obtain ⟨qscope, qenv, qexpr, r⟩ := q
  obtain rfl : qscope = p.scope := hscope
  -- the annotation means the same again
  have hresolvable' : Resolvable cx p.scope type r := resolvable_of_unnumbered haliases htype hq.scope
  obtain ⟨t', r₁, ht', hrenumbered⟩ := resolve_again hresolvable hresolvable' ht
  obtain ⟨hr₁, hin'⟩ := (resolve_checks hq hresolvable'.binders).of_ok ht'
  have hsame : t'.bare = t.bare := hrenumbered.bare_eq hin.mem hin'.mem
  -- both unions
  obtain ⟨target, r₂, htarget, hr₂, htargetIn, htargetBare⟩ := exists_unroll_of_bare hin' (hsame ▸ hbare)
  obtain ⟨source, r₃, hsource, hr₃, hsourceIn, hsourceBare⟩ :=
    exists_unroll_of_bare ((hq.env.find? hb).mono (le_trans hr₁ hr₂)) hkeep
  have hnames : ∀ n ∈ p.scope.meanings, r₃.AheadOf n := fun n hn =>
    (hq.scope n hn).mono (le_trans hr₁ (le_trans hr₂ hr₃))
  have hleft : bareVariants source = (bareVariants target).filter fun w => keep w.1 := by
    rw [hsourceBare, htargetBare]
  have htakes : ∀ v ∈ source, Takes p.scope.meanings target v := fun v hv =>
    takes_of_leftOf hnames (htargetIn.mono hr₃) hsourceIn hleft hv
  obtain ⟨fuel, hfuel⟩ := exists_fuel_expectVariants htakes
  refine ⟨fuel, fun cx' haliases' hcx' span varSpan => ⟨t', ?_, hin.wellFormed.alphaEquiv_of_bare_eq hsame.symm⟩⟩
  have hvalue : ((Expr.mk varSpan (.var x)).typeIn cx' p.scope qenv).run.run r = (.ok b, r) := by
    rw [typeIn_mk, Checker.rule, hb]
    rfl
  have hresolve : (cx'.resolve p.scope type).run.run r = (.ok t', r₁) := by
    rwa [Context.resolve, haliases']
  obtain ⟨-, _, hvariants, -⟩ := hfuel cx' r₃ span hcx' ⟨hnames, (htargetIn.mono hr₃).ahead, hsourceIn.ahead⟩
  rw [Call.outcome, Expr.run_widen hvalue hresolve htarget hsource, run_bind_of_ok (Prod.ext hvariants rfl)]
  rfl

/-- `type T = | { tag: "leaf"; v: number } | { tag: "node"; l: T; r: T } | { tag: "tip"; w: string }` -/
private def plantsContext : Context where
  aliases := [
    { name := "T", params := none, span := ⟨6, 7⟩
      body := .mk ⟨5, 6⟩ (.union [("leaf", [("v", .mk ⟨0, 1⟩ (.prim .number))]),
        ("node", [("l", .mk ⟨1, 2⟩ (.ref "T")), ("r", .mk ⟨2, 3⟩ (.ref "T"))]),
        ("tip", [("w", .mk ⟨3, 4⟩ (.prim .string))])]) }]

private def plantsTy : Ty :=
  .mu "T" (.union [("leaf", [("v", .number)]), ("node", [("l", .var "T"), ("r", .var "T")]), ("tip", [("w", .string)])])

private def plantedEnv : Env :=
  Env.empty.bind "x" plantsTy

/-- `x as T` -/
private def backToPlant : Expr :=
  .mk ⟨9, 10⟩ (.widen (.mk ⟨8, 9⟩ (.var "x")) (.mk ⟨7, 8⟩ (.ref "T")))

private def tagOfX (op : Comparison) (label : Name) : Expr :=
  .mk ⟨13, 14⟩ (.compare op (.mk ⟨11, 12⟩ (.property (.mk ⟨10, 11⟩ (.var "x")) "tag"))
    (.mk ⟨12, 13⟩ (.lit (.string label))))

/-- `if (x.tag === "node") x as T else inner` -/
private def pastNodes (inner : Expr) : Expr :=
  .mk ⟨14, 15⟩ (.cond (tagOfX .same "node") backToPlant inner)

/-- `if (x.tag !== "leaf") inner else x as T` -/
private def pastLeaves (inner : Expr) : Expr :=
  .mk ⟨15, 16⟩ (.cond (tagOfX .different "leaf") inner backToPlant)

private def tipEnv : Env :=
  (plantedEnv.bind "x" (.union [("node", [("l", plantsTy), ("r", plantsTy)]), ("tip", [("w", .string)])])).bind "x"
    (.union [("tip", [("w", .string)])])

/-- What is neither a leaf nor a node is a tip, and that can be taken for any of them again. -/
theorem narrowed_widens_back_plant :
    Relation.ReflTransGen (NarrowingStep plantsContext "x")
      ⟨[], plantedEnv, pastLeaves (pastNodes backToPlant), {}⟩ ⟨[], tipEnv, backToPlant, {}⟩ ∧
    ∃ fuel, ∀ cx : Context, cx.aliases = plantsContext.aliases → fuel ≤ cx.fuel →
      ∃ u, (Call.outcome (Expr.typeIn cx) ⟨[], tipEnv, backToPlant, {}⟩).1 = .ok u ∧ plantsTy.alphaEquiv u = true := by
  have haliases : plantsContext.aliases.Unnumbered := by
    simp [Aliases.Unnumbered, plantsContext, TyExpr.Unnumbered, TyExpr.binders, TyExpr.bindersForm,
      TyExpr.bindersVariants, TyExpr.bindersRow]
  have henv : plantedEnv.Unnumbered := unnumbered_of_freeNames (by decide)
  have hback : backToPlant.Unnumbered :=
    .mk (by simp [Term.ownBinders, TyExpr.binders, TyExpr.bindersForm])
      (List.forall_mem_singleton.2 (.leaf rfl rfl))
  have htest : ∀ op label, (tagOfX op label).Unnumbered := fun op label =>
    .mk (List.forall_mem_nil _) (List.forall_mem_cons.2
      ⟨.mk (List.forall_mem_nil _) (List.forall_mem_singleton.2 (.leaf rfl rfl)),
        List.forall_mem_singleton.2 (.leaf rfl rfl)⟩)
  have hcond : ∀ span test yes no, test.Unnumbered → yes.Unnumbered → no.Unnumbered →
      (Expr.mk span (.cond test yes no)).Unnumbered := fun _ _ _ _ ht hy hn =>
    .mk (List.forall_mem_nil _) (List.forall_mem_cons.2 ⟨ht, List.forall_mem_cons.2 ⟨hy,
      List.forall_mem_singleton.2 hn⟩⟩)
  have hroot : (pastLeaves (pastNodes backToPlant)).Unnumbered :=
    hcond _ _ _ _ (htest ..) (hcond _ _ _ _ (htest ..) hback hback) hback
  have hsteps : Relation.ReflTransGen (NarrowingStep plantsContext "x")
      ⟨[], plantedEnv, pastLeaves (pastNodes backToPlant), {}⟩ ⟨[], tipEnv, backToPlant, {}⟩ := by
    refine .tail (.single (.test ((Calls.cond_iff (by cbv)).2 (.inl rfl)) rfl rfl)) ?_
    exact .test ((Calls.cond_iff (by cbv)).2 (.inr ⟨plantsTy, {}, by cbv, rfl⟩)) rfl rfl
  have htype : (TyExpr.mk ⟨7, 8⟩ (.ref "T")).Unnumbered := by
    simp [TyExpr.Unnumbered, TyExpr.binders, TyExpr.bindersForm]
  have hresolve : (plantsContext.resolve [] (.mk ⟨7, 8⟩ (.ref "T"))).run.run {} = (.ok plantsTy, {}) := by cbv
  have hunroll : plantsTy.unroll.run {} = (some (.union [("leaf", [("v", .number)]),
      ("node", [("l", plantsTy), ("r", plantsTy)]), ("tip", [("w", .string)])]), {}) := by cbv
  refine ⟨hsteps, ?_⟩
  obtain ⟨fuel, hfuel⟩ := Expr.narrowed_widens_back haliases henv hroot htype .refl (List.forall_mem_nil _) hresolve
    hunroll rfl hsteps
  exact ⟨fuel, fun cx haliases' hcx => hfuel cx haliases' hcx ⟨9, 10⟩ ⟨8, 9⟩⟩

end Back

end MuTypes
