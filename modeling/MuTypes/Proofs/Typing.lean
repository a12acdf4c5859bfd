import MuTypes.Proofs.Resolution
import MuTypes.Proofs.Rules
import MuTypes.Proofs.Scoping
import MuTypes.Proofs.Termination

/-!
# Checking keeps types in order

At every call of the checker the types of variables are in order for the type variables in scope, and so is the type
that the call gives (`Expr.typeIn_right`, `Call.Proper.calls`).

There is one lemma for each question that the rules ask and one for each longer rule, and `Checker.rule_checks` goes
through the rules: it supposes that the parts are checked rightly wherever the checker is called properly (`Proper`),
by whatever checker.  This gives both results.  For the types of calls it is used with the checker itself.  For the
calls it is used with a checker that fails at one call: were this call not proper, then the rule could not fail there.
-/

namespace MuTypes

open NameSupply

/-! ### Names bound in an expression -/

/-- The names that the annotations and the type parameters of a node bind. -/
def Term.ownBinders : Term → List Name
  | .lambda params result _ => params.flatMap (·.2.binders) ++ result.toList.flatMap TyExpr.binders
  | .function _ params result _ _ => params.flatMap (·.2.binders) ++ result.binders
  | .emptyArray t | .emptyMap t | .variant _ _ t | .widen _ t => t.binders
  | .generic params _ => params
  | .instantiate _ args => args.flatMap TyExpr.binders
  | _ => []

/-- All names that the types in the expression bind have the property. -/
inductive Expr.Binds (p : Name → Prop) : Expr → Prop where
  | mk {span : Span} {term : Term} (own : ∀ n ∈ term.ownBinders, p n) (parts : ∀ e ∈ term.parts, Binds p e) :
    Binds p (.mk span term)

/-- Without parts and without types there is nothing that binds a name. -/
theorem Expr.Binds.leaf {p : Name → Prop} {span : Span} {term : Term} (hown : term.ownBinders = [])
    (hparts : term.parts = []) : (Expr.mk span term).Binds p :=
  .mk (hown ▸ List.forall_mem_nil p) (hparts ▸ List.forall_mem_nil _)

theorem Expr.Binds.mono {p q : Name → Prop} {e : Expr} (h : e.Binds p) (hpq : ∀ n, p n → q n) : e.Binds q := by
  induction h with
  | mk own _ ih => exact .mk (fun n hn => hpq n (own n hn)) ih

theorem Expr.Binds.and {p q : Name → Prop} {e : Expr} (h : e.Binds p) (h' : e.Binds q) :
    e.Binds fun n => p n ∧ q n := by
  induction h with
  | mk own _ ih =>
    cases h' with
    | mk own' parts' => exact .mk (fun n hn => ⟨own n hn, own' n hn⟩) fun e he => ih e he (parts' e he)

/-! ### Questions about shapes -/

namespace NameSupply

section Shapes

variable {names : List Name} {t : Ty} {s : NameSupply}

theorem unrolled_checks (h : t.InOrder names s) :
    s.Checks (liftM t.unrolled : CheckM Ty) fun t' s' => t'.isMu = false ∧ t'.InOrder names s' :=
  .compare h.unrolled_returns.ensures fun f e => ((Ty.unrolled_outcomes t) s).2 f e

theorem expectPrim_checks (p : Prim) (h : t.InOrder names s) (span : Span) :
    s.Checks (t.expectPrim p span) fun _ _ => True := by
  refine (unrolled_checks h).bind fun t' s' _ _ => ?_
  split
  · exact .pure trivial
  · exact .violation _ _

theorem expectArray_checks (h : t.InOrder names s) (span : Span) :
    s.Checks (t.expectArray span) fun e s' => e.InOrder names s' := by
  refine (unrolled_checks h).bind fun t' s' _ ht' => ?_
  split
  · exact .pure (Ty.inOrder_container.1 ht'.2)
  · exact .violation _ _

theorem expectMap_checks (h : t.InOrder names s) (span : Span) :
    s.Checks (t.expectMap span) fun e s' => e.InOrder names s' := by
  refine (unrolled_checks h).bind fun t' s' _ ht' => ?_
  split
  · exact .pure (Ty.inOrder_container.1 ht'.2)
  · exact .violation _ _

theorem expectFunc_checks (h : t.InOrder names s) (span : Span) :
    s.Checks (t.expectFunc span) fun q s' => (∀ p ∈ q.1, p.2.InOrder names s') ∧ q.2.InOrder names s' := by
  refine (unrolled_checks h).bind fun t' s' _ ht' => ?_
  split
  · exact .pure (Ty.inOrder_func.1 ht'.2)
  · exact .violation _ _

theorem expectGeneric_checks (h : t.InOrder names s) (span : Span) :
    s.Checks (t.expectGeneric span) fun q s' =>
      q.1.Nodup ∧ (∀ n ∈ q.1, s'.AheadOf n) ∧ q.2.InOrder (q.1 ++ names) s' := by
  refine (unrolled_checks h).bind fun t' s' _ ht' => ?_
  split
  · exact .pure (Ty.inOrder_generic.1 ht'.2)
  · exact .violation _ _

theorem expectUnion_checks (h : t.InOrder names s) (span : Span) :
    s.Checks (t.expectUnion span) fun vs s' => (Ty.union vs).InOrder names s' := by
  refine (unrolled_checks h).bind fun t' s' _ ht' => ?_
  split
  · exact .pure ht'.2
  · exact .violation _ _

theorem expectProperty_checks {row : Row} (h : ∀ p ∈ row, p.2.InOrder names s) (name : Name) (span : Span) :
    s.Checks (expectProperty row name span) fun t s' => t.InOrder names s' := by
  unfold expectProperty
  split
  · rename_i hlookup
    exact .pure (h _ (mem_of_lookup hlookup))
  · exact .violation _ _

theorem expectVariant_checks {vs : Variants} (h : (Ty.union vs).InOrder names s) (label : Name) (span : Span) :
    s.Checks (expectVariant vs label span) fun row s' => (Ty.object row).InOrder names s' := by
  unfold expectVariant
  split
  · rename_i hlookup
    exact .pure ((Ty.inOrder_union.1 h).2 _ (mem_of_lookup hlookup))
  · exact .violation _ _

private theorem arrayRow_inOrder {e : Ty} (h : e.InOrder names s) : ∀ p ∈ arrayRow e, p.2.InOrder names s := by
  have htest : (itemTest e).2.InOrder names s := Ty.inOrder_func.2 ⟨by simpa using h, Ty.inOrder_prim .boolean⟩
  have hfind : (Ty.func [itemTest e] (.option e)).InOrder names s :=
    Ty.inOrder_func.2 ⟨by simpa using htest, Ty.inOrder_container.2 h⟩
  have hfilter : (Ty.func [itemTest e] (.array e)).InOrder names s :=
    Ty.inOrder_func.2 ⟨by simpa using htest, Ty.inOrder_container.2 h⟩
  simp only [arrayRow, List.forall_mem_cons]
  exact ⟨Ty.inOrder_prim .number, hfind, hfilter, by simp⟩

theorem property_checks (h : t.InOrder names s) (name : Name) (baseSpan span : Span) :
    s.Checks (t.property name baseSpan span) fun t' s' => t'.InOrder names s' := by
  refine (unrolled_checks h).bind fun t' s' _ ht' => ?_
  split
  · exact expectProperty_checks (Ty.inOrder_object.1 ht'.2).2 name span
  · split
    · exact .pure (Ty.inOrder_prim .string)
    · split
      · have hrow := (Ty.inOrder_union.1 ht'.2).2 _ (List.mem_singleton_self _)
        exact expectProperty_checks (Ty.inOrder_object.1 hrow).2 name span
      · exact .violation _ _
  · exact expectProperty_checks (arrayRow_inOrder (Ty.inOrder_container.1 ht'.2)) name span
  · exact .violation _ _

theorem item_checks {index : Ty} (h : t.InOrder names s) (hi : index.InOrder names s) (baseSpan indexSpan : Span) :
    s.Checks (t.item index baseSpan indexSpan) fun t' s' => t'.InOrder names s' := by
  refine (unrolled_checks h).bind fun t' s' hs ht' => ?_
  split
  · refine (expectPrim_checks .number (hi.mono hs) indexSpan).bind fun _ s'' hs' _ => .pure ?_
    exact (Ty.inOrder_container.1 ht'.2).mono hs'
  · refine (expectPrim_checks .string (hi.mono hs) indexSpan).bind fun _ s'' hs' _ => .pure ?_
    exact (Ty.inOrder_container.1 ht'.2).mono hs'
  · exact .violation _ _

end Shapes

/-! ### Questions about fitting -/

section Agreement

variable {scope : Scope} {e a : Ty} {s : NameSupply} (cx : Context)

theorem fits_checks (fit : Fit) (he : e.InOrder scope.meanings s) (ha : a.InOrder scope.meanings s) :
    s.Checks (cx.fits scope fit e a) fun _ _ => True := by
  refine .compare (Ty.fitsUnder_ensures cx.fuel [] (he.ready ha fit)) fun f hf => ?_
  exact ((Ty.fits_scoped he.mem ha.mem cx.fuel fit) s).2 f hf

theorem expectFit_checks (site : Site) (fit : Fit) (he : e.InOrder scope.meanings s) (ha : a.InOrder scope.meanings s)
    (span : Span) : s.Checks (cx.expectFit scope site fit e a span) fun _ _ => True := by
  refine (fits_checks cx fit he ha).bind fun b s' _ _ => ?_
  split
  · exact .pure trivial
  · exact .violation _ _

theorem expectResult_checks (he : e.InOrder scope.meanings s) (ha : a.InOrder scope.meanings s) (span : Span) :
    s.Checks (cx.expectResult scope e a span) fun _ _ => True := by
  refine (fits_checks cx .exact he ha).bind fun b s' _ _ => ?_
  split
  · exact .pure trivial
  · exact .violation _ _

theorem common_checks (site : Site) (he : e.InOrder scope.meanings s) (ha : a.InOrder scope.meanings s) (span : Span) :
    s.Checks (cx.common scope site e a span) fun t s' => t.InOrder scope.meanings s' := by
  refine (expectFit_checks cx site .exact he ha span).bind fun _ s' hs _ => .pure ?_
  unfold Ty.orElse
  split
  · exact ha.mono hs
  · exact he.mono hs

theorem commonClause_checks {sofar : Option Ty} (hsofar : ∀ t, sofar = some t → t.InOrder scope.meanings s)
    (ha : a.InOrder scope.meanings s) (span : Span) :
    s.Checks (cx.commonClause scope sofar a span) fun t s' => t.InOrder scope.meanings s' := by
  cases sofar with
  | none => exact .pure ha
  | some t => exact common_checks cx .clauses (hsofar t rfl) ha span

theorem expectRow_checks {declared given : Row} (hd : ∀ p ∈ declared, p.2.InOrder scope.meanings s)
    (hg : ∀ p ∈ given, p.2.InOrder scope.meanings s) (span : Span) :
    s.Checks (cx.expectRow scope declared given span) fun _ _ => True := by
  unfold Context.expectRow
  refine (Checks.forM fun p hp t ht => ?_).bind fun _ s' _ _ => ?_
  · refine (expectProperty_checks (fun q hq => (hd q hq).mono ht) p.1 span).bind fun r s' hs hr => ?_
    exact expectFit_checks cx .variant .exact hr ((hg p hp).mono (le_trans ht hs)) span
  · split
    · exact .violation _ _
    · exact .pure trivial

theorem expectVariants_checks {target source : Variants} (ht : (Ty.union target).InOrder scope.meanings s)
    (hs : (Ty.union source).InOrder scope.meanings s) (span : Span) :
    s.Checks (cx.expectVariants scope target source span) fun _ _ => True := by
  refine Checks.forM fun v hv t hst => ?_
  refine (expectVariant_checks (ht.mono hst) v.1 span).bind fun row s' hts hrow => ?_
  have hgiven := ((Ty.inOrder_union.1 hs).2 v hv).mono (le_trans hst hts)
  exact expectRow_checks cx (Ty.inOrder_object.1 hrow).2 (Ty.inOrder_object.1 hgiven).2 span

end Agreement

/-! ### Type parameters -/

/-- Meanings of distinct type parameters are distinct: those that are drawn are new. -/
theorem meaningsFor_yields {params : List Name} {s : NameSupply} (scope : Scope) (hd : params.Nodup)
    (hp : ∀ n ∈ params, s.AheadOf n) :
    s.Yields (scope.meaningsFor params) fun vars s' =>
      vars.length = params.length ∧ vars.Nodup ∧ ∀ n ∈ vars, s'.AheadOf n := by
  suffices h : s.Yields (scope.meaningsFor params) fun vars s' =>
      (vars.length = params.length ∧ vars.Nodup ∧ ∀ n ∈ vars, s'.AheadOf n) ∧
        ∀ n ∈ vars, n ∈ params ∨ ¬ s.AheadOf n from
    h.mono fun _ _ _ h => h.1
  induction params generalizing s with
  | nil => exact .pure ⟨⟨rfl, List.nodup_nil, by simp⟩, by simp⟩
  | cons n params ih =>
    obtain ⟨hn, hd⟩ := List.nodup_cons.1 hd
    obtain ⟨hsn, hp⟩ := List.forall_mem_cons.1 hp
    rw [Scope.meaningsFor, List.mapM_cons, ← Scope.meaningsFor]
    -- the meaning of the first parameter is the parameter or a drawn name, and the others are neither
    have hfirst : s.Yields (if scope.any fun v => v.name = n || v.meaning = n then draw n else return n)
        fun m t => t.AheadOf m ∧ m ∉ params ∧ (m = n ∨ ¬ s.AheadOf m) := by
      split
      · refine .draw ⟨aheadOf_numbered (Nat.lt_succ_self _) n, fun hm => ?_, .inr fun h => h.ne_drawn n rfl⟩
        exact (hp _ hm).ne_drawn n rfl
      · exact .pure ⟨hsn, hn, .inl rfl⟩
    refine hfirst.bind fun m t hst hm => ?_
    obtain ⟨hahead, hmem, horigin⟩ := hm
    refine (ih hd fun k hk => (hp k hk).mono hst).bind fun vars u htu hvars => .pure ?_
    obtain ⟨⟨hl, hnodup, hvs⟩, horigins⟩ := hvars
    refine ⟨⟨congrArg (· + 1) hl, List.nodup_cons.2 ⟨fun hmv => ?_, hnodup⟩, ?_⟩, ?_⟩
    · exact (horigins m hmv).elim hmem fun h => h hahead
    · exact List.forall_mem_cons.2 ⟨hahead.mono htu, hvs⟩
    · refine List.forall_mem_cons.2 ⟨?_, fun k hk => ?_⟩
      · rcases horigin with rfl | h
        · exact .inl List.mem_cons_self
        · exact .inr h
      · exact (horigins k hk).imp (List.mem_cons_of_mem n) fun h hs => h (hs.mono hst)

end NameSupply

/-! ### Environments -/

/-- The types of all bindings are in order. -/
def Env.InOrder (names : List Name) (env : Env) (s : NameSupply) : Prop :=
  ∀ p ∈ env.bindings, p.2.InOrder names s

namespace Env.InOrder

variable {names : List Name} {env : Env} {t : Ty} {s s' : NameSupply}

theorem mono (h : env.InOrder names s) (hs : s ≤ s') : env.InOrder names s' :=
  fun p hp => (h p hp).mono hs

theorem find? (h : env.InOrder names s) {x : Name} (hx : env.find? x = some t) : t.InOrder names s :=
  h _ (mem_of_lookup hx)

theorem bind (h : env.InOrder names s) (ht : t.InOrder names s) (x : Name) : (env.bind x t).InOrder names s :=
  List.forall_mem_cons.2 ⟨ht, h⟩

theorem bindAll {row : Row} (h : env.InOrder names s) (hrow : ∀ p ∈ row, p.2.InOrder names s) :
    (env.bindAll row).InOrder names s := by
  induction row generalizing env with
  | nil => exact h
  | cons p row ih =>
    obtain ⟨hp, hrow⟩ := List.forall_mem_cons.1 hrow
    exact ih (h.bind hp p.1) hrow

theorem defined?_checks (h : env.InOrder names s) (x : Name) :
    s.Checks (env.defined? x) fun o s' => ∀ env', o = some env' → env'.InOrder names s' := by
  unfold Env.defined?
  split
  · exact .pure nofun
  · rename_i t ht
    refine (unrolled_checks (h.find? ht)).bind fun t' s' hs ht' => ?_
    split
    · refine .pure fun env' e => ?_
      obtain rfl := Option.some.inj e
      exact (h.mono hs).bind (Ty.inOrder_container.1 ht'.2) x
    · exact .pure nofun

theorem split?_checks (h : env.InOrder names s) (x label : Name) (span : Span) :
    s.Checks (env.split? x label span) fun o s' => ∀ envs, o = some envs → envs.1.InOrder names s' ∧
      envs.2.InOrder names s' := by
  unfold Env.split?
  split
  · exact .pure nofun
  · rename_i t ht
    refine (unrolled_checks (h.find? ht)).bind fun t' s' hs ht' => ?_
    split
    · rw [List.partition_eq_filter_filter]
      dsimp only
      split
      · exact .violation _ _
      · refine .pure fun envs e => ?_
        obtain rfl := Option.some.inj e
        exact ⟨(h.mono hs).bind (ht'.2.union_filter _) x, (h.mono hs).bind (ht'.2.union_filter _) x⟩
    · exact .pure nofun

/-- A test leaves the types of all variables in order in both branches. -/
theorem refine?_checks (h : env.InOrder names s) (test : Expr) :
    s.Checks (env.refine? test) fun o s' => ∀ envs, o = some envs → envs.1.InOrder names s' ∧
      envs.2.InOrder names s' := by
  unfold Env.refine?
  split
  · exact .pure nofun
  · refine (h.defined?_checks _).bind fun o s' hs ho => .pure fun envs e => ?_
    obtain ⟨env', rfl, rfl⟩ := Option.map_eq_some_iff.1 e
    exact ⟨ho env' rfl, h.mono hs⟩
  · refine (h.defined?_checks _).bind fun o s' hs ho => .pure fun envs e => ?_
    obtain ⟨env', rfl, rfl⟩ := Option.map_eq_some_iff.1 e
    exact ⟨h.mono hs, ho env' rfl⟩
  · exact h.split?_checks _ _ _
  · refine (h.split?_checks _ _ _).bind fun o s' _ ho => .pure fun envs e => ?_
    obtain ⟨envs', rfl, rfl⟩ := Option.map_eq_some_iff.1 e
    exact ⟨(ho envs' rfl).2, (ho envs' rfl).1⟩

end Env.InOrder

/-! ### Rules -/

/-- The types of variables are in order for the type variables in scope, and the supply is ahead of the names of type
variables and of aliases. -/
structure Proper (cx : Context) (scope : Scope) (env : Env) (s : NameSupply) : Prop where
  env : env.InOrder scope.meanings s
  scope : ∀ n ∈ scope.meanings, s.AheadOf n
  aliases : s.AheadOfAliases cx.aliases

/-- Where it is called properly for the expression, the checker gives a type in order. -/
def Checker.Right (check : Checker) (cx : Context) (e : Expr) : Prop :=
  ∀ scope env s, Proper cx scope env s → e.Binds s.AheadOf →
    s.Checks (check scope env e) fun t s' => t.InOrder scope.meanings s'

section Rules

variable {cx : Context} {check : Checker} {scope : Scope} {env : Env} {s s' : NameSupply}

theorem Proper.mono (h : Proper cx scope env s) (hs : s ≤ s') : Proper cx scope env s' :=
  ⟨h.env.mono hs, fun n hn => (h.scope n hn).mono hs, h.aliases.mono hs⟩

theorem Proper.bind (h : Proper cx scope env s) {t : Ty} (ht : t.InOrder scope.meanings s) (x : Name) :
    Proper cx scope (env.bind x t) s :=
  { h with env := h.env.bind ht x }

theorem Proper.withEnv (h : Proper cx scope env s) {env' : Env} (henv : env'.InOrder scope.meanings s) :
    Proper cx scope env' s :=
  { h with env := henv }

namespace NameSupply

theorem resolve_checks (h : Proper cx scope env s) {e : TyExpr} (he : ∀ n ∈ e.binders, s.AheadOf n) :
    s.Checks (cx.resolve scope e) fun t s' => t.InOrder scope.meanings s' :=
  TyExpr.resolve_inOrder h.aliases h.scope e he

theorem paramRow_checks (h : Proper cx scope env s) {params : List (Name × TyExpr)}
    (hp : ∀ n ∈ params.flatMap (·.2.binders), s.AheadOf n) :
    s.Checks (cx.paramRow scope params) fun row s' => ∀ p ∈ row, p.2.InOrder scope.meanings s' := by
  refine Checks.mono ?_ fun row s' _ (hrow : row.length = params.length ∧ _) => hrow.2
  refine .mapM (fun p t u htu hp => hp.mono htu) fun p hmem t ht => ?_
  have hbinders : ∀ n ∈ p.2.binders, t.AheadOf n := fun n hn =>
    (hp n (List.mem_flatMap.2 ⟨p, hmem, hn⟩)).mono ht
  exact (resolve_checks (h.mono ht) hbinders).bind fun t' s' _ ht' => .pure ht'

end NameSupply

namespace Checker

/-- The checker is right for all the expressions, and the supply is ahead of the names that they bind. -/
private def Rightly (check : Checker) (cx : Context) (es : List Expr) (s : NameSupply) : Prop :=
  ∀ e ∈ es, check.Right cx e ∧ e.Binds s.AheadOf

private theorem Rightly.mono {es : List Expr} (h : Rightly check cx es s) (hs : s ≤ s') : Rightly check cx es s' :=
  fun e he => ⟨(h e he).1, (h e he).2.mono fun _ hn => hn.mono hs⟩

private theorem Rightly.checks {es : List Expr} (hp : Proper cx scope env s) (h : Rightly check cx es s) {e : Expr}
    (he : e ∈ es) : s.Checks (check scope env e) fun t s' => t.InOrder scope.meanings s' :=
  (h e he).1 scope env s hp (h e he).2

/-- What the checker says of a part later on, in an environment in order. -/
private theorem Rightly.later {es : List Expr} (h : Rightly check cx es s) (hp : Proper cx scope env s) {e : Expr}
    (he : e ∈ es) (hs : s ≤ s') {env' : Env} (henv : env'.InOrder scope.meanings s') :
    s'.Checks (check scope env' e) fun t s'' => t.InOrder scope.meanings s'' :=
  (h.mono hs).checks ((hp.mono hs).withEnv henv) he

private theorem args_checks {es : List Expr} (hp : Proper cx scope env s) (h : Rightly check cx es s) {ps : Row}
    (hps : ∀ p ∈ ps, p.2.InOrder scope.meanings s) : s.Checks (check.args cx scope env ps es) fun _ _ => True := by
  induction es generalizing ps s with
  | nil => cases ps <;> exact .pure trivial
  | cons e es ih =>
    cases ps with
    | nil => exact .pure trivial
    | cons p ps =>
      obtain ⟨hpt, hps⟩ := List.forall_mem_cons.1 hps
      refine (h.checks hp List.mem_cons_self).bind fun t s₁ h₁ ht => ?_
      refine (expectFit_checks cx .argument _ (hpt.mono h₁) ht e.span).bind fun _ s₂ h₂ _ => ?_
      have hs := le_trans h₁ h₂
      exact ih (hp.mono hs) (fun e' he' => (h.mono hs) e' (List.mem_cons_of_mem e he')) fun q hq => (hps q hq).mono hs

private theorem inits_checks {es : List (Name × Expr)} (hp : Proper cx scope env s)
    (h : Rightly check cx (es.map Prod.snd) s) (span : Span) (seen : List Name) :
    s.Checks (check.inits scope env span seen es) fun row s' =>
      (row.map Prod.fst).Nodup ∧ (∀ n ∈ row.map Prod.fst, n ∉ seen) ∧ ∀ p ∈ row, p.2.InOrder scope.meanings s' := by
  induction es generalizing seen s with
  | nil => exact .pure ⟨List.nodup_nil, by simp, by simp⟩
  | cons e es ih =>
    unfold inits
    split
    · exact .violation _ _
    rename_i hn
    refine (h.checks hp List.mem_cons_self).bind fun t s₁ h₁ ht => ?_
    have hes : Rightly check cx (es.map Prod.snd) s₁ := fun e' he' => (h.mono h₁) e' (List.mem_cons_of_mem e.2 he')
    refine (ih (hp.mono h₁) hes (e.1 :: seen)).bind fun row s₂ h₂ hrow => .pure ?_
    obtain ⟨hd, hseen, hrow⟩ := hrow
    refine ⟨List.nodup_cons.2 ⟨fun hm => hseen e.1 hm List.mem_cons_self, hd⟩, ?_, ?_⟩
    · exact List.forall_mem_cons.2 ⟨hn, fun m hm hs => hseen m hm (List.mem_cons_of_mem e.1 hs)⟩
    · exact List.forall_mem_cons.2 ⟨ht.mono h₂, hrow⟩

private theorem declaredInits_checks {es : List (Name × Expr)} (hp : Proper cx scope env s)
    (h : Rightly check cx (es.map Prod.snd) s) (span : Span) {declared : Row}
    (hd : ∀ p ∈ declared, p.2.InOrder scope.meanings s) (seen : List Name) :
    s.Checks (check.declaredInits cx scope env span declared seen es) fun _ _ => True := by
  induction es generalizing seen s with
  | nil => exact .pure trivial
  | cons e es ih =>
    unfold declaredInits
    split
    · exact .violation _ _
    refine (expectProperty_checks hd e.1 span).bind fun q s₀ h₀ hq => ?_
    refine ((h.mono h₀).checks (hp.mono h₀) List.mem_cons_self).bind fun t s₁ h₁ ht => ?_
    refine (expectFit_checks cx .variant .exact (hq.mono h₁) ht e.2.span).bind fun _ s₂ h₂ _ => ?_
    have hs := le_trans h₀ (le_trans h₁ h₂)
    have hes : Rightly check cx (es.map Prod.snd) s₂ := fun e' he' => (h.mono hs) e' (List.mem_cons_of_mem e.2 he')
    exact ih (hp.mono hs) hes (fun p hp => (hd p hp).mono hs) (e.1 :: seen)

private theorem clauses_checks {es : List (Name × Expr)} (hp : Proper cx scope env s)
    (h : Rightly check cx (es.map Prod.snd) s) (span : Span) (x : Name) {vs : Variants}
    (hvs : (Ty.union vs).InOrder scope.meanings s) (seen : List Name) {sofar : Option Ty}
    (hsofar : ∀ t, sofar = some t → t.InOrder scope.meanings s) :
    s.Checks (check.clauses cx scope env span x vs seen sofar es) fun o s' =>
      ∀ t, o = some t → t.InOrder scope.meanings s' := by
  induction es generalizing seen sofar s with
  | nil => exact .pure hsofar
  | cons e es ih =>
    unfold clauses
    split
    · exact .violation _ _
    refine (expectVariant_checks hvs e.1 e.2.span).bind fun row s₀ h₀ hrow => ?_
    have hbody := (h.mono h₀).checks ((hp.mono h₀).bind hrow x) List.mem_cons_self
    refine hbody.bind fun t s₁ h₁ ht => ?_
    have hs := le_trans h₀ h₁
    refine (commonClause_checks cx (fun t ht => (hsofar t ht).mono hs) ht span).bind fun u s₂ h₂ hu => ?_
    have hs' := le_trans hs h₂
    have hes : Rightly check cx (es.map Prod.snd) s₂ := fun e' he' => (h.mono hs') e' (List.mem_cons_of_mem e.2 he')
    exact ih (hp.mono hs') hes (hvs.mono hs') (e.1 :: seen) fun t' e => Option.some.inj e ▸ hu

/-- The rule for the form gives a type in order wherever it is used properly, if the checker is right for the parts. -/
private def RightRule (check : Checker) (cx : Context) (term : Term) : Prop :=
  ∀ {scope env s}, Proper cx scope env s → (∀ n ∈ term.ownBinders, s.AheadOf n) → Rightly check cx term.parts s →
    ∀ span, s.Checks (check.rule cx scope env span term) fun t s' => t.InOrder scope.meanings s'

private theorem cond_right {test yes no : Expr} : RightRule check cx (.cond test yes no) := by
  intro scope env s hp _ h span
  refine (hp.env.refine?_checks test).bind fun o s₁ h₁ ho => ?_
  cases o with
  | some envs =>
    obtain ⟨hyes, hno⟩ := ho envs rfl
    refine (h.later hp (by simp [Term.parts]) h₁ hyes).bind fun t s₂ h₂ ht => ?_
    refine (h.later hp (by simp [Term.parts]) (le_trans h₁ h₂) (hno.mono h₂)).bind fun u s₃ h₃ hu => ?_
    exact common_checks cx .branches (ht.mono h₃) hu span
  | none =>
    refine (h.later hp (by simp [Term.parts]) h₁ (hp.env.mono h₁)).bind fun t₀ s₂ h₂ ht₀ => ?_
    refine (expectPrim_checks .boolean ht₀ test.span).bind fun _ s₃ h₃ _ => ?_
    have hs := le_trans h₁ (le_trans h₂ h₃)
    refine (h.later hp (by simp [Term.parts]) hs (hp.env.mono hs)).bind fun t s₄ h₄ ht => ?_
    have hs' := le_trans hs h₄
    refine (h.later hp (by simp [Term.parts]) hs' (hp.env.mono hs')).bind fun u s₅ h₅ hu => ?_
    exact common_checks cx .branches (ht.mono h₅) hu span

/-- A loop over an array, whose body sees an index or an item. -/
private theorem loop_checks {array body rest : Expr} (hp : Proper cx scope env s)
    (h : Rightly check cx [array, body, rest] s) (seen : Ty → Ty)
    (hseen : ∀ t s', t.InOrder scope.meanings s' → (seen t).InOrder scope.meanings s') (x : Name) (span : Span) :
    s.Checks (do
      let elem ← (← check scope env array).expectArray array.span
      let t ← check scope (env.bind x (seen elem)) body
      let u ← check scope env rest
      cx.common scope .loop t u span) fun t s' => t.InOrder scope.meanings s' := by
  refine (h.checks hp (by simp)).bind fun t₀ s₁ h₁ ht₀ => ?_
  refine (expectArray_checks ht₀ array.span).bind fun elem s₂ h₂ helem => ?_
  have hs := le_trans h₁ h₂
  refine (h.later hp (by simp) hs ((hp.env.mono hs).bind (hseen elem s₂ helem) x)).bind fun t s₃ h₃ ht => ?_
  have hs' := le_trans hs h₃
  refine (h.later hp (by simp) hs' (hp.env.mono hs')).bind fun u s₄ h₄ hu => ?_
  exact common_checks cx .loop (ht.mono h₄) hu span

private theorem lambda_right {params : List (Name × TyExpr)} {result : Option TyExpr} {body : Expr} :
    RightRule check cx (.lambda params result body) := by
  intro scope env s hp hown h span
  obtain ⟨hps, hresult⟩ := List.forall_mem_append.1 hown
  refine (paramRow_checks hp hps).bind fun ps s₁ h₁ hrow => ?_
  refine (h.later hp (by simp [Term.parts]) h₁ ((hp.env.mono h₁).bindAll hrow)).bind fun t s₂ h₂ ht => ?_
  have hs := le_trans h₁ h₂
  have hrow' : ∀ s', s₂ ≤ s' → ∀ p ∈ ps, p.2.InOrder scope.meanings s' := fun s' h' p hp =>
    (hrow p hp).mono (le_trans h₂ h')
  cases result with
  | none => exact .pure (Ty.inOrder_func.2 ⟨hrow' s₂ (le_refl s₂), ht⟩)
  | some e =>
    have he : ∀ n ∈ e.binders, s₂.AheadOf n := fun n hn => (hresult n (by simpa using hn)).mono hs
    refine (resolve_checks (hp.mono hs) he).bind fun r s₃ h₃ hr => ?_
    refine (expectResult_checks cx hr (ht.mono h₃) span).bind fun _ s₄ h₄ _ => .pure ?_
    exact Ty.inOrder_func.2 ⟨hrow' s₄ (le_trans h₃ h₄), hr.mono h₄⟩

private theorem function_right {f : Name} {params : List (Name × TyExpr)} {result : TyExpr} {body rest : Expr} :
    RightRule check cx (.function f params result body rest) := by
  intro scope env s hp hown h span
  obtain ⟨hps, hresult⟩ := List.forall_mem_append.1 hown
  refine (paramRow_checks hp hps).bind fun ps s₁ h₁ hrow => ?_
  refine (resolve_checks (hp.mono h₁) fun n hn => (hresult n hn).mono h₁).bind fun r s₂ h₂ hr => ?_
  have hs := le_trans h₁ h₂
  have hrow' : ∀ p ∈ ps, p.2.InOrder scope.meanings s₂ := fun p hp => (hrow p hp).mono h₂
  have hfunc : (Ty.func ps r).InOrder scope.meanings s₂ := Ty.inOrder_func.2 ⟨hrow', hr⟩
  refine (h.later hp (by simp [Term.parts]) hs (((hp.env.mono hs).bindAll hrow').bind hfunc f)).bind
    fun t s₃ h₃ ht => ?_
  refine (expectResult_checks cx (hr.mono h₃) ht span).bind fun _ s₄ h₄ _ => ?_
  have hs' := le_trans h₃ h₄
  have hs'' := le_trans hs hs'
  exact h.later hp (by simp [Term.parts]) hs'' ((hp.env.mono hs'').bind (hfunc.mono hs') f)

private theorem call_right {callee : Expr} {args : List Expr} : RightRule check cx (.call callee args) := by
  intro scope env s hp _ h span
  refine (h.checks hp (by simp [Term.parts])).bind fun t s₁ h₁ ht => ?_
  refine (expectFunc_checks ht callee.span).bind fun q s₂ h₂ hq => ?_
  have hs := le_trans h₁ h₂
  have hargs : Rightly check cx args s₂ := fun e he => h.mono hs e (List.mem_cons_of_mem callee he)
  dsimp only
  split
  · refine (args_checks (hp.mono hs) hargs hq.1).bind fun _ s₃ h₃ _ => .pure ?_
    exact hq.2.mono h₃
  · exact .violation _ _

private theorem insert_right {map key item : Expr} : RightRule check cx (.insert map key item) := by
  intro scope env s hp _ h span
  refine (h.checks hp (by simp [Term.parts])).bind fun t s₁ h₁ ht => ?_
  refine (expectMap_checks ht map.span).bind fun elem s₂ h₂ helem => ?_
  have hs := le_trans h₁ h₂
  refine (h.later hp (by simp [Term.parts]) hs (hp.env.mono hs)).bind fun k s₃ h₃ hk => ?_
  refine (expectPrim_checks .string hk key.span).bind fun _ s₄ h₄ _ => ?_
  have hs' := le_trans h₃ h₄
  have hs'' := le_trans hs hs'
  refine (h.later hp (by simp [Term.parts]) hs'' (hp.env.mono hs'')).bind fun u s₅ h₅ hu => ?_
  refine (expectFit_checks cx .item .exact (helem.mono (le_trans hs' h₅)) hu item.span).bind fun _ s₆ h₆ _ => .pure ?_
  exact ht.mono (le_trans h₂ (le_trans hs' (le_trans h₅ h₆)))

private theorem variant_right {label : Name} {inits : List (Name × Expr)} {type : TyExpr} :
    RightRule check cx (.variant label inits type) := by
  intro scope env s hp hown h span
  refine (resolve_checks hp hown).bind fun t s₁ h₁ ht => ?_
  refine (expectUnion_checks ht span).bind fun vs s₂ h₂ hvs => ?_
  refine (expectVariant_checks hvs label span).bind fun row s₃ h₃ hrow => ?_
  have hs' := le_trans h₂ h₃
  have hs := le_trans h₁ hs'
  refine (declaredInits_checks (hp.mono hs) (h.mono hs) span (Ty.inOrder_object.1 hrow).2 []).bind
    fun _ s₄ h₄ _ => .pure ?_
  exact ht.mono (le_trans hs' h₄)

private theorem widen_right {value : Expr} {type : TyExpr} : RightRule check cx (.widen value type) := by
  intro scope env s hp hown h span
  refine (h.checks hp (by simp [Term.parts])).bind fun t s₁ h₁ ht => ?_
  refine (resolve_checks (hp.mono h₁) fun n hn => (hown n hn).mono h₁).bind fun u s₂ h₂ hu => ?_
  refine (expectUnion_checks hu span).bind fun target s₃ h₃ htarget => ?_
  refine (expectUnion_checks (ht.mono (le_trans h₂ h₃)) value.span).bind fun source s₄ h₄ hsource => ?_
  refine (expectVariants_checks cx (htarget.mono h₄) hsource span).bind fun _ s₅ h₅ _ => .pure ?_
  exact hu.mono (le_trans h₃ (le_trans h₄ h₅))

private theorem dispatch_right {x : Name} {clauses : List (Name × Expr)} {fallback : Option Expr} :
    RightRule check cx (.dispatch x clauses fallback) := by
  intro scope env s hp _ h span
  rw [rule]
  cases hbound : env.find? x with
  | none => exact .violation _ _
  | some bound =>
    refine (expectUnion_checks (hp.env.find? hbound) span).bind fun vs s₁ h₁ hvs => ?_
    have hclauses : Rightly check cx (clauses.map Prod.snd) s₁ := fun e he =>
      h.mono h₁ e (List.mem_append_left _ he)
    refine (clauses_checks (hp.mono h₁) hclauses span x hvs [] (by simp)).bind fun sofar s₂ h₂ hsofar => ?_
    have hs := le_trans h₁ h₂
    cases fallback with
    | some body =>
      -- the fallback sees the variants that have no clause
      have hothers := (hvs.mono h₂).union_filter fun v => v.1 ∉ clauses.map Prod.fst
      have hmem : body ∈ (Term.dispatch x clauses (some body)).parts := by simp [Term.parts]
      have hbody := h.later hp hmem hs ((hp.env.mono hs).bind hothers x)
      refine hbody.bind fun t s₃ h₃ ht => ?_
      exact commonClause_checks cx (fun t' e => (hsofar t' e).mono h₃) ht span
    | none =>
      dsimp only
      split
      · refine .pure ?_
        cases sofar with
        | none => exact Ty.inOrder_prim .undefined
        | some t => exact hsofar t rfl
      · exact .violation _ _

private theorem generic_right {params : List Name} {body : Expr} : RightRule check cx (.generic params body) := by
  intro scope env s hp hown h span
  refine (expectDistinct_checks s params span).bind fun _ s₁ h₁ hd => ?_
  refine (Checks.lift (meaningsFor_yields scope hd fun n hn => (hown n hn).mono h₁)).bind fun vars s₂ h₂ hvars => ?_
  obtain ⟨hl, hnodup, hahead⟩ := hvars
  have hs := le_trans h₁ h₂
  -- inside, the meanings of the parameters may occur in types too, and what is outside is shadowed at most
  have hmem : ∀ n, n ∈ (scope.enterParams params vars).meanings ↔ n ∈ vars ++ scope.meanings := fun n =>
    Scope.mem_meanings_enterParams hl
  have hinside : Proper cx (scope.enterParams params vars) env s₂ := by
    refine ⟨fun p hpm => ?_, fun n hn => ?_, (hp.mono hs).aliases⟩
    · exact ((hp.env.mono hs) p hpm).weaken fun n hn => (hmem n).2 (List.mem_append_right vars hn)
    · rcases List.mem_append.1 ((hmem n).1 hn) with hn | hn
      · exact hahead n hn
      · exact (hp.mono hs).scope n hn
  have hbody := Rightly.checks hinside (h.mono hs) (e := body) (by simp [Term.parts])
  refine hbody.bind fun t s₃ h₃ ht => .pure ?_
  exact Ty.inOrder_generic.2 ⟨hnodup, fun n hn => (hahead n hn).mono h₃, ht.weaken fun n hn => (hmem n).1 hn⟩

private theorem instantiate_right {target : Expr} {args : List TyExpr} :
    RightRule check cx (.instantiate target args) := by
  intro scope env s hp hown h span
  refine (h.checks hp (by simp [Term.parts])).bind fun t s₁ h₁ ht => ?_
  refine (expectGeneric_checks ht target.span).bind fun q s₂ h₂ hq => ?_
  obtain ⟨hd, hns, hb⟩ := hq
  have hs := le_trans h₁ h₂
  dsimp only
  split
  · rename_i hl
    have hargs : ∀ a ∈ args, ∀ s', s₂ ≤ s' →
        s'.Checks (cx.resolve scope a) fun t s'' => t.InOrder scope.meanings s'' := by
      intro a ha s' hs'
      have hs'' := le_trans hs hs'
      exact resolve_checks (hp.mono hs'') fun n hn => (hown n (List.mem_flatMap.2 ⟨a, ha, hn⟩)).mono hs''
    refine (Checks.mapM (fun t s' s'' h' ht => ht.mono h') hargs).bind fun ts s₃ h₃ hts => .lift ?_
    exact Ty.instantiate_inOrder (hl.trans hts.1.symm) hd (fun n hn => (hns n hn).mono h₃) (hb.mono h₃) hts.2
  · exact .violation _ _

/-- A rule gives a type in order when the checker is right for the parts. -/
theorem rule_checks {term : Term} (hp : Proper cx scope env s) (hown : ∀ n ∈ term.ownBinders, s.AheadOf n)
    (h : ∀ e ∈ term.parts, check.Right cx e ∧ e.Binds s.AheadOf) (span : Span) :
    s.Checks (check.rule cx scope env span term) fun t s' => t.InOrder scope.meanings s' := by
  have h : Rightly check cx term.parts s := h
  have hprim : ∀ p s', (Ty.prim p).InOrder scope.meanings s' := fun p s' => Ty.inOrder_prim p
  cases term with
  | lit v => cases v <;> exact .pure (hprim _ _)
  | not e =>
    refine (h.checks hp (by simp [Term.parts])).bind fun t s₁ h₁ ht => ?_
    exact (expectPrim_checks .boolean ht e.span).bind fun _ s₂ _ _ => .pure (hprim _ _)
  | compare op l r =>
    refine (h.checks hp (by simp [Term.parts])).bind fun t s₁ h₁ ht => ?_
    refine (h.later hp (by simp [Term.parts]) h₁ (hp.env.mono h₁)).bind fun u s₂ h₂ hu => ?_
    exact (expectFit_checks cx .operands .exact (ht.mono h₂) hu span).bind fun _ s₃ _ _ => .pure (hprim _ _)
  | cond _ _ _ => exact cond_right hp hown h span
  | add l r =>
    refine (h.checks hp (by simp [Term.parts])).bind fun t s₁ h₁ ht => ?_
    refine (expectPrim_checks .number ht l.span).bind fun _ s₂ h₂ _ => ?_
    have hs := le_trans h₁ h₂
    refine (h.later hp (by simp [Term.parts]) hs (hp.env.mono hs)).bind fun u s₃ h₃ hu => ?_
    exact (expectPrim_checks .number hu r.span).bind fun _ s₄ _ _ => .pure (hprim _ _)
  | var x =>
    rw [rule]
    cases hx : env.find? x with
    | some t => exact .pure (hp.env.find? hx)
    | none => exact .violation _ _
  | lambda _ _ _ => exact lambda_right hp hown h span
  | call _ _ => exact call_right hp hown h span
  | seq first rest =>
    refine (h.checks hp (by simp [Term.parts])).bind fun _ s₁ h₁ _ => ?_
    exact h.later hp (by simp [Term.parts]) h₁ (hp.env.mono h₁)
  | bind x value rest =>
    refine (h.checks hp (by simp [Term.parts])).bind fun t s₁ h₁ ht => ?_
    exact h.later hp (by simp [Term.parts]) h₁ ((hp.env.mono h₁).bind ht x)
  | assign x value =>
    rw [rule]
    cases hbound : env.find? x with
    | none => exact .violation _ _
    | some bound =>
      refine (h.checks hp (by simp [Term.parts])).bind fun t s₁ h₁ ht => ?_
      have hb := (hp.env.mono h₁).find? hbound
      exact (expectFit_checks cx .assignment _ hb ht value.span).bind fun _ s₂ h₂ _ => .pure (ht.mono h₂)
  | forIndex array index body rest =>
    exact loop_checks hp h (fun _ => .number) (fun _ _ _ => Ty.inOrder_prim .number) index span
  | forItem array item body rest => exact loop_checks hp h id (fun _ _ h => h) item span
  | emptyArray type =>
    refine (resolve_checks hp hown).bind fun t s₁ h₁ ht => ?_
    exact (expectArray_checks ht span).bind fun _ s₂ h₂ _ => .pure (ht.mono h₂)
  | append array item =>
    refine (h.checks hp (by simp [Term.parts])).bind fun t s₁ h₁ ht => ?_
    refine (expectArray_checks ht array.span).bind fun elem s₂ h₂ helem => ?_
    have hs := le_trans h₁ h₂
    refine (h.later hp (by simp [Term.parts]) hs (hp.env.mono hs)).bind fun u s₃ h₃ hu => ?_
    refine (expectFit_checks cx .item .exact (helem.mono h₃) hu item.span).bind fun _ s₄ h₄ _ => .pure ?_
    exact ht.mono (le_trans h₂ (le_trans h₃ h₄))
  | emptyMap type =>
    refine (resolve_checks hp hown).bind fun t s₁ h₁ ht => ?_
    exact (expectMap_checks ht span).bind fun _ s₂ h₂ _ => .pure (ht.mono h₂)
  | copyMap map =>
    refine (h.checks hp (by simp [Term.parts])).bind fun t s₁ h₁ ht => ?_
    exact (expectMap_checks ht map.span).bind fun _ s₂ h₂ _ => .pure (ht.mono h₂)
  | insert _ _ _ => exact insert_right hp hown h span
  | hasKey map key =>
    refine (h.checks hp (by simp [Term.parts])).bind fun t s₁ h₁ ht => ?_
    refine (expectMap_checks ht map.span).bind fun _ s₂ h₂ _ => ?_
    have hs := le_trans h₁ h₂
    refine (h.later hp (by simp [Term.parts]) hs (hp.env.mono hs)).bind fun k s₃ h₃ hk => ?_
    exact (expectPrim_checks .string hk key.span).bind fun _ s₄ _ _ => .pure (hprim _ _)
  | index base index =>
    refine (h.checks hp (by simp [Term.parts])).bind fun t s₁ h₁ ht => ?_
    refine (h.later hp (by simp [Term.parts]) h₁ (hp.env.mono h₁)).bind fun i s₂ h₂ hi => ?_
    exact item_checks (ht.mono h₂) hi base.span index.span
  | object inits =>
    refine (inits_checks hp h span []).bind fun row s₁ h₁ hrow => .pure ?_
    exact Ty.inOrder_object.2 ⟨hrow.1, hrow.2.2⟩
  | property base name =>
    refine (h.checks hp (by simp [Term.parts])).bind fun t s₁ h₁ ht => ?_
    exact property_checks ht name base.span span
  | variant _ _ _ => exact variant_right hp hown h span
  | widen _ _ => exact widen_right hp hown h span
  | dispatch _ _ _ => exact dispatch_right hp hown h span
  | function _ _ _ _ _ => exact function_right hp hown h span
  | generic _ _ => exact generic_right hp hown h span
  | instantiate _ _ => exact instantiate_right hp hown h span

end Checker

end Rules

/-! ### Expressions -/

/-- Checking gives types in order for every expression. -/
theorem Expr.typeIn_right (cx : Context) (e : Expr) : Checker.Right (typeIn cx) cx e := by
  induction e using Expr.induct with
  | mk span term ih =>
    intro scope env s hp hb
    cases hb with
    | mk own parts =>
      rw [typeIn_mk]
      exact Checker.rule_checks hp own (fun e he => ⟨ih e he, parts e he⟩) span

namespace Call

/-- The environment of the call is in order for its scope, and the supply is ahead of all names in play. -/
def Proper (cx : Context) (c : Call) : Prop :=
  MuTypes.Proper cx c.scope c.env c.supply ∧ c.expr.Binds c.supply.AheadOf

open Classical in
/-- The checker that fails at the given call, and otherwise gives types. -/
private noncomputable def failing (cx : Context) (q : Call) : Checker := fun scope env e =>
  ExceptT.mk fun s =>
    if ⟨scope, env, e, s⟩ = q then (.error (.halt (.unscoped "" "")), s) else (e.typeIn cx scope env).run.run s

/-- When a call is proper, then so is every call that its rule makes. -/
theorem Proper.calls {cx : Context} {p q : Call} (hp : p.Proper cx) (h : Calls cx p q) : q.Proper cx := by
  by_contra hq
  -- as the call is not proper, a checker that fails there is right for all expressions
  have hright : ∀ e, (failing cx q).Right cx e := by
    intro e scope env s hproper hb
    have hne : (⟨scope, env, e, s⟩ : Call) ≠ q := by
      rintro rfl
      exact hq ⟨hproper, hb⟩
    have hsame : ((failing cx q) scope env e).run.run s = (e.typeIn cx scope env).run.run s := if_neg hne
    unfold Checks Yields
    rw [hsame]
    exact Expr.typeIn_right cx e scope env s hproper hb
  have hfails : (p.ruleOutcome (failing cx q) cx).1 = .error (.halt (.unscoped "" "")) :=
    h _ _ (fun c hc => if_neg hc) (congrArg Prod.fst (if_pos rfl))
  obtain ⟨scope, env, ⟨span, term⟩, s⟩ := p
  obtain ⟨hproper, hb⟩ := hp
  cases hb with
  | mk own parts =>
    have hrule := Checker.rule_checks hproper own (fun e he => ⟨hright e, parts e he⟩) span
    exact hrule.2.2 _ hfails "" "" rfl

theorem Proper.calls_all {cx : Context} {p q : Call} (hp : p.Proper cx) (h : Relation.ReflTransGen (Calls cx) p q) :
    q.Proper cx := by
  induction h with
  | refl => exact hp
  | tail _ hc ih => exact ih.calls hc

theorem Proper.checks {cx : Context} {c : Call} (hc : c.Proper cx) :
    c.supply.Checks (c.expr.typeIn cx c.scope c.env) fun t s => t.InOrder c.scope.meanings s :=
  Expr.typeIn_right cx c.expr c.scope c.env c.supply hc.1 hc.2

end Call

end MuTypes
