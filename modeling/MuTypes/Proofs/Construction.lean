import MuTypes.Proofs.Reruns
import MuTypes.Proofs.Widening

/-!
# Constructing a variant and widening one

A variant can be constructed at once as a value of a union type, or a value of the union of this one variant can be
widened to that type.  Construction goes through what is given and asks whether it is declared, and with a type that
fits (`Supplies`, `Expr.construct_eq_ok_iff`).  Widening asks this and the converse (`takes_iff_supplies`).  So what is
accepted by widening is accepted by construction, and a construction that is accepted leaves out declared properties
just when widening refuses (`Expr.widen_iff_construct`, `constructs_without_property`).

The two checks start from supplies of their own, and so does each of the checks that give the types of the properties.
Their types differ in the numbers of drawn names, which do not matter for the answers (`Renumbered`).
-/

namespace MuTypes

open NameSupply
open Ty (renameRow renameVariants)

/-! ### What is supplied -/

/-- The target declares the variant, and each property given for it, with a type that fits. -/
def Supplies (names : List Name) (target : Variants) (v : Name × Row) : Prop :=
  ∃ declared, target.lookup v.1 = some declared ∧ ∀ p ∈ v.2, Declared names declared p

section Supplies

variable {names : List Name} {target target' : Variants} {v : Name × Row}

/-- Widening asks for what construction asks for, and that no declared property is left out. -/
theorem takes_iff_supplies : Takes names target v ↔
    Supplies names target v ∧
      ∀ declared, target.lookup v.1 = some declared → ∀ q ∈ declared, q.1 ∈ v.2.map Prod.fst := by
  constructor
  · rintro ⟨row, hrow, hgiven, hdeclared⟩
    refine ⟨⟨row, hrow, hgiven⟩, fun declared h => ?_⟩
    obtain rfl := Option.some.inj (hrow.symm.trans h)
    exact hdeclared
  · rintro ⟨⟨row, hrow, hgiven⟩, hdeclared⟩
    exact ⟨row, hrow, hgiven, hdeclared row hrow⟩

private theorem declared_rename_iff {k d : Nat} {f : Name → Name} (hf : Shifts k d f)
    (hnames : ∀ n ∈ names, (⟨k⟩ : NameSupply).AheadOf n) {row : Row} {p : Name × Ty} :
    Declared names (renameRow f row) p ↔ Declared names row p := by
  rw [Declared, Declared, Ty.lookup_renameRow]
  cases row.lookup p.1 with
  | none => simp
  | some t => simp [Ty.answers_rename_expected_iff hf hnames]

private theorem takes_rename_iff {k d : Nat} {f : Name → Name} (hf : Shifts k d f)
    (hnames : ∀ n ∈ names, (⟨k⟩ : NameSupply).AheadOf n) :
    Takes names (renameVariants f target) v ↔ Takes names target v := by
  rw [Takes, Takes, Ty.lookup_renameVariants]
  cases target.lookup v.1 with
  | none => simp
  | some row =>
    simp only [Option.map_some, Option.some.injEq, exists_eq_left']
    refine and_congr (forall₂_congr fun p _ => declared_rename_iff hf hnames) ?_
    rw [Ty.renameRow_eq_map, List.forall_mem_map]

theorem Renumbered.takes_iff (h : Renumbered names renameVariants target target') :
    Takes names target' v ↔ Takes names target v :=
  h.congr (P := fun vs => Takes names vs v) fun _ _ _ hf hnames _ => takes_rename_iff hf hnames

end Supplies

/-! ### Construction -/

/-- The initialisers have distinct names, and those of the row; and each value has the type in the row when it is
checked from some supply that is ahead of all names in play. -/
structure Initialises (cx : Context) (scope : Scope) (env : Env) (inits : List (Name × Expr)) (row : Row) : Prop where
  distinct : (inits.map Prod.fst).Nodup
  values : List.Forall₂ (fun i p => i.1 = p.1 ∧ ∃ s s', Call.Proper cx ⟨scope, env, i.2, s⟩ ∧
    (i.2.typeIn cx scope env).run.run s = (.ok p.2, s')) inits row

theorem NameSupply.Ends.of_run {α β : Type} {s s₁ : NameSupply} {m : CheckM α} {k : α → CheckM β} {Q : β → Prop}
    {E : Diagnostic → Prop} {a : α} (h : m.run.run s = (.ok a, s₁)) (hs : s ≤ s₁) (hk : s₁.Ends (k a) Q E) :
    s.Ends (m >>= k) Q E := by
  unfold Ends Yields
  rw [run_bind_of_ok h]
  exact ⟨le_trans hs hk.1, hk.2⟩

section Construction

variable {cx : Context} {scope : Scope} {env : Env} {label : Name} {inits : List (Name × Expr)} {type : TyExpr}
  {row : Row} {span : Span} {s s₁ s₂ : NameSupply} {t : Ty} {vs : Variants}

theorem Initialises.names (h : Initialises cx scope env inits row) : row.map Prod.fst = inits.map Prod.fst := by
  obtain ⟨-, hvalues⟩ := h
  induction hvalues with
  | nil => rfl
  | cons hfirst _ ih => rw [List.map_cons, List.map_cons, hfirst.1, ih]

/-- The loop over the initialisers accepts just when all that is given is declared with a type that fits. -/
private theorem declaredInits_ends {declared : Row} {seen : List Name} (hs : Proper cx scope env s)
    (hbinds : ∀ e ∈ inits.map Prod.snd, e.Binds s.AheadOf) (hd : ∀ q ∈ declared, q.2.InOrder scope.meanings s)
    (hinits : Initialises cx scope env inits row) (hseen : ∀ n ∈ inits.map Prod.fst, n ∉ seen) :
    s.Ends (Checker.declaredInits (Expr.typeIn cx) cx scope env span declared seen inits)
      (fun _ => ∀ p ∈ row, Declared scope.meanings declared p)
      fun _ => ¬ ∀ p ∈ row, Declared scope.meanings declared p := by
  obtain ⟨hdistinct, hvalues⟩ := hinits
  induction hvalues generalizing s seen with
  | nil => exact .pure (List.forall_mem_nil _)
  | @cons i p inits row hfirst hrest ih =>
    obtain ⟨n, e⟩ := i
    obtain ⟨rfl, r, r', hr, hrun⟩ : n = p.1 ∧ _ := hfirst
    obtain ⟨hfresh, hdistinct⟩ := List.nodup_cons.1 hdistinct
    obtain ⟨hnew, hseen⟩ := List.forall_mem_cons.1 hseen
    obtain ⟨hbind, hbinds⟩ := List.forall_mem_cons.1 hbinds
    rw [Checker.declaredInits, if_neg hnew]
    refine (expectProperty_ends.mono (fun _ hu => hu) fun d hfault hall => ?_).bind fun u s₁ h₁ hu => ?_
    · obtain ⟨u, hu, -⟩ := hall p List.mem_cons_self
      rw [hfault.1] at hu
      cases hu
    -- the value has the type in the row, up to numbers
    have hproper : Call.Proper cx ⟨scope, env, e, s₁⟩ := ⟨hs.mono h₁, hbind.mono fun _ hn => hn.mono h₁⟩
    obtain ⟨a, s₂, ha, hrenumbered⟩ := Call.outcome_again hr hproper hrun
    obtain ⟨h₂, hin⟩ := hproper.checks.of_ok ha
    have hu' := (hd _ (mem_of_lookup hu)).mono (le_trans h₁ h₂)
    have hahead : Ty.Ahead s₂ scope.meanings u a :=
      ⟨fun m hm => (hs.scope m hm).mono (le_trans h₁ h₂), hu'.ahead, hin.ahead⟩
    refine .of_run ha h₂ (((expectFit_ends hahead).mono (fun _ hyes => hyes) fun d hfault hall => ?_).bind
      fun _ s₃ h₃ hyes => ?_)
    · obtain ⟨u', hlookup, hyes⟩ := hall p List.mem_cons_self
      obtain rfl := Option.some.inj (hu.symm.trans hlookup)
      cases hyes.unique (hrenumbered.answers_actual_iff.1 hfault.1)
    · have hle := le_trans h₁ (le_trans h₂ h₃)
      have hfirst : Declared scope.meanings declared p := ⟨u, hu, hrenumbered.answers_actual_iff.1 hyes⟩
      refine (ih (hs.mono hle) (fun e he => (hbinds e he).mono fun _ hn => hn.mono hle) (fun q hq => (hd q hq).mono hle)
        (fun m hm hmem => ?_) hdistinct).mono (fun _ hall => List.forall_mem_cons.2 ⟨hfirst, hall⟩)
        fun d hnot hall => hnot (List.forall_mem_cons.1 hall).2
      rcases List.mem_cons.1 hmem with rfl | hmem
      · exact hfresh hm
      · exact hseen m hm hmem

/-- The rule resolves the annotation, unrolls its type and goes through the initialisers. -/
theorem Expr.run_construct (ht : (cx.resolve scope type).run.run s = (.ok t, s₁))
    (hvs : t.unroll.run s₁ = (some (.union vs), s₂)) :
    ((Expr.mk span (.variant label inits type)).typeIn cx scope env).run.run s =
      (do
        let declared ← expectVariant vs label span
        Checker.declaredInits (typeIn cx) cx scope env span declared [] inits
        return t : CheckM Ty).run.run s₂ := by
  rw [typeIn_mk, Checker.rule, run_bind_of_ok ht, run_bind_of_ok (expectUnion_eq_ok_iff.2 hvs)]

variable {o : Except Failure Ty}

/-- When the comparisons return, then construction is accepted just when all that is given is declared with a type that
fits. -/
theorem Expr.construct_eq_ok_iff (hcall : Call.Proper cx ⟨scope, env, .mk span (.variant label inits type), s⟩)
    (hinits : Initialises cx scope env inits row) (ht : (cx.resolve scope type).run.run s = (.ok t, s₁))
    (hvs : t.unroll.run s₁ = (some (.union vs), s₂))
    (ho : (Call.outcome (typeIn cx) ⟨scope, env, .mk span (.variant label inits type), s⟩).1 = o)
    (hreturns : ∀ h, o ≠ .error (.halt h)) :
    (∃ u, o = .ok u) ↔ Supplies scope.meanings vs (label, row) := by
  obtain ⟨hproper, ⟨hown, hparts⟩⟩ := hcall
  obtain ⟨h₁, hin⟩ := (resolve_checks hproper hown).of_ok ht
  obtain ⟨h₂, hunion⟩ := (expectUnion_checks hin span).of_ok (expectUnion_eq_ok_iff.2 hvs)
  have hle := le_trans h₁ h₂
  rw [Call.outcome, Expr.run_construct ht hvs] at ho
  refine Ends.ok_iff ?_ ho hreturns
  refine (expectVariant_ends.mono (fun _ hrow => hrow) fun d hfault hall => ?_).bind fun declared s₃ h₃ hrow => ?_
  · obtain ⟨declared, hrow, -⟩ := hall
    rw [hfault.1] at hrow
    cases hrow
  · have hle' := le_trans hle h₃
    have hd : ∀ q ∈ declared, q.2.InOrder scope.meanings s₃ := fun q hq =>
      ((Ty.inOrder_object.1 ((Ty.inOrder_union.1 hunion).2 _ (mem_of_lookup hrow))).2 q hq).mono h₃
    refine ((declaredInits_ends (hproper.mono hle') (fun e he => (hparts e he).mono fun _ hn => hn.mono hle') hd hinits
      fun _ _ => List.not_mem_nil).mono (fun _ hall => hall) fun d hnot hall => ?_).bind fun _ s₄ _ hall => ?_
    · obtain ⟨declared', hrow', hall⟩ := hall
      obtain rfl := Option.some.inj (hrow.symm.trans hrow')
      exact hnot hall
    · exact .pure ⟨declared, hrow, hall⟩

end Construction

/-! ### Both ways -/

section Both

variable {cx : Context} {scope : Scope} {env env' : Env} {label y : Name} {inits : List (Name × Expr)} {row : Row}
  {type : TyExpr} {t : Ty} {vs : Variants} {span span' varSpan : Span} {s s' s₁ s₂ : NameSupply}
  {o o' : Except Failure Ty}

/-- Properties are given for a variant, by initialisers or by the type of a variable, which is the union of this
variant.  When the comparisons return, then the construction is accepted just when all that is given is declared with a
type that fits.  The variable can be widened just when the construction is accepted and all that is declared is
given. -/
theorem Expr.widen_iff_construct (hcall : Call.Proper cx ⟨scope, env, .mk span (.variant label inits type), s⟩)
    (hcall' : Call.Proper cx ⟨scope, env', .mk span' (.widen (.mk varSpan (.var y)) type), s'⟩)
    (hinits : Initialises cx scope env inits row) (hy : env'.find? y = some (.union [(label, row)]))
    (ht : (cx.resolve scope type).run.run s = (.ok t, s₁)) (hvs : t.unroll.run s₁ = (some (.union vs), s₂))
    (ho : (Call.outcome (typeIn cx) ⟨scope, env, .mk span (.variant label inits type), s⟩).1 = o)
    (ho' : (Call.outcome (typeIn cx) ⟨scope, env', .mk span' (.widen (.mk varSpan (.var y)) type), s'⟩).1 = o')
    (hreturns : ∀ h, o ≠ .error (.halt h)) (hreturns' : ∀ h, o' ≠ .error (.halt h)) :
    ((∃ u, o = .ok u) ↔ Supplies scope.meanings vs (label, row)) ∧
    ((∃ u, o' = .ok u) ↔ (∃ u, o = .ok u) ∧
      ∀ declared, vs.lookup label = some declared → ∀ q ∈ declared, q.1 ∈ inits.map Prod.fst) := by
  have hconstruct := Expr.construct_eq_ok_iff hcall hinits ht hvs ho hreturns
  refine ⟨hconstruct, ?_⟩
  -- the annotation means the same for the variable, up to numbers
  obtain ⟨hproper', ⟨hown', -⟩⟩ := hcall'
  have hresolvable : Resolvable cx scope type s := ⟨hcall.1.scope, hcall.1.aliases, by
    obtain ⟨-, ⟨hown, -⟩⟩ := hcall
    exact hown⟩
  have hresolvable' : Resolvable cx scope type s' := ⟨hproper'.scope, hproper'.aliases, hown'⟩
  have hunion : (cx.resolve scope type >>= fun t => t.expectUnion span').run.run s = (.ok vs, s₂) := by
    rw [run_bind_of_ok ht]
    exact expectUnion_eq_ok_iff.2 hvs
  obtain ⟨vs', s₂', hunion', hrenumbered⟩ := resolveUnion_again span' hresolvable hresolvable' hunion
  obtain ⟨t', s₁', ht', hvs'⟩ := run_bind_eq_ok hunion'
  obtain ⟨h₁, hin⟩ := (resolve_checks hproper' hown').of_ok ht'
  obtain ⟨h₂, htarget⟩ := (expectUnion_checks hin span').of_ok hvs'
  have hle := le_trans h₁ h₂
  have hvalue : ((Expr.mk varSpan (.var y)).typeIn cx scope env').run.run s' = (.ok (.union [(label, row)]), s') := by
    rw [typeIn_mk, Checker.rule, hy]
    rfl
  have hahead : Ty.Ahead s₂' scope.meanings (.union vs') (.union [(label, row)]) :=
    ⟨fun n hn => (hproper'.scope n hn).mono hle, htarget.ahead, ((hproper'.env.find? hy).mono hle).ahead⟩
  rw [Expr.widen_eq_ok_iff hvalue ht' (expectUnion_eq_ok_iff.1 hvs') rfl hahead ho' hreturns',
    List.forall_mem_singleton, hrenumbered.takes_iff, takes_iff_supplies, hconstruct, hinits.names]

/-- `type S = | { tag: "empty" } | { tag: "push"; top: number; rest: S }` -/
private def stackContext : Context where
  aliases := [
    { name := "S", params := none, span := ⟨3, 4⟩
      body := .mk ⟨2, 3⟩ (.union [("empty", []),
        ("push", [("top", .mk ⟨0, 1⟩ (.prim .number)), ("rest", .mk ⟨1, 2⟩ (.ref "S"))])]) }]

private def stackTy : Ty :=
  .mu "S" (.union [("empty", []), ("push", [("top", .number), ("rest", .var "S")])])

private def stackVariants : Variants :=
  [("empty", []), ("push", [("top", .number), ("rest", stackTy)])]

private def pushRow : Row :=
  [("rest", stackTy), ("top", .number)]

/-- `{ tag: "push"; rest: s; top: 1 } as S` in an environment with `s: S` -/
private def pushCall : Call :=
  ⟨[], Env.empty.bind "s" stackTy, .mk ⟨7, 8⟩ (.variant "push"
    [("rest", .mk ⟨4, 5⟩ (.var "s")), ("top", .mk ⟨5, 6⟩ (.lit .number))] (.mk ⟨6, 7⟩ (.ref "S"))), {}⟩

/-- `y as S` in an environment with `y: | { tag: "push"; rest: S; top: number }` -/
private def pushedCall : Call :=
  ⟨[], Env.empty.bind "y" (.union [("push", pushRow)]),
    .mk ⟨9, 10⟩ (.widen (.mk ⟨8, 9⟩ (.var "y")) (.mk ⟨6, 7⟩ (.ref "S"))), {}⟩

/-- With all properties given, both ways are accepted, whatever their order is. -/
theorem widen_iff_construct_push :
    (pushCall.outcome (Expr.typeIn stackContext)).1 = .ok stackTy ∧
    (pushedCall.outcome (Expr.typeIn stackContext)).1 = .ok stackTy ∧
    Supplies [] stackVariants ("push", pushRow) ∧
    ∀ declared, stackVariants.lookup "push" = some declared → ∀ q ∈ declared, q.1 ∈ ["rest", "top"] := by
  have haliases : stackContext.aliases.Unnumbered := by
    simp [Aliases.Unnumbered, stackContext, TyExpr.Unnumbered, TyExpr.binders, TyExpr.bindersForm,
      TyExpr.bindersVariants, TyExpr.bindersRow]
  have hvalue : (Expr.mk ⟨4, 5⟩ (.var "s")).Unnumbered := .leaf rfl rfl
  have htop : (Expr.mk ⟨5, 6⟩ (.lit .number)).Unnumbered := .leaf rfl rfl
  have hpush : pushCall.expr.Unnumbered :=
    .mk (by simp [Term.ownBinders, TyExpr.binders, TyExpr.bindersForm])
      (List.forall_mem_cons.2 ⟨hvalue, List.forall_mem_singleton.2 htop⟩)
  have hpushed : pushedCall.expr.Unnumbered :=
    .mk (by simp [Term.ownBinders, TyExpr.binders, TyExpr.bindersForm])
      (List.forall_mem_singleton.2 (.leaf rfl rfl))
  have henv : pushCall.env.Unnumbered := unnumbered_of_freeNames (by decide)
  have henv' : pushedCall.env.Unnumbered := unnumbered_of_freeNames (by decide)
  have hinits : Initialises stackContext [] pushCall.env
      [("rest", .mk ⟨4, 5⟩ (.var "s")), ("top", .mk ⟨5, 6⟩ (.lit .number))] pushRow :=
    ⟨by decide, .cons ⟨rfl, {}, {}, Call.proper_of_unnumbered haliases henv hvalue {}, by cbv⟩
      (.cons ⟨rfl, {}, {}, Call.proper_of_unnumbered haliases henv htop {}, by cbv⟩ .nil)⟩
  have ht : (stackContext.resolve [] (.mk ⟨6, 7⟩ (.ref "S"))).run.run {} = (.ok stackTy, {}) := by cbv
  have hvs : stackTy.unroll.run {} = (some (.union stackVariants), {}) := by cbv
  have ho : (pushCall.outcome (Expr.typeIn stackContext)).1 = .ok stackTy := by cbv
  have ho' : (pushedCall.outcome (Expr.typeIn stackContext)).1 = .ok stackTy := by cbv
  obtain ⟨hconstruct, hwiden⟩ := Expr.widen_iff_construct (Call.proper_of_unnumbered haliases henv hpush {})
    (Call.proper_of_unnumbered haliases henv' hpushed {}) hinits rfl ht hvs ho ho' (fun _ => by simp) (fun _ => by simp)
  exact ⟨ho, ho', hconstruct.1 ⟨_, rfl⟩, (hwiden.1 ⟨_, rfl⟩).2⟩

/-- `| { tag: "a"; p: number }` -/
private def pointExpr : TyExpr :=
  .mk ⟨1, 2⟩ (.union [("a", [("p", .mk ⟨0, 1⟩ (.prim .number))])])

private def pointTy : Ty :=
  .union [("a", [("p", .number)])]

/-- `{ tag: "a" } as | { tag: "a"; p: number }` -/
private def bareCall : Call :=
  ⟨[], .empty, .mk ⟨2, 3⟩ (.variant "a" [] pointExpr), {}⟩

/-- `y as | { tag: "a"; p: number }` in an environment with `y: | { tag: "a" }` -/
private def barelyCall : Call :=
  ⟨[], Env.empty.bind "y" (.union [("a", [])]), .mk ⟨3, 4⟩ (.widen (.mk ⟨2, 3⟩ (.var "y")) pointExpr), {}⟩

/-- A variant is constructed without a property that is declared, and the property can be read later.  What has no such
property cannot be widened. -/
theorem constructs_without_property :
    Initialises {} [] .empty [] [] ∧
    (bareCall.outcome (Expr.typeIn {})).1 = .ok pointTy ∧
    ((Expr.mk ⟨5, 6⟩ (.bind "x" bareCall.expr (.mk ⟨4, 5⟩ (.property (.mk ⟨3, 4⟩ (.var "x")) "p")))).typeOf {}
      .empty).result = .ok .number ∧
    (barelyCall.outcome (Expr.typeIn {})).1 = .error (.rule ⟨.unknownProperty "p", ⟨3, 4⟩⟩) :=
  ⟨⟨List.nodup_nil, .nil⟩, by cbv, by cbv, by cbv⟩

end Both

end MuTypes
