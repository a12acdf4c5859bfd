import MuTypes.Proofs.Renaming.Resolution
import MuTypes.Proofs.Typing

/-!
# Checking with renamed types

Checking commutes with shifting drawn names: where the types of variables are renamed and the scope has renamed
meanings, an expression has the renamed type, or fails at the same place with the same failure about renamed types
(`Expr.typeIn_commutes`).  The renaming has to keep the names that the expression and the aliases bind.
-/

namespace MuTypes

open Ty (renameRow renameVariants)

variable {k d : Nat} {f : Name → Name}

/-! ### Questions about shapes -/

section Shapes

variable (hf : Shifts k d f)
include hf

theorem unrolled_commutes (t : Ty) :
    Commutes k d f (Ty.rename f) (liftM t.unrolled : CheckM Ty) (liftM (t.rename f).unrolled : CheckM Ty) :=
  .compare (Ty.unrolled_alongside hf t)

theorem expectPrim_commutes (p : Prim) (t : Ty) (span : Span) :
    Commutes k d f id (t.expectPrim p span) ((t.rename f).expectPrim p span) := by
  refine (unrolled_commutes hf t).bind fun t' => ?_
  exact .ite Ty.rename_eq_prim_iff (.pure rfl) (.violation span rfl)

theorem expectArray_commutes (t : Ty) (span : Span) :
    Commutes k d f (Ty.rename f) (t.expectArray span) ((t.rename f).expectArray span) := by
  refine (unrolled_commutes hf t).bind fun t' => ?_
  cases t' with
  | container kind e =>
    cases kind with
    | array => exact .pure rfl
    | _ => exact .violation span rfl
  | _ => exact .violation span rfl

theorem expectMap_commutes (t : Ty) (span : Span) :
    Commutes k d f (Ty.rename f) (t.expectMap span) ((t.rename f).expectMap span) := by
  refine (unrolled_commutes hf t).bind fun t' => ?_
  cases t' with
  | container kind e =>
    cases kind with
    | map => exact .pure rfl
    | _ => exact .violation span rfl
  | _ => exact .violation span rfl

theorem expectFunc_commutes (t : Ty) (span : Span) :
    Alongside k d (Failure.Renamed f) (fun q q' => q' = (renameRow f q.1, q.2.rename f)) (t.expectFunc span)
      ((t.rename f).expectFunc span) := by
  refine (unrolled_commutes hf t).bind fun t' => ?_
  cases t' with
  | func ps r => exact .pure rfl
  | _ => exact .violation span rfl

theorem expectGeneric_commutes (t : Ty) (span : Span) :
    Alongside k d (Failure.Renamed f) (fun q q' => q' = (q.1.map f, q.2.rename f)) (t.expectGeneric span)
      ((t.rename f).expectGeneric span) := by
  refine (unrolled_commutes hf t).bind fun t' => ?_
  cases t' with
  | generic ns b => exact .pure rfl
  | _ => exact .violation span rfl

theorem expectUnion_commutes (t : Ty) (span : Span) :
    Commutes k d f (renameVariants f) (t.expectUnion span) ((t.rename f).expectUnion span) := by
  refine (unrolled_commutes hf t).bind fun t' => ?_
  cases t' with
  | union vs => exact .pure rfl
  | _ => exact .violation span rfl

omit hf in
theorem expectProperty_commutes (row : Row) (name : Name) (span : Span) :
    Commutes k d f (Ty.rename f) (expectProperty row name span) (expectProperty (renameRow f row) name span) := by
  unfold expectProperty
  rw [Ty.lookup_renameRow]
  cases row.lookup name with
  | none => exact .violation span rfl
  | some t => exact .pure rfl

omit hf in
theorem expectVariant_commutes (vs : Variants) (label : Name) (span : Span) :
    Commutes k d f (renameRow f) (expectVariant vs label span) (expectVariant (renameVariants f vs) label span) := by
  unfold expectVariant
  rw [Ty.lookup_renameVariants]
  cases vs.lookup label with
  | none => exact .violation span rfl
  | some row => exact .pure rfl

theorem property_commutes (t : Ty) (name : Name) (baseSpan span : Span) :
    Commutes k d f (Ty.rename f) (t.property name baseSpan span) ((t.rename f).property name baseSpan span) := by
  refine (unrolled_commutes hf t).bind fun t' => ?_
  cases t' with
  | object row => exact expectProperty_commutes row name span
  | union vs =>
    refine .ite Iff.rfl (.pure rfl) ?_
    match vs with
    | [] => exact .violation span rfl
    | [(l, row)] => exact expectProperty_commutes row name span
    | _ :: _ :: _ => exact .violation span rfl
  | container kind e =>
    cases kind with
    | array => exact expectProperty_commutes (arrayRow e) name span
    | _ => exact .violation baseSpan rfl
  | _ => exact .violation baseSpan rfl

theorem item_commutes (t index : Ty) (baseSpan indexSpan : Span) :
    Commutes k d f (Ty.rename f) (t.item index baseSpan indexSpan)
      ((t.rename f).item (index.rename f) baseSpan indexSpan) := by
  refine (unrolled_commutes hf t).bind fun t' => ?_
  cases t' with
  | container kind e =>
    cases kind with
    | array => exact (expectPrim_commutes hf .number index indexSpan).bind fun _ => .pure rfl
    | map => exact (expectPrim_commutes hf .string index indexSpan).bind fun _ => .pure rfl
    | option => exact .violation baseSpan rfl
  | _ => exact .violation baseSpan rfl

end Shapes

/-! ### Questions about fitting -/

section Agreement

variable (hf : Shifts k d f) (cx : Context) (scope : Scope)
include hf

theorem fits_commutes (fit : Fit) (e a : Ty) :
    Commutes k d f id (cx.fits scope fit e a) (cx.fits (scope.rename f) fit (e.rename f) (a.rename f)) := by
  unfold Context.fits
  rw [Scope.meanings_rename]
  exact .compare (Ty.fits_alongside hf cx.fuel scope.meanings fit e a)

theorem expectFit_commutes (site : Site) (fit : Fit) (e a : Ty) (span : Span) :
    Commutes k d f id (cx.expectFit scope site fit e a span)
      (cx.expectFit (scope.rename f) site fit (e.rename f) (a.rename f) span) := by
  refine (fits_commutes hf cx scope fit e a).bind fun b => ?_
  exact .ite Iff.rfl (.pure rfl) (.violation span rfl)

theorem expectResult_commutes (e a : Ty) (span : Span) :
    Commutes k d f id (cx.expectResult scope e a span)
      (cx.expectResult (scope.rename f) (e.rename f) (a.rename f) span) := by
  refine (fits_commutes hf cx scope .exact e a).bind fun b => ?_
  exact .ite Iff.rfl (.pure rfl) (.violation span rfl)

theorem common_commutes (site : Site) (a b : Ty) (span : Span) :
    Commutes k d f (Ty.rename f) (cx.common scope site a b span)
      (cx.common (scope.rename f) site (a.rename f) (b.rename f) span) := by
  refine (expectFit_commutes hf cx scope site .exact a b span).bind fun _ => .pure ?_
  unfold Ty.orElse
  by_cases h : a = .undefined
  · rw [if_pos h, if_pos (Ty.rename_eq_prim_iff.2 h)]
  · rw [if_neg h, if_neg (mt Ty.rename_eq_prim_iff.1 h)]

theorem commonClause_commutes (sofar : Option Ty) (t : Ty) (span : Span) :
    Commutes k d f (Ty.rename f) (cx.commonClause scope sofar t span)
      (cx.commonClause (scope.rename f) (sofar.map (Ty.rename f)) (t.rename f) span) := by
  cases sofar with
  | none => exact .pure rfl
  | some s => exact common_commutes hf cx scope .clauses s t span

theorem expectRow_commutes (declared given : Row) (span : Span) :
    Commutes k d f id (cx.expectRow scope declared given span)
      (cx.expectRow (scope.rename f) (renameRow f declared) (renameRow f given) span) := by
  unfold Context.expectRow
  have hgiven : ∀ name, ((renameRow f given).lookup name).isNone = (given.lookup name).isNone := by
    intro name
    rw [Ty.lookup_renameRow, Option.isNone_map]
  have hmissing : (renameRow f declared).find? (fun p => ((renameRow f given).lookup p.1).isNone) =
      (declared.find? fun p => (given.lookup p.1).isNone).map fun p => (p.1, p.2.rename f) := by
    simp only [hgiven]
    rw [Ty.renameRow_eq_map, List.find?_map]
    rfl
  rw [hmissing, Ty.renameRow_eq_map given]
  refine Commutes.bind (r := id) (Commutes.forM fun p _ => ?_) fun _ => ?_
  · dsimp only
    exact (expectProperty_commutes declared p.1 span).bind fun t =>
      expectFit_commutes hf cx scope .variant .exact t p.2 span
  · cases declared.find? fun p => (given.lookup p.1).isNone with
    | none => exact .pure rfl
    | some p => exact .violation span rfl

theorem expectVariants_commutes (target source : Variants) (span : Span) :
    Commutes k d f id (cx.expectVariants scope target source span)
      (cx.expectVariants (scope.rename f) (renameVariants f target) (renameVariants f source) span) := by
  unfold Context.expectVariants
  rw [Ty.renameVariants_eq_map source]
  refine Commutes.forM fun v _ => ?_
  exact (expectVariant_commutes target v.1 span).bind fun row => expectRow_commutes hf cx scope row v.2 span

end Agreement

/-! ### Type parameters -/

theorem meaningsFor_parallel (hf : Shifts k d f) (scope : Scope) {params : List Name} (hp : ∀ n ∈ params, f n = n) :
    Parallel k d (fun vars vars' => vars' = vars.map f) (scope.meaningsFor params)
      ((scope.rename f).meaningsFor params) := by
  have hmeaning : ∀ n ∈ params, Parallel k d (fun x x' => x' = f x)
      (if scope.any fun v => v.name = n || v.meaning = n then draw n else return n)
      (if (scope.rename f).any fun v => v.name = n || v.meaning = n then draw n else return n) := by
    intro n hn
    have hany : ((scope.rename f).any fun v => v.name = n || v.meaning = n) =
        scope.any fun v => v.name = n || v.meaning = n := by
      have hmeaning : ∀ m, f m = n ↔ m = n := fun m => by
        rw [← hf.injective.eq_iff (a := m), hp n hn]
      simp only [Scope.rename, List.any_map, Function.comp_def, hmeaning]
    exact .ite (by rw [hany]) (.draw hf rfl) (.pure (hp n hn).symm)
  exact Parallel.mapM (List.forall₂_same.2 hmeaning)

/-! ### Environments -/

namespace Env

/-- The environment with the types of all variables renamed. -/
def rename (f : Name → Name) (env : Env) : Env :=
  ⟨renameRow f env.bindings⟩

theorem find?_rename (env : Env) (x : Name) : (env.rename f).find? x = (env.find? x).map (Ty.rename f) :=
  Ty.lookup_renameRow env.bindings x

theorem rename_bindAll (env : Env) (row : Row) :
    (env.bindAll row).rename f = (env.rename f).bindAll (renameRow f row) := by
  induction row generalizing env with
  | nil => rfl
  | cons p row ih => exact ih (env.bind p.1 p.2)

variable (hf : Shifts k d f) (env : Env)
include hf

theorem defined?_commutes (x : Name) :
    Commutes k d f (Option.map (rename f)) (env.defined? x) ((env.rename f).defined? x) := by
  unfold defined?
  rw [find?_rename]
  cases env.find? x with
  | none => exact .pure rfl
  | some t =>
    refine (unrolled_commutes hf t).bind fun t' => ?_
    cases t' with
    | container kind e =>
      cases kind with
      | option => exact .pure rfl
      | _ => exact .pure rfl
    | _ => exact .pure rfl

theorem split?_commutes (x label : Name) (span : Span) :
    Commutes k d f (Option.map (Prod.map (rename f) (rename f))) (env.split? x label span)
      ((env.rename f).split? x label span) := by
  unfold split?
  rw [find?_rename]
  cases env.find? x with
  | none => exact .pure rfl
  | some t =>
    refine (unrolled_commutes hf t).bind fun t' => ?_
    cases t' with
    | union vs =>
      have hfilter : ∀ p : Name → Bool, (renameVariants f vs).filter (fun v => p v.1) =
          renameVariants f (vs.filter fun v => p v.1) := by
        intro p
        simp only [Ty.renameVariants_eq_map, List.filter_map, Function.comp_def]
      dsimp only [Ty.rename]
      rw [List.partition_eq_filter_filter, List.partition_eq_filter_filter]
      dsimp only [Function.comp_def]
      rw [hfilter fun n => decide (n = label), hfilter fun n => !decide (n = label)]
      refine .ite ?_ (.violation span rfl) (.pure rfl)
      rw [Ty.renameVariants_eq_map, List.isEmpty_map]
    | _ => exact .pure rfl

/-- A test says the same of renamed types. -/
theorem refine?_commutes (test : Expr) :
    Commutes k d f (Option.map (Prod.map (rename f) (rename f))) (env.refine? test) ((env.rename f).refine? test) := by
  unfold refine?
  split
  · exact .pure rfl
  · refine (defined?_commutes hf env _).bind fun o => .pure ?_
    cases o <;> rfl
  · refine (defined?_commutes hf env _).bind fun o => .pure ?_
    cases o <;> rfl
  · exact split?_commutes hf env _ _ _
  · refine (split?_commutes hf env _ _ _).bind fun o => .pure ?_
    cases o <;> rfl

end Env

/-! ### Rules -/

section Rules

variable {check : Checker} {cx : Context}

/-- For the expression the checker commutes with renaming. -/
def Checker.CommutesAt (k d : Nat) (f : Name → Name) (check : Checker) (e : Expr) : Prop :=
  ∀ scope env, Commutes k d f (Ty.rename f) (check scope env e) (check (scope.rename f) (env.rename f) e)

/-- The renaming keeps the names that the aliases bind. -/
theorem resolve_commutes (hf : Shifts k d f) (haliases : cx.aliases.KeptBy f) (scope : Scope) {e : TyExpr}
    (he : ∀ n ∈ e.binders, f n = n) :
    Commutes k d f (Ty.rename f) (cx.resolve scope e) (cx.resolve (scope.rename f) e) :=
  TyExpr.resolve_commutes hf haliases scope he

theorem paramRow_commutes (hf : Shifts k d f) (haliases : cx.aliases.KeptBy f) (scope : Scope)
    {params : List (Name × TyExpr)} (hp : ∀ n ∈ params.flatMap (·.2.binders), f n = n) :
    Commutes k d f (renameRow f) (cx.paramRow scope params) (cx.paramRow (scope.rename f) params) := by
  have hrow : renameRow f = List.map fun p => (p.1, p.2.rename f) := funext Ty.renameRow_eq_map
  rw [hrow]
  refine Commutes.mapM fun p hmem => ?_
  have hbinders : ∀ n ∈ p.2.binders, f n = n := fun n hn => hp n (List.mem_flatMap.2 ⟨p, hmem, hn⟩)
  exact (resolve_commutes hf haliases scope hbinders).bind fun t => .pure rfl

namespace Checker

variable (scope : Scope) (env : Env)

private theorem inits_commutes {es : List (Name × Expr)} (h : ∀ e ∈ es.map Prod.snd, check.CommutesAt k d f e)
    (span : Span) (seen : List Name) :
    Commutes k d f (renameRow f) (check.inits scope env span seen es)
      (check.inits (scope.rename f) (env.rename f) span seen es) := by
  induction es generalizing seen with
  | nil => exact .pure rfl
  | cons e es ih =>
    obtain ⟨he, hes⟩ := List.forall_mem_cons.1 h
    refine .ite Iff.rfl (.violation span rfl) ?_
    exact (he scope env).bind fun t => (ih hes (e.1 :: seen)).bind fun row => .pure rfl

variable (hf : Shifts k d f)
include hf

private theorem args_commutes {es : List Expr} (h : ∀ e ∈ es, check.CommutesAt k d f e) (ps : Row) :
    Commutes k d f id (check.args cx scope env ps es)
      (check.args cx (scope.rename f) (env.rename f) (renameRow f ps) es) := by
  induction es generalizing ps with
  | nil => cases ps <;> exact .pure rfl
  | cons e es ih =>
    obtain ⟨he, hes⟩ := List.forall_mem_cons.1 h
    cases ps with
    | nil => exact .pure rfl
    | cons p ps =>
      exact (he scope env).bind fun t =>
        (expectFit_commutes hf cx scope .argument _ p.2 t e.span).bind fun _ => ih hes ps

private theorem declaredInits_commutes {es : List (Name × Expr)}
    (h : ∀ e ∈ es.map Prod.snd, check.CommutesAt k d f e) (span : Span) (declared : Row) (seen : List Name) :
    Commutes k d f id (check.declaredInits cx scope env span declared seen es)
      (check.declaredInits cx (scope.rename f) (env.rename f) span (renameRow f declared) seen es) := by
  induction es generalizing seen with
  | nil => exact .pure rfl
  | cons e es ih =>
    obtain ⟨he, hes⟩ := List.forall_mem_cons.1 h
    refine .ite Iff.rfl (.violation span rfl) ?_
    exact (expectProperty_commutes declared e.1 span).bind fun p => (he scope env).bind fun t =>
      (expectFit_commutes hf cx scope .variant .exact p t e.2.span).bind fun _ => ih hes (e.1 :: seen)

private theorem clauses_commutes {es : List (Name × Expr)} (h : ∀ e ∈ es.map Prod.snd, check.CommutesAt k d f e)
    (span : Span) (x : Name) (vs : Variants) (seen : List Name) (sofar : Option Ty) :
    Commutes k d f (Option.map (Ty.rename f)) (check.clauses cx scope env span x vs seen sofar es)
      (check.clauses cx (scope.rename f) (env.rename f) span x (renameVariants f vs) seen
        (sofar.map (Ty.rename f)) es) := by
  induction es generalizing seen sofar with
  | nil => exact .pure rfl
  | cons e es ih =>
    obtain ⟨he, hes⟩ := List.forall_mem_cons.1 h
    refine .ite Iff.rfl (.violation e.2.span rfl) ?_
    exact (expectVariant_commutes vs e.1 e.2.span).bind fun row => (he scope (env.bind x (.object row))).bind fun t =>
      (commonClause_commutes hf cx scope sofar t span).bind fun u => ih hes (e.1 :: seen) (some u)

private theorem dispatch_commutes {x : Name} {clauses : List (Name × Expr)} {fallback : Option Expr}
    (h : ∀ e ∈ (Term.dispatch x clauses fallback).parts, check.CommutesAt k d f e) (span : Span) :
    Commutes k d f (Ty.rename f) (check.rule cx scope env span (.dispatch x clauses fallback))
      (check.rule cx (scope.rename f) (env.rename f) span (.dispatch x clauses fallback)) := by
  simp only [rule]
  rw [Env.find?_rename]
  cases env.find? x with
  | none => exact .violation span rfl
  | some bound =>
    refine (expectUnion_commutes hf bound span).bind fun vs => ?_
    have hclauses : ∀ e ∈ clauses.map Prod.snd, check.CommutesAt k d f e := fun e he =>
      h e (List.mem_append_left _ he)
    refine (clauses_commutes scope env hf hclauses span x vs [] none).bind fun sofar => ?_
    have hothers : (renameVariants f vs).filter (fun v => v.1 ∉ clauses.map Prod.fst) =
        renameVariants f (vs.filter fun v => v.1 ∉ clauses.map Prod.fst) := by
      rw [Ty.renameVariants_eq_map, List.filter_map, Ty.renameVariants_eq_map]
      rfl
    rw [hothers]
    cases fallback with
    | some body =>
      exact (h body (by simp [Term.parts]) scope (env.bind x (.union _))).bind fun t =>
        commonClause_commutes hf cx scope sofar t span
    | none =>
      refine .ite (by rw [Ty.renameVariants_eq_map, List.isEmpty_map]) (.pure ?_) (.violation span ?_)
      · cases sofar <;> rfl
      · rw [Ty.renameVariants_eq_map, map_fst_map_snd]
        rfl

/-- A rule commutes with renaming when the checker does so for the parts. -/
theorem rule_commutes (haliases : cx.aliases.KeptBy f) {term : Term} (hown : ∀ n ∈ term.ownBinders, f n = n)
    (h : ∀ e ∈ term.parts, check.CommutesAt k d f e) (span : Span) :
    Commutes k d f (Ty.rename f) (check.rule cx scope env span term)
      (check.rule cx (scope.rename f) (env.rename f) span term) := by
  cases term with
  | lit v => cases v <;> exact .pure rfl
  | not e =>
    refine (h e (by simp [Term.parts]) scope env).bind fun t => ?_
    exact (expectPrim_commutes hf .boolean t e.span).bind fun _ => .pure rfl
  | compare op l r =>
    refine (h l (by simp [Term.parts]) scope env).bind fun t => (h r (by simp [Term.parts]) scope env).bind fun u => ?_
    exact (expectFit_commutes hf cx scope .operands .exact t u span).bind fun _ => .pure rfl
  | cond test yes no =>
    have hyes := h yes (by simp [Term.parts])
    have hno := h no (by simp [Term.parts])
    refine (env.refine?_commutes hf test).bind fun o => ?_
    cases o with
    | some envs =>
      exact (hyes scope envs.1).bind fun t => (hno scope envs.2).bind fun u =>
        common_commutes hf cx scope .branches t u span
    | none =>
      refine (h test (by simp [Term.parts]) scope env).bind fun t₀ => ?_
      exact (expectPrim_commutes hf .boolean t₀ test.span).bind fun _ => (hyes scope env).bind fun t =>
        (hno scope env).bind fun u => common_commutes hf cx scope .branches t u span
  | add l r =>
    refine (h l (by simp [Term.parts]) scope env).bind fun t => ?_
    refine (expectPrim_commutes hf .number t l.span).bind fun _ => ?_
    refine (h r (by simp [Term.parts]) scope env).bind fun u => ?_
    exact (expectPrim_commutes hf .number u r.span).bind fun _ => .pure rfl
  | var x =>
    simp only [rule]
    rw [Env.find?_rename]
    cases env.find? x with
    | some t => exact .pure rfl
    | none => exact .violation span rfl
  | lambda params result body =>
    obtain ⟨hps, hresult⟩ := List.forall_mem_append.1 hown
    refine (paramRow_commutes hf haliases scope hps).bind fun ps => ?_
    rw [← Env.rename_bindAll]
    refine (h body (by simp [Term.parts]) scope (env.bindAll ps)).bind fun t => ?_
    cases result with
    | none => exact .pure rfl
    | some e =>
      have he : ∀ n ∈ e.binders, f n = n := fun n hn => hresult n (by simpa using hn)
      refine (resolve_commutes hf haliases scope he).bind fun r => ?_
      exact (expectResult_commutes hf cx scope r t span).bind fun _ => .pure rfl
  | call callee args =>
    refine (h callee (by simp [Term.parts]) scope env).bind fun t => ?_
    refine Alongside.bind (expectFunc_commutes hf t callee.span) fun q q' hq => ?_
    subst hq
    have hlength : (renameRow f q.1).length = q.1.length := Ty.length_renameRow q.1
    refine .ite (by rw [hlength]) ?_ (.violation span (congrArg (Violation.arity · args.length) hlength))
    have hargs : ∀ e ∈ args, check.CommutesAt k d f e := fun e he => h e (List.mem_cons_of_mem callee he)
    exact (args_commutes scope env hf hargs q.1).bind fun _ => .pure rfl
  | seq first rest =>
    exact (h first (by simp [Term.parts]) scope env).bind fun _ => h rest (by simp [Term.parts]) scope env
  | bind x value rest =>
    exact (h value (by simp [Term.parts]) scope env).bind fun t => h rest (by simp [Term.parts]) scope (env.bind x t)
  | assign x value =>
    simp only [rule]
    rw [Env.find?_rename]
    cases env.find? x with
    | none => exact .violation span rfl
    | some bound =>
      refine (h value (by simp [Term.parts]) scope env).bind fun t => ?_
      exact (expectFit_commutes hf cx scope .assignment _ bound t value.span).bind fun _ => .pure rfl
  | forIndex array index body rest =>
    refine (h array (by simp [Term.parts]) scope env).bind fun t₀ => ?_
    refine (expectArray_commutes hf t₀ array.span).bind fun _ => ?_
    exact (h body (by simp [Term.parts]) scope (env.bind index .number)).bind fun t =>
      (h rest (by simp [Term.parts]) scope env).bind fun u => common_commutes hf cx scope .loop t u span
  | forItem array item body rest =>
    refine (h array (by simp [Term.parts]) scope env).bind fun t₀ => ?_
    refine (expectArray_commutes hf t₀ array.span).bind fun elem => ?_
    exact (h body (by simp [Term.parts]) scope (env.bind item elem)).bind fun t =>
      (h rest (by simp [Term.parts]) scope env).bind fun u => common_commutes hf cx scope .loop t u span
  | emptyArray type =>
    refine (resolve_commutes hf haliases scope hown).bind fun t => ?_
    exact (expectArray_commutes hf t span).bind fun _ => .pure rfl
  | append array item =>
    refine (h array (by simp [Term.parts]) scope env).bind fun t => ?_
    refine (expectArray_commutes hf t array.span).bind fun elem => ?_
    refine (h item (by simp [Term.parts]) scope env).bind fun u => ?_
    exact (expectFit_commutes hf cx scope .item .exact elem u item.span).bind fun _ => .pure rfl
  | emptyMap type =>
    refine (resolve_commutes hf haliases scope hown).bind fun t => ?_
    exact (expectMap_commutes hf t span).bind fun _ => .pure rfl
  | copyMap map =>
    refine (h map (by simp [Term.parts]) scope env).bind fun t => ?_
    exact (expectMap_commutes hf t map.span).bind fun _ => .pure rfl
  | insert map key item =>
    refine (h map (by simp [Term.parts]) scope env).bind fun t => ?_
    refine (expectMap_commutes hf t map.span).bind fun elem => ?_
    refine (h key (by simp [Term.parts]) scope env).bind fun u => ?_
    refine (expectPrim_commutes hf .string u key.span).bind fun _ => ?_
    refine (h item (by simp [Term.parts]) scope env).bind fun i => ?_
    exact (expectFit_commutes hf cx scope .item .exact elem i item.span).bind fun _ => .pure rfl
  | hasKey map key =>
    refine (h map (by simp [Term.parts]) scope env).bind fun t => ?_
    refine (expectMap_commutes hf t map.span).bind fun _ => ?_
    refine (h key (by simp [Term.parts]) scope env).bind fun u => ?_
    exact (expectPrim_commutes hf .string u key.span).bind fun _ => .pure rfl
  | index base index =>
    exact (h base (by simp [Term.parts]) scope env).bind fun t =>
      (h index (by simp [Term.parts]) scope env).bind fun i => item_commutes hf t i base.span index.span
  | object inits => exact (inits_commutes scope env h span []).bind fun row => .pure rfl
  | property base name =>
    exact (h base (by simp [Term.parts]) scope env).bind fun t => property_commutes hf t name base.span span
  | variant label inits type =>
    refine (resolve_commutes hf haliases scope hown).bind fun t => ?_
    refine (expectUnion_commutes hf t span).bind fun vs => ?_
    refine (expectVariant_commutes vs label span).bind fun row => ?_
    exact (declaredInits_commutes scope env hf h span row []).bind fun _ => .pure rfl
  | widen value type =>
    refine (h value (by simp [Term.parts]) scope env).bind fun t => ?_
    refine (resolve_commutes hf haliases scope hown).bind fun u => ?_
    refine (expectUnion_commutes hf u span).bind fun target => ?_
    refine (expectUnion_commutes hf t value.span).bind fun source => ?_
    exact (expectVariants_commutes hf cx scope target source span).bind fun _ => .pure rfl
  | dispatch _ _ _ => exact dispatch_commutes scope env hf h span
  | function g params result body rest =>
    obtain ⟨hps, hresult⟩ := List.forall_mem_append.1 hown
    refine (paramRow_commutes hf haliases scope hps).bind fun ps => ?_
    refine (resolve_commutes hf haliases scope hresult).bind fun r => ?_
    rw [← Env.rename_bindAll]
    refine (h body (by simp [Term.parts]) scope ((env.bindAll ps).bind g (.func ps r))).bind fun t => ?_
    refine (expectResult_commutes hf cx scope r t span).bind fun _ => ?_
    exact h rest (by simp [Term.parts]) scope (env.bind g (.func ps r))
  | generic params body =>
    refine (expectDistinct_commutes params span).bind fun _ => ?_
    refine Commutes.bind (.lift (meaningsFor_parallel hf scope hown)) fun vars => ?_
    rw [← Scope.rename_enterParams]
    exact (h body (by simp [Term.parts]) (scope.enterParams params vars) env).bind fun t => .pure rfl
  | instantiate target args =>
    refine (h target (by simp [Term.parts]) scope env).bind fun t => ?_
    refine Alongside.bind (expectGeneric_commutes hf t target.span) fun q q' hq => ?_
    subst hq
    have hlength : (q.1.map f).length = q.1.length := List.length_map f
    refine .ite (by rw [hlength]) ?_ (.violation span (congrArg (Violation.genericArity · args.length) hlength))
    have hargs : ∀ a ∈ args, Commutes k d f (Ty.rename f) (cx.resolve scope a) (cx.resolve (scope.rename f) a) :=
      fun a ha => resolve_commutes hf haliases scope fun n hn => hown n (List.mem_flatMap.2 ⟨a, ha, hn⟩)
    exact (Commutes.mapM hargs).bind fun ts => .lift (Ty.instantiate_parallel hf q.2 q.1 ts)

end Checker

/-- Checking an expression commutes with renaming. -/
theorem Expr.typeIn_commutes (hf : Shifts k d f) (haliases : cx.aliases.KeptBy f) {e : Expr}
    (he : e.Binds fun n => f n = n) : Checker.CommutesAt k d f (typeIn cx) e := by
  induction e using Expr.induct with
  | mk span term ih =>
    intro scope env
    cases he with
    | mk own parts =>
      rw [typeIn_mk, typeIn_mk]
      exact Checker.rule_commutes scope env hf haliases own (fun e he => ih e he (parts e he)) span

end Rules

end MuTypes
