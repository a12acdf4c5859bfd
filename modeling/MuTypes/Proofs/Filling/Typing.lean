import MuTypes.Proofs.Filling.Expressions
import MuTypes.Proofs.Programs

/-!
# Checking filled expressions

When an expression has a type, then the filled one has the filled type, or its check fails with an excuse
(`Expr.typeIn_imitates`).  The second check may also have a more permissive policy and another bound on comparisons.

There is a lemma for each of the longer rules.  They suppose of the parts of an expression what is to be shown of it
(`AllImitated`), and use that of each question which a rule asks.
-/

namespace MuTypes

open NameSupply Ty

/-! ### Surroundings -/

/-- The scopes and the environments in which an expression and the filled one are checked. -/
structure Surroundings (cx : Context) (φ : Fillers) (σ : Name → Nameless Name) (scope scope' : Scope) (env env' : Env)
    (s s' : NameSupply) : Prop where
  scopes : Scope.Filled cx.aliases φ σ scope scope' s s'
  env : Env.Filled σ scope.meanings scope'.meanings env env' s s'

/-- Wherever it is checked, the check of the filled expression imitates that of the expression. -/
def Expr.Imitated (cx cx' : Context) (e : Expr) : Prop :=
  ∀ {φ σ scope scope' env env' s s'}, Surroundings cx φ σ scope scope' env env' s s' → e.Binds φ.Admits →
    Imitates cx.fuel s s' (e.typeIn cx scope env) ((e.fill φ).typeIn cx' scope' env')
      (Ty.Filled σ scope.meanings scope'.meanings)

/-- The checks of the expressions are imitated, and they bind no names of what is put in. -/
def AllImitated (cx cx' : Context) (φ : Fillers) (es : List Expr) : Prop :=
  ∀ e ∈ es, e.Imitated cx cx' ∧ e.Binds φ.Admits

section Rules

variable {cx cx' : Context} {φ : Fillers} {σ : Name → Nameless Name} {scope scope' : Scope} {env env' : Env}
  {s s' u u' : NameSupply}

theorem Surroundings.mono (h : Surroundings cx φ σ scope scope' env env' s s') (hs : s ≤ u) (hs' : s' ≤ u') :
    Surroundings cx φ σ scope scope' env env' u u' :=
  ⟨h.scopes.mono hs hs', h.env.mono hs hs'⟩

theorem Surroundings.filling (h : Surroundings cx φ σ scope scope' env env' s s') :
    Filling σ scope.meanings scope'.meanings :=
  h.scopes.filling

namespace AllImitated

variable {es : List Expr} (h : AllImitated cx cx' φ es)
include h

theorem tail {e : Expr} {rest : List Expr} (he : es = e :: rest) : AllImitated cx cx' φ rest :=
  fun e' h' => h e' (he ▸ List.mem_cons_of_mem e h')

theorem imitates (hw : Surroundings cx φ σ scope scope' env env' s s') {e : Expr} (he : e ∈ es) :
    Imitates cx.fuel s s' (e.typeIn cx scope env) ((e.fill φ).typeIn cx' scope' env')
      (Ty.Filled σ scope.meanings scope'.meanings) :=
  (h e he).1 hw (h e he).2

/-- What the checks say of a part later on, in other environments. -/
theorem later (hw : Surroundings cx φ σ scope scope' env env' s s') {e : Expr} (he : e ∈ es) (hs : s ≤ u)
    (hs' : s' ≤ u') {env₁ env₁' : Env} (henv : Env.Filled σ scope.meanings scope'.meanings env₁ env₁' u u') :
    Imitates cx.fuel u u' (e.typeIn cx scope env₁) ((e.fill φ).typeIn cx' scope' env₁')
      (Ty.Filled σ scope.meanings scope'.meanings) :=
  h.imitates ⟨(hw.mono hs hs').scopes, henv⟩ he

end AllImitated

variable (hcx : cx.Widens cx') (haliases : cx.aliases.Unnumbered)
include hcx haliases

/-! ### Annotations -/

theorem resolve_imitates (hw : Scope.Filled cx.aliases φ σ scope scope' s s') {e : TyExpr}
    (he : ∀ b ∈ e.binders, φ.Admits b) :
    Mirrors s s' (cx.resolve scope e) (cx'.resolve scope' (e.fill φ)) (Ty.Filled σ scope.meanings scope'.meanings) := by
  have hfill : ∀ b ∈ (e.fill φ).binders, '@' ∉ b.toList :=
    TyExpr.binders_fill (fun x a ha => (hw.put x a ha).1) e fun b hb => (he b hb).unnumbered
  have hleft := TyExpr.resolve_inOrder (aheadOfAliases_of_unnumbered haliases s) hw.params.ahead e fun b hb =>
    aheadOf_of_at_sign_not_mem (he b hb).unnumbered s
  have hright := TyExpr.resolve_inOrder (aheadOfAliases_of_unnumbered haliases s') hw.params'.ahead (e.fill φ)
    fun b hb => aheadOf_of_at_sign_not_mem (hfill b hb) s'
  unfold Context.resolve
  rw [hcx.aliases]
  exact ((TyExpr.resolve_filled haliases hw he).and_checks hleft hright).mono fun _ _ _ _ h => ⟨h.2.1, h.2.2, h.1⟩

theorem paramRow_imitates (hw : Scope.Filled cx.aliases φ σ scope scope' s s') {params : List (Name × TyExpr)}
    (hp : ∀ b ∈ params.flatMap (·.2.binders), φ.Admits b) :
    Mirrors s s' (cx.paramRow scope params) (cx'.paramRow scope' (TyExpr.fillRow φ params))
      (FilledRow σ scope.meanings scope'.meanings) := by
  induction params generalizing s s' with
  | nil => exact .pure .nil
  | cons p params ih =>
    rw [List.flatMap_cons] at hp
    obtain ⟨hpb, hp⟩ := List.forall_mem_append.1 hp
    rw [TyExpr.fillRow, Context.paramRow, Context.paramRow, List.mapM_cons, List.mapM_cons, bind_assoc, bind_assoc]
    refine (resolve_imitates hcx haliases hw hpb).bind fun t t' s₁ s₁' h₁ h₁' ht => ?_
    rw [pure_bind, pure_bind]
    refine (ih (hw.mono h₁ h₁') hp).bind fun row row' s₂ s₂' h₂ h₂' hrow => .pure ?_
    exact .cons ⟨rfl, ht.mono h₂ h₂'⟩ hrow

theorem resolveAll_imitates (hw : Scope.Filled cx.aliases φ σ scope scope' s s') {es : List TyExpr}
    (he : ∀ b ∈ es.flatMap TyExpr.binders, φ.Admits b) :
    Mirrors s s' (es.mapM (cx.resolve scope)) ((TyExpr.fillArgs φ es).mapM (cx'.resolve scope'))
      fun ts ts' u u' => ts.length = es.length ∧
        List.Forall₂ (fun t t' => Ty.Filled σ scope.meanings scope'.meanings t t' u u') ts ts' := by
  induction es generalizing s s' with
  | nil => exact .pure ⟨rfl, .nil⟩
  | cons e es ih =>
    rw [List.flatMap_cons] at he
    obtain ⟨heb, he⟩ := List.forall_mem_append.1 he
    rw [TyExpr.fillArgs, List.mapM_cons, List.mapM_cons]
    refine (resolve_imitates hcx haliases hw heb).bind fun t t' s₁ s₁' h₁ h₁' ht => ?_
    refine (ih (hw.mono h₁ h₁') he).bind fun ts ts' s₂ s₂' h₂ h₂' hts => .pure ⟨congrArg (· + 1) hts.1, ?_⟩
    exact .cons (ht.mono h₂ h₂') hts.2

omit haliases

/-! ### Rules for lists of parts -/

private theorem args_imitates {es : List Expr} (hw : Surroundings cx φ σ scope scope' env env' s s')
    (h : AllImitated cx cx' φ es) {ps ps' : Row} (hps : FilledRow σ scope.meanings scope'.meanings ps ps' s s') :
    Imitates cx.fuel s s' (Checker.args (Expr.typeIn cx) cx scope env ps es)
      (Checker.args (Expr.typeIn cx') cx' scope' env' ps' (Expr.fillArgs φ es)) fun _ _ _ _ => True := by
  induction es generalizing ps ps' s s' with
  | nil => cases hps <;> exact .pure trivial
  | cons e es ih =>
    cases hps with
    | nil => exact .pure trivial
    | cons hp hps =>
      rw [Expr.fillArgs, Checker.args, Checker.args]
      refine (h.imitates hw List.mem_cons_self).bind fun t t' s₁ s₁' h₁ h₁' ht => ?_
      refine (expectFit_imitates hw.filling .argument (hp.2.mono h₁ h₁') ht hcx.policy.argument).bind
        fun _ _ s₂ s₂' h₂ h₂' _ => ?_
      have hs := le_trans h₁ h₂
      have hs' := le_trans h₁' h₂'
      exact ih (hw.mono hs hs') (h.tail rfl) (FilledRow.mono hps hs hs')

omit hcx

private theorem inits_imitates {es : List (Name × Expr)} (hw : Surroundings cx φ σ scope scope' env env' s s')
    (h : AllImitated cx cx' φ (es.map Prod.snd)) {span span' : Span} (seen : List Name) :
    Imitates cx.fuel s s' (Checker.inits (Expr.typeIn cx) scope env span seen es)
      (Checker.inits (Expr.typeIn cx') scope' env' span' seen (Expr.fillNamed φ es)) fun row row' u u' =>
        FilledRow σ scope.meanings scope'.meanings row row' u u' ∧
          (row.map Prod.fst).Nodup ∧ ∀ n ∈ row.map Prod.fst, n ∉ seen := by
  induction es generalizing seen s s' with
  | nil => exact .pure ⟨.nil, List.nodup_nil, by simp⟩
  | cons e es ih =>
    rw [Expr.fillNamed, Checker.inits, Checker.inits]
    by_cases hn : e.1 ∈ seen
    · rw [if_pos hn]
      exact .violation _ _ _
    rw [if_neg hn, if_neg hn]
    refine (h.imitates hw List.mem_cons_self).bind fun t t' s₁ s₁' h₁ h₁' ht => ?_
    refine (ih (hw.mono h₁ h₁') (h.tail rfl) (e.1 :: seen)).bind fun row row' s₂ s₂' h₂ h₂' hrow => .pure ?_
    obtain ⟨hrow, hd, hseen⟩ := hrow
    refine ⟨.cons ⟨rfl, ht.mono h₂ h₂'⟩ hrow, ?_, ?_⟩
    · exact List.nodup_cons.2 ⟨fun hm => hseen e.1 hm List.mem_cons_self, hd⟩
    · exact List.forall_mem_cons.2 ⟨hn, fun m hm hs => hseen m hm (List.mem_cons_of_mem e.1 hs)⟩

private theorem declaredInits_imitates {es : List (Name × Expr)}
    (hw : Surroundings cx φ σ scope scope' env env' s s') (h : AllImitated cx cx' φ (es.map Prod.snd))
    {declared declared' : Row} (hd : FilledRow σ scope.meanings scope'.meanings declared declared' s s')
    {span span' : Span} (seen : List Name) :
    Imitates cx.fuel s s' (Checker.declaredInits (Expr.typeIn cx) cx scope env span declared seen es)
      (Checker.declaredInits (Expr.typeIn cx') cx' scope' env' span' declared' seen (Expr.fillNamed φ es))
      fun _ _ _ _ => True := by
  induction es generalizing seen s s' with
  | nil => exact .pure trivial
  | cons e es ih =>
    rw [Expr.fillNamed, Checker.declaredInits, Checker.declaredInits]
    split
    · exact .violation _ _ _
    refine ((expectProperty_filled hd e.1).imitates _).bind fun q q' s₀ s₀' h₀ h₀' hq => ?_
    refine (h.imitates (hw.mono h₀ h₀') List.mem_cons_self).bind fun t t' s₁ s₁' h₁ h₁' ht => ?_
    refine (expectFit_imitates hw.filling .variant (hq.mono h₁ h₁') ht (.refl .exact)).bind
      fun _ _ s₂ s₂' h₂ h₂' _ => ?_
    have hs := le_trans h₀ (le_trans h₁ h₂)
    have hs' := le_trans h₀' (le_trans h₁' h₂')
    exact ih (hw.mono hs hs') (h.tail rfl) (FilledRow.mono hd hs hs') (e.1 :: seen)

private theorem clauses_imitates {es : List (Name × Expr)} (hw : Surroundings cx φ σ scope scope' env env' s s')
    (h : AllImitated cx cx' φ (es.map Prod.snd)) {span span' : Span} (x : Name) {vs vs' : Variants}
    (hvs : Ty.Filled σ scope.meanings scope'.meanings (.union vs) (.union vs') s s') (seen : List Name)
    {o o' : Option Ty} (ho : Option.Rel (fun t t' => Ty.Filled σ scope.meanings scope'.meanings t t' s s') o o') :
    Imitates cx.fuel s s' (Checker.clauses (Expr.typeIn cx) cx scope env span x vs seen o es)
      (Checker.clauses (Expr.typeIn cx') cx' scope' env' span' x vs' seen o' (Expr.fillNamed φ es)) fun q q' u u' =>
        Option.Rel (fun t t' => Ty.Filled σ scope.meanings scope'.meanings t t' u u') q q' := by
  induction es generalizing seen o o' s s' with
  | nil => exact .pure ho
  | cons e es ih =>
    rw [Expr.fillNamed, Checker.clauses, Checker.clauses]
    split
    · exact .violation _ _ _
    refine ((expectVariant_filled hvs e.1).imitates _).bind fun row row' s₀ s₀' h₀ h₀' hrow => ?_
    refine (h.later hw List.mem_cons_self h₀ h₀' ((hw.env.mono h₀ h₀').bind hrow x)).bind
      fun t t' s₁ s₁' h₁ h₁' ht => ?_
    have hs := le_trans h₀ h₁
    have hs' := le_trans h₀' h₁'
    have ho₁ : Option.Rel (fun t t' => Ty.Filled σ scope.meanings scope'.meanings t t' s₁ s₁') o o' := by
      cases ho with
      | none => exact .none
      | some hsofar => exact .some (hsofar.mono hs hs')
    refine (commonClause_imitates hw.filling ho₁ ht).bind fun v v' s₂ s₂' h₂ h₂' hv => ?_
    have hs₂ := le_trans hs h₂
    have hs₂' := le_trans hs' h₂'
    exact ih (hw.mono hs₂ hs₂') (h.tail rfl) (hvs.mono hs₂ hs₂') (e.1 :: seen) (.some hv)

end Rules

/-! ### Rules -/

/-- The rule for the filled form imitates that for the form, if the checks of the parts are imitated. -/
private def ImitatedRule (cx cx' : Context) (term : Term) : Prop :=
  ∀ {φ σ scope scope' env env' s s'}, Surroundings cx φ σ scope scope' env env' s s' →
    (∀ n ∈ term.ownBinders, φ.Admits n) → AllImitated cx cx' φ term.parts → ∀ span,
      Imitates cx.fuel s s' (Checker.rule (Expr.typeIn cx) cx scope env span term)
        (Checker.rule (Expr.typeIn cx') cx' scope' env' span (Expr.fillTerm φ term))
        (Ty.Filled σ scope.meanings scope'.meanings)

section Rules

variable {cx cx' : Context}

private theorem cond_imitates {test yes no : Expr} : ImitatedRule cx cx' (.cond test yes no) := by
  intro φ σ scope scope' env env' s s' hw _ h span
  by_cases habstract : ∃ ev, test.evidence? = some ev ∧ env.Abstract ev.subject
  · obtain ⟨ev, hev, hx⟩ := habstract
    rw [← Expr.typeIn_mk]
    exact .of_failing (cond_abstract hev hx hw.env.left cx scope yes no span)
  have htest := refine?_filled hw.filling hw.env φ fun ev hev hx => habstract ⟨ev, hev, hx⟩
  refine (htest.imitates _).bind fun o o' s₁ s₁' h₁ h₁' ho => ?_
  cases ho with
  | some hq =>
    refine (h.later hw (by simp [Term.parts]) h₁ h₁' hq.1).bind fun t t' s₂ s₂' h₂ h₂' ht => ?_
    refine (h.later hw (by simp [Term.parts]) (le_trans h₁ h₂) (le_trans h₁' h₂') (hq.2.mono h₂ h₂')).bind
      fun u u' s₃ s₃' h₃ h₃' hu => ?_
    exact common_imitates hw.filling .branches (ht.mono h₃ h₃') hu
  | none =>
    have hw := hw.mono h₁ h₁'
    refine (h.imitates hw (by simp [Term.parts])).bind fun t₀ t₀' s₂ s₂' h₂ h₂' ht₀ => ?_
    refine ((expectPrim_filled hw.filling ht₀ .boolean).imitates _).bind fun _ _ s₃ s₃' h₃ h₃' _ => ?_
    have hw := (hw.mono h₂ h₂').mono h₃ h₃'
    refine (h.imitates hw (by simp [Term.parts])).bind fun t t' s₄ s₄' h₄ h₄' ht => ?_
    refine (h.imitates (hw.mono h₄ h₄') (by simp [Term.parts])).bind fun u u' s₅ s₅' h₅ h₅' hu => ?_
    exact common_imitates hw.filling .branches (ht.mono h₅ h₅') hu

/-- A loop over an array, whose body sees an index or an item. -/
private theorem loop_imitates {φ : Fillers} {σ : Name → Nameless Name} {scope scope' : Scope} {env env' : Env}
    {s s' : NameSupply} (hw : Surroundings cx φ σ scope scope' env env' s s') {array body rest : Expr}
    (h : AllImitated cx cx' φ [array, body, rest]) (seen : Ty → Ty)
    (hseen : ∀ {t t' u u'}, Ty.Filled σ scope.meanings scope'.meanings t t' u u' →
      Ty.Filled σ scope.meanings scope'.meanings (seen t) (seen t') u u') (x : Name) {span span' : Span} :
    Imitates cx.fuel s s'
      (do
        let elem ← (← array.typeIn cx scope env).expectArray array.span
        let t ← body.typeIn cx scope (env.bind x (seen elem))
        let u ← rest.typeIn cx scope env
        cx.common scope .loop t u span)
      (do
        let elem ← (← (array.fill φ).typeIn cx' scope' env').expectArray (array.fill φ).span
        let t ← (body.fill φ).typeIn cx' scope' (env'.bind x (seen elem))
        let u ← (rest.fill φ).typeIn cx' scope' env'
        cx'.common scope' .loop t u span') (Ty.Filled σ scope.meanings scope'.meanings) := by
  refine (h.imitates hw (by simp)).bind fun t₀ t₀' s₁ s₁' h₁ h₁' ht₀ => ?_
  refine ((expectArray_filled hw.filling ht₀).imitates _).bind fun elem elem' s₂ s₂' h₂ h₂' helem => ?_
  have hw := (hw.mono h₁ h₁').mono h₂ h₂'
  refine (h.imitates ⟨hw.scopes, hw.env.bind (hseen helem) x⟩ (by simp)).bind fun t t' s₃ s₃' h₃ h₃' ht => ?_
  refine (h.imitates (hw.mono h₃ h₃') (by simp)).bind fun u u' s₄ s₄' h₄ h₄' hu => ?_
  exact common_imitates hw.filling .loop (ht.mono h₄ h₄') hu

private theorem call_imitates (hcx : cx.Widens cx') {callee : Expr} {args : List Expr} :
    ImitatedRule cx cx' (.call callee args) := by
  intro φ σ scope scope' env env' s s' hw _ h span
  refine (h.imitates hw (by simp [Term.parts])).bind fun t t' s₁ s₁' h₁ h₁' ht => ?_
  refine ((expectFunc_filled hw.filling ht).imitates _).bind fun q q' s₂ s₂' h₂ h₂' hq => ?_
  have hw := (hw.mono h₁ h₁').mono h₂ h₂'
  dsimp only
  rw [hq.1.length_eq, Expr.length_fillArgs]
  split
  · refine (args_imitates hcx hw (h.tail rfl) hq.1).bind fun _ _ s₃ s₃' h₃ h₃' _ => .pure ?_
    exact hq.2.mono h₃ h₃'
  · exact .violation _ _ _

private theorem insert_imitates {map key item : Expr} : ImitatedRule cx cx' (.insert map key item) := by
  intro φ σ scope scope' env env' s s' hw _ h span
  refine (h.imitates hw (by simp [Term.parts])).bind fun t t' s₁ s₁' h₁ h₁' ht => ?_
  refine ((expectMap_filled hw.filling ht).imitates _).bind fun elem elem' s₂ s₂' h₂ h₂' helem => ?_
  have hw := (hw.mono h₁ h₁').mono h₂ h₂'
  refine (h.imitates hw (by simp [Term.parts])).bind fun k k' s₃ s₃' h₃ h₃' hk => ?_
  refine ((expectPrim_filled hw.filling hk .string).imitates _).bind fun _ _ s₄ s₄' h₄ h₄' _ => ?_
  have hs := le_trans h₃ h₄
  have hs' := le_trans h₃' h₄'
  refine (h.imitates (hw.mono hs hs') (by simp [Term.parts])).bind fun u u' s₅ s₅' h₅ h₅' hu => ?_
  refine (expectFit_imitates hw.filling .item (helem.mono (le_trans hs h₅) (le_trans hs' h₅')) hu (.refl .exact)).bind
    fun _ _ s₆ s₆' h₆ h₆' _ => .pure ?_
  exact ht.mono (le_trans h₂ (le_trans hs (le_trans h₅ h₆))) (le_trans h₂' (le_trans hs' (le_trans h₅' h₆')))

private theorem dispatch_imitates {x : Name} {clauses : List (Name × Expr)} {fallback : Option Expr} :
    ImitatedRule cx cx' (.dispatch x clauses fallback) := by
  intro φ σ scope scope' env env' s s' hw _ h span
  have hterm : Expr.fillTerm φ (.dispatch x clauses fallback) =
      .dispatch x (Expr.fillNamed φ clauses) (fallback.map (Expr.fill φ)) := by
    cases fallback <;> rfl
  have hfind := hw.env.find? x
  rw [hterm, Checker.rule, Checker.rule, Expr.names_fillNamed]
  generalize env.find? x = o, env'.find? x = o' at hfind ⊢
  cases hfind with
  | none => exact .violation _ _ _
  | some hbound =>
    refine ((expectUnion_filled hw.filling hbound).imitates _).bind fun vs vs' s₁ s₁' h₁ h₁' hvs => ?_
    have hw := hw.mono h₁ h₁'
    have hclauses : AllImitated cx cx' φ (clauses.map Prod.snd) := fun e he => h e (List.mem_append_left _ he)
    refine (clauses_imitates hw hclauses x hvs [] .none).bind fun q q' s₂ s₂' h₂ h₂' hq => ?_
    have hw := hw.mono h₂ h₂'
    have hothers := (hvs.mono h₂ h₂').filter fun n => n ∉ clauses.map Prod.fst
    cases fallback with
    | some body =>
      -- the fallback sees the variants that have no clause
      refine (h.imitates ⟨hw.scopes, hw.env.bind hothers x⟩ (by simp [Term.parts])).bind
        fun t t' s₃ s₃' h₃ h₃' ht => ?_
      refine commonClause_imitates hw.filling ?_ ht
      cases hq with
      | none => exact .none
      | some hsofar => exact .some (hsofar.mono h₃ h₃')
    | none =>
      dsimp only [Option.map_none]
      rw [hothers.isEmpty_eq]
      split
      · refine .pure ?_
        cases hq with
        | none => exact filled_prim .undefined
        | some hsofar => exact hsofar
      · exact .violation _ _ _

variable (hcx : cx.Widens cx') (haliases : cx.aliases.Unnumbered)
include hcx haliases

private theorem lambda_imitates {params : List (Name × TyExpr)} {result : Option TyExpr} {body : Expr} :
    ImitatedRule cx cx' (.lambda params result body) := by
  intro φ σ scope scope' env env' s s' hw hown h span
  obtain ⟨hps, hresult⟩ := List.forall_mem_append.1 hown
  refine ((paramRow_imitates hcx haliases hw.scopes hps).imitates _).bind fun ps ps' s₁ s₁' h₁ h₁' hrow => ?_
  have hw := hw.mono h₁ h₁'
  refine (h.imitates ⟨hw.scopes, hw.env.bindAll hrow⟩ (by simp [Term.parts])).bind fun t t' s₂ s₂' h₂ h₂' ht => ?_
  cases result with
  | none => exact .pure (filled_func (hrow.mono h₂ h₂') ht)
  | some e =>
    have hw := hw.mono h₂ h₂'
    have he : ∀ b ∈ e.binders, φ.Admits b := fun b hb => hresult b (by simpa using hb)
    refine ((resolve_imitates hcx haliases hw.scopes he).imitates _).bind fun r r' s₃ s₃' h₃ h₃' hr => ?_
    refine (expectResult_imitates hw.filling hr (ht.mono h₃ h₃')).bind fun _ _ s₄ s₄' h₄ h₄' _ => .pure ?_
    exact filled_func (hrow.mono (le_trans h₂ (le_trans h₃ h₄)) (le_trans h₂' (le_trans h₃' h₄'))) (hr.mono h₄ h₄')

private theorem function_imitates {f : Name} {params : List (Name × TyExpr)} {result : TyExpr} {body rest : Expr} :
    ImitatedRule cx cx' (.function f params result body rest) := by
  intro φ σ scope scope' env env' s s' hw hown h span
  obtain ⟨hps, hresult⟩ := List.forall_mem_append.1 hown
  refine ((paramRow_imitates hcx haliases hw.scopes hps).imitates _).bind fun ps ps' s₁ s₁' h₁ h₁' hrow => ?_
  have hw := hw.mono h₁ h₁'
  refine ((resolve_imitates hcx haliases hw.scopes hresult).imitates _).bind fun r r' s₂ s₂' h₂ h₂' hr => ?_
  have hw := hw.mono h₂ h₂'
  have hrow := hrow.mono h₂ h₂'
  have hfunc := filled_func hrow hr
  refine (h.imitates ⟨hw.scopes, (hw.env.bindAll hrow).bind hfunc f⟩ (by simp [Term.parts])).bind
    fun t t' s₃ s₃' h₃ h₃' ht => ?_
  refine (expectResult_imitates hw.filling (hr.mono h₃ h₃') ht).bind fun _ _ s₄ s₄' h₄ h₄' _ => ?_
  have hs := le_trans h₃ h₄
  have hs' := le_trans h₃' h₄'
  exact h.later hw (by simp [Term.parts]) hs hs' ((hw.env.mono hs hs').bind (hfunc.mono hs hs') f)

private theorem variant_imitates {label : Name} {inits : List (Name × Expr)} {type : TyExpr} :
    ImitatedRule cx cx' (.variant label inits type) := by
  intro φ σ scope scope' env env' s s' hw hown h span
  refine ((resolve_imitates hcx haliases hw.scopes hown).imitates _).bind fun t t' s₁ s₁' h₁ h₁' ht => ?_
  refine ((expectUnion_filled hw.filling ht).imitates _).bind fun vs vs' s₂ s₂' h₂ h₂' hvs => ?_
  refine ((expectVariant_filled hvs label).imitates _).bind fun row row' s₃ s₃' h₃ h₃' hrow => ?_
  have hs := le_trans h₂ h₃
  have hs' := le_trans h₂' h₃'
  obtain ⟨_, ⟨⟩, hrow⟩ := hrow.object
  refine (declaredInits_imitates ((hw.mono h₁ h₁').mono hs hs') h hrow []).bind fun _ _ s₄ s₄' h₄ h₄' _ => .pure ?_
  exact ht.mono (le_trans hs h₄) (le_trans hs' h₄')

private theorem widen_imitates {value : Expr} {type : TyExpr} : ImitatedRule cx cx' (.widen value type) := by
  intro φ σ scope scope' env env' s s' hw hown h span
  refine (h.imitates hw (by simp [Term.parts])).bind fun t t' s₁ s₁' h₁ h₁' ht => ?_
  have hw := hw.mono h₁ h₁'
  refine ((resolve_imitates hcx haliases hw.scopes hown).imitates _).bind fun u u' s₂ s₂' h₂ h₂' hu => ?_
  refine ((expectUnion_filled hw.filling hu).imitates _).bind fun target target' s₃ s₃' h₃ h₃' htarget => ?_
  have ht := ht.mono (le_trans h₂ h₃) (le_trans h₂' h₃')
  refine ((expectUnion_filled hw.filling ht).imitates _).bind fun source source' s₄ s₄' h₄ h₄' hsource => ?_
  refine (expectVariants_imitates hw.filling (htarget.mono h₄ h₄') hsource).bind fun _ _ s₅ s₅' h₅ h₅' _ => .pure ?_
  exact hu.mono (le_trans h₃ (le_trans h₄ h₅)) (le_trans h₃' (le_trans h₄' h₅'))

omit hcx haliases in
private theorem generic_imitates {params : List Name} {body : Expr} : ImitatedRule cx cx' (.generic params body) := by
  intro φ σ scope scope' env env' s s' hw hown h span
  have hahead : ∀ p ∈ params, ∀ s : NameSupply, s.AheadOf p := fun p hp s =>
    aheadOf_of_at_sign_not_mem (hown p hp).unnumbered s
  refine (((expectDistinct_mirrors id span span).and_checks (expectDistinct_checks s params span)
    (expectDistinct_checks s' params span)).imitates _).bind fun _ _ s₁ s₁' h₁ h₁' hd => ?_
  obtain ⟨-, hd, -⟩ := hd
  have hw := hw.mono h₁ h₁'
  have hvars := Scope.meaningsFor_fresh hw.scopes.params.ahead hd fun p hp => hahead p hp s₁
  have hvars' := Scope.meaningsFor_fresh hw.scopes.params'.ahead hd fun p hp => hahead p hp s₁'
  refine ((Mirrors.lift hvars hvars').imitates _).bind fun vars vars' s₂ s₂' h₂ h₂' hfresh => ?_
  obtain ⟨hx, hx'⟩ := hfresh
  have hw := hw.mono h₂ h₂'
  obtain ⟨τ, hscopes, hold, hnew⟩ := hw.scopes.enterParams hown hx hx'
  -- inside, the meanings of the parameters may occur in types too, and what is outside is shadowed at most
  have hmem : ∀ n, n ∈ (scope.enterParams params vars).meanings ↔ n ∈ vars ++ scope.meanings := fun n =>
    Scope.mem_meanings_enterParams hx.length_eq
  have hmem' : ∀ n, n ∈ (scope'.enterParams params vars').meanings ↔ n ∈ vars' ++ scope'.meanings := fun n =>
    Scope.mem_meanings_enterParams hx'.length_eq
  have henv : Env.Filled τ (scope.enterParams params vars).meanings (scope'.enterParams params vars').meanings env env'
      s₂ s₂' := hw.env.imp fun p p' hp => by
    refine ⟨hp.1, hp.2.left.weaken fun n hn => ?_, hp.2.right.weaken fun n hn => ?_, hp.2.bare.trans ?_⟩
    · exact (hmem n).2 (List.mem_append_right vars hn)
    · exact (hmem' n).2 (List.mem_append_right vars' hn)
    · exact Nameless.fill_congr fun x hx => (hold x (hp.2.left.mem x (has_nameless_iff.1 hx).1)).symm
  have hbody : AllImitated cx cx' (φ.hide params) [body] := List.forall_mem_singleton.2
    ⟨(h body (by simp [Term.parts])).1, (h body (by simp [Term.parts])).2.mono fun _ hn => hn.hide params⟩
  refine (hbody.imitates ⟨hscopes, henv⟩ (by simp)).bind fun t t' s₃ s₃' h₃ h₃' ht => .pure ?_
  refine ⟨Ty.inOrder_generic.2 ⟨hx.nodup, fun n hn => (hx.ahead n hn).mono h₃, ?_⟩,
    Ty.inOrder_generic.2 ⟨hx'.nodup, fun n hn => (hx'.ahead n hn).mono h₃', ?_⟩, ?_⟩
  · exact ht.left.weaken fun n hn => (hmem n).1 hn
  · exact ht.right.weaken fun n hn => (hmem' n).1 hn
  · rw [bare_generic, bare_generic, Nameless.fill_generic, hnew.length_eq]
    refine congrArg _ (Ty.nameless_fill ht.bare (List.forall₂_reverse_iff.2 hnew) (List.nodup_reverse.2 hx'.nodup) ?_)
    intro x hmentions hvar
    rw [List.mem_reverse] at hvar
    have hin : x ∈ scope.meanings :=
      (List.mem_append.1 ((hmem x).1 (ht.left.mem x hmentions))).resolve_left hvar
    refine ⟨hold x hin, hw.filling.closed x, fun y hy hhas => ?_⟩
    exact hx'.new y (List.mem_reverse.1 hy) (hw.filling.mem x hin y hhas)

private theorem instantiate_imitates {target : Expr} {args : List TyExpr} :
    ImitatedRule cx cx' (.instantiate target args) := by
  intro φ σ scope scope' env env' s s' hw hown h span
  refine (h.imitates hw (by simp [Term.parts])).bind fun t t' s₁ s₁' h₁ h₁' ht => ?_
  refine ((expectGeneric_filled hw.filling ht).imitates _).bind fun q q' s₂ s₂' h₂ h₂' hq => ?_
  have hw := (hw.mono h₁ h₁').mono h₂ h₂'
  obtain ⟨_, _, ⟨⟩, hl, -⟩ := hq.generic
  dsimp only
  rw [hl, TyExpr.length_fillArgs]
  split
  · rename_i hl
    refine ((resolveAll_imitates hcx haliases hw.scopes hown).imitates _).bind fun ts ts' s₃ s₃' h₃ h₃' hts => ?_
    exact (instantiate_filled hw.filling (hq.mono h₃ h₃') (hl.trans hts.1.symm) hts.2).imitates _
  · exact .violation _ _ _

/-- The rule for every form is imitated when the checks of the parts are. -/
private theorem rule_imitates (term : Term) : ImitatedRule cx cx' term := by
  intro φ σ scope scope' env env' s s' hw hown h span
  cases term with
  | lit v => cases v <;> exact .pure (filled_prim _)
  | not e =>
    refine (h.imitates hw (by simp [Term.parts])).bind fun t t' s₁ s₁' h₁ h₁' ht => ?_
    exact ((expectPrim_filled hw.filling ht .boolean).imitates _).bind fun _ _ _ _ _ _ _ => .pure (filled_prim _)
  | compare op l r =>
    refine (h.imitates hw (by simp [Term.parts])).bind fun t t' s₁ s₁' h₁ h₁' ht => ?_
    refine (h.imitates (hw.mono h₁ h₁') (by simp [Term.parts])).bind fun u u' s₂ s₂' h₂ h₂' hu => ?_
    exact (expectFit_imitates hw.filling .operands (ht.mono h₂ h₂') hu (.refl .exact)).bind
      fun _ _ _ _ _ _ _ => .pure (filled_prim _)
  | cond _ _ _ => exact cond_imitates hw hown h span
  | add l r =>
    refine (h.imitates hw (by simp [Term.parts])).bind fun t t' s₁ s₁' h₁ h₁' ht => ?_
    refine ((expectPrim_filled hw.filling ht .number).imitates _).bind fun _ _ s₂ s₂' h₂ h₂' _ => ?_
    refine (h.imitates ((hw.mono h₁ h₁').mono h₂ h₂') (by simp [Term.parts])).bind fun u u' s₃ s₃' h₃ h₃' hu => ?_
    exact ((expectPrim_filled hw.filling hu .number).imitates _).bind fun _ _ _ _ _ _ _ => .pure (filled_prim _)
  | var x =>
    have hfind := hw.env.find? x
    rw [Expr.fillTerm, Checker.rule, Checker.rule]
    generalize env.find? x = o, env'.find? x = o' at hfind ⊢
    cases hfind with
    | none => exact .violation _ _ _
    | some ht => exact .pure ht
  | lambda _ _ _ => exact lambda_imitates hcx haliases hw hown h span
  | call _ _ => exact call_imitates hcx hw hown h span
  | seq first rest =>
    refine (h.imitates hw (by simp [Term.parts])).bind fun _ _ s₁ s₁' h₁ h₁' _ => ?_
    exact h.imitates (hw.mono h₁ h₁') (by simp [Term.parts])
  | bind x value rest =>
    refine (h.imitates hw (by simp [Term.parts])).bind fun t t' s₁ s₁' h₁ h₁' ht => ?_
    exact h.later hw (by simp [Term.parts]) h₁ h₁' ((hw.env.mono h₁ h₁').bind ht x)
  | assign x value =>
    have hfind := hw.env.find? x
    rw [Expr.fillTerm, Checker.rule, Checker.rule]
    generalize env.find? x = o, env'.find? x = o' at hfind ⊢
    cases hfind with
    | none => exact .violation _ _ _
    | some hbound =>
      refine (h.imitates hw (by simp [Term.parts])).bind fun t t' s₁ s₁' h₁ h₁' ht => ?_
      exact (expectFit_imitates hw.filling .assignment (hbound.mono h₁ h₁') ht hcx.policy.assignment).bind
        fun _ _ _ _ h₂ h₂' _ => .pure (ht.mono h₂ h₂')
  | forIndex array index body rest =>
    exact loop_imitates hw h (fun _ => .number) (fun _ => filled_prim .number) index
  | forItem array item body rest => exact loop_imitates hw h id id item
  | emptyArray type =>
    refine ((resolve_imitates hcx haliases hw.scopes hown).imitates _).bind fun t t' s₁ s₁' h₁ h₁' ht => ?_
    exact ((expectArray_filled hw.filling ht).imitates _).bind fun _ _ _ _ h₂ h₂' _ => .pure (ht.mono h₂ h₂')
  | append array item =>
    refine (h.imitates hw (by simp [Term.parts])).bind fun t t' s₁ s₁' h₁ h₁' ht => ?_
    refine ((expectArray_filled hw.filling ht).imitates _).bind fun elem elem' s₂ s₂' h₂ h₂' helem => ?_
    refine (h.imitates ((hw.mono h₁ h₁').mono h₂ h₂') (by simp [Term.parts])).bind fun u u' s₃ s₃' h₃ h₃' hu => ?_
    refine (expectFit_imitates hw.filling .item (helem.mono h₃ h₃') hu (.refl .exact)).bind
      fun _ _ s₄ s₄' h₄ h₄' _ => .pure ?_
    exact ht.mono (le_trans h₂ (le_trans h₃ h₄)) (le_trans h₂' (le_trans h₃' h₄'))
  | emptyMap type =>
    refine ((resolve_imitates hcx haliases hw.scopes hown).imitates _).bind fun t t' s₁ s₁' h₁ h₁' ht => ?_
    exact ((expectMap_filled hw.filling ht).imitates _).bind fun _ _ _ _ h₂ h₂' _ => .pure (ht.mono h₂ h₂')
  | copyMap map =>
    refine (h.imitates hw (by simp [Term.parts])).bind fun t t' s₁ s₁' h₁ h₁' ht => ?_
    exact ((expectMap_filled hw.filling ht).imitates _).bind fun _ _ _ _ h₂ h₂' _ => .pure (ht.mono h₂ h₂')
  | insert _ _ _ => exact insert_imitates hw hown h span
  | hasKey map key =>
    refine (h.imitates hw (by simp [Term.parts])).bind fun t t' s₁ s₁' h₁ h₁' ht => ?_
    refine ((expectMap_filled hw.filling ht).imitates _).bind fun _ _ s₂ s₂' h₂ h₂' _ => ?_
    refine (h.imitates ((hw.mono h₁ h₁').mono h₂ h₂') (by simp [Term.parts])).bind fun k k' s₃ s₃' h₃ h₃' hk => ?_
    exact ((expectPrim_filled hw.filling hk .string).imitates _).bind fun _ _ _ _ _ _ _ => .pure (filled_prim _)
  | index base index =>
    refine (h.imitates hw (by simp [Term.parts])).bind fun t t' s₁ s₁' h₁ h₁' ht => ?_
    refine (h.imitates (hw.mono h₁ h₁') (by simp [Term.parts])).bind fun i i' s₂ s₂' h₂ h₂' hi => ?_
    exact (item_filled hw.filling (ht.mono h₂ h₂') hi).imitates _
  | object inits =>
    refine (inits_imitates hw h []).bind fun row row' s₁ s₁' h₁ h₁' hrow => .pure ?_
    exact filled_object hrow.1 hrow.2.1
  | property base name =>
    refine (h.imitates hw (by simp [Term.parts])).bind fun t t' s₁ s₁' h₁ h₁' ht => ?_
    exact (property_filled hw.filling ht name).imitates _
  | variant _ _ _ => exact variant_imitates hcx haliases hw hown h span
  | widen _ _ => exact widen_imitates hcx haliases hw hown h span
  | dispatch _ _ _ => exact dispatch_imitates hw hown h span
  | function _ _ _ _ _ => exact function_imitates hcx haliases hw hown h span
  | generic _ _ => exact generic_imitates hw hown h span
  | instantiate _ _ => exact instantiate_imitates hcx haliases hw hown h span

end Rules

/-! ### Expressions -/

/-- The check of a filled expression gives the filled type, or fails with an excuse. -/
theorem Expr.typeIn_imitates {cx cx' : Context} (hcx : cx.Widens cx') (haliases : cx.aliases.Unnumbered) (e : Expr) :
    e.Imitated cx cx' := by
  induction e using Expr.induct with
  | mk span term ih =>
    intro φ σ scope scope' env env' s s' hw hb
    cases hb with
    | mk own parts =>
      rw [Expr.fill, typeIn_mk, typeIn_mk]
      exact rule_imitates hcx haliases term hw own (fun e he => ⟨ih e he, parts e he⟩) span

/-- Closed types are as they are when they are filled. -/
theorem Env.Unnumbered.filled {env : Env} (h : env.Unnumbered) (σ : Name → Nameless Name) (names names' : List Name)
    (s s' : NameSupply) : Env.Filled σ names names' env env s s' := by
  refine List.forall₂_same.2 fun p hp => ?_
  obtain ⟨hw, hclosed, hnames⟩ := h p hp
  refine ⟨rfl, ⟨hw, fun x hx => absurd hx (hclosed x), aheadOfTy_of_at_sign_not_mem hnames s⟩,
    ⟨hw, fun x hx => absurd hx (hclosed x), aheadOfTy_of_at_sign_not_mem hnames s'⟩, ?_⟩
  have hfree : p.2.bare.fill σ = p.2.bare.fill .free :=
    Nameless.fill_congr fun x hx => absurd (has_nameless_iff.1 hx).1 (hclosed x)
  rw [hfree, Nameless.fill_id]

end MuTypes
