import MuTypes.Program
import MuTypes.Proofs.Rules
import MuTypes.Proofs.Spans.Annotations

/-!
# Expressions at other places

The outcome for an expression does not depend on places, apart from the place of a violation: where all places are
changed, that one is changed too (`Expr.typeIn_moved`).  In particular it is enough to know the true place of the one
node that is at fault (`Program.typeOf_eq`).
-/

namespace MuTypes

variable {f : Span → Span}

/-! ### Questions about types -/

section Shapes

theorem unrolled_moved (t : Ty) : Moved f (liftM t.unrolled : CheckM Ty) (liftM t.unrolled) :=
  .compare t.unrolled

theorem expectPrim_moved (p : Prim) (t : Ty) (span : Span) :
    Moved f (t.expectPrim p span) (t.expectPrim p (f span)) :=
  (unrolled_moved t).bind fun _ => .ite (.pure ()) (.violation _ span)

theorem expectArray_moved (t : Ty) (span : Span) : Moved f (t.expectArray span) (t.expectArray (f span)) := by
  refine (unrolled_moved t).bind fun t' => ?_
  split
  · exact .pure _
  · exact .violation _ span

theorem expectMap_moved (t : Ty) (span : Span) : Moved f (t.expectMap span) (t.expectMap (f span)) := by
  refine (unrolled_moved t).bind fun t' => ?_
  split
  · exact .pure _
  · exact .violation _ span

theorem expectFunc_moved (t : Ty) (span : Span) : Moved f (t.expectFunc span) (t.expectFunc (f span)) := by
  refine (unrolled_moved t).bind fun t' => ?_
  split
  · exact .pure _
  · exact .violation _ span

theorem expectGeneric_moved (t : Ty) (span : Span) : Moved f (t.expectGeneric span) (t.expectGeneric (f span)) := by
  refine (unrolled_moved t).bind fun t' => ?_
  split
  · exact .pure _
  · exact .violation _ span

theorem expectUnion_moved (t : Ty) (span : Span) : Moved f (t.expectUnion span) (t.expectUnion (f span)) := by
  refine (unrolled_moved t).bind fun t' => ?_
  split
  · exact .pure _
  · exact .violation _ span

theorem expectProperty_moved (row : Row) (name : Name) (span : Span) :
    Moved f (expectProperty row name span) (expectProperty row name (f span)) := by
  unfold expectProperty
  split
  · exact .pure _
  · exact .violation _ span

theorem expectVariant_moved (vs : Variants) (label : Name) (span : Span) :
    Moved f (expectVariant vs label span) (expectVariant vs label (f span)) := by
  unfold expectVariant
  split
  · exact .pure _
  · exact .violation _ span

theorem property_moved (t : Ty) (name : Name) (baseSpan span : Span) :
    Moved f (t.property name baseSpan span) (t.property name (f baseSpan) (f span)) := by
  refine (unrolled_moved t).bind fun t' => ?_
  split
  · exact expectProperty_moved _ name span
  · refine .ite (.pure _) ?_
    split
    · exact expectProperty_moved _ name span
    · exact .violation _ span
  · exact expectProperty_moved _ name span
  · exact .violation _ baseSpan

theorem item_moved (t index : Ty) (baseSpan indexSpan : Span) :
    Moved f (t.item index baseSpan indexSpan) (t.item index (f baseSpan) (f indexSpan)) := by
  refine (unrolled_moved t).bind fun t' => ?_
  split
  · exact (expectPrim_moved .number index indexSpan).bind fun _ => .pure _
  · exact (expectPrim_moved .string index indexSpan).bind fun _ => .pure _
  · exact .violation _ baseSpan

end Shapes

/-! ### Agreement -/

/-- The context with all places in it changed by `f`. -/
def Context.mapSpan (f : Span → Span) (cx : Context) : Context :=
  { cx with aliases := cx.aliases.map (Alias.mapSpan f) }

section Agreement

variable (cx : Context) (scope : Scope)

theorem fits_moved (fit : Fit) (e a : Ty) :
    Moved f (cx.fits scope fit e a) ((cx.mapSpan f).fits scope fit e a) :=
  .compare _

theorem expectFit_moved (site : Site) (fit : Fit) (e a : Ty) (span : Span) :
    Moved f (cx.expectFit scope site fit e a span) ((cx.mapSpan f).expectFit scope site fit e a (f span)) :=
  (fits_moved cx scope fit e a).bind fun _ => .ite (.pure ()) (.violation _ span)

theorem expectResult_moved (e a : Ty) (span : Span) :
    Moved f (cx.expectResult scope e a span) ((cx.mapSpan f).expectResult scope e a (f span)) :=
  (fits_moved cx scope .exact e a).bind fun _ => .ite (.pure ()) (.violation _ span)

theorem common_moved (site : Site) (a b : Ty) (span : Span) :
    Moved f (cx.common scope site a b span) ((cx.mapSpan f).common scope site a b (f span)) :=
  (expectFit_moved cx scope site .exact a b span).bind fun _ => .pure _

theorem commonClause_moved (sofar : Option Ty) (t : Ty) (span : Span) :
    Moved f (cx.commonClause scope sofar t span) ((cx.mapSpan f).commonClause scope sofar t (f span)) := by
  cases sofar with
  | none => exact .pure t
  | some s => exact common_moved cx scope .clauses s t span

theorem expectRow_moved (declared given : Row) (span : Span) :
    Moved f (cx.expectRow scope declared given span) ((cx.mapSpan f).expectRow scope declared given (f span)) := by
  refine Moved.bind (Moved.forM fun p _ => ?_) fun _ => ?_
  · exact (expectProperty_moved declared p.1 span).bind fun t => expectFit_moved cx scope .variant .exact t p.2 span
  · split
    · exact .violation _ span
    · exact .pure ()

theorem expectVariants_moved (target source : Variants) (span : Span) :
    Moved f (cx.expectVariants scope target source span)
      ((cx.mapSpan f).expectVariants scope target source (f span)) := by
  refine Moved.forM fun v _ => ?_
  exact (expectVariant_moved target v.1 span).bind fun row => expectRow_moved cx scope row v.2 span

/-! ### Annotations -/

theorem resolve_moved (e : TyExpr) : Moved f (cx.resolve scope e) ((cx.mapSpan f).resolve scope (e.mapSpan f)) :=
  TyExpr.resolve_moved f cx.aliases scope e

theorem paramRow_moved (params : List (Name × TyExpr)) :
    Moved f (cx.paramRow scope params) ((cx.mapSpan f).paramRow scope (params.map fun p => (p.1, p.2.mapSpan f))) :=
  .mapM fun p _ => (resolve_moved cx scope p.2).bind fun _ => .pure _

end Agreement

/-! ### Tests -/

namespace Expr

@[simp] theorem span_mapSpan (e : Expr) : (e.mapSpan f).span = f e.span := by
  cases e
  rfl

theorem mapSpanArgs_eq_map (es : List Expr) : mapSpanArgs f es = es.map (·.mapSpan f) := by
  induction es with
  | nil => rfl
  | cons e es ih => exact congrArg (_ :: ·) ih

theorem mapSpanNamed_eq_map (es : List (Name × Expr)) : mapSpanNamed f es = es.map fun p => (p.1, p.2.mapSpan f) := by
  induction es with
  | nil => rfl
  | cons e es ih => exact congrArg (_ :: ·) ih

theorem length_mapSpanArgs (es : List Expr) : (mapSpanArgs f es).length = es.length := by
  rw [mapSpanArgs_eq_map, List.length_map]

theorem names_mapSpanNamed (es : List (Name × Expr)) : (mapSpanNamed f es).map Prod.fst = es.map Prod.fst := by
  rw [mapSpanNamed_eq_map, List.map_map]
  rfl

/-- A test says the same at other places. -/
theorem evidence?_mapSpan (e : Expr) : (e.mapSpan f).evidence? = e.evidence? := by
  obtain ⟨span, term⟩ := e
  -- the recognised forms are two or three terms deep, and what is below them does not matter
  cases term with
  | not e =>
    obtain ⟨_, term⟩ := e
    cases term with
    | dispatch _ _ fallback => cases fallback <;> rfl
    | _ => rfl
  | compare op l r =>
    obtain ⟨_, term⟩ := l
    cases term with
    | property base name =>
      obtain ⟨_, term⟩ := base
      obtain ⟨_, term'⟩ := r
      cases term with
      | var x =>
        cases term' with
        | lit v => cases v <;> rfl
        | dispatch _ _ fallback => cases fallback <;> rfl
        | _ => rfl
      | dispatch _ _ fallback => cases fallback <;> rfl
      | _ => rfl
    | dispatch _ _ fallback => cases fallback <;> rfl
    | _ => rfl
  | dispatch _ _ fallback => cases fallback <;> rfl
  | _ => rfl

end Expr

namespace Env

variable (env : Env)

theorem defined?_moved (x : Name) : Moved f (env.defined? x) (env.defined? x) := by
  unfold defined?
  split
  · exact .pure none
  · refine (unrolled_moved _).bind fun t' => ?_
    split
    · exact .pure _
    · exact .pure none

theorem split?_moved (x label : Name) (span : Span) :
    Moved f (env.split? x label span) (env.split? x label (f span)) := by
  unfold split?
  split
  · exact .pure none
  · refine (unrolled_moved _).bind fun t' => ?_
    split
    · exact .ite (.violation _ span) (.pure _)
    · exact .pure none

theorem refine?_moved (test : Expr) : Moved f (env.refine? test) (env.refine? (test.mapSpan f)) := by
  unfold refine?
  rw [Expr.evidence?_mapSpan, Expr.span_mapSpan]
  split
  · exact .pure none
  · exact (defined?_moved env _).bind fun _ => .pure _
  · exact (defined?_moved env _).bind fun _ => .pure _
  · exact split?_moved env _ _ test.span
  · exact (split?_moved env _ _ test.span).bind fun _ => .pure _

end Env

/-! ### Rules -/

/-- For the expression the second checker gives at the places that `f` gives what the first one gives as it stands. -/
def Checker.MovesAt (f : Span → Span) (check check' : Checker) (e : Expr) : Prop :=
  ∀ scope env, Moved f (check scope env e) (check' scope env (e.mapSpan f))

namespace Checker

variable {check check' : Checker} {cx : Context} (scope : Scope) (env : Env)

private theorem args_moved {es : List Expr} (h : ∀ e ∈ es, check.MovesAt f check' e) (ps : Row) :
    Moved f (check.args cx scope env ps es)
      (check'.args (cx.mapSpan f) scope env ps (Expr.mapSpanArgs f es)) := by
  induction es generalizing ps with
  | nil => cases ps <;> exact .pure ()
  | cons e es ih =>
    obtain ⟨he, hes⟩ := List.forall_mem_cons.1 h
    cases ps with
    | nil => exact .pure ()
    | cons p ps =>
      unfold Expr.mapSpanArgs args
      rw [Expr.span_mapSpan]
      exact (he scope env).bind fun t =>
        (expectFit_moved cx scope .argument _ p.2 t e.span).bind fun _ => ih hes ps

private theorem inits_moved {es : List (Name × Expr)} (h : ∀ e ∈ es.map Prod.snd, check.MovesAt f check' e)
    (span : Span) (seen : List Name) :
    Moved f (check.inits scope env span seen es)
      (check'.inits scope env (f span) seen (Expr.mapSpanNamed f es)) := by
  induction es generalizing seen with
  | nil => exact .pure _
  | cons e es ih =>
    obtain ⟨he, hes⟩ := List.forall_mem_cons.1 h
    exact .ite (.violation _ span) ((he scope env).bind fun t => (ih hes (e.1 :: seen)).bind fun _ => .pure _)

private theorem declaredInits_moved {es : List (Name × Expr)} (h : ∀ e ∈ es.map Prod.snd, check.MovesAt f check' e)
    (span : Span) (declared : Row) (seen : List Name) :
    Moved f (check.declaredInits cx scope env span declared seen es)
      (check'.declaredInits (cx.mapSpan f) scope env (f span) declared seen (Expr.mapSpanNamed f es)) := by
  induction es generalizing seen with
  | nil => exact .pure ()
  | cons e es ih =>
    obtain ⟨he, hes⟩ := List.forall_mem_cons.1 h
    unfold Expr.mapSpanNamed declaredInits
    rw [Expr.span_mapSpan]
    refine .ite (.violation _ span) ?_
    exact (expectProperty_moved declared e.1 span).bind fun p => (he scope env).bind fun t =>
      (expectFit_moved cx scope .variant .exact p t e.2.span).bind fun _ => ih hes (e.1 :: seen)

private theorem clauses_moved {es : List (Name × Expr)} (h : ∀ e ∈ es.map Prod.snd, check.MovesAt f check' e)
    (span : Span) (x : Name) (vs : Variants) (seen : List Name) (sofar : Option Ty) :
    Moved f (check.clauses cx scope env span x vs seen sofar es)
      (check'.clauses (cx.mapSpan f) scope env (f span) x vs seen sofar (Expr.mapSpanNamed f es)) := by
  induction es generalizing seen sofar with
  | nil => exact .pure sofar
  | cons e es ih =>
    obtain ⟨he, hes⟩ := List.forall_mem_cons.1 h
    unfold Expr.mapSpanNamed clauses
    rw [Expr.span_mapSpan]
    refine .ite (.violation _ e.2.span) ?_
    exact (expectVariant_moved vs e.1 e.2.span).bind fun row => (he scope (env.bind x (.object row))).bind fun t =>
      (commonClause_moved cx scope sofar t span).bind fun u => ih hes (e.1 :: seen) (some u)

private theorem dispatch_moved {x : Name} {clauses : List (Name × Expr)} {fallback : Option Expr}
    (h : ∀ e ∈ (Term.dispatch x clauses fallback).parts, check.MovesAt f check' e) (span : Span) :
    Moved f (check.rule cx scope env span (.dispatch x clauses fallback))
      (check'.rule (cx.mapSpan f) scope env (f span) (Expr.mapSpanTerm f (.dispatch x clauses fallback))) := by
  have hclauses : ∀ e ∈ clauses.map Prod.snd, check.MovesAt f check' e := fun e he =>
    h e (List.mem_append_left _ he)
  cases fallback with
  | none =>
    simp only [rule, Expr.mapSpanTerm, Expr.names_mapSpanNamed]
    cases env.find? x with
    | none => exact .violation _ span
    | some bound =>
      refine (expectUnion_moved bound span).bind fun vs => ?_
      refine (clauses_moved scope env hclauses span x vs [] none).bind fun sofar => ?_
      exact .ite (.pure _) (.violation _ span)
  | some body =>
    have hbody : check.MovesAt f check' body := h body (by simp [Term.parts])
    simp only [rule, Expr.mapSpanTerm, Expr.names_mapSpanNamed]
    cases env.find? x with
    | none => exact .violation _ span
    | some bound =>
      refine (expectUnion_moved bound span).bind fun vs => ?_
      refine (clauses_moved scope env hclauses span x vs [] none).bind fun sofar => ?_
      exact (hbody scope _).bind fun t => commonClause_moved cx scope sofar t span

/-- A rule gives the same at other places when the checkers do so for the parts. -/
theorem rule_moved {term : Term} (h : ∀ e ∈ term.parts, check.MovesAt f check' e) (span : Span) :
    Moved f (check.rule cx scope env span term)
      (check'.rule (cx.mapSpan f) scope env (f span) (Expr.mapSpanTerm f term)) := by
  cases term with
  | lit v => cases v <;> exact .pure _
  | dispatch _ _ _ => exact dispatch_moved scope env h span
  | call callee args =>
    have hargs : ∀ e ∈ args, check.MovesAt f check' e := fun e he => h e (List.mem_cons_of_mem callee he)
    simp only [rule, Expr.mapSpanTerm, Expr.span_mapSpan, Expr.length_mapSpanArgs]
    refine (h callee (by simp [Term.parts]) scope env).bind fun t => ?_
    refine (expectFunc_moved t callee.span).bind fun q => ?_
    exact .ite ((args_moved scope env hargs q.1).bind fun _ => .pure _) (.violation _ span)
  | object inits =>
    exact (inits_moved scope env h span []).bind fun row => .pure _
  | variant label inits type =>
    refine (resolve_moved cx scope type).bind fun t => ?_
    refine (expectUnion_moved t span).bind fun vs => ?_
    refine (expectVariant_moved vs label span).bind fun row => ?_
    exact (declaredInits_moved scope env h span row []).bind fun _ => .pure _
  | lambda params result body =>
    refine (paramRow_moved cx scope params).bind fun ps => ?_
    refine (h body (by simp [Term.parts]) scope (env.bindAll ps)).bind fun t => ?_
    cases result with
    | none => exact .pure _
    | some e =>
      refine (resolve_moved cx scope e).bind fun r => ?_
      exact (expectResult_moved cx scope r t span).bind fun _ => .pure _
  | var x =>
    simp only [rule, Expr.mapSpanTerm]
    cases env.find? x with
    | some t => exact .pure t
    | none => exact .violation _ span
  | assign x value =>
    simp only [rule, Expr.mapSpanTerm, Expr.span_mapSpan]
    cases env.find? x with
    | none => exact .violation _ span
    | some bound =>
      refine (h value (by simp [Term.parts]) scope env).bind fun t => ?_
      exact (expectFit_moved cx scope .assignment _ bound t value.span).bind fun _ => .pure _
  | not e =>
    simp only [rule, Expr.mapSpanTerm, Expr.span_mapSpan]
    refine (h e (by simp [Term.parts]) scope env).bind fun t => ?_
    exact (expectPrim_moved .boolean t e.span).bind fun _ => .pure _
  | compare op l r =>
    refine (h l (by simp [Term.parts]) scope env).bind fun t => (h r (by simp [Term.parts]) scope env).bind fun u => ?_
    exact (expectFit_moved cx scope .operands .exact t u span).bind fun _ => .pure _
  | cond test yes no =>
    have hyes := h yes (by simp [Term.parts])
    have hno := h no (by simp [Term.parts])
    simp only [rule, Expr.mapSpanTerm, Expr.span_mapSpan]
    refine (env.refine?_moved test).bind fun o => ?_
    cases o with
    | some envs =>
      exact (hyes scope envs.1).bind fun t => (hno scope envs.2).bind fun u =>
        common_moved cx scope .branches t u span
    | none =>
      refine (h test (by simp [Term.parts]) scope env).bind fun t₀ => ?_
      exact (expectPrim_moved .boolean t₀ test.span).bind fun _ => (hyes scope env).bind fun t =>
        (hno scope env).bind fun u => common_moved cx scope .branches t u span
  | add l r =>
    simp only [rule, Expr.mapSpanTerm, Expr.span_mapSpan]
    refine (h l (by simp [Term.parts]) scope env).bind fun t => ?_
    refine (expectPrim_moved .number t l.span).bind fun _ => ?_
    refine (h r (by simp [Term.parts]) scope env).bind fun u => ?_
    exact (expectPrim_moved .number u r.span).bind fun _ => .pure _
  | seq first rest =>
    exact (h first (by simp [Term.parts]) scope env).bind fun _ => h rest (by simp [Term.parts]) scope env
  | bind x value rest =>
    exact (h value (by simp [Term.parts]) scope env).bind fun t => h rest (by simp [Term.parts]) scope (env.bind x t)
  | forIndex array index body rest =>
    simp only [rule, Expr.mapSpanTerm, Expr.span_mapSpan]
    refine (h array (by simp [Term.parts]) scope env).bind fun t => ?_
    refine (expectArray_moved t array.span).bind fun elem => ?_
    exact (h body (by simp [Term.parts]) scope (env.bind index .number)).bind fun u =>
      (h rest (by simp [Term.parts]) scope env).bind fun v => common_moved cx scope .loop u v span
  | forItem array item body rest =>
    simp only [rule, Expr.mapSpanTerm, Expr.span_mapSpan]
    refine (h array (by simp [Term.parts]) scope env).bind fun t => ?_
    refine (expectArray_moved t array.span).bind fun elem => ?_
    exact (h body (by simp [Term.parts]) scope (env.bind item elem)).bind fun u =>
      (h rest (by simp [Term.parts]) scope env).bind fun v => common_moved cx scope .loop u v span
  | emptyArray type =>
    refine (resolve_moved cx scope type).bind fun t => ?_
    exact (expectArray_moved t span).bind fun _ => .pure _
  | append array item =>
    simp only [rule, Expr.mapSpanTerm, Expr.span_mapSpan]
    refine (h array (by simp [Term.parts]) scope env).bind fun t => ?_
    refine (expectArray_moved t array.span).bind fun elem => ?_
    refine (h item (by simp [Term.parts]) scope env).bind fun i => ?_
    exact (expectFit_moved cx scope .item .exact elem i item.span).bind fun _ => .pure _
  | emptyMap type =>
    refine (resolve_moved cx scope type).bind fun t => ?_
    exact (expectMap_moved t span).bind fun _ => .pure _
  | copyMap map =>
    simp only [rule, Expr.mapSpanTerm, Expr.span_mapSpan]
    refine (h map (by simp [Term.parts]) scope env).bind fun t => ?_
    exact (expectMap_moved t map.span).bind fun _ => .pure _
  | insert map key item =>
    simp only [rule, Expr.mapSpanTerm, Expr.span_mapSpan]
    refine (h map (by simp [Term.parts]) scope env).bind fun t => ?_
    refine (expectMap_moved t map.span).bind fun elem => ?_
    refine (h key (by simp [Term.parts]) scope env).bind fun u => ?_
    refine (expectPrim_moved .string u key.span).bind fun _ => ?_
    refine (h item (by simp [Term.parts]) scope env).bind fun i => ?_
    exact (expectFit_moved cx scope .item .exact elem i item.span).bind fun _ => .pure _
  | hasKey map key =>
    simp only [rule, Expr.mapSpanTerm, Expr.span_mapSpan]
    refine (h map (by simp [Term.parts]) scope env).bind fun t => ?_
    refine (expectMap_moved t map.span).bind fun _ => ?_
    refine (h key (by simp [Term.parts]) scope env).bind fun u => ?_
    exact (expectPrim_moved .string u key.span).bind fun _ => .pure _
  | index base index =>
    simp only [rule, Expr.mapSpanTerm, Expr.span_mapSpan]
    exact (h base (by simp [Term.parts]) scope env).bind fun t =>
      (h index (by simp [Term.parts]) scope env).bind fun i => item_moved t i base.span index.span
  | property base name =>
    simp only [rule, Expr.mapSpanTerm, Expr.span_mapSpan]
    exact (h base (by simp [Term.parts]) scope env).bind fun t => property_moved t name base.span span
  | widen value type =>
    simp only [rule, Expr.mapSpanTerm, Expr.span_mapSpan]
    refine (h value (by simp [Term.parts]) scope env).bind fun t => ?_
    refine (resolve_moved cx scope type).bind fun u => ?_
    refine (expectUnion_moved u span).bind fun target => ?_
    refine (expectUnion_moved t value.span).bind fun source => ?_
    exact (expectVariants_moved cx scope target source span).bind fun _ => .pure _
  | function g params result body rest =>
    refine (paramRow_moved cx scope params).bind fun ps => ?_
    refine (resolve_moved cx scope result).bind fun r => ?_
    refine (h body (by simp [Term.parts]) scope _).bind fun t => ?_
    refine (expectResult_moved cx scope r t span).bind fun _ => ?_
    exact h rest (by simp [Term.parts]) scope _
  | generic params body =>
    refine (expectDistinct_moved params span).bind fun _ => .bind (.lift _) fun vars => ?_
    exact (h body (by simp [Term.parts]) (scope.enterParams params vars) env).bind fun t => .pure _
  | instantiate target args =>
    simp only [rule, Expr.mapSpanTerm, Expr.span_mapSpan, List.length_map]
    refine (h target (by simp [Term.parts]) scope env).bind fun t => ?_
    refine (expectGeneric_moved t target.span).bind fun q => ?_
    refine .ite ?_ (.violation _ span)
    exact (Moved.mapM fun a _ => resolve_moved cx scope a).bind fun ts => .lift _

end Checker

/-! ### Expressions -/

/-- An expression has the same type at other places, and what is wrong with it is wrong at the other place. -/
theorem Expr.typeIn_moved (cx : Context) (e : Expr) :
    Checker.MovesAt f (typeIn cx) (typeIn (cx.mapSpan f)) e := by
  induction e using Expr.induct with
  | mk span term ih =>
    intro scope env
    unfold Expr.mapSpan
    rw [typeIn_mk, typeIn_mk]
    exact Checker.rule_moved scope env ih span

/-- What is said of a program whose nodes are numbered is what holds of the program with all nodes at their places. -/
theorem Program.typeOf_eq (p : Program) (policy : Policy) (env : Env) (e : Expr) :
    p.typeOf policy env e =
      (e.mapSpan p.place).typeOf { aliases := p.aliases.map (Alias.mapSpan p.place), policy } env :=
  (Expr.typeIn_moved { aliases := p.aliases, policy } e [] env).symm

theorem Program.resolve_eq (p : Program) (t : TyExpr) :
    p.resolve t = (t.mapSpan p.place).resolve (p.aliases.map (Alias.mapSpan p.place)) [] :=
  (TyExpr.resolve_moved p.place p.aliases [] t).symm

end MuTypes
