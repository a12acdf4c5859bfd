import MuTypes.Typing.Rules

/-!
# One step of the typing rules

`Checker.rule` is the rule for one form of expression, with the types of its direct parts given by any checker.  The
type of an expression is what its rule gives with the types of its parts (`typeIn_mk`), so what holds of all
expressions is shown rule by rule and carried through them by `Expr.induct`.

A rule depends only on what the checker says where the rule calls it.  This says which calls it makes (`Calls`): those
whose failure is a failure of the rule, whatever the failure is.
-/

namespace MuTypes

/-! ### Parts -/

/-- The direct parts, in order. -/
def Term.parts : Term → List Expr
  | .lit _ | .var _ | .emptyArray _ | .emptyMap _ => []
  | .not e | .copyMap e | .lambda _ _ e | .assign _ e | .property e _ | .widen e _ | .generic _ e | .instantiate e _ =>
    [e]
  | .compare _ l r | .add l r | .seq l r | .bind _ l r | .append l r | .hasKey l r | .index l r
  | .function _ _ _ l r => [l, r]
  | .cond a b c | .insert a b c | .forIndex a _ b c | .forItem a _ b c => [a, b, c]
  | .call c es => c :: es
  | .object inits | .variant _ inits _ => inits.map Prod.snd
  | .dispatch _ clauses fallback => clauses.map Prod.snd ++ fallback.toList

namespace Expr

private theorem sizeOf_lt_of_mem_named {e : Expr} {es : List (Name × Expr)} (h : e ∈ es.map Prod.snd) :
    sizeOf e < sizeOf es := by
  obtain ⟨p, hp, rfl⟩ := List.mem_map.1 h
  have hlist := List.sizeOf_lt_of_mem hp
  have hpair : sizeOf p = 1 + sizeOf p.1 + sizeOf p.2 := by
    cases p
    rfl
  omega

theorem sizeOf_lt_of_mem_parts {e : Expr} {t : Term} (h : e ∈ t.parts) : sizeOf e < sizeOf t := by
  cases t with
  | lit _ | var _ | emptyArray _ | emptyMap _ => cases h
  | not _ | copyMap _ | lambda _ _ _ | assign _ _ | property _ _ | widen _ _ | generic _ _ | instantiate _ _ =>
    obtain rfl := List.mem_singleton.1 h
    simp <;> omega
  | compare _ _ _ | add _ _ | seq _ _ | bind _ _ _ | append _ _ | hasKey _ _ | index _ _ | function _ _ _ _ _ =>
    simp only [Term.parts, List.mem_cons, List.not_mem_nil, or_false] at h
    rcases h with rfl | rfl <;> simp <;> omega
  | cond _ _ _ | insert _ _ _ | forIndex _ _ _ _ | forItem _ _ _ _ =>
    simp only [Term.parts, List.mem_cons, List.not_mem_nil, or_false] at h
    rcases h with rfl | rfl | rfl <;> simp <;> omega
  | call c es =>
    rcases List.mem_cons.1 h with rfl | h
    · simp
      omega
    · have := List.sizeOf_lt_of_mem h
      simp
      omega
  | object inits =>
    have := sizeOf_lt_of_mem_named h
    simp
    omega
  | variant _ inits _ =>
    have := sizeOf_lt_of_mem_named h
    simp
    omega
  | dispatch x clauses fallback =>
    rcases List.mem_append.1 h with h | h
    · have := sizeOf_lt_of_mem_named h
      simp
      omega
    · obtain rfl := Option.mem_toList.1 h
      simp
      omega

/-- Induction over expressions, with a hypothesis for every direct part. -/
@[elab_as_elim]
theorem induct {motive : Expr → Prop} (mk : ∀ span term, (∀ e ∈ term.parts, motive e) → motive (.mk span term))
    (e : Expr) : motive e := by
  have hbound : ∀ n (e : Expr), sizeOf e ≤ n → motive e := by
    intro n
    induction n with
    | zero =>
      intro e he
      cases e
      simp at he
    | succ n ih =>
      intro e he
      cases e with
      | mk span term =>
        refine mk span term fun e' he' => ih e' ?_
        have hpart := sizeOf_lt_of_mem_parts he'
        simp only [Expr.mk.sizeOf_spec] at he
        omega
  exact hbound (sizeOf e) e (Nat.le_refl _)

end Expr

/-! ### Rules -/

/-- How expressions get their types, in a scope and an environment. -/
abbrev Checker := Scope → Env → Expr → CheckM Ty

namespace Checker

variable (check : Checker) (cx : Context) (scope : Scope) (env : Env)

/-- Each argument has to fit its parameter. -/
def args : Row → List Expr → CheckM Unit
  | p :: ps, e :: es => do
    let t ← check scope env e
    cx.expectFit scope .argument cx.policy.argument p.2 t e.span
    args ps es
  | _, _ => return ()

/-- The properties of an object, whose names differ from each other and from those already `seen`. -/
def inits (span : Span) (seen : List Name) : List (Name × Expr) → CheckM Row
  | [] => return []
  | (n, e) :: rest =>
    if n ∈ seen then
      CheckM.violation (.duplicateProperty n) span
    else do
      let t ← check scope env e
      return (n, t) :: (← inits span (n :: seen) rest)

/-- The properties given to a variant: each has to be declared, to be given once and to fit. -/
def declaredInits (span : Span) (declared : Row) (seen : List Name) : List (Name × Expr) → CheckM Unit
  | [] => return ()
  | (n, e) :: rest =>
    if n ∈ seen then
      CheckM.violation (.duplicateProperty n) span
    else do
      let p ← expectProperty declared n span
      let t ← check scope env e
      cx.expectFit scope .variant .exact p t e.span
      declaredInits span declared (n :: seen) rest

/-- The type that the clauses of a dispatch on `x` have in common.  Each is for a variant of its own, and sees `x` as
the object of that variant. -/
def clauses (span : Span) (x : Name) (vs : Variants) (seen : List Name) (sofar : Option Ty) :
    List (Name × Expr) → CheckM (Option Ty)
  | [] => return sofar
  | (label, body) :: rest =>
    if label ∈ seen then
      CheckM.violation (.duplicateVariant label) body.span
    else do
      let row ← expectVariant vs label body.span
      let t ← check scope (env.bind x (.object row)) body
      let joined ← cx.commonClause scope sofar t span
      clauses span x vs (label :: seen) (some joined) rest

/-- The type of what stands at the given place, with the types of its parts. -/
def rule (span : Span) : Term → CheckM Ty
  | .lit (.boolean _) => return .boolean
  | .lit .number => return .number
  | .lit (.string _) => return .string
  | .lit .undefined => return .undefined
  | .not e => do
    (← check scope env e).expectPrim .boolean e.span
    return .boolean
  | .compare _ l r => do
    let s ← check scope env l
    let t ← check scope env r
    cx.expectFit scope .operands .exact s t span
    return .boolean
  | .cond test yes no => do
    match ← env.refine? test with
    | some (envYes, envNo) =>
      let s ← check scope envYes yes
      let t ← check scope envNo no
      cx.common scope .branches s t span
    | none =>
      (← check scope env test).expectPrim .boolean test.span
      let s ← check scope env yes
      let t ← check scope env no
      cx.common scope .branches s t span
  | .add l r => do
    (← check scope env l).expectPrim .number l.span
    (← check scope env r).expectPrim .number r.span
    return .number
  | .var x =>
    match env.find? x with
    | some t => return t
    | none => CheckM.violation (.unboundVariable x) span
  | .lambda params result body => do
    let ps ← cx.paramRow scope params
    let t ← check scope (env.bindAll ps) body
    match result with
    | none => return .func ps t
    | some result =>
      let r ← cx.resolve scope result
      cx.expectResult scope r t span
      return .func ps r
  | .call callee args => do
    let (ps, r) ← (← check scope env callee).expectFunc callee.span
    if ps.length = args.length then
      check.args cx scope env ps args
      return r
    else
      CheckM.violation (.arity ps.length args.length) span
  | .seq first rest => do
    let _ ← check scope env first
    check scope env rest
  | .bind x value rest => do
    let t ← check scope env value
    check scope (env.bind x t) rest
  | .assign x value =>
    match env.find? x with
    | none => CheckM.violation (.unboundVariable x) span
    | some bound => do
      let t ← check scope env value
      cx.expectFit scope .assignment cx.policy.assignment bound t value.span
      return t
  | .forIndex array index body rest => do
    let _ ← (← check scope env array).expectArray array.span
    let s ← check scope (env.bind index .number) body
    let t ← check scope env rest
    cx.common scope .loop s t span
  | .forItem array item body rest => do
    let elem ← (← check scope env array).expectArray array.span
    let s ← check scope (env.bind item elem) body
    let t ← check scope env rest
    cx.common scope .loop s t span
  | .emptyArray type => do
    let t ← cx.resolve scope type
    let _ ← t.expectArray span
    return t
  | .append array item => do
    let t ← check scope env array
    let elem ← t.expectArray array.span
    let i ← check scope env item
    cx.expectFit scope .item .exact elem i item.span
    return t
  | .emptyMap type => do
    let t ← cx.resolve scope type
    let _ ← t.expectMap span
    return t
  | .copyMap map => do
    let t ← check scope env map
    let _ ← t.expectMap map.span
    return t
  | .insert map key item => do
    let t ← check scope env map
    let elem ← t.expectMap map.span
    (← check scope env key).expectPrim .string key.span
    let i ← check scope env item
    cx.expectFit scope .item .exact elem i item.span
    return t
  | .hasKey map key => do
    let _ ← (← check scope env map).expectMap map.span
    (← check scope env key).expectPrim .string key.span
    return .boolean
  | .index base index => do
    let t ← check scope env base
    let i ← check scope env index
    t.item i base.span index.span
  | .object inits => return .object (← check.inits scope env span [] inits)
  | .property base name => do
    (← check scope env base).property name base.span span
  | .variant label inits type => do
    let t ← cx.resolve scope type
    let row ← expectVariant (← t.expectUnion span) label span
    check.declaredInits cx scope env span row [] inits
    return t
  | .widen value type => do
    let s ← check scope env value
    let t ← cx.resolve scope type
    let target ← t.expectUnion span
    let source ← s.expectUnion value.span
    cx.expectVariants scope target source span
    return t
  | .dispatch x clauses fallback =>
    match env.find? x with
    | none => CheckM.violation (.unboundVariable x) span
    | some bound => do
      let vs ← bound.expectUnion span
      let sofar ← check.clauses cx scope env span x vs [] none clauses
      let others := vs.filter fun v => v.1 ∉ clauses.map Prod.fst
      match fallback with
      | some body => do
        let t ← check scope (env.bind x (.union others)) body
        cx.commonClause scope sofar t span
      | none =>
        if others.isEmpty then
          return sofar.getD .undefined
        else
          CheckM.violation (.nonExhaustive (others.map Prod.fst)) span
  | .function f params result body rest => do
    let ps ← cx.paramRow scope params
    let r ← cx.resolve scope result
    let t ← check scope ((env.bindAll ps).bind f (.func ps r)) body
    cx.expectResult scope r t span
    check scope (env.bind f (.func ps r)) rest
  | .generic params body => do
    expectDistinct params span
    let vars ← scope.meaningsFor params
    let t ← check (scope.enterParams params vars) env body
    return .generic vars t
  | .instantiate target args => do
    let (ns, body) ← (← check scope env target).expectGeneric target.span
    if ns.length = args.length then
      let ts ← args.mapM (cx.resolve scope)
      body.instantiate ns ts
    else
      CheckM.violation (.genericArity ns.length args.length) span

end Checker

/-! ### What the rules give -/

namespace Expr

variable (cx : Context) (scope : Scope) (env : Env)

private theorem expectArgs_eq (ps : Row) (es : List Expr) :
    expectArgs cx scope env ps es = Checker.args (typeIn cx) cx scope env ps es := by
  induction es generalizing ps with
  | nil => cases ps <;> rfl
  | cons e es ih =>
    cases ps with
    | nil => rfl
    | cons p ps => simp only [expectArgs, Checker.args, ih]

private theorem initRow_eq (span : Span) (seen : List Name) (es : List (Name × Expr)) :
    initRow cx scope env span seen es = Checker.inits (typeIn cx) scope env span seen es := by
  induction es generalizing seen with
  | nil => rfl
  | cons e es ih => simp only [initRow, Checker.inits, ih]

private theorem expectInits_eq (span : Span) (declared : Row) (seen : List Name) (es : List (Name × Expr)) :
    expectInits cx scope env span declared seen es =
      Checker.declaredInits (typeIn cx) cx scope env span declared seen es := by
  induction es generalizing seen with
  | nil => rfl
  | cons e es ih => simp only [expectInits, Checker.declaredInits, ih]

private theorem clausesType_eq (span : Span) (x : Name) (vs : Variants) (seen : List Name) (sofar : Option Ty)
    (es : List (Name × Expr)) :
    clausesType cx scope env span x vs seen sofar es =
      Checker.clauses (typeIn cx) cx scope env span x vs seen sofar es := by
  induction es generalizing seen sofar with
  | nil => rfl
  | cons e es ih => simp only [clausesType, Checker.clauses, ih]

/-- The type of an expression is what the rule for its form gives with the types of its parts. -/
theorem typeIn_mk (span : Span) (term : Term) :
    (Expr.mk span term).typeIn cx scope env = Checker.rule (typeIn cx) cx scope env span term := by
  rw [typeIn]
  cases term with
  | lit v => cases v <;> rfl
  | call c es => simp only [termType, Checker.rule, expectArgs_eq]
  | object inits => simp only [termType, Checker.rule, initRow_eq]
  | variant l inits type => simp only [termType, Checker.rule, expectInits_eq]
  | dispatch x clauses fallback =>
    rw [termType]
    simp only [clausesType_eq]
    rfl
  | cond _ _ _ | var _ | lambda _ _ _ | assign _ _ =>
    rw [termType]
    rfl
  | _ => simp only [termType, Checker.rule]

end Expr

/-! ### Calls -/

/-- A call of the checker, and the supply from which it starts. -/
structure Call where
  scope : Scope
  env : Env
  expr : Expr
  supply : NameSupply

namespace Call

/-- What a checker gives for the call. -/
def outcome (check : Checker) (c : Call) : Except Failure Ty × NameSupply :=
  (check c.scope c.env c.expr).run.run c.supply

/-- What the rule gives for the call, with the types of parts from a checker. -/
def ruleOutcome (check : Checker) (cx : Context) (c : Call) : Except Failure Ty × NameSupply :=
  (check.rule cx c.scope c.env c.expr.span c.expr.term).run.run c.supply

theorem ruleOutcome_typeIn (cx : Context) (c : Call) :
    c.ruleOutcome (Expr.typeIn cx) cx = c.outcome (Expr.typeIn cx) := by
  obtain ⟨scope, env, ⟨span, term⟩, s⟩ := c
  rw [outcome, Expr.typeIn_mk]
  rfl

end Call

/-- The rule for the first call makes the second one: when nothing but this one fails, then the rule fails alike. -/
def Calls (cx : Context) (p q : Call) : Prop :=
  ∀ (check : Checker) (f : Failure), (∀ c, c ≠ q → c.outcome check = c.outcome (Expr.typeIn cx)) →
    (q.outcome check).1 = .error f → (p.ruleOutcome check cx).1 = .error f

end MuTypes
