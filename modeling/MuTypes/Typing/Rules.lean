import MuTypes.Expr.Evidence
import MuTypes.TyExpr.Resolution
import MuTypes.Typing.Environment
import MuTypes.Typing.Policy

/-!
# The typing rules

`Expr.typeOf` gives the type of an expression, or the first rule that it violates.  Parts are visited from left to
right, and each rule asks its questions as soon as it has their types.  A type is unrolled where a rule needs its
shape, and kept as it is otherwise.

The test of a conditional can refine the type of a variable in both branches (`Env.refine?`).  The clauses of a
dispatch see its subject as the object of their variant, and the fallback sees it as the union of the others.
-/

namespace MuTypes

/-- What the type of an expression depends on, besides the variables and type variables in scope. -/
structure Context where
  aliases : Aliases := []
  policy : Policy := {}
  /-- How deep a comparison of types may go. -/
  fuel : Nat := 1000000

/-! ### Shapes -/

namespace Ty

/-- The first type, or the second when the first is merely `undefined`. -/
def orElse (a b : Ty) : Ty :=
  if a = .undefined then b else a

/-- The type, unrolled, has to be the given primitive. -/
def expectPrim (p : Prim) (t : Ty) (span : Span) : CheckM Unit := do
  if (← t.unrolled) = .prim p then
    return ()
  else
    CheckM.violation (.wrongShape (.prim p) t) span

/-- The type, unrolled, has to be an array; gives the type of its items. -/
def expectArray (t : Ty) (span : Span) : CheckM Ty := do
  match ← t.unrolled with
  | .array e => return e
  | _ => CheckM.violation (.wrongShape .array t) span

/-- The type, unrolled, has to be a map; gives the type of its items. -/
def expectMap (t : Ty) (span : Span) : CheckM Ty := do
  match ← t.unrolled with
  | .map e => return e
  | _ => CheckM.violation (.wrongShape .map t) span

/-- The type, unrolled, has to be a function; gives its parameters and its result. -/
def expectFunc (t : Ty) (span : Span) : CheckM (Row × Ty) := do
  match ← t.unrolled with
  | .func ps r => return (ps, r)
  | _ => CheckM.violation (.wrongShape .func t) span

/-- The type, unrolled, has to be generic; gives its parameters and its body. -/
def expectGeneric (t : Ty) (span : Span) : CheckM (List Name × Ty) := do
  match ← t.unrolled with
  | .generic ns b => return (ns, b)
  | _ => CheckM.violation (.wrongShape .generic t) span

/-- The type, unrolled, has to be a tagged union; gives its variants. -/
def expectUnion (t : Ty) (span : Span) : CheckM Variants := do
  match ← t.unrolled with
  | .union vs => return vs
  | _ => CheckM.violation (.wrongShape .union t) span

end Ty

/-- A property that has to be there. -/
def expectProperty (row : Row) (name : Name) (span : Span) : CheckM Ty :=
  match row.lookup name with
  | some t => return t
  | none => CheckM.violation (.unknownProperty name) span

/-- The properties of a variant that has to be there. -/
def expectVariant (vs : Variants) (label : Name) (span : Span) : CheckM Row :=
  match vs.lookup label with
  | some row => return row
  | none => CheckM.violation (.unknownVariant label) span

/-- A test of items, `(x: T) => boolean`, as a parameter called `f`. -/
def itemTest (elem : Ty) : Name × Ty :=
  ("f", .func [("x", elem)] .boolean)

/-- The properties of an array. -/
def arrayRow (elem : Ty) : Row :=
  [("length", .number),
   ("find", .func [itemTest elem] (.option elem)),
   ("filter", .func [itemTest elem] (.array elem))]

/-- The type of a property of a value of the given type, which stands at `baseSpan`.  A tagged value always has its
tag, and its other properties when there is only one variant. -/
def Ty.property (t : Ty) (name : Name) (baseSpan span : Span) : CheckM Ty := do
  match ← t.unrolled with
  | .object row => expectProperty row name span
  | .union vs =>
    if name = "tag" then
      return .string
    else
      match vs with
      | [(_, row)] => expectProperty row name span
      | _ => CheckM.violation (.unknownProperty name) span
  | .array e => expectProperty (arrayRow e) name span
  | _ => CheckM.violation (.wrongShape .object t) baseSpan

/-- The type of what an array or a map has at an index, which has to be a number or a text. -/
def Ty.item (t index : Ty) (baseSpan indexSpan : Span) : CheckM Ty := do
  match ← t.unrolled with
  | .array e =>
    index.expectPrim .number indexSpan
    return e
  | .map e =>
    index.expectPrim .string indexSpan
    return e
  | _ => CheckM.violation (.wrongShape .arrayOrMap t) baseSpan

/-! ### Agreement -/

namespace Context

/-- Does `actual` fit where `expected` is required, in the scope? -/
def fits (cx : Context) (scope : Scope) (fit : Fit) (expected actual : Ty) : CheckM Bool :=
  liftM (Ty.fits cx.fuel scope.meanings fit expected actual)

/-- `found` has to fit where `expected` is required. -/
def expectFit (cx : Context) (scope : Scope) (site : Site) (fit : Fit) (expected found : Ty) (span : Span) :
    CheckM Unit := do
  if ← cx.fits scope fit expected found then
    return ()
  else
    CheckM.violation (.mismatch site expected found) span

/-- The type of a body has to fit the declared result. -/
def expectResult (cx : Context) (scope : Scope) (declared body : Ty) (span : Span) : CheckM Unit := do
  if ← cx.fits scope .exact declared body then
    return ()
  else
    CheckM.violation (.wrongReturn declared body) span

/-- The type that two ways of going on have in common. -/
def common (cx : Context) (scope : Scope) (site : Site) (a b : Ty) (span : Span) : CheckM Ty := do
  cx.expectFit scope site .exact a b span
  return a.orElse b

/-- The type that the clauses so far, if there are any, and one more have in common. -/
def commonClause (cx : Context) (scope : Scope) (sofar : Option Ty) (t : Ty) (span : Span) : CheckM Ty :=
  match sofar with
  | none => return t
  | some s => cx.common scope .clauses s t span

/-- Each given property has to be declared and to fit, and each declared one to be given. -/
def expectRow (cx : Context) (scope : Scope) (declared given : Row) (span : Span) : CheckM Unit := do
  given.forM fun p => do
    let t ← expectProperty declared p.1 span
    cx.expectFit scope .variant .exact t p.2 span
  match declared.find? fun p => (given.lookup p.1).isNone with
  | some p => CheckM.violation (.unknownProperty p.1) span
  | none => return ()

/-- Each variant of `source` has to be one of `target`, with the same properties. -/
def expectVariants (cx : Context) (scope : Scope) (target source : Variants) (span : Span) : CheckM Unit :=
  source.forM fun v => do
    let row ← expectVariant target v.1 span
    cx.expectRow scope row v.2 span

/-! ### Annotations -/

/-- The type of an annotation. -/
def resolve (cx : Context) (scope : Scope) (e : TyExpr) : CheckM Ty :=
  e.resolve cx.aliases scope

/-- The types of annotated parameters. -/
def paramRow (cx : Context) (scope : Scope) (params : List (Name × TyExpr)) : CheckM Row :=
  params.mapM fun p => return (p.1, ← cx.resolve scope p.2)

end Context

/-- Meanings for type parameters: a parameter whose name is taken in the scope means a fresh variable. -/
def Scope.meaningsFor (scope : Scope) (params : List Name) : SupplyM (List Name) :=
  params.mapM fun n => if scope.any fun v => v.name = n || v.meaning = n then draw n else return n

/-! ### Refinement by tests -/

namespace Env

/-- The environment in which an optional variable is defined. -/
def defined? (env : Env) (x : Name) : CheckM (Option Env) := do
  match env.find? x with
  | none => return none
  | some t =>
    match ← t.unrolled with
    | .option e => return some (env.bind x e)
    | _ => return none

/-- The environments in which a variable of a union type has the label, which has to be there, and in which it has
another one. -/
def split? (env : Env) (x label : Name) (span : Span) : CheckM (Option (Env × Env)) := do
  match env.find? x with
  | none => return none
  | some t =>
    match ← t.unrolled with
    | .union vs =>
      let (hit, others) := vs.partition (·.1 = label)
      if hit.isEmpty then
        CheckM.violation (.unknownVariant label) span
      else
        return some (env.bind x (.union hit), env.bind x (.union others))
    | _ => return none

/-- The environments of the branches, when the test says something about a variable of a type of the right shape. -/
def refine? (env : Env) (test : Expr) : CheckM (Option (Env × Env)) := do
  match test.evidence? with
  | none => return none
  | some (.defined x true) => return (← env.defined? x).map fun there => (there, env)
  | some (.defined x false) => return (← env.defined? x).map fun there => (env, there)
  | some (.tagged x label true) => env.split? x label test.span
  | some (.tagged x label false) => return (← env.split? x label test.span).map Prod.swap

end Env

/-! ### Expressions -/

namespace Expr

mutual

/-- The type of an expression that stands in the given scope and environment. -/
def typeIn (cx : Context) (scope : Scope) (env : Env) : Expr → CheckM Ty
  | .mk span term => termType cx scope env span term

/-- The type of what stands at the given place. -/
def termType (cx : Context) (scope : Scope) (env : Env) (span : Span) : Term → CheckM Ty
  | .lit (.boolean _) => return .boolean
  | .lit .number => return .number
  | .lit (.string _) => return .string
  | .lit .undefined => return .undefined
  | .not e => do
    (← e.typeIn cx scope env).expectPrim .boolean e.span
    return .boolean
  | .compare _ l r => do
    let s ← l.typeIn cx scope env
    let t ← r.typeIn cx scope env
    cx.expectFit scope .operands .exact s t span
    return .boolean
  | .cond test yes no => do
    match ← env.refine? test with
    | some (envYes, envNo) =>
      let s ← yes.typeIn cx scope envYes
      let t ← no.typeIn cx scope envNo
      cx.common scope .branches s t span
    | none =>
      (← test.typeIn cx scope env).expectPrim .boolean test.span
      let s ← yes.typeIn cx scope env
      let t ← no.typeIn cx scope env
      cx.common scope .branches s t span
  | .add l r => do
    (← l.typeIn cx scope env).expectPrim .number l.span
    (← r.typeIn cx scope env).expectPrim .number r.span
    return .number
  | .var x =>
    match env.find? x with
    | some t => return t
    | none => CheckM.violation (.unboundVariable x) span
  | .lambda params result body => do
    let ps ← cx.paramRow scope params
    let t ← body.typeIn cx scope (env.bindAll ps)
    match result with
    | none => return .func ps t
    | some result =>
      let r ← cx.resolve scope result
      cx.expectResult scope r t span
      return .func ps r
  | .call callee args => do
    let (ps, r) ← (← callee.typeIn cx scope env).expectFunc callee.span
    if ps.length = args.length then
      expectArgs cx scope env ps args
      return r
    else
      CheckM.violation (.arity ps.length args.length) span
  | .seq first rest => do
    let _ ← first.typeIn cx scope env
    rest.typeIn cx scope env
  | .bind x value rest => do
    let t ← value.typeIn cx scope env
    rest.typeIn cx scope (env.bind x t)
  | .assign x value =>
    match env.find? x with
    | none => CheckM.violation (.unboundVariable x) span
    | some bound => do
      let t ← value.typeIn cx scope env
      cx.expectFit scope .assignment cx.policy.assignment bound t value.span
      return t
  | .forIndex array index body rest => do
    let _ ← (← array.typeIn cx scope env).expectArray array.span
    let s ← body.typeIn cx scope (env.bind index .number)
    let t ← rest.typeIn cx scope env
    cx.common scope .loop s t span
  | .forItem array item body rest => do
    let elem ← (← array.typeIn cx scope env).expectArray array.span
    let s ← body.typeIn cx scope (env.bind item elem)
    let t ← rest.typeIn cx scope env
    cx.common scope .loop s t span
  | .emptyArray type => do
    let t ← cx.resolve scope type
    let _ ← t.expectArray span
    return t
  | .append array item => do
    let t ← array.typeIn cx scope env
    let elem ← t.expectArray array.span
    let i ← item.typeIn cx scope env
    cx.expectFit scope .item .exact elem i item.span
    return t
  | .emptyMap type => do
    let t ← cx.resolve scope type
    let _ ← t.expectMap span
    return t
  | .copyMap map => do
    let t ← map.typeIn cx scope env
    let _ ← t.expectMap map.span
    return t
  | .insert map key item => do
    let t ← map.typeIn cx scope env
    let elem ← t.expectMap map.span
    (← key.typeIn cx scope env).expectPrim .string key.span
    let i ← item.typeIn cx scope env
    cx.expectFit scope .item .exact elem i item.span
    return t
  | .hasKey map key => do
    let _ ← (← map.typeIn cx scope env).expectMap map.span
    (← key.typeIn cx scope env).expectPrim .string key.span
    return .boolean
  | .index base index => do
    let t ← base.typeIn cx scope env
    let i ← index.typeIn cx scope env
    t.item i base.span index.span
  | .object inits => return .object (← initRow cx scope env span [] inits)
  | .property base name => do
    (← base.typeIn cx scope env).property name base.span span
  | .variant label inits type => do
    let t ← cx.resolve scope type
    let row ← expectVariant (← t.expectUnion span) label span
    expectInits cx scope env span row [] inits
    return t
  | .widen value type => do
    let s ← value.typeIn cx scope env
    let t ← cx.resolve scope type
    let target ← t.expectUnion span
    let source ← s.expectUnion value.span
    cx.expectVariants scope target source span
    return t
  | .dispatch x clauses fallback =>
    match env.find? x with
    | none => CheckM.violation (.unboundVariable x) span
    | some bound => do
      let vs ← bound.expectUnion span
      let sofar ← clausesType cx scope env span x vs [] none clauses
      let others := vs.filter fun v => v.1 ∉ clauses.map Prod.fst
      match fallback with
      | some body => do
        let t ← body.typeIn cx scope (env.bind x (.union others))
        cx.commonClause scope sofar t span
      | none =>
        if others.isEmpty then
          return sofar.getD .undefined
        else
          CheckM.violation (.nonExhaustive (others.map Prod.fst)) span
  | .function f params result body rest => do
    let ps ← cx.paramRow scope params
    let r ← cx.resolve scope result
    let t ← body.typeIn cx scope ((env.bindAll ps).bind f (.func ps r))
    cx.expectResult scope r t span
    rest.typeIn cx scope (env.bind f (.func ps r))
  | .generic params body => do
    expectDistinct params span
    let vars ← scope.meaningsFor params
    let t ← body.typeIn cx (scope.enterParams params vars) env
    return .generic vars t
  | .instantiate target args => do
    let (ns, body) ← (← target.typeIn cx scope env).expectGeneric target.span
    if ns.length = args.length then
      let ts ← args.mapM (cx.resolve scope)
      body.instantiate ns ts
    else
      CheckM.violation (.genericArity ns.length args.length) span

/-- Each argument has to fit its parameter. -/
def expectArgs (cx : Context) (scope : Scope) (env : Env) : Row → List Expr → CheckM Unit
  | p :: ps, e :: es => do
    let t ← e.typeIn cx scope env
    cx.expectFit scope .argument cx.policy.argument p.2 t e.span
    expectArgs cx scope env ps es
  | _, _ => return ()

/-- The properties of an object, whose names differ from each other and from those already `seen`. -/
def initRow (cx : Context) (scope : Scope) (env : Env) (span : Span) (seen : List Name) :
    List (Name × Expr) → CheckM Row
  | [] => return []
  | (n, e) :: inits =>
    if n ∈ seen then
      CheckM.violation (.duplicateProperty n) span
    else do
      let t ← e.typeIn cx scope env
      return (n, t) :: (← initRow cx scope env span (n :: seen) inits)

/-- The properties given to a variant: each has to be declared, to be given once and to fit. -/
def expectInits (cx : Context) (scope : Scope) (env : Env) (span : Span) (declared : Row) (seen : List Name) :
    List (Name × Expr) → CheckM Unit
  | [] => return ()
  | (n, e) :: inits =>
    if n ∈ seen then
      CheckM.violation (.duplicateProperty n) span
    else do
      let p ← expectProperty declared n span
      let t ← e.typeIn cx scope env
      cx.expectFit scope .variant .exact p t e.span
      expectInits cx scope env span declared (n :: seen) inits

/-- The type that the clauses of a dispatch on `x` have in common.  Each is for a variant of its own, and sees `x` as
the object of that variant. -/
def clausesType (cx : Context) (scope : Scope) (env : Env) (span : Span) (x : Name) (vs : Variants)
    (seen : List Name) (sofar : Option Ty) : List (Name × Expr) → CheckM (Option Ty)
  | [] => return sofar
  | (label, body) :: clauses =>
    if label ∈ seen then
      CheckM.violation (.duplicateVariant label) body.span
    else do
      let row ← expectVariant vs label body.span
      let t ← body.typeIn cx scope (env.bind x (.object row))
      let joined ← cx.commonClause scope sofar t span
      clausesType cx scope env span x vs (label :: seen) (some joined) clauses

end

/-- The type of an expression in an environment. -/
def typeOf (cx : Context) (env : Env) (e : Expr) : CheckM Ty :=
  e.typeIn cx [] env

end Expr

end MuTypes
