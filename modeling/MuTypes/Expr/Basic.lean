import MuTypes.TyExpr.Basic

/-!
# Expressions

A small language of functions, arrays, maps, objects and tagged unions in the manner of TypeScript.  Every node has
its span.  Parameters, empty collections and tagged values carry their type annotations, so nothing is inferred.
-/

namespace MuTypes

/-- Literals.  The value of a number plays no part. -/
inductive Literal where
  | boolean (value : Bool)
  | number
  | string (text : String)
  | undefined
deriving DecidableEq

/-- `===` and `!==`. -/
inductive Comparison where
  | same
  | different
deriving DecidableEq

mutual

/-- An expression with its place. -/
inductive Expr where
  | mk (span : Span) (term : Term)

/-- The forms of expressions. -/
inductive Term where
  | lit (value : Literal)
  /-- `!operand` -/
  | not (operand : Expr)
  /-- `left === right` and `left !== right` -/
  | compare (op : Comparison) (left right : Expr)
  /-- `test ? yes : no` -/
  | cond (test yes no : Expr)
  /-- `left + right` -/
  | add (left right : Expr)
  | var (name : Name)
  /-- `(params): result => body` -/
  | lambda (params : List (Name × TyExpr)) (result : Option TyExpr) (body : Expr)
  | call (callee : Expr) (args : List Expr)
  /-- `first; rest` -/
  | seq (first rest : Expr)
  /-- `const name = value; rest` -/
  | bind (name : Name) (value rest : Expr)
  /-- `name = value` -/
  | assign (name : Name) (value : Expr)
  /-- `for (let index = 0; index < array.length; index++) body`, then `rest` -/
  | forIndex (array : Expr) (index : Name) (body rest : Expr)
  /-- `for (const item of array) body`, then `rest` -/
  | forItem (array : Expr) (item : Name) (body rest : Expr)
  /-- The empty array of an array type. -/
  | emptyArray (type : TyExpr)
  /-- `[...array, item]` -/
  | append (array item : Expr)
  /-- The empty map of a map type. -/
  | emptyMap (type : TyExpr)
  /-- `{ ...map }` -/
  | copyMap (map : Expr)
  /-- `{ ...map, [key]: item }` -/
  | insert (map key item : Expr)
  /-- `key in map` -/
  | hasKey (map key : Expr)
  /-- `base[index]` -/
  | index (base index : Expr)
  /-- `{ name: value, ... }` -/
  | object (inits : List (Name × Expr))
  /-- `base.name` -/
  | property (base : Expr) (name : Name)
  /-- A tagged value of a union type. -/
  | variant (label : Name) (inits : List (Name × Expr)) (type : TyExpr)
  /-- A tagged value taken for one of a larger union. -/
  | widen (value : Expr) (type : TyExpr)
  /-- `switch (subject.tag)` with a clause for each label, and one for the others. -/
  | dispatch (subject : Name) (clauses : List (Name × Expr)) (fallback : Option Expr)
  /-- `function name(params): result body`, then `rest` -/
  | function (name : Name) (params : List (Name × TyExpr)) (result : TyExpr) (body rest : Expr)
  /-- `<X, Y>body` -/
  | generic (params : List Name) (body : Expr)
  /-- `target<T, U>` -/
  | instantiate (target : Expr) (args : List TyExpr)

end

namespace Expr

/-- The place of the expression. -/
def span : Expr → Span
  | .mk s _ => s

/-- What the expression says, apart from its place. -/
def term : Expr → Term
  | .mk _ t => t

mutual

/-- The expression with every span in it changed by `f`, also in annotations. -/
def mapSpan (f : Span → Span) : Expr → Expr
  | .mk s t => .mk (f s) (mapSpanTerm f t)

/-- The form with every span in it changed by `f`, also in annotations. -/
def mapSpanTerm (f : Span → Span) : Term → Term
  | .lit v => .lit v
  | .not e => .not (e.mapSpan f)
  | .compare op l r => .compare op (l.mapSpan f) (r.mapSpan f)
  | .cond t y n => .cond (t.mapSpan f) (y.mapSpan f) (n.mapSpan f)
  | .add l r => .add (l.mapSpan f) (r.mapSpan f)
  | .var x => .var x
  | .lambda ps r b => .lambda (ps.map fun p => (p.1, p.2.mapSpan f)) (r.map (·.mapSpan f)) (b.mapSpan f)
  | .call c as => .call (c.mapSpan f) (mapSpanArgs f as)
  | .seq a r => .seq (a.mapSpan f) (r.mapSpan f)
  | .bind x v r => .bind x (v.mapSpan f) (r.mapSpan f)
  | .assign x v => .assign x (v.mapSpan f)
  | .forIndex a i b r => .forIndex (a.mapSpan f) i (b.mapSpan f) (r.mapSpan f)
  | .forItem a i b r => .forItem (a.mapSpan f) i (b.mapSpan f) (r.mapSpan f)
  | .emptyArray t => .emptyArray (t.mapSpan f)
  | .append a i => .append (a.mapSpan f) (i.mapSpan f)
  | .emptyMap t => .emptyMap (t.mapSpan f)
  | .copyMap m => .copyMap (m.mapSpan f)
  | .insert m k i => .insert (m.mapSpan f) (k.mapSpan f) (i.mapSpan f)
  | .hasKey m k => .hasKey (m.mapSpan f) (k.mapSpan f)
  | .index b i => .index (b.mapSpan f) (i.mapSpan f)
  | .object is => .object (mapSpanNamed f is)
  | .property b n => .property (b.mapSpan f) n
  | .variant l is t => .variant l (mapSpanNamed f is) (t.mapSpan f)
  | .widen v t => .widen (v.mapSpan f) (t.mapSpan f)
  | .dispatch x cs none => .dispatch x (mapSpanNamed f cs) none
  | .dispatch x cs (some e) => .dispatch x (mapSpanNamed f cs) (some (e.mapSpan f))
  | .function n ps r b k =>
    .function n (ps.map fun p => (p.1, p.2.mapSpan f)) (r.mapSpan f) (b.mapSpan f) (k.mapSpan f)
  | .generic ns b => .generic ns (b.mapSpan f)
  | .instantiate t as => .instantiate (t.mapSpan f) (as.map (·.mapSpan f))

/-- `mapSpan` on arguments. -/
def mapSpanArgs (f : Span → Span) : List Expr → List Expr
  | [] => []
  | e :: es => e.mapSpan f :: mapSpanArgs f es

/-- `mapSpan` on named expressions. -/
def mapSpanNamed (f : Span → Span) : List (Name × Expr) → List (Name × Expr)
  | [] => []
  | (n, e) :: es => (n, e.mapSpan f) :: mapSpanNamed f es

end

end Expr

end MuTypes
