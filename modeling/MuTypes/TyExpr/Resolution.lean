import MuTypes.CheckM
import MuTypes.Ty.Instantiate
import MuTypes.TyExpr.Basic

/-!
# Resolving annotations

An annotation becomes a type when its aliases are expanded.  An alias is expanded in a scope of its own, in
which only its parameters are visible; they stand for fresh variables until the body is resolved, and the arguments
take their place afterwards, so that no binder of the body captures a variable of an argument.  Inside its own
expansion a plain alias is a variable, and around an expansion that contains this variable stands a recursive binder
with the name of the alias.

No alias is expanded inside its own expansion.  Expansions therefore nest no deeper than there are aliases, and this
number bounds the recursion.
-/

namespace MuTypes

/-! ### Scopes -/

/-- A type variable that annotations can name, what the name means in types, and whether a recursive binder brings
it in.  The meaning is another name for the parameters of an alias, and for a type parameter whose name was taken. -/
structure Visible where
  name : Name
  meaning : Name
  byMu : Bool := false
deriving DecidableEq

/-- The visible type variables, innermost first. -/
abbrev Scope := List Visible

namespace Scope

/-- The innermost variable of a name. -/
def find? (scope : Scope) (name : Name) : Option Visible :=
  List.find? (·.name = name) scope

/-- Does a recursive binder of this name enclose the place? -/
def hasMu (scope : Scope) (name : Name) : Bool :=
  scope.any fun v => v.byMu && v.name = name

/-- Enters a recursive binder. -/
def enterMu (scope : Scope) (name : Name) : Scope :=
  { name, meaning := name, byMu := true } :: scope

/-- Enters type parameters with their meanings. -/
def enterParams (scope : Scope) (params meanings : List Name) : Scope :=
  (params.zipWith (fun name meaning => ⟨name, meaning, false⟩) meanings).reverse ++ scope

/-- The names in types that the variables stand for. -/
def meanings (scope : Scope) : List Name :=
  scope.map (·.meaning)

end Scope

/-! ### Names -/

/-- What is known while resolving: the aliases, those whose expansions enclose the place, and how to expand an alias
with arguments for a reference at a place. -/
structure Expansion where
  aliases : Aliases
  active : List Name
  use : Alias → List Ty → Span → CheckM Ty

/-- Puts a recursive binder around a type, which then has to be contractive. -/
def recursive (name : Name) (body : Ty) (span : Span) : CheckM Ty :=
  if (Ty.mu name body).isContractive then
    return .mu name body
  else
    CheckM.violation (.notContractive name) span

/-- The meaning of a name that has no arguments. -/
def Expansion.plain (x : Expansion) (scope : Scope) (span : Span) (name : Name) : CheckM Ty :=
  match scope.find? name with
  | some v => return .var v.meaning
  | none =>
    match x.aliases.find? name with
    | none => CheckM.violation (.unboundTypeVariable name) span
    | some a =>
      match a.params with
      | some ps => CheckM.violation (.genericArity ps.length 0) span
      | none => if name ∈ x.active then return .var name else x.use a [] span

/-- The alias that a name with arguments refers to. -/
def Expansion.generic (x : Expansion) (scope : Scope) (span : Span) (name : Name) (args : Nat) : CheckM Alias :=
  if (scope.find? name).isSome then
    CheckM.violation (.notGeneric name) span
  else
    match x.aliases.find? name with
    | none => CheckM.violation (.unboundTypeVariable name) span
    | some a =>
      if name ∈ x.active then
        CheckM.violation (.genericRecursion name) span
      else
        match a.params with
        | none => CheckM.violation (.notGeneric name) span
        | some ps => if ps.length = args then return a else CheckM.violation (.genericArity ps.length args) span

/-! ### Annotations -/

namespace TyExpr

mutual

/-- Resolves an annotation in a scope. -/
def resolveIn (x : Expansion) (scope : Scope) : TyExpr → CheckM Ty
  | .mk span form => resolveForm x scope span form

/-- Resolves what stands at the given place. -/
def resolveForm (x : Expansion) (scope : Scope) (span : Span) : TyForm → CheckM Ty
  | .prim p => return .prim p
  | .container kind e => return .container kind (← e.resolveIn x scope)
  | .func ps r => do
    let ps ← resolveParamRow x scope ps
    return .func ps (← r.resolveIn x scope)
  | .object ps => return .object (← resolveRow x scope span [] ps)
  | .union vs => return .union (← resolveVariants x scope span [] vs)
  | .mu n b =>
    if scope.hasMu n then
      CheckM.violation (.duplicateTypeParameter n) span
    else do
      recursive n (← b.resolveIn x (scope.enterMu n)) span
  | .generic ns b => do
    expectDistinct ns span
    return .generic ns (← b.resolveIn x (scope.enterParams ns ns))
  | .ref n => x.plain scope span n
  | .app n as => do
    let a ← x.generic scope span n as.length
    x.use a (← resolveArgs x scope as) span

/-- Resolves the parameters of a function, whose names may repeat. -/
def resolveParamRow (x : Expansion) (scope : Scope) : List (Name × TyExpr) → CheckM Row
  | [] => return []
  | (n, e) :: ps => do
    let t ← e.resolveIn x scope
    return (n, t) :: (← resolveParamRow x scope ps)

/-- Resolves properties, whose names differ from each other and from those already `seen`. -/
def resolveRow (x : Expansion) (scope : Scope) (span : Span) (seen : List Name) :
    List (Name × TyExpr) → CheckM Row
  | [] => return []
  | (n, e) :: ps =>
    if n ∈ seen then
      CheckM.violation (.duplicateProperty n) span
    else do
      let t ← e.resolveIn x scope
      return (n, t) :: (← resolveRow x scope span (n :: seen) ps)

/-- Resolves variants, whose labels differ from each other and from those already `seen`. -/
def resolveVariants (x : Expansion) (scope : Scope) (span : Span) (seen : List Name) :
    List (Name × List (Name × TyExpr)) → CheckM Variants
  | [] => return []
  | (l, ps) :: vs =>
    if l ∈ seen then
      CheckM.violation (.duplicateVariant l) span
    else do
      let row ← resolveRow x scope span [] ps
      return (l, row) :: (← resolveVariants x scope span (l :: seen) vs)

/-- Resolves the arguments of an alias. -/
def resolveArgs (x : Expansion) (scope : Scope) : List TyExpr → CheckM (List Ty)
  | [] => return []
  | e :: es => do
    let t ← e.resolveIn x scope
    return t :: (← resolveArgs x scope es)

end

end TyExpr

/-! ### Aliases -/

/-- How aliases are expanded inside the expansions of those that are `active`, with expansions nested up to the given
depth. -/
def expansion (aliases : Aliases) : Nat → List Name → Expansion
  | 0, active => { aliases, active, use := fun _ _ _ => throw (.halt .unfinished) }
  | depth + 1, active =>
    { aliases, active
      use := fun a args span => do
        let params := a.params.getD []
        expectDistinct params a.span
        let vars ← drawAll params
        let inside := expansion aliases depth (a.name :: active)
        let body ← a.body.resolveIn inside (Scope.enterParams [] params vars)
        let body ← Ty.substAll (vars.zip args) body
        if body.mentions a.name then recursive a.name body span else return body }

/-- The type that an annotation means in a scope. -/
def TyExpr.resolve (aliases : Aliases) (scope : Scope) (e : TyExpr) : CheckM Ty :=
  e.resolveIn (expansion aliases aliases.length []) scope

end MuTypes
