import MuTypes.Span
import MuTypes.Ty.Basic

/-!
# Type annotations

The types that a program writes down, each node with its span.  They are written like types, but a name may refer to a
variable, to a binder or to an alias, and an alias may be applied to arguments.
-/

namespace MuTypes

mutual

/-- A type annotation with its place. -/
inductive TyExpr where
  | mk (span : Span) (form : TyForm)

/-- The forms of type annotations. -/
inductive TyForm where
  | prim (p : Prim)
  | container (kind : Container) (elem : TyExpr)
  | func (params : List (Name × TyExpr)) (result : TyExpr)
  | object (row : List (Name × TyExpr))
  | union (variants : List (Name × List (Name × TyExpr)))
  | mu (name : Name) (body : TyExpr)
  | generic (params : List Name) (body : TyExpr)
  /-- A variable, a binder or an alias without arguments. -/
  | ref (name : Name)
  /-- An alias with arguments. -/
  | app (name : Name) (args : List TyExpr)

end

namespace TyExpr

/-- The place of the annotation. -/
def span : TyExpr → Span
  | .mk s _ => s

/-- What the annotation says, apart from its place. -/
def form : TyExpr → TyForm
  | .mk _ f => f

mutual

/-- The annotation with every span changed by `f`. -/
def mapSpan (f : Span → Span) : TyExpr → TyExpr
  | .mk s form => .mk (f s) (mapSpanForm f form)

/-- The form with every span in it changed by `f`. -/
def mapSpanForm (f : Span → Span) : TyForm → TyForm
  | .prim p => .prim p
  | .container k e => .container k (e.mapSpan f)
  | .func ps r => .func (mapSpanRow f ps) (r.mapSpan f)
  | .object ps => .object (mapSpanRow f ps)
  | .union vs => .union (mapSpanVariants f vs)
  | .mu n b => .mu n (b.mapSpan f)
  | .generic ns b => .generic ns (b.mapSpan f)
  | .ref n => .ref n
  | .app n as => .app n (mapSpanArgs f as)

/-- `mapSpan` on the annotations of a row. -/
def mapSpanRow (f : Span → Span) : List (Name × TyExpr) → List (Name × TyExpr)
  | [] => []
  | (n, e) :: ps => (n, e.mapSpan f) :: mapSpanRow f ps

/-- `mapSpan` on the annotations of all variants. -/
def mapSpanVariants (f : Span → Span) :
    List (Name × List (Name × TyExpr)) → List (Name × List (Name × TyExpr))
  | [] => []
  | (l, ps) :: vs => (l, mapSpanRow f ps) :: mapSpanVariants f vs

/-- `mapSpan` on arguments. -/
def mapSpanArgs (f : Span → Span) : List TyExpr → List TyExpr
  | [] => []
  | e :: es => e.mapSpan f :: mapSpanArgs f es

end

end TyExpr

/-- A name for an annotation.  An alias with parameters is generic, also when it has none of them. -/
structure Alias where
  name : Name
  params : Option (List Name)
  body : TyExpr
  span : Span

/-- The alias with every span in it changed by `f`. -/
def Alias.mapSpan (f : Span → Span) (a : Alias) : Alias :=
  { a with body := a.body.mapSpan f, span := f a.span }

/-- The aliases of a program, in order. -/
abbrev Aliases := List Alias

/-- The first alias of a name. -/
def Aliases.find? (aliases : Aliases) (name : Name) : Option Alias :=
  List.find? (·.name = name) aliases

theorem Aliases.find?_name {aliases : Aliases} {name : Name} {a : Alias} (h : aliases.find? name = some a) :
    a.name = name := by
  simpa using List.find?_some h

theorem Aliases.find?_mem {aliases : Aliases} {name : Name} {a : Alias} (h : aliases.find? name = some a) :
    a ∈ aliases :=
  List.mem_of_find?_eq_some h

end MuTypes
