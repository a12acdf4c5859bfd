import MuTypes.Span
import MuTypes.Ty.Render

/-!
# Diagnostics

The rules that a program can violate, and their texts.
-/

namespace MuTypes

/-- Where two types had to agree. -/
inductive Site where
  | branches
  | argument
  | assignment
  | clauses
  | operands
  | variant
  | loop
  | item
deriving DecidableEq

/-- What a disagreement at the site is called. -/
def Site.text : Site → String
  | .branches => "then and else have different types"
  | .argument => "parameter type mismatch"
  | .assignment => "type mismatch"
  | .clauses => "clauses have different types"
  | .operands => "compare different types"
  | .variant => "tagged union's term has a wrong type"
  | .loop => "return type is inconsistent"
  | .item => "value type is inconsistent"

/-- The shape that a rule asks of a type. -/
inductive Shape where
  | prim (p : Prim)
  | array
  | map
  | arrayOrMap
  | func
  | generic
  | object
  | union
deriving DecidableEq

/-- What the shape is called. -/
def Shape.text : Shape → String
  | .prim p => p.text
  | .array => "array"
  | .map => "map"
  | .arrayOrMap => "array or map"
  | .func => "function"
  | .generic => "generic"
  | .object => "object"
  | .union => "tagged union"

/-- A violated rule. -/
inductive Violation where
  | unboundVariable (name : Name)
  | arity (expected found : Nat)
  | mismatch (site : Site) (expected found : Ty)
  | wrongShape (expected : Shape) (found : Ty)
  | unknownProperty (name : Name)
  | unknownVariant (label : Name)
  | nonExhaustive (missing : List Name)
  | wrongReturn (expected found : Ty)
  | duplicateTypeParameter (name : Name)
  | unboundTypeVariable (name : Name)
  | notGeneric (name : Name)
  | genericArity (expected found : Nat)
  /-- An alias with arguments inside its own expansion. -/
  | genericRecursion (name : Name)
  | duplicateProperty (name : Name)
  | duplicateVariant (label : Name)
  | notContractive (name : Name)
deriving DecidableEq

namespace Violation

/-- What was required and what there was. -/
def expectedFound (expected found : String) : String :=
  "expected " ++ expected ++ ", found " ++ found

/-- The text of a violation. -/
def text : Violation → String
  | .unboundVariable n => "unbound variable: " ++ n
  | .arity e f => "wrong number of arguments: " ++ expectedFound (toString e) (toString f)
  | .mismatch site e f => site.text ++ ": " ++ expectedFound e.render f.render
  | .wrongShape e f => e.text ++ " expected, found " ++ f.render
  | .unknownProperty n => "unknown property name: " ++ n
  | .unknownVariant l => "unknown variant label: " ++ l
  | .nonExhaustive ls => "non-exhaustive dispatch: missing " ++ ", ".intercalate ls
  | .wrongReturn e f => "wrong return type: " ++ expectedFound e.render f.render
  | .duplicateTypeParameter n => "duplicate type parameter: " ++ n
  | .unboundTypeVariable n => "unbound type variable: " ++ n
  | .notGeneric n => "not a generic type: " ++ n
  | .genericArity e f => "wrong number of type arguments: " ++ expectedFound (toString e) (toString f)
  | .genericRecursion n => "type recursion for generics is not supported: " ++ n
  | .duplicateProperty n => "duplicate property: " ++ n
  | .duplicateVariant l => "duplicate variant: " ++ l
  | .notContractive n => "recursive type is not contractive: " ++ n

end Violation

/-- A violated rule and the place of the violation. -/
structure Diagnostic where
  violation : Violation
  span : Span
deriving DecidableEq

/-- The same violation at the place that `f` gives for its own. -/
def Diagnostic.mapSpan (f : Span → Span) (d : Diagnostic) : Diagnostic :=
  { d with span := f d.span }

/-- The text of the violation after its place. -/
def Diagnostic.message (d : Diagnostic) : String :=
  "[" ++ toString d.span.start ++ ":" ++ toString d.span.stop ++ "] " ++ d.violation.text

end MuTypes
