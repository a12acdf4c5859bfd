import MuTypes.Ty.Substitution

/-!
# Instantiating generic types

The arguments go in one parameter after the other.  When an argument mentions a later parameter, that parameter's
own step would replace it there; so then all parameters first get fresh names.
-/

namespace MuTypes.Ty

/-- Does some argument mention a parameter that comes after its own? -/
def mentionsLater : List Name → List Ty → Bool
  | _ :: ps, a :: as => ps.any (a.mentions ·) || mentionsLater ps as
  | _, _ => false

/-- The body of a generic type with arguments for its parameters. -/
def instantiate (body : Ty) (params : List Name) (args : List Ty) : SupplyM Ty := do
  if mentionsLater params args then
    let (params, body) ← rebindAll subst params params body
    substAll (params.zip args) body
  else
    substAll (params.zip args) body

end MuTypes.Ty
