import MuTypes.Ty.Fits

/-!
# Policy

How closely arguments and assigned values have to fit is a choice.  All other places ask for an exact fit.
-/

namespace MuTypes

/-- How closely arguments and assigned values have to fit. -/
structure Policy where
  argument : Fit := .wide
  assignment : Fit := .exact
deriving DecidableEq

/-- An exact fit everywhere. -/
def Policy.strict : Policy := { argument := .exact, assignment := .exact }

end MuTypes
