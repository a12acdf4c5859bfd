import MuTypes.Expr.Basic

/-!
# What a test says about a variable

Some tests tell each branch of a conditional more about one variable.  The forms `x`, `!x`, `x.tag === "label"` and
`x.tag !== "label"` are recognised, and no others, whatever they mean.
-/

namespace MuTypes

/-- What a test says about a variable. -/
inductive Evidence where
  /-- The variable is defined when the test has the given outcome. -/
  | defined (name : Name) (outcome : Bool)
  /-- The variable has the label when the test has the given outcome, and another one otherwise. -/
  | tagged (name label : Name) (outcome : Bool)
deriving DecidableEq

/-- What a test of one of the recognised forms says. -/
def Expr.evidence? : Expr → Option Evidence
  | .mk _ (.var x) => some (.defined x true)
  | .mk _ (.not (.mk _ (.var x))) => some (.defined x false)
  | .mk _ (.compare op (.mk _ (.property (.mk _ (.var x)) name)) (.mk _ (.lit (.string label)))) =>
    if name = "tag" then some (.tagged x label (op = .same)) else none
  | _ => none

end MuTypes
