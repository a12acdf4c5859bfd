import MuTypes.Ty.Substitution

/-!
# Unrolling recursive types

`mu X. T` unrolls to `T` with the whole type for `X`.  Unrolling the head of a type ends after one step for each of
its leading recursive binders, unless the type is not contractive: then what stands below those binders is a
variable of one of them, and every step gives a recursive type again.
-/

namespace MuTypes.Ty

/-! ### Leading binders -/

/-- The names of the leading recursive binders, outermost first. -/
def muNames : Ty → List Name
  | .mu n b => n :: b.muNames
  | _ => []

/-- What stands below the leading recursive binders. -/
def muBody : Ty → Ty
  | .mu _ b => b.muBody
  | t => t

/-- Do the leading recursive binders enclose something other than one of their own variables? -/
def isContractive (t : Ty) : Bool :=
  match t.muBody with
  | .var n => n ∉ t.muNames
  | _ => true

/-! ### Steps -/

/-- One step: the body of a recursive type with the type itself for its variable.  Other types stay. -/
def unrollOnce : Ty → SupplyM Ty
  | .mu n b => subst n (.mu n b) b
  | t => return t

theorem unrollOnce_of_not_isMu {t : Ty} (h : t.isMu = false) : t.unrollOnce = pure t := by
  cases t <;> simp_all [isMu, unrollOnce]

/-- Unrolls until the head is no recursive binder, with at most the given number of steps. -/
def unrollWithin : Nat → Ty → SupplyM (Option Ty)
  | 0, t => return if t.isMu then none else some t
  | k + 1, t => if t.isMu then do unrollWithin k (← t.unrollOnce) else return some t

/-- Unrolls until the head is no recursive binder; `none` for a type that would unroll for ever. -/
def unroll (t : Ty) : SupplyM (Option Ty) :=
  unrollWithin t.muNames.length t

theorem unroll_of_not_isMu {t : Ty} (h : t.isMu = false) : t.unroll = pure (some t) := by
  cases t <;> simp_all [isMu, unroll, muNames, unrollWithin]

end MuTypes.Ty
