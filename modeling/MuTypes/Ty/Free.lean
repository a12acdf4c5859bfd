import MuTypes.Ty.Basic

/-!
# Free type variables

Whether a name occurs free in a type, and the list of all names that do.  Both leave out what a binder of the same
name encloses.
-/

namespace MuTypes.Ty

/-! ### One name -/

mutual

/-- Does `x` occur free in the type? -/
def mentions (x : Name) : Ty → Bool
  | .prim _ => false
  | .container _ e => e.mentions x
  | .func ps r => mentionsInRow x ps || r.mentions x
  | .object ps => mentionsInRow x ps
  | .union vs => mentionsInVariants x vs
  | .mu n b => n ≠ x && b.mentions x
  | .generic ns b => x ∉ ns && b.mentions x
  | .var n => n = x

/-- Does `x` occur free in a type of the row? -/
def mentionsInRow (x : Name) : Row → Bool
  | [] => false
  | (_, t) :: ps => t.mentions x || mentionsInRow x ps

/-- Does `x` occur free in a type of one of the variants? -/
def mentionsInVariants (x : Name) : Variants → Bool
  | [] => false
  | (_, ps) :: vs => mentionsInRow x ps || mentionsInVariants x vs

end

theorem mentionsInRow_eq_any (x : Name) (ps : Row) :
    mentionsInRow x ps = ps.any fun p => p.2.mentions x := by
  induction ps with
  | nil => rfl
  | cons p ps ih => exact congrArg (p.2.mentions x || ·) ih

theorem mentionsInVariants_eq_any (x : Name) (vs : Variants) :
    mentionsInVariants x vs = vs.any fun v => v.2.any fun p => p.2.mentions x := by
  induction vs with
  | nil => rfl
  | cons v vs ih =>
    show (mentionsInRow x v.2 || mentionsInVariants x vs) = _
    rw [mentionsInRow_eq_any, ih, List.any_cons]

/-! ### All names -/

mutual

/-- Adds the variables of the type that are free in it and not among `bound` behind the names that were found before,
from left to right, unless they were found before. -/
def collectFree (bound : List Name) : Ty → List Name → List Name
  | .prim _, found => found
  | .container _ e, found => e.collectFree bound found
  | .func ps r, found => r.collectFree bound (collectFreeInRow bound ps found)
  | .object ps, found => collectFreeInRow bound ps found
  | .union vs, found => collectFreeInVariants bound vs found
  | .mu n b, found => b.collectFree (n :: bound) found
  | .generic ns b, found => b.collectFree (ns ++ bound) found
  | .var n, found => if n ∈ bound ∨ n ∈ found then found else found ++ [n]

/-- `collectFree` for the types of a row, one after the other. -/
def collectFreeInRow (bound : List Name) : Row → List Name → List Name
  | [], found => found
  | (_, t) :: ps, found => collectFreeInRow bound ps (t.collectFree bound found)

/-- `collectFree` for the types of all variants, one after the other. -/
def collectFreeInVariants (bound : List Name) : Variants → List Name → List Name
  | [], found => found
  | (_, ps) :: vs, found => collectFreeInVariants bound vs (collectFreeInRow bound ps found)

end

/-- The free variables of a type, each once, in the order in which they first occur. -/
def freeNames (t : Ty) : List Name :=
  t.collectFree [] []

theorem collectFreeInRow_eq_foldl (bound : List Name) (ps : Row) (found : List Name) :
    collectFreeInRow bound ps found = ps.foldl (fun found p => p.2.collectFree bound found) found := by
  induction ps generalizing found with
  | nil => rfl
  | cons p ps ih => exact ih _

theorem collectFreeInVariants_eq_foldl (bound : List Name) (vs : Variants) (found : List Name) :
    collectFreeInVariants bound vs found = vs.foldl (fun found v => collectFreeInRow bound v.2 found) found := by
  induction vs generalizing found with
  | nil => rfl
  | cons v vs ih => exact ih _

end MuTypes.Ty
