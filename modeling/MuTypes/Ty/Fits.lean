import MuTypes.Ty.Alpha
import MuTypes.Ty.Unroll

/-!
# Does a type fit where another is required?

Types are compared by structure and recursive types by their unrollings, coinductively: before a recursive type is
unrolled the comparison becomes an assumption, and one that meets an assumption again, up to bound names, succeeds.
Assumptions hold for the parts of their own comparison only.  `undefined` fits everywhere and takes everything.

The walk is bounded by fuel.  It halts without an answer when the fuel runs out, on a type that unrolls for ever, and
at a type variable that neither a binder nor the scope brings in.
-/

namespace MuTypes

/-- How closely a type has to fit. -/
inductive Fit where
  /-- The same shape: the same properties, parameters of the same types. -/
  | exact
  /-- More may be offered than is asked for: extra properties, and parameters that take more. -/
  | wide
deriving DecidableEq

/-- Why a comparison has no answer. -/
inductive Halt where
  /-- Two type variables met of which one at least is not in scope. -/
  | unscoped (expected actual : Name)
  /-- The fuel ran out, or a type unrolls for ever. -/
  | unfinished
deriving DecidableEq

/-- The text that names the cause. -/
def Halt.message : Halt → String
  | .unscoped e a => "type variable " ++ e ++ " / " ++ a ++ " is not in scope during compatibility check"
  | .unfinished => "comparison did not finish"

/-- Comparisons: they draw fresh names and may halt. -/
abbrev CompareM := ExceptT Halt SupplyM

namespace Ty

/-- A comparison that has been entered and is taken to succeed. -/
structure Assumption where
  fit : Fit
  expected : Ty
  actual : Ty

/-- Is this the comparison at hand, up to bound names? -/
def Assumption.covers (h : Assumption) (fit : Fit) (expected actual : Ty) : Bool :=
  h.fit = fit && h.expected.alphaEquiv expected && h.actual.alphaEquiv actual

/-- The type with its head unrolled; halts for one that unrolls for ever. -/
def unrolled (t : Ty) : CompareM Ty := do
  match ← t.unroll with
  | some t => return t
  | none => throw .unfinished

/-- Each entry of the expected list is offered under its name, and fits. -/
def allOffered {α : Type} (fits : α → α → CompareM Bool) (expected actual : List (Name × α)) : CompareM Bool :=
  expected.allM fun p =>
    match actual.lookup p.1 with
    | some q => fits p.2 q
    | none => return false

/-- Variables fit when they stand for the same pair of binders. -/
def fitsVar (bs : Binders) (expected actual : Name) : CompareM Bool :=
  match bs.left? expected, bs.right? actual with
  | some i, some j => return i = j
  | _, _ => throw (.unscoped expected actual)

/-- Types that are not headed by recursive binders fit by their shapes, when their parts fit. -/
def shapesFit (fits : Binders → Fit → Ty → Ty → CompareM Bool) (bs : Binders) (fit : Fit) :
    Ty → Ty → CompareM Bool
  | .prim p, .prim q => return p = q
  | .container k a, .container l b => if k = l then fits bs fit a b else return false
  | .func ps r, .func qs s =>
    if ps.length = qs.length then do
      let paramsFit ← match fit with
        | .exact => (ps.zip qs).allM fun (p, q) => fits bs .exact p.2 q.2
        | .wide => (ps.zip qs).allM fun (p, q) => fits bs.swap .wide q.2 p.2
      if paramsFit then fits bs fit r s else return false
    else
      return false
  | .object ps, .object qs =>
    if fit = .wide ∨ ps.length = qs.length then allOffered (fits bs fit) ps qs else return false
  | .union vs, .union ws =>
    let rowsFit (ps qs : Row) : CompareM Bool :=
      if ps.length = qs.length then allOffered (fits bs .exact) ps qs else return false
    if vs.length = ws.length then allOffered rowsFit vs ws else return false
  | .generic ns a, .generic ms b => if ns.length = ms.length then fits (bs.enter ns ms) fit a b else return false
  | .var n, .var m => fitsVar bs n m
  | _, _ => return false

/-- `fits` under the given assumptions and below the given binders. -/
def fitsUnder : Nat → List Assumption → Binders → Fit → Ty → Ty → CompareM Bool
  | 0, _, _, _, _, _ => throw .unfinished
  | fuel + 1, assumed, bs, fit, expected, actual =>
    if expected = .undefined ∨ actual = .undefined then
      return true
    else if expected.isMu || actual.isMu then
      if assumed.any (·.covers fit expected actual) then
        return true
      else do
        let expected' ← expected.unrolled
        let actual' ← actual.unrolled
        fitsUnder fuel (⟨fit, expected, actual⟩ :: assumed) bs fit expected' actual'
    else
      shapesFit (fitsUnder fuel assumed) bs fit expected actual

/-- Does `actual` fit where `expected` is required?  Both may mention the type variables in `scope`. -/
def fits (fuel : Nat) (scope : List Name) (fit : Fit) (expected actual : Ty) : CompareM Bool :=
  fitsUnder fuel [] (.ofScope scope) fit expected actual

end Ty

end MuTypes
