import MuTypes.Ty.Basic
import MuTypes.Ty.Binders

/-!
# Equality up to bound names

`Ty.alphaEquiv` does not look at the names of `mu` and generic binders, nor at the order of properties and variants.
It does look at the names of parameters and of free variables.
-/

namespace MuTypes.Ty

mutual

/-- `alphaEquiv` below the given binders. -/
def alphaEquivUnder (bs : Binders) : Ty → Ty → Bool
  | .prim p, .prim q => p = q
  | .container k a, .container l b => k = l && alphaEquivUnder bs a b
  | .func ps r, .func qs s => alphaEquivParams bs ps qs && alphaEquivUnder bs r s
  | .object ps, .object qs => ps.length = qs.length && alphaEquivRow bs ps qs
  | .union vs, .union ws => vs.length = ws.length && alphaEquivVariants bs vs ws
  | .mu n a, .mu m b => alphaEquivUnder (bs.enter [n] [m]) a b
  | .generic ns a, .generic ms b => ns.length = ms.length && alphaEquivUnder (bs.enter ns ms) a b
  | .var n, .var m =>
    match bs.left? n, bs.right? m with
    | some i, some j => i = j
    | none, none => n = m
    | _, _ => false
  | _, _ => false

/-- Parameters agree in number and, one by one, in name and type. -/
def alphaEquivParams (bs : Binders) : Row → Row → Bool
  | [], [] => true
  | (n, a) :: ps, (m, b) :: qs => n = m && alphaEquivUnder bs a b && alphaEquivParams bs ps qs
  | _, _ => false

/-- Each property of the first row has its equal in the second. -/
def alphaEquivRow (bs : Binders) : Row → Row → Bool
  | [], _ => true
  | (n, a) :: ps, qs =>
    (match qs.lookup n with
      | some b => alphaEquivUnder bs a b
      | none => false) && alphaEquivRow bs ps qs

/-- Each variant of the first union has its equal in the second. -/
def alphaEquivVariants (bs : Binders) : Variants → Variants → Bool
  | [], _ => true
  | (l, ps) :: vs, ws =>
    (match ws.lookup l with
      | some qs => ps.length = qs.length && alphaEquivRow bs ps qs
      | none => false) && alphaEquivVariants bs vs ws

end

/-- Are the types equal up to the names of their binders and the order of their properties and variants? -/
def alphaEquiv (a b : Ty) : Bool :=
  alphaEquivUnder [] a b

end MuTypes.Ty
