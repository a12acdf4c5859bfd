import MuTypes.Program

/-!
# Annotations without aliases

Read verbatim, an annotation is the type that has the same form, whose variables are the names that occur in it
(`TyExpr.verbatim`).  An annotation that needs no alias is well-formed when its names are bound and do not repeat where
they must not, and when its recursive types are contractive (`TyExpr.WellFormed`).  Conversely every type can be written
down as an annotation, node by node (`Ty.lower`).
-/

namespace MuTypes

namespace TyExpr

/-! ### Reading -/

mutual

/-- The type of the same form, in which every name is a variable. -/
def verbatim : TyExpr → Ty
  | .mk _ form => verbatimForm form

/-- The type of the same form as what stands somewhere. -/
def verbatimForm : TyForm → Ty
  | .prim p => .prim p
  | .container k e => .container k e.verbatim
  | .func ps r => .func (verbatimRow ps) r.verbatim
  | .object ps => .object (verbatimRow ps)
  | .union vs => .union (verbatimVariants vs)
  | .mu n b => .mu n b.verbatim
  | .generic ns b => .generic ns b.verbatim
  | .ref n | .app n _ => .var n

/-- `verbatim` on the annotations of a row. -/
def verbatimRow : List (Name × TyExpr) → Row
  | [] => []
  | (n, e) :: ps => (n, e.verbatim) :: verbatimRow ps

/-- `verbatim` on the annotations of all variants. -/
def verbatimVariants : List (Name × List (Name × TyExpr)) → Variants
  | [] => []
  | (l, ps) :: vs => (l, verbatimRow ps) :: verbatimVariants vs

end

/-! ### Well-formed annotations -/

/-- The names of the leading recursive binders, outermost first. -/
def muNames : TyExpr → List Name
  | .mk _ (.mu n b) => n :: b.muNames
  | _ => []

/-- What stands below the leading recursive binders. -/
def muBody : TyExpr → TyExpr
  | .mk _ (.mu _ b) => b.muBody
  | e => e

/-- The annotation is well-formed inside recursive types and generic types that bind these names.  Each name in it is
bound.  Properties of an object or of a variant, labels and type parameters do not repeat, and no recursive type has the
name of one around it.  What stands below the leading binders of a recursive type is none of their variables. -/
inductive WellFormed : List Name → List Name → TyExpr → Prop where
  | prim {mus params : List Name} {span : Span} (p : Prim) : WellFormed mus params (.mk span (.prim p))
  | container {mus params : List Name} {span : Span} {k : Container} {e : TyExpr} (he : WellFormed mus params e) :
    WellFormed mus params (.mk span (.container k e))
  | func {mus params : List Name} {span : Span} {ps : List (Name × TyExpr)} {r : TyExpr}
    (hps : ∀ p ∈ ps, WellFormed mus params p.2) (hr : WellFormed mus params r) :
    WellFormed mus params (.mk span (.func ps r))
  | object {mus params : List Name} {span : Span} {ps : List (Name × TyExpr)} (hd : (ps.map Prod.fst).Nodup)
    (hps : ∀ p ∈ ps, WellFormed mus params p.2) : WellFormed mus params (.mk span (.object ps))
  | union {mus params : List Name} {span : Span} {vs : List (Name × List (Name × TyExpr))}
    (hd : (vs.map Prod.fst).Nodup) (hds : ∀ v ∈ vs, (v.2.map Prod.fst).Nodup)
    (hvs : ∀ v ∈ vs, ∀ p ∈ v.2, WellFormed mus params p.2) : WellFormed mus params (.mk span (.union vs))
  | mu {mus params : List Name} {span : Span} {n : Name} {b : TyExpr} (hn : n ∉ mus)
    (hc : ∀ m ∈ n :: b.muNames, b.muBody.form ≠ .ref m) (hb : WellFormed (n :: mus) params b) :
    WellFormed mus params (.mk span (.mu n b))
  | generic {mus params : List Name} {span : Span} {ns : List Name} {b : TyExpr} (hns : ns.Nodup)
    (hb : WellFormed mus (ns ++ params) b) : WellFormed mus params (.mk span (.generic ns b))
  | ref {mus params : List Name} {span : Span} {n : Name} (hn : n ∈ mus ∨ n ∈ params) :
    WellFormed mus params (.mk span (.ref n))

end TyExpr

/-! ### Writing -/

namespace Ty

mutual

/-- Writes a type down as an annotation, whose nodes are made after those of their parts. -/
def lower : Ty → StateM Program TyExpr
  | .prim p => modifyGet (Program.makeTyExpr (.prim p))
  | .container k t => do
    let e ← t.lower
    modifyGet (Program.makeTyExpr (.container k e))
  | .func ps r => do
    let ps ← lowerRow ps
    let r ← r.lower
    modifyGet (Program.makeTyExpr (.func ps r))
  | .object ps => do
    let ps ← lowerRow ps
    modifyGet (Program.makeTyExpr (.object ps))
  | .union vs => do
    let vs ← lowerVariants vs
    modifyGet (Program.makeTyExpr (.union vs))
  | .mu n b => do
    let b ← b.lower
    modifyGet (Program.makeTyExpr (.mu n b))
  | .generic ns b => do
    let b ← b.lower
    modifyGet (Program.makeTyExpr (.generic ns b))
  | .var n => modifyGet (Program.makeTyExpr (.ref n))

/-- Writes the types of a row down, in order. -/
def lowerRow : Row → StateM Program (List (Name × TyExpr))
  | [] => return []
  | (n, t) :: ps => do
    let e ← t.lower
    return (n, e) :: (← lowerRow ps)

/-- Writes the types of all variants down, in order. -/
def lowerVariants : Variants → StateM Program (List (Name × List (Name × TyExpr)))
  | [] => return []
  | (l, ps) :: vs => do
    let row ← lowerRow ps
    return (l, row) :: (← lowerVariants vs)

end

end Ty

end MuTypes
