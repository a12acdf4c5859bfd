import MuTypes.NameSupply

/-!
# Types

Structural types with recursive binders `mu X. T` and generic binders `<X, Y>T`.  A `mu` type stands for its
infinite unrolling.  Types are trees over lists, so the module gives the induction principle that reaches the
components of those lists (`Ty.induct`), decidable equality, and the height of a type, which bounds every
recursion into its parts.
-/

namespace MuTypes

/-- The types without parts.  `undefined` is the type of the value of that name and of code that falls through. -/
inductive Prim where
  | boolean
  | number
  | string
  | undefined
deriving DecidableEq

/-- The type formers with one part: `T | undefined`, `T[]` and `Record<string, T>`. -/
inductive Container where
  | option
  | array
  | map
deriving DecidableEq

/-- Types. -/
inductive Ty where
  | prim (p : Prim)
  | container (kind : Container) (elem : Ty)
  | func (params : List (Name × Ty)) (result : Ty)
  | object (row : List (Name × Ty))
  /-- Objects that carry one of the labels as their tag, with the properties of that label. -/
  | union (variants : List (Name × List (Name × Ty)))
  /-- `mu X. T`, the type that solves `X = T`. -/
  | mu (name : Name) (body : Ty)
  | generic (params : List Name) (body : Ty)
  | var (name : Name)

/-- Named types in order: the parameters of a function, the properties of an object or of a variant. -/
abbrev Row := List (Name × Ty)

/-- The variants of a tagged union: labels with their properties. -/
abbrev Variants := List (Name × Row)

namespace Ty

@[match_pattern] abbrev boolean : Ty := .prim .boolean
@[match_pattern] abbrev number : Ty := .prim .number
@[match_pattern] abbrev string : Ty := .prim .string
@[match_pattern] abbrev undefined : Ty := .prim .undefined
@[match_pattern] abbrev option (elem : Ty) : Ty := .container .option elem
@[match_pattern] abbrev array (elem : Ty) : Ty := .container .array elem
@[match_pattern] abbrev map (elem : Ty) : Ty := .container .map elem

instance : Inhabited Ty := ⟨.undefined⟩

/-- Is the type headed by a recursive binder? -/
def isMu : Ty → Bool
  | .mu .. => true
  | _ => false

/-! ### Induction -/

/-- Induction over types, with a hypothesis for every type in a list. -/
@[elab_as_elim, induction_eliminator]
theorem induct {motive : Ty → Prop}
    (prim : ∀ p, motive (.prim p))
    (container : ∀ kind elem, motive elem → motive (.container kind elem))
    (func : ∀ params result, (∀ p ∈ params, motive p.2) → motive result → motive (.func params result))
    (object : ∀ row, (∀ p ∈ row, motive p.2) → motive (.object row))
    (union : ∀ variants, (∀ v ∈ variants, ∀ p ∈ v.2, motive p.2) → motive (.union variants))
    (mu : ∀ name body, motive body → motive (.mu name body))
    (generic : ∀ params body, motive body → motive (.generic params body))
    (var : ∀ name, motive (.var name)) (t : Ty) : motive t :=
  Ty.rec (motive_1 := motive) (motive_2 := fun row => ∀ p ∈ row, motive p.2)
    (motive_3 := fun variants => ∀ v ∈ variants, ∀ p ∈ v.2, motive p.2)
    (motive_4 := fun p => motive p.2) (motive_5 := fun v => ∀ p ∈ v.2, motive p.2)
    prim container func object union mu generic var
    (by simp) (fun _ _ hp hps => List.forall_mem_cons.2 ⟨hp, hps⟩)
    (by simp) (fun _ _ hv hvs => List.forall_mem_cons.2 ⟨hv, hvs⟩)
    (fun _ _ h => h) (fun _ _ h => h) t

/-! ### Equality -/

mutual

/-- Do the two types have the same form, names included? -/
def same : Ty → Ty → Bool
  | .prim p, .prim q => p = q
  | .container k a, .container l b => k = l && same a b
  | .func ps r, .func qs s => sameRow ps qs && same r s
  | .object ps, .object qs => sameRow ps qs
  | .union vs, .union ws => sameVariants vs ws
  | .mu n a, .mu m b => n = m && same a b
  | .generic ns a, .generic ms b => ns = ms && same a b
  | .var n, .var m => n = m
  | _, _ => false

/-- `same` on rows. -/
def sameRow : Row → Row → Bool
  | [], [] => true
  | (n, a) :: ps, (m, b) :: qs => n = m && same a b && sameRow ps qs
  | _, _ => false

/-- `same` on variants. -/
def sameVariants : Variants → Variants → Bool
  | [], [] => true
  | (n, ps) :: vs, (m, qs) :: ws => n = m && sameRow ps qs && sameVariants vs ws
  | _, _ => false

end

private theorem sameRow_iff {ps : Row} (ih : ∀ p ∈ ps, ∀ b, same p.2 b = true ↔ p.2 = b) (qs : Row) :
    sameRow ps qs = true ↔ ps = qs := by
  induction ps generalizing qs with
  | nil => cases qs <;> simp [sameRow]
  | cons p ps ihps =>
    obtain ⟨hp, hps⟩ := List.forall_mem_cons.1 ih
    obtain _ | ⟨q, qs⟩ := qs
    · simp [sameRow]
    · simp [sameRow, hp, ihps hps, Prod.ext_iff]

private theorem sameVariants_iff {vs : Variants}
    (ih : ∀ v ∈ vs, ∀ p ∈ v.2, ∀ b, same p.2 b = true ↔ p.2 = b) (ws : Variants) :
    sameVariants vs ws = true ↔ vs = ws := by
  induction vs generalizing ws with
  | nil => cases ws <;> simp [sameVariants]
  | cons v vs ihvs =>
    obtain ⟨hv, hvs⟩ := List.forall_mem_cons.1 ih
    obtain _ | ⟨w, ws⟩ := ws
    · simp [sameVariants]
    · simp [sameVariants, sameRow_iff hv, ihvs hvs, Prod.ext_iff]

theorem same_iff (a b : Ty) : same a b = true ↔ a = b := by
  induction a generalizing b with
  | prim p => cases b <;> simp [same]
  | container k a ih => cases b <;> simp [same, ih]
  | func ps r ihps ihr => cases b <;> simp [same, sameRow_iff ihps, ihr]
  | object ps ih => cases b <;> simp [same, sameRow_iff ih]
  | union vs ih => cases b <;> simp [same, sameVariants_iff ih]
  | mu n a ih => cases b <;> simp [same, ih]
  | generic ns a ih => cases b <;> simp [same, ih]
  | var n => cases b <;> simp [same]

instance : DecidableEq Ty := fun a b => decidable_of_iff (same a b = true) (same_iff a b)

/-! ### Height -/

mutual

/-- The number of nodes on the longest path into the type. -/
def height : Ty → Nat
  | .prim _ | .var _ => 1
  | .container _ e => e.height + 1
  | .func ps r => max (rowHeight ps) r.height + 1
  | .object ps => rowHeight ps + 1
  | .union vs => variantsHeight vs + 1
  | .mu _ b | .generic _ b => b.height + 1

/-- The height of the highest type of a row. -/
def rowHeight : Row → Nat
  | [] => 0
  | (_, t) :: ps => max t.height (rowHeight ps)

/-- The height of the highest type of all variants. -/
def variantsHeight : Variants → Nat
  | [] => 0
  | (_, ps) :: vs => max (rowHeight ps) (variantsHeight vs)

end

theorem height_pos (t : Ty) : 0 < t.height := by
  cases t <;> simp [height]

theorem height_le_rowHeight {p : Name × Ty} {ps : Row} (h : p ∈ ps) : p.2.height ≤ rowHeight ps := by
  induction ps with
  | nil => simp at h
  | cons q ps ih =>
    rcases List.mem_cons.1 h with rfl | h
    · exact Nat.le_max_left ..
    · exact Nat.le_trans (ih h) (Nat.le_max_right ..)

theorem rowHeight_le_variantsHeight {v : Name × Row} {vs : Variants} (h : v ∈ vs) :
    rowHeight v.2 ≤ variantsHeight vs := by
  induction vs with
  | nil => simp at h
  | cons w vs ih =>
    rcases List.mem_cons.1 h with rfl | h
    · exact Nat.le_max_left ..
    · exact Nat.le_trans (ih h) (Nat.le_max_right ..)

end Ty

end MuTypes
