import MuTypes.Proofs.FirstOccurrences
import MuTypes.Proofs.Supply

/-!
# The names in a type

Names that occur free are looked for in the list of free names (`mentions_mem_of_freeNames`).  `Ty.typeNames` also has
the names of the binders; a supply that is ahead of all of these draws names that are new to the type.
-/

namespace MuTypes

namespace Ty

/-! ### Free names -/

theorem mentions_mem_of_freeNames {t : Ty} {scope : List Name} (h : ∀ x ∈ t.freeNames, x ∈ scope) (x : Name)
    (hx : t.mentions x = true) : x ∈ scope :=
  h x (mem_freeNames_iff.2 hx)

/-! ### All names -/

mutual

/-- The names of all type variables in the type, those of its binders included. -/
def typeNames : Ty → List Name
  | .prim _ => []
  | .container _ e => e.typeNames
  | .func ps r => rowNames ps ++ r.typeNames
  | .object ps => rowNames ps
  | .union vs => variantsNames vs
  | .mu n b => n :: b.typeNames
  | .generic ns b => ns ++ b.typeNames
  | .var n => [n]

/-- `typeNames` over the types of a row. -/
def rowNames : Row → List Name
  | [] => []
  | (_, t) :: ps => t.typeNames ++ rowNames ps

/-- `typeNames` over the types of all variants. -/
def variantsNames : Variants → List Name
  | [] => []
  | (_, ps) :: vs => rowNames ps ++ variantsNames vs

end

section Names

variable {x : Name}

theorem mem_rowNames {ps : Row} : x ∈ rowNames ps ↔ ∃ p ∈ ps, x ∈ p.2.typeNames := by
  induction ps with
  | nil => simp [rowNames]
  | cons p ps ih => simp [rowNames, ih]

theorem mem_variantsNames {vs : Variants} : x ∈ variantsNames vs ↔ ∃ v ∈ vs, ∃ p ∈ v.2, x ∈ p.2.typeNames := by
  induction vs with
  | nil => simp [variantsNames]
  | cons v vs ih => simp [variantsNames, mem_rowNames, ih]

@[simp] theorem mem_typeNames_func {ps : Row} {r : Ty} :
    x ∈ (Ty.func ps r).typeNames ↔ (∃ p ∈ ps, x ∈ p.2.typeNames) ∨ x ∈ r.typeNames := by
  rw [typeNames, List.mem_append, mem_rowNames]

@[simp] theorem mem_typeNames_object {ps : Row} : x ∈ (Ty.object ps).typeNames ↔ ∃ p ∈ ps, x ∈ p.2.typeNames :=
  mem_rowNames

@[simp] theorem mem_typeNames_union {vs : Variants} :
    x ∈ (Ty.union vs).typeNames ↔ ∃ v ∈ vs, ∃ p ∈ v.2, x ∈ p.2.typeNames :=
  mem_variantsNames

@[simp] theorem mem_typeNames_mu {n : Name} {b : Ty} : x ∈ (Ty.mu n b).typeNames ↔ x = n ∨ x ∈ b.typeNames :=
  List.mem_cons

@[simp] theorem mem_typeNames_generic {ns : List Name} {b : Ty} :
    x ∈ (Ty.generic ns b).typeNames ↔ x ∈ ns ∨ x ∈ b.typeNames :=
  List.mem_append

end Names

theorem mem_typeNames_of_mentions {x : Name} {t : Ty} (h : t.mentions x = true) : x ∈ t.typeNames := by
  induction t with
  | prim p => simp at h
  | container k e ih => exact ih h
  | func ps r ihps ihr =>
    rcases (mentions_func ..).1 h with ⟨p, hp, hx⟩ | hx
    · exact mem_typeNames_func.2 (.inl ⟨p, hp, ihps p hp hx⟩)
    · exact mem_typeNames_func.2 (.inr (ihr hx))
  | object ps ih =>
    obtain ⟨p, hp, hx⟩ := (mentions_object ..).1 h
    exact mem_typeNames_object.2 ⟨p, hp, ih p hp hx⟩
  | union vs ih =>
    obtain ⟨v, hv, p, hp, hx⟩ := (mentions_union ..).1 h
    exact mem_typeNames_union.2 ⟨v, hv, p, hp, ih v hv p hp hx⟩
  | mu n b ih => exact mem_typeNames_mu.2 (.inr (ih ((mentions_mu ..).1 h).2))
  | generic ns b ih => exact mem_typeNames_generic.2 (.inr (ih ((mentions_generic ..).1 h).2))
  | var y => simp_all [typeNames]

end Ty

/-! ### Supplies that are ahead of a type -/

namespace NameSupply

/-- The supply will draw no name of the type. -/
def AheadOfTy (s : NameSupply) (t : Ty) : Prop :=
  ∀ x ∈ t.typeNames, s.AheadOf x

theorem AheadOfTy.mono {s s' : NameSupply} {t : Ty} (h : s.AheadOfTy t) (hs : s ≤ s') : s'.AheadOfTy t :=
  fun x hx => (h x hx).mono hs

theorem AheadOfTy.of_mentions {s : NameSupply} {t : Ty} (h : s.AheadOfTy t) {x : Name} (hx : t.mentions x = true) :
    s.AheadOf x :=
  h x (Ty.mem_typeNames_of_mentions hx)

/-- Every supply is ahead of the types that front ends produce. -/
theorem aheadOfTy_of_at_sign_not_mem {t : Ty} (h : ∀ x ∈ t.typeNames, '@' ∉ x.toList) (s : NameSupply) :
    s.AheadOfTy t :=
  fun x hx => aheadOf_of_at_sign_not_mem (h x hx) s

/-- Some supply is ahead of all names of a list. -/
theorem exists_aheadOf (ns : List Name) : ∃ s : NameSupply, ∀ x ∈ ns, s.AheadOf x := by
  induction ns with
  | nil => exact ⟨{}, by simp⟩
  | cons n ns ih =>
    obtain ⟨s, hs⟩ := ih
    by_cases h : ∃ base k, n = numbered base k
    · obtain ⟨base, k, rfl⟩ := h
      refine ⟨⟨max s.next (k + 1)⟩, List.forall_mem_cons.2 ⟨aheadOf_numbered ?_ base, fun x hx => ?_⟩⟩
      · exact Nat.lt_of_lt_of_le (Nat.lt_succ_self k) (Nat.le_max_right ..)
      · exact (hs x hx).mono (Nat.le_max_left s.next (k + 1))
    · exact ⟨s, List.forall_mem_cons.2 ⟨fun base k _ e => h ⟨base, k, e⟩, hs⟩⟩

end NameSupply

end MuTypes
