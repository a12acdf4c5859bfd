import MuTypes.Proofs.Nameless.Alike
import MuTypes.Proofs.WellFormed
import MuTypes.Ty.Alpha

/-!
# Equality up to bound names is a relation of nameless forms

Comparing two types below pairs of binders is comparing their nameless forms (`alphaEquivUnder_iff`).
-/

namespace MuTypes

open Nameless

namespace Binders

/-- The binders of the left type, innermost first. -/
def lefts (bs : Binders) : List Name :=
  bs.map Prod.fst

/-- The binders of the right type, innermost first. -/
def rights (bs : Binders) : List Name :=
  bs.map Prod.snd

@[simp] theorem lefts_swap (bs : Binders) : bs.swap.lefts = bs.rights := by
  simp [lefts, rights, swap]

@[simp] theorem rights_swap (bs : Binders) : bs.swap.rights = bs.lefts := by
  simp [lefts, rights, swap]

@[simp] theorem length_swap (bs : Binders) : bs.swap.length = bs.length := by
  simp [swap]

theorem left?_eq_place (bs : Binders) (x : Name) : bs.left? x = place bs.lefts x := by
  simp [left?, place, lefts, List.findIdx?_map, Function.comp_def]

theorem right?_eq_place (bs : Binders) (x : Name) : bs.right? x = place bs.rights x := by
  simp [right?, place, rights, List.findIdx?_map, Function.comp_def]

section Enter

variable (bs : Binders) {ns ms : List Name} (h : ns.length = ms.length)

include h

theorem lefts_enter : (bs.enter ns ms).lefts = ns.reverse ++ bs.lefts := by
  rw [enter, lefts, List.map_append, List.map_reverse, List.map_fst_zip (Nat.le_of_eq h), ← lefts]

theorem rights_enter : (bs.enter ns ms).rights = ms.reverse ++ bs.rights := by
  rw [enter, rights, List.map_append, List.map_reverse, List.map_snd_zip (Nat.le_of_eq h.symm), ← rights]

theorem length_enter : (bs.enter ns ms).length = bs.length + ns.length := by
  simp [enter, h]
  omega

end Enter

end Binders

namespace Ty

variable {bs : Binders}

private theorem alike_leaf_iff (n m : Name) :
    Alike (leaf bs.lefts n) (leaf bs.rights m) ↔
      (match bs.left? n, bs.right? m with
        | some i, some j => decide (i = j)
        | none, none => decide (n = m)
        | _, _ => false) = true := by
  rw [Binders.left?_eq_place, Binders.right?_eq_place, leaf, leaf]
  cases place bs.lefts n <;> cases place bs.rights m <;> simp [Alike, eq_comm]

theorem alphaEquivParams_iff {ps qs : Row}
    (ih : ∀ p ∈ ps, ∀ b, alphaEquivUnder bs p.2 b = true ↔ Alike (p.2.nameless bs.lefts) (b.nameless bs.rights)) :
    alphaEquivParams bs ps qs = true ↔
      List.Forall₂ (fun p q => p.1 = q.1 ∧ Alike (p.2.nameless bs.lefts) (q.2.nameless bs.rights)) ps qs := by
  induction ps generalizing qs with
  | nil => cases qs <;> simp [alphaEquivParams]
  | cons p ps ihps =>
    obtain ⟨hp, hps⟩ := List.forall_mem_cons.1 ih
    obtain ⟨n, a⟩ := p
    obtain _ | ⟨⟨m, b⟩, qs⟩ := qs
    · simp [alphaEquivParams]
    · simp [alphaEquivParams, hp, ihps hps, and_assoc]

theorem alphaEquivRow_iff {ps qs : Row}
    (ih : ∀ p ∈ ps, ∀ b, alphaEquivUnder bs p.2 b = true ↔ Alike (p.2.nameless bs.lefts) (b.nameless bs.rights)) :
    alphaEquivRow bs ps qs = true ↔
      ∀ p ∈ ps, ∃ b, qs.lookup p.1 = some b ∧ Alike (p.2.nameless bs.lefts) (b.nameless bs.rights) := by
  induction ps with
  | nil => simp [alphaEquivRow]
  | cons p ps ihps =>
    obtain ⟨hp, hps⟩ := List.forall_mem_cons.1 ih
    rw [List.forall_mem_cons, ← ihps hps, alphaEquivRow, Bool.and_eq_true]
    refine and_congr_left fun _ => ?_
    cases qs.lookup p.1 with
    | none => simp
    | some b => simp [hp]

theorem alphaEquivVariants_iff {vs ws : Variants}
    (ih : ∀ v ∈ vs, ∀ p ∈ v.2, ∀ b,
      alphaEquivUnder bs p.2 b = true ↔ Alike (p.2.nameless bs.lefts) (b.nameless bs.rights)) :
    alphaEquivVariants bs vs ws = true ↔
      ∀ v ∈ vs, ∃ qs, ws.lookup v.1 = some qs ∧ v.2.length = qs.length ∧
        ∀ p ∈ v.2, ∃ b, qs.lookup p.1 = some b ∧ Alike (p.2.nameless bs.lefts) (b.nameless bs.rights) := by
  induction vs with
  | nil => simp [alphaEquivVariants]
  | cons v vs ihvs =>
    obtain ⟨hv, hvs⟩ := List.forall_mem_cons.1 ih
    rw [List.forall_mem_cons, ← ihvs hvs, alphaEquivVariants, Bool.and_eq_true]
    refine and_congr_left fun _ => ?_
    cases ws.lookup v.1 with
    | none => simp
    | some qs => simp [alphaEquivRow_iff hv]

/-- An entry of a row is found in the nameless form of the row. -/
private theorem exists_lookup_iff {qs : Row} {n : Name} {t : Nameless Name} :
    (∃ u, (qs.map fun q => (q.1, q.2.nameless bs.rights)).lookup n = some u ∧ Alike t u) ↔
      ∃ b, qs.lookup n = some b ∧ Alike t (b.nameless bs.rights) := by
  rw [lookup_map_snd (nameless bs.rights)]
  cases qs.lookup n <;> simp

/-- Equality up to bound names below pairs of binders is likeness of the nameless forms. -/
theorem alphaEquivUnder_iff (bs : Binders) (a b : Ty) :
    alphaEquivUnder bs a b = true ↔ Alike (a.nameless bs.lefts) (b.nameless bs.rights) := by
  induction a generalizing bs b with
  | prim p =>
    cases b with
    | prim q => simp [alphaEquivUnder, Alike, eq_comm]
    | var m => rw [nameless_var, leaf]; cases place bs.rights m <;> simp [alphaEquivUnder, Alike]
    | _ => simp [alphaEquivUnder, Alike]
  | container k e ih =>
    cases b with
    | container l e' =>
      simp only [alphaEquivUnder, nameless_container, Alike, Nameless.container.injEq, Bool.and_eq_true,
        decide_eq_true_eq, ih]
      constructor
      · rintro ⟨rfl, he⟩
        exact ⟨_, ⟨rfl, rfl⟩, he⟩
      · rintro ⟨_, ⟨rfl, rfl⟩, he⟩
        exact ⟨rfl, he⟩
    | var m => rw [nameless_var, leaf]; cases place bs.rights m <;> simp [alphaEquivUnder, Alike]
    | _ => simp [alphaEquivUnder, Alike]
  | func ps r ihps ihr =>
    rw [nameless_func, alike_func]
    cases b with
    | func qs s =>
      rw [alphaEquivUnder, Bool.and_eq_true, alphaEquivParams_iff fun p hp => ihps p hp bs, ihr, nameless_func]
      simp only [Nameless.func.injEq, List.forall₂_map_left_iff]
      constructor
      · rintro ⟨hps, hr⟩
        exact ⟨_, _, ⟨rfl, rfl⟩, List.forall₂_map_right_iff.2 hps, hr⟩
      · rintro ⟨_, _, ⟨rfl, rfl⟩, hps, hr⟩
        exact ⟨List.forall₂_map_right_iff.1 hps, hr⟩
    | var m => rw [nameless_var, leaf]; cases place bs.rights m <;> simp [alphaEquivUnder]
    | _ => simp [alphaEquivUnder]
  | object ps ih =>
    rw [nameless_object, alike_object]
    cases b with
    | object qs =>
      rw [alphaEquivUnder, Bool.and_eq_true, decide_eq_true_eq, alphaEquivRow_iff fun p hp => ih p hp bs,
        nameless_object]
      simp only [Nameless.object.injEq, exists_eq_left', List.length_map, List.forall_mem_map, exists_lookup_iff]
    | var m => rw [nameless_var, leaf]; cases place bs.rights m <;> simp [alphaEquivUnder]
    | _ => simp [alphaEquivUnder]
  | union vs ih =>
    rw [nameless_union, alike_union]
    cases b with
    | union ws =>
      rw [alphaEquivUnder, Bool.and_eq_true, decide_eq_true_eq, alphaEquivVariants_iff fun v hv p hp => ih v hv p hp bs,
        nameless_union]
      simp only [Nameless.union.injEq, exists_eq_left', List.length_map, List.forall_mem_map]
      refine and_congr_right fun _ => forall₂_congr fun v _ => ?_
      rw [lookup_map_snd fun qs : Row => qs.map fun q => (q.1, q.2.nameless bs.rights)]
      cases ws.lookup v.1 with
      | none => simp
      | some qs => simp [exists_lookup_iff]
    | var m => rw [nameless_var, leaf]; cases place bs.rights m <;> simp [alphaEquivUnder]
    | _ => simp [alphaEquivUnder]
  | mu n a ih =>
    cases b with
    | mu m b =>
      have h : [n].length = [m].length := rfl
      rw [alphaEquivUnder, ih, Binders.lefts_enter bs h, Binders.rights_enter bs h]
      simp [Alike]
    | var m => rw [nameless_var, leaf]; cases place bs.rights m <;> simp [alphaEquivUnder, Alike]
    | _ => simp [alphaEquivUnder, Alike]
  | generic ns a ih =>
    cases b with
    | generic ms b =>
      rw [alphaEquivUnder, Bool.and_eq_true, decide_eq_true_eq, ih]
      by_cases h : ns.length = ms.length
      · rw [Binders.lefts_enter bs h, Binders.rights_enter bs h]
        simp [Alike, h]
      · simp [Alike, h, Ne.symm h]
    | var m => rw [nameless_var, leaf]; cases place bs.rights m <;> simp [alphaEquivUnder, Alike]
    | _ => simp [alphaEquivUnder, Alike]
  | var n =>
    rw [nameless_var]
    cases b with
    | var m =>
      rw [nameless_var, alphaEquivUnder]
      exact (alike_leaf_iff n m).symm
    | _ => cases h : place bs.lefts n <;> simp [leaf, h, alphaEquivUnder, Alike]

theorem alphaEquiv_iff {a b : Ty} : a.alphaEquiv b = true ↔ Alike a.bare b.bare :=
  alphaEquivUnder_iff [] a b

theorem WellFormed.alphaEquiv_of_bare_eq {a b : Ty} (h : a.WellFormed) (he : a.bare = b.bare) :
    a.alphaEquiv b = true :=
  alphaEquiv_iff.2 (he ▸ alike_refl h.sound.wellFormed)

end Ty

end MuTypes
