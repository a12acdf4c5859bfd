import MuTypes.Proofs.FreeNames
import MuTypes.Ty.Unroll

/-!
# Well-formed types

A type is well-formed when names and labels do not repeat and every recursive type is contractive.  This is a property
of its nameless form, apart from the distinct parameters of its generic types (`wellFormed_iff`).
-/

namespace MuTypes.Ty

/-- The parameters of each generic type are distinct. -/
inductive DistinctParams : Ty → Prop where
  | prim (p : Prim) : DistinctParams (.prim p)
  | container {k : Container} {e : Ty} (he : DistinctParams e) : DistinctParams (.container k e)
  | func {ps : Row} {r : Ty} (hps : ∀ p ∈ ps, DistinctParams p.2) (hr : DistinctParams r) :
    DistinctParams (.func ps r)
  | object {ps : Row} (hps : ∀ p ∈ ps, DistinctParams p.2) : DistinctParams (.object ps)
  | union {vs : Variants} (hvs : ∀ v ∈ vs, ∀ p ∈ v.2, DistinctParams p.2) : DistinctParams (.union vs)
  | mu {n : Name} {b : Ty} (hb : DistinctParams b) : DistinctParams (.mu n b)
  | generic {ns : List Name} {b : Ty} (hns : ns.Nodup) (hb : DistinctParams b) : DistinctParams (.generic ns b)
  | var (x : Name) : DistinctParams (.var x)

/-- Properties, labels and type parameters do not repeat, and recursive types are contractive. -/
inductive WellFormed : Ty → Prop where
  | prim (p : Prim) : WellFormed (.prim p)
  | container {k : Container} {e : Ty} (he : WellFormed e) : WellFormed (.container k e)
  | func {ps : Row} {r : Ty} (hps : ∀ p ∈ ps, WellFormed p.2) (hr : WellFormed r) : WellFormed (.func ps r)
  | object {ps : Row} (hd : (ps.map Prod.fst).Nodup) (hps : ∀ p ∈ ps, WellFormed p.2) : WellFormed (.object ps)
  | union {vs : Variants} (hd : (vs.map Prod.fst).Nodup) (hds : ∀ v ∈ vs, (v.2.map Prod.fst).Nodup)
    (hvs : ∀ v ∈ vs, ∀ p ∈ v.2, WellFormed p.2) : WellFormed (.union vs)
  | mu {n : Name} {b : Ty} (hc : (Ty.mu n b).isContractive = true) (hb : WellFormed b) : WellFormed (.mu n b)
  | generic {ns : List Name} {b : Ty} (hns : ns.Nodup) (hb : WellFormed b) : WellFormed (.generic ns b)
  | var (x : Name) : WellFormed (.var x)

/-- The head below the leading recursive binders is not one of their variables, nor one of `ns`. -/
private theorem guarded_nameless_iff (ns ctx : List Name) (t : Ty) :
    (t.nameless (ns ++ ctx)).Guarded ns.length ↔
      match t.muBody with
      | .var x => x ∉ t.muNames ∧ x ∉ ns
      | _ => True := by
  induction t generalizing ns with
  | mu n b ih =>
    have h := ih (n :: ns)
    rw [nameless_mu, Nameless.Guarded]
    refine h.trans ?_
    simp only [muBody, muNames]
    split
    · simp only [List.mem_cons, not_or]
      exact ⟨fun h => ⟨⟨h.2.1, h.1⟩, h.2.2⟩, fun h => ⟨h.1.2, h.1.1, h.2⟩⟩
    · exact Iff.rfl
  | var x =>
    simp only [nameless_var, leaf, muBody, muNames, List.not_mem_nil, not_false_eq_true, true_and]
    by_cases hx : x ∈ ns
    · rw [place_append_of_mem hx]
      cases h : place ns x with
      | none => exact absurd hx (place_eq_none_iff.1 h)
      | some i =>
        have := (place_eq_some h).1
        simp only [Nameless.Guarded, hx, not_true_eq_false, iff_false]
        omega
    · rw [place_append_of_not_mem hx]
      cases place ctx x <;> simp [Nameless.Guarded, hx]
  | func ps r => simp [Nameless.Guarded, muBody]
  | object ps => simp [Nameless.Guarded, muBody]
  | union vs => simp [Nameless.Guarded, muBody]
  | _ => simp [Nameless.Guarded, muBody]

theorem guarded_nameless_iff_isContractive (n : Name) (ctx : List Name) (b : Ty) :
    (b.nameless (n :: ctx)).Guarded 1 ↔ (Ty.mu n b).isContractive = true := by
  refine (guarded_nameless_iff [n] ctx b).trans ?_
  simp only [isContractive, muBody, muNames]
  cases b.muBody <;> simp [and_comm]

/-- Well-formedness is a property of the nameless form and of the parameters of generic types. -/
theorem wellFormed_iff (ctx : List Name) {t : Ty} :
    t.WellFormed ↔ (t.nameless ctx).WellFormed ∧ t.DistinctParams := by
  constructor
  · intro h
    induction h generalizing ctx with
    | prim p => exact ⟨.prim p, .prim p⟩
    | container _ ih => exact ⟨.container (ih ctx).1, .container (ih ctx).2⟩
    | func _ _ ihps ihr =>
      rw [nameless_func]
      exact ⟨.func (List.forall_mem_map.2 fun p hp => (ihps p hp ctx).1) (ihr ctx).1,
        .func (fun p hp => (ihps p hp ctx).2) (ihr ctx).2⟩
    | object hd _ ih =>
      rw [nameless_object]
      exact ⟨.object (by rwa [map_fst_map_snd]) (List.forall_mem_map.2 fun p hp => (ih p hp ctx).1),
        .object fun p hp => (ih p hp ctx).2⟩
    | union hd hds _ ih =>
      rw [nameless_union]
      refine ⟨.union (by rwa [map_fst_map_snd]) (List.forall_mem_map.2 fun v hv => ?_)
        (List.forall_mem_map.2 fun v hv => List.forall_mem_map.2 fun p hp => (ih v hv p hp ctx).1),
        .union fun v hv p hp => (ih v hv p hp ctx).2⟩
      rw [map_fst_map_snd]
      exact hds v hv
    | mu hc _ ih =>
      exact ⟨.mu ((guarded_nameless_iff_isContractive ..).2 hc) (ih (_ :: ctx)).1, .mu (ih ctx).2⟩
    | generic hns _ ih => exact ⟨.generic (ih (_ ++ ctx)).1, .generic hns (ih ctx).2⟩
    | var x =>
      refine ⟨?_, .var x⟩
      rw [nameless_var, leaf]
      cases place ctx x <;> constructor
  · rintro ⟨hw, hp⟩
    induction hp generalizing ctx with
    | prim p => exact .prim p
    | container _ ih =>
      cases hw with
      | container he => exact .container (ih ctx he)
    | func _ _ ihps ihr =>
      rw [nameless_func] at hw
      cases hw with
      | func hps hr => exact .func (fun p hp => ihps p hp ctx (List.forall_mem_map.1 hps p hp)) (ihr ctx hr)
    | object _ ih =>
      rw [nameless_object] at hw
      cases hw with
      | object hd hps =>
        rw [map_fst_map_snd] at hd
        exact .object hd fun p hp => ih p hp ctx (List.forall_mem_map.1 hps p hp)
    | union _ ih =>
      rw [nameless_union] at hw
      cases hw with
      | union hd hds hvs =>
        rw [map_fst_map_snd] at hd
        refine .union hd (fun v hv => ?_) fun v hv p hp =>
          ih v hv p hp ctx (List.forall_mem_map.1 (List.forall_mem_map.1 hvs v hv) p hp)
        have := List.forall_mem_map.1 hds v hv
        rwa [map_fst_map_snd] at this
    | mu _ ih =>
      cases hw with
      | mu hg hb => exact .mu ((guarded_nameless_iff_isContractive ..).1 hg) (ih (_ :: ctx) hb)
    | generic hns _ ih =>
      cases hw with
      | generic hb => exact .generic hns (ih (_ ++ ctx) hb)
    | var x => exact .var x

/-- The nameless form of a well-formed type can be unrolled and compared. -/
theorem WellFormed.sound {t : Ty} (h : t.WellFormed) : t.bare.Sound :=
  ⟨closedAt_nameless [] t, ((wellFormed_iff []).1 h).1⟩

theorem WellFormed.distinctParams {t : Ty} (h : t.WellFormed) : t.DistinctParams :=
  ((wellFormed_iff []).1 h).2

/-! ### Deciding well-formedness -/

mutual

/-- Is the type well-formed? -/
def checkWellFormed : Ty → Bool
  | .prim _ => true
  | .container _ e => e.checkWellFormed
  | .func ps r => checkRow ps && r.checkWellFormed
  | .object ps => decide (ps.map Prod.fst).Nodup && checkRow ps
  | .union vs => decide (vs.map Prod.fst).Nodup && checkVariants vs
  | .mu n b => (Ty.mu n b).isContractive && b.checkWellFormed
  | .generic ns b => decide ns.Nodup && b.checkWellFormed
  | .var _ => true

/-- `checkWellFormed` on the types of a row. -/
def checkRow : Row → Bool
  | [] => true
  | (_, t) :: ps => t.checkWellFormed && checkRow ps

/-- `checkWellFormed` on the types of all variants, whose properties may not repeat. -/
def checkVariants : Variants → Bool
  | [] => true
  | (_, ps) :: vs => decide (ps.map Prod.fst).Nodup && checkRow ps && checkVariants vs

end

theorem checkRow_iff {ps : Row} : checkRow ps = true ↔ ∀ p ∈ ps, p.2.checkWellFormed = true := by
  induction ps with
  | nil => simp [checkRow]
  | cons p ps ih => simp [checkRow, ih]

theorem checkVariants_iff {vs : Variants} :
    checkVariants vs = true ↔ ∀ v ∈ vs, (v.2.map Prod.fst).Nodup ∧ ∀ p ∈ v.2, p.2.checkWellFormed = true := by
  induction vs with
  | nil => simp [checkVariants]
  | cons v vs ih =>
    simp only [checkVariants, Bool.and_eq_true, decide_eq_true_eq, checkRow_iff, ih, List.forall_mem_cons]

theorem checkWellFormed_iff {t : Ty} : t.checkWellFormed = true ↔ t.WellFormed := by
  constructor
  · intro h
    induction t with
    | prim p => exact .prim p
    | container k e ih => exact .container (ih h)
    | func ps r ihps ihr =>
      rw [checkWellFormed, Bool.and_eq_true, checkRow_iff] at h
      exact .func (fun p hp => ihps p hp (h.1 p hp)) (ihr h.2)
    | object ps ih =>
      rw [checkWellFormed, Bool.and_eq_true, decide_eq_true_eq, checkRow_iff] at h
      exact .object h.1 fun p hp => ih p hp (h.2 p hp)
    | union vs ih =>
      rw [checkWellFormed, Bool.and_eq_true, decide_eq_true_eq, checkVariants_iff] at h
      exact .union h.1 (fun v hv => (h.2 v hv).1) fun v hv p hp => ih v hv p hp ((h.2 v hv).2 p hp)
    | mu n b ih =>
      rw [checkWellFormed, Bool.and_eq_true] at h
      exact .mu h.1 (ih h.2)
    | generic ns b ih =>
      rw [checkWellFormed, Bool.and_eq_true, decide_eq_true_eq] at h
      exact .generic h.1 (ih h.2)
    | var x => exact .var x
  · intro h
    induction h with
    | prim p => rfl
    | container _ ih => exact ih
    | func _ _ ihps ihr =>
      rw [checkWellFormed, Bool.and_eq_true, checkRow_iff]
      exact ⟨ihps, ihr⟩
    | object hd _ ih =>
      rw [checkWellFormed, Bool.and_eq_true, decide_eq_true_eq, checkRow_iff]
      exact ⟨hd, ih⟩
    | union hd hds _ ih =>
      rw [checkWellFormed, Bool.and_eq_true, decide_eq_true_eq, checkVariants_iff]
      exact ⟨hd, fun v hv => ⟨hds v hv, ih v hv⟩⟩
    | mu hc _ ih =>
      rw [checkWellFormed, Bool.and_eq_true]
      exact ⟨hc, ih⟩
    | generic hns _ ih =>
      rw [checkWellFormed, Bool.and_eq_true, decide_eq_true_eq]
      exact ⟨hns, ih⟩
    | var x => rfl

instance (t : Ty) : Decidable t.WellFormed :=
  decidable_of_iff _ checkWellFormed_iff

end MuTypes.Ty
