import MuTypes.Ty.Free

/-!
# Capture-avoiding substitution

`Ty.subst x r t` puts `r` for the free occurrences of `x` in `t`.  A binder on the way that would capture a free
variable of `r` is renamed first, to a fresh name; binders that enclose no occurrence of `x` stay as they are and
draw nothing.

Renaming is itself a substitution, of a variable in the body of the binder.  It keeps the height of the body
(`substWithin_var_height_le`), so the recursion goes by height, and the bound never shows: `subst` satisfies one
equation for each form of type (`subst_func`, `subst_mu` and the others).
-/

namespace MuTypes.Ty

/-- Changes the types of a row, from left to right. -/
def mapRow (f : Ty → SupplyM Ty) (ps : Row) : SupplyM Row :=
  ps.mapM fun p => return (p.1, ← f p.2)

/-- Changes the types of all variants, from left to right. -/
def mapVariants (f : Ty → SupplyM Ty) (vs : Variants) : SupplyM Variants :=
  vs.mapM fun v => return (v.1, ← mapRow f v.2)

/-- Gives binder `b` of `body` a fresh name, put in by `replace`, when `b` is one of the `captured` names. -/
def rebind (replace : Name → Ty → Ty → SupplyM Ty) (captured : List Name) (b : Name) (body : Ty) :
    SupplyM (Name × Ty) :=
  if b ∈ captured then do
    let b' ← draw b
    return (b', ← replace b (.var b') body)
  else
    return (b, body)

/-- `rebind` for each of several binders of one body, in order. -/
def rebindAll (replace : Name → Ty → Ty → SupplyM Ty) (captured : List Name) :
    List Name → Ty → SupplyM (List Name × Ty)
  | [], body => return ([], body)
  | b :: bs, body => do
    let (b, body) ← rebind replace captured b body
    let (bs, body) ← rebindAll replace captured bs body
    return (b :: bs, body)

/-- `subst` for types of height up to the bound. -/
def substWithin : Nat → Name → Ty → Ty → SupplyM Ty
  | 0, _, _, t => return t
  | k + 1, x, r, t =>
    match t with
    | .prim p => return .prim p
    | .container kind e => return .container kind (← substWithin k x r e)
    | .func ps result => return .func (← mapRow (substWithin k x r) ps) (← substWithin k x r result)
    | .object ps => return .object (← mapRow (substWithin k x r) ps)
    | .union vs => return .union (← mapVariants (substWithin k x r) vs)
    | .mu b body =>
      if (Ty.mu b body).mentions x then do
        let (b, body) ← rebind (substWithin k) r.freeNames b body
        return .mu b (← substWithin k x r body)
      else
        return .mu b body
    | .generic bs body =>
      if (Ty.generic bs body).mentions x then do
        let (bs, body) ← rebindAll (substWithin k) r.freeNames bs body
        return .generic bs (← substWithin k x r body)
      else
        return .generic bs body
    | .var y => return if y = x then r else .var y

/-- Puts `r` for the free occurrences of `x`, renaming the binders that would capture a free variable of `r`. -/
def subst (x : Name) (r t : Ty) : SupplyM Ty :=
  substWithin t.height x r t

/-- Substitutes for several names, one after the other. -/
def substAll : List (Name × Ty) → Ty → SupplyM Ty
  | [], t => return t
  | (x, r) :: rest, t => do substAll rest (← subst x r t)

/-! ### Rows -/

theorem mapRow_cons (f : Ty → SupplyM Ty) (p : Name × Ty) (ps : Row) :
    mapRow f (p :: ps) = do
      let t ← f p.2
      return (p.1, t) :: (← mapRow f ps) := by
  simp [mapRow]

theorem mapRow_congr {f g : Ty → SupplyM Ty} {ps : Row} (h : ∀ p ∈ ps, f p.2 = g p.2) :
    mapRow f ps = mapRow g ps := by
  induction ps with
  | nil => rfl
  | cons p ps ih =>
    obtain ⟨hp, hps⟩ := List.forall_mem_cons.1 h
    rw [mapRow_cons, mapRow_cons, hp, ih hps]

theorem mapVariants_cons (f : Ty → SupplyM Ty) (v : Name × Row) (vs : Variants) :
    mapVariants f (v :: vs) = do
      let row ← mapRow f v.2
      return (v.1, row) :: (← mapVariants f vs) := by
  simp [mapVariants]

theorem mapVariants_congr {f g : Ty → SupplyM Ty} {vs : Variants} (h : ∀ v ∈ vs, ∀ p ∈ v.2, f p.2 = g p.2) :
    mapVariants f vs = mapVariants g vs := by
  induction vs with
  | nil => rfl
  | cons v vs ih =>
    obtain ⟨hv, hvs⟩ := List.forall_mem_cons.1 h
    rw [mapVariants_cons, mapVariants_cons, mapRow_congr hv, ih hvs]

theorem mapRow_height_le {f : Ty → SupplyM Ty} {ps : Row}
    (h : ∀ p ∈ ps, Always (·.height ≤ p.2.height) (f p.2)) :
    Always (rowHeight · ≤ rowHeight ps) (mapRow f ps) := by
  induction ps with
  | nil => exact Always.pure (Nat.le_refl _)
  | cons p ps ih =>
    obtain ⟨hp, hps⟩ := List.forall_mem_cons.1 h
    rw [mapRow_cons]
    refine hp.bind fun t ht => (ih hps).bind fun qs hqs => Always.pure ?_
    simp only [rowHeight]
    omega

theorem mapVariants_height_le {f : Ty → SupplyM Ty} {vs : Variants}
    (h : ∀ v ∈ vs, ∀ p ∈ v.2, Always (·.height ≤ p.2.height) (f p.2)) :
    Always (variantsHeight · ≤ variantsHeight vs) (mapVariants f vs) := by
  induction vs with
  | nil => exact Always.pure (Nat.le_refl _)
  | cons v vs ih =>
    obtain ⟨hv, hvs⟩ := List.forall_mem_cons.1 h
    rw [mapVariants_cons]
    refine (mapRow_height_le hv).bind fun row hrow => (ih hvs).bind fun ws hws => Always.pure ?_
    simp only [variantsHeight]
    omega

/-! ### Renaming keeps the height -/

theorem rebind_height_le {replace : Name → Ty → Ty → SupplyM Ty}
    (h : ∀ b b' t, Always (·.height ≤ t.height) (replace b (.var b') t)) (captured : List Name) (b : Name) (t : Ty) :
    Always (fun q => q.2.height ≤ t.height) (rebind replace captured b t) := by
  unfold rebind
  split
  · exact Always.bind (P := fun _ => True) (fun _ => trivial) fun b' _ =>
      (h b b' t).bind fun u hu => Always.pure hu
  · exact Always.pure (Nat.le_refl _)

theorem rebindAll_height_le {replace : Name → Ty → Ty → SupplyM Ty}
    (h : ∀ b b' t, Always (·.height ≤ t.height) (replace b (.var b') t)) (captured bs : List Name) (t : Ty) :
    Always (fun q => q.2.height ≤ t.height) (rebindAll replace captured bs t) := by
  induction bs generalizing t with
  | nil => exact Always.pure (Nat.le_refl _)
  | cons b bs ih =>
    refine (rebind_height_le h captured b t).bind fun q hq => (ih q.2).bind fun q' hq' => Always.pure ?_
    exact Nat.le_trans hq' hq

/-- Putting a variable for a variable does not make a type higher. -/
theorem substWithin_var_height_le (k : Nat) (x y : Name) (t : Ty) :
    Always (·.height ≤ t.height) (substWithin k x (.var y) t) := by
  induction k generalizing x y t with
  | zero => exact Always.pure (Nat.le_refl _)
  | succ k ih =>
    cases t with
    | prim p => exact Always.pure (Nat.le_refl _)
    | container kind e =>
      refine (ih x y e).bind fun u hu => Always.pure ?_
      simp only [height]
      omega
    | func ps result =>
      refine (mapRow_height_le fun p _ => ih x y p.2).bind fun qs hqs =>
        (ih x y result).bind fun u hu => Always.pure ?_
      simp only [height]
      omega
    | object ps =>
      refine (mapRow_height_le fun p _ => ih x y p.2).bind fun qs hqs => Always.pure ?_
      simp only [height]
      omega
    | union vs =>
      refine (mapVariants_height_le fun v _ p _ => ih x y p.2).bind fun ws hws => Always.pure ?_
      simp only [height]
      omega
    | mu b body =>
      unfold substWithin
      simp only
      split
      · refine (rebind_height_le ih _ b body).bind fun q hq => (ih x y q.2).bind fun u hu => Always.pure ?_
        simp only [height]
        omega
      · exact Always.pure (Nat.le_refl _)
    | generic bs body =>
      unfold substWithin
      simp only
      split
      · refine (rebindAll_height_le ih _ bs body).bind fun q hq => (ih x y q.2).bind fun u hu => Always.pure ?_
        simp only [height]
        omega
      · exact Always.pure (Nat.le_refl _)
    | var z =>
      refine Always.pure ?_
      simp only [height]
      split <;> simp [height]

/-! ### The bound does not show -/

private theorem rebind_congr {f g : Name → Ty → Ty → SupplyM Ty} {t : Ty}
    (h : ∀ b b', f b (.var b') t = g b (.var b') t) (captured : List Name) (b : Name) :
    rebind f captured b t = rebind g captured b t := by
  simp only [rebind, h]

private theorem rebindAll_congr {f g : Name → Ty → Ty → SupplyM Ty} {k : Nat}
    (hf : ∀ b b' t, Always (·.height ≤ t.height) (f b (.var b') t))
    (h : ∀ b b' t, t.height ≤ k → f b (.var b') t = g b (.var b') t) (captured bs : List Name) {t : Ty}
    (ht : t.height ≤ k) : rebindAll f captured bs t = rebindAll g captured bs t := by
  induction bs generalizing t with
  | nil => rfl
  | cons b bs ih =>
    unfold rebindAll
    rw [← rebind_congr (fun b b' => h b b' t ht)]
    refine (rebind_height_le hf captured b t).bind_congr fun q hq => ?_
    show (do let (bs, body) ← rebindAll f captured bs q.2; _) = _
    rw [ih (Nat.le_trans hq ht)]

private theorem substWithin_succ {k : Nat} {t : Ty} (h : t.height ≤ k) (x : Name) (r : Ty) :
    substWithin (k + 1) x r t = substWithin k x r t := by
  induction k generalizing x r t with
  | zero => exact absurd t.height_pos (by omega)
  | succ k ih =>
    have hrow : ∀ {ps : Row}, rowHeight ps ≤ k →
        mapRow (substWithin (k + 1) x r) ps = mapRow (substWithin k x r) ps := fun hps =>
      mapRow_congr fun p hp => ih (Nat.le_trans (height_le_rowHeight hp) hps) x r
    rw [substWithin.eq_def (k + 1 + 1), substWithin.eq_def (k + 1)]
    cases t with
    | prim p => rfl
    | container kind e =>
      simp only [height] at h
      simp only [ih (by omega : e.height ≤ k)]
    | func ps result =>
      simp only [height] at h
      simp only [hrow (by omega : rowHeight ps ≤ k), ih (by omega : result.height ≤ k)]
    | object ps =>
      simp only [height] at h
      simp only [hrow (by omega : rowHeight ps ≤ k)]
    | union vs =>
      simp only [height] at h
      have hvs : mapVariants (substWithin (k + 1) x r) vs = mapVariants (substWithin k x r) vs :=
        mapVariants_congr fun v hv p hp => ih (Nat.le_trans (height_le_rowHeight hp)
          (Nat.le_trans (rowHeight_le_variantsHeight hv) (by omega))) x r
      simp only [hvs]
    | mu b body =>
      simp only [height] at h
      simp only
      split
      · rw [rebind_congr (fun b b' => ih (by omega : body.height ≤ k) b (.var b'))]
        refine (rebind_height_le (substWithin_var_height_le k) _ b body).bind_congr fun q hq => ?_
        simp only [ih (by omega : q.2.height ≤ k)]
      · rfl
    | generic bs body =>
      simp only [height] at h
      simp only
      split
      · rw [rebindAll_congr (substWithin_var_height_le (k + 1)) (fun b b' t ht => ih ht b (.var b')) _ bs
          (by omega : body.height ≤ k)]
        refine (rebindAll_height_le (substWithin_var_height_le k) _ bs body).bind_congr fun q hq => ?_
        simp only [ih (by omega : q.2.height ≤ k)]
      · rfl
    | var y => rfl

theorem substWithin_eq_subst {k : Nat} {t : Ty} (h : t.height ≤ k) (x : Name) (r : Ty) :
    substWithin k x r t = subst x r t := by
  induction k with
  | zero => exact absurd t.height_pos (by omega)
  | succ k ih =>
    by_cases hk : t.height ≤ k
    · rw [substWithin_succ hk, ih hk]
    · have : k + 1 = t.height := by omega
      rw [this, subst]

/-- Renaming a variable does not make a type higher. -/
theorem subst_var_height_le (x y : Name) (t : Ty) : Always (·.height ≤ t.height) (subst x (.var y) t) :=
  substWithin_var_height_le _ x y t

/-! ### Equations -/

section Equations

variable (x : Name) (r : Ty)

@[simp] theorem subst_prim (p : Prim) : subst x r (.prim p) = pure (.prim p) := rfl

@[simp] theorem subst_var (y : Name) : subst x r (.var y) = pure (if y = x then r else .var y) := rfl

theorem subst_container (kind : Container) (e : Ty) :
    subst x r (.container kind e) = do return .container kind (← subst x r e) := rfl

private theorem mapRow_substWithin {k : Nat} {ps : Row} (h : rowHeight ps ≤ k) :
    mapRow (substWithin k x r) ps = mapRow (subst x r) ps :=
  mapRow_congr fun _ hp => substWithin_eq_subst (Nat.le_trans (height_le_rowHeight hp) h) x r

theorem subst_func (ps : Row) (result : Ty) :
    subst x r (.func ps result) = do
      let ps ← mapRow (subst x r) ps
      return .func ps (← subst x r result) := by
  simp only [subst.eq_1 x r (.func ps result), height, substWithin,
    mapRow_substWithin x r (Nat.le_max_left (rowHeight ps) result.height),
    substWithin_eq_subst (Nat.le_max_right (rowHeight ps) result.height)]

theorem subst_object (ps : Row) :
    subst x r (.object ps) = do return .object (← mapRow (subst x r) ps) := by
  simp only [subst.eq_1 x r (.object ps), height, substWithin, mapRow_substWithin x r (Nat.le_refl (rowHeight ps))]

theorem subst_union (vs : Variants) :
    subst x r (.union vs) = do return .union (← mapVariants (subst x r) vs) := by
  have h : mapVariants (substWithin (variantsHeight vs) x r) vs = mapVariants (subst x r) vs :=
    mapVariants_congr fun v hv p hp => substWithin_eq_subst
      (Nat.le_trans (height_le_rowHeight hp) (rowHeight_le_variantsHeight hv)) x r
  simp only [subst.eq_1 x r (.union vs), height, substWithin, h]

theorem subst_mu (b : Name) (body : Ty) :
    subst x r (.mu b body) =
      if (Ty.mu b body).mentions x then do
        let (b, body) ← rebind subst r.freeNames b body
        return .mu b (← subst x r body)
      else
        return .mu b body := by
  simp only [subst.eq_1 x r (.mu b body), height, substWithin]
  split
  · rw [rebind_congr (fun b b' => substWithin_eq_subst (Nat.le_refl body.height) b (.var b'))]
    refine (rebind_height_le subst_var_height_le _ b body).bind_congr fun q hq => ?_
    simp only [substWithin_eq_subst hq]
  · rfl

theorem subst_generic (bs : List Name) (body : Ty) :
    subst x r (.generic bs body) =
      if (Ty.generic bs body).mentions x then do
        let (bs, body) ← rebindAll subst r.freeNames bs body
        return .generic bs (← subst x r body)
      else
        return .generic bs body := by
  simp only [subst.eq_1 x r (.generic bs body), height, substWithin]
  split
  · rw [rebindAll_congr (substWithin_var_height_le _) (fun b b' t ht => substWithin_eq_subst ht b (.var b')) _ bs
      (Nat.le_refl body.height)]
    refine (rebindAll_height_le subst_var_height_le _ bs body).bind_congr fun q hq => ?_
    simp only [substWithin_eq_subst hq]
  · rfl

end Equations

end MuTypes.Ty
