import MuTypes.Proofs.Renaming.Parallel
import MuTypes.Proofs.Renaming.Types
import MuTypes.Ty.Instantiate

/-!
# Comparing renamed types

What is done with types commutes with shifting the numbers of drawn names, when the supply is shifted as well:
substitution (`subst_parallel`), instantiation (`instantiate_parallel`), unrolling (`unrolled_alongside`) and the
comparison (`fits_alongside`).  In particular renamed types fit exactly when the types do, and with as much fuel.
-/

namespace MuTypes

/-- Reasons of the same kind. -/
def Halt.SameKind (h h' : Halt) : Prop :=
  h.ctorIdx = h'.ctorIdx

/-- The reason with the type variables in it renamed. -/
def Halt.rename (f : Name → Name) : Halt → Halt
  | .unscoped e a => .unscoped (f e) (f a)
  | .unfinished => .unfinished

/-- The second reason is the first one, renamed. -/
def Halt.Renamed (f : Name → Name) (h h' : Halt) : Prop :=
  h' = h.rename f

namespace Ty

variable {k d : Nat} {f : Name → Name}

/-! ### Substitution -/

private theorem mapRow_parallel {g g' : Ty → SupplyM Ty} {ps : Row}
    (h : ∀ p ∈ ps, Parallel k d (fun t t' => t' = t.rename f) (g p.2) (g' (p.2.rename f))) :
    Parallel k d (fun qs qs' => qs' = renameRow f qs) (mapRow g ps) (mapRow g' (renameRow f ps)) := by
  simp only [renameRow_eq_map]
  refine .mapM (List.forall₂_map_right_iff.2 (List.forall₂_same.2 fun p hp => ?_))
  exact (h p hp).bind fun t t' ht => .pure (congrArg (Prod.mk p.1) ht)

private theorem mapVariants_parallel {g g' : Ty → SupplyM Ty} {vs : Variants}
    (h : ∀ v ∈ vs, ∀ p ∈ v.2, Parallel k d (fun t t' => t' = t.rename f) (g p.2) (g' (p.2.rename f))) :
    Parallel k d (fun ws ws' => ws' = renameVariants f ws) (mapVariants g vs)
      (mapVariants g' (renameVariants f vs)) := by
  simp only [renameVariants_eq_map]
  refine .mapM (List.forall₂_map_right_iff.2 (List.forall₂_same.2 fun v hv => ?_))
  exact (mapRow_parallel (h v hv)).bind fun row row' hrow => .pure (congrArg (Prod.mk v.1) hrow)

/-- How `replace` puts variables in commutes with renaming. -/
private def Replaces (k d : Nat) (f : Name → Name) (replace : Name → Ty → Ty → SupplyM Ty) : Prop :=
  ∀ x r t, Parallel k d (fun u u' => u' = u.rename f) (replace x r t) (replace (f x) (r.rename f) (t.rename f))

variable (hf : Shifts k d f)
include hf

section Rebind

variable {replace : Name → Ty → Ty → SupplyM Ty} (hr : Replaces k d f replace) {captured captured' : List Name}
  (hc : ∀ b, f b ∈ captured' ↔ b ∈ captured)
include hr hc

private theorem rebind_parallel (b : Name) (body : Ty) :
    Parallel k d (fun q q' => q' = (f q.1, q.2.rename f)) (rebind replace captured b body)
      (rebind replace captured' (f b) (body.rename f)) := by
  unfold rebind
  refine .ite (hc b) ?_ (.pure rfl)
  refine (Parallel.draw hf (hf.stem_eq b)).bind fun x x' hx => ?_
  subst hx
  refine (hr b (.var x) body).bind fun t t' ht => .pure ?_
  rw [ht]

private theorem rebindAll_parallel (bs : List Name) (body : Ty) :
    Parallel k d (fun q q' => q' = (q.1.map f, q.2.rename f)) (rebindAll replace captured bs body)
      (rebindAll replace captured' (bs.map f) (body.rename f)) := by
  induction bs generalizing body with
  | nil => exact .pure rfl
  | cons b bs ih =>
    refine (rebind_parallel hf hr hc b body).bind fun q q' hq => ?_
    subst hq
    refine (ih q.2).bind fun p p' hp => .pure ?_
    rw [hp, List.map_cons]

end Rebind

private theorem substWithin_parallel (n : Nat) : Replaces k d f (substWithin n) := by
  have hinj := hf.injective
  induction n with
  | zero => exact fun x r t => .pure rfl
  | succ n ih =>
    intro x r t
    have hcaptured : ∀ b, f b ∈ (r.rename f).freeNames ↔ b ∈ r.freeNames := fun b => mem_freeNames_rename hinj
    cases t with
    | prim p => exact .pure rfl
    | container kind e =>
      exact (ih x r e).bind fun u u' hu => .pure (congrArg (Ty.container kind) hu)
    | func ps result =>
      refine (mapRow_parallel fun p _ => ih x r p.2).bind fun qs qs' hqs => ?_
      refine (ih x r result).bind fun u u' hu => .pure ?_
      rw [hqs, hu, rename]
    | object ps =>
      exact (mapRow_parallel fun p _ => ih x r p.2).bind fun qs qs' hqs => .pure (congrArg Ty.object hqs)
    | union vs =>
      refine (mapVariants_parallel fun v _ p _ => ih x r p.2).bind fun ws ws' hws => .pure ?_
      exact congrArg Ty.union hws
    | mu b body =>
      refine .ite (by rw [← mentions_rename hinj x (.mu b body)]; rfl) ?_ (.pure rfl)
      refine (rebind_parallel hf ih hcaptured b body).bind fun q q' hq => ?_
      subst hq
      exact (ih x r q.2).bind fun u u' hu => .pure (congrArg (Ty.mu (f q.1)) hu)
    | generic bs body =>
      refine .ite (by rw [← mentions_rename hinj x (.generic bs body)]; rfl) ?_ (.pure rfl)
      refine (rebindAll_parallel hf ih hcaptured bs body).bind fun q q' hq => ?_
      subst hq
      exact (ih x r q.2).bind fun u u' hu => .pure (congrArg (Ty.generic (q.1.map f)) hu)
    | var y =>
      refine .pure ?_
      by_cases h : y = x
      · rw [if_pos h, if_pos (congrArg f h)]
      · rw [if_neg h, if_neg fun e => h (hinj e), rename]

theorem subst_parallel (x : Name) (r t : Ty) :
    Parallel k d (fun u u' => u' = u.rename f) (subst x r t) (subst (f x) (r.rename f) (t.rename f)) := by
  rw [subst, subst, height_rename]
  exact substWithin_parallel hf t.height x r t

theorem substAll_parallel (qs : List (Name × Ty)) (t : Ty) :
    Parallel k d (fun u u' => u' = u.rename f) (substAll qs t)
      (substAll (qs.map fun q => (f q.1, q.2.rename f)) (t.rename f)) := by
  induction qs generalizing t with
  | nil => exact .pure rfl
  | cons q qs ih =>
    refine (subst_parallel hf q.1 q.2 t).bind fun u u' hu => ?_
    subst hu
    exact ih u

private theorem mentionsLater_rename (ns : List Name) (ts : List Ty) :
    mentionsLater (ns.map f) (ts.map (rename f)) = mentionsLater ns ts := by
  induction ns generalizing ts with
  | nil => cases ts <;> rfl
  | cons n ns ih =>
    cases ts with
    | nil => rfl
    | cons t ts =>
      simp only [List.map_cons, mentionsLater, ih, List.any_map, Function.comp_def, mentions_rename hf.injective]

theorem instantiate_parallel (body : Ty) (ns : List Name) (args : List Ty) :
    Parallel k d (fun u u' => u' = u.rename f) (body.instantiate ns args)
      ((body.rename f).instantiate (ns.map f) (args.map (rename f))) := by
  have hzip : ∀ ms : List Name, (ms.zip args).map (fun q => (f q.1, q.2.rename f)) =
      (ms.map f).zip (args.map (rename f)) := fun ms => List.zip_map.symm
  unfold instantiate
  refine .ite (by rw [mentionsLater_rename hf]) ?_ ?_
  · have hreplaces : Replaces k d f subst := fun x r t => subst_parallel hf x r t
    refine (rebindAll_parallel hf hreplaces (fun b => List.mem_map_of_injective hf.injective) ns body).bind
      fun q q' hq => ?_
    subst hq
    dsimp only
    rw [← hzip]
    exact substAll_parallel hf _ q.2
  · rw [← hzip]
    exact substAll_parallel hf _ body

/-! ### Unrolling -/

private theorem unrollOnce_parallel (t : Ty) :
    Parallel k d (fun u u' => u' = u.rename f) t.unrollOnce (t.rename f).unrollOnce := by
  cases t with
  | mu n b => exact subst_parallel hf n (.mu n b) b
  | _ => exact .pure rfl

theorem unroll_parallel (t : Ty) :
    Parallel k d (fun o o' => o' = o.map (rename f)) t.unroll (t.rename f).unroll := by
  have hwithin : ∀ n u, Parallel k d (fun o o' => o' = o.map (rename f)) (unrollWithin n u)
      (unrollWithin n (u.rename f)) := by
    intro n
    induction n with
    | zero =>
      intro u
      refine .pure ?_
      rw [isMu_rename]
      cases u.isMu <;> rfl
    | succ n ih =>
      intro u
      unfold unrollWithin
      refine .ite (by rw [isMu_rename]) ?_ (.pure rfl)
      refine (unrollOnce_parallel hf u).bind fun v v' hv => ?_
      subst hv
      exact ih v
  unfold unroll
  rw [muNames_rename, List.length_map]
  exact hwithin _ t

/-! ### Comparisons -/

theorem unrolled_alongside (t : Ty) :
    Alongside k d (Halt.Renamed f) (fun u u' => u' = u.rename f) t.unrolled (t.rename f).unrolled := by
  refine (Alongside.lift (unroll_parallel hf t)).bind fun o o' ho => ?_
  subst ho
  cases o with
  | none => exact .throw rfl
  | some u => exact .pure rfl

omit hf in
/-- The assumption about renamed types. -/
def Assumption.rename (f : Name → Name) (h : Assumption) : Assumption :=
  ⟨h.fit, h.expected.rename f, h.actual.rename f⟩

omit hf in
/-- The same entries are offered when the two lists are changed in their own ways. -/
theorem allOffered_alongside {τ : Type} {E : Halt → Halt → Prop} {κ ρ : τ → τ} {g g' : τ → τ → CompareM Bool}
    (h : ∀ a b, Alongside k d E (fun b b' => b' = b) (g a b) (g' (κ a) (ρ b))) (ps qs : List (Name × τ)) :
    Alongside k d E (fun b b' => b' = b) (allOffered g ps qs)
      (allOffered g' (ps.map fun p => (p.1, κ p.2)) (qs.map fun q => (q.1, ρ q.2))) := by
  refine .allM fun p _ => ?_
  dsimp only
  rw [lookup_map_snd]
  cases qs.lookup p.1 with
  | none => exact .pure rfl
  | some q => exact h p.2 q

private theorem fitsVar_alongside (bs : Binders) (n m : Name) :
    Alongside k d (Halt.Renamed f) (fun b b' => b' = b) (fitsVar bs n m) (fitsVar (bs.rename f) (f n) (f m)) := by
  unfold fitsVar
  rw [Binders.left?_rename hf.injective, Binders.right?_rename hf.injective]
  split
  · exact .pure rfl
  · exact .throw rfl

private theorem shapesFit_alongside {g g' : Binders → Fit → Ty → Ty → CompareM Bool}
    (h : ∀ bs fit e a, Alongside k d (Halt.Renamed f) (fun b b' => b' = b) (g bs fit e a)
      (g' (bs.rename f) fit (e.rename f) (a.rename f))) (bs : Binders) (fit : Fit) (e a : Ty) :
    Alongside k d (Halt.Renamed f) (fun b b' => b' = b) (shapesFit g bs fit e a)
      (shapesFit g' (bs.rename f) fit (e.rename f) (a.rename f)) := by
  have hno : Alongside k d (Halt.Renamed f) (fun b b' => b' = b) (return false : CompareM Bool) (return false) :=
    .pure rfl
  cases e <;> cases a
  case prim.prim p q => exact .pure rfl
  case container.container l t m u => exact .ite Iff.rfl (h bs fit t u) hno
  case func.func ps r qs s =>
    have hzip : (renameRow f ps).zip (renameRow f qs) =
        (ps.zip qs).map (Prod.map (fun p => (p.1, p.2.rename f)) fun p => (p.1, p.2.rename f)) := by
      rw [renameRow_eq_map, renameRow_eq_map, List.zip_map]
    refine .ite (by rw [length_renameRow, length_renameRow]) ?_ hno
    rw [hzip]
    have hresult : ∀ b b' : Bool, b' = b → Alongside k d (Halt.Renamed f) (fun b b' => b' = b)
        (if b then g bs fit r s else return false)
        (if b' then g' (bs.rename f) fit (r.rename f) (s.rename f) else return false) := by
      rintro b b' rfl
      exact .ite Iff.rfl (h bs fit r s) hno
    cases fit with
    | exact => exact (Alongside.allM fun p _ => h bs .exact p.1.2 p.2.2).bind hresult
    | wide =>
      dsimp only
      rw [← Binders.rename_swap]
      exact (Alongside.allM fun p _ => h bs.swap .wide p.2.2 p.1.2).bind hresult
  case object.object ps qs =>
    refine .ite (by rw [length_renameRow, length_renameRow]) ?_ hno
    rw [renameRow_eq_map, renameRow_eq_map]
    exact allOffered_alongside (fun t u => h bs fit t u) ps qs
  case union.union vs ws =>
    refine .ite (by rw [length_renameVariants, length_renameVariants]) ?_ hno
    rw [renameVariants_eq_map, renameVariants_eq_map]
    refine allOffered_alongside (fun ps qs => ?_) vs ws
    refine .ite (by rw [length_renameRow, length_renameRow]) ?_ hno
    rw [renameRow_eq_map, renameRow_eq_map]
    exact allOffered_alongside (fun t u => h bs .exact t u) ps qs
  case generic.generic ns t ms u =>
    refine .ite (by rw [List.length_map, List.length_map]) ?_ hno
    rw [← Binders.rename_enter]
    exact h (bs.enter ns ms) fit t u
  case var.var n m => exact fitsVar_alongside hf bs n m
  all_goals exact hno

theorem fitsUnder_alongside (fuel : Nat) (assumed : List Assumption) (bs : Binders) (fit : Fit) (e a : Ty) :
    Alongside k d (Halt.Renamed f) (fun b b' => b' = b) (fitsUnder fuel assumed bs fit e a)
      (fitsUnder fuel (assumed.map (Assumption.rename f)) (bs.rename f) fit (e.rename f) (a.rename f)) := by
  induction fuel generalizing assumed bs fit e a with
  | zero => exact .throw rfl
  | succ fuel ih =>
    have hcovers : ∀ h : Assumption, (h.rename f).covers fit (e.rename f) (a.rename f) = h.covers fit e a := by
      intro h
      simp only [Assumption.covers, Assumption.rename, alphaEquiv_rename hf.injective]
      rfl
    unfold fitsUnder
    refine .ite (by rw [rename_eq_prim_iff, rename_eq_prim_iff]) (.pure rfl) ?_
    refine .ite (by rw [isMu_rename, isMu_rename]) ?_ (shapesFit_alongside hf (ih assumed) bs fit e a)
    refine .ite (by simp only [List.any_map, Function.comp_def, hcovers]) (.pure rfl) ?_
    refine (unrolled_alongside hf e).bind fun e' e'' he => (unrolled_alongside hf a).bind fun a' a'' ha => ?_
    subst he ha
    exact ih (⟨fit, e, a⟩ :: assumed) bs fit e' a'

theorem fits_alongside (fuel : Nat) (scope : List Name) (fit : Fit) (e a : Ty) :
    Alongside k d (Halt.Renamed f) (fun b b' => b' = b) (fits fuel scope fit e a)
      (fits fuel (scope.map f) fit (e.rename f) (a.rename f)) := by
  have h := fitsUnder_alongside hf fuel [] (.ofScope scope) fit e a
  rwa [Binders.rename_ofScope] at h

end Ty

end MuTypes
