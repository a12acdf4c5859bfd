import MuTypes.Proofs.Renaming.Fits

/-!
# Comparing types that are renamed on one side

An exact comparison never turns the two sides around.  So it does not matter which numbers the drawn names have on
either side: the types on the two sides can be shifted by different renamings, and the comparison gives the same answer
(`fitsUnder_sides`).  The supply has to be past the names that either renaming changes, and both renamings have to add
the same number to the names that are drawn from then on.
-/

namespace MuTypes

variable {k k' d : Nat} {f g : Name → Name}

theorem shifts_id (k : Nat) : Shifts k 0 id :=
  ⟨fun _ _ _ => rfl, fun _ _ => rfl⟩

/-- Runs that go side by side do so from any later number on. -/
theorem Parallel.later {α α' : Type} {R : α → α' → Prop} {m : SupplyM α} {m' : SupplyM α'}
    (h : Parallel k d R m m') (hm : ∀ n, n ≤ (m.run ⟨n⟩).2.next) (hk : k ≤ k') : Parallel k' d R m m' := by
  intro n hn
  obtain ⟨hR, -, hd⟩ := h n (Nat.le_trans hk hn)
  exact ⟨hR, Nat.le_trans hn (hm n), hd⟩

/-- The pairs with the names of the two sides changed. -/
def Binders.renameSides (f g : Name → Name) (bs : Binders) : Binders :=
  bs.map (Prod.map f g)

namespace Binders

theorem renameSides_enter (bs : Binders) (ns ms : List Name) :
    (bs.enter ns ms).renameSides f g = (bs.renameSides f g).enter (ns.map f) (ms.map g) := by
  simp [renameSides, enter, List.zip_map]

theorem left?_renameSides (hf : Function.Injective f) (bs : Binders) (n : Name) :
    (bs.renameSides f g).left? (f n) = bs.left? n := by
  simp only [left?, renameSides, List.findIdx?_map, Function.comp_def, Prod.map_fst, hf.eq_iff]

theorem right?_renameSides (hg : Function.Injective g) (bs : Binders) (n : Name) :
    (bs.renameSides f g).right? (g n) = bs.right? n := by
  simp only [right?, renameSides, List.findIdx?_map, Function.comp_def, Prod.map_snd, hg.eq_iff]

/-- Names that neither renaming changes still mean the same. -/
theorem renameSides_ofScope {names : List Name} (hf : ∀ n ∈ names, f n = n) (hg : ∀ n ∈ names, g n = n) :
    (ofScope names).renameSides f g = ofScope names := by
  have hnames : ∀ h : Name → Name, (∀ n ∈ names, h n = n) → names.map h = names := fun h hh =>
    (List.map_congr_left (g := id) hh).trans (List.map_id names)
  rw [ofScope, renameSides_enter, hnames f hf, hnames g hg]
  rfl

end Binders

namespace Ty

/-- No renaming relates the reasons of comparisons that halt. -/
private def AnyHalt : Halt → Halt → Prop :=
  fun _ _ => True

/-- Unrolling never sets the supply back. -/
theorem le_unroll (t : Ty) (n : Nat) : n ≤ (t.unroll.run ⟨n⟩).2.next :=
  (unroll_parallel (shifts_id n) t n (Nat.le_refl n)).2.1

/-- Nor does a comparison. -/
theorem le_fits (fuel : Nat) (names : List Name) (fit : Fit) (e a : Ty) (s : NameSupply) :
    s ≤ ((fits fuel names fit e a).run.run s).2 :=
  (fits_alongside (shifts_id s.next) fuel names fit e a s.next (Nat.le_refl s.next)).2.1

section Sides

variable {k₁ k₂ : Nat} (hf : Shifts k₁ d f) (hg : Shifts k₂ d g)
include hf hg

private theorem fitsVar_sides (bs : Binders) (n m : Name) :
    Alongside k d AnyHalt (fun b b' => b' = b) (fitsVar bs n m) (fitsVar (bs.renameSides f g) (f n) (g m)) := by
  unfold fitsVar
  rw [Binders.left?_renameSides hf.injective, Binders.right?_renameSides hg.injective]
  split
  · exact .pure rfl
  · exact .throw trivial

private theorem shapesFit_sides {h h' : Binders → Fit → Ty → Ty → CompareM Bool}
    (hparts : ∀ bs e a, Alongside k d AnyHalt (fun b b' => b' = b) (h bs .exact e a)
      (h' (bs.renameSides f g) .exact (e.rename f) (a.rename g))) (bs : Binders) (e a : Ty) :
    Alongside k d AnyHalt (fun b b' => b' = b) (shapesFit h bs .exact e a)
      (shapesFit h' (bs.renameSides f g) .exact (e.rename f) (a.rename g)) := by
  have hno : Alongside k d AnyHalt (fun b b' => b' = b) (return false : CompareM Bool) (return false) := .pure rfl
  cases e <;> cases a
  case prim.prim p q => exact .pure rfl
  case container.container l t m u => exact .ite Iff.rfl (hparts bs t u) hno
  case func.func ps r qs s =>
    have hzip : (renameRow f ps).zip (renameRow g qs) =
        (ps.zip qs).map (Prod.map (fun p => (p.1, p.2.rename f)) fun p => (p.1, p.2.rename g)) := by
      rw [renameRow_eq_map, renameRow_eq_map, List.zip_map]
    refine .ite (by rw [length_renameRow, length_renameRow]) ?_ hno
    rw [hzip]
    refine (Alongside.allM fun p _ => hparts bs p.1.2 p.2.2).bind ?_
    rintro b b' rfl
    exact .ite Iff.rfl (hparts bs r s) hno
  case object.object ps qs =>
    refine .ite (by rw [length_renameRow, length_renameRow]) ?_ hno
    rw [renameRow_eq_map, renameRow_eq_map]
    exact allOffered_alongside (fun t u => hparts bs t u) ps qs
  case union.union vs ws =>
    refine .ite (by rw [length_renameVariants, length_renameVariants]) ?_ hno
    rw [renameVariants_eq_map, renameVariants_eq_map]
    refine allOffered_alongside (fun ps qs => ?_) vs ws
    refine .ite (by rw [length_renameRow, length_renameRow]) ?_ hno
    rw [renameRow_eq_map, renameRow_eq_map]
    exact allOffered_alongside (fun t u => hparts bs t u) ps qs
  case generic.generic ns t ms u =>
    refine .ite (by rw [List.length_map, List.length_map]) ?_ hno
    rw [← Binders.renameSides_enter]
    exact hparts (bs.enter ns ms) t u
  case var.var n m => exact fitsVar_sides hf hg bs n m
  all_goals exact hno

omit hf hg in
/-- The assumption with the types on the two sides renamed. -/
def Assumption.renameSides (f g : Name → Name) (h : Assumption) : Assumption :=
  ⟨h.fit, h.expected.rename f, h.actual.rename g⟩

omit hg in
private theorem unrolled_sides (hk₁ : k₁ ≤ k) (t : Ty) :
    Alongside k d AnyHalt (fun u u' => u' = u.rename f) t.unrolled (t.rename f).unrolled := by
  refine (Alongside.lift ((unroll_parallel hf t).later (le_unroll t) hk₁)).bind fun o o' ho => ?_
  subst ho
  cases o with
  | none => exact .throw trivial
  | some u => exact .pure rfl

/-- An exact comparison gives the same answer when the types on the two sides are renamed in their own ways. -/
theorem fitsUnder_sides (hk₁ : k₁ ≤ k) (hk₂ : k₂ ≤ k) (fuel : Nat) (assumed : List Assumption) (bs : Binders)
    (e a : Ty) :
    Alongside k d AnyHalt (fun b b' => b' = b) (fitsUnder fuel assumed bs .exact e a)
      (fitsUnder fuel (assumed.map (Assumption.renameSides f g)) (bs.renameSides f g) .exact (e.rename f)
        (a.rename g)) := by
  induction fuel generalizing assumed bs e a with
  | zero => exact .throw trivial
  | succ fuel ih =>
    have hcovers : ∀ h : Assumption, (h.renameSides f g).covers .exact (e.rename f) (a.rename g) =
        h.covers .exact e a := by
      intro h
      simp only [Assumption.covers, Assumption.renameSides, alphaEquiv_rename hf.injective,
        alphaEquiv_rename hg.injective]
      rfl
    unfold fitsUnder
    refine .ite (by rw [rename_eq_prim_iff, rename_eq_prim_iff]) (.pure rfl) ?_
    refine .ite (by rw [isMu_rename, isMu_rename]) ?_ (shapesFit_sides hf hg (ih assumed) bs e a)
    refine .ite (by simp only [List.any_map, Function.comp_def, hcovers]) (.pure rfl) ?_
    refine (unrolled_sides hf hk₁ e).bind fun e' e'' he => (unrolled_sides hg hk₂ a).bind fun a' a'' ha => ?_
    subst he ha
    exact ih (⟨.exact, e, a⟩ :: assumed) bs e' a'

/-- In a scope that neither renaming changes. -/
theorem fits_sides {names : List Name} (hfn : ∀ n ∈ names, f n = n) (hgn : ∀ n ∈ names, g n = n) (hk₁ : k₁ ≤ k)
    (hk₂ : k₂ ≤ k) {fuel : Nat} {e a : Ty} {b : Bool} :
    ((fits fuel names .exact (e.rename f) (a.rename g)).run.run ⟨k + d⟩).1 = .ok b ↔
      ((fits fuel names .exact e a).run.run ⟨k⟩).1 = .ok b := by
  have hrun := (fitsUnder_sides hf hg hk₁ hk₂ fuel [] (.ofScope names) e a k (Nat.le_refl k)).1
  rw [Binders.renameSides_ofScope hfn hgn] at hrun
  exact hrun.eq_ok_iff

end Sides

end Ty

end MuTypes
