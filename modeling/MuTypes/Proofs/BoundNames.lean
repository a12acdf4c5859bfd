import MuTypes.Proofs.Cycles
import MuTypes.Proofs.InOrder

/-!
# Comparing types that are equal up to bound names

Types that are equal up to bound names agree with the same types (`Comparison.agree_iff_of_alphaEquiv`).  So the
comparison that asks for the pairs cannot tell them apart, and `fits` can only where it is wrong: the answers for
such types are the same when both or neither are justified (`fits_eq_iff_of_alphaEquiv`).

They do differ (`fits_ne_of_alphaEquiv`).  A binder that has the name of a free variable of its recursive type gets a
new name with every unrolling, and one that has another name keeps it.  Cycles are recognised by the names of free
variables, so a cycle that should not be closed is closed only where the binder keeps its name.
-/

namespace MuTypes.Ty

open NameSupply
open Nameless.Comparison (Embeds)

/-! ### Agreement -/

namespace Comparison

variable {bs : Binders} {fit : Fit} {e e' a a' : Ty} {s s' : NameSupply}

/-- With the same binders, comparisons of types that are equal up to bound names embed in each other. -/
private theorem embeds_of_alike (h : Ready ⟨bs, fit, e, a⟩ s) (h' : Ready ⟨bs, fit, e', a'⟩ s')
    (he : Nameless.Alike e.bare e'.bare) (ha : Nameless.Alike a.bare a'.bare) :
    Embeds (located ⟨bs, fit, e, a⟩) (located ⟨bs, fit, e', a'⟩) := by
  have hsame : ∀ {t t' : Ty} {ctx : List Name}, Nameless.Alike t.bare t'.bare →
      Nameless.Alike ((t.located ctx).relabel id) (t'.located ctx) := by
    intro t t' ctx ht
    have hid : (t.located ctx).relabel id = t.located ctx := Nameless.graft_id _
    rw [hid]
    exact ht.relabel (level ctx)
  exact ⟨id, id, rfl, hsame he, hsame ha, fun _ _ _ => rfl, h.sound, h'.sound.expected, h'.sound.actual⟩

theorem agree_iff_of_alphaEquiv (h : Ready ⟨bs, fit, e, a⟩ s) (h' : Ready ⟨bs, fit, e', a'⟩ s')
    (he : e.alphaEquiv e' = true) (ha : a.alphaEquiv a' = true) (k : Nat) :
    Agree k ⟨bs, fit, e, a⟩ ↔ Agree k ⟨bs, fit, e', a'⟩ := by
  have hle : Nameless.Alike e.bare e'.bare := alphaEquiv_iff.1 he
  have hla : Nameless.Alike a.bare a'.bare := alphaEquiv_iff.1 ha
  constructor
  · intro hk
    exact hk.of_embeds (embeds_of_alike h h' hle hla)
  · intro hk
    have hle' := hle.symm h.expected_wellFormed.sound.wellFormed h'.expected_wellFormed.sound.wellFormed
    have hla' := hla.symm h.actual_wellFormed.sound.wellFormed h'.actual_wellFormed.sound.wellFormed
    exact hk.of_embeds (embeds_of_alike h' h hle' hla')

end Comparison

/-! ### Answers -/

section Answers

variable {fuel : Nat} {scope : List Name} {fit : Fit} {e a : Ty} {s : NameSupply} {b : Bool}

/-- The answer is no, or yes also when cycles are closed only at comparisons that hold. -/
def Justified (fuel : Nat) (scope : List Name) (fit : Fit) (expected actual : Ty) (s : NameSupply) (b : Bool) : Prop :=
  b = true → ∃ answer : Comparison → Bool, (∀ c, answer c = true → c.Holds) ∧
    ((fitsTrusting answer fuel scope fit expected actual).run.run s).1 = .ok true

/-- The justified answers are the right ones. -/
theorem justified_iff (hc : Comparison.Ready ⟨.ofScope scope, fit, e, a⟩ s)
    (hb : ((fits fuel scope fit e a).run.run s).1 = .ok b) :
    Justified fuel scope fit e a s b ↔ (b = true ↔ ∀ k, Comparison.Agree k ⟨.ofScope scope, fit, e, a⟩) := by
  rw [fits_eq_closing] at hb
  constructor
  · intro hj
    constructor
    · intro hbt
      -- cycles may be closed at comparisons that hold, so this yes is right
      obtain ⟨answer, hholds, htrue⟩ := hj hbt
      exact (closing_true kept_true (soundRule_covered hholds) hc True.intro).2 true htrue rfl
    · intro hall
      by_contra hne
      obtain ⟨k, hk⟩ := (closing_false covered_true_ne_false hc).2 b hb (Bool.of_not_eq_true hne)
      exact hk (hall k)
  · intro hright hbt
    classical
    -- when the types agree, then so do all parts of them, and closing cycles where comparisons hold changes nothing
    let answer : Comparison → Bool := fun c => decide c.Holds
    have hanswer : ∀ c, answer c = true ↔ c.Holds := fun c => decide_eq_true_iff
    have hfollows : Follows s (closing (covered fun _ => true) fuel [] (.ofScope scope) fit e a)
        (fitsTrusting answer fuel scope fit e a) := closing_follows hanswer hc (hright.1 hbt)
    have hrun := hfollows _ (Prod.ext (hbt ▸ hb) rfl)
    exact ⟨answer, fun c => (hanswer c).1, congrArg Prod.fst hrun⟩

/-- The comparison that asks for the pairs is always right. -/
theorem fitsPaired_right (hc : Comparison.Ready ⟨.ofScope scope, fit, e, a⟩ s)
    (hb : ((fitsPaired fuel scope fit e a).run.run s).1 = .ok b) :
    b = true ↔ ∀ k, Comparison.Agree k ⟨.ofScope scope, fit, e, a⟩ := by
  constructor
  · intro hbt
    exact (closing_true kept_true soundRule_paired hc True.intro).2 b hb hbt
  · intro hall
    by_contra hne
    obtain ⟨k, hk⟩ := (closing_false paired_ne_false hc).2 b hb (Bool.of_not_eq_true hne)
    exact hk (hall k)

/-- For types that are equal up to bound names the answers of `fits` are the same when both or neither are justified,
and the comparison that asks for the pairs always gives the same answer. -/
theorem fits_eq_iff_of_alphaEquiv {fuel' : Nat} {e' a' : Ty} {s' : NameSupply} {b' : Bool}
    (he : e.InOrder scope s) (he' : e'.InOrder scope s') (ha : a.InOrder scope s) (ha' : a'.InOrder scope s')
    (hee : e.alphaEquiv e' = true) (haa : a.alphaEquiv a' = true)
    (hb : ((fits fuel scope fit e a).run.run s).1 = .ok b)
    (hb' : ((fits fuel' scope fit e' a').run.run s').1 = .ok b') :
    (b = b' ↔ (Justified fuel scope fit e a s b ↔ Justified fuel' scope fit e' a' s' b')) ∧
    ∀ n n' p p', ((fitsPaired n scope fit e a).run.run s).1 = .ok p →
      ((fitsPaired n' scope fit e' a').run.run s').1 = .ok p' → p = p' := by
  have hc := he.ready ha fit
  have hc' := he'.ready ha' fit
  have htruth : (∀ k, Comparison.Agree k ⟨.ofScope scope, fit, e, a⟩) ↔
      ∀ k, Comparison.Agree k ⟨.ofScope scope, fit, e', a'⟩ :=
    forall_congr' fun k => Comparison.agree_iff_of_alphaEquiv hc hc' hee haa k
  constructor
  · rw [justified_iff hc hb, justified_iff hc' hb', htruth]
    by_cases hall : ∀ k, Comparison.Agree k ⟨.ofScope scope, fit, e', a'⟩
    · cases b <;> cases b' <;> simp [hall]
    · cases b <;> cases b' <;> simp [hall]
  · intro n n' p p' hp hp'
    have hiff : p = true ↔ p' = true := by
      rw [fitsPaired_right hc hp, fitsPaired_right hc' hp', htruth]
    exact Bool.eq_iff_iff.2 hiff

end Answers

/-! ### Where the answers differ -/

/-- `<W>(mu R. { w: W; g: <X>{ y: X; n: R } })`: unrolling keeps the name of the inner binder. -/
def keptBinder : Ty :=
  .generic ["W"] (.mu "R" (.object
    [("w", .var "W"), ("g", .generic ["X"] (.object [("y", .var "X"), ("n", .var "R")]))]))

/-- `<X>(mu R. { w: X; g: <X>{ y: X; n: R } })`: every unrolling gives the inner binder a new name. -/
def clashingBinder : Ty :=
  .generic ["X"] (.mu "R" (.object
    [("w", .var "X"), ("g", .generic ["X"] (.object [("y", .var "X"), ("n", .var "R")]))]))

/-- `<V>{ w: V; g: <Y>(mu A. { y: Y; n: { w: V; g: <Z>A } }) }`: the variable of each property `y` stands for one and
the same binder. -/
def fixedBinder : Ty :=
  .generic ["V"] (.object [("w", .var "V"), ("g", .generic ["Y"] (.mu "A" (.object [("y", .var "Y"),
    ("n", .object [("w", .var "V"), ("g", .generic ["Z"] (.var "A"))])])))])

private theorem fits_kept : ((fits 20 [] .exact keptBinder fixedBinder).run.run {}).1 = .ok true := by
  cbv

private theorem fits_clashing : ((fits 20 [] .exact clashingBinder fixedBinder).run.run {}).1 = .ok false := by
  cbv

/-- Two types that are equal up to bound names do not fit alike. -/
theorem fits_ne_of_alphaEquiv :
    keptBinder.WellFormed ∧ clashingBinder.WellFormed ∧ fixedBinder.WellFormed ∧
    keptBinder.alphaEquiv clashingBinder = true ∧
    ((fits 20 [] .exact keptBinder fixedBinder).run.run {}).1 = .ok true ∧
    ((fits 20 [] .exact clashingBinder fixedBinder).run.run {}).1 = .ok false :=
  ⟨by decide, by decide, by decide, by cbv, fits_kept, fits_clashing⟩

/-- The types differ only in the names of their binders, so one of the two answers is not justified: the yes. -/
theorem not_justified_keptBinder :
    ¬ Justified 20 [] .exact keptBinder fixedBinder {} true := by
  have hinOrder : ∀ {t : Ty}, t.WellFormed → (∀ x ∈ t.freeNames, x ∈ ([] : List Name)) →
      (∀ x ∈ t.typeNames, '@' ∉ x.toList) → t.InOrder [] {} := by
    intro t hw hf hn
    exact ⟨hw, mentions_mem_of_freeNames hf, aheadOfTy_of_at_sign_not_mem hn {}⟩
  have hkept : keptBinder.InOrder [] {} := hinOrder (by decide) (by decide) (by decide)
  have hclashing : clashingBinder.InOrder [] {} := hinOrder (by decide) (by decide) (by decide)
  have hfixed : fixedBinder.InOrder [] {} := hinOrder (by decide) (by decide) (by decide)
  have hiff := (fits_eq_iff_of_alphaEquiv hkept hclashing hfixed hfixed (by cbv) (by cbv)
    fits_kept fits_clashing).1
  intro hj
  have hno : Justified 20 [] .exact clashingBinder fixedBinder {} false := Bool.noConfusion
  exact Bool.noConfusion (hiff.2 (iff_of_true hj hno))

end MuTypes.Ty
