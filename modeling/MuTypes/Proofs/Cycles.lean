import Mathlib
import MuTypes.Proofs.Nameless.Embedding
import MuTypes.Proofs.Plain

/-!
# Closing cycles

`fits` closes a cycle when it meets a comparison that it is in the middle of, up to bound names.  `Ty.closing` is the
same walk with the rule for closing as a parameter.  A rule is sound when it closes only comparisons that hold, or
that are embedded in one that was entered (`closing_true`); the answer no is always right (`closing_false`).

The rule of `fits` looks at the types only.  The names of type variables may by then stand for other binders than
when the comparison was entered, and then the pairing of the two types is not what was assumed
(`fits_accepts_unpaired`).  The rule that also asks for the pairs, `Ty.paired`, is sound (`soundRule_paired`).
-/

namespace MuTypes.Ty

open NameSupply
open Nameless.Comparison (Embeds)

/-- The comparison walk under entered comparisons, innermost first, with a rule that may answer for a comparison that
it meets. -/
def closing (rule : List Comparison → Comparison → Option Bool) :
    Nat → List Comparison → Binders → Fit → Ty → Ty → CompareM Bool
  | 0, _, _, _, _, _ => throw .unfinished
  | fuel + 1, entered, bs, fit, expected, actual =>
    if expected = .undefined ∨ actual = .undefined then
      return true
    else if expected.isMu || actual.isMu then
      match rule entered ⟨bs, fit, expected, actual⟩ with
      | some answer => return answer
      | none => do
        let expected' ← expected.unrolled
        let actual' ← actual.unrolled
        closing rule fuel (⟨bs, fit, expected, actual⟩ :: entered) bs fit expected' actual'
    else
      shapesFit (closing rule fuel entered) bs fit expected actual

/-- The comparison as an assumption, which does not record the binders. -/
def Comparison.assumption (c : Comparison) : Assumption :=
  ⟨c.fit, c.expected, c.actual⟩

/-- Is it the comparison at hand, up to bound names and whatever the binders? -/
def Comparison.covers (c d : Comparison) : Bool :=
  c.assumption.covers d.fit d.expected d.actual

/-- Are variables of the two types that are paired by the binders of the comparison also paired by the given ones? -/
def Comparison.keepsPairs (c : Comparison) (bs : Binders) : Bool :=
  c.expected.freeNames.all fun x => c.actual.freeNames.all fun y =>
    !decide (c.binders.left? x = c.binders.right? y) || decide (bs.left? x = bs.right? y)

/-- The rule of `fits`, with an answer that may depend on the comparison. -/
def covered (answer : Comparison → Bool) (entered : List Comparison) (c : Comparison) : Option Bool :=
  if entered.any (·.covers c) then some (answer c) else none

theorem covered_true_ne_false (entered : List Comparison) (c : Comparison) :
    covered (fun _ => true) entered c ≠ some false := by
  unfold covered
  split <;> simp

/-- The rule that also asks for the pairs. -/
def paired (entered : List Comparison) (c : Comparison) : Option Bool :=
  if entered.any fun h => h.covers c && h.keepsPairs c.binders then some true else none

/-- The comparison that closes a cycle only when the pairs are as they were when it was entered. -/
def fitsPaired (fuel : Nat) (scope : List Name) (fit : Fit) (expected actual : Ty) : CompareM Bool :=
  closing paired fuel [] (.ofScope scope) fit expected actual

/-- `fits`, except that a cycle is closed with the given answer for the comparison met. -/
def fitsTrusting (answer : Comparison → Bool) (fuel : Nat) (scope : List Name) (fit : Fit) (expected actual : Ty) :
    CompareM Bool :=
  closing (covered answer) fuel [] (.ofScope scope) fit expected actual

theorem fitsUnder_eq_closing (fuel : Nat) (entered : List Comparison) (bs : Binders) (fit : Fit)
    (expected actual : Ty) :
    fitsUnder fuel (entered.map Comparison.assumption) bs fit expected actual =
      closing (covered fun _ => true) fuel entered bs fit expected actual := by
  induction fuel generalizing entered bs fit expected actual with
  | zero => rfl
  | succ fuel ih =>
    have hany : (entered.map Comparison.assumption).any (·.covers fit expected actual) =
        entered.any (·.covers ⟨bs, fit, expected, actual⟩) := by
      rw [List.any_map]
      rfl
    have hnext : ∀ e a, fitsUnder fuel (⟨fit, expected, actual⟩ :: entered.map Comparison.assumption) bs fit e a =
        closing (covered fun _ => true) fuel (⟨bs, fit, expected, actual⟩ :: entered) bs fit e a :=
      fun e a => ih (⟨bs, fit, expected, actual⟩ :: entered) bs fit e a
    have hparts : fitsUnder fuel (entered.map Comparison.assumption) =
        closing (covered fun _ => true) fuel entered := by
      funext bs fit e a
      exact ih entered bs fit e a
    rw [fitsUnder, closing, hany, hparts, covered]
    simp only [hnext]
    split
    · rfl
    · split
      · split <;> rfl
      · rfl

theorem fits_eq_closing (fuel : Nat) (scope : List Name) (fit : Fit) (expected actual : Ty) :
    fits fuel scope fit expected actual =
      closing (covered fun _ => true) fuel [] (.ofScope scope) fit expected actual :=
  fitsUnder_eq_closing fuel [] (.ofScope scope) fit expected actual

/-! ### Answers -/

section Answers

variable {rule : List Comparison → Comparison → Option Bool} {fuel : Nat} {c : Comparison} {s : NameSupply}

/-- What the rule's answer no says, and the parts and the unrolled types hand on, the answer no of the walk says. -/
private theorem closing_no {N : Comparison → Prop}
    (hrule : ∀ entered c s, c.Ready s → rule entered c = some false → N c)
    (hunrolled : ∀ c d : Comparison, ¬ c.Trivial → c.headed = true → d.located = c.located.unrolled → N d → N c)
    (hparts : ∀ (c : Comparison) s, c.Ready s → ¬ c.Trivial → c.headed = false →
      (none ∈ c.parts ∨ ∃ d, some d ∈ c.parts ∧ N d) → N c)
    (entered : List Comparison) (hc : c.Ready s) :
    s.Ensures (closing rule fuel entered c.binders c.fit c.expected c.actual) fun b _ => b = false → N c := by
  induction fuel generalizing entered c s with
  | zero => exact .throw _
  | succ fuel ih =>
    unfold closing
    split
    · exact .pure nofun
    · rename_i ht
      split
      · rename_i hh
        split
        · rename_i answer hanswer
          exact .pure fun e => hrule entered c s hc (e ▸ hanswer)
        · rw [Comparison.unrollHeads_bind]
          refine hc.unrollHeads_returns.ensures.bind fun d t _ hd => ?_
          obtain ⟨hready, hlocated, -⟩ := hd
          exact (ih (c :: entered) hready).mono fun b _ _ hb e => hunrolled c d ht hh hlocated (hb e)
      · rename_i hh
        refine (Comparison.shapesFit_ensures hc.toScoped (P := fun _ => True) (N := N)
          fun d hd t ht => (ih entered ((hc.partOf (Comparison.partOf_of_mem_parts hd)).mono ht)).mono
            fun b _ _ hb => ⟨fun _ => True.intro, hb⟩).mono fun b _ _ hb e => ?_
        exact hparts c s hc ht (Bool.of_not_eq_true hh) (hb.2 e)

/-- The answer no is right if the rule never gives it. -/
theorem closing_false (hrule : ∀ entered c, rule entered c ≠ some false) (hc : c.Ready s) :
    s.Ensures (closing rule fuel [] c.binders c.fit c.expected c.actual) fun b _ =>
      b = false → ∃ k, ¬ c.Agree k := by
  refine closing_no (N := fun c => ∃ k, ¬ c.Agree k) (fun entered c _ _ h => absurd h (hrule entered c))
    (fun c d ht hh hlocated hd => ?_) (fun c s hc ht hh hp => ?_) [] hc
  · obtain ⟨k, hk⟩ := hd
    exact ⟨k + 1, fun h => hk ((Comparison.agree_iff_unrolled hlocated ht hh).1 h)⟩
  · have hiff := fun k => hc.agree_iff_parts (k := k) ht hh
    rcases hp with hnone | ⟨d, hd, k, hk⟩
    · exact ⟨1, fun h => ((hiff 0).1 h).1 hnone⟩
    · exact ⟨k + 1, fun h => hk ((((hiff k).1 h).2 d hd).anti (Nat.le_succ k))⟩

/-- What holds is never refused. -/
theorem fits_ne_false {scope : List Name} {fit : Fit} {e a : Ty} (hc : Comparison.Ready ⟨.ofScope scope, fit, e, a⟩ s)
    (hall : ∀ k, Comparison.Agree k ⟨.ofScope scope, fit, e, a⟩) (fuel : Nat) :
    ((fits fuel scope fit e a).run.run s).1 ≠ .ok false := by
  intro hno
  rw [fits_eq_closing] at hno
  obtain ⟨k, hk⟩ := (closing_false covered_true_ne_false hc).2 false hno rfl
  exact hk (hall k)

/-- A property of comparisons that the walk keeps. -/
structure Kept (I : Comparison → Prop) : Prop where
  unrolled : ∀ {c d : Comparison}, I c → d.UnrolledFrom c → I d
  part : ∀ {c d : Comparison}, I c → d.PartOf c → I d

theorem kept_true : Kept fun _ => True :=
  ⟨fun _ _ => True.intro, fun _ _ => True.intro⟩

/-- Where the property holds, the rule answers yes only to comparisons that hold, or that are embedded in one that was
entered. -/
def SoundRule (I : Comparison → Prop) (rule : List Comparison → Comparison → Option Bool) : Prop :=
  ∀ entered c s, c.Ready s → I c → (∀ h ∈ entered, h.Ready s ∧ I h) → rule entered c = some true →
    (∀ k, c.Agree k) ∨ ∃ h ∈ entered, Embeds h.located c.located

private theorem closing_ensures_true (entered : List Comparison) (hc : c.Ready s) :
    s.Ensures (closing rule fuel entered c.binders c.fit c.expected c.actual) fun _ _ => True :=
  (closing_no (N := fun _ => True) (fun _ _ _ _ _ => True.intro) (fun _ _ _ _ _ _ => True.intro)
    (fun _ _ _ _ _ _ => True.intro) entered hc).mono fun _ _ _ _ => True.intro

/-- The answer yes is right up to any number of unrollings up to which the entered comparisons hold. -/
private theorem closing_agree {I : Comparison → Prop} (hI : Kept I) (hrule : SoundRule I rule) (k : Nat)
    {entered : List Comparison} (hc : c.Ready s) (hic : I c) (hentered : ∀ h ∈ entered, h.Ready s ∧ I h)
    (hagree : ∀ h ∈ entered, h.Agree k) :
    s.Ensures (closing rule fuel entered c.binders c.fit c.expected c.actual) fun b _ => b = true → c.Agree k := by
  induction k generalizing fuel entered c s with
  | zero => exact (closing_ensures_true entered hc).mono fun _ _ _ _ _ => .start _
  | succ k ihk =>
    induction fuel generalizing entered c s with
    | zero => exact .throw _
    | succ fuel ih =>
      have hbefore : ∀ h ∈ entered, h.Agree k := fun h hh => (hagree h hh).anti (Nat.le_succ k)
      -- the comparison itself holds with one unrolling less, so it may be assumed for the types unrolled
      have hself : s.Ensures (closing rule (fuel + 1) entered c.binders c.fit c.expected c.actual) fun b _ =>
          b = true → c.Agree k := ihk hc hic hentered hbefore
      unfold closing at hself ⊢
      split
      · rename_i ht
        exact .pure fun _ => .trivial (Comparison.Ready.trivial_located.2 ht)
      · rename_i ht
        rw [if_neg ht] at hself
        split
        · rename_i hh
          rw [if_pos hh] at hself
          split
          · rename_i answer hanswer
            refine .pure fun e => ?_
            rcases hrule entered c s hc hic hentered (e ▸ hanswer) with hall | ⟨h, hmem, hembeds⟩
            · exact hall (k + 1)
            · exact (hagree h hmem).of_embeds hembeds
          · rename_i hanswer
            rw [hanswer] at hself
            simp only [Comparison.unrollHeads_bind] at hself ⊢
            have hstep : s.Ensures (c.unrollHeads >>= fun d =>
                closing rule fuel (c :: entered) d.binders d.fit d.expected d.actual)
                fun b _ => b = true → c.Agree k → c.Agree (k + 1) := by
              refine hc.unrollHeads_returns.ensures.bind fun d t hst hd => ?_
              obtain ⟨hd, hlocated, -, hfrom⟩ := hd
              by_cases hck : c.Agree k
              · have hinner : t.Ensures (closing rule fuel (c :: entered) d.binders d.fit d.expected d.actual)
                    fun b _ => b = true → d.Agree k := by
                  refine ihk hd (hI.unrolled hic hfrom) (List.forall_mem_cons.2 ⟨⟨hc.mono hst, hic⟩, ?_⟩)
                    (List.forall_mem_cons.2 ⟨hck, hbefore⟩)
                  exact fun h hm => ⟨(hentered h hm).1.mono hst, (hentered h hm).2⟩
                exact hinner.mono fun b _ _ hb e _ => (Comparison.agree_iff_unrolled hlocated ht hh).2 (hb e)
              · exact (closing_ensures_true (c :: entered) hd).mono fun _ _ _ _ _ h => absurd h hck
            exact (hself.and hstep).mono fun b _ _ hb e => hb.2 e (hb.1 e)
        · rename_i hh
          refine (Comparison.shapesFit_ensures hc.toScoped (P := fun d => d.Agree (k + 1)) (N := fun _ => True)
            fun d hd t ht => ?_).mono fun b _ _ hb e => (hc.agree_iff_parts ht (Bool.of_not_eq_true hh)).2 (hb.1 e)
          have hpart := Comparison.partOf_of_mem_parts hd
          exact (ih ((hc.partOf hpart).mono ht) (hI.part hic hpart)
            (fun h hm => ⟨(hentered h hm).1.mono ht, (hentered h hm).2⟩) hagree).mono
              fun b _ _ hb => ⟨hb, fun _ => True.intro⟩

/-- The answer yes of a walk with a sound rule is right. -/
theorem closing_true {I : Comparison → Prop} (hI : Kept I) (hrule : SoundRule I rule) (hc : c.Ready s) (hic : I c) :
    s.Ensures (closing rule fuel [] c.binders c.fit c.expected c.actual) fun b _ => b = true → ∀ k, c.Agree k := by
  have hk : ∀ k, s.Ensures (closing rule fuel [] c.binders c.fit c.expected c.actual) fun b _ =>
      b = true → c.Agree k := fun k => closing_agree hI hrule k hc hic (by simp) (by simp)
  exact ⟨(hk 0).1, fun b hb e k => (hk k).2 b hb e⟩

end Answers

/-! ### Pairs that are kept -/

private theorem level_eq_of_paired {bs : Binders} {x y : Name} (h : bs.left? x = bs.right? y) :
    level bs.lefts x = level bs.rights y := by
  rw [Binders.left?_eq_place, Binders.right?_eq_place] at h
  rw [level, level, h, Binders.length_lefts, Binders.length_rights]

/-- A type located below some binders is located below others by a change of levels. -/
private theorem relabel_located {old new : List Name} {t : Ty} (h : ∀ x, t.mentions x = true → x ∈ old) :
    (t.located old).relabel (fun l => level new (nameAt old l)) = t.located new := by
  rw [located, Nameless.relabel_relabel]
  refine Nameless.relabel_congr fun x hx => ?_
  simp only [nameAt_level (h x (has_nameless_iff.1 hx).1)]

/-- A comparison that was entered is embedded in one that it covers, if no pair was lost since. -/
theorem Comparison.embeds_of_covers {h c : Comparison} {s : NameSupply} (hh : h.Ready s) (hc : c.Ready s)
    (hcov : h.covers c = true) (hkeep : h.keepsPairs c.binders = true) : Embeds h.located c.located := by
  simp only [covers, assumption, Assumption.covers, Bool.and_eq_true, alphaEquiv_iff] at hcov
  obtain ⟨⟨hfit, he⟩, ha⟩ := hcov
  have hfit : h.fit = c.fit := of_decide_eq_true hfit
  refine ⟨fun l => level c.binders.lefts (nameAt h.binders.lefts l),
    fun l => level c.binders.rights (nameAt h.binders.rights l), hfit.symm, ?_, ?_, fun l hle hla => ?_, hh.sound,
    hc.sound.expected, hc.sound.actual⟩
  · show Nameless.Alike ((h.expected.located h.binders.lefts).relabel _) _
    rw [relabel_located hh.expected]
    exact he.relabel _
  · show Nameless.Alike ((h.actual.located h.binders.rights).relabel _) _
    rw [relabel_located hh.actual]
    exact ha.relabel _
  · obtain ⟨x, hx, hxl⟩ := Nameless.has_relabel hle
    obtain ⟨y, hy, hyl⟩ := Nameless.has_relabel hla
    have hx := (has_nameless_iff.1 hx).1
    have hy := (has_nameless_iff.1 hy).1
    have hold : h.binders.left? x = h.binders.right? y :=
      (level_eq_iff (hh.expected x hx) (hh.actual y hy)).1 (hxl.trans hyl.symm)
    have hnew : c.binders.left? x = c.binders.right? y := by
      have := List.all_eq_true.1 (List.all_eq_true.1 hkeep x (mem_freeNames_iff.2 hx)) y (mem_freeNames_iff.2 hy)
      simpa [hold] using this
    subst hxl
    simp only [nameAt_level (hh.expected x hx)]
    rw [← hyl, nameAt_level (hh.actual y hy)]
    exact level_eq_of_paired hnew

theorem soundRule_paired : SoundRule (fun _ => True) paired := by
  intro entered c s hc _ hentered h
  unfold paired at h
  split at h
  · rename_i hany
    obtain ⟨e, he, hcov⟩ := List.any_eq_true.1 hany
    rw [Bool.and_eq_true] at hcov
    exact .inr ⟨e, he, Comparison.embeds_of_covers (hentered e he).1 hc hcov.1 hcov.2⟩
  · cases h

theorem paired_ne_false (entered : List Comparison) (c : Comparison) : paired entered c ≠ some false := by
  unfold paired
  split <;> simp

/-! ### Closing on trust -/

/-- The comparison holds: however many unrollings are made, the plain comparison says yes. -/
def Comparison.Holds (c : Comparison) : Prop :=
  ∀ s, c.Ready s → ∀ k, ((plain k c.binders c.fit c.expected c.actual).run.run s).1 = .ok true

theorem Comparison.holds_iff {c : Comparison} {s : NameSupply} (hc : c.Ready s) : c.Holds ↔ ∀ k, c.Agree k :=
  ⟨fun h k => (plain_eq_true_iff k hc).1 (h s hc k), fun h _ hs k => (plain_eq_true_iff k hs).2 (h k)⟩

theorem soundRule_covered {answer : Comparison → Bool} (h : ∀ c, answer c = true → c.Holds) :
    SoundRule (fun _ => True) (covered answer) := by
  intro entered c s hc _ _ he
  unfold covered at he
  split at he
  · exact .inl ((Comparison.holds_iff hc).1 (h c (Option.some.inj he)))
  · cases he

/-- The second computation does what the first one does when this says yes. -/
def Follows (s : NameSupply) (m m' : CompareM Bool) : Prop :=
  ∀ t, m.run.run s = (.ok true, t) → m'.run.run s = (.ok true, t)

private theorem Follows.bind {α : Type} {s : NameSupply} {Q : α → NameSupply → Prop} {m : CompareM α}
    {f g : α → CompareM Bool} (hm : s.Returns m Q) (h : ∀ a t, s ≤ t → Q a t → Follows t (f a) (g a)) :
    Follows s (m >>= f) (m >>= g) := by
  obtain ⟨hst, a, ha, hq⟩ := hm
  have hpair : m.run.run s = (.ok a, (m.run.run s).2) := Prod.ext ha rfl
  intro t ht
  rw [run_bind_of_ok hpair] at ht ⊢
  exact h a _ hst hq t ht

private theorem Follows.allM {τ : Type} {s : NameSupply} {f g : τ → CompareM Bool} {l : List τ}
    (hf : ∀ a ∈ l, ∀ t, s ≤ t → t.Ensures (f a) fun _ _ => True)
    (h : ∀ a ∈ l, ∀ t, s ≤ t → Follows t (f a) (g a)) : Follows s (l.allM f) (l.allM g) := by
  induction l generalizing s with
  | nil => exact fun _ ht => ht
  | cons a l ih =>
    intro t ht
    have hmono := (hf a List.mem_cons_self s (le_refl s)).1
    have hfollows := h a List.mem_cons_self s (le_refl s)
    rw [run_allM_cons] at ht ⊢
    rcases hfa : (f a).run.run s with ⟨_ | _ | _, u⟩
    · rw [hfa] at ht
      cases ht
    · rw [hfa] at ht
      cases ht
    · rw [hfa] at ht hmono
      rw [hfollows u hfa]
      exact ih (fun b hb u hu => hf b (List.mem_cons_of_mem a hb) u (le_trans hmono hu))
        (fun b hb u hu => h b (List.mem_cons_of_mem a hb) u (le_trans hmono hu)) t ht

/-- A walk through comparisons that hold goes the same way when it closes cycles only with such comparisons. -/
theorem closing_follows {answer : Comparison → Bool} (hanswer : ∀ c, answer c = true ↔ c.Holds) {fuel : Nat}
    {entered : List Comparison} {c : Comparison} {s : NameSupply} (hc : c.Ready s) (hall : ∀ k, c.Agree k) :
    Follows s (closing (covered fun _ => true) fuel entered c.binders c.fit c.expected c.actual)
      (closing (covered answer) fuel entered c.binders c.fit c.expected c.actual) := by
  induction fuel generalizing entered c s with
  | zero => exact fun _ ht => ht
  | succ fuel ih =>
    unfold closing
    split
    · exact fun _ ht => ht
    · rename_i ht
      split
      · rename_i hh
        by_cases hany : entered.any (·.covers c) = true
        · have htrue : answer c = true := (hanswer c).2 ((Comparison.holds_iff hc).2 hall)
          have hleft : covered (fun _ => true) entered c = some true := if_pos hany
          have hright : covered answer entered c = some true := (if_pos hany).trans (congrArg some htrue)
          rw [hleft, hright]
          exact fun _ ht => ht
        · have hleft : covered (fun _ => true) entered c = none := if_neg hany
          have hright : covered answer entered c = none := if_neg hany
          rw [hleft, hright]
          simp only [Comparison.unrollHeads_bind]
          refine Follows.bind hc.unrollHeads_returns fun d t _ hd => ?_
          obtain ⟨hready, hlocated, -⟩ := hd
          exact ih hready fun k => (Comparison.agree_iff_unrolled hlocated ht hh).1 (hall (k + 1))
      · rename_i hh
        rw [shapesFit_eq_allM _ hc.toScoped, shapesFit_eq_allM _ hc.toScoped]
        have hparts := fun k => ((hc.agree_iff_parts ht (Bool.of_not_eq_true hh)).1 (hall (k + 1)))
        have hready : ∀ d, some d ∈ c.parts → ∀ t, s ≤ t → d.Ready t := fun d hd t ht =>
          (hc.partOf (Comparison.partOf_of_mem_parts hd)).mono ht
        refine Follows.allM (fun o ho t ht => ?_) fun o ho t ht => ?_
        · cases o with
          | none => exact .pure True.intro
          | some d => exact closing_ensures_true entered (hready d ho t ht)
        · cases o with
          | none => exact fun _ ht => ht
          | some d => exact ih (hready d ho t ht) fun k => ((hparts k).2 d ho).anti (Nat.le_succ k)

/-! ### When the answer is right -/

/-- The answer of `fits` is that of the plain comparisons unless it is yes and some cycle was closed at a comparison
that does not hold.  The comparison that asks for the pairs always gives the answer of the plain ones. -/
theorem fits_right_iff {fuel : Nat} {scope : List Name} {fit : Fit} {expected actual : Ty} {s : NameSupply} {b : Bool}
    (he : expected.WellFormed) (ha : actual.WellFormed) (hse : ∀ x, expected.mentions x = true → x ∈ scope)
    (hsa : ∀ x, actual.mentions x = true → x ∈ scope) (hne : s.AheadOfTy expected) (hna : s.AheadOfTy actual)
    (hb : ((fits fuel scope fit expected actual).run.run s).1 = .ok b) :
    ((b = true ↔ ∀ k, ((plain k (.ofScope scope) fit expected actual).run.run s).1 = .ok true) ↔
      (b = true → ∃ answer : Comparison → Bool, (∀ c, answer c = true → c.Holds) ∧
        ((fitsTrusting answer fuel scope fit expected actual).run.run s).1 = .ok true)) ∧
    ∀ fuel' b', ((fitsPaired fuel' scope fit expected actual).run.run s).1 = .ok b' →
      (b' = true ↔ ∀ k, ((plain k (.ofScope scope) fit expected actual).run.run s).1 = .ok true) := by
  have hc : Comparison.Ready ⟨.ofScope scope, fit, expected, actual⟩ s :=
    Comparison.ready_ofScope he ha hse hsa hne hna
  have hplain : (∀ k, ((plain k (.ofScope scope) fit expected actual).run.run s).1 = .ok true) ↔
      ∀ k, Comparison.Agree k ⟨.ofScope scope, fit, expected, actual⟩ :=
    forall_congr' fun k => plain_eq_true_iff k hc
  rw [hplain]
  rw [fits_eq_closing] at hb
  refine ⟨⟨fun h hbt => ?_, fun h => ⟨fun hbt => ?_, fun hall => ?_⟩⟩,
    fun fuel' b' hb' => ⟨fun hbt => ?_, fun hall => ?_⟩⟩
  · classical
    let answer : Comparison → Bool := fun c => decide c.Holds
    have hanswer : ∀ c, answer c = true ↔ c.Holds := fun c => decide_eq_true_iff
    refine ⟨answer, fun c => (hanswer c).1, ?_⟩
    have hfollows : Follows s (closing (covered fun _ => true) fuel [] (.ofScope scope) fit expected actual)
        (fitsTrusting answer fuel scope fit expected actual) := closing_follows hanswer hc (h.1 hbt)
    exact congrArg Prod.fst (hfollows _ (Prod.ext (hbt ▸ hb) rfl))
  · obtain ⟨answer, hholds, htrue⟩ := h hbt
    exact (closing_true kept_true (soundRule_covered hholds) hc True.intro).2 true htrue rfl
  · cases b with
    | true => rfl
    | false =>
      obtain ⟨k, hk⟩ := (closing_false covered_true_ne_false hc).2 false hb rfl
      exact absurd (hall k) hk
  · exact (closing_true kept_true soundRule_paired hc True.intro).2 b' hb' hbt
  · cases b' with
    | true => rfl
    | false =>
      obtain ⟨k, hk⟩ := (closing_false paired_ne_false hc).2 false hb' rfl
      exact absurd (hall k) hk

/-- `mu R. <X>{ y: X; n: R }`: the variable of each property `y` stands for the generic binder just outside. -/
def renewedBinder : Ty :=
  .mu "R" (.generic ["X"] (.object [("y", .var "X"), ("n", .var "R")]))

/-- `<Y>(mu A. { y: Y; n: <Z>A })`: the variable of each property `y` stands for the outermost binder. -/
def sharedBinder : Ty :=
  .generic ["Y"] (.mu "A" (.object [("y", .var "Y"), ("n", .generic ["Z"] (.var "A"))]))

private theorem fits_unpaired : ((fits 10 [] .exact renewedBinder sharedBinder).run.run {}).1 = .ok true := by
  cbv

private theorem plain_unpaired :
    ((plain 5 (.ofScope []) .exact renewedBinder sharedBinder).run.run {}).1 = .ok false := by
  cbv

/-- A cycle is closed where the variables of the two properties `y` are not paired. -/
theorem fits_accepts_unpaired :
    renewedBinder.WellFormed ∧ sharedBinder.WellFormed ∧
    ((fits 10 [] .exact renewedBinder sharedBinder).run.run {}).1 = .ok true ∧
    ((plain 5 (.ofScope []) .exact renewedBinder sharedBinder).run.run {}).1 = .ok false ∧
    ((fitsPaired 10 [] .exact renewedBinder sharedBinder).run.run {}).1 = .ok false :=
  ⟨by decide, by decide, fits_unpaired, plain_unpaired, by cbv⟩

/-- There the answer is wrong, and it rests on a closed cycle that does not hold. -/
theorem fits_right_iff_unpaired :
    ¬ ∃ answer : Comparison → Bool, (∀ c, answer c = true → c.Holds) ∧
      ((fitsTrusting answer 10 [] .exact renewedBinder sharedBinder).run.run {}).1 = .ok true := by
  have hright := (fits_right_iff (s := {}) (by decide) (by decide)
    (mentions_mem_of_freeNames (by decide)) (mentions_mem_of_freeNames (by decide))
    (aheadOfTy_of_at_sign_not_mem (by decide) _) (aheadOfTy_of_at_sign_not_mem (by decide) _) fits_unpaired).1
  intro h
  have hall := (hright.2 fun _ => h).1 rfl 5
  rw [plain_unpaired] at hall
  cases hall

end MuTypes.Ty
