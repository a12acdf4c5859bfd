import Mathlib
import MuTypes.Proofs.Substitution

/-!
# Substitution avoids capture

From a supply that is ahead of everything in sight, `Ty.subst` is substitution of nameless forms, it leaves types alone
in which the variable does not occur, and it introduces no names but drawn ones: `Ty.subst_avoids_capture`.

Where names come from is one argument for all properties of names that draws keep (`NameSupply.KeptByDraws`): an
induction over the height of the type, which renaming a binder does not raise (`Ty.subst_names`).
-/

namespace MuTypes

open NameSupply

/-! ### Types without the variable -/

namespace Ty

theorem mapRow_eq_pure {f : Ty → SupplyM Ty} {ps : Row} (h : ∀ p ∈ ps, f p.2 = pure p.2) : mapRow f ps = pure ps := by
  induction ps with
  | nil => rfl
  | cons p ps ih =>
    obtain ⟨hp, hps⟩ := List.forall_mem_cons.1 h
    rw [mapRow_cons, hp, ih hps]
    rfl

theorem mapVariants_eq_pure {f : Ty → SupplyM Ty} {vs : Variants} (h : ∀ v ∈ vs, ∀ p ∈ v.2, f p.2 = pure p.2) :
    mapVariants f vs = pure vs := by
  induction vs with
  | nil => rfl
  | cons v vs ih =>
    obtain ⟨hv, hvs⟩ := List.forall_mem_cons.1 h
    rw [mapVariants_cons, mapRow_eq_pure hv, ih hvs]
    rfl

/-- A type in which the variable does not occur free stays, and nothing is drawn. -/
theorem subst_of_not_mentions {x : Name} {t : Ty} (r : Ty) (h : ¬ t.mentions x = true) : subst x r t = pure t := by
  induction t with
  | prim p => rfl
  | container k e ih =>
    rw [subst_container, ih h]
    rfl
  | func ps result ihps ihr =>
    rw [mentions_func, not_or] at h
    rw [subst_func, mapRow_eq_pure fun p hp => ihps p hp fun hx => h.1 ⟨p, hp, hx⟩, ihr h.2]
    rfl
  | object ps ih =>
    rw [mentions_object] at h
    rw [subst_object, mapRow_eq_pure fun p hp => ih p hp fun hx => h ⟨p, hp, hx⟩]
    rfl
  | union vs ih =>
    rw [mentions_union] at h
    rw [subst_union, mapVariants_eq_pure fun v hv p hp => ih v hv p hp fun hx => h ⟨v, hv, p, hp, hx⟩]
    rfl
  | mu n b => rw [subst_mu, if_neg h]
  | generic ns b => rw [subst_generic, if_neg h]
  | var y =>
    rw [mentions_var] at h
    rw [subst_var, if_neg h]

end Ty

/-! ### Where names come from -/

namespace NameSupply

/-- A property of names that stays when more is drawn, and that what is drawn from `s₀` on has. -/
structure KeptByDraws (s₀ : NameSupply) (A : NameSupply → Name → Prop) : Prop where
  mono : ∀ {s s' : NameSupply} {y : Name}, s ≤ s' → A s y → A s' y
  drawn : ∀ {s : NameSupply}, s₀ ≤ s → ∀ base, A ⟨s.next + 1⟩ (numbered base s.next)

/-- The name was drawn on the way from the first supply to the second one. -/
def DrawnBetween (s s' : NameSupply) (y : Name) : Prop :=
  ∃ base k, s.next ≤ k ∧ k < s'.next ∧ y = numbered base k

theorem keptByDraws_drawnBetween (ns : List Name) (s : NameSupply) :
    KeptByDraws s fun s' y => y ∈ ns ∨ s.DrawnBetween s' y where
  mono := by
    rintro s₁ s₂ y h₁₂ (hy | ⟨base, k, hk, hk₁, rfl⟩)
    · exact .inl hy
    · exact .inr ⟨base, k, hk, Nat.lt_of_lt_of_le hk₁ h₁₂, rfl⟩
  drawn := fun {s₁} h₁ base => .inr ⟨base, s₁.next, h₁, Nat.lt_succ_self _, rfl⟩

end NameSupply

namespace Ty

variable {s₀ : NameSupply} {A : NameSupply → Name → Prop}

/-- What holds of all changed types, and still does when more is drawn, holds of those of a row. -/
theorem mapRow_all {P : Ty → NameSupply → Prop} {f : Ty → SupplyM Ty} {ps : Row} {s : NameSupply}
    (hf : ∀ p ∈ ps, ∀ s', s ≤ s' → s'.Yields (f p.2) P) (hP : ∀ t s s', s ≤ s' → P t s → P t s') :
    s.Yields (mapRow f ps) fun qs s' => ∀ q ∈ qs, P q.2 s' := by
  induction ps generalizing s with
  | nil => exact .pure (by simp)
  | cons p ps ih =>
    rw [mapRow_cons]
    refine (hf p List.mem_cons_self s (le_refl s)).bind fun t s₁ h₁ ht => ?_
    refine (ih fun q hq s' hs' => hf q (List.mem_cons_of_mem _ hq) s' (le_trans h₁ hs')).bind fun qs s₂ h₂ hqs => ?_
    exact .pure (List.forall_mem_cons.2 ⟨hP _ _ _ h₂ ht, hqs⟩)

theorem mapVariants_all {P : Ty → NameSupply → Prop} {f : Ty → SupplyM Ty} {vs : Variants} {s : NameSupply}
    (hf : ∀ v ∈ vs, ∀ p ∈ v.2, ∀ s', s ≤ s' → s'.Yields (f p.2) P) (hP : ∀ t s s', s ≤ s' → P t s → P t s') :
    s.Yields (mapVariants f vs) fun ws s' => ∀ w ∈ ws, ∀ q ∈ w.2, P q.2 s' := by
  induction vs generalizing s with
  | nil => exact .pure (by simp)
  | cons v vs ih =>
    rw [mapVariants_cons]
    refine (mapRow_all (hf v List.mem_cons_self) hP).bind fun row s₁ h₁ hrow => ?_
    refine (ih fun w hw p hp s' hs' => hf w (List.mem_cons_of_mem _ hw) p hp s' (le_trans h₁ hs')).bind
      fun ws s₂ h₂ hws => ?_
    exact .pure (List.forall_mem_cons.2 ⟨fun q hq => hP _ _ _ h₂ (hrow q hq), hws⟩)

/-- Renaming brings in no names but drawn ones, in types of height up to the bound. -/
private def RenamesNamesWithin (s₀ : NameSupply) (A : NameSupply → Name → Prop) (k : Nat) : Prop :=
  ∀ ⦃b b' : Name⦄ ⦃t : Ty⦄ ⦃s : NameSupply⦄, t.height ≤ k → s₀ ≤ s → A s b' → (∀ y ∈ t.typeNames, A s y) →
    s.Yields (subst b (.var b') t) fun t' s' => ∀ y ∈ t'.typeNames, A s' y

section Rebind

variable {k : Nat} (hA : KeptByDraws s₀ A) (hk : RenamesNamesWithin s₀ A k) (captured : List Name) {body : Ty}
  {s : NameSupply} (hs : s₀ ≤ s) (hh : body.height ≤ k) (hbody : ∀ y ∈ body.typeNames, A s y)

include hA hk hs hh hbody

private theorem rebind_names {b : Name} (hb : A s b) :
    s.Yields (rebind subst captured b body) fun q s' =>
      q.2.height ≤ body.height ∧ A s' q.1 ∧ ∀ y ∈ q.2.typeNames, A s' y := by
  unfold rebind
  split
  · refine Yields.draw (Q := fun b' s₁ => s ≤ s₁ ∧ A s₁ b') ⟨Nat.le_succ _, hA.drawn hs b⟩ |>.bind
      fun b' s₁ _ hdraw => ?_
    obtain ⟨h₁, hb'⟩ := hdraw
    have hrep := hk (b := b) hh (le_trans hs h₁) hb' fun y hy => hA.mono h₁ (hbody y hy)
    refine (hrep.and_always (subst_var_height_le b b' body)).bind fun t s₂ h₂ ht => .pure ?_
    exact ⟨ht.2, hA.mono h₂ hb', ht.1⟩
  · exact .pure ⟨Nat.le_refl _, hb, hbody⟩

private theorem rebindAll_names {bs : List Name} (hbs : ∀ b ∈ bs, A s b) :
    s.Yields (rebindAll subst captured bs body) fun q s' =>
      q.2.height ≤ body.height ∧ (∀ b ∈ q.1, A s' b) ∧ ∀ y ∈ q.2.typeNames, A s' y := by
  induction bs generalizing body s with
  | nil => exact .pure ⟨Nat.le_refl _, by simp, hbody⟩
  | cons b bs ih =>
    obtain ⟨hb, hbs⟩ := List.forall_mem_cons.1 hbs
    refine (rebind_names hA hk captured hs hh hbody hb).bind fun q s₁ h₁ hq => ?_
    refine (ih (le_trans hs h₁) (Nat.le_trans hq.1 hh) hq.2.2 fun c hc => hA.mono h₁ (hbs c hc)).bind
      fun q' s₂ h₂ hq' => .pure ?_
    exact ⟨Nat.le_trans hq'.1 hq.1, List.forall_mem_cons.2 ⟨hA.mono h₂ hq.2.1, hq'.2.1⟩, hq'.2.2⟩

end Rebind

private theorem subst_names_of_le (hA : KeptByDraws s₀ A) (k : Nat) {x : Name} {r t : Ty} {s : NameSupply}
    (hk : t.height ≤ k) (hs : s₀ ≤ s) (hr : ∀ y ∈ r.typeNames, A s y) (ht : ∀ y ∈ t.typeNames, A s y) :
    s.Yields (subst x r t) fun t' s' => ∀ y ∈ t'.typeNames, A s' y := by
  induction k generalizing x r t s with
  | zero => exact absurd t.height_pos (by omega)
  | succ k ih =>
    have hrename : RenamesNamesWithin s₀ A k := fun b b' u s' hu hs' hb' hnames =>
      ih hu hs' (by simpa [typeNames] using hb') hnames
    have hlater : ∀ (t : Ty) (s s' : NameSupply), s ≤ s' → (∀ y ∈ t.typeNames, A s y) → ∀ y ∈ t.typeNames, A s' y :=
      fun t s s' h' h y hy => hA.mono h' (h y hy)
    have hrow : ∀ {ps : Row}, rowHeight ps ≤ k → (∀ p ∈ ps, ∀ y ∈ p.2.typeNames, A s y) →
        ∀ p ∈ ps, ∀ s', s ≤ s' → s'.Yields (subst x r p.2) fun t s'' => ∀ y ∈ t.typeNames, A s'' y :=
      fun hh hps p hp s' h' => ih (Nat.le_trans (height_le_rowHeight hp) hh) (le_trans hs h')
        (fun y hy => hA.mono h' (hr y hy)) fun y hy => hA.mono h' (hps p hp y hy)
    cases t with
    | prim p => exact .pure ht
    | container kind e =>
      simp only [height] at hk
      rw [subst_container]
      exact (ih (t := e) (by omega) hs hr ht).bind fun e' s' _ he => .pure he
    | func ps result =>
      simp only [height] at hk
      rw [subst_func]
      refine (mapRow_all (hrow (by omega) fun p hp y hy => ht y (mem_typeNames_func.2 (.inl ⟨p, hp, hy⟩))) hlater).bind
        fun qs s₁ h₁ hqs => ?_
      refine (ih (by omega) (le_trans hs h₁) (fun y hy => hA.mono h₁ (hr y hy))
        fun y hy => hA.mono h₁ (ht y (mem_typeNames_func.2 (.inr hy)))).bind fun u s₂ h₂ hu => .pure fun y hy => ?_
      rcases mem_typeNames_func.1 hy with ⟨q, hq, hy⟩ | hy
      · exact hA.mono h₂ (hqs q hq y hy)
      · exact hu y hy
    | object ps =>
      simp only [height] at hk
      rw [subst_object]
      refine (mapRow_all (hrow (by omega) fun p hp y hy => ht y (mem_typeNames_object.2 ⟨p, hp, hy⟩)) hlater).bind
        fun qs s₁ _ hqs => .pure fun y hy => ?_
      obtain ⟨q, hq, hy⟩ := mem_typeNames_object.1 hy
      exact hqs q hq y hy
    | union vs =>
      simp only [height] at hk
      rw [subst_union]
      refine (mapVariants_all (fun v hv => hrow (Nat.le_trans (rowHeight_le_variantsHeight hv) (by omega))
        fun p hp y hy => ht y (mem_typeNames_union.2 ⟨v, hv, p, hp, hy⟩)) hlater).bind
        fun ws s₁ _ hws => .pure fun y hy => ?_
      obtain ⟨w, hw, q, hq, hy⟩ := mem_typeNames_union.1 hy
      exact hws w hw q hq y hy
    | mu b body =>
      simp only [height] at hk
      rw [subst_mu]
      split
      · refine (rebind_names hA hrename _ hs (by omega) (fun y hy => ht y (mem_typeNames_mu.2 (.inr hy)))
          (ht b (mem_typeNames_mu.2 (.inl rfl)))).bind fun q s₁ h₁ hq => ?_
        refine (ih (Nat.le_trans hq.1 (by omega)) (le_trans hs h₁) (fun y hy => hA.mono h₁ (hr y hy)) hq.2.2).bind
          fun u s₂ h₂ hu => .pure fun y hy => ?_
        rcases mem_typeNames_mu.1 hy with rfl | hy
        · exact hA.mono h₂ hq.2.1
        · exact hu y hy
      · exact .pure ht
    | generic bs body =>
      simp only [height] at hk
      rw [subst_generic]
      split
      · refine (rebindAll_names hA hrename _ hs (by omega) (fun y hy => ht y (mem_typeNames_generic.2 (.inr hy)))
          fun b hb => ht b (mem_typeNames_generic.2 (.inl hb))).bind fun q s₁ h₁ hq => ?_
        refine (ih (Nat.le_trans hq.1 (by omega)) (le_trans hs h₁) (fun y hy => hA.mono h₁ (hr y hy)) hq.2.2).bind
          fun u s₂ h₂ hu => .pure fun y hy => ?_
        rcases mem_typeNames_generic.1 hy with hy | hy
        · exact hA.mono h₂ (hq.2.1 y hy)
        · exact hu y hy
      · exact .pure ht
    | var y =>
      rw [subst_var]
      split
      · exact .pure hr
      · exact .pure ht

/-- The names of the result are those of the type, those of what is put in, and names drawn on the way. -/
theorem subst_names (x : Name) (r t : Ty) (s : NameSupply) :
    s.Yields (subst x r t) fun t' s' => ∀ y ∈ t'.typeNames, y ∈ t.typeNames ++ r.typeNames ∨ s.DrawnBetween s' y :=
  subst_names_of_le (keptByDraws_drawnBetween _ s) t.height (Nat.le_refl _) (le_refl s)
    (fun _ hy => .inl (List.mem_append_right _ hy)) fun _ hy => .inl (List.mem_append_left _ hy)

/-! ### The law -/

/-- From a supply that is ahead of the variable and of both types, substitution puts the nameless form of the one type
for the free name in the other; a type without the name stays, and draws nothing; and the supply does not go back, is
ahead of the result, and has drawn all names in it that are new. -/
theorem subst_avoids_capture {x : Name} {r t : Ty} {s : NameSupply} (hd : t.DistinctParams) (hx : s.AheadOf x)
    (hr : s.AheadOfTy r) (ht : s.AheadOfTy t) :
    ((subst x r t).run s).1.bare = t.bare.put x r.bare ∧
    (t.mentions x = false → (subst x r t).run s = (t, s)) ∧
    s ≤ ((subst x r t).run s).2 ∧
    ((subst x r t).run s).2.AheadOfTy ((subst x r t).run s).1 ∧
    ∀ y ∈ ((subst x r t).run s).1.typeNames,
      y ∈ t.typeNames ++ r.typeNames ∨ s.DrawnBetween ((subst x r t).run s).2 y := by
  -- the parameters of `r` may repeat
  have hyields : s.Yields (subst x r t) fun t' s' => t'.SpellsIf False (t.bare.put x r.bare) s' :=
    subst_yields_spellsIf hx ⟨rfl, False.elim, hr⟩ ⟨rfl, hd, ht⟩
  obtain ⟨hle, hresult⟩ := hyields
  refine ⟨hresult.bare, fun hm => ?_, hle, hresult.ahead, (subst_names x r t s).2⟩
  rw [subst_of_not_mentions r (by simp [hm])]
  rfl

/-- The recursive type below two parameters captures one name of what is put in, the parameters capture another. -/
theorem subst_avoids_capture_nested :
    let t : Ty := .generic ["a", "b"] (.func [("p", .var "x")] (.mu "c" (.object [("l", .var "x"), ("m", .var "c")])))
    let r : Ty := .func [("q", .generic ["d", "d"] (.var "a"))] (.var "c")
    (t.DistinctParams ∧ AheadOf {} "x" ∧ AheadOfTy {} r ∧ AheadOfTy {} t) ∧
    (((subst "x" r t).run {}).1.bare = t.bare.put "x" r.bare ∧
      (t.mentions "x" = false → (subst "x" r t).run {} = (t, {})) ∧
      (({} : NameSupply) ≤ ((subst "x" r t).run {}).2) ∧
      ((subst "x" r t).run {}).2.AheadOfTy ((subst "x" r t).run {}).1 ∧
      ∀ y ∈ ((subst "x" r t).run {}).1.typeNames,
        y ∈ t.typeNames ++ r.typeNames ∨ DrawnBetween {} ((subst "x" r t).run {}).2 y) ∧
    (subst "x" r t).run {} =
      (.generic ["a@1", "b"]
        (.func [("p", r)] (.mu "c@2" (.object [("l", r), ("m", .var "c@2")]))), ⟨3⟩) := by
  intro t r
  have hd : t.DistinctParams := WellFormed.distinctParams (by decide)
  have hx : AheadOf {} "x" := aheadOf_of_at_sign_not_mem (by decide) _
  have hr : AheadOfTy {} r := aheadOfTy_of_at_sign_not_mem (by decide) _
  have ht : AheadOfTy {} t := aheadOfTy_of_at_sign_not_mem (by decide) _
  exact ⟨⟨hd, hx, hr, ht⟩, subst_avoids_capture hd hx hr ht, by cbv⟩

end Ty

end MuTypes
