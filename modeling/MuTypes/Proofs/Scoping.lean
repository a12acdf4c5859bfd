import MuTypes.Proofs.Checks
import MuTypes.Proofs.Comparison

/-!
# Variables met by a comparison

A comparison whose free names are in scope never meets a variable that is not (`fits_scoped`).  Nothing else is asked
of the types: they may be ill-formed, and fresh names may clash with theirs.

Passing to parts keeps a comparison in scope (`Comparison.Scoped.partOf`), and so does unrolling the heads, because
substitution adds no free names but those of what it puts in (`subst_replaced`).  Names of binders may change on the
way, but then the free names below them change alike.
-/

namespace MuTypes

open NameSupply

namespace Ty

/-! ### Free names after substituting -/

/-- The free names of the second type are those of the first one without `x`, and those of `r`. -/
def Replaced (x : Name) (r t t' : Ty) : Prop :=
  ∀ y, t'.mentions y = true → t.mentions y = true ∧ y ≠ x ∨ r.mentions y = true

/-- Outside the new binders the free names of the new body are those of the old body outside the old binders. -/
def FewerFree (bs : List Name) (body : Ty) (q : List Name × Ty) : Prop :=
  ∀ y, q.2.mentions y = true → y ∉ q.1 → body.mentions y = true ∧ y ∉ bs

section Substitution

variable {x : Name} {r : Ty}

private theorem mapRow_always {R : Ty → Ty → Prop} {f : Ty → SupplyM Ty} {ps : Row}
    (h : ∀ p ∈ ps, Always (R p.2) (f p.2)) : Always (fun qs => ∀ q ∈ qs, ∃ p ∈ ps, R p.2 q.2) (mapRow f ps) := by
  induction ps with
  | nil => exact Always.pure (by simp)
  | cons p ps ih =>
    obtain ⟨hp, hps⟩ := List.forall_mem_cons.1 h
    rw [mapRow_cons]
    refine hp.bind fun t ht => (ih hps).bind fun qs hqs => Always.pure (List.forall_mem_cons.2 ⟨?_, ?_⟩)
    · exact ⟨p, List.mem_cons_self, ht⟩
    · intro q hq
      obtain ⟨p', hp', hR⟩ := hqs q hq
      exact ⟨p', List.mem_cons_of_mem p hp', hR⟩

private theorem mapVariants_always {R : Ty → Ty → Prop} {f : Ty → SupplyM Ty} {vs : Variants}
    (h : ∀ v ∈ vs, ∀ p ∈ v.2, Always (R p.2) (f p.2)) :
    Always (fun ws => ∀ w ∈ ws, ∀ q ∈ w.2, ∃ v ∈ vs, ∃ p ∈ v.2, R p.2 q.2) (mapVariants f vs) := by
  induction vs with
  | nil => exact Always.pure (by simp)
  | cons v vs ih =>
    obtain ⟨hv, hvs⟩ := List.forall_mem_cons.1 h
    rw [mapVariants_cons]
    refine (mapRow_always hv).bind fun row hrow => (ih hvs).bind fun ws hws =>
      Always.pure (List.forall_mem_cons.2 ⟨fun q hq => ?_, fun w hw q hq => ?_⟩)
    · exact ⟨v, List.mem_cons_self, hrow q hq⟩
    · obtain ⟨v', hv', hR⟩ := hws w hw q hq
      exact ⟨v', List.mem_cons_of_mem v hv', hR⟩

/-- `rebind` when the variables that it puts in replace the binders. -/
private theorem rebind_fewerFree {k : Nat} {body : Ty} (hk : body.height ≤ k)
    (hsubst : ∀ b b' t, t.height ≤ k → Always (Replaced b (.var b') t) (subst b (.var b') t)) (captured : List Name)
    (b : Name) : Always (fun q => FewerFree [b] body ([q.1], q.2)) (rebind subst captured b body) := by
  unfold rebind
  split
  · refine Always.bind (P := fun _ => True) (fun _ => trivial) fun b' _ => ?_
    refine (hsubst b b' body hk).bind fun body' hbody => Always.pure fun y hy hn => ?_
    rcases hbody y hy with ⟨hm, hne⟩ | hm
    · exact ⟨hm, by simpa using hne⟩
    · have he : b' = y := (mentions_var ..).1 hm
      exact absurd (List.mem_singleton.2 he.symm) hn
  · exact Always.pure fun y hy hn => ⟨hy, hn⟩

private theorem rebindAll_fewerFree {k : Nat} {body : Ty} (hk : body.height ≤ k)
    (hsubst : ∀ b b' t, t.height ≤ k → Always (Replaced b (.var b') t) (subst b (.var b') t)) (captured : List Name)
    (bs : List Name) : Always (FewerFree bs body) (rebindAll subst captured bs body) := by
  induction bs generalizing body with
  | nil => exact Always.pure fun y hy hn => ⟨hy, hn⟩
  | cons b bs ih =>
    have hheight : Always (fun q => q.2.height ≤ k) (rebind subst captured b body) :=
      (rebind_height_le subst_var_height_le captured b body).mono fun q hq => Nat.le_trans hq hk
    refine ((rebind_fewerFree hk hsubst captured b).and hheight).bind fun q hq => ?_
    refine (ih hq.2).bind fun q' hq' => Always.pure fun y hy hn => ?_
    -- a free name of the last body is one of the body before, outside the later binders, and so on
    obtain ⟨hn1, hn2⟩ := not_or.1 (List.mem_cons.not.1 hn)
    obtain ⟨hm, hbs⟩ := hq' y hy hn2
    obtain ⟨hm, hb⟩ := hq.1 y hm (by simpa using hn1)
    exact ⟨hm, List.mem_cons.not.2 (not_or.2 ⟨by simpa using hb, hbs⟩)⟩

private theorem subst_replaced_of_le (k : Nat) {t : Ty} (hk : t.height ≤ k) :
    Always (Replaced x r t) (subst x r t) := by
  induction k generalizing x r t with
  | zero => exact absurd t.height_pos (by omega)
  | succ k ih =>
    have hrename : ∀ b b' t, t.height ≤ k → Always (Replaced b (.var b') t) (subst b (.var b') t) :=
      fun b b' t ht => ih ht
    -- a type without `x` stays
    have hkeep : ∀ {u : Ty}, ¬ u.mentions x = true → Always (Replaced x r u) (pure u) := by
      intro u hu
      refine Always.pure fun y hy => .inl ⟨hy, ?_⟩
      rintro rfl
      exact hu hy
    cases t with
    | prim p => exact Always.pure fun y hy => by simp at hy
    | container kind e =>
      rw [subst_container]
      exact (ih (by simp only [height] at hk; omega)).bind fun e' he => Always.pure fun y hy => he y hy
    | func ps result =>
      simp only [height] at hk
      rw [subst_func]
      refine (mapRow_always fun p hp => ih (Nat.le_trans (height_le_rowHeight hp) (by omega))).bind fun qs hqs =>
        (ih (by omega)).bind fun u hu => Always.pure fun y hy => ?_
      rcases (mentions_func ..).1 hy with ⟨q, hq, hy⟩ | hy
      · obtain ⟨p, hp, hR⟩ := hqs q hq
        exact (hR y hy).imp_left fun h => ⟨(mentions_func ..).2 (.inl ⟨p, hp, h.1⟩), h.2⟩
      · exact (hu y hy).imp_left fun h => ⟨(mentions_func ..).2 (.inr h.1), h.2⟩
    | object ps =>
      simp only [height] at hk
      rw [subst_object]
      refine (mapRow_always fun p hp => ih (Nat.le_trans (height_le_rowHeight hp) (by omega))).bind fun qs hqs =>
        Always.pure fun y hy => ?_
      obtain ⟨q, hq, hy⟩ := (mentions_object ..).1 hy
      obtain ⟨p, hp, hR⟩ := hqs q hq
      exact (hR y hy).imp_left fun h => ⟨(mentions_object ..).2 ⟨p, hp, h.1⟩, h.2⟩
    | union vs =>
      simp only [height] at hk
      rw [subst_union]
      refine (mapVariants_always fun v hv p hp => ih (Nat.le_trans (height_le_rowHeight hp)
        (Nat.le_trans (rowHeight_le_variantsHeight hv) (by omega)))).bind fun ws hws => Always.pure fun y hy => ?_
      obtain ⟨w, hw, q, hq, hy⟩ := (mentions_union ..).1 hy
      obtain ⟨v, hv, p, hp, hR⟩ := hws w hw q hq
      exact (hR y hy).imp_left fun h => ⟨(mentions_union ..).2 ⟨v, hv, p, hp, h.1⟩, h.2⟩
    | mu b body =>
      simp only [height] at hk
      rw [subst_mu]
      split
      · have hheight := rebind_height_le subst_var_height_le r.freeNames b body
        refine ((rebind_fewerFree (by omega) hrename r.freeNames b).and hheight).bind fun q hq => ?_
        refine (ih (by omega)).bind fun u hu => Always.pure fun y hy => ?_
        obtain ⟨hne, hy⟩ := (mentions_mu ..).1 hy
        refine (hu y hy).imp_left fun h => ?_
        obtain ⟨hm, hb⟩ := hq.1 y h.1 (by simpa using Ne.symm hne)
        exact ⟨(mentions_mu ..).2 ⟨Ne.symm (by simpa using hb), hm⟩, h.2⟩
      · exact hkeep ‹_›
    | generic bs body =>
      simp only [height] at hk
      rw [subst_generic]
      split
      · have hheight := rebindAll_height_le subst_var_height_le r.freeNames bs body
        refine ((rebindAll_fewerFree (by omega) hrename r.freeNames bs).and hheight).bind fun q hq => ?_
        refine (ih (by omega)).bind fun u hu => Always.pure fun y hy => ?_
        obtain ⟨hn, hy⟩ := (mentions_generic ..).1 hy
        refine (hu y hy).imp_left fun h => ?_
        obtain ⟨hm, hbs⟩ := hq.1 y h.1 hn
        exact ⟨(mentions_generic ..).2 ⟨hbs, hm⟩, h.2⟩
      · exact hkeep ‹_›
    | var z =>
      rw [subst_var]
      refine Always.pure fun y hy => ?_
      split at hy
      · exact .inr hy
      · rename_i hne
        have he : z = y := (mentions_var ..).1 hy
        exact .inl ⟨hy, he ▸ hne⟩

theorem subst_replaced (x : Name) (r t : Ty) : Always (Replaced x r t) (subst x r t) :=
  subst_replaced_of_le t.height (Nat.le_refl _)

end Substitution

/-! ### Free names after unrolling -/

theorem unrollOnce_mentions (t : Ty) :
    Always (fun t' => ∀ y, t'.mentions y = true → t.mentions y = true) t.unrollOnce := by
  cases t with
  | mu x b =>
    refine (subst_replaced x (.mu x b) b).mono fun t' ht y hy => ?_
    rcases ht y hy with ⟨hy, hne⟩ | hy
    · exact (mentions_mu ..).2 ⟨Ne.symm hne, hy⟩
    · exact hy
  | _ => exact Always.pure fun _ hy => hy

theorem unroll_mentions (t : Ty) :
    Always (fun o => ∀ t', o = some t' → ∀ y, t'.mentions y = true → t.mentions y = true) t.unroll := by
  have hwithin : ∀ k u, Always (fun o => ∀ t', o = some t' → ∀ y, t'.mentions y = true → u.mentions y = true)
      (unrollWithin k u) := by
    intro k
    induction k with
    | zero =>
      intro u
      unfold unrollWithin
      split
      · exact Always.pure fun t' e => absurd e (Option.some_ne_none t').symm
      · exact Always.pure fun t' e y hy => Option.some.inj e ▸ hy
    | succ k ih =>
      intro u
      unfold unrollWithin
      split
      · exact (unrollOnce_mentions u).bind fun u' hu' => (ih u').mono fun o ho t' e y hy => hu' y (ho t' e y hy)
      · exact Always.pure fun t' e y hy => Option.some.inj e ▸ hy
  exact hwithin _ t

/-! ### Comparisons -/

theorem unrolled_outcomes (t : Ty) :
    Outcomes t.unrolled (fun t' => ∀ y, t'.mentions y = true → t.mentions y = true) Halt.InScope := by
  refine (Outcomes.lift (unroll_mentions t)).bind fun o ho => ?_
  cases o with
  | none => exact .throw nofun
  | some t' => exact .pure (ho t' rfl)

theorem fitsUnder_scoped (fuel : Nat) (assumed : List Assumption) {c : Comparison} (hc : c.Scoped) :
    Outcomes (fitsUnder fuel assumed c.binders c.fit c.expected c.actual) (fun _ => True) Halt.InScope := by
  induction fuel generalizing assumed c with
  | zero => exact .throw nofun
  | succ fuel ih =>
    unfold fitsUnder
    split
    · exact .pure trivial
    split
    · split
      · exact .pure trivial
      · refine (unrolled_outcomes c.expected).bind fun e he => (unrolled_outcomes c.actual).bind fun a ha => ?_
        have hunrolled : Comparison.Scoped ⟨c.binders, c.fit, e, a⟩ :=
          ⟨fun x hx => hc.expected x (he x hx), fun x hx => hc.actual x (ha x hx)⟩
        exact ih _ hunrolled
    · rw [shapesFit_eq_allM _ hc]
      refine .allM fun o ho => ?_
      cases o with
      | none => exact .pure trivial
      | some d => exact ih assumed (hc.partOf (Comparison.partOf_of_mem_parts ho))

/-- Comparing types whose free names are in scope never stops at a variable that is not. -/
theorem fits_scoped {scope : List Name} {expected actual : Ty} (he : ∀ x, expected.mentions x = true → x ∈ scope)
    (ha : ∀ x, actual.mentions x = true → x ∈ scope) (fuel : Nat) (fit : Fit) :
    Outcomes (fits fuel scope fit expected actual) (fun _ => True) Halt.InScope := by
  have hscoped : Comparison.Scoped ⟨.ofScope scope, fit, expected, actual⟩ := Comparison.scoped_ofScope he ha
  exact fitsUnder_scoped fuel [] hscoped

end Ty

end MuTypes
