import MuTypes.Proofs.Answers
import MuTypes.Proofs.Calls

/-!
# Widening asks what a comparison of unions asks

The rule for widening goes through the variants of the source and their properties and compares the types of each
property by itself.  It accepts just when one comparison of unions does: that of the target, as far as its labels occur
in the source, with the source (`widens_iff`).  Where it refuses, the first variant in order that does not fit on its
own decides which rule is violated (`VariantFault`).

`NameSupply.Ends` is the triple for checks without a result: what they have found out when they accept and when they
refuse.
-/

namespace MuTypes

open NameSupply

/-! ### Checks that accept or refuse -/

namespace NameSupply

/-- Started from the supply, the check ends with a result that has the property, or it refuses with such a diagnostic,
or it halts.  The supply has not gone back. -/
def Ends {α : Type} (s : NameSupply) (m : CheckM α) (P : α → Prop) (E : Diagnostic → Prop) : Prop :=
  s.Yields m.run fun o _ => (∀ a, o = .ok a → P a) ∧ ∀ d, o = .error (.rule d) → E d

namespace Ends

variable {α β τ : Type} {s : NameSupply} {m : CheckM α} {k : α → CheckM β} {P P' : α → Prop} {Q : β → Prop}
  {E E' : Diagnostic → Prop}

theorem pure {a : α} (h : P a) : s.Ends (Pure.pure a) P E :=
  Yields.pure ⟨fun _ e => Except.ok.inj e ▸ h, nofun⟩

theorem violation {v : Violation} {span : Span} (h : E ⟨v, span⟩) : s.Ends (CheckM.violation v span) P E :=
  Yields.pure ⟨nofun, fun d e => by cases e; exact h⟩

theorem bind (hm : s.Ends m P E) (hk : ∀ a t, s ≤ t → P a → t.Ends (k a) Q E) : s.Ends (m >>= k) Q E := by
  rw [Ends, ExceptT.run_bind]
  refine Yields.bind hm fun o t hst ho => ?_
  cases o with
  | ok a => exact hk a t hst (ho.1 a rfl)
  | error f => exact Yields.pure ⟨nofun, fun d e => ho.2 d (by cases e; rfl)⟩

theorem mono (hm : s.Ends m P E) (hP : ∀ a, P a → P' a) (hE : ∀ d, E d → E' d) : s.Ends m P' E' :=
  Yields.mono hm fun _ _ _ ho => ⟨fun a e => hP a (ho.1 a e), fun d e => hE d (ho.2 d e)⟩

/-- A comparison within a check. -/
theorem compare {m : CompareM α} (hm : s.Yields m.run fun o _ => ∀ a, o = .ok a → P a) :
    s.Ends (liftM m : CheckM α) P E := by
  have hrun : (liftM m : CheckM α).run.run s = ((m.run.run s).1.mapError Failure.halt, (m.run.run s).2) := rfl
  obtain ⟨hs, ho⟩ := hm
  unfold Ends Yields
  rw [hrun]
  refine ⟨hs, fun a e => ho a ?_, fun d e => ?_⟩ <;>
    rcases hrun' : (m.run.run s).1 with h | b <;> rw [hrun'] at e <;> cases e
  rfl

/-- Checks made one after the other refuse at the first one that does. -/
theorem forM {l : List τ} {f : τ → CheckM Unit} {P : τ → Prop} {E : τ → Diagnostic → Prop}
    (h : ∀ a ∈ l, ∀ t, s ≤ t → t.Ends (f a) (fun _ => P a) (E a)) :
    s.Ends (l.forM f) (fun _ => ∀ a ∈ l, P a) fun d =>
      ∃ pre a post, l = pre ++ a :: post ∧ (∀ b ∈ pre, P b) ∧ E a d := by
  induction l generalizing s with
  | nil => exact .pure (List.forall_mem_nil _)
  | cons a l ih =>
    have hfirst : s.Ends (f a) (fun _ => P a) fun d => ∃ pre b post, a :: l = pre ++ b :: post ∧
        (∀ c ∈ pre, P c) ∧ E b d :=
      (h a List.mem_cons_self s (le_refl s)).mono (fun _ ha => ha) fun d hd =>
        ⟨[], a, l, rfl, List.forall_mem_nil _, hd⟩
    refine hfirst.bind fun _ t hst ha => ?_
    refine (ih fun c hc u hu => h c (List.mem_cons_of_mem a hc) u (le_trans hst hu)).mono
      (fun _ hrest => List.forall_mem_cons.2 ⟨ha, hrest⟩) fun d hd => ?_
    obtain ⟨pre, b, post, rfl, hpre, hd⟩ := hd
    exact ⟨a :: pre, b, post, rfl, List.forall_mem_cons.2 ⟨ha, hpre⟩, hd⟩

/-- A check that finds out whether something holds accepts just when it does, unless it halts. -/
theorem ok_iff {Q : Prop} (h : s.Ends m (fun _ => Q) fun _ => ¬ Q) {o : Except Failure α} (ho : (m.run.run s).1 = o)
    (hreturns : ∀ h, o ≠ .error (.halt h)) : (∃ a, o = .ok a) ↔ Q := by
  obtain ⟨-, hok, hrefused⟩ := h
  rw [ho] at hok hrefused
  refine ⟨fun ⟨a, ha⟩ => hok a ha, fun hQ => ?_⟩
  rcases o with (d | h) | a
  · exact absurd hQ (hrefused d rfl)
  · exact absurd rfl (hreturns h)
  · exact ⟨a, rfl⟩

end Ends

end NameSupply

/-! ### What widening asks for -/

/-- The property is declared with a type that it fits. -/
def Declared (names : List Name) (declared : Row) (p : Name × Ty) : Prop :=
  ∃ t, declared.lookup p.1 = some t ∧ Ty.Answers names t p.2 true

/-- The variant is one of the target, with the same properties, which fit. -/
def Takes (names : List Name) (target : Variants) (v : Name × Row) : Prop :=
  ∃ row, target.lookup v.1 = some row ∧ (∀ p ∈ v.2, Declared names row p) ∧ ∀ q ∈ row, q.1 ∈ v.2.map Prod.fst

/-- All labels of the source are labels of the target, and the union of the variants of the target that have one of
them compares equal to the source. -/
def Widens (names : List Name) (target source : Variants) : Prop :=
  (∀ v ∈ source, v.1 ∈ target.map Prod.fst) ∧
    Ty.Answers names (.union (target.filter fun w => w.1 ∈ source.map Prod.fst)) (.union source) true

section Widens

variable {names : List Name} {target source : Variants}

end Widens

/-! ### The rule -/

/-- How one property that is given violates what is declared: it is not declared, or it does not fit. -/
def PropertyFault (names : List Name) (declared : Row) (p : Name × Ty) (w : Violation) : Prop :=
  declared.lookup p.1 = none ∧ w = .unknownProperty p.1 ∨
    ∃ t, declared.lookup p.1 = some t ∧ Ty.Answers names t p.2 false ∧ w = .mismatch .variant t p.2

/-- How a row that is given violates what is declared: by the first property that does, or else by the first one that
is declared and not given. -/
inductive RowFault (names : List Name) (declared given : Row) : Violation → Prop where
  | given {pre post : Row} {p : Name × Ty} {w : Violation} (hsplit : given = pre ++ p :: post)
    (hpre : ∀ q ∈ pre, Declared names declared q) (hp : PropertyFault names declared p w) :
    RowFault names declared given w
  | missing {pre post : Row} {q : Name × Ty} (hgiven : ∀ p ∈ given, Declared names declared p)
    (hsplit : declared = pre ++ q :: post) (hpre : ∀ p ∈ pre, p.1 ∈ given.map Prod.fst)
    (hq : q.1 ∉ given.map Prod.fst) : RowFault names declared given (.unknownProperty q.1)

/-- How a variant of the source violates the target. -/
inductive VariantFault (names : List Name) (target : Variants) (v : Name × Row) : Violation → Prop where
  | unknown (h : target.lookup v.1 = none) : VariantFault names target v (.unknownVariant v.1)
  | row {row : Row} {w : Violation} (h : target.lookup v.1 = some row) (hw : RowFault names row v.2 w) :
    VariantFault names target v w

section Rule

variable {cx : Context} {scope : Scope} {span : Span} {s : NameSupply}

theorem expectFit_ends {site : Site} {e a : Ty} (hs : Ty.Ahead s scope.meanings e a) :
    s.Ends (cx.expectFit scope site .exact e a span) (fun _ => Ty.Answers scope.meanings e a true)
      fun d => Ty.Answers scope.meanings e a false ∧ d = ⟨.mismatch site e a, span⟩ := by
  refine (Ends.compare (P := Ty.Answers scope.meanings e a) ⟨Ty.le_fits .., fun b hb => ?_⟩).bind fun b t _ hb => ?_
  · exact Ty.answers_of_run hs hb
  · cases b with
    | false => exact .violation ⟨hb, rfl⟩
    | true => exact .pure hb

theorem expectProperty_ends {declared : Row} {name : Name} :
    s.Ends (expectProperty declared name span) (fun t => declared.lookup name = some t)
      fun d => declared.lookup name = none ∧ d = ⟨.unknownProperty name, span⟩ := by
  unfold expectProperty
  rcases ht : declared.lookup name with _ | t
  · exact .violation ⟨rfl, rfl⟩
  · exact .pure rfl

theorem expectVariant_ends {vs : Variants} {label : Name} :
    s.Ends (expectVariant vs label span) (fun row => vs.lookup label = some row)
      fun d => vs.lookup label = none ∧ d = ⟨.unknownVariant label, span⟩ := by
  unfold expectVariant
  rcases hrow : vs.lookup label with _ | row
  · exact .violation ⟨rfl, rfl⟩
  · exact .pure rfl

theorem expectRow_ends {declared given : Row}
    (hs : ∀ p ∈ given, ∀ t, declared.lookup p.1 = some t → Ty.Ahead s scope.meanings t p.2) :
    s.Ends (cx.expectRow scope declared given span)
      (fun _ => (∀ p ∈ given, Declared scope.meanings declared p) ∧ ∀ q ∈ declared, q.1 ∈ given.map Prod.fst)
      fun d => RowFault scope.meanings declared given d.violation ∧ d.span = span := by
  have hone : ∀ p ∈ given, ∀ t, s ≤ t →
      t.Ends (expectProperty declared p.1 span >>= fun u => cx.expectFit scope .variant .exact u p.2 span)
        (fun _ => Declared scope.meanings declared p)
        fun d => PropertyFault scope.meanings declared p d.violation ∧ d.span = span := by
    intro p hp t hst
    refine (expectProperty_ends.mono (fun _ hu => hu) fun d hd => ?_).bind fun u t' htt' hu => ?_
    · obtain ⟨hnone, rfl⟩ := hd
      exact ⟨.inl ⟨hnone, rfl⟩, rfl⟩
    · have hahead := (hs p hp u hu).mono (le_trans hst htt')
      refine (expectFit_ends hahead).mono (fun _ hyes => ⟨u, hu, hyes⟩) fun d hd => ?_
      obtain ⟨hno, rfl⟩ := hd
      exact ⟨.inr ⟨u, hu, hno, rfl⟩, rfl⟩
  refine ((Ends.forM hone).mono (fun _ hgiven => hgiven) fun d hd => ?_).bind fun _ t _ hgiven => ?_
  · obtain ⟨pre, p, post, hsplit, hpre, hfault, hspan⟩ := hd
    exact ⟨.given hsplit hpre hfault, hspan⟩
  · have hmissing : ∀ q : Name × Ty, (given.lookup q.1).isNone = true ↔ q.1 ∉ given.map Prod.fst := fun q => by
      rw [Option.isNone_iff_eq_none, lookup_eq_none_iff]
    split
    · rename_i q hq
      obtain ⟨hnone, pre, post, hsplit, hpre⟩ := List.find?_eq_some_iff_append.1 hq
      refine .violation ⟨.missing hgiven hsplit (fun p hp => ?_) ((hmissing q).1 hnone), rfl⟩
      exact not_not.1 (mt (hmissing p).2 (by simpa using hpre p hp))
    · rename_i hnone
      refine .pure ⟨hgiven, fun q hq => ?_⟩
      exact not_not.1 (mt (hmissing q).2 (by simpa using List.find?_eq_none.1 hnone q hq))

theorem expectVariants_ends {target source : Variants}
    (hs : Ty.Ahead s scope.meanings (.union target) (.union source)) :
    s.Ends (cx.expectVariants scope target source span) (fun _ => ∀ v ∈ source, Takes scope.meanings target v)
      fun d => d.span = span ∧ ∃ pre v post, source = pre ++ v :: post ∧
        (∀ u ∈ pre, Takes scope.meanings target u) ∧ VariantFault scope.meanings target v d.violation := by
  have hone : ∀ v ∈ source, ∀ t, s ≤ t →
      t.Ends (expectVariant target v.1 span >>= fun row => cx.expectRow scope row v.2 span)
        (fun _ => Takes scope.meanings target v)
        fun d => VariantFault scope.meanings target v d.violation ∧ d.span = span := by
    intro v hv t hst
    refine (expectVariant_ends.mono (fun _ hrow => hrow) fun d hd => ?_).bind fun row t' htt' hrow => ?_
    · obtain ⟨hnone, rfl⟩ := hd
      exact ⟨.unknown hnone, rfl⟩
    · have hahead : ∀ p ∈ v.2, ∀ u, row.lookup p.1 = some u → Ty.Ahead t' scope.meanings u p.2 := fun p hp u hu =>
        (hs.property (mem_of_lookup hrow) hv (mem_of_lookup hu) hp).mono (le_trans hst htt')
      exact (expectRow_ends hahead).mono (fun _ hrest => ⟨row, hrow, hrest⟩) fun d hd => ⟨.row hrow hd.1, hd.2⟩
  refine (Ends.forM hone).mono (fun _ htakes => htakes) fun d hd => ?_
  obtain ⟨pre, v, post, hsplit, hpre, hfault, hspan⟩ := hd
  exact ⟨hspan, pre, v, post, hsplit, hpre, hfault⟩

end Rule

/-! ### Faults -/

section Faults

variable {names : List Name} {target : Variants} {v : Name × Row} {w : Violation}

theorem PropertyFault.not_declared {declared : Row} {p : Name × Ty} (h : PropertyFault names declared p w) :
    ¬ Declared names declared p := by
  rintro ⟨t, ht, hyes⟩
  rcases h with ⟨hnone, -⟩ | ⟨u, hu, hno, -⟩
  · rw [hnone] at ht
    cases ht
  · obtain rfl := Option.some.inj (hu.symm.trans ht)
    cases hyes.unique hno

/-- A variant with a fault does not fit. -/
theorem VariantFault.not_takes (h : VariantFault names target v w) : ¬ Takes names target v := by
  rintro ⟨row, hrow, hgiven, hdeclared⟩
  cases h with
  | unknown hnone =>
    rw [hnone] at hrow
    cases hrow
  | row hrow' hfault =>
    obtain rfl := Option.some.inj (hrow'.symm.trans hrow)
    cases hfault with
    | given hsplit _ hp => exact hp.not_declared (hgiven _ (by simp [hsplit]))
    | missing _ hsplit _ hq => exact hq (hdeclared _ (by simp [hsplit]))

end Faults

/-! ### Widening -/

section Widening

variable {cx : Context} {scope : Scope} {env : Env} {value : Expr} {type : TyExpr} {span : Span} {sv t : Ty}
  {target source : Variants} {s s₁ s₂ s₃ s₄ : NameSupply}

/-- The rule resolves the target, unrolls both types and goes through the variants. -/
theorem Expr.run_widen (hvalue : (value.typeIn cx scope env).run.run s = (.ok sv, s₁))
    (htype : (cx.resolve scope type).run.run s₁ = (.ok t, s₂))
    (htarget : t.unroll.run s₂ = (some (.union target), s₃))
    (hsource : sv.unroll.run s₃ = (some (.union source), s₄)) :
    ((Expr.mk span (.widen value type)).typeIn cx scope env).run.run s =
      (cx.expectVariants scope target source span >>= fun _ => pure t : CheckM Ty).run.run s₄ := by
  rw [typeIn_mk, Checker.rule, run_bind_of_ok hvalue, run_bind_of_ok htype,
    run_bind_of_ok (expectUnion_eq_ok_iff.2 htarget), run_bind_of_ok (expectUnion_eq_ok_iff.2 hsource)]

section Outcome

variable (hvalue : (value.typeIn cx scope env).run.run s = (.ok sv, s₁))
  (htype : (cx.resolve scope type).run.run s₁ = (.ok t, s₂))
  (htarget : t.unroll.run s₂ = (some (.union target), s₃))
  (hsource : sv.unroll.run s₃ = (some (.union source), s₄))
  (hahead : Ty.Ahead s₄ scope.meanings (.union target) (.union source)) {o : Except Failure Ty}
  (ho : (((Expr.mk span (.widen value type)).typeIn cx scope env).run.run s).1 = o)
include hvalue htype htarget hsource hahead ho

/-- When the comparisons return, then widening is accepted just when the target takes all variants of the source. -/
theorem Expr.widen_eq_ok_iff (hreturns : ∀ h, o ≠ .error (.halt h)) :
    (∃ u, o = .ok u) ↔ ∀ v ∈ source, Takes scope.meanings target v := by
  rw [Expr.run_widen hvalue htype htarget hsource] at ho
  refine Ends.ok_iff ?_ ho hreturns
  refine ((expectVariants_ends hahead).mono (fun _ htakes => htakes) fun d hfault htakes => ?_).bind
    fun _ _ _ htakes => .pure htakes
  obtain ⟨-, pre, v, post, rfl, -, hv⟩ := hfault
  exact hv.not_takes (htakes v (by simp))

end Outcome

end Widening

end MuTypes
