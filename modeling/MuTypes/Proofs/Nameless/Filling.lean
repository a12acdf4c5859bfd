import MuTypes.Proofs.Nameless.OrderLaws

/-!
# Types for the labels

`fill σ` puts a type for each label, all at once.  Relabelling and putting a type for one label are special cases.
When the types put in have no loose variables, filling goes with opening binders (`fill_openAt`) and, as long as what
is met is no label, with unrolling (`unroll_fill`).  Types that agree go on to agree when their labels are filled alike
(`Agrees.fill`).
-/

namespace MuTypes.Nameless

variable {α β γ : Type}

/-- Puts a type for each label. -/
def fill (σ : α → Nameless β) (t : Nameless α) : Nameless β :=
  t.graft (fun _ i => .bound i) fun _ x => σ x

section Equations

variable (σ : α → Nameless β)

@[simp] theorem fill_prim (p : Prim) : (Nameless.prim p).fill σ = .prim p := rfl

@[simp] theorem fill_container (k : Container) (e : Nameless α) :
    (Nameless.container k e).fill σ = .container k (e.fill σ) := rfl

@[simp] theorem fill_func (ps : List (Name × Nameless α)) (r : Nameless α) :
    (Nameless.func ps r).fill σ = .func (ps.map fun p => (p.1, p.2.fill σ)) (r.fill σ) :=
  graft_func ..

@[simp] theorem fill_object (ps : List (Name × Nameless α)) :
    (Nameless.object ps).fill σ = .object (ps.map fun p => (p.1, p.2.fill σ)) :=
  graft_object ..

@[simp] theorem fill_union (vs : List (Name × List (Name × Nameless α))) :
    (Nameless.union vs).fill σ = .union (vs.map fun v => (v.1, v.2.map fun p => (p.1, p.2.fill σ))) :=
  graft_union ..

@[simp] theorem fill_mu (b : Nameless α) : (Nameless.mu b).fill σ = .mu (b.fill σ) := rfl

@[simp] theorem fill_generic (n : Nat) (b : Nameless α) :
    (Nameless.generic n b).fill σ = .generic n (b.fill σ) := rfl

@[simp] theorem fill_bound (i : Nat) : (Nameless.bound i).fill σ = .bound i := rfl

@[simp] theorem fill_free (x : α) : (Nameless.free x).fill σ = σ x := rfl

@[simp] theorem fill_id (t : Nameless α) : t.fill .free = t :=
  graft_id t

end Equations

/-! ### Laws -/

theorem fill_relabel (h : α → β) (σ : β → Nameless γ) (t : Nameless α) :
    (t.relabel h).fill σ = t.fill fun x => σ (h x) := by
  simp only [relabel, fill, graft_graft, graft_bound, graft_free]

theorem relabel_fill (σ : α → Nameless β) (h : β → γ) (t : Nameless α) :
    (t.fill σ).relabel h = t.fill fun x => (σ x).relabel h := by
  simp only [relabel, fill, graft_graft, graft_bound]

theorem fill_congr {σ τ : α → Nameless β} {t : Nameless α} (h : ∀ x, t.Has x → σ x = τ x) : t.fill σ = t.fill τ :=
  graft_congr ((leaves_of_has h).mono (fun _ _ _ => rfl) fun _ _ hx => hx)

theorem has_fill {σ : α → Nameless β} {t : Nameless α} {y : β} (h : (t.fill σ).Has y) : ∃ x, t.Has x ∧ (σ x).Has y := by
  by_contra hn
  refine h ((leaves_graft ..).2 ((leaves_of_has fun x hx => ?_).mono (fun _ _ _ => trivial) fun _ _ hx => hx))
  exact not_not.1 fun hy => hn ⟨x, hx, hy⟩

/-- Opened binders can be filled before or after. -/
theorem fill_openAt {σ : α → Nameless β} (hσ : ∀ x, (σ x).ClosedAt 0) (m : Nat) (vs : List (Nameless α))
    (t : Nameless α) : (t.openAt m vs).fill σ = (t.fill σ).openAt m (vs.map (fill σ)) := by
  simp only [fill, openAt, graft_graft, graft_bound, graft_free, Nat.zero_add]
  congr 1
  · funext d i
    unfold opened
    by_cases hi : i < d + m
    · rw [if_pos hi, if_pos hi, graft_bound]
    · rw [if_neg hi, if_neg hi, List.getElem?_map]
      cases vs[i - (d + m)]? <;> rfl
  · funext d x
    refine (graft_eq_self (Leaves.mono (hσ x) (fun e i hi => ?_) fun _ _ _ => rfl)).symm
    rw [opened, if_pos (by omega)]

section Sound

variable {σ : α → Nameless β} (hσ : ∀ x, (σ x).Sound) {t : Nameless α}
include hσ

theorem Sound.fill (ht : t.Sound) : (t.fill σ).Sound := by
  constructor
  · refine (leaves_graft ..).2 (Leaves.mono ht.closed (fun d i hi => by simpa using hi) fun d x _ => ?_)
    exact Leaves.mono (hσ x).closed (fun _ _ hi => by omega) fun _ _ h => h
  · exact wellFormed_graft (fun _ _ => .inl rfl) (fun _ x => ⟨(hσ x).wellFormed.rigid (hσ x).closed, (hσ x).wellFormed⟩)
      ht.wellFormed

theorem unrollOnce_fill (h : t.isMu = true) : (t.fill σ).unrollOnce = t.unrollOnce.fill σ := by
  cases t with
  | mu b => exact (fill_openAt (fun x => (hσ x).closed) 0 [.mu b] b).symm
  | _ => cases h

/-- Filled before it is unrolled, a type may have to be unrolled on where a label came to the top. -/
theorem Sound.unroll_fill (ht : t.Sound) : (t.fill σ).unroll = (t.unroll.fill σ).unroll := by
  have hsteps : ∀ k (t : Nameless α), t.Sound → k ≤ t.muCount →
      (t.fill σ).unroll = ((Nameless.unrollOnce^[k] t).fill σ).unroll := by
    intro k
    induction k with
    | zero => exact fun _ _ _ => rfl
    | succ k ih =>
      intro t ht hk
      have hmu : t.isMu = true := by
        refine Bool.of_not_eq_false fun h => ?_
        rw [isMu_eq_false_iff.1 h] at hk
        omega
      rw [Function.iterate_succ_apply, ← ih t.unrollOnce ht.unrollOnce (by rw [ht.muCount_unrollOnce]; omega),
        ← unrollOnce_fill hσ hmu, (ht.fill hσ).unroll_unrollOnce]
  exact hsteps t.muCount t ht (Nat.le_refl _)

end Sound

/-- Where no label came to the top, filling goes with unrolling. -/
theorem Sound.unroll_fill_of_ne_free {σ : α → Nameless β} (hσ : ∀ x, (σ x).Sound) {t : Nameless α} (ht : t.Sound)
    (hfree : ∀ x, t.unroll ≠ .free x) : (t.fill σ).unroll = t.unroll.fill σ := by
  rw [ht.unroll_fill hσ]
  refine unroll_of_isMu_eq_false ?_
  have hmu := ht.isMu_unroll
  cases hu : t.unroll with
  | mu b => rw [hu] at hmu; cases hmu
  | free x => exact absurd hu (hfree x)
  | func ps r => rw [fill_func]; rfl
  | object ps => rw [fill_object]; rfl
  | union vs => rw [fill_union]; rfl
  | _ => rfl

/-! ### Agreement -/

namespace Comparison

variable {n n' : Nat} {fit : Fit} {e a : Nameless Nat} {τ : Nat → Nameless Nat}

/-- What is put for levels below `m` more binders: for the levels of these, their new ones. -/
private def raised (n n' : Nat) (τ : Nat → Nameless Nat) (x : Nat) : Nameless Nat :=
  if x < n then τ x else .free (n' + (x - n))

private theorem fill_raised_openAt (hτ : ∀ x, (τ x).Sound) {t : Nameless Nat} (ht : ∀ x, t.Has x → x < n) (m : Nat) :
    (t.openAt 0 (levels n m)).fill (raised n n' τ) = (t.fill τ).openAt 0 (levels n' m) := by
  have hclosed : ∀ x, (raised n n' τ x).ClosedAt 0 := by
    intro x
    unfold raised
    split
    · exact (hτ x).closed
    · trivial
  have hlevels : (levels n m).map (fill (raised n n' τ)) = levels n' m := by
    rw [levels, levels, List.map_map]
    refine List.map_congr_left fun j _ => ?_
    show raised n n' τ (n + (m - 1 - j)) = .free (n' + (m - 1 - j))
    rw [raised, if_neg (by omega), Nat.add_sub_cancel_left]
  have hkept : t.fill (raised n n' τ) = t.fill τ := fill_congr fun x hx => if_pos (ht x hx)
  rw [fill_openAt hclosed, hlevels, hkept]

/-- The comparison is one that agrees, with its labels filled. -/
private structure Filled (τ : Nat → Nameless Nat) (d c : Comparison) : Prop where
  agrees : d.Agrees
  sound : d.Sound
  values : ∀ x, (τ x).Sound
  values_lt : ∀ x, x < d.depth → ∀ y, (τ x).Has y → y < c.depth
  fit : c.fit = d.fit
  expected : c.expected = d.expected.fill τ
  actual : c.actual = d.actual.fill τ

private theorem Filled.unrolled {c d : Comparison} (h : Filled τ d c) :
    Meets (fun c => (∃ d ρ, Filled ρ d c) ∨ c.Agrees) c.unrolled := by
  have hmeets := (h.agrees.meets h.sound).mono fun d' hd hall =>
    (⟨hall, h.sound.unrolled.of_mem_parts hd⟩ : d'.Agrees ∧ d'.Sound)
  have hlt := h.sound.unrolled.expected_lt
  have hlt' := h.sound.unrolled.actual_lt
  obtain ⟨-, hsound, hτ, hbound, hfit, hexpected, hactual⟩ := h
  obtain ⟨n', fit', e', a'⟩ := c
  obtain ⟨n, fit, e, a⟩ := d
  obtain rfl : fit' = fit := hfit
  obtain rfl : e' = e.fill τ := hexpected
  obtain rfl : a' = a.fill τ := hactual
  have hfilled : ∀ {fit : Fit} {t u : Nameless Nat}, Agrees ⟨n, fit, t, u⟩ ∧ Sound ⟨n, fit, t, u⟩ →
      (∃ d ρ, Filled ρ d ⟨n', fit, t.fill τ, u.fill τ⟩) ∨ Agrees ⟨n', fit, t.fill τ, u.fill τ⟩ :=
    fun h => .inl ⟨_, τ, h.1, h.2, hτ, hbound, rfl, rfl, rfl⟩
  show Meets _ ⟨n', fit', (e.fill τ).unroll, (a.fill τ).unroll⟩
  rw [hsound.expected.unroll_fill hτ, hsound.actual.unroll_fill hτ]
  change Meets _ ⟨n, fit', e.unroll, a.unroll⟩ at hmeets
  change ∀ x, e.unroll.Has x → x < n at hlt
  change ∀ x, a.unroll.Has x → x < n at hlt'
  generalize e.unroll = e at hmeets hlt
  generalize a.unroll = a at hmeets hlt'
  cases hmeets with
  | undefined ht =>
    refine .undefined (ht.imp (fun he => ?_) fun ha => ?_)
    · obtain rfl : e = .prim .undefined := he
      rfl
    · obtain rfl : a = .prim .undefined := ha
      rfl
  | prim p => exact .prim p
  | free x =>
    -- what is put for the label agrees with itself
    have hx := hbound x (hlt x (has_free.2 rfl))
    have hself : Sound ⟨n', fit', τ x, τ x⟩ := ⟨hτ x, hτ x, hx, hx⟩
    exact ((agrees_of_alike hself (alike_refl (hτ x).unroll.wellFormed)).meets hself).mono fun _ _ h => .inr h
  | container h =>
    rw [fill_container, fill_container]
    exact .container (hfilled h)
  | funcExact hps hr =>
    rw [fill_func, fill_func]
    refine .funcExact ?_ (hfilled hr)
    exact List.forall₂_map_left_iff.2 (List.forall₂_map_right_iff.2 (hps.imp fun _ _ h => hfilled h))
  | funcWide hps hr =>
    rw [fill_func, fill_func]
    refine .funcWide ?_ (hfilled hr)
    exact List.forall₂_map_left_iff.2 (List.forall₂_map_right_iff.2 (hps.imp fun _ _ h => hfilled h))
  | object hcount hps =>
    rw [fill_object, fill_object]
    refine .object (by simpa using hcount) (List.forall_mem_map.2 fun p hp => ?_)
    obtain ⟨u, hu, h⟩ := hps p hp
    exact ⟨u.fill τ, by rw [lookup_map_snd, hu]; rfl, hfilled h⟩
  | union hcount hvs =>
    rw [fill_union, fill_union]
    refine .union (by simpa using hcount) (List.forall_mem_map.2 fun v hv => ?_)
    obtain ⟨qs, hqs, hl, hps⟩ := hvs v hv
    refine ⟨_, by rw [lookup_map_snd, hqs]; rfl, by simpa using hl, List.forall_mem_map.2 fun p hp => ?_⟩
    obtain ⟨u, hu, h⟩ := hps p hp
    exact ⟨u.fill τ, by rw [lookup_map_snd, hu]; rfl, hfilled h⟩
  | @generic _ m _ e a h =>
    rw [fill_generic, fill_generic]
    refine .generic (.inl ⟨_, raised n n' τ, h.1, h.2, fun x => ?_, fun x hx y hy => ?_, rfl, ?_, ?_⟩)
    · unfold raised
      split
      · exact hτ x
      · exact sound_free _
    · change x < n + m at hx
      show y < n' + m
      unfold raised at hy
      split at hy
      · exact Nat.lt_add_right m (hbound x ‹_› y hy)
      · have := has_free.1 hy
        omega
    · exact (fill_raised_openAt hτ (t := e) hlt m).symm
    · exact (fill_raised_openAt hτ (t := a) hlt' m).symm

/-- Types that agree go on to agree when the same types are put for their labels. -/
theorem Agrees.fill (h : Agrees ⟨n, fit, e, a⟩) (hc : Sound ⟨n, fit, e, a⟩) (hτ : ∀ x, (τ x).Sound)
    (hlt : ∀ x, x < n → ∀ y, (τ x).Has y → y < n') : Agrees ⟨n', fit, e.fill τ, a.fill τ⟩ := by
  have hsound : ∀ {t : Nameless Nat}, (∀ x, t.Has x → x < n) → ∀ y, (t.fill τ).Has y → y < n' := by
    intro t ht y hy
    obtain ⟨x, hx, hxy⟩ := has_fill hy
    exact hlt x (ht x hx) y hxy
  refine agrees_of_meets (S := fun c => (∃ d ρ, Filled ρ d c) ∨ c.Agrees) (fun c hc hS => ?_)
    ⟨hc.expected.fill hτ, hc.actual.fill hτ, hsound hc.expected_lt, hsound hc.actual_lt⟩
    (.inl ⟨_, τ, h, hc, hτ, hlt, rfl, rfl, rfl⟩)
  rcases hS with ⟨d, ρ, hd⟩ | hall
  · exact hd.unrolled
  · exact (hall.meets hc).mono fun _ _ h => .inr h

end Comparison

end MuTypes.Nameless
