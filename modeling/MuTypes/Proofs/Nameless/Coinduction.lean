import MuTypes.Proofs.Nameless.Agreement
import MuTypes.Proofs.Nameless.Children

/-!
# Comparisons that hold however far the types are unrolled

`Agrees` is agreement for every number of unrollings.  It is the greatest property of comparisons with which, once both
heads are unrolled, the heads match and the comparisons of parts have the property too: it is one (`Agrees.meets`), and
a comparison with any such property agrees (`agrees_of_meets`).  So a law of the comparison is proved by naming the
comparisons that it speaks of, and looking at one head of each.
-/

namespace MuTypes.Nameless

/-! ### The size of a type whose leaves have none -/

/-- The size of a type, in which all leaves count alike. -/
noncomputable def bulk {α : Type} (t : Nameless α) : Nat :=
  sizeOf (t.graft (fun _ _ => .bound 0) fun _ _ => .bound 0 : Nameless α)

theorem bulk_lt_of_mem_pieces {α : Type} {t u : Nameless α} (h : u ∈ t.pieces) : u.bulk < t.bulk := by
  have hflat : t.isFlat = true := by
    cases t <;> simp_all [pieces, isFlat]
  unfold bulk
  refine sizeOf_lt_of_mem_pieces ?_
  rw [pieces_graft _ _ hflat fun _ _ => rfl]
  exact List.mem_map_of_mem h

theorem bulk_openAt_lt {α : Type} {n : Nat} {vs : List (Nameless α)} (hvs : ∀ v ∈ vs, ∃ x, v = .free x)
    (t : Nameless α) : (t.openAt 0 vs).bulk < (Nameless.generic n t).bulk := by
  have hopen : ((t.openAt 0 vs).graft (fun _ _ => .bound 0) fun _ _ => .bound 0 : Nameless α) =
      t.graft (fun _ _ => .bound 0) fun _ _ => .bound 0 := by
    rw [openAt, graft_graft]
    congr 1
    funext d i
    rcases opened_mem_or 0 d i vs with h | h
    · rw [h]
      rfl
    · obtain ⟨x, hx⟩ := hvs _ h
      rw [hx]
      rfl
  unfold bulk
  rw [hopen, graft_generic, generic.sizeOf_spec]
  omega

theorem Part.bulk_lt {n m : Nat} {t u : Nameless Nat} (h : Part n t m u) : u.bulk < t.bulk := by
  cases h with
  | elem => exact bulk_lt_of_mem_pieces (List.mem_singleton_self _)
  | param hp => exact bulk_lt_of_mem_pieces (mem_pieces_func.2 (.inr ⟨_, hp, rfl⟩))
  | result => exact bulk_lt_of_mem_pieces (mem_pieces_func.2 (.inl rfl))
  | property hp => exact bulk_lt_of_mem_pieces (mem_pieces_object.2 ⟨_, hp, rfl⟩)
  | variant hv hp => exact bulk_lt_of_mem_pieces (mem_pieces_union.2 ⟨_, hv, _, hp, rfl⟩)
  | body => exact bulk_openAt_lt (fun v hv => (mem_levels hv).imp fun _ h => h.1) _

namespace Comparison

/-! ### Matching heads -/

/-- The heads of the two types match, and the comparisons of their parts have the property. -/
inductive Meets (S : Comparison → Prop) : Comparison → Prop where
  | undefined {c : Comparison} (h : c.Trivial) : Meets S c
  | prim {n : Nat} {fit : Fit} (p : Prim) : Meets S ⟨n, fit, .prim p, .prim p⟩
  | free {n : Nat} {fit : Fit} (x : Nat) : Meets S ⟨n, fit, .free x, .free x⟩
  | container {n : Nat} {fit : Fit} {k : Container} {e a : Nameless Nat} (h : S ⟨n, fit, e, a⟩) :
    Meets S ⟨n, fit, .container k e, .container k a⟩
  | funcExact {n : Nat} {ps qs : List (Name × Nameless Nat)} {r s : Nameless Nat}
    (hps : List.Forall₂ (fun p q => S ⟨n, .exact, p.2, q.2⟩) ps qs) (hr : S ⟨n, .exact, r, s⟩) :
    Meets S ⟨n, .exact, .func ps r, .func qs s⟩
  | funcWide {n : Nat} {ps qs : List (Name × Nameless Nat)} {r s : Nameless Nat}
    (hps : List.Forall₂ (fun p q => S ⟨n, .wide, q.2, p.2⟩) ps qs) (hr : S ⟨n, .wide, r, s⟩) :
    Meets S ⟨n, .wide, .func ps r, .func qs s⟩
  | object {n : Nat} {fit : Fit} {ps qs : List (Name × Nameless Nat)} (hcount : fit = .wide ∨ ps.length = qs.length)
    (hps : ∀ p ∈ ps, ∃ u, qs.lookup p.1 = some u ∧ S ⟨n, fit, p.2, u⟩) : Meets S ⟨n, fit, .object ps, .object qs⟩
  | union {n : Nat} {fit : Fit} {vs ws : List (Name × List (Name × Nameless Nat))} (hcount : vs.length = ws.length)
    (hvs : ∀ v ∈ vs, ∃ qs, ws.lookup v.1 = some qs ∧ v.2.length = qs.length ∧
      ∀ p ∈ v.2, ∃ u, qs.lookup p.1 = some u ∧ S ⟨n, .exact, p.2, u⟩) : Meets S ⟨n, fit, .union vs, .union ws⟩
  | generic {n m : Nat} {fit : Fit} {e a : Nameless Nat}
    (h : S ⟨n + m, fit, e.openAt 0 (levels n m), a.openAt 0 (levels n m)⟩) :
    Meets S ⟨n, fit, .generic m e, .generic m a⟩

variable {S : Comparison → Prop} {c : Comparison}

private theorem forall_offered_iff {τ : Type} {part : τ → τ → List (Option Comparison)} {ps qs : List (Name × τ)} :
    (∀ o ∈ offered part ps qs, ∃ d, o = some d ∧ S d) ↔
      ∀ p ∈ ps, ∃ u, qs.lookup p.1 = some u ∧ ∀ o ∈ part p.2 u, ∃ d, o = some d ∧ S d := by
  constructor
  · intro h p hp
    have hnone : none ∉ offered part ps qs := by
      intro hn
      obtain ⟨d, hd, -⟩ := h none hn
      cases hd
    obtain ⟨u, hu, -⟩ := exists_lookup_of_offered hnone hp
    exact ⟨u, hu, fun o ho => h o (mem_offered.2 ⟨p, hp, .inl ⟨u, hu, ho⟩⟩)⟩
  · intro h o ho
    obtain ⟨p, hp, hcases⟩ := mem_offered.1 ho
    obtain ⟨u, hu, hall⟩ := h p hp
    rw [hu] at hcases
    rcases hcases with ⟨v, hv, ho⟩ | ⟨hnone, -⟩
    · exact hall o (Option.some.inj hv ▸ ho)
    · cases hnone

private theorem forall_ite_iff {p : Prop} [Decidable p] {os : List (Option Comparison)} :
    (∀ o ∈ (if p then os else [none]), ∃ d, o = some d ∧ S d) ↔ p ∧ ∀ o ∈ os, ∃ d, o = some d ∧ S d := by
  split
  · rename_i h
    simp [h]
  · rename_i h
    simp [h]

private theorem forall_row_iff {ps qs : List (Name × Nameless Nat)} :
    (∀ o ∈ c.rowParts ps qs, ∃ d, o = some d ∧ S d) ↔
      ps.length = qs.length ∧ ∀ p ∈ ps, ∃ u, qs.lookup p.1 = some u ∧ S ⟨c.depth, .exact, p.2, u⟩ := by
  rw [rowParts, forall_ite_iff, forall_offered_iff]
  simp [part]

private theorem forall_params_iff {ps qs : List (Name × Nameless Nat)} :
    (ps.length = qs.length ∧ ∀ o ∈ (ps.zip qs).map fun p => some (c.param p.1.2 p.2.2), ∃ d, o = some d ∧ S d) ↔
      List.Forall₂ (fun p q => S (c.param p.2 q.2)) ps qs := by
  rw [List.forall₂_iff_zip]
  refine and_congr_right fun _ => ?_
  simp only [List.forall_mem_map, Option.some.injEq, exists_eq_left', Prod.forall]

/-- The heads match when the types are trivial, or all comparisons that are asked have the property. -/
theorem meets_iff : Meets S c ↔ c.Trivial ∨ ∀ o ∈ c.parts, ∃ d, o = some d ∧ S d := by
  constructor
  · intro h
    refine or_iff_not_imp_left.2 fun ht => ?_
    cases h with
    | undefined h => exact absurd h ht
    | prim p => simp [parts]
    | free x => simp [parts]
    | container h => simpa [parts, part] using h
    | funcExact hps hr =>
      obtain ⟨hl, hall⟩ := forall_params_iff (c := ⟨_, .exact, .func _ _, .func _ _⟩).2 hps
      rw [parts, forall_ite_iff, List.forall_mem_append]
      exact ⟨hl, hall, by simpa [part] using hr⟩
    | funcWide hps hr =>
      obtain ⟨hl, hall⟩ := forall_params_iff (c := ⟨_, .wide, .func _ _, .func _ _⟩).2 hps
      rw [parts, forall_ite_iff, List.forall_mem_append]
      exact ⟨hl, hall, by simpa [part] using hr⟩
    | object hcount hps =>
      rw [parts, forall_ite_iff, forall_offered_iff]
      exact ⟨hcount, by simpa [part] using hps⟩
    | union hcount hvs =>
      rw [parts, forall_ite_iff, forall_offered_iff]
      exact ⟨hcount, fun v hv => (hvs v hv).imp fun qs hqs => ⟨hqs.1, forall_row_iff.2 hqs.2⟩⟩
    | generic h => simpa [parts] using h
  · rintro (ht | h)
    · exact .undefined ht
    obtain ⟨n, fit, e, a⟩ := c
    cases e <;> cases a
    case prim.prim p q =>
      obtain ⟨rfl, -⟩ := forall_ite_iff.1 h
      exact .prim p
    case container.container k e l a =>
      obtain ⟨rfl, h⟩ := forall_ite_iff.1 h
      exact .container (by simpa [part] using h)
    case func.func ps r qs s =>
      obtain ⟨hl, h⟩ := forall_ite_iff.1 h
      obtain ⟨hps, hr⟩ := List.forall_mem_append.1 h
      have hps' := forall_params_iff.1 ⟨hl, hps⟩
      cases fit with
      | exact => exact .funcExact hps' (by simpa [part] using hr)
      | wide => exact .funcWide hps' (by simpa [part] using hr)
    case object.object ps qs =>
      obtain ⟨hcount, h⟩ := forall_ite_iff.1 h
      exact .object hcount (by simpa [part] using forall_offered_iff.1 h)
    case union.union vs ws =>
      obtain ⟨hcount, h⟩ := forall_ite_iff.1 h
      exact .union hcount fun v hv => (forall_offered_iff.1 h v hv).imp fun qs hqs =>
        ⟨hqs.1, forall_row_iff.1 hqs.2⟩
    case generic.generic m e l a =>
      obtain ⟨rfl, h⟩ := forall_ite_iff.1 h
      exact .generic (by simpa using h)
    case free.free x y =>
      obtain ⟨rfl, -⟩ := forall_ite_iff.1 h
      exact .free x
    all_goals
      obtain ⟨d, hd, -⟩ := h none (List.mem_singleton_self _)
      cases hd

theorem Meets.mono {T : Comparison → Prop} (h : Meets S c) (hS : ∀ d, some d ∈ c.parts → S d → T d) :
    Meets T c := by
  refine meets_iff.2 ((meets_iff.1 h).imp_right fun hall o ho => ?_)
  obtain ⟨d, rfl, hd⟩ := hall o ho
  exact ⟨d, rfl, hS d ho hd⟩

/-! ### The greatest property -/

/-- However many unrollings are made, the actual type fits where the expected one is required. -/
def Agrees (c : Comparison) : Prop :=
  ∀ k, Agree k c

theorem unrolled_of_not_headed (h : c.headed = false) : c.unrolled = c := by
  obtain ⟨he, ha⟩ := Bool.or_eq_false_iff.1 h
  obtain ⟨n, fit, e, a⟩ := c
  exact congrArg₂ (Comparison.mk n fit) (unroll_of_isMu_eq_false he) (unroll_of_isMu_eq_false ha)

theorem Sound.headed_unrolled (h : c.Sound) : c.unrolled.headed = false := by
  show (c.expected.unroll.isMu || c.actual.unroll.isMu) = false
  rw [h.expected.isMu_unroll, h.actual.isMu_unroll]
  rfl

theorem Trivial.unrolled (h : c.Trivial) : c.unrolled.Trivial := by
  refine h.imp (fun he => ?_) fun ha => ?_
  · exact (congrArg Nameless.unroll he).trans rfl
  · exact (congrArg Nameless.unroll ha).trans rfl

/-- Unrolling does not change whether a comparison holds. -/
theorem agrees_unrolled : c.unrolled.Agrees ↔ c.Agrees := by
  by_cases hh : c.headed = true
  · by_cases ht : c.Trivial
    · exact iff_of_true (fun k => .trivial ht.unrolled) fun k => .trivial ht
    · refine ⟨fun hall k => ?_, fun hall k => (hall (k + 1)).of_headed ht hh⟩
      exact (Agree.unrolled hh (hall k)).anti (Nat.le_succ k)
  · rw [unrolled_of_not_headed (Bool.of_not_eq_true hh)]

/-- What agrees has matching heads, and its parts agree. -/
theorem Agrees.meets (hall : c.Agrees) (hc : c.Sound) : Meets Agrees c.unrolled := by
  replace hall := agrees_unrolled.2 hall
  refine meets_iff.2 (or_iff_not_imp_left.2 fun ht o ho => ?_)
  have hparts := fun k => (hall (k + 1)).of_parts ht hc.headed_unrolled
  cases o with
  | none => exact absurd ho (hparts 0).1
  | some d => exact ⟨d, rfl, fun k => ((hparts k).2 d ho).anti (Nat.le_succ k)⟩

/-- The size of a comparison, which bounds the way to the next recursive types. -/
private noncomputable def bulk (c : Comparison) : Nat :=
  c.expected.bulk + c.actual.bulk

private theorem bulk_lt_of_mem_parts {d : Comparison} (h : some d ∈ c.parts) : d.bulk < c.bulk := by
  unfold bulk
  rcases part_of_mem_parts h with ⟨he, ha⟩ | ⟨he, ha⟩
  · have := he.bulk_lt
    have := ha.bulk_lt
    omega
  · have := he.bulk_lt
    have := ha.bulk_lt
    omega

/-- A property agrees with which the heads match, and which the comparisons of parts have again. -/
theorem agrees_of_meets (hS : ∀ c, c.Sound → S c → Meets S c.unrolled) (hc : c.Sound) (h : S c) : c.Agrees := by
  intro k
  induction k generalizing c with
  | zero => exact .start c
  | succ k ihk =>
    induction hn : c.bulk using Nat.strongRecOn generalizing c with
    | ind n ih =>
      have hmeets := meets_iff.1 (hS c hc h)
      by_cases hh : c.headed = true
      · -- the parts of the unrolled types are compared with one unrolling less
        refine .unrolled hh ?_
        rcases hmeets with ht | hparts
        · exact .trivial ht
        · refine .parts hc.headed_unrolled (fun hnone => ?_) fun d hd => ?_
          · obtain ⟨d, hd, -⟩ := hparts none hnone
            cases hd
          · obtain ⟨d', hd', hSd⟩ := hparts _ hd
            exact ihk (hc.unrolled.of_mem_parts hd) (Option.some.inj hd' ▸ hSd)
      · have hh : c.headed = false := Bool.of_not_eq_true hh
        rw [unrolled_of_not_headed hh] at hmeets
        rcases hmeets with ht | hparts
        · exact .trivial ht
        · refine .parts hh (fun hnone => ?_) fun d hd => ?_
          · obtain ⟨d, hd, -⟩ := hparts none hnone
            cases hd
          · obtain ⟨d', hd', hSd⟩ := hparts _ hd
            exact ih d.bulk (hn ▸ bulk_lt_of_mem_parts hd) (hc.of_mem_parts hd) (Option.some.inj hd' ▸ hSd) rfl

end Comparison

end MuTypes.Nameless
