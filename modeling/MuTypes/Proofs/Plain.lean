import MuTypes.Proofs.Comparison

/-!
# Comparing without assumptions

`Ty.plain k` compares two types like `fits`, but closes no cycle: it unrolls every recursive type that it meets and
answers yes after `k` unrollings.  It always returns, and its answers for all `k` together say whether the infinite
unrollings fit (`plain_returns`).
-/

namespace MuTypes.Ty

open NameSupply

/-- `plain` for types of heights up to the bound together, which leaves a comparison of unrolled types to `next`. -/
def plainWithin (next : Binders → Fit → Ty → Ty → CompareM Bool) :
    Nat → Binders → Fit → Ty → Ty → CompareM Bool
  | 0, _, _, _, _ => throw .unfinished
  | n + 1, bs, fit, expected, actual =>
    if expected = .undefined ∨ actual = .undefined then
      return true
    else if expected.isMu || actual.isMu then do
      next bs fit (← expected.unrolled) (← actual.unrolled)
    else
      shapesFit (plainWithin next n) bs fit expected actual

/-- Does `actual` fit where `expected` is required, as far as `k` unrollings on each path show? -/
def plain : Nat → Binders → Fit → Ty → Ty → CompareM Bool
  | 0, _, _, _, _ => return true
  | k + 1, bs, fit, expected, actual => plainWithin (plain k) (expected.height + actual.height) bs fit expected actual

/-- One more unrolling settles what the types unrolled settle with one less. -/
private theorem plainWithin_returns {k : Nat}
    (ih : ∀ {c : Comparison} {s : NameSupply}, c.Ready s →
      s.Returns (plain k c.binders c.fit c.expected c.actual) fun b _ => (b = true ↔ c.Agree k))
    {n : Nat} {c : Comparison} {s : NameSupply} (hc : c.Ready s) (hn : c.height ≤ n) :
    s.Returns (plainWithin (plain k) n c.binders c.fit c.expected c.actual) fun b _ =>
      (b = true ↔ c.Agree (k + 1)) := by
  induction n generalizing c s with
  | zero =>
    have := c.expected.height_pos
    simp only [Comparison.height] at hn
    omega
  | succ n ihn =>
    unfold plainWithin
    split
    · rename_i ht
      exact .pure (iff_of_true rfl (.trivial (Comparison.Ready.trivial_located.2 ht)))
    · rename_i ht
      split
      · rename_i hh
        rw [Comparison.unrollHeads_bind]
        refine hc.unrollHeads_returns.bind fun d t _ hd => ?_
        obtain ⟨hready, hlocated, -⟩ := hd
        exact (ih hready).mono fun b _ _ hb => hb.trans (Comparison.agree_iff_unrolled hlocated ht hh).symm
      · rename_i hh
        refine (Comparison.shapesFit_returns hc.toScoped (P := fun d => d.Agree (k + 1)) fun d hd t ht => ?_).mono
          fun b _ _ hb => hb.trans (hc.agree_iff_parts ht (Bool.of_not_eq_true hh)).symm
        have hpart := Comparison.partOf_of_mem_parts hd
        have hlt := hpart.height_lt
        exact ihn ((hc.partOf hpart).mono ht) (by omega)

/-- The plain comparison returns, and its answer is the agreement of the types up to `k` unrollings. -/
theorem plain_returns (k : Nat) {c : Comparison} {s : NameSupply} (hc : c.Ready s) :
    s.Returns (plain k c.binders c.fit c.expected c.actual) fun b _ => (b = true ↔ c.Agree k) := by
  induction k generalizing c s with
  | zero => exact .pure (iff_of_true rfl (.start _))
  | succ k ih => exact plainWithin_returns ih hc (Nat.le_refl _)

/-- The answer of the plain comparison, started from a supply. -/
theorem plain_run (k : Nat) {c : Comparison} {s : NameSupply} (hc : c.Ready s) :
    ∃ b, ((plain k c.binders c.fit c.expected c.actual).run.run s).1 = .ok b ∧ (b = true ↔ c.Agree k) :=
  (plain_returns k hc).2

theorem plain_eq_true_iff (k : Nat) {c : Comparison} {s : NameSupply} (hc : c.Ready s) :
    ((plain k c.binders c.fit c.expected c.actual).run.run s).1 = .ok true ↔ c.Agree k := by
  obtain ⟨b, hb, hagree⟩ := plain_run k hc
  rw [hb, ← hagree, Except.ok.injEq]

theorem plain_eq_false_iff (k : Nat) {c : Comparison} {s : NameSupply} (hc : c.Ready s) :
    ((plain k c.binders c.fit c.expected c.actual).run.run s).1 = .ok false ↔ ¬ c.Agree k := by
  obtain ⟨b, hb, hagree⟩ := plain_run k hc
  rw [hb, ← hagree, Except.ok.injEq, Bool.not_eq_true]

end MuTypes.Ty
