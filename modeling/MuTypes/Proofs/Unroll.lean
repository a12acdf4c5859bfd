import MuTypes.Proofs.Substitution

/-!
# What unrolling does to nameless forms

Unrolling a type unrolls its nameless form (`unrollOnce_yields`), and a well-formed type has an unrolling, which is
not headed by a recursive binder (`unroll_yields`).
-/

namespace MuTypes.Ty

open Nameless NameSupply

/-- Binding a label and opening the binder puts a type for the label. -/
theorem openAt_enclose {x : Name} {n v : Nameless Name} (hn : n.ClosedAt 0) :
    (n.enclose [x]).openAt 0 [v] = n.put x v := by
  rw [enclose, openAt, graft_graft, put]
  refine graft_congr (Leaves.mono hn (fun d i hi => ?_) fun d y _ => ?_)
  · rw [graft_bound, opened, if_pos (by omega)]
  · by_cases hy : y = x
    · subst hy
      simp [leafBelow, place, opened]
    · rw [leafBelow_of_not_mem (by simpa using hy), graft_free, if_neg hy]

theorem muCount_nameless (ctx : List Name) (t : Ty) : (t.nameless ctx).muCount = t.muNames.length := by
  induction t generalizing ctx with
  | mu x b ih => exact congrArg (· + 1) (ih (x :: ctx))
  | var x =>
    rw [nameless_var, leaf]
    cases place ctx x <;> rfl
  | func ps r => rw [nameless_func]; rfl
  | object ps => rw [nameless_object]; rfl
  | union vs => rw [nameless_union]; rfl
  | _ => rfl

theorem unrollOnce_yields {t : Ty} {n : Nameless Name} {s : NameSupply} (ht : t.Spells n s) :
    s.Yields t.unrollOnce fun t' s' => t'.Spells n.unrollOnce s' := by
  obtain ⟨rfl, hd, hs⟩ := ht
  cases t with
  | mu x b =>
    have hb : b.Spells b.bare s := by
      cases hd with
      | mu hb => exact ⟨rfl, hb, fun y hy => hs y (mem_typeNames_mu.2 (.inr hy))⟩
    have hput : (Ty.mu x b).bare.unrollOnce = b.bare.put x (Ty.mu x b).bare := by
      rw [← openAt_enclose (closedAt_nameless [] b), ← nameless_eq_enclose]
      rfl
    rw [hput]
    exact subst_yields (hs x (mem_typeNames_mu.2 (.inl rfl))) ⟨rfl, hd, hs⟩ hb
  | func ps r => exact .pure ⟨by rw [bare_func]; rfl, hd, hs⟩
  | object ps => exact .pure ⟨by rw [bare_object]; rfl, hd, hs⟩
  | union vs => exact .pure ⟨by rw [bare_union]; rfl, hd, hs⟩
  | var x => exact .pure ⟨by rw [bare_var]; rfl, hd, hs⟩
  | _ => exact .pure ⟨rfl, hd, hs⟩

/-- Well-formed types unroll to types that are not headed by a recursive binder. -/
theorem unroll_yields {t : Ty} {n : Nameless Name} {s : NameSupply} (hn : n.Sound) (ht : t.Spells n s) :
    s.Yields t.unroll fun o s' => ∃ t', o = some t' ∧ t'.isMu = false ∧ t'.Spells n.unroll s' := by
  have hwithin : ∀ k, n.muCount = k →
      s.Yields (unrollWithin k t) fun o s' => ∃ t', o = some t' ∧ t'.isMu = false ∧ t'.Spells n.unroll s' := by
    intro k hk
    induction k generalizing t n s with
    | zero =>
      have hmu : t.isMu = false := by
        rw [← isMu_nameless [], show t.nameless [] = n from ht.bare]
        exact isMu_eq_false_iff.2 hk
      rw [unrollWithin, hmu]
      refine .pure ⟨t, rfl, hmu, ?_⟩
      rwa [unroll_of_isMu_eq_false (isMu_eq_false_iff.2 hk)]
    | succ k ih =>
      have hmu : t.isMu = true := by
        rw [← isMu_nameless [], show t.nameless [] = n from ht.bare]
        exact Bool.of_not_eq_false fun h => by simp [isMu_eq_false_iff.1 h] at hk
      rw [unrollWithin, if_pos hmu]
      refine (unrollOnce_yields ht).bind fun t' s' _ ht' => ?_
      have hnext := ih hn.unrollOnce ht' (by rw [hn.muCount_unrollOnce, hk, Nat.add_sub_cancel])
      rwa [hn.unroll_unrollOnce] at hnext
  have hlength : t.muNames.length = n.muCount := by
    rw [← ht.bare, muCount_nameless]
  rw [Ty.unroll, hlength]
  exact hwithin n.muCount rfl

end MuTypes.Ty
