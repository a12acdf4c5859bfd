import MuTypes.Proofs.Equirecursive
import MuTypes.Proofs.Twins

/-!
# Order laws of fitting

Types without generic types in them stand for regular trees.  On these an answer of the comparison does not depend on
the supply or on the fuel, and fitting is an order (`Regular.order_laws`): the exact one is symmetric and finer than
the wide one, and both are transitive as long as `undefined`, which fits everything, does not occur.
-/

namespace MuTypes.Ty

open Nameless NameSupply

/-- A well-formed type without generic types in it, whose free names are in the scope. -/
structure Regular (scope : List Name) (t : Ty) : Prop where
  wellFormed : t.WellFormed
  monomorphic : t.Monomorphic
  mem : ∀ x, t.mentions x = true → x ∈ scope

/-- Some comparison that is made with the types says yes. -/
def SaysYes (scope : List Name) (fit : Fit) (expected actual : Ty) : Prop :=
  ∃ (s : NameSupply) (fuel : Nat), s.AheadOfTy expected ∧ s.AheadOfTy actual ∧
    ((fits fuel scope fit expected actual).run.run s).1 = .ok true

/-- Each comparison that is made with the types says yes, with enough fuel. -/
def AlwaysAccepts (scope : List Name) (fit : Fit) (expected actual : Ty) : Prop :=
  ∀ s : NameSupply, s.AheadOfTy expected → s.AheadOfTy actual → Accepts scope fit expected actual s

/-- The comparison of the nameless forms in a scope. -/
def scopedComparison (scope : List Name) (fit : Fit) (e a : Ty) : Nameless.Comparison :=
  ⟨scope.length, fit, e.located scope.reverse, a.located scope.reverse⟩

theorem located_scoped (scope : List Name) (fit : Fit) (e a : Ty) :
    Comparison.located ⟨.ofScope scope, fit, e, a⟩ = scopedComparison scope fit e a :=
  Comparison.located_ofScope scope fit e a

/-- Types in order for a scope are sound there. -/
theorem InOrder.sound_scoped {scope : List Name} {e a : Ty} {s s' : NameSupply} (he : e.InOrder scope s)
    (ha : a.InOrder scope s') (fit : Fit) : (scopedComparison scope fit e a).Sound := by
  obtain ⟨r, hr⟩ := exists_aheadOf (e.typeNames ++ a.typeNames)
  have hready : Comparison.Ready ⟨.ofScope scope, fit, e, a⟩ r :=
    InOrder.ready { he with ahead := fun x hx => hr x (List.mem_append_left _ hx) }
      { ha with ahead := fun x hx => hr x (List.mem_append_right _ hx) } fit
  rw [← located_scoped]
  exact hready.sound

theorem lacks_located {t : Ty} (h : t.bare.Lacks .undefined) (ctx : List Name) : (t.located ctx).Lacks .undefined :=
  lacks_graft (fun _ i => .bound i) (fun _ _ => .free _) h

namespace Regular

variable {scope : List Name} {fit : Fit} {e a b c : Ty}

theorem inOrder (h : a.Regular scope) {s : NameSupply} (hs : s.AheadOfTy a) : a.InOrder scope s :=
  ⟨h.wellFormed, h.mem, hs⟩

private theorem sound (he : e.Regular scope) (ha : a.Regular scope) : (scopedComparison scope fit e a).Sound := by
  obtain ⟨s, hs⟩ := exists_aheadOf e.typeNames
  obtain ⟨s', hs'⟩ := exists_aheadOf a.typeNames
  exact (he.inOrder hs).sound_scoped (ha.inOrder hs') fit

private theorem agrees_of_saysYes (he : e.Regular scope) (ha : a.Regular scope) (h : SaysYes scope fit e a) :
    (scopedComparison scope fit e a).Agrees := by
  obtain ⟨s, fuel, hse, hsa, hrun⟩ := h
  have hready := (he.inOrder hse).ready (ha.inOrder hsa) fit
  have hmono : Comparison.MonomorphicIn scope ⟨.ofScope scope, fit, e, a⟩ :=
    ⟨rfl, he.monomorphic.bare, ha.monomorphic.bare⟩
  rw [← located_scoped]
  exact hmono.agree_of_fits hready hrun

/-- Types are accepted when their nameless forms agree. -/
theorem alwaysAccepts_of_agrees (he : e.Regular scope) (ha : a.Regular scope)
    (h : (scopedComparison scope fit e a).Agrees) : AlwaysAccepts scope fit e a := by
  intro s hse hsa
  have hready := (he.inOrder hse).ready (ha.inOrder hsa) fit
  rw [← located_scoped] at h
  exact accepts_of_settles hready (Monomorphic.settles hready false he.monomorphic) h

/-- Fitting is reflexive; the exact one is symmetric and finer than the wide one; and both are transitive among types
without `undefined`.  Whenever some comparison says that one type fits, all do. -/
theorem order_laws (ha : a.Regular scope) (hb : b.Regular scope) (hc : c.Regular scope) :
    (SaysYes scope .exact a b → AlwaysAccepts scope .exact b a ∧ AlwaysAccepts scope .wide a b) ∧
    (a.bare.Lacks .undefined → b.bare.Lacks .undefined → c.bare.Lacks .undefined →
      ∀ fit, SaysYes scope fit a b → SaysYes scope fit b c → AlwaysAccepts scope fit a c) ∧
    ∀ fit, AlwaysAccepts scope fit a a ∧ (SaysYes scope fit a b → AlwaysAccepts scope fit a b) := by
  refine ⟨fun hab => ?_, fun hla hlb hlc fit hab hbc => ?_, fun fit => ⟨fun s hs _ => ?_, fun hab => ?_⟩⟩
  · have hagrees := agrees_of_saysYes ha hb hab
    exact ⟨alwaysAccepts_of_agrees hb ha (hagrees.symm (sound ha hb)),
      alwaysAccepts_of_agrees ha hb (hagrees.of_exact (sound ha hb) .wide)⟩
  · have hagrees := agrees_of_saysYes ha hb hab
    have hagrees' := agrees_of_saysYes hb hc hbc
    exact alwaysAccepts_of_agrees ha hc (hagrees.trans hagrees' (sound ha hb) (sound hb hc) (lacks_located hla _)
      (lacks_located hlb _) (lacks_located hlc _))
  · exact ((ha.inOrder hs).interchangeable fit).1 s hs hs |>.1
  · exact alwaysAccepts_of_agrees ha hb (agrees_of_saysYes ha hb hab)

end Regular

/-- `mu F. (x: F) => F`. -/
def feedback : Ty :=
  .mu "F" (.func [("x", .var "F")] (.var "F"))

/-- `mu G. (x: G) => (x: G) => G`, in which the result has one more step before it comes back. -/
def lateResult : Ty :=
  .mu "G" (.func [("x", .var "G")] (.func [("x", .var "G")] (.var "G")))

/-- `mu H. (x: (x: H) => H) => H`, in which the parameter has one more step before it comes back. -/
def lateParameter : Ty :=
  .mu "H" (.func [("x", .func [("x", .var "H")] (.var "H"))] (.var "H"))

private theorem monomorphic_func {x : Name} {t r : Ty} (ht : t.Monomorphic) (hr : r.Monomorphic) :
    (Ty.func [(x, t)] r).Monomorphic :=
  .func (List.forall_mem_singleton.2 ht) hr

theorem regular_feedback : feedback.Regular [] :=
  ⟨by decide, .mu (monomorphic_func (.var _) (.var _)), mentions_mem_of_freeNames (by decide)⟩

theorem regular_lateResult : lateResult.Regular [] :=
  ⟨by decide, .mu (monomorphic_func (.var _) (monomorphic_func (.var _) (.var _))),
    mentions_mem_of_freeNames (by decide)⟩

theorem regular_lateParameter : lateParameter.Regular [] :=
  ⟨by decide, .mu (monomorphic_func (monomorphic_func (.var _) (.var _)) (.var _)),
    mentions_mem_of_freeNames (by decide)⟩

/-- The unrollings of these types come back after different numbers of steps, and the exact comparison of the two
slower ones follows from those with the fast one. -/
theorem order_laws_feedback :
    (SaysYes [] .exact lateResult feedback ∧ SaysYes [] .exact feedback lateParameter) ∧
      AlwaysAccepts [] .exact lateResult lateParameter ∧ AlwaysAccepts [] .exact feedback lateResult ∧
        AlwaysAccepts [] .wide lateResult feedback := by
  have hyes : SaysYes [] .exact lateResult feedback :=
    ⟨{}, 10, aheadOfTy_of_at_sign_not_mem (by decide) _, aheadOfTy_of_at_sign_not_mem (by decide) _, by cbv⟩
  have hyes' : SaysYes [] .exact feedback lateParameter :=
    ⟨{}, 10, aheadOfTy_of_at_sign_not_mem (by decide) _, aheadOfTy_of_at_sign_not_mem (by decide) _, by cbv⟩
  have hlacks : ∀ {t : Nameless Name}, t.Lacks .undefined → ∀ p ∈ [("x", t)], p.2.Lacks .undefined :=
    fun ht => List.forall_mem_singleton.2 ht
  obtain ⟨hsymm, htrans, -⟩ := Regular.order_laws regular_lateResult regular_feedback regular_lateParameter
  refine ⟨⟨hyes, hyes'⟩, htrans ?_ ?_ ?_ .exact hyes hyes', hsymm hyes⟩
  · exact .mu (.func (hlacks (.bound 0)) (.func (hlacks (.bound 0)) (.bound 0)))
  · exact .mu (.func (hlacks (.bound 0)) (.bound 0))
  · exact .mu (.func (hlacks (.func (hlacks (.bound 0)) (.bound 0))) (.bound 0))

end MuTypes.Ty
