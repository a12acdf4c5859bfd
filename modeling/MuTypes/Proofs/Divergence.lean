import MuTypes.Proofs.Cycles
import MuTypes.Proofs.Monomorphic
import MuTypes.Proofs.Resolution

/-!
# Comparisons that do not end

The types that annotations mean are in order, so comparing two of them ends unless there is an endless walk, and on
one of these both sides mention ever new names (`resolved_settles_or_endless`).  There is none when on one side no
generic type stands inside a recursive one (`Stratified.settles`): such a path comes to a type without generic types
after finitely many steps (`Path.exists_monomorphic`), and from then on no names come up.

Otherwise there may be one (`resolved_not_settles`).  A recursive type that mentions `X` below a binder `X` of its own
gives that binder a new name whenever it is unrolled.  When the two sides reach that binder alternately, each of them
is compared with what the other one has just brought in, and no comparison comes twice.
-/

namespace MuTypes

open NameSupply

namespace Nameless

variable {α : Type}

/-- No generic type stands inside a recursive one. -/
inductive Stratified : Nameless α → Prop where
  | monomorphic {t : Nameless α} (h : t.Monomorphic) : Stratified t
  | flat {t : Nameless α} (hflat : t.isFlat = true) (h : ∀ u ∈ t.pieces, Stratified u) : Stratified t
  | generic {n : Nat} {b : Nameless α} (hb : Stratified b) : Stratified (.generic n b)

/-- Labels put for loose variables leave a type monomorphic. -/
private theorem Monomorphic.openAt {t : Nameless α} (h : t.Monomorphic) {vs : List (Nameless α)}
    (hvs : ∀ v ∈ vs, v.Monomorphic) : (t.openAt 0 vs).Monomorphic := by
  refine monomorphic_graft (fun d i => ?_) (fun _ x => .free x) h
  rcases opened_mem_or 0 d i vs with hi | hi
  · rw [hi]
    exact .bound i
  · exact hvs _ hi

private theorem Path.exists_monomorphic_of_openAt {t : Nameless α} (ht : t.Stratified) {vs : List (Nameless α)}
    {p : Nat → Nameless α} (hvs : ∀ v ∈ vs, ∃ x, v = .free x) (hp : Path p) (h0 : p 0 = t.openAt 0 vs) :
    ∃ n, (p n).Monomorphic := by
  induction ht generalizing vs p with
  | monomorphic h =>
    refine ⟨0, h0 ▸ h.openAt fun v hv => ?_⟩
    obtain ⟨x, rfl⟩ := hvs v hv
    exact .free x
  | flat hflat h ih =>
    obtain ⟨u, hu, hnext⟩ := child_openAt hflat (h0 ▸ hp 0)
    obtain ⟨n, hn⟩ := ih u hu hvs (hp.tail 1) hnext
    exact ⟨n + 1, hn⟩
  | generic hb ih =>
    have hclosed : ∀ v ∈ vs, v.ClosedAt 0 := by
      intro v hv
      obtain ⟨x, rfl⟩ := hvs v hv
      exact trivial
    obtain ⟨xs, -, hnext⟩ := child_openAt_generic hclosed (h0 ▸ hp 0)
    -- the variables of the binder get labels, so all that is put into the body is a label again
    have hlabels : ∀ v ∈ xs.map Nameless.free ++ vs, ∃ x, v = .free x := by
      intro v hv
      rcases List.mem_append.1 hv with hv | hv
      · obtain ⟨x, -, rfl⟩ := List.mem_map.1 hv
        exact ⟨x, rfl⟩
      · exact hvs v hv
    obtain ⟨n, hn⟩ := ih hlabels (hp.tail 1) hnext
    exact ⟨n + 1, hn⟩

/-- A path that starts with a stratified type comes to a monomorphic one. -/
theorem Path.exists_monomorphic {p : Nat → Nameless α} (hp : Path p) (h : (p 0).Stratified)
    (hc : (p 0).ClosedAt 0) : ∃ n, (p n).Monomorphic :=
  hp.exists_monomorphic_of_openAt h (by simp) (openAt_of_closedAt hc []).symm

end Nameless

namespace Ty

open Nameless

/-! ### Where no walk is endless -/

/-- No generic type stands inside a recursive one. -/
inductive Stratified : Ty → Prop where
  | prim (p : Prim) : Stratified (.prim p)
  | container {k : Container} {e : Ty} (he : Stratified e) : Stratified (.container k e)
  | func {ps : Row} {r : Ty} (hps : ∀ p ∈ ps, Stratified p.2) (hr : Stratified r) : Stratified (.func ps r)
  | object {ps : Row} (hps : ∀ p ∈ ps, Stratified p.2) : Stratified (.object ps)
  | union {vs : Variants} (hvs : ∀ v ∈ vs, ∀ p ∈ v.2, Stratified p.2) : Stratified (.union vs)
  | mu {n : Name} {b : Ty} (hb : Monomorphic b) : Stratified (.mu n b)
  | generic {ns : List Name} {b : Ty} (hb : Stratified b) : Stratified (.generic ns b)
  | var (x : Name) : Stratified (.var x)

theorem Monomorphic.stratified {t : Ty} (h : t.Monomorphic) : t.Stratified := by
  induction h with
  | prim p => exact .prim p
  | container _ ih => exact .container ih
  | func _ _ ihps ihr => exact .func ihps ihr
  | object _ ih => exact .object ih
  | union _ ih => exact .union ih
  | mu hb _ => exact .mu hb
  | var x => exact .var x

theorem Stratified.nameless {t : Ty} (h : t.Stratified) (ctx : List Name) : (t.nameless ctx).Stratified := by
  induction h generalizing ctx with
  | prim p => exact .monomorphic (.prim p)
  | container _ ih =>
    refine .flat rfl fun u hu => ?_
    obtain rfl := List.mem_singleton.1 hu
    exact ih ctx
  | func _ _ ihps ihr =>
    rw [nameless_func]
    refine .flat rfl fun u hu => ?_
    rcases mem_pieces_func.1 hu with rfl | ⟨q, hq, rfl⟩
    · exact ihr ctx
    · obtain ⟨p, hp, rfl⟩ := List.mem_map.1 hq
      exact ihps p hp ctx
  | object _ ih =>
    rw [nameless_object]
    refine .flat rfl fun u hu => ?_
    obtain ⟨q, hq, rfl⟩ := mem_pieces_object.1 hu
    obtain ⟨p, hp, rfl⟩ := List.mem_map.1 hq
    exact ih p hp ctx
  | union _ ih =>
    rw [nameless_union]
    refine .flat rfl fun u hu => ?_
    obtain ⟨w, hw, q, hq, rfl⟩ := mem_pieces_union.1 hu
    obtain ⟨v, hv, rfl⟩ := List.mem_map.1 hw
    obtain ⟨p, hp, rfl⟩ := List.mem_map.1 hq
    exact ih v hv p hp ctx
  | @mu n b hb => exact .monomorphic (.mu (hb.nameless (n :: ctx)))
  | @generic ns b _ ih =>
    rw [nameless_generic]
    exact .generic (ih _)
  | var x =>
    rw [nameless_var, leaf]
    split
    · exact .monomorphic (.bound _)
    · exact .monomorphic (.free x)

/-- The walk from a comparison with a stratified type on one side is answered with enough fuel. -/
theorem Stratified.settles {p : Position} (hr : p.comparison.Ready p.supply) (right : Bool)
    (h : (p.side right).Stratified) : p.Settles := by
  refine (settles_iff_bounded hr).2 fun w h0 hw => ⟨right, ?_⟩
  subst h0
  have hpath := hw.path hr right
  obtain ⟨n, hn⟩ := hpath.exists_monomorphic (h.nameless []) (Position.side_sound hr right).closed
  -- the names met before the type without generic types, and those in it
  refine ⟨(List.range (n + 1)).flatMap fun i => ((w i).side right).freeNames, fun i x hx => ?_⟩
  have hmem : ∀ j, j ≤ n → ((w j).side right).mentions x = true →
      x ∈ (List.range (n + 1)).flatMap fun i => ((w i).side right).freeNames := by
    intro j hj hm
    exact List.mem_flatMap.2 ⟨j, List.mem_range.2 (by omega), mem_freeNames_iff.2 hm⟩
  by_cases hi : i ≤ n
  · exact hmem i hi hx
  · have hfrom : ∀ j, ((fun i => ((w i).side right).bare) (j + n)).Has x → ((w n).side right).bare.Has x := by
      intro j hj
      have hstart : ((w (0 + n)).side right).bare.Monomorphic := by rwa [Nat.zero_add]
      have hlabels := ((hpath.tail n).monomorphic hstart j).2 x hj
      rwa [Nat.zero_add] at hlabels
    have hhas : ((w i).side right).bare.Has x := has_nameless_iff.2 ⟨hx, List.not_mem_nil⟩
    have hlater := hfrom (i - n) (by rwa [Nat.sub_add_cancel (by omega)])
    exact hmem n (Nat.le_refl n) (has_nameless_iff.1 hlater).1

/-- The comparison of the types that two annotations mean ends with an answer, or it goes on for ever and meets ever
new names on both sides.  It ends when one of the types is stratified. -/
theorem resolved_settles_or_endless {aliases : Aliases} {l r : TyExpr} {e a : Ty} {s : NameSupply}
    (haliases : aliases.Unnumbered) (hl : l.Unnumbered) (hr : r.Unnumbered)
    (he : (l.resolve aliases []).result = .ok e) (ha : (r.resolve aliases []).result = .ok a)
    (hes : s.AheadOfTy e) (has : s.AheadOfTy a) (fit : Fit) :
    ((∃ n b t, ∀ m, n ≤ m → (fits m [] fit e a).run.run s = (.ok b, t)) ∨
      ∃ w, w 0 = ⟨[], ⟨.ofScope [], fit, e, a⟩, false, s⟩ ∧ Endless w ∧
        ∀ (right : Bool) (names : List Name), ∃ i x, ((w i).side right).mentions x = true ∧ x ∉ names) ∧
    (e.Stratified ∨ a.Stratified → ∃ n b t, ∀ m, n ≤ m → (fits m [] fit e a).run.run s = (.ok b, t)) := by
  obtain ⟨s₁, he⟩ := TyExpr.inOrder_of_resolve haliases hl he
  obtain ⟨s₂, ha⟩ := TyExpr.inOrder_of_resolve haliases hr ha
  let start : Position := ⟨[], ⟨.ofScope [], fit, e, a⟩, false, s⟩
  have hready : start.comparison.Ready start.supply :=
    Comparison.ready_ofScope he.wellFormed ha.wellFormed he.mem ha.mem hes has
  constructor
  · by_cases hsettles : start.Settles
    · exact .inl hsettles
    · rw [settles_iff hready] at hsettles
      obtain ⟨w, hw⟩ := not_forall.1 hsettles
      obtain ⟨h0, hw⟩ := Classical.not_imp.1 hw
      have hendless : Endless w := not_not.1 hw
      exact .inr ⟨w, h0, hendless, fun right names => hendless.mentions_new (h0 ▸ hready) right names⟩
  · rintro (h | h)
    · exact Stratified.settles hready false h
    · exact Stratified.settles hready true h

/-! ### A walk that is endless -/

/-- `mu R. { n: <X>{ n: <Z>R; x: X }; x: X }`. -/
def spiral : Ty :=
  .mu "R" (.object
    [("n", .generic ["X"] (.object [("n", .generic ["Z"] (.var "R")), ("x", .var "X")])), ("x", .var "X")])

/-- `{ n: <Z>spiral; x: y }`, which is what stands below the inner binder of the unrolled spiral. -/
def turn (y : Name) : Ty :=
  .object [("n", .generic ["Z"] spiral), ("x", .var y)]

/-- `<X>spiral`. -/
def spiralTop : Ty :=
  .generic ["X"] spiral

/-- `<X>{ n: <Z>spiral; x: X }`. -/
def turnTop : Ty :=
  .generic ["X"] (turn "X")

/-- An annotation that means `spiralTop`. -/
def spiralTop.annotation : TyExpr :=
  let node := TyExpr.mk ⟨0, 0⟩
  let inner := node (.object [("n", node (.generic ["Z"] (node (.ref "R")))), ("x", node (.ref "X"))])
  let outer := node (.object [("n", node (.generic ["X"] inner)), ("x", node (.ref "X"))])
  node (.generic ["X"] (node (.mu "R" outer)))

/-- An annotation that means `turnTop`. -/
def turnTop.annotation : TyExpr :=
  let node := TyExpr.mk ⟨0, 0⟩
  let inner := node (.object [("n", node (.generic ["Z"] (node (.ref "R")))), ("x", node (.ref "X"))])
  let outer := node (.object [("n", node (.generic ["X"] inner)), ("x", node (.ref "X"))])
  node (.generic ["X"] (node (.object
    [("n", node (.generic ["Z"] (node (.mu "R" outer)))), ("x", node (.ref "X"))])))

section Walk

variable {fuel : Nat} {assumed : List Assumption} {bs : Binders} {s : NameSupply} {y : Name}

/-- Unrolling gives the inner binder a new name. -/
private theorem unrolled_spiral (s : NameSupply) :
    spiral.unrolled.run.run s =
      (.ok (.object [("n", .generic [numbered "X" s.next] (turn (numbered "X" s.next))), ("x", .var "X")]),
        ⟨s.next + 1⟩) := by
  have hR : numbered "X" s.next ≠ "R" := ((aheadOf_of_at_sign_not_mem (by decide) s).ne_drawn "X").symm
  have hnil : ∀ f : Ty → SupplyM Ty, mapRow f [] = pure [] := fun _ => rfl
  have hunroll : spiral.unroll.run s =
      (some (.object [("n", .generic [numbered "X" s.next] (turn (numbered "X" s.next))), ("x", .var "X")]),
        ⟨s.next + 1⟩) := by
    simp [unroll, spiral, muNames, unrollWithin, isMu, unrollOnce, subst_object, subst_generic, mapRow_cons, hnil,
      mentions, mentionsInRow, mem_freeNames_iff, rebindAll, rebind, turn]
    change (some _, _) = _
    rw [if_neg hR]
  have hlift : (liftM spiral.unroll : CompareM (Option Ty)).run.run s =
      (.ok (spiral.unroll.run s).1, (spiral.unroll.run s).2) := rfl
  rw [hunroll] at hlift
  rw [unrolled, run_bind_of_ok hlift]
  rfl

/-- The comparison has an answer, from the supply. -/
def Answered (m : CompareM Bool) (s : NameSupply) : Prop :=
  ∃ b, (m.run.run s).1 = .ok b

private theorem Answered.of_bind {m : CompareM Bool} {f : Bool → CompareM Bool} (h : Answered (m >>= f) s) :
    Answered m s := by
  obtain ⟨b, hb⟩ := h
  rw [ExceptT.run_bind, StateT.run_bind] at hb
  rcases hm : m.run.run s with ⟨_ | a, t⟩
  · rw [hm] at hb
    cases hb
  · exact ⟨a, congrArg Prod.fst hm⟩

private theorem Answered.mono {n m : Nat} (h : n ≤ m) {e a : Ty} (ha : Answered (fitsUnder n assumed bs .exact e a) s) :
    Answered (fitsUnder m assumed bs .exact e a) s := by
  obtain ⟨b, hb⟩ := ha
  have hrun := fitsUnder_mono h assumed bs .exact e a s b _ (Prod.ext hb rfl)
  exact ⟨b, congrArg Prod.fst hrun⟩

/-- Two unrolled sides are compared at the bodies below their inner binders first. -/
private theorem Answered.inner {u v z : Name} {e a : Ty}
    (h : Answered (fitsUnder (fuel + 2) assumed bs .exact (.object [("n", .generic [u] e), ("x", .var y)])
      (.object [("n", .generic [v] a), ("x", .var z)])) s) :
    Answered (fitsUnder fuel assumed (bs.enter [u] [v]) .exact e a) s := by
  simp only [fitsUnder, shapesFit, allOffered, List.allM, List.lookup] at h
  exact h.of_bind

/-- After a turn on the left the spiral is on the right, and the turn on the left has a new name. -/
private theorem Answered.spiral_turn (hnew : assumed.any (·.covers .exact spiral (turn y)) = false)
    (h : Answered (fitsUnder (fuel + 3) assumed bs .exact spiral (turn y)) s) :
    Answered (fitsUnder fuel (⟨.exact, spiral, turn y⟩ :: assumed) (bs.enter [numbered "X" s.next] ["Z"]) .exact
      (turn (numbered "X" s.next)) spiral) ⟨s.next + 1⟩ := by
  have hheads : (Comparison.unrollHeads ⟨bs, .exact, spiral, turn y⟩).run.run s =
      (.ok ⟨bs, .exact, .object [("n", .generic [numbered "X" s.next] (turn (numbered "X" s.next))), ("x", .var "X")],
        turn y⟩, ⟨s.next + 1⟩) := by
    rw [Comparison.unrollHeads, run_bind_of_ok (unrolled_spiral s)]
    rfl
  have hrun := Position.run_of_headed (p := ⟨assumed, ⟨bs, .exact, spiral, turn y⟩, false, s⟩)
    (by simp [spiral, turn]) rfl hnew hheads (fuel + 2)
  obtain ⟨b, hb⟩ := h
  exact Answered.inner ⟨b, (congrArg Prod.fst hrun).symm.trans hb⟩

private theorem Answered.turn_spiral (hnew : assumed.any (·.covers .exact (turn y) spiral) = false)
    (h : Answered (fitsUnder (fuel + 3) assumed bs .exact (turn y) spiral) s) :
    Answered (fitsUnder fuel (⟨.exact, turn y, spiral⟩ :: assumed) (bs.enter ["Z"] [numbered "X" s.next]) .exact
      spiral (turn (numbered "X" s.next))) ⟨s.next + 1⟩ := by
  have hheads : (Comparison.unrollHeads ⟨bs, .exact, turn y, spiral⟩).run.run s =
      (.ok ⟨bs, .exact, turn y,
        .object [("n", .generic [numbered "X" s.next] (turn (numbered "X" s.next))), ("x", .var "X")]⟩,
        ⟨s.next + 1⟩) := by
    have hturn : (turn y).unrolled.run.run s = (.ok (turn y), s) := rfl
    rw [Comparison.unrollHeads, run_bind_of_ok hturn, run_bind_of_ok (unrolled_spiral s)]
    rfl
  have hrun := Position.run_of_headed (p := ⟨assumed, ⟨bs, .exact, turn y, spiral⟩, false, s⟩)
    (by simp [spiral, turn]) rfl hnew hheads (fuel + 2)
  obtain ⟨b, hb⟩ := h
  exact Answered.inner ⟨b, (congrArg Prod.fst hrun).symm.trans hb⟩

/-- The assumption is about the spiral and a turn with a name that the supply is ahead of. -/
private def Older (s : NameSupply) (h : Assumption) : Prop :=
  ∃ z, s.AheadOf z ∧ (h = ⟨.exact, spiral, turn z⟩ ∨ h = ⟨.exact, turn z, spiral⟩)

private theorem Older.mono {s' : NameSupply} {h : Assumption} (hold : Older s h) (hs : s ≤ s') : Older s' h := by
  obtain ⟨z, hz, hform⟩ := hold
  exact ⟨z, hz.mono hs, hform⟩

/-- A turn with the next name is in no assumption. -/
private theorem not_covers_of_older (hold : ∀ h ∈ assumed, Older s h) :
    assumed.any (·.covers .exact spiral (turn (numbered "X" s.next))) = false ∧
    assumed.any (·.covers .exact (turn (numbered "X" s.next)) spiral) = false := by
  have hturns : ∀ z, s.AheadOf z → (turn z).alphaEquiv (turn (numbered "X" s.next)) = false := by
    intro z hz
    have hne := hz.ne_drawn "X"
    simp [turn, alphaEquiv, alphaEquivUnder, alphaEquivRow, List.lookup, Binders.left?, Binders.right?, hne]
  have hforms : ∀ z, (turn z).alphaEquiv spiral = false ∧ spiral.alphaEquiv (turn z) = false := by
    intro z
    simp [turn, spiral, alphaEquiv, alphaEquivUnder]
  constructor
  · refine List.any_eq_false.2 fun h hh => ?_
    obtain ⟨z, hz, rfl | rfl⟩ := hold h hh
    · simp [Assumption.covers, hturns z hz]
    · simp [Assumption.covers, hforms z]
  · refine List.any_eq_false.2 fun h hh => ?_
    obtain ⟨z, hz, rfl | rfl⟩ := hold h hh
    · simp [Assumption.covers, hforms]
    · simp [Assumption.covers, hturns z hz]

/-- No amount of fuel answers the comparison of the spiral with a turn that is new. -/
private theorem not_answered (hold : ∀ h ∈ assumed, Older s h) :
    ¬ Answered (fitsUnder fuel assumed bs .exact (turn (numbered "X" s.next)) spiral) ⟨s.next + 1⟩ ∧
    ¬ Answered (fitsUnder fuel assumed bs .exact spiral (turn (numbered "X" s.next))) ⟨s.next + 1⟩ := by
  -- after a turn the sides have changed places, so the two statements need each other
  induction fuel generalizing assumed bs s with
  | zero =>
    constructor
    · rintro ⟨b, hb⟩
      cases hb
    · rintro ⟨b, hb⟩
      cases hb
  | succ fuel ih =>
    obtain ⟨hleft, hright⟩ := not_covers_of_older hold
    have hnext : (⟨s.next + 1⟩ : NameSupply).AheadOf (numbered "X" s.next) := aheadOf_numbered (Nat.lt_succ_self _) "X"
    have hold' : ∀ h ∈ assumed, Older ⟨s.next + 1⟩ h := fun h hh => (hold h hh).mono (Nat.le_succ s.next)
    have hle : fuel + 1 ≤ fuel + 3 := by omega
    constructor
    · intro h
      refine (ih (List.forall_mem_cons.2 ⟨⟨_, hnext, .inr rfl⟩, hold'⟩)).2 ((h.mono hle).turn_spiral hright)
    · intro h
      refine (ih (List.forall_mem_cons.2 ⟨⟨_, hnext, .inl rfl⟩, hold'⟩)).1 ((h.mono hle).spiral_turn hleft)

private theorem not_answered_top (n : Nat) : ¬ Answered (fits n [] .exact spiralTop turnTop) {} := by
  intro h
  have hle : n ≤ n + 3 + 1 := by omega
  have hbody : Answered (fitsUnder (n + 3) [] [("X", "X")] .exact spiral (turn "X")) {} := h.mono hle
  have hX : ∀ s : NameSupply, s.AheadOf "X" := aheadOf_of_at_sign_not_mem (by decide)
  have hnext := hbody.spiral_turn rfl
  exact (not_answered (List.forall_mem_singleton.2 ⟨"X", hX _, .inl rfl⟩)).1 hnext

end Walk

/-- Two annotations mean types whose comparison has no answer, however much fuel there is. -/
theorem resolved_not_settles :
    (spiralTop.annotation.resolve [] []).result = .ok spiralTop ∧
    (turnTop.annotation.resolve [] []).result = .ok turnTop ∧
    ¬ ∃ n b, ((fits n [] .exact spiralTop turnTop).run.run {}).1 = .ok b := by
  refine ⟨by cbv, by cbv, ?_⟩
  rintro ⟨n, hn⟩
  exact not_answered_top n hn

/-- So there is an endless walk from this comparison. -/
theorem endless_spiral : ∃ w, w 0 = ⟨[], ⟨.ofScope [], .exact, spiralTop, turnTop⟩, false, {}⟩ ∧ Endless w := by
  have hspiral : ∀ s : NameSupply, s.AheadOfTy spiralTop := aheadOfTy_of_at_sign_not_mem (by decide)
  have hturn : ∀ s : NameSupply, s.AheadOfTy turnTop := aheadOfTy_of_at_sign_not_mem (by decide)
  have hnone : Aliases.Unnumbered [] := by simp [Aliases.Unnumbered]
  have hl : spiralTop.annotation.Unnumbered := by
    unfold TyExpr.Unnumbered
    decide
  have hr : turnTop.annotation.Unnumbered := by
    unfold TyExpr.Unnumbered
    decide
  have hends := resolved_settles_or_endless hnone hl hr (by cbv) (by cbv) (hspiral {}) (hturn {}) .exact
  rcases hends.1 with ⟨n, b, t, hn⟩ | ⟨w, h0, hw, -⟩
  · exact absurd ⟨b, congrArg Prod.fst (hn n (Nat.le_refl n))⟩ (not_answered_top n)
  · exact ⟨w, h0, hw⟩

end Ty

end MuTypes
