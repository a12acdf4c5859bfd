import MuTypes.Proofs.Comparison
import MuTypes.Proofs.Nameless.Paths

/-!
# When the comparison ends

The walk of `fits` goes from a comparison to those of the parts that it asks, with both heads unrolled before that
where one of them is recursive (`Enters`).  It ends with an answer, for enough fuel, when there is no endless walk
(`settles_iff`).

On an endless walk the free names of the types cannot stay within a finite list, neither on the one side nor on the
other (`Endless.mentions_new`).  For one side comes back to the same recursive type infinitely often, and if there
are finitely many names on the other side then that side must be the same twice at such a place; there the cycle
would have been closed.
-/

namespace MuTypes.Ty

open Nameless NameSupply

/-! ### More fuel -/

private theorem shapesFit_refines {f g : Binders → Fit → Ty → Ty → CompareM Bool}
    (h : ∀ bs fit e a, Refines (f bs fit e a) (g bs fit e a)) (bs : Binders) (fit : Fit) (e a : Ty) :
    Refines (shapesFit f bs fit e a) (shapesFit g bs fit e a) := by
  have hif : ∀ {p : Prop} [Decidable p] {m m' : CompareM Bool}, Refines m m' →
      Refines (if p then m else return false) (if p then m' else return false) := by
    intro p _ m m' hm
    split
    · exact hm
    · exact .refl _
  have hrow : ∀ fit (ps qs : Row), Refines (allOffered (f bs fit) ps qs) (allOffered (g bs fit) ps qs) := by
    intro fit ps qs
    refine .allM fun p _ => ?_
    split
    · exact h bs fit _ _
    · exact .refl _
  cases e <;> cases a
  case container.container k e l a => exact hif (h bs fit e a)
  case func.func ps r qs s =>
    cases fit with
    | exact => exact hif (.bind (.allM fun p _ => h bs .exact p.1.2 p.2.2) fun b => hif (h bs .exact r s))
    | wide => exact hif (.bind (.allM fun p _ => h bs.swap .wide p.2.2 p.1.2) fun b => hif (h bs .wide r s))
  case object.object ps qs => exact hif (hrow fit ps qs)
  case union.union vs ws =>
    refine hif (.allM fun v _ => ?_)
    split
    · exact hif (hrow .exact v.2 _)
    · exact .refl _
  case generic.generic ns e ms a => exact hif (h _ fit e a)
  all_goals exact .refl _

/-- More fuel does not change an answer. -/
theorem fitsUnder_mono {n m : Nat} (h : n ≤ m) (assumed : List Assumption) (bs : Binders) (fit : Fit)
    (expected actual : Ty) :
    Refines (fitsUnder n assumed bs fit expected actual) (fitsUnder m assumed bs fit expected actual) := by
  induction n generalizing m assumed bs fit expected actual with
  | zero =>
    intro s b t hrun
    cases hrun
  | succ n ih =>
    obtain ⟨m, rfl⟩ : ∃ k, m = k + 1 := ⟨m - 1, by omega⟩
    have hle : n ≤ m := Nat.le_of_succ_le_succ h
    unfold fitsUnder
    split
    · exact .refl _
    · split
      · split
        · exact .refl _
        · refine .bind (.refl _) fun e => .bind (.refl _) fun a => ?_
          exact ih hle _ bs fit e a
      · exact shapesFit_refines (fun bs fit e a => ih hle assumed bs fit e a) bs fit expected actual

/-! ### Walks -/

/-- Where a walk stands: what is assumed, the comparison at hand and the supply.  A flipped comparison has the types
of the two sides in the other order. -/
structure Position where
  assumed : List Assumption
  comparison : Comparison
  flipped : Bool
  supply : NameSupply

namespace Position

/-- The type on one side: on the left one, which is `false`, are the types met in the expected one of the start. -/
def side (p : Position) (right : Bool) : Ty :=
  if p.flipped = right then p.comparison.expected else p.comparison.actual

/-- The walk from the position, with some fuel. -/
def run (p : Position) (fuel : Nat) : Except Halt Bool × NameSupply :=
  (fitsUnder fuel p.assumed p.comparison.binders p.comparison.fit p.comparison.expected
    p.comparison.actual).run.run p.supply

/-- The comparison at hand as an assumption. -/
def assumption (p : Position) : Assumption :=
  ⟨p.comparison.fit, p.comparison.expected, p.comparison.actual⟩

/-- Is the comparison at hand assumed? -/
def closes (p : Position) : Bool :=
  p.assumed.any (·.covers p.comparison.fit p.comparison.expected p.comparison.actual)

/-- With enough fuel the walk ends with an answer, which more fuel does not change. -/
def Settles (p : Position) : Prop :=
  ∃ n b t, ∀ m, n ≤ m → p.run m = (.ok b, t)

end Position

/-- The walk goes from the first position to the second one, which stands at a comparison of parts.  All comparisons
of parts asked before must have been answered with yes. -/
inductive Enters : Position → Position → Prop where
  | part {assumed : List Assumption} {c d : Comparison} {flipped flipped' : Bool} {s t : NameSupply}
    {l r : List (Option Comparison)} {fuel : Nat} (ht : ¬ c.Trivial) (hh : c.headed = false)
    (hparts : c.parts = l ++ some d :: r) (hrun : (l.allM (perform (fitsUnder fuel assumed))).run.run s = (.ok true, t))
    (hside : d.Straight c ∧ flipped' = flipped ∨ d.Crossed c ∧ flipped' = !flipped) :
    Enters ⟨assumed, c, flipped, s⟩ ⟨assumed, d, flipped', t⟩
  | unrolled {p q : Position} {d : Comparison} {t : NameSupply} (ht : ¬ p.comparison.Trivial)
    (hh : p.comparison.headed = true) (hnew : p.closes = false)
    (hrun : p.comparison.unrollHeads.run.run p.supply = (.ok d, t))
    (h : Enters ⟨p.assumption :: p.assumed, d, p.flipped, t⟩ q) : Enters p q

/-- A walk that goes on for ever. -/
def Endless (w : Nat → Position) : Prop :=
  ∀ i, Enters (w i) (w (i + 1))

namespace Position

variable {p q : Position}

theorem run_of_trivial (h : p.comparison.Trivial) (n : Nat) : p.run (n + 1) = (.ok true, p.supply) := by
  rw [run, fitsUnder, if_pos h]
  rfl

theorem run_of_closes (ht : ¬ p.comparison.Trivial) (hh : p.comparison.headed = true) (hc : p.closes = true)
    (n : Nat) : p.run (n + 1) = (.ok true, p.supply) := by
  have hhead : (p.comparison.expected.isMu || p.comparison.actual.isMu) = true := hh
  have hassumed : p.assumed.any (·.covers p.comparison.fit p.comparison.expected p.comparison.actual) = true := hc
  rw [run, fitsUnder, if_neg ht, if_pos hhead, if_pos hassumed]
  rfl

theorem run_of_headed (ht : ¬ p.comparison.Trivial) (hh : p.comparison.headed = true) (hc : p.closes = false)
    {d : Comparison} {t : NameSupply} (hrun : p.comparison.unrollHeads.run.run p.supply = (.ok d, t)) (n : Nat) :
    p.run (n + 1) = run ⟨p.assumption :: p.assumed, d, p.flipped, t⟩ n := by
  have hhead : (p.comparison.expected.isMu || p.comparison.actual.isMu) = true := hh
  have hnew : ¬ p.assumed.any (·.covers p.comparison.fit p.comparison.expected p.comparison.actual) = true :=
    Bool.not_eq_true _ ▸ hc
  rw [run, fitsUnder, if_neg ht, if_pos hhead, if_neg hnew, Comparison.unrollHeads_bind, run_bind_of_ok hrun]
  rfl

theorem run_of_parts (hr : p.comparison.Ready p.supply) (ht : ¬ p.comparison.Trivial)
    (hh : p.comparison.headed = false) (n : Nat) :
    p.run (n + 1) = (p.comparison.parts.allM (perform (fitsUnder n p.assumed))).run.run p.supply := by
  have hhead : ¬ (p.comparison.expected.isMu || p.comparison.actual.isMu) = true :=
    Bool.not_eq_true _ ▸ hh
  rw [run, fitsUnder, if_neg ht, if_neg hhead, shapesFit_eq_allM _ hr.toScoped]

end Position

/-! ### What a step keeps -/

theorem fitsUnder_ensures (fuel : Nat) (assumed : List Assumption) {c : Comparison} {s : NameSupply} (hc : c.Ready s) :
    s.Ensures (fitsUnder fuel assumed c.binders c.fit c.expected c.actual) fun _ _ => True := by
  induction fuel generalizing assumed c s with
  | zero => exact .throw _
  | succ fuel ih =>
    unfold fitsUnder
    split
    · exact .pure trivial
    · split
      · split
        · exact .pure trivial
        · rw [Comparison.unrollHeads_bind]
          exact hc.unrollHeads_returns.ensures.bind fun d t _ hd => ih _ hd.1
      · refine (Comparison.shapesFit_ensures hc.toScoped (P := fun _ => True) (N := fun _ => True)
          fun d hd t ht => ?_).mono fun _ _ _ _ => trivial
        have hready : d.Ready t := (hc.partOf (Comparison.partOf_of_mem_parts hd)).mono ht
        exact (ih assumed hready).mono fun _ _ _ _ => ⟨fun _ => trivial, fun _ => trivial⟩

theorem perform_mono {n m : Nat} (h : n ≤ m) (assumed : List Assumption) (o : Option Comparison) :
    Refines (perform (fitsUnder n assumed) o) (perform (fitsUnder m assumed) o) := by
  cases o with
  | none => exact .refl _
  | some d => exact fitsUnder_mono h assumed d.binders d.fit d.expected d.actual

/-- Answering the first comparisons of parts does not take the supply back. -/
private theorem le_of_run_parts {c : Comparison} {s t : NameSupply} (hc : c.Ready s) {l r : List (Option Comparison)}
    (hparts : c.parts = l ++ r) {fuel : Nat} {assumed : List Assumption} {b : Bool}
    (hrun : (l.allM (perform (fitsUnder fuel assumed))).run.run s = (.ok b, t)) : s ≤ t := by
  have hall : s.Ensures (l.allM (perform (fitsUnder fuel assumed))) fun b _ =>
      (b = true → ∀ o ∈ l, True) ∧ (b = false → ∃ o ∈ l, True) := by
    refine Ensures.allM fun o ho u hu => ?_
    cases o with
    | none => exact .pure ⟨fun _ => trivial, fun _ => trivial⟩
    | some d =>
      have hd : some d ∈ c.parts := hparts ▸ List.mem_append_left r ho
      have hready : d.Ready u := (hc.partOf (Comparison.partOf_of_mem_parts hd)).mono hu
      exact (fitsUnder_ensures fuel assumed hready).mono fun _ _ _ _ => ⟨fun _ => trivial, fun _ => trivial⟩
  have hle := hall.1
  rwa [hrun] at hle

/-- The parts of a type are children of its nameless form. -/
theorem Part.child {t u : Ty} {ns : List Name} (h : Part t ns u) : Child t.bare u.bare := by
  cases h with
  | elem => exact .piece (List.mem_singleton_self _)
  | param hp =>
    rw [bare_func]
    exact .piece (mem_pieces_func.2 (.inr ⟨_, List.mem_map_of_mem hp, rfl⟩))
  | result =>
    rw [bare_func]
    exact .piece (mem_pieces_func.2 (.inl rfl))
  | property hp =>
    rw [bare_object]
    exact .piece (mem_pieces_object.2 ⟨_, List.mem_map_of_mem hp, rfl⟩)
  | variant hv hp =>
    rw [bare_union]
    exact .piece (mem_pieces_union.2 ⟨_, List.mem_map_of_mem hv, _, List.mem_map_of_mem hp, rfl⟩)
  | body =>
    rw [bare_generic, bare, nameless_eq_openAt [] ns.reverse]
    exact .body (List.length_reverse ..)

namespace Enters

variable {p q : Position}

theorem ready (h : Enters p q) (hp : p.comparison.Ready p.supply) : q.comparison.Ready q.supply := by
  induction h with
  | part ht hh hparts hrun hside =>
    exact (hp.partOf (hside.imp And.left And.left)).mono (le_of_run_parts hp hparts hrun)
  | unrolled ht hh hnew hrun h ih =>
    obtain ⟨-, d, hd, hready, -⟩ := hp.unrollHeads_returns
    rw [hrun] at hd hready
    exact ih (Except.ok.inj hd ▸ hready)

/-- What was assumed stays assumed, and so does a comparison that was not and has been unrolled. -/
theorem assumed (h : Enters p q) :
    p.assumed ⊆ q.assumed ∧ (p.comparison.headed = true → p.closes = false ∧ p.assumption ∈ q.assumed) := by
  induction h with
  | part ht hh hparts hrun hside => exact ⟨List.Subset.refl _, fun h => by simp [hh] at h⟩
  | unrolled ht hh hnew hrun h ih =>
    refine ⟨fun a ha => ih.1 (List.mem_cons_of_mem _ ha), fun _ => ⟨hnew, ih.1 List.mem_cons_self⟩⟩

/-- On each side a step goes from a type to a child of its unrolling. -/
theorem child (h : Enters p q) (hp : p.comparison.Ready p.supply) (right : Bool) :
    Child (p.side right).bare.unroll (q.side right).bare := by
  induction h with
  | @part assumed c d flipped flipped' s t l r fuel ht hh hparts hrun hside =>
    obtain ⟨he, ha⟩ := Bool.or_eq_false_iff.1 hh
    rw [← isMu_nameless []] at he ha
    unfold Position.side
    dsimp only
    rcases hside with ⟨⟨ns, ms, -, -, hpe, hpa⟩, rfl⟩ | ⟨⟨-, hpe, hpa⟩, rfl⟩
    · split
      · rw [unroll_of_isMu_eq_false he]
        exact hpe.child
      · rw [unroll_of_isMu_eq_false ha]
        exact hpa.child
    · by_cases hf : flipped = right
      · rw [if_pos hf, if_neg (by simp [hf]), unroll_of_isMu_eq_false he]
        exact hpe.child
      · rw [if_neg hf, if_pos (by cases flipped <;> simp_all), unroll_of_isMu_eq_false ha]
        exact hpa.child
  | @unrolled p q d t ht hh hnew hrun h ih =>
    obtain ⟨-, d', hd, hready, -, -, hfrom⟩ := hp.unrollHeads_returns
    rw [hrun] at hd hready
    obtain rfl := Except.ok.inj hd
    have hstep := ih hready
    have hbare : (Position.side ⟨p.assumption :: p.assumed, d, p.flipped, t⟩ right).bare =
        (p.side right).bare.unroll := by
      unfold Position.side
      split
      · exact hfrom.expected
      · exact hfrom.actual
    have hmu : (p.side right).bare.unroll.isMu = false := by
      unfold Position.side
      split
      · exact hp.expected_wellFormed.sound.isMu_unroll
      · exact hp.actual_wellFormed.sound.isMu_unroll
    rwa [hbare, unroll_of_isMu_eq_false hmu] at hstep

end Enters

/-! ### Walks that end -/

/-- A conjunction of comparisons is answered if each one is that is reached. -/
private theorem settles_of_conjunction {assumed : List Assumption} {l : List (Option Comparison)} {s : NameSupply}
    (h : ∀ l₁ d l₂ t fuel, l = l₁ ++ some d :: l₂ →
      (l₁.allM (perform (fitsUnder fuel assumed))).run.run s = (.ok true, t) →
      ∃ n b u, ∀ m, n ≤ m → (perform (fitsUnder m assumed) (some d)).run.run t = (.ok b, u)) :
    ∃ n b t, ∀ m, n ≤ m → (l.allM (perform (fitsUnder m assumed))).run.run s = (.ok b, t) := by
  induction l generalizing s with
  | nil => exact ⟨0, true, s, fun _ _ => rfl⟩
  | cons o l ih =>
    cases o with
    | none =>
      refine ⟨0, false, s, fun m _ => ?_⟩
      rw [run_allM_cons]
      rfl
    | some d =>
      obtain ⟨n, b, u, hn⟩ := h [] d l s 0 rfl rfl
      cases b with
      | false =>
        refine ⟨n, false, u, fun m hm => ?_⟩
        rw [run_allM_cons, hn m hm]
      | true =>
        have hrest := ih (s := u) fun l₁ d' l₂ t fuel hl hrun => by
          refine h (some d :: l₁) d' l₂ t (max n fuel) (by rw [hl, List.cons_append]) ?_
          rw [run_allM_cons, hn _ (Nat.le_max_left n fuel)]
          exact Refines.allM (fun o _ => perform_mono (Nat.le_max_right n fuel) assumed o) u true t hrun
        obtain ⟨k, b, t, hk⟩ := hrest
        refine ⟨max n k, b, t, fun m hm => ?_⟩
        rw [run_allM_cons, hn m (by omega)]
        exact hk m (by omega)

namespace Position

variable {p : Position}

private theorem settles_of_run_succ {n : Nat} {b : Bool} {t : NameSupply}
    (h : ∀ m, n ≤ m → p.run (m + 1) = (.ok b, t)) : p.Settles := by
  refine ⟨n + 1, b, t, fun m hm => ?_⟩
  obtain ⟨m, rfl⟩ : ∃ k, m = k + 1 := ⟨m - 1, by omega⟩
  exact h m (by omega)

private theorem settles_of_parts (hr : p.comparison.Ready p.supply) (hh : p.comparison.headed = false)
    (h : ∀ q, Enters p q → q.Settles) : p.Settles := by
  by_cases ht : p.comparison.Trivial
  · exact settles_of_run_succ (n := 0) fun m _ => run_of_trivial ht m
  · have hall : ∃ n b t, ∀ m, n ≤ m →
        (p.comparison.parts.allM (perform (fitsUnder m p.assumed))).run.run p.supply = (.ok b, t) := by
      refine settles_of_conjunction fun l₁ d l₂ t fuel hl hrun => ?_
      have hd : some d ∈ p.comparison.parts := hl ▸ List.mem_append_right _ List.mem_cons_self
      rcases Comparison.partOf_of_mem_parts hd with hside | hside
      · exact h ⟨p.assumed, d, p.flipped, t⟩ (.part ht hh hl hrun (.inl ⟨hside, rfl⟩))
      · exact h ⟨p.assumed, d, !p.flipped, t⟩ (.part ht hh hl hrun (.inr ⟨hside, rfl⟩))
    obtain ⟨n, b, t, hn⟩ := hall
    exact settles_of_run_succ fun m hm => (run_of_parts hr ht hh m).trans (hn m hm)

private theorem settles_of_acc (h : Acc (fun q p => Enters p q) p) (hr : p.comparison.Ready p.supply) :
    p.Settles := by
  induction h with
  | intro p _ ih =>
    have hnext : ∀ q, Enters p q → q.Settles := fun q hq => ih q hq (hq.ready hr)
    by_cases hh : p.comparison.headed = true
    case neg => exact settles_of_parts hr (Bool.of_not_eq_true hh) hnext
    case pos =>
    by_cases ht : p.comparison.Trivial
    · exact settles_of_run_succ (n := 0) fun m _ => run_of_trivial ht m
    · by_cases hc : p.closes = true
      · exact settles_of_run_succ (n := 0) fun m _ => run_of_closes ht hh hc m
      · have hnew : p.closes = false := Bool.of_not_eq_true hc
        obtain ⟨-, d, hd, hready, -, hheaded, -⟩ := hr.unrollHeads_returns
        have hrun : p.comparison.unrollHeads.run.run p.supply = (.ok d, _) := Prod.ext hd rfl
        obtain ⟨n, b, t, hn⟩ := settles_of_parts
          (p := ⟨p.assumption :: p.assumed, d, p.flipped, (p.comparison.unrollHeads.run.run p.supply).2⟩) hready
          hheaded fun q hq => hnext q (.unrolled ht hh hnew hrun hq)
        exact settles_of_run_succ fun m hm => (run_of_headed ht hh hnew hrun m).trans (hn m hm)

end Position

/-- A position that a walk with an answer enters has an answer with less fuel. -/
theorem Enters.returns {p q : Position} (h : Enters p q) (hp : p.comparison.Ready p.supply) {n : Nat} {b : Bool}
    {u : NameSupply} (hrun : p.run n = (.ok b, u)) : ∃ k < n, ∃ b' u', q.run k = (.ok b', u') := by
  induction h generalizing n with
  | @part assumed c d flipped flipped' s t l r fuel ht hh hparts hfirst hside =>
    cases n with
    | zero => cases hrun
    | succ n =>
      rw [Position.run_of_parts hp ht hh] at hrun
      dsimp only at hrun
      rw [hparts] at hrun
      -- the first answers are the same with this fuel
      obtain ⟨b₁, u₁, hfirst'⟩ := run_allM_of_append hrun
      have hmax := Refines.allM (l := l) (fun o _ => perform_mono (Nat.le_max_left n fuel) assumed o) _ _ _ hfirst'
      have hmax' := Refines.allM (l := l) (fun o _ => perform_mono (Nat.le_max_right n fuel) assumed o) _ _ _ hfirst
      rw [hmax] at hmax'
      obtain ⟨hb₁, rfl⟩ := Prod.mk.inj hmax'
      obtain rfl : b₁ = true := Except.ok.inj hb₁
      rw [run_allM_append_of_true hfirst', run_allM_cons] at hrun
      refine ⟨n, Nat.lt_succ_self n, ?_⟩
      show ∃ b' u', (perform (fitsUnder n assumed) (some d)).run.run u₁ = (.ok b', u')
      rcases hd : (perform (fitsUnder n assumed) (some d)).run.run u₁ with ⟨_ | b', u'⟩
      · rw [hd] at hrun
        cases hrun
      · exact ⟨b', u', rfl⟩
  | @unrolled p q d t ht hh hnew hheads h ih =>
    cases n with
    | zero => cases hrun
    | succ n =>
      rw [Position.run_of_headed ht hh hnew hheads] at hrun
      obtain ⟨-, d', hd, hready, -⟩ := hp.unrollHeads_returns
      rw [hheads] at hd hready
      obtain rfl := Except.ok.inj hd
      obtain ⟨k, hk, hq⟩ := ih hready hrun
      exact ⟨k, by omega, hq⟩

theorem not_endless_of_run {n : Nat} {b : Bool} {u : NameSupply} {w : Nat → Position}
    (hw : Endless w) (hr : (w 0).comparison.Ready (w 0).supply) (hrun : (w 0).run n = (.ok b, u)) : False := by
  induction n using Nat.strong_induction_on generalizing w b u with
  | _ n ih =>
    obtain ⟨k, hk, b', u', hnext⟩ := (hw 0).returns hr hrun
    exact ih k hk (w := fun i => w (i + 1)) (fun i => hw (i + 1)) ((hw 0).ready hr) hnext

/-- The walk from a position is answered with enough fuel when it cannot go on for ever. -/
theorem settles_iff {p : Position} (hr : p.comparison.Ready p.supply) :
    p.Settles ↔ ∀ w, w 0 = p → ¬ Endless w := by
  constructor
  · rintro ⟨n, b, t, hn⟩ w rfl hw
    exact not_endless_of_run hw hr (hn n (Nat.le_refl n))
  · intro h
    refine Position.settles_of_acc ?_ hr
    by_contra hacc
    obtain ⟨w, h0, hw⟩ := not_acc_iff_exists_descending_chain.1 hacc
    exact h w h0 hw

/-! ### Endless walks draw ever new names -/

namespace Endless

variable {w : Nat → Position}

theorem ready (hw : Endless w) (hr : (w 0).comparison.Ready (w 0).supply) (i : Nat) :
    (w i).comparison.Ready (w i).supply := by
  induction i with
  | zero => exact hr
  | succ i ih => exact (hw i).ready ih

theorem path (hw : Endless w) (hr : (w 0).comparison.Ready (w 0).supply) (right : Bool) :
    Path fun i => ((w i).side right).bare :=
  fun i => (hw i).child (hw.ready hr i) right

/-- A comparison that was unrolled on the way is assumed from then on. -/
theorem assumption_mem (hw : Endless w) {i j : Nat} (hij : i < j) (hh : (w i).comparison.headed = true) :
    (w i).assumption ∈ (w j).assumed := by
  induction j with
  | zero => omega
  | succ j ih =>
    by_cases h : i = j
    · subst h
      exact ((hw i).assumed.2 hh).2
    · exact (hw j).assumed.1 (ih (by omega))

/-- No comparison that was unrolled on the way covers a later one. -/
theorem not_covers (hw : Endless w) {i j : Nat} (hij : i < j) (hi : (w i).comparison.headed = true)
    (hj : (w j).comparison.headed = true) :
    (w i).assumption.covers (w j).comparison.fit (w j).comparison.expected (w j).comparison.actual ≠ true := by
  intro hcovers
  have hcloses : (w j).closes = true := List.any_eq_true.2 ⟨_, hw.assumption_mem hij hi, hcovers⟩
  rw [((hw j).assumed.2 hj).1] at hcloses
  cases hcloses

end Endless

theorem Position.side_sound {p : Position} (hr : p.comparison.Ready p.supply) (right : Bool) :
    (p.side right).bare.Sound := by
  unfold side
  split
  · exact hr.expected_wellFormed.sound
  · exact hr.actual_wellFormed.sound

/-- Comparisons with the same types on both sides and the same fit cover each other. -/
private theorem Position.covers_of_bare_eq {p q : Position} (hr : p.comparison.Ready p.supply)
    (hfit : p.comparison.fit = q.comparison.fit) (hflipped : p.flipped = q.flipped) {right : Bool}
    (h : (p.side right).bare = (q.side right).bare) (h' : (p.side (!right)).bare = (q.side (!right)).bare) :
    p.assumption.covers q.comparison.fit q.comparison.expected q.comparison.actual = true := by
  have hboth : p.comparison.expected.bare = q.comparison.expected.bare ∧
      p.comparison.actual.bare = q.comparison.actual.bare := by
    unfold side at h h'
    rw [hflipped] at h h'
    cases right <;> cases hq : q.flipped <;> simp_all
  unfold Assumption.covers
  rw [Bool.and_eq_true, Bool.and_eq_true, decide_eq_true_eq]
  exact ⟨⟨hfit, hr.expected_wellFormed.alphaEquiv_of_bare_eq hboth.1⟩,
    hr.actual_wellFormed.alphaEquiv_of_bare_eq hboth.2⟩

theorem Position.headed_of_side {p : Position} {right : Bool} (h : (p.side right).isMu = true) :
    p.comparison.headed = true := by
  unfold side at h
  unfold Comparison.headed
  split at h
  · rw [h, Bool.true_or]
  · rw [h, Bool.or_true]

/-- On an endless walk the free names on a side are not all in a finite list. -/
theorem Endless.mentions_new {w : Nat → Position} (hw : Endless w) (hr : (w 0).comparison.Ready (w 0).supply)
    (right : Bool) (names : List Name) : ∃ i x, ((w i).side right).mentions x = true ∧ x ∉ names := by
  by_contra hn
  have hnames : ∀ i x, ((w i).side right).mentions x = true → x ∈ names := by
    intro i x hx
    by_contra hxn
    exact hn ⟨i, x, hx, hxn⟩
  have hlabels : ∀ i x, ((w i).side right).bare.Has x → x ∈ {x | x ∈ names} :=
    fun i x hx => hnames i x (has_nameless_iff.1 hx).1
  have hrange := (hw.path hr right).finite_range_of_labels names.finite_toSet (Position.side_sound hr right) hlabels
  obtain ⟨v, hv, hinf⟩ := (hw.path hr (!right)).recurs (Position.side_sound hr (!right))
  -- at two of the places with `v` on the other side all else is the same
  let look : Nat → Bool × Bool × Nameless Name := fun i =>
    (decide ((w i).comparison.fit = .exact), (w i).flipped, ((w i).side right).bare)
  have hmaps : Set.MapsTo look {i | ((w i).side (!right)).bare = v}
      (Set.univ ×ˢ Set.univ ×ˢ Set.range fun i => ((w i).side right).bare) :=
    fun i _ => ⟨Set.mem_univ _, Set.mem_univ _, i, rfl⟩
  have hbool : (Set.univ : Set Bool).Finite := Set.finite_univ
  have hfinite := hbool.prod (hbool.prod hrange)
  have hclash : ∀ i j, i < j → ((w i).side (!right)).bare = v → ((w j).side (!right)).bare = v →
      look i ≠ look j := by
    intro i j hij hi hj e
    simp only [look, Prod.mk.injEq, decide_eq_decide] at e
    have hfit : (w i).comparison.fit = (w j).comparison.fit := by
      cases hfi : (w i).comparison.fit <;> cases hfj : (w j).comparison.fit <;> simp_all
    have hcovers := Position.covers_of_bare_eq (hw.ready hr i) hfit e.2.1 e.2.2 (hi.trans hj.symm)
    have hheaded : ∀ k, ((w k).side (!right)).bare = v → (w k).comparison.headed = true := by
      intro k hk
      have hmu : ((w k).side (!right)).bare.isMu = true := hk ▸ hv
      rw [isMu_nameless] at hmu
      exact Position.headed_of_side hmu
    exact hw.not_covers hij (hheaded i hi) (hheaded j hj) hcovers
  obtain ⟨i, hi, j, hj, hne, e⟩ := hinf.exists_ne_map_eq_of_mapsTo hmaps hfinite
  rcases Nat.lt_or_gt_of_ne hne with hlt | hlt
  · exact hclash i j hlt hi hj e
  · exact hclash j i hlt hj hi e.symm

/-- The walk is answered with enough fuel when on each walk that might go on for ever the free names on one side are
in a finite list. -/
theorem settles_iff_bounded {p : Position} (hr : p.comparison.Ready p.supply) :
    p.Settles ↔ ∀ w, w 0 = p → Endless w →
      ∃ (right : Bool) (names : List Name), ∀ i x, ((w i).side right).mentions x = true → x ∈ names := by
  rw [settles_iff hr]
  constructor
  · exact fun h w h0 hw => absurd hw (h w h0)
  · rintro h w rfl hw
    obtain ⟨right, names, hnames⟩ := h w rfl hw
    obtain ⟨i, x, hx, hxn⟩ := hw.mentions_new hr right names
    exact hxn (hnames i x hx)

end MuTypes.Ty
