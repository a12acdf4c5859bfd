import Mathlib.Data.Set.Finite.Lattice
import Mathlib.Data.Set.Finite.List
import MuTypes.Proofs.Nameless.Children

/-!
# Endless paths through unrollings

A path goes from each type to a child of its unrolling.  An endless path through a sound type comes back to one
recursive type infinitely often (`Path.recurs`), whatever labels the binders are opened with.  If there are only
finitely many labels it visits only finitely many types (`Path.finite_range`).

Both are shown for types opened with others, by induction on the type: a path stays in the type or reaches one of
the types put in.
-/

namespace MuTypes.Nameless

variable {α : Type}

/-- An endless path: each type is a child of the unrolling of the one before. -/
def Path (p : Nat → Nameless α) : Prop :=
  ∀ i, Child (p i).unroll (p (i + 1))

/-- The path comes to one recursive type infinitely often. -/
def Recurs (p : Nat → Nameless α) : Prop :=
  ∃ v, v.isMu = true ∧ {i | p i = v}.Infinite

/-- From some index on the path comes to one of the types, below recursive binders that bind nothing, of which there
are at most `J`. -/
def ReachesFrom (n J : Nat) (vs : List (Nameless α)) (p : Nat → Nameless α) : Prop :=
  ∃ i, n ≤ i ∧ ∃ j ≤ J, ∃ v ∈ vs, p i = Nameless.mu^[j] v

section Path

variable {p : Nat → Nameless α}

theorem Path.tail (hp : Path p) (n : Nat) : Path fun i => p (i + n) := by
  intro i
  have h := hp (i + n)
  rwa [Nat.add_right_comm] at h

/-- The first type of a path can be exchanged for one with the same unrolling. -/
theorem Path.cons (hp : Path p) {t : Nameless α} (ht : t.unroll = (p 0).unroll) :
    Path fun i => if i = 0 then t else p i := by
  intro i
  cases i with
  | zero =>
    have h := hp 0
    rw [← ht] at h
    exact h
  | succ i => exact hp (i + 1)

theorem Recurs.of_tail {n : Nat} (h : Recurs fun i => p (i + n)) : Recurs p := by
  obtain ⟨v, hv, hinf⟩ := h
  refine ⟨v, hv, fun hfin => hinf ?_⟩
  exact hfin.preimage (f := fun i => i + n) fun i _ j _ e => Nat.add_right_cancel e

theorem Recurs.of_cons {t : Nameless α} (h : Recurs fun i => if i = 0 then t else p i) : Recurs p := by
  obtain ⟨v, hv, hinf⟩ := h
  refine ⟨v, hv, fun hfin => hinf ((hfin.insert 0).subset fun i hi => ?_)⟩
  by_cases h0 : i = 0
  · exact .inl h0
  · exact .inr (by simpa [h0] using hi)

theorem ReachesFrom.of_tail {n k J : Nat} {vs : List (Nameless α)}
    (h : ReachesFrom n J vs fun i => p (i + k)) : ReachesFrom (n + k) J vs p := by
  obtain ⟨i, hi, hr⟩ := h
  exact ⟨i + k, Nat.add_le_add_right hi k, hr⟩

/-! ### A path comes back -/

/-- A path that comes back to a recursive type, up to binders that bind nothing, whenever it has been there comes to
one of finitely many types infinitely often. -/
private theorem recurs_of_returns {J : Nat} {M : Nameless α} (hM : M.isMu = true) (h0 : p 0 = M)
    (hback : ∀ i, (∃ j ≤ J, p i = Nameless.mu^[j] M) → ∃ i', i < i' ∧ ∃ j ≤ J, p i' = Nameless.mu^[j] M) :
    Recurs p := by
  have hlater : ∀ n, ∃ i, n ≤ i ∧ ∃ j ≤ J, p i = Nameless.mu^[j] M := by
    intro n
    induction n with
    | zero => exact ⟨0, Nat.le_refl 0, 0, Nat.zero_le J, h0⟩
    | succ n ihn =>
      obtain ⟨i, hi, hat⟩ := ihn
      obtain ⟨i', hi', hat'⟩ := hback i hat
      exact ⟨i', by omega, hat'⟩
  by_contra hn
  have hfin : (⋃ j ∈ {j | j ≤ J}, {i | p i = Nameless.mu^[j] M}).Finite := by
    refine (Set.finite_le_nat J).biUnion fun j _ => ?_
    by_contra hinf
    exact hn ⟨_, isMu_iterate_mu hM j, hinf⟩
  obtain ⟨N, hN⟩ := hfin.bddAbove
  obtain ⟨i, hi, j, hj, he⟩ := hlater (N + 1)
  have hle : i ≤ N := hN (Set.mem_biUnion hj he)
  omega

/-- A path through an opened type comes back to one recursive type infinitely often, or it comes to one of the types
put in. -/
private theorem Path.recurs_or_reaches {J k : Nat} {t : Nameless α} {vs : List (Nameless α)} (hk : sizeOf t ≤ k)
    (hJ : sizeOf t ≤ J) (ht : t.WellFormed) (hc : t.ClosedAt vs.length) (hvs : ∀ v ∈ vs, v.Sound) (hp : Path p)
    (h0 : p 0 = t.openAt 0 vs) : Recurs p ∨ ∃ n, (t.Rigid → 0 < n) ∧ ReachesFrom n J vs p := by
  induction k generalizing t vs p with
  | zero => cases t <;> simp at hk
  | succ k ih =>
    by_cases hr : t.Rigid
    case neg =>
      have hc' : t.ClosedAt (0 + vs.length) := by rwa [Nat.zero_add]
      obtain ⟨j, hj, v, hv, he⟩ := exists_iterate_mu_of_not_rigid hr ht.guarded hc'
      exact .inr ⟨0, fun h => absurd h hr, 0, Nat.le_refl 0, j, Nat.le_trans hj hJ, v, hv, h0.trans he⟩
    case pos =>
    suffices h : Recurs p ∨ ReachesFrom 1 J vs p from h.imp_right fun h => ⟨1, fun _ => Nat.one_pos, h⟩
    -- what the induction hypothesis says of the rest of the path, when it is in a smaller type
    have hrest : ∀ {u : Nameless α} {ws : List (Nameless α)} {q : Nat → Nameless α}, sizeOf u < sizeOf t → u.WellFormed →
        u.ClosedAt ws.length → (∀ w ∈ ws, w.Sound) → Path q → q 0 = u.openAt 0 ws → Recurs q ∨ ReachesFrom 0 J ws q := by
      intro u ws q hu huw huc hws hq hq0
      refine (ih (by omega) (by omega) huw huc hws hq hq0).imp_right fun h => ?_
      obtain ⟨n, -, i, -, hi⟩ := h
      exact ⟨i, Nat.zero_le i, hi⟩
    have hvs0 : ∀ v ∈ vs, v.ClosedAt 0 := fun v hv => (hvs v hv).closed
    by_cases hflat : t.isFlat = true
    · have hchild := hp 0
      rw [h0] at hchild
      obtain ⟨u, hu, hu0⟩ := child_openAt hflat hchild
      have hlt := sizeOf_lt_of_mem_pieces hu
      rcases hrest hlt (ht.of_mem_pieces hu) (hc.of_mem_pieces hu) hvs (hp.tail 1) hu0 with h | h
      · exact .inl h.of_tail
      · exact .inr h.of_tail
    · cases t with
      | generic n b =>
        have hchild := hp 0
        rw [h0] at hchild
        obtain ⟨xs, hxs, hb0⟩ := child_openAt_generic hvs0 hchild
        have hlt : sizeOf b < sizeOf (Nameless.generic n b) := by
          rw [generic.sizeOf_spec]
          omega
        have hbc := closedAt_of_closedAt_generic hc hxs
        rcases hrest hlt ht.of_generic hbc (sound_of_mem_labels_append hvs) (hp.tail 1) hb0 with h | h
        · exact .inl h.of_tail
        · obtain ⟨i, hi, j, hj, v, hv, he⟩ := h
          rcases List.mem_append.1 hv with hv | hv
          · -- a label has no children
            obtain ⟨x, -, rfl⟩ := List.mem_map.1 hv
            have hnext := hp (i + 1)
            rw [show p (i + 1) = Nameless.mu^[j] (.free x) from he, (sound_free x).unroll_iterate_mu] at hnext
            exact absurd hnext not_child_free
          · exact .inr ⟨i + 1, by omega, j, hj, v, hv, he⟩
      | mu b =>
        have hlt : sizeOf b < sizeOf (Nameless.mu b) := by
          rw [mu.sizeOf_spec]
          omega
        have hbw : b.WellFormed := ht.of_mu.2
        have hsound : ((Nameless.mu b).openAt 0 vs).Sound := sound_openAt ht hc hvs
        have hunroll := unroll_openAt_mu ht hc hvs
        have hmu : ((Nameless.mu b).openAt 0 vs).isMu = true := by
          rw [openAt_mu]
          rfl
        generalize (Nameless.mu b).openAt 0 vs = M at h0 hsound hunroll hmu
        have hbc : b.ClosedAt (M :: vs).length := by
          rw [closedAt_mu] at hc
          exact hc
        by_contra hnot
        rw [not_or] at hnot
        -- each time the path is at `M` it comes back to it
        refine hnot.1 (recurs_of_returns (J := J) hmu h0 fun i hi => ?_)
        obtain ⟨j, -, he⟩ := hi
        have hhead : (b.openAt 0 (M :: vs)).unroll = (p (0 + i)).unroll := by
          rw [hunroll, Nat.zero_add, he, hsound.unroll_iterate_mu]
        have hbr : b.Rigid := hr
        have hstep := ih (by omega) (by omega) hbw hbc (List.forall_mem_cons.2 ⟨hsound, hvs⟩)
          ((hp.tail i).cons hhead) (if_pos rfl)
        rcases hstep with h | ⟨n, hn, i', hi', j', hj', v, hv, he'⟩
        · exact absurd h.of_cons.of_tail hnot.1
        · have hpos := hn hbr
          replace he' : p (i' + i) = Nameless.mu^[j'] v := (if_neg (by omega)).symm.trans he'
          rcases List.mem_cons.1 hv with rfl | hv
          · exact ⟨i' + i, by omega, j', hj', he'⟩
          · exact absurd ⟨i' + i, by omega, j', hj', v, hv, he'⟩ hnot.2
      | bound i => exact hr.elim
      | _ => exact absurd rfl hflat

/-- An endless path through a sound type comes back to one recursive type infinitely often. -/
theorem Path.recurs (hp : Path p) (h : (p 0).Sound) : Recurs p := by
  have h0 : p 0 = (p 0).openAt 0 [] := (openAt_of_closedAt h.closed []).symm
  have hnone : ∀ v ∈ ([] : List (Nameless α)), v.Sound := by simp
  have hc : (p 0).ClosedAt ([] : List (Nameless α)).length := h.closed
  rcases hp.recurs_or_reaches (Nat.le_refl _) (Nat.le_refl _) h.wellFormed hc hnone h0 with h | h
  · exact h
  · obtain ⟨n, -, i, -, j, -, v, hv, -⟩ := h
    exact absurd hv List.not_mem_nil

end Path

/-! ### Finitely many labels -/

/-- The set has what paths from the opened type visit before they are below one of the types put in. -/
private structure Confined (t : Nameless α) (vs : List (Nameless α)) (X : Set (Nameless α)) : Prop where
  finite : X.Finite
  self : t.openAt 0 vs ∈ X
  step : ∀ u ∈ X, ∀ w, Child u.unroll w → w ∈ X ∨ ∃ v ∈ vs, Child v.unroll w
  head : ∀ m, t.Guarded m → ∀ w, Child (t.openAt 0 vs).unroll w → w ∈ X ∨ ∃ v ∈ vs.drop m, Child v.unroll w

private theorem confined_insert {t : Nameless α} {vs : List (Nameless α)} {X : Set (Nameless α)} (hfin : X.Finite)
    (hchild : ∀ w, Child (t.openAt 0 vs).unroll w → w ∈ X)
    (hstep : ∀ u ∈ X, ∀ w, Child u.unroll w → w ∈ X ∨ ∃ v ∈ vs, Child v.unroll w) :
    Confined t vs (insert (t.openAt 0 vs) X) := by
  refine ⟨hfin.insert _, .inl rfl, fun u hu w hw => ?_, fun m _ w hw => .inl (.inr (hchild w hw))⟩
  rcases hu with rfl | hu
  · exact .inl (.inr (hchild w hw))
  · exact (hstep u hu w hw).imp_left .inr

private theorem exists_confined [Finite α] {k : Nat} {t : Nameless α} {vs : List (Nameless α)} (hk : sizeOf t ≤ k)
    (ht : t.WellFormed) (hc : t.ClosedAt vs.length) (hvs : ∀ v ∈ vs, v.Sound) : ∃ X, Confined t vs X := by
  induction k generalizing t vs with
  | zero => cases t <;> simp at hk
  | succ k ih =>
    have hvs0 : ∀ v ∈ vs, v.ClosedAt 0 := fun v hv => (hvs v hv).closed
    by_cases hflat : t.isFlat = true
    · have hpieces : ∀ u ∈ t.pieces, ∃ X, Confined u vs X := by
        intro u hu
        have hlt := sizeOf_lt_of_mem_pieces hu
        exact ih (by omega) (ht.of_mem_pieces hu) (hc.of_mem_pieces hu) hvs
      choose X hX using hpieces
      refine ⟨_, confined_insert (X := ⋃ u, ⋃ hu, X u hu) ?_ (fun w hw => ?_) fun u hu w hw => ?_⟩
      · exact (List.finite_toSet t.pieces).biUnion' fun u hu => (hX u hu).finite
      · obtain ⟨u, hu, rfl⟩ := child_openAt hflat hw
        exact Set.mem_iUnion₂.2 ⟨u, hu, (hX u hu).self⟩
      · obtain ⟨c, hc, hu⟩ := Set.mem_iUnion₂.1 hu
        exact ((hX c hc).step u hu w hw).imp_left fun h => Set.mem_iUnion₂.2 ⟨c, hc, h⟩
    · cases t with
      | generic n b =>
        have hbody : ∀ xs : List α, xs.length = n → ∃ X, Confined b (xs.map Nameless.free ++ vs) X := by
          intro xs hxs
          have hlt : sizeOf b ≤ k := by
            rw [generic.sizeOf_spec] at hk
            omega
          exact ih hlt ht.of_generic (closedAt_of_closedAt_generic hc hxs) (sound_of_mem_labels_append hvs)
        choose X hX using hbody
        refine ⟨_, confined_insert (X := ⋃ xs, ⋃ hxs, X xs hxs) ?_ (fun w hw => ?_) fun u hu w hw => ?_⟩
        · exact (List.finite_length_eq α n).biUnion' fun xs hxs => (hX xs hxs).finite
        · obtain ⟨xs, hxs, rfl⟩ := child_openAt_generic hvs0 hw
          exact Set.mem_iUnion₂.2 ⟨xs, hxs, (hX xs hxs).self⟩
        · obtain ⟨xs, hxs, hu⟩ := Set.mem_iUnion₂.1 hu
          rcases (hX xs hxs).step u hu w hw with h | ⟨v, hv, hw⟩
          · exact .inl (Set.mem_iUnion₂.2 ⟨xs, hxs, h⟩)
          · rcases List.mem_append.1 hv with hv | hv
            · obtain ⟨x, -, rfl⟩ := List.mem_map.1 hv
              exact absurd hw not_child_free
            · exact .inr ⟨v, hv, hw⟩
      | mu b =>
        have hsound : ((Nameless.mu b).openAt 0 vs).Sound := sound_openAt ht hc hvs
        have hunroll := unroll_openAt_mu ht hc hvs
        have hbc : b.ClosedAt ((Nameless.mu b).openAt 0 vs :: vs).length := by
          rw [closedAt_mu] at hc
          exact hc
        have hlt : sizeOf b ≤ k := by
          rw [mu.sizeOf_spec] at hk
          omega
        obtain ⟨hbg, hbw⟩ := ht.of_mu
        obtain ⟨X, hX⟩ := ih hlt hbw hbc (List.forall_mem_cons.2 ⟨hsound, hvs⟩)
        -- below the type itself a path is where it is below the opened body, or below one of the types put in
        have hself : ∀ m, b.Guarded (m + 1) → ∀ w, Child ((Nameless.mu b).openAt 0 vs).unroll w →
            w ∈ X ∨ ∃ v ∈ vs.drop m, Child v.unroll w := by
          intro m hm w hw
          rw [← hunroll] at hw
          exact hX.head (m + 1) hm w hw
        refine ⟨insert ((Nameless.mu b).openAt 0 vs) X, hX.finite.insert _, .inl rfl, fun u hu w hw => ?_,
          fun m hm w hw => (hself m hm w hw).imp_left .inr⟩
        rcases hu with rfl | hu
        · exact (hself 0 hbg w hw).imp_left .inr
        · rcases hX.step u hu w hw with h | ⟨v, hv, hw⟩
          · exact .inl (.inr h)
          · rcases List.mem_cons.1 hv with rfl | hv
            · exact (hself 0 hbg w hw).imp_left .inr
            · exact .inr ⟨v, hv, hw⟩
      | bound i =>
        have hi : i < vs.length := by
          have hlt : i < 0 + vs.length := hc
          omega
        have hopen : (Nameless.bound i).openAt 0 vs = vs[i] := by
          show opened 0 vs 0 i = vs[i]
          rw [opened, if_neg (by omega), Nat.sub_zero, List.getElem?_eq_getElem hi]
          rfl
        refine ⟨{vs[i]}, Set.finite_singleton _, hopen, fun u hu w hw => ?_, fun m hm w hw => ?_⟩
        · obtain rfl := hu
          exact .inr ⟨_, List.getElem_mem hi, hw⟩
        · have hle : m ≤ i := hm
          rw [hopen] at hw
          refine .inr ⟨_, List.mem_drop_iff_getElem.2 ⟨i - m, by omega, rfl⟩, ?_⟩
          simpa [Nat.add_sub_cancel' hle] using hw
      | _ => exact absurd rfl hflat

/-- With finitely many labels an endless path through a sound type visits finitely many types. -/
theorem Path.finite_range [Finite α] {p : Nat → Nameless α} (hp : Path p) (h : (p 0).Sound) :
    (Set.range p).Finite := by
  have hc : (p 0).ClosedAt ([] : List (Nameless α)).length := h.closed
  have hnone : ∀ v ∈ ([] : List (Nameless α)), v.Sound := by simp
  obtain ⟨X, hX⟩ := exists_confined (Nat.le_refl _) h.wellFormed hc hnone
  refine hX.finite.subset (Set.range_subset_iff.2 fun i => ?_)
  induction i with
  | zero =>
    have hself := hX.self
    rwa [openAt_of_closedAt h.closed] at hself
  | succ i ih =>
    rcases hX.step _ ih _ (hp i) with hi | ⟨v, hv, -⟩
    · exact hi
    · exact absurd hv List.not_mem_nil

theorem Child.relabel {β : Type} {t u : Nameless α} (h : Child t u) (k : α → β) :
    Child (t.relabel k) (u.relabel k) := by
  cases h with
  | piece h =>
    have hflat : t.isFlat = true := by
      cases t <;> simp_all [pieces, isFlat]
    have hpieces : (t.relabel k).pieces = t.pieces.map (Nameless.relabel k) :=
      pieces_graft _ _ hflat fun _ _ => rfl
    refine .piece ?_
    rw [hpieces]
    exact List.mem_map_of_mem h
  | @body n t xs h =>
    rw [relabel_openAt, List.map_map]
    have hbody : Child (Nameless.generic n (t.relabel k)) ((t.relabel k).openAt 0 ((xs.map k).map .free)) :=
      .body (by rw [List.length_map, h])
    rwa [List.map_map] at hbody

/-- An endless path through a sound type on which only finitely many labels occur visits finitely many types. -/
theorem Path.finite_range_of_labels [Inhabited α] {p : Nat → Nameless α} {F : Set α} (hF : F.Finite) (hp : Path p)
    (h : (p 0).Sound) (hlabels : ∀ i x, (p i).Has x → x ∈ F) : (Set.range p).Finite := by
  classical
  have := hF.to_subtype
  -- all other labels become one
  let out : α → Option F := fun x => if hx : x ∈ F then some ⟨x, hx⟩ else none
  let back : Option F → α := fun o => match o with
    | some y => y.1
    | none => default
  have hq : Path fun i => (p i).relabel out := by
    intro i
    have hi := (hp i).relabel out
    rwa [relabel_unroll] at hi
  have hsound : ((p 0).relabel out).Sound := ⟨closedAt_relabel h.closed _, wellFormed_relabel h.wellFormed _⟩
  refine ((hq.finite_range hsound).image (Nameless.relabel back)).subset ?_
  rintro _ ⟨i, rfl⟩
  refine ⟨_, ⟨i, rfl⟩, ?_⟩
  have hid : (p i).relabel (fun x => back (out x)) = (p i).relabel id :=
    relabel_congr fun x hx => by simp only [out, dif_pos (hlabels i x hx), back, id]
  rw [relabel_relabel, hid]
  exact graft_id _

end MuTypes.Nameless
