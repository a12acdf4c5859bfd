import MuTypes.Proofs.Cycles
import MuTypes.Proofs.InOrder
import MuTypes.Proofs.Monomorphic
import MuTypes.Proofs.Nameless.OrderLaws

/-!
# Types compared with their likes

A type fits itself, its unrollings and the types that are equal to it up to bound names, and the comparison comes to
that answer (`InOrder.interchangeable`).

The two sides are unrolled apart and get different new names.  But they stay twins: there is one nameless type, with
a pair of names at each leaf, that spells both (`Twin`).  A walk of the comparison is a path of such types
(`Enters.twins`), and a path comes back to one recursive type infinitely often, pairs of names and all
(`Path.recurs`).  There the cycle is closed, so the walk cannot go on for ever (`settles_of_alike`).

Equality up to bound names says too little about a type that repeats a type parameter, or that has a name which is yet
to be drawn: the two sides need not fit then (`not_interchangeable`).
-/

namespace MuTypes.Ty

open Nameless NameSupply

/-! ### Twins -/

/-- The nameless type spells the one type with the first names at its leaves, and the other one, up to the order of
entries, with the second names. -/
structure Twin (z : Nameless (Name × Name)) (t u : Nameless Name) : Prop where
  sound : z.Sound
  left : z.relabel Prod.fst = t
  right : Alike (z.relabel Prod.snd) u

namespace Twin

variable {z : Nameless (Name × Name)} {t t' u u' : Nameless Name}

theorem unroll (h : Twin z t u) : Twin z.unroll t.unroll u.unroll := by
  obtain ⟨hz, rfl, hr⟩ := h
  refine ⟨hz.unroll, relabel_unroll _ _, ?_⟩
  rw [relabel_unroll]
  exact hr.unroll

/-- Twins with the same spelling are alike. -/
theorem alike (h : Twin z t u) (h' : Twin z t' u') (hu : u.WellFormed) : Alike t t' ∧ Alike u u' := by
  obtain ⟨hz, rfl, hr⟩ := h
  obtain ⟨-, rfl, hr'⟩ := h'
  exact ⟨alike_refl (wellFormed_relabel hz.wellFormed _),
    (hr.symm (wellFormed_relabel hz.wellFormed _) hu).trans hr'⟩

theorem isMu_eq (h : Twin z t u) : z.isMu = t.isMu := by
  obtain ⟨-, rfl, -⟩ := h
  cases z with
  | func ps r => rw [relabel_func]; rfl
  | object ps => rw [relabel_object]; rfl
  | union vs => rw [relabel_union]; rfl
  | _ => rfl

end Twin

/-! ### Parts of twins -/

private theorem exists_of_map_eq {σ τ ρ : Type} {f : σ → ρ} {g : τ → ρ} {zs : List (Name × σ)} {ps : List (Name × τ)}
    (h : (zs.map fun z => (z.1, f z.2)) = ps.map fun p => (p.1, g p.2)) {p : Name × τ} (hp : p ∈ ps) :
    ∃ z ∈ zs, z.1 = p.1 ∧ f z.2 = g p.2 := by
  have hmem : (p.1, g p.2) ∈ zs.map fun z => (z.1, f z.2) := h ▸ List.mem_map_of_mem hp
  obtain ⟨z, hz, he⟩ := List.mem_map.1 hmem
  exact ⟨z, hz, Prod.mk.inj he⟩

private theorem exists_of_mem_zip {σ τ ρ : Type} {f : σ → ρ} {g : τ → ρ} {R : Name × σ → Name × τ → Prop}
    {zs : List (Name × σ)} {ps qs : List (Name × τ)} (h : (zs.map fun z => (z.1, f z.2)) = ps.map fun p => (p.1, g p.2))
    (hq : List.Forall₂ R zs qs) {p q : Name × τ} (hpq : (p, q) ∈ ps.zip qs) : ∃ z ∈ zs, f z.2 = g p.2 ∧ R z q := by
  induction hq generalizing ps with
  | nil => simp at hpq
  | @cons z q' zs qs hz _ ih =>
    cases ps with
    | nil => cases h
    | cons p' ps =>
      obtain ⟨he, h⟩ := List.cons.inj h
      rcases List.mem_cons.1 hpq with e | hpq
      · obtain ⟨rfl, rfl⟩ := Prod.mk.inj e
        exact ⟨z, List.mem_cons_self, (Prod.mk.inj he).2, hz⟩
      · obtain ⟨z', hz', hR⟩ := ih h hpq
        exact ⟨z', List.mem_cons_of_mem z hz', hR⟩

/-- In rows with alike entries, those that are offered under one name are alike. -/
private theorem alike_of_mem {zs : List (Name × Nameless (Name × Name))} {qs : Row} (hd : (qs.map Prod.fst).Nodup)
    (h : ∀ p ∈ zs.map fun z => (z.1, z.2.relabel Prod.snd),
      ∃ t', (qs.map fun q => (q.1, q.2.bare)).lookup p.1 = some t' ∧ Alike p.2 t')
    {z : Name × Nameless (Name × Name)} {q : Name × Ty} (hz : z ∈ zs) (hq : q ∈ qs) (hn : z.1 = q.1) :
    Alike (z.2.relabel Prod.snd) q.2.bare := by
  obtain ⟨t', ht', halike⟩ := h _ (List.mem_map_of_mem hz)
  rw [lookup_map_snd Ty.bare] at ht'
  dsimp only at ht'
  rw [hn, lookup_of_mem hd hq] at ht'
  exact Option.some.inj ht' ▸ halike

/-- A child of a sound type is sound. -/
private theorem sound_child {z y : Nameless (Name × Name)} (hz : z.Sound) (h : Child z y) : y.Sound := by
  cases h with
  | piece h => exact ⟨hz.closed.of_mem_pieces h, hz.wellFormed.of_mem_pieces h⟩
  | @body n b xs h =>
    refine sound_openAt hz.wellFormed.of_generic ?_ (List.forall_mem_map.2 fun x _ => sound_free x)
    rw [List.length_map, h, ← Nat.zero_add n]
    exact (closedAt_generic ..).1 hz.closed

/-- Parts of twins at the same place are twins, spelled by a child. -/
theorem Twin.beside {z : Nameless (Name × Name)} {t u t' u' : Ty} {ns ms : List Name} (h : Twin z t.bare u.bare)
    (hu : u.WellFormed) (hb : Beside t u ns ms t' u') : ∃ y, Child z y ∧ Twin y t'.bare u'.bare := by
  suffices hy : ∃ y, Child z y ∧ y.relabel Prod.fst = t'.bare ∧ Alike (y.relabel Prod.snd) u'.bare by
    obtain ⟨y, hy, hl, hr⟩ := hy
    exact ⟨y, hy, sound_child h.sound hy, hl, hr⟩
  obtain ⟨-, hl, hr⟩ := h
  cases hb with
  | elem =>
    obtain ⟨y, rfl, hyl⟩ := relabel_eq_container_iff.1 hl
    obtain ⟨e, he, hyr⟩ := hr
    obtain ⟨-, rfl⟩ := Nameless.container.inj he
    exact ⟨y, .piece (List.mem_singleton_self y), hyl, hyr⟩
  | param h =>
    rw [bare_func] at hl hr
    obtain ⟨zs, w, rfl, hzs, -⟩ := relabel_eq_func_iff.1 hl
    rw [relabel_func] at hr
    obtain ⟨qs', s', he, hqs, -⟩ := alike_func.1 hr
    obtain ⟨rfl, -⟩ := Nameless.func.inj he
    rw [List.forall₂_map_left_iff, List.forall₂_map_right_iff] at hqs
    obtain ⟨y, hy, hyl, hyr⟩ := exists_of_mem_zip hzs hqs h
    exact ⟨y.2, .piece (mem_pieces_func.2 (.inr ⟨y, hy, rfl⟩)), hyl, hyr.2⟩
  | result =>
    rw [bare_func] at hl hr
    obtain ⟨zs, w, rfl, -, hw⟩ := relabel_eq_func_iff.1 hl
    rw [relabel_func] at hr
    obtain ⟨qs', s', he, -, hs⟩ := alike_func.1 hr
    exact ⟨w, .piece (mem_pieces_func.2 (.inl rfl)), hw, (Nameless.func.inj he).2 ▸ hs⟩
  | property hp hq hn =>
    rw [bare_object] at hl hr
    obtain ⟨zs, rfl, hzs⟩ := relabel_eq_object_iff.1 hl
    rw [relabel_object] at hr
    obtain ⟨qs', he, -, hqs⟩ := alike_object.1 hr
    obtain rfl := Nameless.object.inj he
    obtain ⟨y, hy, hyn, hyl⟩ := exists_of_map_eq hzs hp
    cases hu with
    | object hd _ =>
      exact ⟨y.2, .piece (mem_pieces_object.2 ⟨y, hy, rfl⟩), hyl, alike_of_mem hd hqs hy hq (hyn.trans hn)⟩
  | variant hv hw hvw hp hq hn =>
    rw [bare_union] at hl hr
    obtain ⟨zs, rfl, hzs⟩ := relabel_eq_union_iff.1 hl
    rw [relabel_union] at hr
    obtain ⟨ws', he, -, hws⟩ := alike_union.1 hr
    obtain rfl := Nameless.union.inj he
    obtain ⟨x, hx, hxn, hxl⟩ := exists_of_map_eq 
      (f := fun zs : List (Name × Nameless (Name × Name)) => zs.map fun z => (z.1, z.2.relabel Prod.fst))
      (g := fun ps : Row => ps.map fun p => (p.1, p.2.bare)) hzs hv
    obtain ⟨y, hy, hyn, hyl⟩ := exists_of_map_eq hxl hp
    cases hu with
    | union hd hds _ =>
      obtain ⟨qs', hqs', -, hqs⟩ := hws _ (List.mem_map_of_mem hx)
      rw [lookup_map_snd fun qs : Row => qs.map fun q => (q.1, q.2.bare)] at hqs'
      dsimp only at hqs'
      rw [hxn, hvw, lookup_of_mem hd hw] at hqs'
      obtain rfl := Option.some.inj hqs'
      exact ⟨y.2, .piece (mem_pieces_union.2 ⟨x, hx, y, hy, rfl⟩), hyl,
        alike_of_mem (hds _ hw) hqs hy hq (hyn.trans hn)⟩
  | @body ns ms t u hlength =>
    rw [bare_generic] at hl hr
    obtain ⟨b, rfl, hbl⟩ := relabel_eq_generic_iff.1 hl
    rw [relabel_generic] at hr
    obtain ⟨b', he, hbr⟩ := hr
    obtain ⟨-, rfl⟩ := Nameless.generic.inj he
    have hrev : ns.reverse.length = ms.reverse.length := by simp [hlength]
    -- the pairs of names of the two binders label the variables of the one binder
    refine ⟨b.openAt 0 ((ns.reverse.zip ms.reverse).map .free), .body (by simp [hlength]), ?_, ?_⟩
    · have hlabels : ((ns.reverse.zip ms.reverse).map Nameless.free).map (Nameless.relabel Prod.fst) =
          ns.reverse.map Nameless.free := by
        conv_rhs => rw [← List.map_fst_zip (Nat.le_of_eq hrev)]
        rw [List.map_map, List.map_map]
        rfl
      rw [relabel_openAt, hlabels, hbl]
      exact (nameless_eq_openAt [] ns.reverse _).symm
    · have hlabels : ((ns.reverse.zip ms.reverse).map Nameless.free).map (Nameless.relabel Prod.snd) =
          ms.reverse.map Nameless.free := by
        conv_rhs => rw [← List.map_snd_zip (Nat.le_of_eq hrev.symm)]
        rw [List.map_map, List.map_map]
        rfl
      rw [relabel_openAt, hlabels, bare, nameless_eq_openAt [] ms.reverse]
      refine hbr.openAt_self 0 fun v hv => ?_
      obtain ⟨x, -, rfl⟩ := List.mem_map.1 hv
      exact .free x

/-! ### Walks through twins -/

/-- The two types of the comparison are twins, in one order or the other. -/
def Comparison.Twins (z : Nameless (Name × Name)) (c : Comparison) : Prop :=
  Twin z c.expected.bare c.actual.bare ∨ Twin z c.actual.bare c.expected.bare

/-- The types of the comparison have unrollings that are twins, in one order or the other. -/
def Comparison.UnrolledTwins (z : Nameless (Name × Name)) (c : Comparison) : Prop :=
  Twin z c.expected.bare.unroll c.actual.bare.unroll ∨ Twin z c.actual.bare.unroll c.expected.bare.unroll

theorem Comparison.Twins.unroll {z : Nameless (Name × Name)} {c : Comparison} (h : c.Twins z) :
    c.UnrolledTwins z.unroll :=
  h.imp Twin.unroll Twin.unroll

/-- A step of a walk goes to twins, spelled by a child. -/
theorem Enters.twins {z : Nameless (Name × Name)} {p q : Position} (h : Enters p q)
    (hp : p.comparison.Ready p.supply) (hz : p.comparison.UnrolledTwins z) :
    ∃ y, Child z y ∧ q.comparison.Twins y := by
  induction h with
  | @part assumed c d flipped flipped' s t l r fuel ht hh hparts hrun hside =>
    obtain ⟨he, ha⟩ := Bool.or_eq_false_iff.1 hh
    rw [← isMu_nameless []] at he ha
    have hd : some d ∈ c.parts := hparts ▸ List.mem_append_right l List.mem_cons_self
    have htwins : Comparison.Twins z c := by
      have := hz
      unfold Comparison.UnrolledTwins at this
      rwa [unroll_of_isMu_eq_false he, unroll_of_isMu_eq_false ha] at this
    -- the part of the first twin is the first twin of the parts
    have hbeside : ∀ {t u t' u' : Ty} {ns ms : List Name}, t.WellFormed → u.WellFormed → Beside t u ns ms t' u' →
        Twin z t.bare u.bare ∨ Twin z u.bare t.bare →
        ∃ y, Child z y ∧ (Twin y t'.bare u'.bare ∨ Twin y u'.bare t'.bare) := by
      intro t u t' u' ns ms ht hu hb h
      rcases h with h | h
      · exact (h.beside hu hb).imp fun y hy => ⟨hy.1, .inl hy.2⟩
      · exact (h.beside ht hb.symm).imp fun y hy => ⟨hy.1, .inr hy.2⟩
    rcases Comparison.beside_of_mem_parts hd with ⟨ns, ms, -, hb⟩ | ⟨-, hb⟩
    · exact hbeside hp.expected_wellFormed hp.actual_wellFormed hb htwins
    · exact (hbeside hp.expected_wellFormed hp.actual_wellFormed hb htwins).imp fun y hy => ⟨hy.1, hy.2.symm⟩
  | @unrolled p q d t ht hh hnew hrun h ih =>
    obtain ⟨-, d', hd, hready, -, -, hfrom⟩ := hp.unrollHeads_returns
    rw [hrun] at hd hready
    obtain rfl := Except.ok.inj hd
    refine ih hready ?_
    unfold Comparison.UnrolledTwins
    dsimp only
    rw [hfrom.expected, hfrom.actual, unroll_of_isMu_eq_false hp.expected_wellFormed.sound.isMu_unroll,
      unroll_of_isMu_eq_false hp.actual_wellFormed.sound.isMu_unroll]
    exact hz

/-- An endless walk that starts at types with alike unrollings is a path of twins. -/
private theorem Endless.twins {w : Nat → Position} (hw : Endless w) (hr : (w 0).comparison.Ready (w 0).supply)
    (h : Alike (w 0).comparison.expected.bare.unroll (w 0).comparison.actual.bare.unroll) :
    ∃ z : Nat → Nameless (Name × Name), Path z ∧ (z 0).Sound ∧ ∀ i, (w (i + 1)).comparison.Twins (z (i + 1)) := by
  have hstep : ∀ i (z : Nameless (Name × Name)), (w i).comparison.UnrolledTwins z.unroll →
      ∃ y, Child z.unroll y ∧ (w (i + 1)).comparison.Twins y :=
    fun i z hz => (hw i).twins (hw.ready hr i) hz
  choose next hchild htwins using hstep
  -- at the start the two names of each pair are the same
  let start : Nameless (Name × Name) := (w 0).comparison.expected.bare.relabel fun x => (x, x)
  have hsound : (w 0).comparison.expected.bare.Sound := hr.expected_wellFormed.sound
  have hid : ∀ t : Nameless Name, t.relabel (fun x => x) = t := fun t => graft_id t
  have hstart : (w 0).comparison.UnrolledTwins start.unroll := by
    refine .inl ⟨?_, ?_, ?_⟩
    · exact Sound.unroll ⟨closedAt_relabel hsound.closed _, wellFormed_relabel hsound.wellFormed _⟩
    · rw [relabel_unroll, relabel_relabel, hid]
    · rw [relabel_unroll, relabel_relabel, hid]
      exact h
  let spelling : ∀ i, {z : Nameless (Name × Name) // (w i).comparison.UnrolledTwins z.unroll} := fun i =>
    Nat.rec ⟨start, hstart⟩ (fun i z => ⟨next i z.1 z.2, (htwins i z.1 z.2).unroll⟩) i
  exact ⟨fun i => (spelling i).1, fun i => hchild i _ (spelling i).2,
    ⟨closedAt_relabel hsound.closed _, wellFormed_relabel hsound.wellFormed _⟩, fun i => htwins i _ (spelling i).2⟩

/-- Twins with the same spelling, in the same order and with the same fit, cover each other. -/
private theorem Comparison.covers_of_twins {z : Nameless (Name × Name)} {c d : Comparison} {s : NameSupply}
    (hc : c.Ready s) (hfit : c.fit = d.fit) (h : c.Twins z) (h' : d.Twins z)
    (horder : Twin z c.expected.bare c.actual.bare ↔ Twin z d.expected.bare d.actual.bare) :
    c.assumption.covers d.fit d.expected d.actual = true := by
  have halike : Alike c.expected.bare d.expected.bare ∧ Alike c.actual.bare d.actual.bare := by
    by_cases ho : Twin z c.expected.bare c.actual.bare
    · exact ho.alike (horder.1 ho) hc.actual_wellFormed.sound.wellFormed
    · have hd := h'.resolve_left fun hd => ho (horder.2 hd)
      exact ((h.resolve_left ho).alike hd hc.expected_wellFormed.sound.wellFormed).symm
  unfold Assumption.covers
  rw [Bool.and_eq_true, Bool.and_eq_true, decide_eq_true_eq]
  exact ⟨⟨hfit, alphaEquiv_iff.2 halike.1⟩, alphaEquiv_iff.2 halike.2⟩

/-- The walk from types with alike unrollings is answered with enough fuel. -/
theorem settles_of_alike {p : Position} (hr : p.comparison.Ready p.supply)
    (h : Alike p.comparison.expected.bare.unroll p.comparison.actual.bare.unroll) : p.Settles := by
  classical
  refine (settles_iff hr).2 fun w h0 hw => ?_
  subst h0
  obtain ⟨z, hz, hsound, htwins⟩ := hw.twins hr h
  obtain ⟨v, hv, hinf⟩ := hz.recurs hsound
  -- at two of the places with `v`, past the start, the fit and the order are the same
  let look : Nat → Bool × Bool := fun i =>
    (decide ((w i).comparison.fit = .exact),
      decide (Twin v (w i).comparison.expected.bare (w i).comparison.actual.bare))
  have hclash : ∀ i j, i < j → 0 < i → z i = v → z j = v → look i ≠ look j := by
    intro i j hij hi hzi hzj e
    simp only [look, Prod.mk.injEq, decide_eq_decide] at e
    have hfit : (w i).comparison.fit = (w j).comparison.fit := by
      cases hfi : (w i).comparison.fit <;> cases hfj : (w j).comparison.fit <;> simp_all
    have hvtwins : ∀ k, 0 < k → z k = v → (w k).comparison.Twins v := by
      intro k hk hzk
      obtain ⟨k, rfl⟩ : ∃ m, k = m + 1 := ⟨k - 1, by omega⟩
      exact hzk ▸ htwins k
    have hheaded : ∀ k, 0 < k → z k = v → (w k).comparison.headed = true := by
      intro k hk hzk
      unfold Comparison.headed
      rcases hvtwins k hk hzk with ht | ht
      · rw [← isMu_nameless [], show nameless [] _ = bare _ from rfl, ← ht.isMu_eq, hv, Bool.true_or]
      · rw [← isMu_nameless [] (w k).comparison.actual, show nameless [] (w k).comparison.actual = bare _ from rfl,
          ← ht.isMu_eq, hv, Bool.or_true]
    have hcovers := Comparison.covers_of_twins (hw.ready hr i) hfit (hvtwins i hi hzi)
      (hvtwins j (by omega) hzj) e.2
    exact hw.not_covers hij (hheaded i hi hzi) (hheaded j (by omega) hzj) hcovers
  have hpast : ({i | z i = v} \ {0}).Infinite := hinf.sdiff (Set.finite_singleton 0)
  obtain ⟨i, ⟨hi, hi0⟩, j, ⟨hj, hj0⟩, hne, e⟩ := hpast.exists_ne_map_eq_of_mapsTo
    (Set.mapsTo_univ look _) Set.finite_univ
  rcases Nat.lt_or_gt_of_ne hne with hlt | hlt
  · exact hclash i j hlt (Nat.pos_of_ne_zero hi0) hi hj e
  · exact hclash j i hlt (Nat.pos_of_ne_zero hj0) hj hi e.symm

/-! ### Answers -/

/-- With enough fuel the comparison says yes, and more fuel does not change that. -/
def Accepts (scope : List Name) (fit : Fit) (expected actual : Ty) (s : NameSupply) : Prop :=
  ∃ fuel, ∀ n, fuel ≤ n → ((fits n scope fit expected actual).run.run s).1 = .ok true

/-- A comparison that says no does not say yes with more fuel. -/
theorem not_accepts {scope : List Name} {fit : Fit} {e a : Ty} {s : NameSupply} {fuel : Nat}
    (h : ((fits fuel scope fit e a).run.run s).1 = .ok false) : ¬ Accepts scope fit e a s := by
  rintro ⟨n, hn⟩
  have hyes := hn _ (Nat.le_max_left n fuel)
  have hno := fitsUnder_mono (Nat.le_max_right n fuel) [] (.ofScope scope) fit e a s false _ (Prod.ext h rfl)
  rw [fits, hno] at hyes
  cases hyes

/-- A comparison that holds says yes if it gives an answer. -/
theorem accepts_of_settles {scope : List Name} {fit : Fit} {e a : Ty} {s : NameSupply}
    (hr : Comparison.Ready ⟨.ofScope scope, fit, e, a⟩ s)
    (h : Position.Settles ⟨[], ⟨.ofScope scope, fit, e, a⟩, false, s⟩)
    (hall : ∀ k, Comparison.Agree k ⟨.ofScope scope, fit, e, a⟩) : Accepts scope fit e a s := by
  obtain ⟨fuel, b, t, hrun⟩ := h
  have hfits : ∀ n, fuel ≤ n → ((fits n scope fit e a).run.run s).1 = .ok b := fun n hn =>
    congrArg Prod.fst (hrun n hn)
  cases b with
  | true => exact ⟨fuel, hfits⟩
  | false => exact absurd (hfits fuel (Nat.le_refl fuel)) (fits_ne_false hr hall fuel)

/-- Types with alike unrollings fit each other. -/
theorem accepts_of_alike {scope : List Name} {fit : Fit} {e a : Ty} {s : NameSupply} (he : e.InOrder scope s)
    (ha : a.InOrder scope s) (h : Alike e.bare.unroll a.bare.unroll) : Accepts scope fit e a s := by
  have hr := he.ready ha fit
  refine accepts_of_settles hr (settles_of_alike hr h) fun k => ?_
  refine Nameless.Comparison.agrees_of_alike hr.sound ?_ k
  rw [Comparison.located_ofScope]
  show Alike (e.located _).unroll (a.located _).unroll
  rw [located, located, ← relabel_unroll, ← relabel_unroll]
  exact h.relabel _

/-- Each of the types fits where the other is required, from whatever supply the comparison starts. -/
def Interchangeable (scope : List Name) (fit : Fit) (t u : Ty) : Prop :=
  ∀ s : NameSupply, s.AheadOfTy t → s.AheadOfTy u → Accepts scope fit t u s ∧ Accepts scope fit u t s

/-- A type and another one with an alike unrolling are interchangeable. -/
private theorem interchangeable_of_alike {scope : List Name} {fit : Fit} {t u : Ty} {s s' : NameSupply}
    (ht : t.InOrder scope s) (hu : u.InOrder scope s') (h : Alike t.bare.unroll u.bare.unroll) :
    Interchangeable scope fit t u := by
  intro s hst hsu
  have ht : t.InOrder scope s := { ht with ahead := hst }
  have hu : u.InOrder scope s := { hu with ahead := hsu }
  exact ⟨accepts_of_alike ht hu h, accepts_of_alike hu ht
    (h.symm ht.wellFormed.sound.unroll.wellFormed hu.wellFormed.sound.unroll.wellFormed)⟩

/-- A type is interchangeable with itself, with its unrollings, and with the types that are equal to it up to bound
names. -/
theorem InOrder.interchangeable {scope : List Name} {t : Ty} {s : NameSupply} (h : t.InOrder scope s) (fit : Fit) :
    Interchangeable scope fit t t ∧
    s.Yields t.unrollOnce (fun u s' => s'.AheadOfTy u ∧ Interchangeable scope fit t u) ∧
    s.Yields t.unroll (fun o s' => ∃ u, o = some u ∧ s'.AheadOfTy u ∧ Interchangeable scope fit t u) ∧
    ∀ u, t.alphaEquiv u = true → u.DistinctParams → Interchangeable scope fit t u := by
  have hsound := h.wellFormed.sound
  have hrefl : ∀ {n : Nameless Name}, n.Sound → Alike n n := fun hn => alike_refl hn.wellFormed
  have hmem : ∀ x, t.bare.Has x → x ∈ scope := fun x hx => h.mem x (has_nameless_iff.1 hx).1
  refine ⟨interchangeable_of_alike h h (hrefl hsound.unroll), ?_, ?_, fun u hu hd => ?_⟩
  · refine (unrollOnce_yields h.spells).mono fun u s' _ hu => ⟨hu.ahead, ?_⟩
    have hhas : ∀ x, t.bare.unrollOnce.Has x → x ∈ scope := fun x hx => hmem x (has_unrollOnce hx)
    refine interchangeable_of_alike h (hu.inOrder hsound.unrollOnce.wellFormed hhas) ?_
    rw [hu.bare, hsound.unroll_unrollOnce]
    exact hrefl hsound.unroll
  · refine (unroll_yields hsound h.spells).mono fun o s' _ ho => ?_
    obtain ⟨u, rfl, -, hu⟩ := ho
    have hhas : ∀ x, t.bare.unroll.Has x → x ∈ scope := fun x hx => hmem x (has_unroll hx)
    refine ⟨u, rfl, hu.ahead, interchangeable_of_alike h (hu.inOrder hsound.unroll.wellFormed hhas) ?_⟩
    rw [hu.bare, unroll_of_isMu_eq_false hsound.isMu_unroll]
    exact hrefl hsound.unroll
  · have halike : Alike t.bare u.bare := alphaEquiv_iff.1 hu
    obtain ⟨hw, hhas⟩ := halike.wellFormed hsound.wellFormed
    obtain ⟨s', hs'⟩ := exists_aheadOf u.typeNames
    have hin : u.InOrder scope s' :=
      ⟨(wellFormed_iff []).2 ⟨hw, hd⟩, fun x hx => hmem x (hhas x (has_nameless_iff.2 ⟨hx, List.not_mem_nil⟩)), hs'⟩
    exact interchangeable_of_alike h hin halike.unroll

/-- `mu R. (f: <W>(p: W, q: R) => W) => W`: the free variable has the name of the binder, which so gets a new name with
every unrolling. -/
def shadowedFree : Ty :=
  .mu "R" (.func [("f", .generic ["W"] (.func [("p", .var "W"), ("q", .var "R")] (.var "W")))] (.var "W"))

/-- The same type with other names for its binders, of which none is ever renamed. -/
def distinctFree : Ty :=
  .mu "A" (.func [("f", .generic ["Y"] (.func [("p", .var "Y"), ("q", .var "A")] (.var "Y")))] (.var "W"))

theorem interchangeable_shadowedFree :
    shadowedFree.InOrder ["W"] {} ∧ shadowedFree.alphaEquiv distinctFree = true ∧
      Accepts ["W"] .wide shadowedFree distinctFree {} ∧ Accepts ["W"] .wide distinctFree shadowedFree {} := by
  have hinOrder : shadowedFree.InOrder ["W"] {} :=
    ⟨by decide, mentions_mem_of_freeNames (by decide), aheadOfTy_of_at_sign_not_mem (by decide) {}⟩
  have hwellFormed : distinctFree.WellFormed := by decide
  have halpha : shadowedFree.alphaEquiv distinctFree = true := by cbv
  have hfit := (hinOrder.interchangeable .wide).2.2.2 distinctFree halpha hwellFormed.distinctParams {}
    hinOrder.ahead (aheadOfTy_of_at_sign_not_mem (by decide) {})
  exact ⟨hinOrder, halpha, hfit⟩

/-- `<W>(mu R. { w: W; n: <P, Q>{ a: Q; n: R } })` -/
def separateParams : Ty :=
  .generic ["W"] (.mu "R" (.object [("w", .var "W"),
    ("n", .generic ["P", "Q"] (.object [("a", .var "Q"), ("n", .var "R")]))]))

/-- The same type with one name for all parameters.  The inner ones get a new name each with every unrolling, and then
the first of them is the one that `a` mentions. -/
def repeatedParams : Ty :=
  .generic ["X"] (.mu "R" (.object [("w", .var "X"),
    ("n", .generic ["X", "X"] (.object [("a", .var "X"), ("n", .var "R")]))]))

/-- `<P><Y>(mu R. { a: Y; n: <Y>{ c: P; n: R } })` for any name `P`.  The inner `Y` gets a new name with every
unrolling, which may be `P`. -/
def outerParam (p : Name) : Ty :=
  .generic [p] (.generic ["Y"] (.mu "R" (.object [("a", .var "Y"),
    ("n", .generic ["Y"] (.object [("c", .var p), ("n", .var "R")]))])))

/-- A type need not fit one that is equal to it up to bound names, when that one repeats a type parameter or has a name
that the supply is going to draw. -/
theorem not_interchangeable :
    (separateParams.InOrder [] {} ∧ separateParams.alphaEquiv repeatedParams = true ∧
      ¬ Accepts [] .exact separateParams repeatedParams {}) ∧
    (outerParam "Q").InOrder [] {} ∧ (outerParam "Q").alphaEquiv (outerParam "Y@2") = true ∧
      ¬ Accepts [] .exact (outerParam "Q") (outerParam "Y@2") {} := by
  have hseparate : separateParams.InOrder [] {} :=
    ⟨by decide, mentions_mem_of_freeNames (by decide), aheadOfTy_of_at_sign_not_mem (by decide) {}⟩
  have houter : (outerParam "Q").InOrder [] {} :=
    ⟨by decide, mentions_mem_of_freeNames (by decide), aheadOfTy_of_at_sign_not_mem (by decide) {}⟩
  have hrepeated : ((fits 10 [] .exact separateParams repeatedParams).run.run {}).1 = .ok false := by cbv
  have hcaptured : ((fits 10 [] .exact (outerParam "Q") (outerParam "Y@2")).run.run {}).1 = .ok false := by cbv
  exact ⟨⟨hseparate, by cbv, not_accepts hrepeated⟩, houter, by cbv, not_accepts hcaptured⟩

end MuTypes.Ty
