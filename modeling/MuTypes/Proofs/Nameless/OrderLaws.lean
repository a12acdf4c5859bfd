import MuTypes.Proofs.Nameless.Coinduction

/-!
# Agreement is an order

Types agree with themselves, whatever the order of their entries and however often they are unrolled
(`agrees_of_alike`).  The exact agreement is symmetric (`Agrees.symm`), and it is finer than the wide one
(`Agrees.of_exact`).  Both are transitive among types in which `undefined`, which agrees with everything, does not
occur (`Agrees.trans`).  Where it does not occur in a type, all those that agree exactly with this one agree with each
other (`Agrees.of_shared`).
-/

namespace MuTypes.Nameless

/-! ### Types without a primitive -/

section Lacks

variable {α β : Type} {q : Prim}

/-- The primitive occurs nowhere in the type. -/
inductive Lacks (q : Prim) : Nameless α → Prop where
  | prim {p : Prim} (h : p ≠ q) : Lacks q (.prim p)
  | container {k : Container} {e : Nameless α} (he : Lacks q e) : Lacks q (.container k e)
  | func {ps : List (Name × Nameless α)} {r : Nameless α} (hps : ∀ p ∈ ps, Lacks q p.2) (hr : Lacks q r) :
    Lacks q (.func ps r)
  | object {ps : List (Name × Nameless α)} (hps : ∀ p ∈ ps, Lacks q p.2) : Lacks q (.object ps)
  | union {vs : List (Name × List (Name × Nameless α))} (hvs : ∀ v ∈ vs, ∀ p ∈ v.2, Lacks q p.2) :
    Lacks q (.union vs)
  | mu {b : Nameless α} (hb : Lacks q b) : Lacks q (.mu b)
  | generic {n : Nat} {b : Nameless α} (hb : Lacks q b) : Lacks q (.generic n b)
  | bound (i : Nat) : Lacks q (.bound i)
  | free (x : α) : Lacks q (.free x)

theorem lacks_graft {f : Nat → Nat → Nameless β} {g : Nat → α → Nameless β} (hf : ∀ d i, (f d i).Lacks q)
    (hg : ∀ d x, (g d x).Lacks q) {t : Nameless α} (h : t.Lacks q) : (t.graft f g).Lacks q := by
  induction h generalizing f g with
  | prim h => exact .prim h
  | container _ ih => exact .container (ih hf hg)
  | func _ _ ihps ihr =>
    rw [graft_func]
    exact .func (List.forall_mem_map.2 fun p hp => ihps p hp hf hg) (ihr hf hg)
  | object _ ih =>
    rw [graft_object]
    exact .object (List.forall_mem_map.2 fun p hp => ih p hp hf hg)
  | union _ ih =>
    rw [graft_union]
    exact .union (List.forall_mem_map.2 fun v hv => List.forall_mem_map.2 fun p hp => ih v hv p hp hf hg)
  | mu _ ih => exact .mu (ih (fun d => hf (d + 1)) fun d => hg (d + 1))
  | @generic n b _ ih => exact .generic (ih (fun d => hf (d + n)) fun d => hg (d + n))
  | bound i => exact hf 0 i
  | free x => exact hg 0 x

theorem lacks_openAt {m : Nat} {vs : List (Nameless α)} {t : Nameless α} (ht : t.Lacks q) (hvs : ∀ v ∈ vs, v.Lacks q) :
    (t.openAt m vs).Lacks q := by
  refine lacks_graft (fun d i => ?_) (fun _ x => .free x) ht
  rcases opened_mem_or m d i vs with hi | hi
  · rw [hi]
    exact .bound i
  · exact hvs _ hi

namespace Lacks

theorem unroll {t : Nameless α} (h : t.Lacks q) : t.unroll.Lacks q := by
  have honce : ∀ {t : Nameless α}, t.Lacks q → t.unrollOnce.Lacks q := by
    intro t ht
    cases t with
    | mu b =>
      cases ht with
      | mu hb => exact lacks_openAt hb (by simpa using Lacks.mu hb)
    | _ => exact ht
  unfold Nameless.unroll
  generalize t.muCount = k
  induction k generalizing t with
  | zero => exact h
  | succ k ih => exact ih (honce h)

theorem part {n m : Nat} {t u : Nameless Nat} (h : t.Lacks q) (hu : Part n t m u) : u.Lacks q := by
  cases hu with
  | elem =>
    cases h with
    | container he => exact he
  | param hp =>
    cases h with
    | func hps _ => exact hps _ hp
  | result =>
    cases h with
    | func _ hr => exact hr
  | property hp =>
    cases h with
    | object hps => exact hps _ hp
  | variant hv hp =>
    cases h with
    | union hvs => exact hvs _ hv _ hp
  | body =>
    cases h with
    | generic hb =>
      refine lacks_openAt hb fun v hv => ?_
      obtain ⟨x, rfl, -⟩ := mem_levels hv
      exact .free x

end Lacks

end Lacks

namespace Comparison

variable {c : Comparison} {n : Nat} {fit : Fit} {e m a : Nameless Nat}

/-! ### Reflexivity -/

/-- Types with alike unrollings agree. -/
theorem agrees_of_alike (hc : c.Sound) (h : Alike c.expected.unroll c.actual.unroll) : c.Agrees := by
  refine agrees_of_meets (S := fun c => Alike c.expected.unroll c.actual.unroll ∨
    Alike c.actual.unroll c.expected.unroll) (fun c hc h => ?_) hc (.inl h)
  have halike : Alike c.unrolled.expected c.unrolled.actual :=
    h.elim id fun h => h.symm hc.actual.unroll.wellFormed hc.expected.unroll.wellFormed
  have hmu : c.unrolled.expected.isMu = false := hc.expected.isMu_unroll
  have hclosed : c.unrolled.expected.ClosedAt 0 := hc.expected.unroll.closed
  generalize c.unrolled = c at halike hmu hclosed
  obtain ⟨n, fit, e, a⟩ := c
  cases e with
  | prim p =>
    obtain rfl := halike
    exact .prim p
  | container k e =>
    obtain ⟨a, rfl, h⟩ := halike
    exact .container (.inl h.unroll)
  | func ps r =>
    obtain ⟨qs, s, rfl, hps, hr⟩ := alike_func.1 halike
    cases fit with
    | exact => exact .funcExact (hps.imp fun _ _ h => .inl h.2.unroll) (.inl hr.unroll)
    | wide => exact .funcWide (hps.imp fun _ _ h => .inr h.2.unroll) (.inl hr.unroll)
  | object ps =>
    obtain ⟨qs, rfl, hl, hps⟩ := alike_object.1 halike
    exact .object (.inr hl) fun p hp => (hps p hp).imp fun u hu => ⟨hu.1, .inl hu.2.unroll⟩
  | union vs =>
    obtain ⟨ws, rfl, hl, hvs⟩ := alike_union.1 halike
    refine .union hl fun v hv => (hvs v hv).imp fun qs hqs => ⟨hqs.1, hqs.2.1, fun p hp => ?_⟩
    exact (hqs.2.2 p hp).imp fun u hu => ⟨hu.1, .inl hu.2.unroll⟩
  | mu b => cases hmu
  | generic m b =>
    obtain ⟨b', rfl, h⟩ := halike
    exact .generic (.inl (h.openAt_self 0 fun v hv => (sound_of_mem_levels hv).wellFormed).unroll)
  | bound i => exact absurd (show i < 0 + 0 from hclosed) (by omega)
  | free x =>
    obtain rfl := halike
    exact .free x

/-! ### Symmetry -/

theorem Sound.swap (h : Sound ⟨n, fit, e, a⟩) : Sound ⟨n, fit, a, e⟩ :=
  ⟨h.actual, h.expected, h.actual_lt, h.expected_lt⟩

theorem Sound.of_fit {fit' : Fit} (h : Sound ⟨n, fit, e, a⟩) : Sound ⟨n, fit', e, a⟩ :=
  ⟨h.expected, h.actual, h.expected_lt, h.actual_lt⟩

/-- Rows of the same length, with entries that correspond under the names of the one, correspond under those of the
other. -/
private theorem forall_lookup_swap {τ : Type} {R : τ → τ → Prop} {ps qs : List (Name × τ)}
    (hd : (ps.map Prod.fst).Nodup) (hd' : (qs.map Prod.fst).Nodup) (hl : ps.length = qs.length)
    (h : ∀ p ∈ ps, ∃ u, qs.lookup p.1 = some u ∧ R p.2 u) : ∀ q ∈ qs, ∃ t, ps.lookup q.1 = some t ∧ R t q.2 := by
  intro q hq
  obtain ⟨p, hp, hn, hR⟩ := exists_entry hd hd' hl h hq
  exact ⟨p.2, hn ▸ lookup_of_mem hd hp, hR⟩

/-- For the exact agreement it does not matter which type comes first. -/
theorem Agrees.symm (h : Agrees ⟨n, .exact, e, a⟩) (hc : Sound ⟨n, .exact, e, a⟩) : Agrees ⟨n, .exact, a, e⟩ := by
  refine agrees_of_meets (S := fun c => c.fit = .exact ∧ Agrees ⟨c.depth, .exact, c.actual, c.expected⟩)
    (fun c hc hS => ?_) hc.swap ⟨rfl, h⟩
  obtain ⟨n, fit, a, e⟩ := c
  obtain ⟨rfl, h⟩ : fit = .exact ∧ Agrees ⟨n, .exact, e, a⟩ := hS
  have hmeets := h.meets hc.swap
  have hew := hc.actual.unroll.wellFormed
  have haw := hc.expected.unroll.wellFormed
  show Meets _ ⟨n, .exact, a.unroll, e.unroll⟩
  change Meets _ ⟨n, .exact, e.unroll, a.unroll⟩ at hmeets
  generalize e.unroll = e at hmeets hew
  generalize a.unroll = a at hmeets haw
  cases hmeets with
  | undefined ht => exact .undefined ht.symm
  | prim p => exact .prim p
  | free x => exact .free x
  | container h => exact .container ⟨rfl, h⟩
  | funcExact hps hr => exact .funcExact (hps.flip.imp fun _ _ h => ⟨rfl, h⟩) ⟨rfl, hr⟩
  | object hcount hps =>
    have hl := hcount.resolve_left (by simp)
    cases hew with
    | object hd _ =>
      cases haw with
      | object hd' _ =>
        refine .object (.inr hl.symm) fun q hq => ?_
        exact (forall_lookup_swap (R := fun t u => Agrees ⟨n, .exact, t, u⟩) hd hd' hl hps q hq).imp
          fun t ht => ⟨ht.1, rfl, ht.2⟩
  | union hcount hvs =>
    cases hew with
    | union hd hds _ =>
      cases haw with
      | union hd' hds' _ =>
        refine .union hcount.symm fun w hw => ?_
        obtain ⟨v, hv, hn, hl, hps⟩ := exists_entry (P := fun ps qs : List (Name × Nameless Nat) =>
          ps.length = qs.length ∧ ∀ p ∈ ps, ∃ u, qs.lookup p.1 = some u ∧ Agrees ⟨n, .exact, p.2, u⟩)
          hd hd' hcount hvs hw
        refine ⟨v.2, hn ▸ lookup_of_mem hd hv, hl.symm, fun q hq => ?_⟩
        exact (forall_lookup_swap (R := fun t u => Agrees ⟨n, .exact, t, u⟩) (hds v hv) (hds' w hw) hl hps q hq).imp
          fun t ht => ⟨ht.1, rfl, ht.2⟩
  | generic h => exact .generic ⟨rfl, h⟩

/-! ### The two kinds of agreement -/

/-- What agrees exactly agrees. -/
theorem Agrees.of_exact (h : Agrees ⟨n, .exact, e, a⟩) (hc : Sound ⟨n, .exact, e, a⟩) (fit : Fit) :
    Agrees ⟨n, fit, e, a⟩ := by
  refine agrees_of_meets (S := fun c => Agrees { c with fit := .exact }) (fun c hc h => ?_) hc.of_fit h
  obtain ⟨n, fit, e, a⟩ := c
  have hc : Sound ⟨n, .exact, e, a⟩ := hc.of_fit
  have hmeets : Meets Agrees ⟨n, .exact, e.unroll, a.unroll⟩ := Agrees.meets h hc
  have hsound : Sound ⟨n, .exact, e.unroll, a.unroll⟩ := hc.unrolled
  -- parameters are compared the other way round, so their agreement is needed in both directions
  replace hmeets : Meets (fun d => Agrees d ∧ (d.fit = .exact → Agrees ⟨d.depth, .exact, d.actual, d.expected⟩))
      ⟨n, .exact, e.unroll, a.unroll⟩ := by
    refine hmeets.mono fun d hd h => ⟨h, fun hfit => ?_⟩
    obtain ⟨k, fit', t, u⟩ := d
    obtain rfl : fit' = .exact := hfit
    exact h.symm (hsound.of_mem_parts hd)
  show Meets _ ⟨n, fit, e.unroll, a.unroll⟩
  generalize e.unroll = e at hmeets
  generalize a.unroll = a at hmeets
  cases hmeets with
  | undefined ht => exact .undefined ht
  | prim p => exact .prim p
  | free x => exact .free x
  | container h => exact .container h.1
  | funcExact hps hr =>
    cases fit with
    | exact => exact .funcExact (hps.imp fun _ _ h => h.1) hr.1
    | wide => exact .funcWide (hps.imp fun _ _ h => h.2 rfl) hr.1
  | object hcount hps =>
    refine .object (.inr (hcount.resolve_left (by simp))) fun p hp => ?_
    exact (hps p hp).imp fun u hu => ⟨hu.1, hu.2.1⟩
  | union hcount hvs =>
    refine .union hcount fun v hv => (hvs v hv).imp fun qs hqs => ⟨hqs.1, hqs.2.1, fun p hp => ?_⟩
    exact (hqs.2.2 p hp).imp fun u hu => ⟨hu.1, hu.2.1⟩
  | generic h => exact .generic h.1

/-! ### Transitivity -/

/-- The comparison holds, of sound types in which `undefined` does not occur. -/
private structure Definite (c : Comparison) : Prop where
  sound : c.Sound
  expected : c.expected.Lacks .undefined
  actual : c.actual.Lacks .undefined
  agrees : c.Agrees

private theorem Definite.meets (h : c.Definite) : Meets Definite c.unrolled := by
  refine (h.agrees.meets h.sound).mono fun d hd hall => ?_
  refine ⟨h.sound.unrolled.of_mem_parts hd, ?_, ?_, hall⟩
  all_goals rcases part_of_mem_parts hd with ⟨he, ha⟩ | ⟨he, ha⟩
  · exact h.expected.unroll.part he
  · exact h.actual.unroll.part ha
  · exact h.actual.unroll.part ha
  · exact h.expected.unroll.part he

private theorem not_trivial_of_lacks (n : Nat) (fit : Fit) (he : e.Lacks .undefined) (ha : a.Lacks .undefined) :
    ¬ Trivial ⟨n, fit, e, a⟩ := by
  rintro (h | h)
  · obtain rfl : e = .prim .undefined := h
    cases he with
    | prim h => exact h rfl
  · obtain rfl : a = .prim .undefined := h
    cases ha with
    | prim h => exact h rfl

/-- Through a type in which `undefined` does not occur, agreement goes on. -/
theorem Agrees.trans (h : Agrees ⟨n, fit, e, m⟩) (h' : Agrees ⟨n, fit, m, a⟩) (hc : Sound ⟨n, fit, e, m⟩)
    (hc' : Sound ⟨n, fit, m, a⟩) (he : e.Lacks .undefined) (hm : m.Lacks .undefined) (ha : a.Lacks .undefined) :
    Agrees ⟨n, fit, e, a⟩ := by
  refine agrees_of_meets (S := fun c => ∃ m, Definite ⟨c.depth, c.fit, c.expected, m⟩ ∧
      Definite ⟨c.depth, c.fit, m, c.actual⟩) (fun c hc hS => ?_)
    ⟨hc.expected, hc'.actual, hc.expected_lt, hc'.actual_lt⟩ ⟨m, ⟨hc, he, hm, h⟩, hc', hm, ha, h'⟩
  obtain ⟨n, fit, e, a⟩ := c
  obtain ⟨m, h, h'⟩ : ∃ m, Definite ⟨n, fit, e, m⟩ ∧ Definite ⟨n, fit, m, a⟩ := hS
  have hmeets : Meets Definite ⟨n, fit, e.unroll, m.unroll⟩ := h.meets
  have hmeets' : Meets Definite ⟨n, fit, m.unroll, a.unroll⟩ := h'.meets
  have hn := not_trivial_of_lacks n fit h.expected.unroll h.actual.unroll
  have hn' := not_trivial_of_lacks n fit h'.expected.unroll h'.actual.unroll
  show Meets _ ⟨n, fit, e.unroll, a.unroll⟩
  generalize e.unroll = e at hmeets hn
  generalize m.unroll = m at hmeets hmeets' hn hn'
  generalize a.unroll = a at hmeets' hn'
  cases hmeets with
  | undefined ht => exact absurd ht hn
  | prim p =>
    cases hmeets' with
    | undefined ht => exact absurd ht hn'
    | prim => exact .prim p
  | free x =>
    cases hmeets' with
    | undefined ht => exact absurd ht hn'
    | free => exact .free x
  | container h =>
    cases hmeets' with
    | undefined ht => exact absurd ht hn'
    | container h' => exact .container ⟨_, h, h'⟩
  | funcExact hps hr =>
    cases hmeets' with
    | undefined ht => exact absurd ht hn'
    | funcExact hps' hr' =>
      exact .funcExact ((forall₂_comp hps hps').imp fun _ _ ⟨q, h, h'⟩ => ⟨q.2, h, h'⟩) ⟨_, hr, hr'⟩
  | funcWide hps hr =>
    cases hmeets' with
    | undefined ht => exact absurd ht hn'
    | funcWide hps' hr' =>
      exact .funcWide ((forall₂_comp hps hps').imp fun _ _ ⟨q, h, h'⟩ => ⟨q.2, h', h⟩) ⟨_, hr, hr'⟩
  | object hcount hps =>
    cases hmeets' with
    | undefined ht => exact absurd ht hn'
    | object hcount' hps' =>
      refine .object ?_ fun p hp => ?_
      · exact hcount.elim .inl fun hl => hcount'.imp id hl.trans
      · obtain ⟨u, hu, h⟩ := hps p hp
        obtain ⟨v, hv, h'⟩ := hps' _ (mem_of_lookup hu)
        exact ⟨v, hv, u, h, h'⟩
  | union hcount hvs =>
    cases hmeets' with
    | undefined ht => exact absurd ht hn'
    | union hcount' hvs' =>
      refine .union (hcount.trans hcount') fun v hv => ?_
      obtain ⟨qs, hqs, hl, hps⟩ := hvs v hv
      obtain ⟨rs, hrs, hl', hps'⟩ := hvs' _ (mem_of_lookup hqs)
      refine ⟨rs, hrs, hl.trans hl', fun p hp => ?_⟩
      obtain ⟨u, hu, h⟩ := hps p hp
      obtain ⟨w, hw, h'⟩ := hps' _ (mem_of_lookup hu)
      exact ⟨w, hw, u, h, h'⟩
  | generic h =>
    cases hmeets' with
    | undefined ht => exact absurd ht hn'
    | generic h' => exact .generic ⟨_, h, h'⟩

/-! ### Types that agree with one type -/

/-- The comparison of sound types holds. -/
private structure Holding (c : Comparison) : Prop where
  sound : c.Sound
  agrees : c.Agrees

private theorem Holding.meets (h : c.Holding) : Meets Holding c.unrolled :=
  (h.agrees.meets h.sound).mono fun _ hd hall => ⟨h.sound.unrolled.of_mem_parts hd, hall⟩

/-- Both types agree exactly with one in which `undefined` does not occur. -/
private def Shared (c : Comparison) : Prop :=
  c.fit = .exact ∧ ∃ m : Nameless Nat, m.Lacks .undefined ∧ Holding ⟨c.depth, .exact, m, c.expected⟩ ∧
    Holding ⟨c.depth, .exact, m, c.actual⟩

/-- When one of two types is `undefined`, it is not the one in which this does not occur. -/
private theorem Trivial.actual_eq (h : Trivial ⟨n, fit, m, a⟩) (hm : m.Lacks .undefined) : a = .prim .undefined := by
  rcases h with h | h
  · obtain rfl : m = .prim .undefined := h
    cases hm with
    | prim h => exact absurd rfl h
  · exact h

private theorem shared_of_lookup {ps qs rs : List (Name × Nameless Nat)} (hd : (ps.map Prod.fst).Nodup)
    (hd' : (qs.map Prod.fst).Nodup) (hl : ps.length = qs.length) (hlacks : ∀ p ∈ ps, p.2.Lacks .undefined)
    (h : ∀ p ∈ ps, ∃ u, qs.lookup p.1 = some u ∧ Holding ⟨n, .exact, p.2, u⟩)
    (h' : ∀ p ∈ ps, ∃ u, rs.lookup p.1 = some u ∧ Holding ⟨n, .exact, p.2, u⟩) :
    ∀ q ∈ qs, ∃ u, rs.lookup q.1 = some u ∧ Shared ⟨n, .exact, q.2, u⟩ := by
  intro q hq
  obtain ⟨p, hp, hn, hpq⟩ := exists_entry (P := fun t u => Holding ⟨n, .exact, t, u⟩) hd hd' hl h hq
  obtain ⟨u, hu, hpu⟩ := h' p hp
  exact ⟨u, hn ▸ hu, rfl, p.2, hlacks p hp, hpq, hpu⟩

/-- Types that agree exactly with one type agree with each other, unless `undefined` occurs in that. -/
theorem Agrees.of_shared (h : Agrees ⟨n, .exact, m, e⟩) (h' : Agrees ⟨n, .exact, m, a⟩)
    (hc : Sound ⟨n, .exact, m, e⟩) (hc' : Sound ⟨n, .exact, m, a⟩) (hm : m.Lacks .undefined) :
    Agrees ⟨n, .exact, e, a⟩ := by
  refine agrees_of_meets (S := Shared) (fun c _ hS => ?_) ⟨hc.actual, hc'.actual, hc.actual_lt, hc'.actual_lt⟩
    ⟨rfl, m, hm, ⟨hc, h⟩, hc', h'⟩
  obtain ⟨n, fit, e, a⟩ := c
  obtain ⟨rfl, m, hm, h, h'⟩ : fit = .exact ∧ ∃ m : Nameless Nat, m.Lacks .undefined ∧ Holding ⟨n, .exact, m, e⟩ ∧
    Holding ⟨n, .exact, m, a⟩ := hS
  have hmeets : Meets Holding ⟨n, .exact, m.unroll, e.unroll⟩ := h.meets
  have hmeets' : Meets Holding ⟨n, .exact, m.unroll, a.unroll⟩ := h'.meets
  have hlacks := hm.unroll
  have hmw := h.sound.expected.unroll.wellFormed
  have hew := h.sound.actual.unroll.wellFormed
  show Meets _ ⟨n, .exact, e.unroll, a.unroll⟩
  generalize m.unroll = m at hmeets hmeets' hlacks hmw
  generalize e.unroll = e at hmeets hew
  generalize a.unroll = a at hmeets'
  by_cases he : Trivial ⟨n, .exact, m, e⟩
  · exact .undefined (.inl (he.actual_eq hlacks))
  by_cases ha : Trivial ⟨n, .exact, m, a⟩
  · exact .undefined (.inr (ha.actual_eq hlacks))
  cases hmeets with
  | undefined ht => exact absurd ht he
  | prim p =>
    cases hmeets' with
    | undefined ht => exact absurd ht ha
    | prim => exact .prim p
  | free x =>
    cases hmeets' with
    | undefined ht => exact absurd ht ha
    | free => exact .free x
  | container h =>
    cases hmeets' with
    | undefined ht => exact absurd ht ha
    | container h' =>
      cases hlacks with
      | container hm => exact .container ⟨rfl, _, hm, h, h'⟩
  | funcExact hps hr =>
    cases hmeets' with
    | undefined ht => exact absurd ht ha
    | funcExact hps' hr' =>
      cases hlacks with
      | func hms hm =>
        have hboth := (List.forall₂_and_left _ _).2 ⟨hms, hps⟩
        refine .funcExact ((forall₂_comp hboth.flip hps').imp fun _ _ ⟨p, h, h'⟩ => ?_) ⟨rfl, _, hm, hr, hr'⟩
        exact ⟨rfl, p.2, h.1, h.2, h'⟩
  | object hcount hps =>
    cases hmeets' with
    | undefined ht => exact absurd ht ha
    | object hcount' hps' =>
      have hl := hcount.resolve_left (by simp)
      cases hlacks with
      | object hms =>
        cases hmw with
        | object hd _ =>
          cases hew with
          | object hd' _ =>
            have hl' := hcount'.resolve_left (by simp)
            exact .object (.inr (hl.symm.trans hl')) (shared_of_lookup hd hd' hl hms hps hps')
  | union hcount hvs =>
    cases hmeets' with
    | undefined ht => exact absurd ht ha
    | union hcount' hvs' =>
      cases hlacks with
      | union hms =>
        cases hmw with
        | union hd hds _ =>
          cases hew with
          | union hd' hds' _ =>
            refine .union (hcount.symm.trans hcount') fun w hw => ?_
            obtain ⟨v, hv, hn, hl, hps⟩ := exists_entry (P := fun ps qs : List (Name × Nameless Nat) =>
              ps.length = qs.length ∧ ∀ p ∈ ps, ∃ u, qs.lookup p.1 = some u ∧ Holding ⟨n, .exact, p.2, u⟩)
              hd hd' hcount hvs hw
            obtain ⟨rs, hrs, hl', hps'⟩ := hvs' v hv
            exact ⟨rs, hn ▸ hrs, hl.symm.trans hl', shared_of_lookup (hds v hv) (hds' w hw) hl (hms v hv) hps hps'⟩
  | generic h =>
    cases hmeets' with
    | undefined ht => exact absurd ht ha
    | generic h' =>
      cases hlacks with
      | generic hm =>
        refine .generic ⟨rfl, _, lacks_openAt hm fun v hv => ?_, h, h'⟩
        obtain ⟨x, rfl, -⟩ := mem_levels hv
        exact .free x

end Comparison

end MuTypes.Nameless
