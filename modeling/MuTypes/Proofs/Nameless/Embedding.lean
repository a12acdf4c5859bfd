import MuTypes.Proofs.Nameless.Agreement

/-!
# What agreement depends on

A comparison embeds in another one when the types are alike up to levels, and variables that are paired in the first
are paired in the second.  Agreement carries over (`Agree.of_embeds`): entries may come in another order, and binders
may be added, dropped or permuted, as long as no pairing is lost.
-/

namespace MuTypes.Nameless.Comparison

/-- The first comparison becomes the second, up to the order of entries, when `f` and `g` change the levels of its
two types. -/
structure EmbedsBy (f g : Nat → Nat) (c d : Comparison) : Prop where
  fit : d.fit = c.fit
  expected : Alike (c.expected.relabel f) d.expected
  actual : Alike (c.actual.relabel g) d.actual
  paired : ∀ x, c.expected.Has x → c.actual.Has x → f x = g x
  sound : c.Sound
  expected_sound : d.expected.Sound
  actual_sound : d.actual.Sound

/-- The first comparison becomes the second under some change of levels. -/
def Embeds (c d : Comparison) : Prop :=
  ∃ f g, EmbedsBy f g c d

namespace EmbedsBy

variable {f g : Nat → Nat} {n n' : Nat} {fit : Fit} {t t' u u' : Nameless Nat}

theorem swap (h : EmbedsBy f g ⟨n, fit, t, u⟩ ⟨n', fit, t', u'⟩) :
    EmbedsBy g f ⟨n, fit, u, t⟩ ⟨n', fit, u', t'⟩ :=
  ⟨rfl, h.actual, h.expected, fun x hu ht => (h.paired x ht hu).symm,
    ⟨h.sound.actual, h.sound.expected, h.sound.actual_lt, h.sound.expected_lt⟩, h.actual_sound, h.expected_sound⟩

/-- Parts that stand below the same binders are embedded in the same way. -/
theorem part {t₁ t₁' u₁ u₁' : Nameless Nat} (h : EmbedsBy f g ⟨n, fit, t, u⟩ ⟨n', fit, t', u'⟩)
    (ht : Part n t n t₁) (hu : Part n u n u₁) (ht' : Part n' t' n' t₁') (hu' : Part n' u' n' u₁')
    (hat : Alike (t₁.relabel f) t₁') (hau : Alike (u₁.relabel g) u₁') (fit₁ : Fit) :
    EmbedsBy f g ⟨n, fit₁, t₁, u₁⟩ ⟨n', fit₁, t₁', u₁'⟩ := by
  have hlt : ∀ {v w : Nameless Nat}, Part n v n w → ∀ x, w.Has x → v.Has x := by
    intro v w hp x hx
    rcases hp.has hx with hx | hx
    · exact hx
    · omega
  exact ⟨rfl, hat, hau, fun x hxt hxu => h.paired x (hlt ht x hxt) (hlt hu x hxu),
    ⟨ht.sound h.sound.expected, hu.sound h.sound.actual, fun x hx => h.sound.expected_lt x (hlt ht x hx),
      fun x hx => h.sound.actual_lt x (hlt hu x hx)⟩, ht'.sound h.expected_sound, hu'.sound h.actual_sound⟩

/-- The change of levels below further binders, which stand at `n` on the one side and at `n'` on the other. -/
def shifted (f : Nat → Nat) (n n' x : Nat) : Nat :=
  if x < n then f x else n' + (x - n)

theorem relabel_body {m : Nat} {b : Nameless Nat} (hb : ∀ x, b.Has x → x < n) :
    (b.openAt 0 (levels n m)).relabel (shifted f n n') = (b.relabel f).openAt 0 (levels n' m) := by
  have hlevels : (levels n m).map (relabel (shifted f n n')) = levels n' m := by
    rw [levels, levels, List.map_map]
    refine List.map_congr_left fun j _ => ?_
    show Nameless.free (shifted f n n' (n + (m - 1 - j))) = _
    rw [shifted, if_neg (by omega), Nat.add_sub_cancel_left]
  have hcongr : b.relabel (shifted f n n') = b.relabel f := relabel_congr fun x hx => if_pos (hb x hx)
  rw [relabel_openAt, hlevels, hcongr]

theorem body {m : Nat} {b b' c c' : Nameless Nat}
    (h : EmbedsBy f g ⟨n, fit, .generic m b, .generic m c⟩ ⟨n', fit, .generic m b', .generic m c'⟩)
    (hab : Alike (b.relabel f) b') (hac : Alike (c.relabel g) c') :
    EmbedsBy (shifted f n n') (shifted g n n') ⟨n + m, fit, b.openAt 0 (levels n m), c.openAt 0 (levels n m)⟩
      ⟨n' + m, fit, b'.openAt 0 (levels n' m), c'.openAt 0 (levels n' m)⟩ := by
  have hb : ∀ x, b.Has x → x < n := h.sound.expected_lt
  have hc : ∀ x, c.Has x → x < n := h.sound.actual_lt
  have hlevels : ∀ v ∈ levels n' m, v.WellFormed := fun v hv => (sound_of_mem_levels hv).wellFormed
  refine ⟨rfl, ?_, ?_, fun x hxb hxc => ?_, ?_, Part.body.sound h.expected_sound, Part.body.sound h.actual_sound⟩
  · show Alike ((b.openAt 0 (levels n m)).relabel (shifted f n n')) _
    rw [relabel_body hb]
    exact hab.openAt_self 0 hlevels
  · show Alike ((c.openAt 0 (levels n m)).relabel (shifted g n n')) _
    rw [relabel_body hc]
    exact hac.openAt_self 0 hlevels
  · unfold shifted
    split
    · rename_i hx
      -- an old level is a label of the bodies already
      have hold : ∀ {e : Nameless Nat}, (e.openAt 0 (levels n m)).Has x → e.Has x := by
        intro e he
        rcases (Part.body : Part n (.generic m e) (n + m) _).has he with h | h
        · exact h
        · omega
      have hxb' : b.Has x := hold hxb
      have hxc' : c.Has x := hold hxc
      exact h.paired x hxb' hxc'
    · rfl
  · exact ⟨Part.body.sound h.sound.expected, Part.body.sound h.sound.actual,
      Part.body.has_lt h.sound.expected_lt, Part.body.has_lt h.sound.actual_lt⟩

end EmbedsBy

/-! ### Parts of embedded comparisons -/

private theorem exists_mem_zip {τ : Type} {P Q : τ → τ → Prop} {ps ps' qs qs' : List τ} (hp : List.Forall₂ P ps ps')
    (hq : List.Forall₂ Q qs qs') {p' q' : τ} (h : (p', q') ∈ ps'.zip qs') :
    ∃ p q, (p, q) ∈ ps.zip qs ∧ P p p' ∧ Q q q' := by
  induction hp generalizing qs qs' with
  | nil => simp at h
  | cons hpp _ ih =>
    cases hq with
    | nil => simp at h
    | cons hqq hqs =>
      rcases List.mem_cons.1 h with e | h
      · obtain ⟨rfl, rfl⟩ := Prod.mk.inj e
        exact ⟨_, _, List.mem_cons_self, hpp, hqq⟩
      · obtain ⟨p, q, hpq, hp, hq⟩ := ih hqs h
        exact ⟨p, q, List.mem_cons_of_mem _ hpq, hp, hq⟩

/-- The entry of the second list comes from one of the first, and the entries offered for the two correspond. -/
private def OfferedFrom {τ τ' : Type} (P Q : τ → τ' → Prop) (ps qs : List (Name × τ)) (qs' : List (Name × τ'))
    (p' : Name × τ') : Prop :=
  ∃ p ∈ ps, p.1 = p'.1 ∧ ∃ u u', qs.lookup p.1 = some u ∧ qs'.lookup p'.1 = some u' ∧ P p.2 p'.2 ∧ Q u u'

private theorem offeredFrom {τ τ' : Type} {P Q : τ → τ' → Prop} {ps qs : List (Name × τ)}
    {ps' qs' : List (Name × τ')} (hd : (ps.map Prod.fst).Nodup) (hd' : (ps'.map Prod.fst).Nodup)
    (hl : ps.length = ps'.length) (h : ∀ p ∈ ps, ∃ t', ps'.lookup p.1 = some t' ∧ P p.2 t')
    (hq : ∀ q ∈ qs, ∃ u', qs'.lookup q.1 = some u' ∧ Q q.2 u') (hn : ∀ p ∈ ps, ∃ u, qs.lookup p.1 = some u)
    {p' : Name × τ'} (hp' : p' ∈ ps') : OfferedFrom P Q ps qs qs' p' := by
  obtain ⟨p, hp, he, hP⟩ := exists_entry hd hd' hl h hp'
  obtain ⟨u, hu⟩ := hn p hp
  obtain ⟨u', hu', hQ⟩ := hq _ (mem_of_lookup hu)
  exact ⟨p, hp, he, u, u', hu, he ▸ hu', hP, hQ⟩

section Parts

variable {f g : Nat → Nat} {c d : Comparison}

/-- Each part that the second comparison asks for is one that the first asks for, embedded. -/
def PartsEmbed (c d : Comparison) : Prop :=
  ∀ o ∈ d.parts, ∃ d', o = some d' ∧ ∃ c', some c' ∈ c.parts ∧ Embeds c' d'

private theorem partsEmbed_func {n n' : Nat} {fit : Fit} {ps qs : List (Name × Nameless Nat)} {r s : Nameless Nat}
    {t' u' : Nameless Nat} (h : EmbedsBy f g ⟨n, fit, .func ps r, .func qs s⟩ ⟨n', fit, t', u'⟩)
    (hn : none ∉ parts ⟨n, fit, .func ps r, .func qs s⟩) :
    PartsEmbed ⟨n, fit, .func ps r, .func qs s⟩ ⟨n', fit, t', u'⟩ := by
  have hlength : ps.length = qs.length := by
    by_contra hne
    exact hn (by simp [parts, hne])
  obtain ⟨ps', r', rfl, hps, hr⟩ := alike_func.1 (relabel_func f ps r ▸ h.expected)
  obtain ⟨qs', s', rfl, hqs, hs⟩ := alike_func.1 (relabel_func g qs s ▸ h.actual)
  rw [List.forall₂_map_left_iff] at hps hqs
  have hlength' : ps'.length = qs'.length := by rw [← hps.length_eq, ← hqs.length_eq, hlength]
  intro o ho
  simp only [parts, if_pos hlength', List.mem_append, List.mem_map, List.mem_singleton] at ho
  rcases ho with ⟨⟨p', q'⟩, hpq', rfl⟩ | rfl
  · obtain ⟨p, q, hpq, hp, hq⟩ := exists_mem_zip hps hqs hpq'
    obtain ⟨hpm, hqm⟩ := List.of_mem_zip hpq
    obtain ⟨hpm', hqm'⟩ := List.of_mem_zip hpq'
    have hpart := h.part (.param hpm) (.param hqm) (.param hpm') (.param hqm') hp.2 hq.2
    refine ⟨_, rfl, param ⟨n, fit, .func ps r, .func qs s⟩ p.2 q.2, ?_, ?_⟩
    · simp only [parts, if_pos hlength, List.mem_append, List.mem_map]
      exact .inl ⟨(p, q), hpq, rfl⟩
    · cases fit with
      | exact => exact ⟨f, g, hpart .exact⟩
      | wide => exact ⟨g, f, (hpart .wide).swap⟩
  · refine ⟨_, rfl, _, ?_, f, g, h.part .result .result .result .result hr hs fit⟩
    simp only [parts, if_pos hlength, List.mem_append, List.mem_singleton]
    exact .inr rfl

private theorem partsEmbed_object {n n' : Nat} {fit : Fit} {ps qs : List (Name × Nameless Nat)} {t' u' : Nameless Nat}
    (h : EmbedsBy f g ⟨n, fit, .object ps, .object qs⟩ ⟨n', fit, t', u'⟩)
    (hn : none ∉ parts ⟨n, fit, .object ps, .object qs⟩) :
    PartsEmbed ⟨n, fit, .object ps, .object qs⟩ ⟨n', fit, t', u'⟩ := by
  have hlength : fit = .wide ∨ ps.length = qs.length := by
    by_contra hne
    exact hn (by simp [parts, hne])
  obtain ⟨ps', rfl, hl, hps⟩ := alike_object.1 (relabel_object f ps ▸ h.expected)
  obtain ⟨qs', rfl, hl', hqs⟩ := alike_object.1 (relabel_object g qs ▸ h.actual)
  rw [List.length_map] at hl hl'
  rw [List.forall_mem_map] at hps hqs
  have hlength' : fit = .wide ∨ ps'.length = qs'.length := hlength.imp_right fun e => by rw [← hl, ← hl', e]
  simp only [parts, if_pos hlength] at hn
  have hfrom : ∀ p' ∈ ps', OfferedFrom (fun t t' => Alike (t.relabel f) t') (fun u u' => Alike (u.relabel g) u')
      ps qs qs' p' := by
    cases h.sound.expected.wellFormed with
    | object hd _ =>
      cases h.expected_sound.wellFormed with
      | object hd' _ =>
        exact fun p' hp' => offeredFrom hd hd' hl hps hqs
          (fun p hp => (exists_lookup_of_offered hn hp).imp fun _ h => h.1) hp'
  intro o ho
  simp only [parts, if_pos hlength', mem_offered] at ho
  obtain ⟨p', hp', ho⟩ := ho
  obtain ⟨p, hp, -, u, u', hu, hu', hat, hau⟩ := hfrom p' hp'
  rcases ho with ⟨u'', hu'', ho⟩ | ⟨hnone, -⟩
  · obtain rfl : u' = u'' := Option.some.inj (hu'.symm.trans hu'')
    obtain rfl := List.mem_singleton.1 ho
    refine ⟨_, rfl, _, ?_, f, g, h.part (.property hp) (.property (mem_of_lookup hu)) (.property hp')
      (.property (mem_of_lookup hu')) hat hau fit⟩
    simp only [parts, if_pos hlength]
    exact mem_offered.2 ⟨p, hp, .inl ⟨u, hu, List.mem_singleton_self _⟩⟩
  · rw [hnone] at hu'
    cases hu'

private theorem partsEmbed_union {n n' : Nat} {fit : Fit} {vs ws : List (Name × List (Name × Nameless Nat))}
    {t' u' : Nameless Nat} (h : EmbedsBy f g ⟨n, fit, .union vs, .union ws⟩ ⟨n', fit, t', u'⟩)
    (hn : none ∉ parts ⟨n, fit, .union vs, .union ws⟩) :
    PartsEmbed ⟨n, fit, .union vs, .union ws⟩ ⟨n', fit, t', u'⟩ := by
  have hlength : vs.length = ws.length := by
    by_contra hne
    exact hn (by simp [parts, hne])
  obtain ⟨vs', rfl, hl, hvs⟩ := alike_union.1 (relabel_union f vs ▸ h.expected)
  obtain ⟨ws', rfl, hl', hws⟩ := alike_union.1 (relabel_union g ws ▸ h.actual)
  rw [List.length_map] at hl hl'
  rw [List.forall_mem_map] at hvs hws
  have hlength' : vs'.length = ws'.length := by rw [← hl, ← hl', hlength]
  simp only [parts, if_pos hlength] at hn
  obtain ⟨⟨hd, hds⟩, hd', hds'⟩ : ((vs.map Prod.fst).Nodup ∧ ∀ v ∈ vs, (v.2.map Prod.fst).Nodup) ∧
      (vs'.map Prod.fst).Nodup ∧ ∀ v ∈ vs', (v.2.map Prod.fst).Nodup := by
    cases h.sound.expected.wellFormed with
    | union hd hds _ =>
      cases h.expected_sound.wellFormed with
      | union hd' hds' _ => exact ⟨⟨hd, hds⟩, hd', hds'⟩
  intro o ho
  simp only [parts, if_pos hlength', mem_offered] at ho
  obtain ⟨v', hv', ho⟩ := ho
  obtain ⟨v, hv, -, qs, qs', hqs, hqs', ⟨hvl, hps⟩, hql, hus⟩ := offeredFrom (P := fun ps ps' =>
      (ps.map fun p => (p.1, p.2.relabel f)).length = ps'.length ∧ ∀ p ∈ ps.map fun p => (p.1, p.2.relabel f),
        ∃ t', ps'.lookup p.1 = some t' ∧ Alike p.2 t')
    (Q := fun qs qs' => (qs.map fun q => (q.1, q.2.relabel g)).length = qs'.length ∧
      ∀ q ∈ qs.map fun q => (q.1, q.2.relabel g), ∃ u', qs'.lookup q.1 = some u' ∧ Alike q.2 u')
    hd hd' hl hvs hws (fun v hv => (exists_lookup_of_offered hn hv).imp fun _ h => h.1) hv'
  rw [List.length_map] at hvl hql
  rw [List.forall_mem_map] at hps hus
  have hrow : v.2.length = qs.length ∧ none ∉ offered (fun t u => [some
      { part ⟨n, fit, .union vs, .union ws⟩ t u with fit := .exact }]) v.2 qs := by
    obtain ⟨qs₁, hqs₁, hrow⟩ := exists_lookup_of_offered hn hv
    obtain rfl : qs = qs₁ := Option.some.inj (hqs.symm.trans hqs₁)
    unfold rowParts at hrow
    split at hrow
    · exact ⟨‹_›, hrow⟩
    · simp at hrow
  rcases ho with ⟨qs'', hqs'', ho⟩ | ⟨hnone, -⟩
  · obtain rfl : qs' = qs'' := Option.some.inj (hqs'.symm.trans hqs'')
    rw [rowParts, if_pos (by rw [← hvl, ← hql, hrow.1]), mem_offered] at ho
    obtain ⟨p', hp', ho⟩ := ho
    obtain ⟨p, hp, -, u, u', hu, hu', hat, hau⟩ := offeredFrom (P := fun t t' => Alike (t.relabel f) t')
      (Q := fun u u' => Alike (u.relabel g) u') (hds v hv) (hds' v' hv') hvl hps hus
      (fun p hp => (exists_lookup_of_offered hrow.2 hp).imp fun _ h => h.1) hp'
    rcases ho with ⟨u'', hu'', ho⟩ | ⟨hnone, -⟩
    · obtain rfl : u' = u'' := Option.some.inj (hu'.symm.trans hu'')
      obtain rfl := List.mem_singleton.1 ho
      refine ⟨_, rfl, _, ?_, f, g, h.part (.variant hv hp) (.variant (mem_of_lookup hqs) (mem_of_lookup hu))
        (.variant hv' hp') (.variant (mem_of_lookup hqs') (mem_of_lookup hu')) hat hau .exact⟩
      simp only [parts, if_pos hlength]
      refine mem_offered.2 ⟨v, hv, .inl ⟨qs, hqs, ?_⟩⟩
      rw [rowParts, if_pos hrow.1]
      exact mem_offered.2 ⟨p, hp, .inl ⟨u, hu, List.mem_singleton_self _⟩⟩
    · rw [hnone] at hu'
      cases hu'
  · rw [hnone] at hqs'
    cases hqs'

/-- Comparisons of parts are embedded too. -/
theorem EmbedsBy.partsEmbed (h : EmbedsBy f g c d) (hn : none ∉ c.parts) : PartsEmbed c d := by
  obtain ⟨n, fit, t, u⟩ := c
  obtain ⟨n', fit', t', u'⟩ := d
  obtain rfl : fit' = fit := h.fit
  cases t <;> cases u
  case prim.prim p q =>
    obtain rfl : t' = .prim p := h.expected
    obtain rfl : u' = .prim q := h.actual
    by_cases hpq : p = q
    · simp [PartsEmbed, parts, hpq]
    · simp [parts, hpq] at hn
  case container.container k t l u =>
    obtain ⟨t₁, rfl, ht⟩ := h.expected
    obtain ⟨u₁, rfl, hu⟩ := h.actual
    by_cases hkl : k = l
    · intro o ho
      simp only [parts, if_pos hkl, List.mem_singleton] at ho
      subst ho
      refine ⟨_, rfl, _, ?_, f, g, h.part .elem .elem .elem .elem ht hu fit'⟩
      simp only [parts, if_pos hkl]
      exact List.mem_singleton_self _
    · simp [parts, hkl] at hn
  case func.func ps r qs s => exact partsEmbed_func h hn
  case object.object ps qs => exact partsEmbed_object h hn
  case union.union vs ws => exact partsEmbed_union h hn
  case generic.generic m t l u =>
    obtain ⟨t₁, rfl, ht⟩ := h.expected
    obtain ⟨u₁, rfl, hu⟩ := h.actual
    by_cases hml : m = l
    · subst hml
      intro o ho
      simp only [parts, if_pos, List.mem_singleton] at ho
      subst ho
      refine ⟨_, rfl, _, ?_, _, _, h.body ht hu⟩
      simp [parts]
    · simp [parts, hml] at hn
  case free.free x y =>
    obtain rfl : t' = .free (f x) := h.expected
    obtain rfl : u' = .free (g y) := h.actual
    by_cases hxy : x = y
    · have hpaired : f x = g y := hxy ▸ h.paired x (has_free.2 rfl) (has_free.2 hxy.symm)
      simp [PartsEmbed, parts, hpaired]
    · simp [parts, hxy] at hn
  all_goals exact absurd (List.mem_singleton_self _) hn

end Parts

/-! ### Agreement -/

theorem Embeds.headed_eq {c d : Comparison} (h : Embeds c d) : d.headed = c.headed := by
  obtain ⟨f, g, h⟩ := h
  have hmu : ∀ (k : Nat → Nat) (t : Nameless Nat), (t.relabel k).isMu = t.isMu := by
    intro k t
    cases t <;> simp [relabel, isMu]
  rw [headed, headed, ← h.expected.isMu_eq, ← h.actual.isMu_eq, hmu, hmu]

theorem Embeds.trivial {c d : Comparison} (h : Embeds c d) (ht : c.Trivial) : d.Trivial := by
  obtain ⟨f, g, h⟩ := h
  rcases ht with ht | ht
  · have hat := h.expected
    rw [ht] at hat
    exact .inl hat
  · have hau := h.actual
    rw [ht] at hau
    exact .inr hau

theorem Embeds.unrolled {c d : Comparison} (h : Embeds c d) : Embeds c.unrolled d.unrolled := by
  obtain ⟨f, g, h⟩ := h
  refine ⟨f, g, h.fit, ?_, ?_, fun x ht hu => h.paired x (has_unroll ht) (has_unroll hu), h.sound.unrolled,
    h.expected_sound.unroll, h.actual_sound.unroll⟩
  · exact relabel_unroll f c.expected ▸ h.expected.unroll
  · exact relabel_unroll g c.actual ▸ h.actual.unroll

/-- What is found for a comparison holds for those in which it is embedded. -/
theorem Agree.of_embeds {k : Nat} {c d : Comparison} (h : Agree k c) (he : Embeds c d) : Agree k d := by
  induction h generalizing d with
  | start c => exact .start d
  | trivial ht => exact .trivial (he.trivial ht)
  | unrolled hh _ ih => exact .unrolled (he.headed_eq.trans hh) (ih he.unrolled)
  | parts hh hn _ ih =>
    obtain ⟨f, g, hfg⟩ := he
    have hparts := hfg.partsEmbed hn
    refine .parts ((Embeds.headed_eq ⟨f, g, hfg⟩).trans hh) (fun ho => ?_) fun d' hd' => ?_
    · obtain ⟨d', hd', -⟩ := hparts none ho
      cases hd'
    · obtain ⟨d'', hd'', c', hc', he'⟩ := hparts _ hd'
      obtain rfl := Option.some.inj hd''
      exact ih c' hc' he'

end MuTypes.Nameless.Comparison
