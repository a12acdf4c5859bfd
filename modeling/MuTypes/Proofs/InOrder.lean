import MuTypes.Proofs.Comparison
import MuTypes.Ty.Instantiate

/-!
# Types in order

A type is in order for some names when it is well-formed, its free names are among them, and the supply is ahead of
all its names.  Everything that is done with types in order gives types in order: taking parts, unrolling
(`InOrder.unrolled_returns`), substituting (`subst_inOrder`) and instantiating (`instantiate_inOrder`).  The free names
of the result come from what was put in and from what was not replaced.
-/

namespace MuTypes.Ty

open Nameless NameSupply

/-- The type is well-formed, its free names are among the given ones, and the supply is ahead of its names. -/
structure InOrder (names : List Name) (t : Ty) (s : NameSupply) : Prop where
  wellFormed : t.WellFormed
  mem : ∀ x, t.mentions x = true → x ∈ names
  ahead : s.AheadOfTy t

section InOrder

variable {names names' : List Name} {t : Ty} {s s' : NameSupply}

theorem InOrder.mono (h : t.InOrder names s) (hs : s ≤ s') : t.InOrder names s' :=
  { h with ahead := h.ahead.mono hs }

theorem InOrder.weaken (h : t.InOrder names s) (hn : ∀ x ∈ names, x ∈ names') : t.InOrder names' s :=
  { h with mem := fun x hx => hn x (h.mem x hx) }

/-- Types in order for a scope can be compared there. -/
theorem InOrder.ready {e a : Ty} (he : e.InOrder names s) (ha : a.InOrder names s) (fit : Fit) :
    Comparison.Ready ⟨.ofScope names, fit, e, a⟩ s :=
  Comparison.ready_ofScope he.wellFormed ha.wellFormed he.mem ha.mem he.ahead ha.ahead

/-! ### One form at a time -/

theorem inOrder_prim (p : Prim) : (Ty.prim p).InOrder names s :=
  ⟨.prim p, by simp, by simp [AheadOfTy, typeNames]⟩

theorem inOrder_var {x : Name} (hx : x ∈ names) (hs : s.AheadOf x) : (Ty.var x).InOrder names s :=
  ⟨.var x, by simpa using hx, by simpa [AheadOfTy, typeNames] using hs⟩

theorem inOrder_container {k : Container} {e : Ty} :
    (Ty.container k e).InOrder names s ↔ e.InOrder names s := by
  constructor
  · rintro ⟨hw, hm, hs⟩
    cases hw with
    | container he => exact ⟨he, hm, hs⟩
  · rintro ⟨hw, hm, hs⟩
    exact ⟨.container hw, hm, hs⟩

theorem inOrder_func {ps : Row} {r : Ty} :
    (Ty.func ps r).InOrder names s ↔ (∀ p ∈ ps, p.2.InOrder names s) ∧ r.InOrder names s := by
  constructor
  · rintro ⟨hw, hm, hs⟩
    simp only [mentions_func] at hm
    cases hw with
    | func hps hr =>
      refine ⟨fun p hp => ⟨hps p hp, fun x hx => hm x (.inl ⟨p, hp, hx⟩), fun x hx => ?_⟩,
        hr, fun x hx => hm x (.inr hx), fun x hx => ?_⟩
      · exact hs x (mem_typeNames_func.2 (.inl ⟨p, hp, hx⟩))
      · exact hs x (mem_typeNames_func.2 (.inr hx))
  · rintro ⟨hps, hr⟩
    refine ⟨.func (fun p hp => (hps p hp).wellFormed) hr.wellFormed, fun x hx => ?_, fun x hx => ?_⟩
    · rcases (mentions_func ..).1 hx with ⟨p, hp, hx⟩ | hx
      · exact (hps p hp).mem x hx
      · exact hr.mem x hx
    · rcases mem_typeNames_func.1 hx with ⟨p, hp, hx⟩ | hx
      · exact (hps p hp).ahead x hx
      · exact hr.ahead x hx

theorem inOrder_object {ps : Row} :
    (Ty.object ps).InOrder names s ↔ (ps.map Prod.fst).Nodup ∧ ∀ p ∈ ps, p.2.InOrder names s := by
  constructor
  · rintro ⟨hw, hm, hs⟩
    simp only [mentions_object] at hm
    cases hw with
    | object hd hps =>
      refine ⟨hd, fun p hp => ⟨hps p hp, fun x hx => hm x ⟨p, hp, hx⟩, fun x hx => ?_⟩⟩
      exact hs x (mem_typeNames_object.2 ⟨p, hp, hx⟩)
  · rintro ⟨hd, hps⟩
    refine ⟨.object hd fun p hp => (hps p hp).wellFormed, fun x hx => ?_, fun x hx => ?_⟩
    · obtain ⟨p, hp, hx⟩ := (mentions_object ..).1 hx
      exact (hps p hp).mem x hx
    · obtain ⟨p, hp, hx⟩ := mem_typeNames_object.1 hx
      exact (hps p hp).ahead x hx

theorem inOrder_union {vs : Variants} :
    (Ty.union vs).InOrder names s ↔ (vs.map Prod.fst).Nodup ∧ ∀ v ∈ vs, (Ty.object v.2).InOrder names s := by
  simp only [inOrder_object]
  constructor
  · rintro ⟨hw, hm, hs⟩
    simp only [mentions_union] at hm
    cases hw with
    | union hd hds hvs =>
      refine ⟨hd, fun v hv => ⟨hds v hv, fun p hp => ⟨hvs v hv p hp, fun x hx => hm x ⟨v, hv, p, hp, hx⟩, ?_⟩⟩⟩
      exact fun x hx => hs x (mem_typeNames_union.2 ⟨v, hv, p, hp, hx⟩)
  · rintro ⟨hd, hvs⟩
    refine ⟨.union hd (fun v hv => (hvs v hv).1) fun v hv p hp => ((hvs v hv).2 p hp).wellFormed, fun x hx => ?_,
      fun x hx => ?_⟩
    · obtain ⟨v, hv, p, hp, hx⟩ := (mentions_union ..).1 hx
      exact ((hvs v hv).2 p hp).mem x hx
    · obtain ⟨v, hv, p, hp, hx⟩ := mem_typeNames_union.1 hx
      exact ((hvs v hv).2 p hp).ahead x hx

/-- Some of the variants of a union. -/
theorem InOrder.union_filter {vs : Variants} (h : (Ty.union vs).InOrder names s) (keep : Name × Row → Bool) :
    (Ty.union (vs.filter keep)).InOrder names s := by
  obtain ⟨hd, hrows⟩ := inOrder_union.1 h
  refine inOrder_union.2 ⟨hd.sublist (List.filter_sublist.map Prod.fst), fun v hv => ?_⟩
  exact hrows v (List.mem_filter.1 hv).1

theorem inOrder_mu {n : Name} {b : Ty} :
    (Ty.mu n b).InOrder names s ↔ (Ty.mu n b).isContractive = true ∧ s.AheadOf n ∧ b.InOrder (n :: names) s := by
  constructor
  · rintro ⟨hw, hm, hs⟩
    cases hw with
    | mu hc hb =>
      refine ⟨hc, hs n (mem_typeNames_mu.2 (.inl rfl)), hb, fun x hx => ?_, fun x hx => ?_⟩
      · by_cases hn : n = x
        · exact List.mem_cons.2 (.inl hn.symm)
        · exact List.mem_cons_of_mem n (hm x ((mentions_mu ..).2 ⟨hn, hx⟩))
      · exact hs x (mem_typeNames_mu.2 (.inr hx))
  · rintro ⟨hc, hn, hb⟩
    refine ⟨.mu hc hb.wellFormed, fun x hx => ?_, fun x hx => ?_⟩
    · obtain ⟨hne, hx⟩ := (mentions_mu ..).1 hx
      exact (List.mem_cons.1 (hb.mem x hx)).resolve_left (Ne.symm hne)
    · rcases mem_typeNames_mu.1 hx with rfl | hx
      · exact hn
      · exact hb.ahead x hx

theorem inOrder_generic {ns : List Name} {b : Ty} :
    (Ty.generic ns b).InOrder names s ↔ ns.Nodup ∧ (∀ n ∈ ns, s.AheadOf n) ∧ b.InOrder (ns ++ names) s := by
  constructor
  · rintro ⟨hw, hm, hs⟩
    cases hw with
    | generic hd hb =>
      refine ⟨hd, fun n hn => hs n (mem_typeNames_generic.2 (.inl hn)), hb, fun x hx => ?_, fun x hx => ?_⟩
      · by_cases hn : x ∈ ns
        · exact List.mem_append_left names hn
        · exact List.mem_append_right ns (hm x ((mentions_generic ..).2 ⟨hn, hx⟩))
      · exact hs x (mem_typeNames_generic.2 (.inr hx))
  · rintro ⟨hd, hns, hb⟩
    refine ⟨.generic hd hb.wellFormed, fun x hx => ?_, fun x hx => ?_⟩
    · obtain ⟨hn, hx⟩ := (mentions_generic ..).1 hx
      exact (List.mem_append.1 (hb.mem x hx)).resolve_left hn
    · rcases mem_typeNames_generic.1 hx with hx | hx
      · exact hns x hx
      · exact hb.ahead x hx

/-- What spells out a sound nameless type is in order when the labels of that are among the names. -/
theorem Spells.inOrder {n : Nameless Name} (h : t.Spells n s) (hw : n.WellFormed) (hn : ∀ x, n.Has x → x ∈ names) :
    t.InOrder names s := by
  refine ⟨h.wellFormed hw, fun x hx => hn x ?_, h.ahead⟩
  rw [← h.bare]
  exact has_nameless_iff.2 ⟨hx, List.not_mem_nil⟩

theorem InOrder.spells (h : t.InOrder names s) : t.Spells t.bare s :=
  h.wellFormed.spells h.ahead

/-- Unrolling keeps types in order. -/
theorem InOrder.unrolled_returns (h : t.InOrder names s) :
    s.Returns t.unrolled fun t' s' => t'.isMu = false ∧ t'.InOrder names s' := by
  refine (h.wellFormed.unrolled_returns h.ahead).mono fun t' s' _ ht' => ?_
  obtain ⟨hmu, hw, hs, -, hm⟩ := ht'
  exact ⟨hmu, hw, fun x hx => h.mem x (hm x hx), hs⟩

end InOrder

/-! ### Substitution -/

section Substitution

variable {names : List Name} {s : NameSupply}

/-- Substituting for a name leaves the others and what is put in. -/
theorem subst_inOrder {x : Name} {r t : Ty} (hx : s.AheadOf x) (hr : r.InOrder names s)
    (ht : t.InOrder (x :: names) s) : s.Yields (subst x r t) fun t' s' => t'.InOrder names s' := by
  refine (subst_yields hx hr.spells ht.spells).mono fun t' s' _ ht' => ?_
  refine ht'.inOrder (wellFormed_put ht.wellFormed.sound.wellFormed hr.wellFormed.sound.closed
    hr.wellFormed.sound.wellFormed) fun y hy => ?_
  rcases has_put_iff.1 hy with ⟨hy, hne⟩ | ⟨-, hy⟩
  · exact (List.mem_cons.1 (ht.mem y (has_nameless_iff.1 hy).1)).resolve_left hne
  · exact hr.mem y (has_nameless_iff.1 hy).1

theorem substAll_inOrder {xs : List Name} {rs : List Ty} {t : Ty} (hl : xs.length = rs.length)
    (hxs : ∀ x ∈ xs, s.AheadOf x) (hrs : ∀ r ∈ rs, r.InOrder names s) (ht : t.InOrder (xs ++ names) s) :
    s.Yields (substAll (xs.zip rs) t) fun t' s' => t'.InOrder names s' := by
  induction xs generalizing rs t s with
  | nil => exact .pure ht
  | cons x xs ih =>
    cases rs with
    | nil => cases hl
    | cons r rs =>
      obtain ⟨hx, hxs⟩ := List.forall_mem_cons.1 hxs
      obtain ⟨hr, hrs⟩ := List.forall_mem_cons.1 hrs
      have hr' : r.InOrder (xs ++ names) s := hr.weaken fun y hy => List.mem_append_right xs hy
      rw [List.zip_cons_cons, substAll]
      refine (subst_inOrder hx hr' ht).bind fun t' s' hs ht' => ?_
      exact ih (Nat.succ.inj hl) (fun y hy => (hxs y hy).mono hs) (fun q hq => (hrs q hq).mono hs) ht'

/-- Renamed binders have the free names of their body among them, and the others are as before. -/
theorem Rebound.inOrder {captured bs bs' : List Name} {body body' : Ty} {s' : NameSupply}
    (h : Rebound captured bs body s bs' body' s') (hb : body.InOrder (bs ++ names) s) :
    body'.InOrder (bs' ++ names) s' := by
  have hscope : body'.nameless bs'.reverse = body.nameless bs.reverse := by
    have := h.scope [] [] (by simp) (by simp)
    simpa using this
  refine ⟨?_, fun x hx => ?_, h.ahead⟩
  · have hw := ((wellFormed_iff bs.reverse).1 hb.wellFormed).1
    rw [← hscope] at hw
    exact (wellFormed_iff bs'.reverse).2 ⟨hw, h.distinct⟩
  · by_cases hn : x ∈ bs'
    · exact List.mem_append_left names hn
    · have hhas : (body'.nameless bs'.reverse).Has x := has_nameless_iff.2 ⟨hx, by simpa using hn⟩
      rw [hscope] at hhas
      obtain ⟨hx', hn'⟩ := has_nameless_iff.1 hhas
      rw [List.mem_reverse] at hn'
      exact List.mem_append_right bs' ((List.mem_append.1 (hb.mem x hx')).resolve_left hn')

/-- The body of a generic type with arguments for its parameters is in order for the names of the generic type and of
the arguments. -/
theorem instantiate_inOrder {ns : List Name} {body : Ty} {args : List Ty} (hl : ns.length = args.length)
    (hd : ns.Nodup) (hns : ∀ n ∈ ns, s.AheadOf n) (hb : body.InOrder (ns ++ names) s)
    (hargs : ∀ a ∈ args, a.InOrder names s) :
    s.Yields (body.instantiate ns args) fun t s' => t.InOrder names s' := by
  unfold instantiate
  split
  · refine (rebindAll_yields hns hb.wellFormed.distinctParams hb.ahead hns hd).bind fun q s' hs hq => ?_
    refine substAll_inOrder (hq.length.trans hl) hq.names_ahead (fun a ha => (hargs a ha).mono hs) (hq.inOrder hb)
  · exact substAll_inOrder hl hns hargs hb

end Substitution

end MuTypes.Ty
