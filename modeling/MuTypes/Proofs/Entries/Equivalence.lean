import MuTypes.Proofs.Entries.Presentations

/-!
# An alias and its body are the same type

The names of mutually recursive aliases are different ways into the same infinite types.  The type that an annotation
means closes the recursion at the alias that it reaches first and writes the others out, so an alias and its body mean
types of different forms.  They are accepted together, and they fit each other exactly
(`Aliases.Plain.body_same_type`).

A place that has one presentation has a meaning among any active aliases (`Presents.exists_means`): a binder that is
not contractive there would lead back to its own place, from which no head is reached.  Two presentations of a place
agree (`Presents.agrees`), since their heads match and their parts present the same places.
-/

namespace MuTypes

open Nameless NameSupply

section Meanings

variable {aliases : Aliases} {active active' : List Name} {path : MuPath} {ρ : Name → Nameless Nat} {e : TyExpr} {t : Ty}
  {p q r : Place} {τ τ' : Nameless Nat}

/-! ### Acceptance does not depend on the entry -/

theorem PresentsIn.next (h : PresentsIn aliases active p τ) (hq : p.next? aliases = some q) :
    ∃ τ', Presents aliases q τ' := by
  rcases h.step hq with ⟨-, h'⟩ | ⟨n, a, -, -, h'⟩
  · exact ⟨_, h'⟩
  · exact ⟨τ, _, h'⟩

/-- A name below the leading recursive binders of a meaning stands at the end of a way from the place. -/
theorem Means.reaches_name (h : Means aliases active path e t) {x : Name} (hx : t.muBody = .var x) :
    ∃ q, Place.Reaches aliases ⟨path, e⟩ q ∧ q.next? aliases = path.target? aliases x ∧
      (x ∈ path.names ∨ ∃ a, aliases.find? x = some a) := by
  induction h with
  | prim | container | func | object | union => cases hx
  | @mu active path span n b t hn halias hb hc ih =>
    obtain ⟨q, hreach, hq, hwhere⟩ := ih hx
    have hne : n ≠ x := by
      rintro rfl
      exact hb.regular.wellFormed.isContractive_mu_iff.1 hc hx
    rw [MuPath.target?_cons_of_ne hne] at hq
    exact ⟨q, .head rfl hreach, hq, hwhere.imp_left fun hmem => (List.mem_cons.1 hmem).resolve_left (Ne.symm hne)⟩
  | enclosed hn _ =>
    cases hx
    exact ⟨_, .refl, rfl, .inl hn⟩
  | active _ ha _ _ =>
    cases hx
    exact ⟨_, .refl, rfl, .inr ⟨_, ha⟩⟩
  | unfolded _ ha _ _ _ _ ih | recursive _ ha _ _ _ _ _ ih =>
    -- in the body of an alias no binder is around, so the name is an alias too
    obtain ⟨q, hreach, hq, hwhere⟩ := ih hx
    obtain ⟨a', ha'⟩ := hwhere.resolve_left List.not_mem_nil
    rw [MuPath.target?_of_alias ha'] at hq
    exact ⟨q, .head (MuPath.target?_of_alias ha _) hreach, hq.trans (MuPath.target?_of_alias ha' _).symm,
      .inr ⟨a', ha'⟩⟩

/-- A recursive type around the meaning of a place that has a head is contractive. -/
theorem Means.isContractive_mu (h : Means aliases active path e t) (hr : Place.Heads aliases ⟨path, e⟩ r) {n : Name}
    (hn : path.target? aliases n = some ⟨path, e⟩) : (Ty.mu n t).isContractive = true := by
  refine h.regular.wellFormed.isContractive_mu_iff.2 fun hbody => ?_
  obtain ⟨q, hreach, hq, -⟩ := h.reaches_name hbody
  exact hr.not_loop hreach (hq.trans hn)

/-- Aliases that are not active and whose bodies are presented have a meaning there. -/
private def Presentable (aliases : Aliases) (active : List Name) : Prop :=
  ∀ n a, aliases.find? n = some a → n ∉ active → (∃ τ, Presents aliases ⟨[], a.body⟩ τ) →
    ∃ t, Means aliases (n :: active) [] a.body t

private theorem Presentable.name (h : Presentable aliases active) {n : Name} {a : Alias} (hn : n ∉ path.names)
    (ha : aliases.find? n = some a) (hparams : a.params = none) (hbody : ∃ τ, Presents aliases ⟨[], a.body⟩ τ)
    (span : Span) : ∃ t, Means aliases active path (.mk span (.ref n)) t := by
  by_cases hactive : n ∈ active
  · exact ⟨_, .active hn ha hparams hactive⟩
  · obtain ⟨t, ht⟩ := h n a ha hactive hbody
    obtain ⟨τ, active', hτ⟩ := hbody
    obtain ⟨r, hr, -⟩ := hτ.heads
    cases hmentions : t.mentions n with
    | true =>
      have hc := ht.isContractive_mu hr (MuPath.target?_of_alias ha [])
      exact ⟨_, .recursive hn ha hparams hactive ht hmentions hc⟩
    | false => exact ⟨_, .unfolded hn ha hparams hactive ht hmentions⟩

/-- What has a meaning among some active aliases has one among others. -/
private theorem Presentable.means (h : Presentable aliases active') (hmeans : Means aliases active path e t)
    (hρ : Closes aliases active path ρ) : ∃ t', Means aliases active' path e t' := by
  have hname : ∀ {active : List Name} {path : MuPath} {ρ : Name → Nameless Nat} {span : Span} {n : Name} {a : Alias}
      {t : Ty}, Means aliases active path (.mk span (.ref n)) t → Closes aliases active path ρ → n ∉ path.names →
        aliases.find? n = some a → a.params = none → ∃ t', Means aliases active' path (.mk span (.ref n)) t' := by
    intro active path ρ span n a t hmeans hρ hn ha hparams
    have hpresents : PresentsIn aliases active ⟨path, .mk span (.ref n)⟩ (t.bare.fill ρ) := ⟨ρ, t, hρ, hmeans, rfl⟩
    exact h.name hn ha hparams (hpresents.next (MuPath.target?_of_alias ha path)) span
  induction hmeans generalizing ρ with
  | prim p => exact ⟨_, .prim p⟩
  | container _ ih =>
    obtain ⟨t', he⟩ := ih hρ
    exact ⟨_, .container he⟩
  | @func _ path _ _ _ _ _ _ _ ihps ihr =>
    obtain ⟨f, hf⟩ := exists_meanings aliases active' path
    obtain ⟨t', hr⟩ := ihr hρ
    exact ⟨_, .func (fun p hp => hf p.2 (ihps p hp hρ)) hr⟩
  | @object _ path _ _ _ hd _ ih =>
    obtain ⟨f, hf⟩ := exists_meanings aliases active' path
    exact ⟨_, .object hd fun p hp => hf p.2 (ih p hp hρ)⟩
  | @union _ path _ _ _ hd hds _ ih =>
    obtain ⟨f, hf⟩ := exists_meanings aliases active' path
    exact ⟨_, .union hd hds fun v hv p hp => hf p.2 (ih v hv p hp hρ)⟩
  | mu hn halias hb hc ih =>
    have hρ' := Closes.mu hρ halias hb hc
    obtain ⟨t', hb'⟩ := ih hρ'
    obtain ⟨r, hr, -⟩ := PresentsIn.heads (p := ⟨_, _⟩) ⟨_, _, hρ', hb, rfl⟩
    exact ⟨_, .mu hn halias hb' (hb'.isContractive_mu hr (MuPath.target?_cons_self halias))⟩
  | enclosed hn halias => exact ⟨_, .enclosed hn halias⟩
  | active hn ha hparams hactive => exact hname (.active hn ha hparams hactive) hρ hn ha hparams
  | unfolded hn ha hparams hactive hb ht => exact hname (.unfolded hn ha hparams hactive hb ht) hρ hn ha hparams
  | recursive hn ha hparams hactive hb ht hc => exact hname (.recursive hn ha hparams hactive hb ht hc) hρ hn ha hparams

private theorem presentable (aliases : Aliases) (active : List Name) : Presentable aliases active := by
  induction hk : aliases.inactive active using Nat.strongRecOn generalizing active with
  | ind k ih =>
    rintro n a ha hn ⟨τ, active', ρ, t, hρ, ht, -⟩
    have hlt := Aliases.inactive_cons_lt ha hn
    exact (ih _ (hk ▸ hlt) (n :: active) rfl).means ht hρ

/-- A place that is presented has a meaning among any active aliases. -/
theorem Presents.exists_means (h : Presents aliases p τ) (active : List Name) :
    ∃ t, Means aliases active p.path p.expr t := by
  obtain ⟨active', ρ, t, hρ, ht, -⟩ := h
  exact (presentable aliases active).means ht hρ

/-! ### Presentations agree -/

/-- The exact comparison of presentations of places that lead to the same head. -/
private def SameHead (aliases : Aliases) (c : Nameless.Comparison) : Prop :=
  ∃ τ τ' p q r, c = ⟨0, .exact, τ, τ'⟩ ∧ p.Heads aliases r ∧ q.Heads aliases r ∧ Presents aliases p τ ∧
    Presents aliases q τ'

private theorem sameHead (h : PresentsIn aliases active p τ) (h' : PresentsIn aliases active' p τ') :
    SameHead aliases ⟨0, .exact, τ, τ'⟩ := by
  obtain ⟨r, hr, -⟩ := h.heads
  exact ⟨τ, τ', p, p, r, rfl, hr, hr, ⟨_, h⟩, ⟨_, h'⟩⟩

/-- At a head the two forms match, and the parts present the same places. -/
private theorem Presents.meets (h : Presents aliases r τ) (h' : Presents aliases r τ') (hr : r.next? aliases = none) :
    Comparison.Meets (SameHead aliases) ⟨0, .exact, τ, τ'⟩ := by
  obtain ⟨path, span, form⟩ := r
  obtain ⟨active, ρ, t, hρ, ht, rfl⟩ := h
  obtain ⟨active', ρ', t', hρ', ht', rfl⟩ := h'
  dsimp only at hρ ht hρ' ht'
  have hpart : ∀ {e : TyExpr} {u u' : Ty}, Means aliases active path e u → Means aliases active' path e u' →
      SameHead aliases ⟨0, .exact, u.bare.fill ρ, u'.bare.fill ρ'⟩ := by
    intro e u u' hu hu'
    exact sameHead (p := ⟨path, e⟩) ⟨ρ, u, hρ, hu, rfl⟩ ⟨ρ', u', hρ', hu', rfl⟩
  have hrow : ∀ {ps : List (Name × TyExpr)} {f f' : TyExpr → Ty}, (ps.map Prod.fst).Nodup →
      (∀ p ∈ ps, Means aliases active path p.2 (f p.2)) → (∀ p ∈ ps, Means aliases active' path p.2 (f' p.2)) →
        ∀ p ∈ ps.map fun p => (p.1, (f p.2).bare.fill ρ), ∃ u,
          (ps.map fun p => (p.1, (f' p.2).bare.fill ρ')).lookup p.1 = some u ∧ SameHead aliases ⟨0, .exact, p.2, u⟩ := by
    intro ps f f' hd hps hps'
    refine List.forall_mem_map.2 fun p hp => ⟨(f' p.2).bare.fill ρ', ?_, hpart (hps p hp) (hps' p hp)⟩
    rw [lookup_map_snd fun e => (f' e).bare.fill ρ', lookup_of_mem hd hp]
    rfl
  cases ht with
  | prim p =>
    cases ht'
    exact .prim p
  | container he =>
    cases ht' with
    | container he' => exact .container (hpart he he')
  | func hps hres =>
    cases ht' with
    | func hps' hres' =>
      simp only [Ty.bare_func, fill_func, List.map_map, Function.comp_def]
      refine .funcExact ?_ (hpart hres hres')
      rw [List.forall₂_map_left_iff, List.forall₂_map_right_iff, List.forall₂_same]
      exact fun p hp => hpart (hps p hp) (hps' p hp)
  | object hd hps =>
    cases ht' with
    | object _ hps' =>
      simp only [Ty.bare_object, fill_object, List.map_map, Function.comp_def]
      exact .object (.inr (by simp)) (hrow hd hps hps')
  | union hd hds hvs =>
    cases ht' with
    | @union _ _ _ vs f' _ _ hvs' =>
      simp only [Ty.bare_union, fill_union, List.map_map, Function.comp_def]
      refine .union (by simp) (List.forall_mem_map.2 fun v hv => ?_)
      refine ⟨v.2.map fun p => (p.1, (f' p.2).bare.fill ρ'), ?_, by simp, hrow (hds v hv) (hvs v hv) (hvs' v hv)⟩
      rw [lookup_map_snd fun ps : List (Name × TyExpr) => ps.map fun p => (p.1, (f' p.2).bare.fill ρ'),
        lookup_of_mem hd hv]
      rfl
  | mu => cases hr
  | enclosed hn halias =>
    obtain ⟨q, hq, -⟩ := hρ.lookup (.inl hn)
    cases hq.symm.trans hr
  | active hn ha | unfolded hn ha | recursive hn ha => cases (MuPath.target?_of_alias ha path).symm.trans hr

/-- Presentations of places that lead to the same head agree. -/
theorem Presents.agrees (h : Presents aliases p τ) (h' : Presents aliases q τ') (hp : p.Heads aliases r)
    (hq : q.Heads aliases r) : Comparison.Agrees ⟨0, .exact, τ, τ'⟩ := by
  obtain ⟨active, hτ⟩ := h
  obtain ⟨active', hτ'⟩ := h'
  have hsound : Comparison.Sound ⟨0, .exact, τ, τ'⟩ :=
    ⟨hτ.closed.toSound, hτ'.closed.toSound, fun x hx => absurd hx (hτ.closed.not_has x),
      fun x hx => absurd hx (hτ'.closed.not_has x)⟩
  refine Comparison.agrees_of_meets (S := SameHead aliases) ?_ hsound
    ⟨τ, τ', p, q, r, rfl, hp, hq, ⟨active, hτ⟩, ⟨active', hτ'⟩⟩
  rintro c - ⟨τ, τ', p, q, r, rfl, hp, hq, ⟨active, hτ⟩, ⟨active', hτ'⟩⟩
  obtain ⟨r₁, hr₁, hhead⟩ := hτ.heads
  obtain ⟨r₂, hr₂, hhead'⟩ := hτ'.heads
  obtain rfl := hr₁.unique hp
  obtain rfl := hr₂.unique hq
  exact hhead.meets hhead' hp.next?_eq_none

end Meanings

/-! ### An alias and its body -/

section Entries

variable {aliases : Aliases} {e : TyExpr} {t u : Ty}

/-- What an annotation without `@` means has no `@` in its names. -/
private theorem Means.aheadOfTy (h : Means aliases [] [] e t) (haliases : aliases.Unnumbered) (he : e.Unnumbered)
    (s : NameSupply) : s.AheadOfTy t := by
  have hnone : ∀ n ∈ Scope.meanings [], s.AheadOf n := List.forall_mem_nil _
  have hchecks := TyExpr.resolve_inOrder (aheadOfAliases_of_unnumbered haliases s) hnone e
    (aheadOfTyExpr_of_unnumbered he s)
  have heq : e.resolve aliases [] = pure t := h.resolveIn_eq (Nat.le_of_eq aliases.inactive_nil)
  rw [heq] at hchecks
  exact (hchecks.2.1 t rfl).ahead

/-- Outside all binders and expansions meanings are presentations, once the labels are levels. -/
private theorem Means.presentsIn (h : Means aliases [] [] e t) : PresentsIn aliases [] ⟨[], e⟩ (t.located []) := by
  refine ⟨_, t, .outside, h, ?_⟩
  rw [Ty.located, ← fill_id (t.bare.relabel _), fill_relabel]
  refine fill_congr fun x hx => ?_
  cases h.regular.mem x (Ty.has_nameless_iff.1 hx).1

/-- A name of an alias means a type when the body of the alias does, and each of the two types fits where the other is
required, exactly, although each closes the recursion in its own way. -/
theorem Aliases.Plain.body_same_type (h : aliases.Plain) (hunnumbered : aliases.Unnumbered) {a : Alias}
    (ha : a ∈ aliases) (span : Span) :
    ((∃ t, ((TyExpr.mk span (.ref a.name)).resolve aliases []).result = .ok t) ↔
      ∃ u, (a.body.resolve aliases []).result = .ok u) ∧
    ∀ t u, ((TyExpr.mk span (.ref a.name)).resolve aliases []).result = .ok t →
      (a.body.resolve aliases []).result = .ok u →
        ∀ s : NameSupply, Ty.Accepts [] .exact t u s ∧ Ty.Accepts [] .exact u t s := by
  have hfind := h.find?_self ha
  have hname : ∀ t, ((TyExpr.mk span (.ref a.name)).resolve aliases []).result = .ok t ↔
      Means aliases [] [] (.mk span (.ref a.name)) t := fun t =>
    resolve_eq_ok_iff_means h rfl (List.forall_mem_nil _)
  have hbody : ∀ u, (a.body.resolve aliases []).result = .ok u ↔ Means aliases [] [] a.body u := fun u =>
    resolve_eq_ok_iff_means h (h.monomorphic a ha) fun n hn => h.find?_binder ha hn
  have hnext : Place.next? aliases ⟨[], .mk span (.ref a.name)⟩ = some ⟨[], a.body⟩ :=
    MuPath.target?_of_alias hfind []
  simp only [hname, hbody]
  refine ⟨⟨fun ⟨t, ht⟩ => ?_, fun ⟨u, hu⟩ => ?_⟩, fun t u ht hu s => ?_⟩
  · obtain ⟨τ, hτ⟩ := ht.presentsIn.next hnext
    exact hτ.exists_means []
  · exact (presentable aliases []).name List.not_mem_nil hfind (h.params a ha) ⟨_, _, hu.presentsIn⟩ span
  · obtain ⟨r, hr, -⟩ := hu.presentsIn.heads
    have hr' : Place.Heads aliases ⟨[], .mk span (.ref a.name)⟩ r := .step hnext hr
    have hst : s.AheadOfTy t := ht.aheadOfTy hunnumbered (List.forall_mem_nil _) s
    have hsu : s.AheadOfTy u := hu.aheadOfTy hunnumbered (hunnumbered a ha).2 s
    have hagrees := Presents.agrees ⟨_, ht.presentsIn⟩ ⟨_, hu.presentsIn⟩ hr' hr
    have hagrees' := Presents.agrees ⟨_, hu.presentsIn⟩ ⟨_, ht.presentsIn⟩ hr hr'
    exact ⟨ht.regular.alwaysAccepts_of_agrees hu.regular hagrees s hst hsu,
      hu.regular.alwaysAccepts_of_agrees ht.regular hagrees' s hsu hst⟩

end Entries

/-- `type Tree = { label: number; children: Forest }` and `type Forest = Tree[]`. -/
def treeAliases : Aliases :=
  [⟨"Tree", none, .mk ⟨12, 47⟩ (.object [("label", .mk ⟨21, 27⟩ (.prim .number)),
      ("children", .mk ⟨39, 45⟩ (.ref "Forest"))]), ⟨0, 48⟩⟩,
    ⟨"Forest", none, .mk ⟨63, 69⟩ (.container .array (.mk ⟨63, 67⟩ (.ref "Tree"))), ⟨49, 70⟩⟩]

/-- `mu Tree. { label: number; children: Tree[] }`, what `Tree` means. -/
def treeType : Ty :=
  .mu "Tree" (.object [("label", .number), ("children", .array (.var "Tree"))])

/-- `{ label: number; children: mu Forest. { label: number; children: Forest }[] }`, what the body of `Tree` means. -/
def treeBodyType : Ty :=
  .object [("label", .number),
    ("children", .mu "Forest" (.array (.object [("label", .number), ("children", .var "Forest")])))]

private theorem treeAliases_plain : treeAliases.Plain :=
  ⟨by decide, by decide, by decide, by decide⟩

/-- The name `Tree` closes the recursion at `Tree` and the body of `Tree` closes it at `Forest`, and the types fit each
other. -/
theorem body_same_type_tree :
    ∃ a ∈ treeAliases, ((TyExpr.mk ⟨71, 75⟩ (.ref a.name)).resolve treeAliases []).result = .ok treeType ∧
      (a.body.resolve treeAliases []).result = .ok treeBodyType ∧
        Ty.Accepts [] .exact treeType treeBodyType {} ∧ Ty.Accepts [] .exact treeBodyType treeType {} := by
  have hunnumbered : treeAliases.Unnumbered := by
    simp [treeAliases, Aliases.Unnumbered, TyExpr.Unnumbered, TyExpr.binders, TyExpr.bindersForm, TyExpr.bindersRow]
  have hname : ((TyExpr.mk ⟨71, 75⟩ (.ref "Tree")).resolve treeAliases []).result = .ok treeType := by cbv
  have hbody : ((treeAliases[0]).body.resolve treeAliases []).result = .ok treeBodyType := by cbv
  have hmem : treeAliases[0] ∈ treeAliases := List.getElem_mem _
  obtain ⟨-, hfits⟩ := treeAliases_plain.body_same_type hunnumbered hmem ⟨71, 75⟩
  exact ⟨_, hmem, hname, hbody, hfits _ _ hname hbody {}⟩

end MuTypes
