import MuTypes.Proofs.WellFormed

/-!
# What substitution does to nameless forms

Substitution draws names and renames binders, but the nameless form of its result is that of the type with another
nameless form put for a label (`subst_yields`).  A binder is renamed to a name that occurs nowhere, which the
nameless form of its scope does not show (`rebindAll_yields`).

`Ty.Spells` is what all of these keep: the type has a given nameless form, its parameters are distinct, and the supply
is ahead of its names.  What is put in is never entered, so its parameters matter only for those of the result
(`Ty.SpellsIf`).
-/

namespace MuTypes

open Nameless NameSupply

/-- The type spells the nameless type out, with distinct parameters and names that the supply is ahead of. -/
structure Ty.Spells (t : Ty) (n : Nameless Name) (s : NameSupply) : Prop where
  bare : t.bare = n
  distinct : t.DistinctParams
  ahead : s.AheadOfTy t

namespace Ty

theorem Spells.mono {t : Ty} {n : Nameless Name} {s s' : NameSupply} (h : t.Spells n s) (hs : s ≤ s') :
    t.Spells n s' :=
  ⟨h.bare, h.distinct, h.ahead.mono hs⟩

theorem Spells.nameless {t : Ty} {n : Nameless Name} {s : NameSupply} (h : t.Spells n s) (ctx : List Name) :
    t.nameless ctx = n.enclose ctx := by
  rw [nameless_eq_enclose, h.bare]

theorem Spells.wellFormed {t : Ty} {n : Nameless Name} {s : NameSupply} (h : t.Spells n s) (hn : n.WellFormed) :
    t.WellFormed := by
  obtain ⟨rfl, hd, -⟩ := h
  exact (wellFormed_iff []).2 ⟨hn, hd⟩

theorem spells_var {s : NameSupply} {x : Name} (h : s.AheadOf x) : (Ty.var x).Spells (.free x) s :=
  ⟨bare_var x, .var x, by simpa [AheadOfTy, typeNames] using h⟩

/-- `Spells`, with parameters that need only be distinct when the condition holds. -/
structure SpellsIf (D : Prop) (t : Ty) (n : Nameless Name) (s : NameSupply) : Prop where
  bare : t.bare = n
  distinct : D → t.DistinctParams
  ahead : s.AheadOfTy t

theorem Spells.spellsIf {t : Ty} {n : Nameless Name} {s : NameSupply} (h : t.Spells n s) (D : Prop) :
    t.SpellsIf D n s :=
  ⟨h.bare, fun _ => h.distinct, h.ahead⟩

theorem SpellsIf.spells {t : Ty} {n : Nameless Name} {s : NameSupply} (h : t.SpellsIf True n s) : t.Spells n s :=
  ⟨h.bare, h.distinct trivial, h.ahead⟩

theorem SpellsIf.mono {D : Prop} {t : Ty} {n : Nameless Name} {s s' : NameSupply} (h : t.SpellsIf D n s)
    (hs : s ≤ s') : t.SpellsIf D n s' :=
  ⟨h.bare, h.distinct, h.ahead.mono hs⟩

/-! ### Rows -/

/-- `SpellsIf` for the types of a row, under the same names. -/
structure SpellsRow (D : Prop) (ps : Row) (ns : List (Name × Nameless Name)) (s : NameSupply) : Prop where
  bare : (ps.map fun p => (p.1, p.2.bare)) = ns
  distinct : ∀ p ∈ ps, D → p.2.DistinctParams
  ahead : ∀ p ∈ ps, s.AheadOfTy p.2

theorem mapRow_yields {D : Prop} {f : Ty → SupplyM Ty} {h : Nameless Name → Nameless Name} {s : NameSupply} {ps : Row}
    (hf : ∀ p ∈ ps, ∀ s', s ≤ s' → s'.Yields (f p.2) fun t s'' => t.SpellsIf D (h p.2.bare) s'') :
    s.Yields (mapRow f ps) fun qs s' => SpellsRow D qs (ps.map fun p => (p.1, h p.2.bare)) s' := by
  induction ps generalizing s with
  | nil => exact .pure ⟨rfl, by simp, by simp⟩
  | cons p ps ih =>
    rw [mapRow_cons]
    refine (hf p List.mem_cons_self s (le_refl s)).bind fun t s₁ h₁ ht => ?_
    refine (ih fun q hq s' hs' => hf q (List.mem_cons_of_mem _ hq) s' (le_trans h₁ hs')).bind fun qs s₂ h₂ hqs => ?_
    refine .pure ⟨?_, List.forall_mem_cons.2 ⟨ht.distinct, hqs.distinct⟩,
      List.forall_mem_cons.2 ⟨ht.ahead.mono h₂, hqs.ahead⟩⟩
    rw [List.map_cons, List.map_cons, hqs.bare, ht.bare]

theorem mapVariants_yields {D : Prop} {f : Ty → SupplyM Ty} {h : Nameless Name → Nameless Name} {s : NameSupply}
    {vs : Variants}
    (hf : ∀ v ∈ vs, ∀ p ∈ v.2, ∀ s', s ≤ s' → s'.Yields (f p.2) fun t s'' => t.SpellsIf D (h p.2.bare) s'') :
    s.Yields (mapVariants f vs) fun ws s' =>
      (ws.map fun w => (w.1, w.2.map fun p => (p.1, p.2.bare))) =
        (vs.map fun v => (v.1, v.2.map fun p => (p.1, h p.2.bare))) ∧
      ∀ w ∈ ws, ∀ p ∈ w.2, (D → p.2.DistinctParams) ∧ s'.AheadOfTy p.2 := by
  induction vs generalizing s with
  | nil => exact .pure ⟨rfl, by simp⟩
  | cons v vs ih =>
    rw [mapVariants_cons]
    refine (mapRow_yields (hf v List.mem_cons_self)).bind fun row s₁ h₁ hrow => ?_
    refine (ih fun w hw p hp s' hs' => hf w (List.mem_cons_of_mem _ hw) p hp s' (le_trans h₁ hs')).bind
      fun ws s₂ h₂ hws => .pure ⟨?_, ?_⟩
    · rw [List.map_cons, List.map_cons, hws.1, hrow.bare]
    · exact List.forall_mem_cons.2 ⟨fun p hp => ⟨hrow.distinct p hp, (hrow.ahead p hp).mono h₂⟩, hws.2⟩

/-! ### Renaming a binder -/

/-- A new name for a binder does not show in the nameless form of its scope. -/
theorem nameless_of_bare_eq_put {b b' : Name} {t t' : Ty} (h : t'.bare = t.bare.put b (.free b'))
    (hb' : t.mentions b' = false) {ns ctx : List Name} (hn : b ∉ ns) (hn' : b' ∉ ns) :
    t'.nameless (ns ++ b' :: ctx) = t.nameless (ns ++ b :: ctx) := by
  rw [nameless_eq_enclose, nameless_eq_enclose, h, enclose, put, graft_graft, enclose]
  have hlabels : t.bare.Leaves (fun _ _ => True) fun _ x => x ≠ b' := by
    rw [leaves_nameless_iff]
    rintro x hx - rfl
    rw [hb'] at hx
    exact Bool.noConfusion hx
  have hhead : ∀ c, c ∉ ns → place (ns ++ c :: ctx) c = some ns.length := by
    intro c hc
    rw [place_append_of_not_mem hc]
    simp [place, List.findIdx?_cons]
  refine graft_congr (hlabels.mono (fun _ _ _ => rfl) fun d x hx => ?_)
  by_cases e : x = b
  · rw [if_pos e, graft_free, e, Nat.zero_add, leafBelow, leafBelow, hhead b' hn', hhead b hn]
  · rw [if_neg e, graft_free, Nat.zero_add]
    refine leafBelow_congr ?_ _
    rw [place_append, place_append]
    simp [place, List.findIdx?_cons, Ne.symm e, Ne.symm hx]

/-- What renaming some of the binders `bs` of `body` gives: names outside `captured`, each of which is old or was
drawn since `s`, and a body whose scope looks as before. -/
structure Rebound (captured bs : List Name) (body : Ty) (s : NameSupply) (bs' : List Name) (body' : Ty)
    (s' : NameSupply) : Prop where
  length : bs'.length = bs.length
  nodup : bs'.Nodup
  not_captured : ∀ c ∈ bs', c ∉ captured
  old_or_drawn : ∀ c ∈ bs', c ∈ bs ∨ ¬ s.AheadOf c
  names_ahead : ∀ c ∈ bs', s'.AheadOf c
  distinct : body'.DistinctParams
  ahead : s'.AheadOfTy body'
  height : body'.height ≤ body.height
  scope : ∀ ns ctx, (∀ c ∈ bs, c ∉ ns) → (∀ c ∈ bs', c ∉ ns) →
    body'.nameless (ns ++ bs'.reverse ++ ctx) = body.nameless (ns ++ bs.reverse ++ ctx)

/-- Renaming works for types of height up to the bound. -/
private def RenamesWithin (k : Nat) : Prop :=
  ∀ ⦃b b' : Name⦄ ⦃t : Ty⦄ ⦃s : NameSupply⦄, t.height ≤ k → t.DistinctParams → s.AheadOfTy t → s.AheadOf b →
    s.AheadOf b' → s.Yields (subst b (.var b') t) fun t' s' => t'.Spells (t.bare.put b (.free b')) s'

section Rebind

variable {k : Nat} (hk : RenamesWithin k) {captured : List Name} {body : Ty} {s : NameSupply}
  (hc : ∀ c ∈ captured, s.AheadOf c) (hh : body.height ≤ k) (hd : body.DistinctParams) (hs : s.AheadOfTy body)

include hk hc hh hd hs

private theorem rebind_yields_of_le {b : Name} (hb : s.AheadOf b) :
    s.Yields (rebind subst captured b body) fun q s' => Rebound captured [b] body s [q.1] q.2 s' := by
  unfold rebind
  split
  · refine Yields.draw (Q := fun b' s₁ => s ≤ s₁ ∧ b' = numbered b s.next ∧ s₁.next = s.next + 1)
      ⟨Nat.le_succ _, rfl, rfl⟩ |>.bind fun b' s₁ _ hdraw => ?_
    obtain ⟨h₁, rfl, hnext⟩ := hdraw
    have hnew : ¬ s.AheadOf (numbered b s.next) := fun h => h.ne_drawn b rfl
    have hb' : s₁.AheadOf (numbered b s.next) := aheadOf_numbered (by omega) b
    have hrep := hk hh hd (hs.mono h₁) (hb.mono h₁) hb'
    refine (hrep.and_always (subst_var_height_le b (numbered b s.next) body)).bind fun t s₂ h₂ ht => .pure ?_
    have hfree : body.mentions (numbered b s.next) = false := by
      cases hm : body.mentions (numbered b s.next) with
      | false => rfl
      | true => exact absurd (hs.of_mentions hm) hnew
    refine ⟨rfl, by simp, ?_, ?_, ?_, ht.1.distinct, ht.1.ahead, ht.2, fun ns ctx hn hn' => ?_⟩
    · rintro c hcm hcc
      rw [List.mem_singleton.1 hcm] at hcc
      exact hnew (hc _ hcc)
    · exact fun c hcm => .inr (List.mem_singleton.1 hcm ▸ hnew)
    · exact fun c hcm => List.mem_singleton.1 hcm ▸ hb'.mono h₂
    · simp only [List.reverse_singleton, List.append_assoc, List.singleton_append]
      exact nameless_of_bare_eq_put ht.1.bare hfree (hn b (List.mem_singleton_self b))
        (hn' _ (List.mem_singleton_self _))
  · rename_i hnot
    refine .pure ⟨rfl, by simp, ?_, fun c hcm => .inl hcm, ?_, hd, hs, Nat.le_refl _, fun _ _ _ _ => rfl⟩
    · exact fun c hcm => List.mem_singleton.1 hcm ▸ hnot
    · exact fun c hcm => List.mem_singleton.1 hcm ▸ hb

private theorem rebindAll_yields_of_le {bs : List Name} (hbs : ∀ b ∈ bs, s.AheadOf b) (hn : bs.Nodup) :
    s.Yields (rebindAll subst captured bs body) fun q s' => Rebound captured bs body s q.1 q.2 s' := by
  induction bs generalizing body s with
  | nil =>
    exact .pure ⟨rfl, List.nodup_nil, by simp, by simp, by simp, hd, hs, Nat.le_refl _, fun _ _ _ _ => rfl⟩
  | cons b bs ih =>
    obtain ⟨hb, hbs⟩ := List.forall_mem_cons.1 hbs
    obtain ⟨hbn, hn⟩ := List.nodup_cons.1 hn
    refine (rebind_yields_of_le hk hc hh hd hs hb).bind fun q s₁ h₁ hq => ?_
    obtain ⟨b', t⟩ := q
    refine (ih (fun c hcc => (hc c hcc).mono h₁) (Nat.le_trans hq.height hh) hq.distinct hq.ahead
      (fun c hcb => (hbs c hcb).mono h₁) hn).bind fun q s₂ h₂ hq' => .pure ?_
    obtain ⟨bs', t'⟩ := q
    have hold := hq.old_or_drawn b' (List.mem_singleton_self b')
    have hb'n : b' ∉ bs := by
      intro hm
      rcases hold with h | h
      · exact hbn (List.mem_singleton.1 h ▸ hm)
      · exact h (hbs b' hm)
    have hb's : b' ∉ bs' := by
      intro hm
      rcases hq'.old_or_drawn b' hm with h | h
      · exact hb'n h
      · exact h (hq.names_ahead b' (List.mem_singleton_self b'))
    refine ⟨congrArg (· + 1) hq'.length, List.nodup_cons.2 ⟨hb's, hq'.nodup⟩, ?_, ?_, ?_, hq'.distinct, hq'.ahead,
      Nat.le_trans hq'.height hq.height, fun ns ctx hns hns' => ?_⟩
    · exact List.forall_mem_cons.2 ⟨hq.not_captured b' (List.mem_singleton_self b'), hq'.not_captured⟩
    · refine List.forall_mem_cons.2 ⟨hold.imp_left fun h => List.mem_cons.2 (.inl (List.mem_singleton.1 h)), ?_⟩
      exact fun c hcm => (hq'.old_or_drawn c hcm).imp (List.mem_cons_of_mem b) fun h hs => h (hs.mono h₁)
    · exact List.forall_mem_cons.2 ⟨(hq.names_ahead b' (List.mem_singleton_self b')).mono h₂, hq'.names_ahead⟩
    · obtain ⟨hnb, hnbs⟩ := List.forall_mem_cons.1 hns
      obtain ⟨hnb', hnbs'⟩ := List.forall_mem_cons.1 hns'
      have hinner := hq'.scope ns (b' :: ctx) hnbs hnbs'
      have houter := hq.scope (ns ++ bs.reverse) ctx (by simpa using ⟨hnb, hbn⟩) (by simpa using ⟨hnb', hb'n⟩)
      simp only [List.reverse_cons, List.append_assoc, List.singleton_append, List.nil_append,
        List.reverse_nil] at hinner houter ⊢
      rw [hinner, houter]

end Rebind

/-! ### Substitution -/

/-- Types are put for labels below binders as they are outside, if the binders capture nothing. -/
theorem enclose_put {ctx : List Name} {x : Name} {m : Nameless Name} (hx : x ∉ ctx) (hm : ∀ c ∈ ctx, ¬ m.Has c)
    (n : Nameless Name) : (n.put x m).enclose ctx = (n.enclose ctx).put x m := by
  have hself : ∀ d, m.graft (fun _ i => .bound i) (fun e => leafBelow ctx (e + d)) = m := by
    intro d
    refine graft_eq_self (Leaves.mono (leaves_of_has (A := fun y => y ∉ ctx) fun y hy hyc => hm y hyc hy)
      (fun _ _ _ => rfl) fun e y hy => leafBelow_of_not_mem hy _)
  rw [enclose, put, graft_graft, put, enclose, graft_graft]
  congr 1
  funext d y
  by_cases hy : y = x
  · rw [if_pos hy, hself, hy, leafBelow_of_not_mem hx, graft_free, if_pos rfl]
  · rw [if_neg hy, graft_free, Nat.zero_add]
    by_cases hyc : y ∈ ctx
    · cases h : place ctx y with
      | none => exact absurd hyc (place_eq_none_iff.1 h)
      | some i => rw [leafBelow, h, graft_bound]
    · rw [leafBelow_of_not_mem hyc, graft_free, if_neg hy]

private theorem Rebound.nameless_put {x : Name} {r body body' u : Ty} {bs bs' : List Name} {s s₁ : NameSupply}
    (h : Rebound r.freeNames bs body s bs' body' s₁) (hx : s.AheadOf x) (hxb : x ∉ bs)
    (hu : u.bare = body'.bare.put x r.bare) :
    u.nameless bs'.reverse = (body.nameless bs.reverse).put x r.bare := by
  have hx' : x ∉ bs'.reverse := by
    intro hm
    rcases h.old_or_drawn x (List.mem_reverse.1 hm) with h | h
    · exact hxb h
    · exact h hx
  have hr : ∀ c ∈ bs'.reverse, ¬ r.bare.Has c := by
    intro c hm hc
    exact h.not_captured c (List.mem_reverse.1 hm) (mem_freeNames_iff.2 (has_nameless_iff.1 hc).1)
  have hscope := h.scope [] [] (by simp) (by simp)
  simp only [List.nil_append, List.append_nil] at hscope
  rw [nameless_eq_enclose, hu, enclose_put hx' hr, ← nameless_eq_enclose, hscope]

private theorem subst_yields_of_le (k : Nat) {D : Prop} {x : Name} {r t : Ty} {s : NameSupply} (hk : t.height ≤ k)
    (hx : s.AheadOf x) (hr : r.SpellsIf D r.bare s) (ht : t.Spells t.bare s) :
    s.Yields (subst x r t) fun t' s' => t'.SpellsIf D (t.bare.put x r.bare) s' := by
  induction k generalizing D x r t s with
  | zero => exact absurd t.height_pos (by omega)
  | succ k ih =>
    have hrename : RenamesWithin k := by
      intro b b' u s hu hd hs hb hb'
      have h := ih (D := True) (r := .var b') hu hb ((spells_var hb').spellsIf True) ⟨rfl, hd, hs⟩
      rw [bare_var] at h
      exact h.mono fun t' s' _ ht' => ht'.spells
    have hcaptured : ∀ c ∈ r.freeNames, s.AheadOf c := fun c hc => hr.ahead.of_mentions (mem_freeNames_iff.1 hc)
    have hkeep : ∀ {u : Ty}, u.Spells u.bare s → ¬ u.mentions x = true →
        s.Yields (pure u) fun t' s' => t'.SpellsIf D (u.bare.put x r.bare) s' := by
      intro u hu hm
      refine .pure ⟨?_, fun _ => hu.distinct, hu.ahead⟩
      rw [put_of_not_has fun h => hm (has_nameless_iff.1 h).1]
    have hrow : ∀ {ps : Row}, rowHeight ps ≤ k → (∀ p ∈ ps, p.2.DistinctParams) → (∀ p ∈ ps, s.AheadOfTy p.2) →
        ∀ p ∈ ps, ∀ s', s ≤ s' → s'.Yields (subst x r p.2) fun t s'' => t.SpellsIf D (p.2.bare.put x r.bare) s'' :=
      fun hh hd hs p hp s' h' => ih (Nat.le_trans (height_le_rowHeight hp) hh) (hx.mono h') (hr.mono h')
        ⟨rfl, hd p hp, (hs p hp).mono h'⟩
    obtain ⟨-, hd, hs⟩ := ht
    cases hd with
    | prim p => exact .pure ⟨rfl, fun _ => .prim p, hs⟩
    | @container kind e he =>
      rw [subst_container]
      refine (ih (by simp only [height] at hk; omega) hx hr ⟨rfl, he, hs⟩).bind fun e' s' h' hq => .pure ?_
      exact ⟨congrArg _ hq.bare, fun hD => .container (hq.distinct hD), hq.ahead⟩
    | @func ps result hps hres =>
      simp only [height] at hk
      have hsps : ∀ p ∈ ps, s.AheadOfTy p.2 := fun p hp y hy => hs y (mem_typeNames_func.2 (.inl ⟨p, hp, hy⟩))
      have hsres : s.AheadOfTy result := fun y hy => hs y (mem_typeNames_func.2 (.inr hy))
      rw [subst_func]
      refine (mapRow_yields (h := fun n => n.put x r.bare) (hrow (by omega) hps hsps)).bind fun qs s₁ h₁ hqs => ?_
      refine (ih (by omega) (hx.mono h₁) (hr.mono h₁) ⟨rfl, hres, hsres.mono h₁⟩).bind fun u s₂ h₂ hu => .pure ?_
      refine ⟨?_, fun hD => .func (fun q hq => hqs.distinct q hq hD) (hu.distinct hD), ?_⟩
      · rw [bare_func, bare_func, hqs.bare, hu.bare, put_func, List.map_map]
        rfl
      · intro y hy
        rcases mem_typeNames_func.1 hy with ⟨q, hq, hy⟩ | hy
        · exact (hqs.ahead q hq y hy).mono h₂
        · exact hu.ahead y hy
    | @object ps hps =>
      simp only [height] at hk
      have hsps : ∀ p ∈ ps, s.AheadOfTy p.2 := fun p hp y hy => hs y (mem_typeNames_object.2 ⟨p, hp, hy⟩)
      rw [subst_object]
      refine (mapRow_yields (h := fun n => n.put x r.bare) (hrow (by omega) hps hsps)).bind fun qs s₁ h₁ hqs =>
        .pure ⟨?_, fun hD => .object fun q hq => hqs.distinct q hq hD, ?_⟩
      · rw [bare_object, bare_object, hqs.bare, put_object, List.map_map]
        rfl
      · intro y hy
        obtain ⟨q, hq, hy⟩ := mem_typeNames_object.1 hy
        exact hqs.ahead q hq y hy
    | @union vs hvs =>
      simp only [height] at hk
      have hsvs : ∀ v ∈ vs, ∀ p ∈ v.2, s.AheadOfTy p.2 := fun v hv p hp y hy =>
        hs y (mem_typeNames_union.2 ⟨v, hv, p, hp, hy⟩)
      rw [subst_union]
      refine (mapVariants_yields (h := fun n => n.put x r.bare) fun v hv =>
        hrow (Nat.le_trans (rowHeight_le_variantsHeight hv) (by omega)) (hvs v hv) (hsvs v hv)).bind
        fun ws s₁ h₁ hws => .pure ⟨?_, fun hD => .union fun w hw p hp => (hws.2 w hw p hp).1 hD, ?_⟩
      · rw [bare_union, bare_union, hws.1, put_union, List.map_map]
        simp only [Function.comp_def, List.map_map]
      · intro y hy
        obtain ⟨w, hw, p, hp, hy⟩ := mem_typeNames_union.1 hy
        exact (hws.2 w hw p hp).2 y hy
    | @mu b body hb =>
      simp only [height] at hk
      rw [subst_mu]
      split
      · rename_i hm
        have hxb : x ∉ [b] := fun h => ((mentions_mu ..).1 hm).1 (List.mem_singleton.1 h).symm
        have hsb : s.AheadOfTy body := fun y hy => hs y (mem_typeNames_mu.2 (.inr hy))
        refine (rebind_yields_of_le hrename hcaptured (by omega) hb hsb (hs b (mem_typeNames_mu.2 (.inl rfl)))).bind
          fun q s₁ h₁ hq => ?_
        refine (ih (Nat.le_trans hq.height (by omega)) (hx.mono h₁) (hr.mono h₁) ⟨rfl, hq.distinct, hq.ahead⟩).bind
          fun u s₂ h₂ hu => .pure ⟨?_, fun hD => .mu (hu.distinct hD), ?_⟩
        · exact congrArg _ (hq.nameless_put hx hxb hu.bare)
        · intro y hy
          rcases mem_typeNames_mu.1 hy with rfl | hy
          · exact (hq.names_ahead _ (List.mem_singleton_self _)).mono h₂
          · exact hu.ahead y hy
      · exact hkeep ⟨rfl, .mu hb, hs⟩ ‹_›
    | @generic bs body hn hb =>
      simp only [height] at hk
      rw [subst_generic]
      split
      · rename_i hm
        have hxb : x ∉ bs := ((mentions_generic ..).1 hm).1
        have hsb : s.AheadOfTy body := fun y hy => hs y (mem_typeNames_generic.2 (.inr hy))
        refine (rebindAll_yields_of_le hrename hcaptured (by omega) hb hsb
          (fun b hb => hs b (mem_typeNames_generic.2 (.inl hb))) hn).bind fun q s₁ h₁ hq => ?_
        refine (ih (Nat.le_trans hq.height (by omega)) (hx.mono h₁) (hr.mono h₁) ⟨rfl, hq.distinct, hq.ahead⟩).bind
          fun u s₂ h₂ hu => .pure ⟨?_, fun hD => .generic hq.nodup (hu.distinct hD), ?_⟩
        · have hscope := hq.nameless_put hx hxb hu.bare
          rw [bare_generic, bare_generic, hscope, hq.length]
          rfl
        · intro y hy
          rcases mem_typeNames_generic.1 hy with hy | hy
          · exact (hq.names_ahead y hy).mono h₂
          · exact hu.ahead y hy
      · exact hkeep ⟨rfl, .generic hn hb, hs⟩ ‹_›
    | var y =>
      rw [subst_var]
      split
      · rename_i e
        refine .pure ⟨?_, hr.distinct, hr.ahead⟩
        rw [bare_var, e, put_free_self]
      · rename_i e
        refine .pure ⟨?_, fun _ => .var y, hs⟩
        rw [bare_var, put_free_of_ne e]

/-- The nameless form of the result is that of the type with the nameless form of `r` for the label `x`.  Parameters
in `r` are carried along, so they need not be distinct. -/
theorem subst_yields_spellsIf {D : Prop} {x : Name} {r t : Ty} {n m : Nameless Name} {s : NameSupply}
    (hx : s.AheadOf x) (hr : r.SpellsIf D m s) (ht : t.Spells n s) :
    s.Yields (subst x r t) fun t' s' => t'.SpellsIf D (n.put x m) s' := by
  obtain rfl := hr.bare
  obtain rfl := ht.bare
  exact subst_yields_of_le t.height (Nat.le_refl _) hx hr ht

theorem subst_yields {x : Name} {r t : Ty} {n m : Nameless Name} {s : NameSupply} (hx : s.AheadOf x)
    (hr : r.Spells m s) (ht : t.Spells n s) :
    s.Yields (subst x r t) fun t' s' => t'.Spells (n.put x m) s' := by
  exact (subst_yields_spellsIf hx (hr.spellsIf True) ht).mono fun t' s' _ ht' => ht'.spells

private theorem renamesWithin (k : Nat) : RenamesWithin k := by
  intro b b' t s _ hd hs hb hb'
  exact subst_yields hb (spells_var hb') ⟨rfl, hd, hs⟩

theorem rebindAll_yields {captured bs : List Name} {body : Ty} {s : NameSupply} (hc : ∀ c ∈ captured, s.AheadOf c)
    (hd : body.DistinctParams) (hs : s.AheadOfTy body) (hbs : ∀ b ∈ bs, s.AheadOf b) (hn : bs.Nodup) :
    s.Yields (rebindAll subst captured bs body) fun q s' => Rebound captured bs body s q.1 q.2 s' :=
  rebindAll_yields_of_le (renamesWithin body.height) hc (Nat.le_refl _) hd hs hbs hn

end Ty

end MuTypes
