import MuTypes.Proofs.Substitution
import MuTypes.Ty.Instantiate

/-!
# Nameless forms and what is put into them

What a type looks like below some binders determines what it looks like below one binder more
(`nameless_cons_congr`), and whether it mentions the name of that binder (`mentions_congr`), as long as the name stands
at the same place among the binders.  Putting types for distinct variables one after the other is opening the binders
that these variables would be (`substAll_yields`), and so is instantiating a generic type (`instantiate_yields`).  What
that gives below other binders depends only on what the types that are put look like there (`enclose_openAt_congr`).
-/

namespace MuTypes

open Nameless NameSupply

theorem place_cons (y : Name) (ctx : List Name) (x : Name) :
    place (y :: ctx) x = if y = x then some 0 else (place ctx x).map (· + 1) := by
  by_cases hx : y = x <;> simp [place, List.findIdx?_cons, hx]

namespace Nameless

/-! ### More binders around -/

/-- The type with `k` more binders around, none of which its loose variables belong to. -/
def lift {α : Type} (k : Nat) (t : Nameless α) : Nameless α :=
  t.graft (fun d i => .bound (if i < d then i else i + k)) fun _ x => .free x

theorem lift_enclose {n : Nameless Name} (hn : n.ClosedAt 0) (ctx : List Name) (k : Nat) :
    (n.enclose ctx).lift k = n.graft (fun _ i => .bound i) fun d => leafBelow ctx (d + k) := by
  rw [enclose, lift, graft_graft]
  refine graft_congr (Leaves.mono hn (fun d i hi => ?_) fun d x _ => ?_)
  · rw [graft_bound, if_pos (by omega)]
  · rw [leafBelow, leafBelow]
    cases place ctx x with
    | none => rfl
    | some i => rw [graft_bound, if_neg (by omega), Nat.add_assoc]

/-! ### Opened binders -/

theorem enclose_openAt {vs : List (Nameless Name)} (hvs : ∀ v ∈ vs, v.ClosedAt 0) (ctx : List Name)
    (n : Nameless Name) :
    (n.openAt 0 vs).enclose ctx =
      n.graft (fun d i => if i < d then .bound i else ((vs.map (enclose ctx))[i - d]?.map (lift d)).getD (.bound i))
        (leafBelow ctx) := by
  rw [enclose, openAt, graft_graft]
  congr 1
  · funext d i
    unfold opened
    rw [Nat.add_zero]
    by_cases hi : i < d
    · rw [if_pos hi, if_pos hi, graft_bound]
    · rw [if_neg hi, if_neg hi, List.getElem?_map]
      cases h : vs[i - d]? with
      | none => rfl
      | some v => exact (lift_enclose (hvs v (List.mem_of_getElem? h)) ctx d).symm
  · funext d x
    rw [graft_free, Nat.zero_add]

/-- What opening gives below other binders depends only on what the types that are put look like there, and on where
the labels stand. -/
theorem enclose_openAt_congr {n : Nameless Name} {vs vs' : List (Nameless Name)} {ctx ctx' : List Name}
    (hvs : ∀ v ∈ vs, v.ClosedAt 0) (hvs' : ∀ v ∈ vs', v.ClosedAt 0)
    (h : vs.map (enclose ctx) = vs'.map (enclose ctx')) (hplace : ∀ x, n.Has x → place ctx x = place ctx' x) :
    (n.openAt 0 vs).enclose ctx = (n.openAt 0 vs').enclose ctx' := by
  rw [enclose_openAt hvs, enclose_openAt hvs', h]
  exact graft_congr ((leaves_of_has hplace).mono (fun _ _ _ => rfl) fun d x hx => leafBelow_congr hx d)

theorem put_openAt {x : Name} {v : Nameless Name} (hv : v.ClosedAt 0) (m : Nat) (vs : List (Nameless Name))
    (n : Nameless Name) : (n.openAt m vs).put x v = (n.put x v).openAt m (vs.map (put · x v)) := by
  simp only [put, openAt, graft_graft]
  congr 1
  · funext d i
    simp only [graft_bound, Nat.zero_add, opened]
    by_cases hi : i < d + m
    · rw [if_pos hi, if_pos hi, graft_bound]
    · rw [if_neg hi, if_neg hi, List.getElem?_map]
      cases vs[i - (d + m)]? <;> rfl
  · funext d y
    rw [graft_free]
    by_cases hy : y = x
    · rw [if_pos hy]
      refine (graft_eq_self (Leaves.mono hv (fun e i hi => ?_) fun _ _ _ => rfl)).symm
      rw [opened, if_pos (by omega)]
    · rw [if_neg hy, graft_free]

end Nameless

namespace Ty

/-! ### One binder more -/

theorem nameless_cons (y : Name) (ctx : List Name) (t : Ty) :
    t.nameless (y :: ctx) =
      (t.nameless ctx).graft
        (fun d i => if i < d then .bound i else if place ctx y = some (i - d) then .bound d else .bound (i + 1))
        (fun d x => if x = y then .bound d else .free x) := by
  rw [nameless_eq_enclose, nameless_eq_enclose, enclose, enclose, graft_graft]
  refine graft_congr (Leaves.mono (closedAt_nameless [] t) (fun d i hi => ?_) fun d x _ => ?_)
  · rw [graft_bound, if_pos (by simpa using hi)]
  · rw [leafBelow, leafBelow, place_cons]
    by_cases hx : x = y
    · subst hx
      cases hp : place ctx x with
      | none => simp
      | some i => simp [Nat.not_lt_of_le (Nat.le_add_left d i)]
    · cases hp : place ctx x with
      | none => simp [hx, Ne.symm hx]
      | some i =>
        have hy : place ctx y ≠ some i := fun hy =>
          hx (Option.some.inj ((place_eq_some hp).2.symm.trans (place_eq_some hy).2))
        simp [Ne.symm hx, hy, Nat.add_right_comm]

section Congr

variable {t t' : Ty} {ctx ctx' : List Name} {y : Name}

theorem nameless_cons_congr (h : t.nameless ctx = t'.nameless ctx') (hy : place ctx y = place ctx' y) :
    t.nameless (y :: ctx) = t'.nameless (y :: ctx') := by
  rw [nameless_cons, nameless_cons, h, hy]

theorem leaves_nameless_iff_not_mentions (ctx : List Name) (t : Ty) (y : Name) :
    (t.nameless ctx).Leaves (fun d i => i < d ∨ place ctx y ≠ some (i - d)) (fun _ x => x ≠ y) ↔
      ¬ t.mentions y = true := by
  -- below `d` more binders, a variable with the name is a leaf at its place, or it is free
  have hleaf : ∀ d x, (leafBelow ctx d x).Leaves (fun e i => i < e + d ∨ place ctx y ≠ some (i - (e + d)))
      (fun _ x => x ≠ y) ↔ x ≠ y := by
    intro d x
    rw [leafBelow]
    cases hp : place ctx x with
    | none => exact leaves_free ..
    | some i =>
      simp only [leaves_bound, Nat.zero_add, Nat.not_lt_of_le (Nat.le_add_left d i), Nat.add_sub_cancel, false_or]
      refine not_congr ⟨fun hy => ?_, fun hx => hx ▸ hp⟩
      exact Option.some.inj ((place_eq_some hp).2.symm.trans (place_eq_some hy).2)
  have hbare : t.bare.Leaves (fun _ _ => True) (fun _ x => x ≠ y) ↔ ¬ t.mentions y = true := by
    rw [leaves_nameless_iff]
    exact ⟨fun h hy => h y hy List.not_mem_nil rfl, fun h x hx _ e => h (e ▸ hx)⟩
  rw [← hbare, nameless_eq_enclose, enclose, leaves_graft]
  constructor
  · exact fun h => h.mono (fun _ _ _ => trivial) fun d x hx => (hleaf d x).1 hx
  · refine fun h => ((closedAt_nameless [] t).and h).mono (fun d i hi => ?_) fun d x hx => (hleaf d x).2 hx.2
    exact .inl (by simpa using hi.1)

theorem mentions_congr (h : t.nameless ctx = t'.nameless ctx') (hy : place ctx y = place ctx' y) :
    t.mentions y = true ↔ t'.mentions y = true := by
  rw [← not_iff_not, ← leaves_nameless_iff_not_mentions ctx, ← leaves_nameless_iff_not_mentions ctx', h, hy]

end Congr

/-! ### Substitution for distinct variables -/

theorem closedAt_bares (rs : List Ty) : ∀ v ∈ (rs.map bare).reverse, v.ClosedAt 0 := by
  intro v hv
  obtain ⟨r, -, rfl⟩ := List.mem_map.1 (List.mem_reverse.1 hv)
  exact closedAt_nameless [] r

theorem enclose_bares (rs : List Ty) (ctx : List Name) :
    (rs.map bare).reverse.map (enclose ctx) = (rs.map (·.nameless ctx)).reverse := by
  rw [List.map_reverse, List.map_map]
  exact congrArg List.reverse (List.map_congr_left fun r _ => (nameless_eq_enclose ctx r).symm)

section Substitution

variable {s : NameSupply}

/-- Putting a type for a variable is opening the binder that the variable would be outside all others. -/
private theorem Spells.nameless_put {x : Name} {r t t' : Ty} {ns : List Name}
    (ht' : t'.Spells (t.bare.put x r.bare) s) (hx : x ∉ ns) (hr : ∀ y ∈ ns, ¬ r.mentions y = true) :
    t'.nameless ns = (t.nameless (ns ++ [x])).openAt ns.length [r.bare] := by
  have hlabel : ¬ (t.nameless (ns ++ [x])).Has x := fun h => (has_nameless_iff.1 h).2 (by simp)
  rw [ht'.nameless, enclose_put hx fun y hy h => hr y hy (has_nameless_iff.1 h).1, ← nameless_eq_enclose,
    nameless_eq_openAt ns [x], put_openAt (closedAt_nameless [] r), put_of_not_has hlabel, List.map_singleton,
    List.map_singleton, put_free_self]

/-- No type mentions a later variable when none mentions any. -/
theorem mentionsLater_eq_false {xs : List Name} {rs : List Ty} (h : ∀ r ∈ rs, ∀ x ∈ xs, ¬ r.mentions x = true) :
    mentionsLater xs rs = false := by
  induction xs generalizing rs with
  | nil => rfl
  | cons x xs ih =>
    cases rs with
    | nil => rfl
    | cons r rs =>
      obtain ⟨hr, hrs⟩ := List.forall_mem_cons.1 h
      rw [mentionsLater, ih fun q hq y hy => hrs q hq y (List.mem_cons_of_mem x hy), Bool.or_false]
      exact List.any_eq_false.2 fun y hy => hr y (List.mem_cons_of_mem x hy)

/-- Putting types for distinct variables one after the other is opening the binders that the variables would be, the
last one innermost, as long as no type mentions a variable that comes after its own. -/
theorem substAll_yields {xs : List Name} {rs : List Ty} {t : Ty} (hl : xs.length = rs.length) (hd : xs.Nodup)
    (hxs : ∀ x ∈ xs, s.AheadOf x) (hlater : mentionsLater xs rs = false) (hrs : ∀ r ∈ rs, r.Spells r.bare s)
    (ht : t.Spells t.bare s) :
    s.Yields (substAll (xs.zip rs) t) fun t' s' =>
      t'.Spells ((t.nameless xs.reverse).openAt 0 (rs.map bare).reverse) s' := by
  induction xs generalizing rs t s with
  | nil =>
    cases rs with
    | nil =>
      have hself : t.bare.openAt 0 [] = t.bare := openAt_of_closedAt (closedAt_nameless [] t) []
      exact .pure (hself.symm ▸ ht)
    | cons r rs => cases hl
  | cons x xs ih =>
    cases rs with
    | nil => cases hl
    | cons r rs =>
      obtain ⟨hx, hxs⟩ := List.forall_mem_cons.1 hxs
      obtain ⟨hr, hrs⟩ := List.forall_mem_cons.1 hrs
      obtain ⟨hfr, hlater⟩ := Bool.or_eq_false_iff.1 hlater
      obtain ⟨hxn, hd⟩ := List.nodup_cons.1 hd
      rw [List.zip_cons_cons, substAll]
      refine (subst_yields hx hr ht).bind fun t₁ s₁ h₁ ht₁ => ?_
      -- the first variable would be the outermost binder, and what is put for it has none of the others
      have hopen : t₁.nameless xs.reverse = (t.nameless (xs.reverse ++ [x])).openAt xs.reverse.length [r.bare] :=
        ht₁.nameless_put (by simpa using hxn) fun y hy => List.any_eq_false.1 hfr y (List.mem_reverse.1 hy)
      have hclosed : ∀ v ∈ [r.bare], v.ClosedAt 0 := List.forall_mem_singleton.2 (closedAt_nameless [] r)
      have hboth : (t₁.nameless xs.reverse).openAt 0 (rs.map bare).reverse =
          (t.nameless (x :: xs).reverse).openAt 0 ((r :: rs).map bare).reverse := by
        have hlength : xs.reverse.length = 0 + (rs.map bare).reverse.length := by simpa using Nat.succ.inj hl
        rw [hopen, hlength, openAt_openAt hclosed, List.reverse_cons, List.map_cons, List.reverse_cons]
      rw [← hboth]
      exact ih (Nat.succ.inj hl) hd (fun y hy => (hxs y hy).mono h₁) hlater (fun q hq => (hrs q hq).mono h₁)
        ⟨rfl, ht₁.distinct, ht₁.ahead⟩

/-- Instantiating is opening the binders of the parameters, whether these have to be renamed first or not. -/
theorem instantiate_yields {ns : List Name} {args : List Ty} {t : Ty} (hl : ns.length = args.length) (hd : ns.Nodup)
    (hns : ∀ n ∈ ns, s.AheadOf n) (hargs : ∀ a ∈ args, a.Spells a.bare s) (ht : t.Spells t.bare s) :
    s.Yields (t.instantiate ns args) fun t' s' =>
      t'.Spells ((t.nameless ns.reverse).openAt 0 (args.map bare).reverse) s' := by
  unfold instantiate
  split
  · refine (rebindAll_yields hns ht.distinct ht.ahead hns hd).bind fun q s₁ h₁ hq => ?_
    obtain ⟨ms, u⟩ := q
    -- all parameters have new names, which no argument mentions
    have hnew : ∀ a ∈ args, ∀ m ∈ ms, ¬ a.mentions m = true := fun a ha m hm hmentions =>
      (hq.old_or_drawn m hm).elim (hq.not_captured m hm) fun h => h ((hargs a ha).ahead.of_mentions hmentions)
    have hscope : u.nameless ms.reverse = t.nameless ns.reverse := by simpa using hq.scope [] [] (by simp) (by simp)
    rw [← hscope]
    exact substAll_yields (hq.length.trans hl) hq.nodup hq.names_ahead (mentionsLater_eq_false hnew)
      (fun a ha => (hargs a ha).mono h₁) ⟨rfl, hq.distinct, hq.ahead⟩
  · exact substAll_yields hl hd hns (Bool.of_not_eq_true ‹_›) hargs ht

end Substitution

end Ty

end MuTypes
