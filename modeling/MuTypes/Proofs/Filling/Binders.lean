import MuTypes.Proofs.Hygiene.Plugging
import MuTypes.Proofs.Nameless.Filling

/-!
# Filled types below binders

A `Filling` says which types are put for the names that are in scope.  When a type is another one with its free names
filled, then the same holds below one binder more (`nameless_cons_fill`), below the binders of type parameters, whose
names may differ (`nameless_fill`), and for what opening a type with filled types gives (`enclose_openAt_fill`).
-/

namespace MuTypes

open Nameless

/-- What is put for the names `names`, in types whose names are among `names'`.  Other names stay. -/
structure Filling (σ : Name → Nameless Name) (names names' : List Name) : Prop where
  sound : ∀ x, (σ x).Sound
  defined : ∀ x, σ x ≠ .prim .undefined
  mem : ∀ x ∈ names, ∀ y, (σ x).Has y → y ∈ names'
  fixed : ∀ x, x ∉ names → σ x = .free x

namespace Filling

variable {σ : Name → Nameless Name} {names names' : List Name}

theorem closed (h : Filling σ names names') (x : Name) : (σ x).ClosedAt 0 :=
  (h.sound x).closed

/-- Putting every name for itself. -/
theorem free (names : List Name) : Filling .free names names where
  sound x := sound_free x
  defined _ := nofun
  mem _ hx _ hy := has_free.1 hy ▸ hx
  fixed _ _ := rfl

/-- One more name, for which another one is put. -/
theorem update (h : Filling σ names names') (x x' : Name) :
    Filling (Function.update σ x (.free x')) (x :: names) (x' :: names') := by
  have hupdate : ∀ y, Function.update σ x (.free x') y = if y = x then .free x' else σ y := fun y =>
    Function.update_apply ..
  refine ⟨fun y => ?_, fun y => ?_, fun y hy z hz => ?_, fun y hy => ?_⟩
  · rw [hupdate]
    split
    · exact sound_free x'
    · exact h.sound y
  · rw [hupdate]
    split
    · nofun
    · exact h.defined y
  · rw [hupdate] at hz
    split at hz
    · exact List.mem_cons.2 (.inl (has_free.1 hz).symm)
    · exact List.mem_cons_of_mem x' (h.mem y ((List.mem_cons.1 hy).resolve_left ‹_›) z hz)
  · obtain ⟨hyx, hy⟩ := not_or.1 (mt List.mem_cons.2 hy)
    rw [hupdate, if_neg hyx]
    exact h.fixed y hy

/-- A name that is not in scope stays, and is not in what is put for others. -/
theorem not_has (h : Filling σ names names') {y : Name} (hy : y ∉ names') {x : Name} (hx : x ≠ y) : ¬ (σ x).Has y := by
  intro hhas
  by_cases hmem : x ∈ names
  · exact hy (h.mem x hmem y hhas)
  · rw [h.fixed x hmem] at hhas
    exact hx (has_free.1 hhas)

end Filling

namespace Nameless

variable {σ : Name → Nameless Name} {names names' : List Name} (hσ : Filling σ names names')
include hσ

/-- A name that is not in scope is in the filled type when it is in the type. -/
theorem has_fill_iff {y : Name} (hy : y ∉ names) (hy' : y ∉ names') {n : Nameless Name} :
    (n.fill σ).Has y ↔ n.Has y := by
  constructor
  · intro h
    obtain ⟨x, hx, hxy⟩ := has_fill h
    by_cases e : x = y
    · exact e ▸ hx
    · exact absurd hxy (hσ.not_has hy' e)
  · intro h hn
    refine h (((leaves_graft ..).1 hn).mono (fun _ _ _ => trivial) fun _ x hx e => ?_)
    rw [e, hσ.fixed y hy] at hx
    exact hx rfl

theorem guarded_fill {d : Nat} {n : Nameless Name} (h : n.Guarded d) : (n.fill σ).Guarded d :=
  guarded_graft (fun _ _ => .inl rfl) (fun _ x => (hσ.sound x).wellFormed.rigid (hσ.closed x)) h

theorem lift_fill (k : Nat) (n : Nameless Name) : (n.fill σ).lift k = (n.lift k).fill σ := by
  simp only [fill, lift, graft_graft, graft_bound, graft_free]
  refine graft_congr (leaves_of_forall (fun d i => ?_) (fun d x => ?_) n)
  · rw [Nat.zero_add]
  refine graft_eq_self (Leaves.mono (hσ.closed x) (fun e i hi => ?_) fun _ _ _ => rfl)
  rw [if_pos (by omega)]

/-- What opening with filled types gives is filled too, when no label of the body is filled or bound. -/
theorem enclose_openAt_fill {n : Nameless Name} {vs vs' : List (Nameless Name)} {ctx : List Name}
    (hvs : ∀ v ∈ vs, v.ClosedAt 0) (hvs' : ∀ v ∈ vs', v.ClosedAt 0)
    (h : vs'.map (enclose ctx) = (vs.map (enclose ctx)).map (fill σ))
    (hn : ∀ x, n.Has x → x ∉ ctx ∧ x ∉ names) :
    (n.openAt 0 vs').enclose ctx = ((n.openAt 0 vs).enclose ctx).fill σ := by
  have hget : ∀ i, (vs'.map (enclose ctx))[i]? = (vs.map (enclose ctx))[i]?.map (fill σ) := fun i => by
    rw [h, List.getElem?_map]
  rw [enclose_openAt hvs, enclose_openAt hvs', fill, graft_graft]
  refine graft_congr ((leaves_of_has hn).mono (fun d i _ => ?_) fun d x hx => ?_)
  · by_cases hi : i < d
    · rw [if_pos hi, if_pos hi, graft_bound]
    · rw [if_neg hi, if_neg hi, hget]
      cases (vs.map (enclose ctx))[i - d]? with
      | none => rfl
      | some v => exact lift_fill hσ d v
  · rw [leafBelow_of_not_mem hx.1, graft_free, hσ.fixed x hx.2]

end Nameless

namespace Ty

section Filling

variable {σ : Name → Nameless Name} {names names' : List Name} (hσ : Filling σ names names')
include hσ

/-- Below a binder for a name that is not in scope, the filled type is filled as before. -/
theorem nameless_cons_fill {t t' : Ty} {ctx : List Name} {y : Name} (h : t'.nameless ctx = (t.nameless ctx).fill σ)
    (hctx : y ∉ ctx) (hy : y ∉ names) (hy' : y ∉ names') :
    t'.nameless (y :: ctx) = (t.nameless (y :: ctx)).fill σ := by
  rw [nameless_cons, nameless_cons, h, fill, fill, graft_graft, graft_graft, place_eq_none_iff.2 hctx]
  refine graft_congr (leaves_of_forall (fun d i => ?_) (fun d x => ?_) _)
  · by_cases hi : i < d
    · simp [hi]
    · simp [hi]
  · by_cases hx : x = y
    · simp [hx, hσ.fixed y hy]
    · rw [if_neg hx, graft_free]
      -- what is put has no loose variables, nor the name of the binder
      have hlabels : (σ x).Leaves (fun _ _ => True) fun _ z => z ≠ y :=
        leaves_of_has fun z hz e => hσ.not_has hy' hx (e ▸ hz)
      refine graft_eq_self (((hσ.closed x).and hlabels).mono (fun e i hi => ?_) fun e z hz => if_neg hz.2)
      have hlt : i < e + 0 := hi.1
      rw [if_pos (by omega)]

end Filling

/-- A name for which one of the binders is put has its place, and others have none. -/
private theorem place_of_forall₂ {τ : Name → Nameless Name} {ctx ctx' : List Name}
    (h : List.Forall₂ (fun x x' => τ x = .free x') ctx ctx') (hd : ctx'.Nodup) {x : Name} (hx : x ∈ ctx) :
    ∃ x', τ x = .free x' ∧ place ctx' x' = place ctx x := by
  induction h with
  | nil => cases hx
  | @cons y y' ctx ctx' hy hrest ih =>
    obtain ⟨hy', hd⟩ := List.nodup_cons.1 hd
    by_cases e : y = x
    · exact ⟨y', e ▸ hy, by rw [place_cons, place_cons, if_pos rfl, if_pos e]⟩
    · obtain ⟨x', hx', hplace⟩ := ih hd ((List.mem_cons.1 hx).resolve_left (Ne.symm e))
      have hne : y' ≠ x' := by
        rintro rfl
        have hnone := place_eq_none_iff.2 hy'
        rw [hplace] at hnone
        exact place_eq_none_iff.1 hnone ((List.mem_cons.1 hx).resolve_left (Ne.symm e))
      exact ⟨x', hx', by rw [place_cons, place_cons, if_neg hne, if_neg e, hplace]⟩

/-- Below binders for which those of the other type are put, the types are filled as outside. -/
theorem nameless_fill {σ τ : Name → Nameless Name} {t t' : Ty} {ctx ctx' : List Name}
    (hbare : t'.bare = t.bare.fill τ) (hctx : List.Forall₂ (fun x x' => τ x = .free x') ctx ctx') (hd : ctx'.Nodup)
    (hτ : ∀ x, t.mentions x = true → x ∉ ctx → τ x = σ x ∧ (σ x).ClosedAt 0 ∧ ∀ y ∈ ctx', ¬ (σ x).Has y) :
    t'.nameless ctx' = (t.nameless ctx).fill σ := by
  have hlabels : ∀ x, t.bare.Has x → x ∉ ctx → τ x = σ x ∧ (σ x).ClosedAt 0 ∧ ∀ y ∈ ctx', ¬ (σ x).Has y :=
    fun x hx => hτ x (has_nameless_iff.1 hx).1
  rw [nameless_eq_enclose, hbare, nameless_eq_enclose, enclose, enclose, fill, fill, graft_graft, graft_graft]
  refine graft_congr ((leaves_of_has hlabels).mono (fun _ _ _ => rfl) fun d x hx => ?_)
  by_cases hmem : x ∈ ctx
  · obtain ⟨x', hx', hplace⟩ := place_of_forall₂ hctx hd hmem
    rw [hx', graft_free, Nat.zero_add, leafBelow, leafBelow, hplace]
    cases hp : place ctx x with
    | none => exact absurd hmem (place_eq_none_iff.1 hp)
    | some i => rw [graft_bound]
  · obtain ⟨heq, hclosed, hnot⟩ := hx hmem
    rw [leafBelow_of_not_mem hmem, graft_free, heq]
    have hlabels : (σ x).Leaves (fun _ _ => True) fun _ y => y ∉ ctx' := leaves_of_has fun y hy hy' => hnot y hy' hy
    exact graft_eq_self (hlabels.mono (fun _ _ _ => rfl) fun e y hy => leafBelow_of_not_mem hy _)

end Ty

end MuTypes
