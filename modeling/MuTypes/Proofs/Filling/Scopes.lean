import MuTypes.Proofs.Filling.Resolution
import MuTypes.Proofs.Typing

/-!
# Type parameters of filled expressions

Below type parameters, the scopes of an expression and of the filled one still correspond (`Scope.Filled.enterParams`).
The meanings of the parameters may differ, as a name can be taken in one of the scopes only.  They are new ones in each
(`meaningsFor_fresh`), so that the type of the body, with the parameters around it, is filled as everything outside.
-/

namespace MuTypes

open NameSupply

namespace Scope

/-- Meanings of parameters that are new in the scope: their own names or drawn ones. -/
structure Fresh (scope : Scope) (params vars : List Name) (s : NameSupply) : Prop where
  own : List.Forall₂ (fun p x => x = p ∨ '@' ∈ x.toList) params vars
  nodup : vars.Nodup
  new : ∀ x ∈ vars, x ∉ scope.meanings
  ahead : ∀ x ∈ vars, s.AheadOf x

variable {scope scope' : Scope} {s s' t : NameSupply} {params vars vars' : List Name}

theorem Fresh.length_eq (h : scope.Fresh params vars s) : vars.length = params.length :=
  h.own.length_eq.symm

theorem Fresh.head {p x : Name} (h : scope.Fresh (p :: params) (x :: vars) s) : scope.Fresh [p] [x] s where
  own := .cons (List.forall₂_cons.1 h.own).1 .nil
  nodup := List.nodup_singleton x
  new := List.forall_mem_singleton.2 (h.new x List.mem_cons_self)
  ahead := List.forall_mem_singleton.2 (h.ahead x List.mem_cons_self)

theorem Fresh.tail {p x : Name} (h : scope.Fresh (p :: params) (x :: vars) s) (byMu : Bool) :
    Fresh (⟨p, x, byMu⟩ :: scope) params vars s := by
  obtain ⟨hown, hnodup, hnew, hahead⟩ := h
  obtain ⟨hx, hnodup⟩ := List.nodup_cons.1 hnodup
  refine ⟨(List.forall₂_cons.1 hown).2, hnodup, fun y hy hm => ?_, fun y hy => hahead y (.tail x hy)⟩
  rcases List.mem_cons.1 hm with rfl | hm
  · exact hx hy
  · exact hnew y (.tail x hy) hm

theorem meaningsFor_fresh (hscope : ∀ n ∈ scope.meanings, s.AheadOf n) (hd : params.Nodup)
    (hp : ∀ n ∈ params, s.AheadOf n) :
    s.Yields (scope.meaningsFor params) fun vars t => scope.Fresh params vars t := by
  have hnew : ∀ {params : List Name} {s : NameSupply}, (∀ n ∈ scope.meanings, s.AheadOf n) →
      s.Yields (scope.meaningsFor params) fun vars _ =>
        List.Forall₂ (fun p x => x = p ∨ '@' ∈ x.toList) params vars ∧ ∀ x ∈ vars, x ∉ scope.meanings := by
    intro params
    induction params with
    | nil => exact fun _ => .pure ⟨.nil, by simp⟩
    | cons n params ih =>
      intro s hscope
      rw [meaningsFor, List.mapM_cons, ← meaningsFor]
      -- a name that is taken is replaced by a drawn one, which the scope does not have
      have hfirst : s.Yields (if scope.any fun v => v.name = n || v.meaning = n then draw n else return n)
          fun x _ => (x = n ∨ '@' ∈ x.toList) ∧ x ∉ scope.meanings := by
        split
        · refine .draw ⟨.inr ?_, fun hm => (hscope _ hm).ne_drawn n rfl⟩
          rw [toList_numbered]
          simp
        · rename_i hfree
          refine .pure ⟨.inl rfl, fun hm => hfree ?_⟩
          obtain ⟨v, hv, rfl⟩ := List.mem_map.1 hm
          exact List.any_eq_true.2 ⟨v, hv, by simp⟩
      refine hfirst.bind fun x t hst hx => (ih fun m hm => (hscope m hm).mono hst).bind fun vars u _ hvars => .pure ?_
      exact ⟨.cons hx.1 hvars.1, List.forall_mem_cons.2 ⟨hx.2, hvars.2⟩⟩
  obtain ⟨hle, hl, hnodup, hahead⟩ := meaningsFor_yields scope hd hp
  exact ⟨hle, (hnew hscope).2.1, hnodup, (hnew hscope).2.2, hahead⟩

variable {aliases : Aliases} {φ : Fillers} {σ : Name → Nameless Name}

theorem Filled.enter (h : Filled aliases φ σ scope scope' s s') {p x x' : Name} (hp : φ.Admits p)
    (hx : scope.Fresh [p] [x] s) (hx' : scope'.Fresh [p] [x'] s') :
    Filled aliases (φ.hide [p]) (Function.update σ x (.free x')) (⟨p, x, false⟩ :: scope) (⟨p, x', false⟩ :: scope')
      s s' := by
  have hparams : ∀ {scope : Scope} {s x}, scope.OfParams s → scope.Fresh [p] [x] s →
      OfParams (⟨p, x, false⟩ :: scope) s :=
    fun h hx => ⟨List.forall_mem_cons.2 ⟨(List.forall₂_cons.1 hx.own).1, h.own⟩, List.forall_mem_cons.2 ⟨rfl, h.byMu⟩,
      List.forall_mem_cons.2 ⟨hx.ahead _ List.mem_cons_self, h.ahead⟩⟩
  have hother : ∀ {y v}, scope.find? y = some v → Function.update σ x (.free x') v.meaning = σ v.meaning := by
    intro y v hv
    refine Function.update_of_ne (fun e => hx.new x List.mem_cons_self ?_) _ _
    exact List.mem_map.2 ⟨v, List.mem_of_find?_eq_some hv, e⟩
  have hfind : ∀ {scope : Scope} {x y : Name}, y ≠ p → Scope.find? (⟨p, x, false⟩ :: scope) y = scope.find? y :=
    fun hy => List.find?_cons_of_neg (by simpa using Ne.symm hy)
  have hself : ∀ {scope : Scope} {x : Name}, Scope.find? (⟨p, x, false⟩ :: scope) p = some ⟨p, x, false⟩ :=
    List.find?_cons_of_pos (by simp)
  refine ⟨h.filling.update x x', hparams h.params hx, hparams h.params' hx', fun y v hy hv => ?_, fun y hy => ?_,
    fun y a hy => ?_⟩
  · by_cases hyp : y = p
    · rw [hyp] at hv ⊢
      obtain rfl := Option.some.inj (hself.symm.trans hv)
      exact ⟨_, hself, Function.update_self ..⟩
    · rw [hfind hyp] at hv ⊢
      rw [hother hv]
      exact h.visible y v (by simpa [Fillers.hide, hyp] using hy) hv
  · by_cases hyp : y = p
    · rw [hyp, hself] at hy
      cases hy
    · rw [hfind hyp] at hy ⊢
      exact h.hidden y hy
  · obtain ⟨hyp, ha⟩ := Fillers.hide_eq_some hy
    obtain ⟨hu, hnames, v, hv, hmeans⟩ := h.put y a ha
    refine ⟨hu, fun n hn hm => ?_, v, ?_, hother hv ▸ hmeans⟩
    · exact (List.mem_cons.1 hm).elim (fun e : n = p => hp.apart y a ha (e ▸ hn)) (hnames n hn)
    · rw [hfind (mt List.mem_singleton.2 hyp)]
      exact hv

/-- Type parameters are entered on both sides, and a parameter is put for a parameter. -/
theorem Filled.enterParams (h : Filled aliases φ σ scope scope' s s') (hp : ∀ p ∈ params, φ.Admits p)
    (hx : scope.Fresh params vars s) (hx' : scope'.Fresh params vars' s') :
    ∃ τ, Filled aliases (φ.hide params) τ (scope.enterParams params vars) (scope'.enterParams params vars') s s' ∧
      (∀ x ∈ scope.meanings, τ x = σ x) ∧ List.Forall₂ (fun x x' => τ x = .free x') vars vars' := by
  induction params generalizing φ σ scope scope' vars vars' with
  | nil =>
    cases hx.own
    cases hx'.own
    exact ⟨σ, (φ.hide_nil).symm ▸ h, fun _ _ => rfl, .nil⟩
  | cons p params ih =>
    obtain ⟨hpp, hp⟩ := List.forall_mem_cons.1 hp
    cases vars with
    | nil => cases hx.own
    | cons x vars =>
      cases vars' with
      | nil => cases hx'.own
      | cons x' vars' =>
        obtain ⟨τ, hτ, hold, hnew⟩ := ih (h.enter hpp hx.head hx'.head) (fun q hq => (hp q hq).hide [p]) (hx.tail false)
          (hx'.tail false)
        have hhide : (φ.hide [p]).hide params = φ.hide (p :: params) :=
          (φ.hide_hide [p] params).trans (φ.hide_congr fun y => by simp [or_comm])
        rw [hhide] at hτ
        have hxx := hold x List.mem_cons_self
        rw [enterParams_cons, enterParams_cons]
        refine ⟨τ, hτ, fun y hy => ?_, .cons (hxx.trans (Function.update_self ..)) hnew⟩
        refine (hold y (.tail x hy)).trans (Function.update_of_ne ?_ _ _)
        rintro rfl
        exact hx.new y List.mem_cons_self hy

end Scope

end MuTypes
