import Mathlib.Logic.Relation
import MuTypes.Proofs.Entries.Meaning
import MuTypes.Proofs.Nameless.Filling

/-!
# Presentations of a place

A place in the bodies of aliases stands for one infinite type, but it has many meanings: which variables are left in
the meaning, and which recursive types are written out, depends on the aliases that happen to be active.  A
presentation of a place is any of these meanings with its variables closed again, by the recursive types that the
enclosing binders and the active aliases stand for (`Closes`).

From a recursive binder or an alias a place leads to its body (`Place.next?`).  Presentations follow: the next place
is presented by the type unrolled once, or by the same type with one more alias active (`PresentsIn.step`).  So the
presentations of a place, unrolled to their heads, all present the same other place (`PresentsIn.heads`).
-/

namespace MuTypes

open Nameless

/-! ### Places -/

/-- A place in the body of an alias: the recursive binders that enclose it there, and what stands at it. -/
structure Place where
  path : MuPath
  expr : TyExpr

/-- The body of the innermost binder of a name. -/
def MuPath.body? (n : Name) : MuPath → Option Place
  | [] => none
  | (m, b) :: path => if m = n then some ⟨(m, b) :: path, b⟩ else body? n path

/-- The body of what a name refers to below the binders. -/
def MuPath.target? (aliases : Aliases) (path : MuPath) (n : Name) : Option Place :=
  match aliases.find? n with
  | some a => some ⟨[], a.body⟩
  | none => path.body? n

/-- The place that a place at a recursive binder or at a name stands for. -/
def Place.next? (aliases : Aliases) (p : Place) : Option Place :=
  match p.expr.form with
  | .mu n b => some ⟨(n, b) :: p.path, b⟩
  | .ref n => p.path.target? aliases n
  | _ => none

section Targets

variable {aliases : Aliases} {path : MuPath} {n : Name}

theorem MuPath.target?_of_alias {a : Alias} (ha : aliases.find? n = some a) (path : MuPath) :
    path.target? aliases n = some ⟨[], a.body⟩ := by
  rw [target?, ha]

theorem MuPath.target?_cons_self {b : TyExpr} (hn : aliases.find? n = none) :
    MuPath.target? aliases ((n, b) :: path) n = some ⟨(n, b) :: path, b⟩ := by
  rw [target?, hn]
  exact if_pos rfl

theorem MuPath.target?_cons_of_ne {m : Name} {b : TyExpr} (h : m ≠ n) :
    MuPath.target? aliases ((m, b) :: path) n = MuPath.target? aliases path n := by
  rw [target?, target?]
  cases aliases.find? n with
  | some a => rfl
  | none => exact if_neg h

end Targets

/-- Going on from the first place one comes to the second. -/
def Place.Reaches (aliases : Aliases) : Place → Place → Prop :=
  Relation.ReflTransGen fun p q => p.next? aliases = some q

/-- The place reached from a place when no binder and no name is left at it. -/
inductive Place.Heads (aliases : Aliases) : Place → Place → Prop where
  | stop {p : Place} (h : p.next? aliases = none) : Heads aliases p p
  | step {p q r : Place} (h : p.next? aliases = some q) (hq : Heads aliases q r) : Heads aliases p r

namespace Place.Heads

variable {aliases : Aliases} {p q r r' : Place}

theorem unique (h : Heads aliases p r) (h' : Heads aliases p r') : r = r' := by
  induction h with
  | stop hn =>
    cases h' with
    | stop _ => rfl
    | step hq _ =>
      rw [hn] at hq
      cases hq
  | step hq _ ih =>
    cases h' with
    | stop hn =>
      rw [hn] at hq
      cases hq
    | step hq' h' =>
      rw [hq] at hq'
      cases hq'
      exact ih h'

theorem next?_eq_none (h : Heads aliases p r) : r.next? aliases = none := by
  induction h with
  | stop hn => exact hn
  | step _ _ ih => exact ih

/-- Going from place to place one does not come back to a place from which a head is reached. -/
theorem not_loop (h : Heads aliases p r) (hpq : p.Reaches aliases q) :
    q.next? aliases ≠ some p := by
  induction h generalizing q with
  | stop hn =>
    -- nothing comes after a head, so the way has ended there already
    intro hback
    rcases hpq.cases_head with rfl | ⟨c, hc, -⟩
    · rw [hn] at hback
      cases hback
    · rw [hn] at hc
      cases hc
  | @step p p' r hp' _ ih =>
    -- a loop at a place is also one at the place that comes next
    intro hback
    have hloop : p'.Reaches aliases p := by
      rcases hpq.cases_head with rfl | ⟨c, hc, hcq⟩
      · rw [hp'] at hback
        cases hback
        exact .refl
      · rw [hp'] at hc
        cases hc
        exact hcq.tail hback
    exact ih hloop hp'

end Place.Heads

/-! ### Contractive types -/

namespace Ty

variable {t : Ty} {n : Name}

theorem mentions_of_muBody (h : t.muBody = .var n) (hn : n ∉ t.muNames) : t.mentions n = true := by
  induction t with
  | mu m b ih =>
    obtain ⟨hne, hb⟩ := not_or.1 (mt List.mem_cons.2 hn)
    exact (mentions_mu ..).2 ⟨Ne.symm hne, ih h hb⟩
  | var x => exact (mentions_var ..).2 (Ty.var.inj h)
  | _ => cases h

/-- What stands below the leading recursive binders of a well-formed type is none of their variables. -/
theorem WellFormed.not_mem_muNames (ht : t.WellFormed) (h : t.muBody = .var n) : n ∉ t.muNames := by
  cases ht with
  | mu hc _ =>
    rw [isContractive, h] at hc
    exact of_decide_eq_true hc
  | _ => exact List.not_mem_nil

/-- A recursive type with a well-formed body is contractive unless below the leading binders stands its variable. -/
theorem WellFormed.isContractive_mu_iff (ht : t.WellFormed) :
    (Ty.mu n t).isContractive = true ↔ t.muBody ≠ .var n := by
  rw [isContractive, muBody]
  split
  · rename_i x hx
    have hnot := ht.not_mem_muNames hx
    simp only [muNames, List.mem_cons, decide_eq_true_eq, hx, ne_eq, Ty.var.injEq, not_or]
    exact ⟨fun h => h.1, fun h => ⟨h, hnot⟩⟩
  · rename_i hx
    exact iff_of_true rfl (hx n)

theorem WellFormed.isContractive_of_not_mentions (ht : t.WellFormed) (h : t.mentions n = false) :
    (Ty.mu n t).isContractive = true := by
  refine ht.isContractive_mu_iff.2 fun hbody => ?_
  rw [mentions_of_muBody hbody (ht.not_mem_muNames hbody)] at h
  cases h

end Ty

/-! ### Closing -/

/-- Sound, and without labels. -/
structure Nameless.Closed {α : Type} (t : Nameless α) : Prop extends t.Sound where
  not_has : ∀ x, ¬ t.Has x

theorem Nameless.closed_update {α β : Type} [DecidableEq α] {ρ : α → Nameless β} {v : Nameless β}
    (hρ : ∀ x, (ρ x).Closed) (hv : v.Closed) (n x : α) : (Function.update ρ n v x).Closed := by
  by_cases hx : x = n
  · rw [hx, Function.update_self]
    exact hv
  · rw [Function.update_of_ne hx]
    exact hρ x

theorem Ty.WellFormed.closed_fill {β : Type} {ρ : Name → Nameless β} {t : Ty} (h : t.WellFormed)
    (hρ : ∀ x, (ρ x).Closed) : (t.bare.fill ρ).Closed := by
  refine ⟨h.sound.fill fun x => (hρ x).toSound, fun y hy => ?_⟩
  obtain ⟨x, -, hx⟩ := has_fill hy
  exact (hρ x).not_has y hx

theorem Nameless.fill_put {α β : Type} [DecidableEq α] (t v : Nameless α) (x : α) (σ : α → Nameless β) :
    (t.put x v).fill σ = t.fill (Function.update σ x (v.fill σ)) := by
  simp only [put, fill, graft_graft, graft_bound]
  congr 1
  funext _ y
  by_cases hy : y = x
  · rw [if_pos hy, hy, Function.update_self]
  · rw [if_neg hy, Function.update_of_ne hy]
    rfl

/-- A recursive type with its variables closed unrolls to its body, with itself for its own variable. -/
theorem Ty.unrollOnce_fill_mu {β : Type} {ρ : Name → Nameless β} (hρ : ∀ x, (ρ x).Closed) (n : Name) (t : Ty) :
    ((Ty.mu n t).bare.fill ρ).unrollOnce = t.bare.fill (Function.update ρ n ((Ty.mu n t).bare.fill ρ)) := by
  have hopen : (Ty.mu n t).bare.unrollOnce = t.bare.put n (Ty.mu n t).bare := by
    show (t.nameless [n]).openAt 0 [(Ty.mu n t).bare] = _
    rw [nameless_eq_enclose, openAt_enclose (closedAt_nameless [] t)]
  rw [unrollOnce_fill (fun x => (hρ x).toSound) rfl, hopen, fill_put]

/-- Closed types for the names that occur in the meanings of places: for each recursive binder around, and for each
active alias, the recursive type that it stands for. -/
inductive Closes (aliases : Aliases) : List Name → MuPath → (Name → Nameless Nat) → Prop where
  | outside : Closes aliases [] [] fun _ => .prim .undefined
  | mu {active : List Name} {path : MuPath} {ρ : Name → Nameless Nat} {n : Name} {b : TyExpr} {u : Ty}
    (h : Closes aliases active path ρ) (halias : aliases.find? n = none)
    (hu : Means aliases active ((n, b) :: path) b u) (hc : (Ty.mu n u).isContractive = true) :
    Closes aliases active ((n, b) :: path) (Function.update ρ n ((Ty.mu n u).bare.fill ρ))
  | expanded {active : List Name} {path : MuPath} {ρ : Name → Nameless Nat} {n : Name} {a : Alias} {u : Ty}
    (h : Closes aliases active path ρ) (ha : aliases.find? n = some a) (hu : Means aliases (n :: active) [] a.body u)
    (hc : (Ty.mu n u).isContractive = true) :
    Closes aliases (n :: active) [] (Function.update ρ n ((Ty.mu n u).bare.fill ρ))

/-- The type presents the place, among the active aliases. -/
def PresentsIn (aliases : Aliases) (active : List Name) (p : Place) (τ : Nameless Nat) : Prop :=
  ∃ ρ t, Closes aliases active p.path ρ ∧ Means aliases active p.path p.expr t ∧ τ = t.bare.fill ρ

/-- The type presents the place. -/
def Presents (aliases : Aliases) (p : Place) (τ : Nameless Nat) : Prop :=
  ∃ active, PresentsIn aliases active p τ

section Presentations

variable {aliases : Aliases} {active : List Name} {path : MuPath} {ρ : Name → Nameless Nat} {p q : Place}
  {τ : Nameless Nat}

theorem Closes.closed (h : Closes aliases active path ρ) : ∀ x, (ρ x).Closed := by
  induction h with
  | outside => exact fun _ => ⟨⟨trivial, .prim _⟩, fun _ => has_prim _⟩
  | mu _ _ hu hc ih => exact closed_update ih ((Ty.WellFormed.mu hc hu.regular.wellFormed).closed_fill ih) _
  | expanded _ _ hu hc ih => exact closed_update ih ((Ty.WellFormed.mu hc hu.regular.wellFormed).closed_fill ih) _

theorem PresentsIn.closed (h : PresentsIn aliases active p τ) : τ.Closed := by
  obtain ⟨ρ, t, hρ, ht, rfl⟩ := h
  exact ht.regular.wellFormed.closed_fill hρ.closed

/-- Active aliases are aliases. -/
theorem Closes.find?_active (h : Closes aliases active path ρ) {x : Name} (hx : x ∈ active) :
    ∃ a, aliases.find? x = some a := by
  induction h with
  | outside => cases hx
  | mu _ _ _ _ ih => exact ih hx
  | expanded _ ha _ _ ih =>
    rcases List.mem_cons.1 hx with rfl | hx
    · exact ⟨_, ha⟩
    · exact ih hx

/-- The closed type of a name is recursive, and unrolled once it presents the body of what the name refers to. -/
theorem Closes.lookup (h : Closes aliases active path ρ) {x : Name} (hx : x ∈ path.names ∨ x ∈ active) :
    ∃ q, path.target? aliases x = some q ∧ (ρ x).isMu = true ∧ Presents aliases q (ρ x).unrollOnce := by
  induction h with
  | outside => simp [MuPath.names] at hx
  | @mu active path ρ n b u h halias hu hc ih =>
    by_cases hn : n = x
    · subst hn
      rw [Function.update_self]
      refine ⟨_, MuPath.target?_cons_self halias, rfl, active, _, u, .mu h halias hu hc, hu, ?_⟩
      exact Ty.unrollOnce_fill_mu h.closed n u
    · have hx' : x ∈ path.names ∨ x ∈ active :=
        hx.imp_left fun hmem => (List.mem_cons.1 hmem).resolve_left (Ne.symm hn)
      rw [Function.update_of_ne (Ne.symm hn), MuPath.target?_cons_of_ne hn]
      exact ih hx'
  | @expanded active path ρ n a u h ha hu hc ih =>
    by_cases hn : n = x
    · subst hn
      rw [Function.update_self]
      refine ⟨_, MuPath.target?_of_alias ha [], rfl, _, _, u, .expanded h ha hu hc, hu, ?_⟩
      exact Ty.unrollOnce_fill_mu h.closed n u
    · have hactive : x ∈ active := by
        rcases hx with hx | hx
        · cases hx
        · exact (List.mem_cons.1 hx).resolve_left (Ne.symm hn)
      obtain ⟨a', ha'⟩ := h.find?_active hactive
      obtain ⟨q, hq, hrest⟩ := ih (.inr hactive)
      rw [MuPath.target?_of_alias ha'] at hq
      rw [Function.update_of_ne (Ne.symm hn), MuPath.target?_of_alias ha']
      exact ⟨q, hq, hrest⟩

/-! ### Steps -/

/-- From a presentation at a binder or a name the next place is presented too: by the type unrolled once, or by the same
type with one more alias active. -/
theorem PresentsIn.step (h : PresentsIn aliases active p τ) (hq : p.next? aliases = some q) :
    τ.isMu = true ∧ Presents aliases q τ.unrollOnce ∨
      ∃ n a, aliases.find? n = some a ∧ n ∉ active ∧ PresentsIn aliases (n :: active) q τ := by
  obtain ⟨path, span, form⟩ := p
  obtain ⟨ρ, t, hρ, ht, rfl⟩ := h
  dsimp only at hρ ht
  cases ht with
  | prim | container | func | object | union => cases hq
  | mu hn halias hb hc =>
    cases hq
    exact .inl ⟨rfl, active, _, _, .mu hρ halias hb hc, hb, Ty.unrollOnce_fill_mu hρ.closed _ _⟩
  | enclosed hn halias =>
    obtain ⟨q', hq', hmu, hpresents⟩ := hρ.lookup (.inl hn)
    obtain rfl : q' = q := Option.some.inj (hq'.symm.trans hq)
    rw [Ty.bare_var, fill_free]
    exact .inl ⟨hmu, hpresents⟩
  | active hn ha hparams hactive =>
    obtain ⟨q', hq', hmu, hpresents⟩ := hρ.lookup (.inr hactive)
    obtain rfl : q' = q := Option.some.inj (hq'.symm.trans hq)
    rw [Ty.bare_var, fill_free]
    exact .inl ⟨hmu, hpresents⟩
  | @unfolded _ _ _ n a t hn ha hparams hactive hb ht =>
    obtain rfl : ⟨[], a.body⟩ = q := Option.some.inj ((MuPath.target?_of_alias ha path).symm.trans hq)
    have hc := hb.regular.wellFormed.isContractive_of_not_mentions ht
    refine .inr ⟨n, a, ha, hactive, _, t, .expanded hρ ha hb hc, hb, fill_congr fun x hx => ?_⟩
    -- the type does not mention the alias, so that need not be closed
    have hne : x ≠ n := by
      rintro rfl
      rw [Ty.has_nameless_iff, ht] at hx
      cases hx.1
    rw [Function.update_of_ne hne]
  | @recursive _ _ _ n a t hn ha hparams hactive hb ht hc =>
    obtain rfl : ⟨[], a.body⟩ = q := Option.some.inj ((MuPath.target?_of_alias ha path).symm.trans hq)
    exact .inl ⟨rfl, _, _, _, .expanded hρ ha hb hc, hb, Ty.unrollOnce_fill_mu hρ.closed _ _⟩

/-- Where no place comes next, a presentation is not headed by a recursive binder. -/
theorem PresentsIn.isMu_eq_false (h : PresentsIn aliases active p τ) (hp : p.next? aliases = none) :
    τ.isMu = false := by
  obtain ⟨path, span, form⟩ := p
  obtain ⟨ρ, t, hρ, ht, rfl⟩ := h
  dsimp only at hρ ht
  cases ht with
  | prim | container => rfl
  | func =>
    rw [Ty.bare_func, fill_func]
    rfl
  | object =>
    rw [Ty.bare_object, fill_object]
    rfl
  | union =>
    rw [Ty.bare_union, fill_union]
    rfl
  | mu => cases hp
  | enclosed hn halias =>
    obtain ⟨q', hq', -⟩ := hρ.lookup (.inl hn)
    cases hq'.symm.trans hp
  | active hn ha | unfolded hn ha | recursive hn ha => cases (MuPath.target?_of_alias ha path).symm.trans hp

end Presentations

/-- Unrolled to its head, a presentation of a place presents the place where that leads. -/
theorem PresentsIn.heads {aliases : Aliases} {active : List Name} {p : Place} {τ : Nameless Nat}
    (h : PresentsIn aliases active p τ) :
    ∃ r, p.Heads aliases r ∧ Presents aliases r τ.unroll := by
  cases hq : p.next? aliases with
  | none =>
    refine ⟨p, .stop hq, ?_⟩
    rw [unroll_of_isMu_eq_false (h.isMu_eq_false hq)]
    exact ⟨active, h⟩
  | some q =>
    rcases h.step hq with ⟨hmu, active', h'⟩ | ⟨n, a, ha, hn, h'⟩
    · -- one recursive binder is gone
      have hcount := h.closed.muCount_unrollOnce
      have hpos : τ.muCount ≠ 0 := fun h0 => by
        rw [isMu_eq_false_iff.2 h0] at hmu
        cases hmu
      obtain ⟨r, hr, hpresents⟩ := h'.heads
      rw [h.closed.unroll_unrollOnce] at hpresents
      exact ⟨r, .step hq hr, hpresents⟩
    · have hlt := Aliases.inactive_cons_lt ha hn
      obtain ⟨r, hr, hpresents⟩ := h'.heads
      exact ⟨r, .step hq hr, hpresents⟩
termination_by (τ.muCount, aliases.inactive active)

end MuTypes
