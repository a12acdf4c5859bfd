import Mathlib.Logic.Function.Iterate
import MuTypes.Proofs.Nameless.Opening

/-!
# Well-formed types and unrolling

A well-formed type without loose variables (`Sound`) has something other than a bound variable below its leading
recursive binders.  So each unrolling step removes one of these binders, and unrolling as often as there are leading
binders ends with a type that is headed by none (`Sound.isMu_unroll`).
-/

namespace MuTypes.Nameless

variable {α β : Type}

/-! ### Well-formed types -/

/-- What stands below the leading recursive binders, when these and `d` more enclose it, is none of their
variables. -/
def Guarded : Nat → Nameless α → Prop
  | d, .mu b => b.Guarded (d + 1)
  | d, .bound i => d ≤ i
  | _, _ => True

/-- What stands below the leading recursive binders is no bound variable. -/
def Rigid : Nameless α → Prop
  | .mu b => b.Rigid
  | .bound _ => False
  | _ => True

theorem Guarded.rigid {d : Nat} {t : Nameless α} (hg : t.Guarded d) (hc : t.ClosedAt d) : t.Rigid := by
  induction t generalizing d with
  | mu b ih => exact ih hg ((closedAt_mu ..).1 hc)
  | bound i =>
    have hlt : i < 0 + d := hc
    have hle : d ≤ i := hg
    omega
  | _ => trivial

theorem Rigid.guarded {t : Nameless α} (h : t.Rigid) (d : Nat) : t.Guarded d := by
  induction t generalizing d with
  | mu b ih => exact ih h (d + 1)
  | bound i => exact h.elim
  | _ => trivial

theorem guarded_graft {f : Nat → Nat → Nameless β} {g : Nat → α → Nameless β}
    (hf : ∀ e i, f e i = .bound i ∨ (f e i).Rigid) (hg : ∀ e x, (g e x).Rigid) {d : Nat} {t : Nameless α}
    (h : t.Guarded d) : (t.graft f g).Guarded d := by
  induction t generalizing f g d with
  | mu b ih => exact ih (fun e => hf (e + 1)) (fun e => hg (e + 1)) h
  | bound i =>
    rcases hf 0 i with hi | hi
    · rw [graft_bound, hi]
      exact h
    · exact hi.guarded d
  | free x => exact (hg 0 x).guarded d
  | _ => trivial

/-- Properties and labels do not repeat, and recursive binders enclose something other than their variables. -/
inductive WellFormed : Nameless α → Prop where
  | prim (p : Prim) : WellFormed (.prim p)
  | container {k : Container} {e : Nameless α} (he : WellFormed e) : WellFormed (.container k e)
  | func {ps : List (Name × Nameless α)} {r : Nameless α} (hps : ∀ p ∈ ps, WellFormed p.2) (hr : WellFormed r) :
    WellFormed (.func ps r)
  | object {ps : List (Name × Nameless α)} (hd : (ps.map Prod.fst).Nodup) (hps : ∀ p ∈ ps, WellFormed p.2) :
    WellFormed (.object ps)
  | union {vs : List (Name × List (Name × Nameless α))} (hd : (vs.map Prod.fst).Nodup)
    (hds : ∀ v ∈ vs, (v.2.map Prod.fst).Nodup) (hvs : ∀ v ∈ vs, ∀ p ∈ v.2, WellFormed p.2) : WellFormed (.union vs)
  | mu {b : Nameless α} (hg : b.Guarded 1) (hb : WellFormed b) : WellFormed (.mu b)
  | generic {n : Nat} {b : Nameless α} (hb : WellFormed b) : WellFormed (.generic n b)
  | bound (i : Nat) : WellFormed (.bound i)
  | free (x : α) : WellFormed (.free x)

theorem WellFormed.of_mu {b : Nameless α} (h : (Nameless.mu b).WellFormed) : b.Guarded 1 ∧ b.WellFormed := by
  cases h with
  | mu hg hb => exact ⟨hg, hb⟩

theorem WellFormed.of_generic {n : Nat} {b : Nameless α} (h : (Nameless.generic n b).WellFormed) : b.WellFormed := by
  cases h with
  | generic hb => exact hb

theorem WellFormed.rigid {t : Nameless α} (h : t.WellFormed) (hc : t.ClosedAt 0) : t.Rigid := by
  cases h with
  | mu hg hb => exact hg.rigid ((closedAt_mu ..).1 hc)
  | bound i => exact absurd (show i < 0 + 0 from hc) (by omega)
  | _ => trivial

theorem wellFormed_graft {f : Nat → Nat → Nameless β} {g : Nat → α → Nameless β}
    (hf : ∀ e i, f e i = .bound i ∨ (f e i).Rigid ∧ (f e i).WellFormed)
    (hg : ∀ e x, (g e x).Rigid ∧ (g e x).WellFormed) {t : Nameless α} (h : t.WellFormed) :
    (t.graft f g).WellFormed := by
  have hrow : ∀ {ps : List (Name × Nameless α)}, (∀ p ∈ ps, (p.2.graft f g).WellFormed) →
      ∀ q ∈ ps.map (fun p => (p.1, p.2.graft f g)), q.2.WellFormed := by
    intro ps hps
    exact List.forall_mem_map.2 hps
  induction h generalizing f g with
  | prim p => exact .prim p
  | container _ ih => exact .container (ih hf hg hrow)
  | func _ _ ihps ihr =>
    rw [graft_func]
    exact .func (hrow fun p hp => ihps p hp hf hg hrow) (ihr hf hg hrow)
  | object hd _ ih =>
    rw [graft_object]
    exact .object (by rwa [map_fst_map_snd]) (hrow fun p hp => ih p hp hf hg hrow)
  | union hd hds _ ih =>
    rw [graft_union]
    refine .union (by rwa [map_fst_map_snd]) (List.forall_mem_map.2 fun v hv => ?_)
      (List.forall_mem_map.2 fun v hv => hrow fun p hp => ih v hv p hp hf hg hrow)
    rw [map_fst_map_snd]
    exact hds v hv
  | mu hgd _ ih =>
    exact .mu (guarded_graft (fun e i => (hf (e + 1) i).imp_right And.left) (fun e x => (hg (e + 1) x).1) hgd)
      (ih (fun e => hf (e + 1)) (fun e => hg (e + 1)) fun h => List.forall_mem_map.2 h)
  | @generic n b _ ih =>
    exact .generic (ih (fun e => hf (e + n)) (fun e => hg (e + n)) fun h => List.forall_mem_map.2 h)
  | bound i =>
    rcases hf 0 i with hi | hi
    · rw [graft_bound, hi]
      exact .bound i
    · exact hi.2
  | free x => exact (hg 0 x).2

theorem wellFormed_openAt {m : Nat} {vs : List (Nameless α)} {t : Nameless α} (ht : t.WellFormed)
    (hc : ∀ v ∈ vs, v.ClosedAt 0) (hw : ∀ v ∈ vs, v.WellFormed) : (t.openAt m vs).WellFormed :=
  wellFormed_graft (fun e i => (opened_mem_or m e i vs).imp_right fun hv => ⟨(hw _ hv).rigid (hc _ hv), hw _ hv⟩)
    (fun _ x => ⟨show (Nameless.free x).Rigid from trivial, .free x⟩) ht

theorem wellFormed_put [DecidableEq α] {x : α} {v t : Nameless α} (ht : t.WellFormed) (hc : v.ClosedAt 0)
    (hw : v.WellFormed) : (t.put x v).WellFormed := by
  unfold put
  refine wellFormed_graft (fun _ i => .inl rfl) (fun _ y => ?_) ht
  split
  · exact ⟨hw.rigid hc, hw⟩
  · exact ⟨trivial, .free y⟩

theorem wellFormed_relabel {t : Nameless α} (ht : t.WellFormed) (h : α → β) : (t.relabel h).WellFormed :=
  wellFormed_graft (fun _ _ => .inl rfl) (fun _ x => ⟨show (Nameless.free (h x)).Rigid from trivial, .free _⟩) ht

/-! ### Unrolling -/

/-- The number of leading recursive binders. -/
def muCount : Nameless α → Nat
  | .mu b => b.muCount + 1
  | _ => 0

/-- One step: the body of a recursive type with the type itself for its variable.  Other types stay. -/
def unrollOnce : Nameless α → Nameless α
  | .mu b => b.openAt 0 [.mu b]
  | t => t

/-- As many steps as there are leading recursive binders. -/
def unroll (t : Nameless α) : Nameless α :=
  unrollOnce^[t.muCount] t

theorem isMu_eq_false_iff {t : Nameless α} : t.isMu = false ↔ t.muCount = 0 := by
  cases t <;> simp [isMu, muCount]

theorem Rigid.muCount_graft {f : Nat → Nat → Nameless β} {h : Nat → α → β} {t : Nameless α} (ht : t.Rigid) :
    (t.graft f fun d x => .free (h d x)).muCount = t.muCount := by
  induction t generalizing f h with
  | mu b ih => exact congrArg (· + 1) (ih ht)
  | bound i => exact ht.elim
  | func ps r => rw [graft_func]; rfl
  | object ps => rw [graft_object]; rfl
  | union vs => rw [graft_union]; rfl
  | _ => rfl

theorem unroll_of_isMu_eq_false {t : Nameless α} (h : t.isMu = false) : t.unroll = t := by
  rw [unroll, isMu_eq_false_iff.1 h]
  rfl

theorem relabel_unrollOnce (h : α → β) (t : Nameless α) : t.unrollOnce.relabel h = (t.relabel h).unrollOnce := by
  cases t with
  | mu b => exact relabel_openAt h 0 [.mu b] b
  | func ps r => simp only [relabel, unrollOnce, graft_func]
  | object ps => simp only [relabel, unrollOnce, graft_object]
  | union vs => simp only [relabel, unrollOnce, graft_union]
  | _ => rfl

theorem muCount_relabel (h : α → β) (t : Nameless α) : (t.relabel h).muCount = t.muCount := by
  unfold relabel
  induction t with
  | mu b ih => exact congrArg (· + 1) ih
  | func ps r => rw [graft_func]; rfl
  | object ps => rw [graft_object]; rfl
  | union vs => rw [graft_union]; rfl
  | _ => rfl

theorem relabel_unroll (h : α → β) (t : Nameless α) : t.unroll.relabel h = (t.relabel h).unroll := by
  rw [unroll, unroll, muCount_relabel]
  generalize t.muCount = k
  induction k generalizing t with
  | zero => rfl
  | succ k ih => rw [Function.iterate_succ_apply, Function.iterate_succ_apply, ih, relabel_unrollOnce]

theorem has_unrollOnce {t : Nameless α} {x : α} (h : t.unrollOnce.Has x) : t.Has x := by
  cases t with
  | mu b =>
    rcases has_openAt h with hb | ⟨v, hv, hvx⟩
    · exact hb
    · exact List.mem_singleton.1 hv ▸ hvx
  | _ => exact h

theorem has_unroll {t : Nameless α} {x : α} (h : t.unroll.Has x) : t.Has x := by
  unfold unroll at h
  generalize t.muCount = k at h
  induction k generalizing t with
  | zero => exact h
  | succ k ih => exact has_unrollOnce (ih h)

/-- Well-formed and without loose variables: what unrolling and comparing start from and keep. -/
structure Sound (t : Nameless α) : Prop where
  closed : t.ClosedAt 0
  wellFormed : t.WellFormed

theorem sound_free (x : α) : (Nameless.free x).Sound :=
  ⟨trivial, .free x⟩

namespace Sound

variable {t b : Nameless α}

theorem unrollOnce (h : t.Sound) : t.unrollOnce.Sound := by
  cases t with
  | mu b =>
    have hvs : ∀ v ∈ [Nameless.mu b], v.Sound := by simpa using h
    obtain ⟨hc, hw⟩ := h
    cases hw with
    | mu _ hb =>
      exact ⟨closedAt_openAt ((closedAt_mu ..).1 hc) fun v hv => (hvs v hv).closed,
        wellFormed_openAt hb (fun v hv => (hvs v hv).closed) fun v hv => (hvs v hv).wellFormed⟩
  | _ => exact h

theorem muCount_unrollOnce (h : t.Sound) : t.unrollOnce.muCount = t.muCount - 1 := by
  cases t with
  | mu b => exact Rigid.muCount_graft (h.wellFormed.rigid h.closed : (Nameless.mu b).Rigid)
  | _ => rfl

theorem iterate_unrollOnce (h : t.Sound) (k : Nat) : (Nameless.unrollOnce^[k] t).Sound := by
  induction k generalizing t with
  | zero => exact h
  | succ k ih => exact ih h.unrollOnce

theorem unroll (h : t.Sound) : t.unroll.Sound :=
  h.iterate_unrollOnce _

theorem muCount_iterate (h : t.Sound) (k : Nat) : (Nameless.unrollOnce^[k] t).muCount = t.muCount - k := by
  induction k generalizing t with
  | zero => rfl
  | succ k ih =>
    rw [Function.iterate_succ_apply, ih h.unrollOnce, h.muCount_unrollOnce]
    omega

/-- Unrolling ends with a type that is headed by no recursive binder. -/
theorem isMu_unroll (h : t.Sound) : t.unroll.isMu = false := by
  rw [isMu_eq_false_iff, Nameless.unroll, h.muCount_iterate, Nat.sub_self]

theorem unroll_unrollOnce (h : t.Sound) : t.unrollOnce.unroll = t.unroll := by
  unfold Nameless.unroll
  rw [h.muCount_unrollOnce]
  cases hk : t.muCount with
  | zero =>
    have : t.isMu = false := isMu_eq_false_iff.2 hk
    cases t <;> simp_all [isMu, Nameless.unrollOnce]
  | succ k => rw [Nat.add_sub_cancel, Function.iterate_succ_apply]

end Sound

end MuTypes.Nameless
