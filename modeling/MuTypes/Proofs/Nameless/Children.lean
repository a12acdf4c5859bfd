import Mathlib.Logic.Function.Iterate
import MuTypes.Proofs.Nameless.WellFormed

/-!
# Children of nameless types

The children of a nameless type are its direct parts; a generic type has its body, with any labels for the variables
of its binder, as children (`Child`).  Where the types put in for loose variables stand, the children of the opened
type are the opened children (`child_openAt`).  A type that is not rigid is one of the types put in, below further
recursive binders (`exists_iterate_mu_of_not_rigid`), and these binders do not show in its children
(`Sound.unroll_iterate_mu`).
-/

namespace MuTypes.Nameless

variable {α β : Type}

/-- The direct parts that stand below the same binders. -/
def pieces : Nameless α → List (Nameless α)
  | .container _ t => [t]
  | .func ps r => r :: ps.map Prod.snd
  | .object ps => ps.map Prod.snd
  | .union vs => vs.flatMap fun v => v.2.map Prod.snd
  | _ => []

/-- The second type is a direct part of the first one, with labels for the variables of a generic binder between. -/
inductive Child : Nameless α → Nameless α → Prop where
  | piece {t u : Nameless α} (h : u ∈ t.pieces) : Child t u
  | body {n : Nat} {t : Nameless α} {xs : List α} (h : xs.length = n) :
    Child (.generic n t) (t.openAt 0 (xs.map .free))

/-- Is the type headed by no binder, and no bound variable? -/
def isFlat : Nameless α → Bool
  | .mu _ => false
  | .generic _ _ => false
  | .bound _ => false
  | _ => true

/-! ### Pieces -/

theorem mem_pieces_func {ps : List (Name × Nameless α)} {r u : Nameless α} :
    u ∈ (Nameless.func ps r).pieces ↔ u = r ∨ ∃ p ∈ ps, p.2 = u := by
  simp only [pieces, List.mem_cons, List.mem_map]

theorem mem_pieces_object {ps : List (Name × Nameless α)} {u : Nameless α} :
    u ∈ (Nameless.object ps).pieces ↔ ∃ p ∈ ps, p.2 = u :=
  List.mem_map

theorem mem_pieces_union {vs : List (Name × List (Name × Nameless α))} {u : Nameless α} :
    u ∈ (Nameless.union vs).pieces ↔ ∃ v ∈ vs, ∃ p ∈ v.2, p.2 = u := by
  simp only [pieces, List.mem_flatMap, List.mem_map]

theorem sizeOf_lt_of_mem_pieces {t u : Nameless α} (h : u ∈ t.pieces) : sizeOf u < sizeOf t := by
  have hrow : ∀ {ps : List (Name × Nameless α)} {p : Name × Nameless α}, p ∈ ps → sizeOf p.2 < sizeOf ps := by
    intro ps p hp
    have hlt := List.sizeOf_lt_of_mem hp
    have hpair : sizeOf p = 1 + sizeOf p.1 + sizeOf p.2 := rfl
    omega
  cases t with
  | container k e =>
    obtain rfl := List.mem_singleton.1 h
    rw [container.sizeOf_spec]
    omega
  | func ps r =>
    rw [func.sizeOf_spec]
    rcases mem_pieces_func.1 h with rfl | ⟨p, hp, rfl⟩
    · omega
    · have := hrow hp
      omega
  | object ps =>
    obtain ⟨p, hp, rfl⟩ := mem_pieces_object.1 h
    have := hrow hp
    rw [object.sizeOf_spec]
    omega
  | union vs =>
    obtain ⟨v, hv, p, hp, rfl⟩ := mem_pieces_union.1 h
    have hlt := List.sizeOf_lt_of_mem hv
    have hpair : sizeOf v = 1 + sizeOf v.1 + sizeOf v.2 := rfl
    have := hrow hp
    rw [union.sizeOf_spec]
    omega
  | _ => simp [pieces] at h

theorem ClosedAt.of_mem_pieces {m : Nat} {t u : Nameless α} (ht : t.ClosedAt m) (h : u ∈ t.pieces) :
    u.ClosedAt m := by
  cases t with
  | container k e =>
    obtain rfl := List.mem_singleton.1 h
    exact ht
  | func ps r =>
    rcases mem_pieces_func.1 h with rfl | ⟨p, hp, rfl⟩
    · exact ((leaves_func ..).1 ht).2
    · exact ((leaves_func ..).1 ht).1 p hp
  | object ps =>
    obtain ⟨p, hp, rfl⟩ := mem_pieces_object.1 h
    exact (leaves_object ..).1 ht p hp
  | union vs =>
    obtain ⟨v, hv, p, hp, rfl⟩ := mem_pieces_union.1 h
    exact (leaves_union ..).1 ht v hv p hp
  | _ => simp [pieces] at h

theorem WellFormed.of_mem_pieces {t u : Nameless α} (ht : t.WellFormed) (h : u ∈ t.pieces) : u.WellFormed := by
  cases ht with
  | container he =>
    obtain rfl := List.mem_singleton.1 h
    exact he
  | func hps hr =>
    rcases mem_pieces_func.1 h with rfl | ⟨p, hp, rfl⟩
    · exact hr
    · exact hps p hp
  | object _ hps =>
    obtain ⟨p, hp, rfl⟩ := mem_pieces_object.1 h
    exact hps p hp
  | union _ _ hvs =>
    obtain ⟨v, hv, p, hp, rfl⟩ := mem_pieces_union.1 h
    exact hvs v hv p hp
  | _ => simp [pieces] at h

theorem pieces_graft (f : Nat → Nat → Nameless β) (g : Nat → α → Nameless β) {t : Nameless α}
    (hf : t.isFlat = true) (hx : ∀ x, t = .free x → (g 0 x).pieces = []) :
    (t.graft f g).pieces = t.pieces.map (graft f g) := by
  cases t with
  | func ps r =>
    rw [graft_func]
    simp [pieces, List.map_map, Function.comp_def]
  | object ps =>
    rw [graft_object]
    simp [pieces, List.map_map, Function.comp_def]
  | union vs =>
    rw [graft_union]
    simp [pieces, List.flatMap_map, List.map_flatMap, Function.comp_def]
  | free x => rw [graft_free, hx x rfl]; rfl
  | mu b => cases hf
  | generic n b => cases hf
  | bound i => cases hf
  | _ => rfl

/-! ### Types put for loose variables -/

section Opened

variable {t u v w : Nameless α} {vs : List (Nameless α)}

theorem isMu_openAt_of_isFlat (hf : t.isFlat = true) (m : Nat) : (t.openAt m vs).isMu = false := by
  cases t with
  | func ps r => rw [openAt_func]; rfl
  | object ps => rw [openAt_object]; rfl
  | union vs => rw [openAt_union]; rfl
  | mu b => cases hf
  | bound i => cases hf
  | generic n b => cases hf
  | _ => rfl

/-- The children of an opened type without a binder are its opened pieces. -/
theorem child_openAt (hf : t.isFlat = true) (h : Child (t.openAt 0 vs).unroll w) :
    ∃ u ∈ t.pieces, w = u.openAt 0 vs := by
  rw [unroll_of_isMu_eq_false (isMu_openAt_of_isFlat hf 0)] at h
  have hpieces : (t.openAt 0 vs).pieces = t.pieces.map (openAt 0 vs) := by
    refine pieces_graft _ _ hf fun x _ => rfl
  generalize hu : t.openAt 0 vs = u at h hpieces
  cases h with
  | piece h =>
    rw [hpieces] at h
    obtain ⟨c, hc, rfl⟩ := List.mem_map.1 h
    exact ⟨c, hc, rfl⟩
  | body h =>
    cases t with
    | func ps r => rw [openAt_func] at hu; cases hu
    | object ps => rw [openAt_object] at hu; cases hu
    | union vs => rw [openAt_union] at hu; cases hu
    | mu b => cases hf
    | bound i => cases hf
    | generic n b => cases hf
    | _ => cases hu

/-- A child of an opened generic type is its body, opened with labels too. -/
theorem child_openAt_generic {n : Nat} (hvs : ∀ v ∈ vs, v.ClosedAt 0)
    (h : Child ((Nameless.generic n t).openAt 0 vs).unroll w) :
    ∃ xs : List α, xs.length = n ∧ w = t.openAt 0 (xs.map .free ++ vs) := by
  rw [openAt_generic, unroll_of_isMu_eq_false rfl] at h
  cases h with
  | piece h => simp [pieces] at h
  | @body _ _ xs h =>
    have hlength : 0 + n = 0 + (xs.map Nameless.free).length := by rw [List.length_map, h]
    refine ⟨xs, h, ?_⟩
    rw [hlength, openAt_openAt hvs]

theorem closedAt_of_closedAt_generic {n : Nat} {xs : List α} (hc : (Nameless.generic n t).ClosedAt vs.length)
    (hxs : xs.length = n) : t.ClosedAt (xs.map Nameless.free ++ vs).length := by
  rw [closedAt_generic] at hc
  rwa [List.length_append, List.length_map, hxs, Nat.add_comm]

theorem sound_of_mem_labels_append {xs : List α} (hvs : ∀ v ∈ vs, v.Sound) :
    ∀ v ∈ xs.map Nameless.free ++ vs, v.Sound :=
  List.forall_mem_append.2 ⟨List.forall_mem_map.2 fun x _ => sound_free x, hvs⟩

/-- Unrolling an opened recursive type puts that type for the variable of its binder. -/
theorem unrollOnce_openAt_mu (hvs : ∀ v ∈ vs, v.ClosedAt 0) :
    ((Nameless.mu t).openAt 0 vs).unrollOnce = t.openAt 0 ((Nameless.mu t).openAt 0 vs :: vs) := by
  have hopen : ∀ M : Nameless α, (t.openAt 1 vs).openAt 0 [M] = t.openAt 0 (M :: vs) :=
    fun M => openAt_openAt hvs 0 t
  rw [← hopen, openAt_mu]
  rfl

theorem sound_openAt (ht : t.WellFormed) (hc : t.ClosedAt vs.length) (hvs : ∀ v ∈ vs, v.Sound) :
    (t.openAt 0 vs).Sound := by
  refine ⟨closedAt_openAt ?_ fun v hv => (hvs v hv).closed, ?_⟩
  · rwa [Nat.zero_add]
  · exact wellFormed_openAt ht (fun v hv => (hvs v hv).closed) fun v hv => (hvs v hv).wellFormed

theorem unroll_openAt_mu (ht : (Nameless.mu t).WellFormed) (hc : (Nameless.mu t).ClosedAt vs.length)
    (hvs : ∀ v ∈ vs, v.Sound) :
    (t.openAt 0 ((Nameless.mu t).openAt 0 vs :: vs)).unroll = ((Nameless.mu t).openAt 0 vs).unroll := by
  rw [← unrollOnce_openAt_mu fun v hv => (hvs v hv).closed]
  exact (sound_openAt ht hc hvs).unroll_unrollOnce

theorem not_child_free {x : α} : ¬ Child (Nameless.free x).unroll w := by
  rw [unroll_of_isMu_eq_false rfl]
  intro h
  cases h with
  | piece h => simp [pieces] at h

/-! ### Recursive binders that bind nothing -/

theorem Sound.mu (h : v.Sound) : (Nameless.mu v).Sound :=
  ⟨(closedAt_mu ..).2 (h.closed.mono (Nat.zero_le _)), .mu ((h.wellFormed.rigid h.closed).guarded 1) h.wellFormed⟩

theorem Sound.iterate_mu (h : v.Sound) (j : Nat) : (Nameless.mu^[j] v).Sound := by
  induction j with
  | zero => exact h
  | succ j ih =>
    rw [Function.iterate_succ_apply']
    exact ih.mu

theorem Sound.unroll_iterate_mu (h : v.Sound) (j : Nat) : (Nameless.mu^[j] v).unroll = v.unroll := by
  induction j with
  | zero => rfl
  | succ j ih =>
    have hj := h.iterate_mu j
    have honce : (Nameless.mu (Nameless.mu^[j] v)).unrollOnce = Nameless.mu^[j] v :=
      openAt_of_closedAt hj.closed _
    rw [Function.iterate_succ_apply', ← hj.mu.unroll_unrollOnce, honce, ih]

theorem isMu_iterate_mu (h : v.isMu = true) (j : Nat) : (Nameless.mu^[j] v).isMu = true := by
  cases j with
  | zero => exact h
  | succ j =>
    rw [Function.iterate_succ_apply']
    rfl

theorem WellFormed.guarded (ht : t.WellFormed) : t.Guarded 0 := by
  cases ht with
  | mu hg _ => exact hg
  | bound i => exact Nat.zero_le i
  | _ => trivial

/-- A type that is not rigid is, opened, one of the types put in, below recursive binders that bind nothing. -/
theorem exists_iterate_mu_of_not_rigid {m : Nat} (hr : ¬ t.Rigid) (hg : t.Guarded m)
    (hc : t.ClosedAt (m + vs.length)) : ∃ j ≤ sizeOf t, ∃ v ∈ vs, t.openAt m vs = Nameless.mu^[j] v := by
  induction t generalizing m with
  | mu b ih =>
    rw [closedAt_mu, Nat.add_right_comm] at hc
    obtain ⟨j, hj, v, hv, he⟩ := ih hr hg hc
    refine ⟨j + 1, ?_, v, hv, ?_⟩
    · rw [mu.sizeOf_spec]
      omega
    · rw [openAt_mu, he, Function.iterate_succ_apply']
  | bound i =>
    have hle : m ≤ i := hg
    have hlt : i < 0 + (m + vs.length) := hc
    have hi : i - m < vs.length := by omega
    refine ⟨0, Nat.zero_le _, vs[i - m], List.getElem_mem hi, ?_⟩
    show opened m vs 0 i = vs[i - m]
    rw [opened, if_neg (by omega), Nat.zero_add, List.getElem?_eq_getElem hi]
    rfl
  | _ => exact absurd trivial hr

end Opened

end MuTypes.Nameless
