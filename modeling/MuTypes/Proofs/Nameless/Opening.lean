import Mathlib.Logic.Basic
import Mathlib.Tactic.ByContra
import MuTypes.Proofs.Nameless.Basic

/-!
# Labels and opened binders

The labels of a nameless type can be changed (`relabel`), and a type can be put for one of them (`put`).

A binder is opened by putting types for its variables (`openAt`).  Types put in one after the other can be put in at
once (`openAt_openAt`), and new labels can be given before or after (`relabel_openAt`).
-/

namespace MuTypes.Nameless

variable {α β γ : Type}

/-! ### Labels -/

/-- Changes the labels of the free variables. -/
def relabel (h : α → β) (t : Nameless α) : Nameless β :=
  t.graft (fun _ i => .bound i) fun _ x => .free (h x)

/-- Puts `v` for the free variables with the label `x`. -/
def put [DecidableEq α] (t : Nameless α) (x : α) (v : Nameless α) : Nameless α :=
  t.graft (fun _ i => .bound i) fun _ y => if y = x then v else .free y

/-- The label occurs in the type. -/
def Has (x : α) (t : Nameless α) : Prop :=
  ¬ t.Leaves (fun _ _ => True) fun _ y => y ≠ x

@[simp] theorem relabel_prim (h : α → β) (p : Prim) : (Nameless.prim p).relabel h = .prim p := rfl

@[simp] theorem relabel_container (h : α → β) (k : Container) (e : Nameless α) :
    (Nameless.container k e).relabel h = .container k (e.relabel h) := rfl

@[simp] theorem relabel_mu (h : α → β) (b : Nameless α) : (Nameless.mu b).relabel h = .mu (b.relabel h) := rfl

@[simp] theorem relabel_generic (h : α → β) (n : Nat) (b : Nameless α) :
    (Nameless.generic n b).relabel h = .generic n (b.relabel h) := rfl

@[simp] theorem relabel_bound (h : α → β) (i : Nat) : (Nameless.bound i).relabel h = .bound i := rfl

@[simp] theorem relabel_free (h : α → β) (x : α) : (Nameless.free x).relabel h = .free (h x) := rfl

@[simp] theorem relabel_func (h : α → β) (ps : List (Name × Nameless α)) (r : Nameless α) :
    (Nameless.func ps r).relabel h = .func (ps.map fun p => (p.1, p.2.relabel h)) (r.relabel h) :=
  graft_func ..

@[simp] theorem relabel_object (h : α → β) (ps : List (Name × Nameless α)) :
    (Nameless.object ps).relabel h = .object (ps.map fun p => (p.1, p.2.relabel h)) :=
  graft_object ..

@[simp] theorem relabel_union (h : α → β) (vs : List (Name × List (Name × Nameless α))) :
    (Nameless.union vs).relabel h = .union (vs.map fun v => (v.1, v.2.map fun p => (p.1, p.2.relabel h))) :=
  graft_union ..

section Inversion

variable {h : α → β} {t : Nameless α}

theorem relabel_eq_container_iff {k : Container} {e : Nameless β} :
    t.relabel h = .container k e ↔ ∃ e', t = .container k e' ∧ e'.relabel h = e := by
  cases t <;> simp

theorem relabel_eq_func_iff {ps : List (Name × Nameless β)} {r : Nameless β} :
    t.relabel h = .func ps r ↔
      ∃ qs s, t = .func qs s ∧ (qs.map fun p => (p.1, p.2.relabel h)) = ps ∧ s.relabel h = r := by
  cases t <;> simp

theorem relabel_eq_object_iff {ps : List (Name × Nameless β)} :
    t.relabel h = .object ps ↔ ∃ qs, t = .object qs ∧ (qs.map fun p => (p.1, p.2.relabel h)) = ps := by
  cases t <;> simp

theorem relabel_eq_union_iff {vs : List (Name × List (Name × Nameless β))} :
    t.relabel h = .union vs ↔
      ∃ ws, t = .union ws ∧ (ws.map fun v => (v.1, v.2.map fun p => (p.1, p.2.relabel h))) = vs := by
  cases t <;> simp

theorem relabel_eq_generic_iff {n : Nat} {b : Nameless β} :
    t.relabel h = .generic n b ↔ ∃ b', t = .generic n b' ∧ b'.relabel h = b := by
  cases t <;> simp

end Inversion

theorem relabel_relabel (h : α → β) (k : β → γ) (t : Nameless α) :
    (t.relabel h).relabel k = t.relabel fun x => k (h x) := by
  simp only [relabel, graft_graft, graft_bound, graft_free]

/-- A property of every label of a type holds at each of its leaves. -/
theorem leaves_of_has {A : α → Prop} {t : Nameless α} (h : ∀ x, t.Has x → A x) :
    t.Leaves (fun _ _ => True) fun _ x => A x := by
  induction t with
  | prim p => trivial
  | container k e ih => exact ih h
  | func ps r ihps ihr =>
    exact (leaves_func ..).2 ⟨fun p hp => ihps p hp fun x hx => h x fun hl => hx (((leaves_func ..).1 hl).1 p hp),
      ihr fun x hx => h x fun hl => hx ((leaves_func ..).1 hl).2⟩
  | object ps ih =>
    exact (leaves_object ..).2 fun p hp => ih p hp fun x hx => h x fun hl => hx ((leaves_object ..).1 hl p hp)
  | union vs ih =>
    exact (leaves_union ..).2 fun v hv p hp => ih v hv p hp fun x hx => h x fun hl =>
      hx ((leaves_union ..).1 hl v hv p hp)
  | mu b ih => exact ih h
  | generic n b ih => exact ih h
  | bound i => trivial
  | free x => exact h x fun hx => hx rfl

theorem leaves_iff_forall_has {A : α → Prop} {t : Nameless α} :
    t.Leaves (fun _ _ => True) (fun _ x => A x) ↔ ∀ x, t.Has x → A x := by
  refine ⟨fun h x hx => ?_, leaves_of_has⟩
  by_contra hn
  exact hx (h.mono (fun _ _ _ => trivial) fun _ y hy e => hn (e ▸ hy))

section Has

variable {x : α}

@[simp] theorem has_prim (p : Prim) : ¬ (Nameless.prim p).Has x :=
  not_not.2 trivial

@[simp] theorem has_bound (i : Nat) : ¬ (Nameless.bound i).Has x :=
  not_not.2 trivial

@[simp] theorem has_free {y : α} : (Nameless.free y).Has x ↔ y = x :=
  not_not

@[simp] theorem has_container {k : Container} {e : Nameless α} : (Nameless.container k e).Has x ↔ e.Has x := Iff.rfl

@[simp] theorem has_mu {b : Nameless α} : (Nameless.mu b).Has x ↔ b.Has x := Iff.rfl

@[simp] theorem has_generic {n : Nat} {b : Nameless α} : (Nameless.generic n b).Has x ↔ b.Has x := Iff.rfl

@[simp] theorem has_func {ps : List (Name × Nameless α)} {r : Nameless α} :
    (Nameless.func ps r).Has x ↔ (∃ p ∈ ps, p.2.Has x) ∨ r.Has x := by
  simp only [Has, leaves_func, not_and_or, not_forall, exists_prop]

@[simp] theorem has_object {ps : List (Name × Nameless α)} :
    (Nameless.object ps).Has x ↔ ∃ p ∈ ps, p.2.Has x := by
  simp only [Has, leaves_object, not_forall, exists_prop]

@[simp] theorem has_union {vs : List (Name × List (Name × Nameless α))} :
    (Nameless.union vs).Has x ↔ ∃ v ∈ vs, ∃ p ∈ v.2, p.2.Has x := by
  simp only [Has, leaves_union, not_forall, exists_prop]

end Has

theorem has_relabel {h : α → β} {t : Nameless α} {y : β} (hy : (t.relabel h).Has y) : ∃ x, t.Has x ∧ h x = y := by
  by_contra hn
  refine hy ((leaves_graft ..).2 ?_)
  exact leaves_of_has fun x hx e => hn ⟨x, hx, e⟩

section Put

variable [DecidableEq α] {x y : α} {v t : Nameless α}

@[simp] theorem put_func (ps : List (Name × Nameless α)) (r : Nameless α) :
    (Nameless.func ps r).put x v = .func (ps.map fun p => (p.1, p.2.put x v)) (r.put x v) :=
  graft_func ..

@[simp] theorem put_object (ps : List (Name × Nameless α)) :
    (Nameless.object ps).put x v = .object (ps.map fun p => (p.1, p.2.put x v)) :=
  graft_object ..

@[simp] theorem put_union (us : List (Name × List (Name × Nameless α))) :
    (Nameless.union us).put x v = .union (us.map fun u => (u.1, u.2.map fun p => (p.1, p.2.put x v))) :=
  graft_union ..

@[simp] theorem put_free_self : (Nameless.free x).put x v = v :=
  if_pos rfl

theorem put_free_of_ne (h : y ≠ x) : (Nameless.free y).put x v = .free y :=
  if_neg h

theorem put_of_not_has (h : ¬ t.Has x) : t.put x v = t := by
  refine graft_eq_self (Leaves.mono (not_not.1 h) (fun _ _ _ => rfl) fun _ z hz => ?_)
  rw [if_neg hz]

theorem has_put_iff : (t.put x v).Has y ↔ t.Has y ∧ y ≠ x ∨ t.Has x ∧ v.Has y := by
  have hleaf : ∀ z, ((if z = x then v else .free z : Nameless α).Leaves (fun _ _ => True) fun _ w => w ≠ y) ↔
      if z = x then ¬ v.Has y else z ≠ y := by
    intro z
    split
    · exact not_not.symm
    · rfl
  rw [Has, put, leaves_graft]
  simp only [leaves_bound, hleaf, leaves_iff_forall_has, not_forall]
  constructor
  · rintro ⟨z, hz, hn⟩
    split at hn
    · rename_i e
      exact .inr ⟨e ▸ hz, not_not.1 hn⟩
    · rename_i e
      have hzy : z = y := not_not.1 hn
      exact .inl ⟨hzy ▸ hz, hzy ▸ e⟩
  · rintro (⟨hy, hne⟩ | ⟨hx, hv⟩)
    · exact ⟨y, hy, by simp [hne]⟩
    · exact ⟨x, hx, by simp [hv]⟩

end Put

theorem relabel_congr {h k : α → β} {t : Nameless α} (he : ∀ x, t.Has x → h x = k x) :
    t.relabel h = t.relabel k :=
  graft_congr ((leaves_of_has he).mono (fun _ _ _ => rfl) fun _ _ hx => by rw [hx])

/-! ### Opening -/

/-- What stands for the bound variable `i` below `d` binders once the outermost loose variables, all but the first
`m`, are the given types. -/
def opened (m : Nat) (vs : List (Nameless α)) (d i : Nat) : Nameless α :=
  if i < d + m then .bound i else vs[i - (d + m)]?.getD (.bound i)

/-- Puts types for the loose variables from `m` on. -/
def openAt (m : Nat) (vs : List (Nameless α)) (t : Nameless α) : Nameless α :=
  t.graft (opened m vs) fun _ x => .free x

/-- There are no loose variables from `m` on. -/
def ClosedAt (m : Nat) (t : Nameless α) : Prop :=
  t.Leaves (fun d i => i < d + m) fun _ _ => True

theorem opened_add (m n d : Nat) (vs : List (Nameless α)) : opened m vs (d + n) = opened (m + n) vs d := by
  funext i
  simp only [opened, Nat.add_assoc, Nat.add_comm n m]

theorem opened_mem_or (m d i : Nat) (vs : List (Nameless α)) : opened m vs d i = .bound i ∨ opened m vs d i ∈ vs := by
  unfold opened
  split
  · exact .inl rfl
  · cases h : vs[i - (d + m)]? with
    | none => exact .inl rfl
    | some v => exact .inr (List.mem_of_getElem? h)

section Equations

variable (m : Nat) (vs : List (Nameless α))

@[simp] theorem openAt_func (ps : List (Name × Nameless α)) (r : Nameless α) :
    (Nameless.func ps r).openAt m vs = .func (ps.map fun p => (p.1, p.2.openAt m vs)) (r.openAt m vs) :=
  graft_func ..

@[simp] theorem openAt_object (ps : List (Name × Nameless α)) :
    (Nameless.object ps).openAt m vs = .object (ps.map fun p => (p.1, p.2.openAt m vs)) :=
  graft_object ..

@[simp] theorem openAt_union (us : List (Name × List (Name × Nameless α))) :
    (Nameless.union us).openAt m vs = .union (us.map fun u => (u.1, u.2.map fun p => (p.1, p.2.openAt m vs))) :=
  graft_union ..

@[simp] theorem openAt_mu (b : Nameless α) : (Nameless.mu b).openAt m vs = .mu (b.openAt (m + 1) vs) := by
  simp only [openAt, graft_mu, opened_add]

@[simp] theorem openAt_generic (n : Nat) (b : Nameless α) :
    (Nameless.generic n b).openAt m vs = .generic n (b.openAt (m + n) vs) := by
  simp only [openAt, graft_generic, opened_add]

@[simp] theorem closedAt_mu (b : Nameless α) : (Nameless.mu b).ClosedAt m ↔ b.ClosedAt (m + 1) := by
  simp only [ClosedAt, leaves_mu, Nat.add_assoc, Nat.add_comm 1 m]

@[simp] theorem closedAt_generic (n : Nat) (b : Nameless α) :
    (Nameless.generic n b).ClosedAt m ↔ b.ClosedAt (m + n) := by
  simp only [ClosedAt, leaves_generic, Nat.add_assoc, Nat.add_comm n m]

end Equations

theorem ClosedAt.mono {m n : Nat} {t : Nameless α} (h : t.ClosedAt m) (hmn : m ≤ n) : t.ClosedAt n :=
  Leaves.mono h (fun _ _ hi => by omega) fun _ _ hx => hx

theorem openAt_of_closedAt {m : Nat} {t : Nameless α} (h : t.ClosedAt m) (vs : List (Nameless α)) :
    t.openAt m vs = t :=
  graft_eq_self (Leaves.mono h (fun _ _ hi => by simp [opened, hi]) fun _ _ _ => rfl)

/-- Opening inside and then outside is opening both at once. -/
theorem openAt_openAt {vs ws : List (Nameless α)} (hvs : ∀ v ∈ vs, v.ClosedAt 0) (m : Nat) (t : Nameless α) :
    (t.openAt (m + ws.length) vs).openAt m ws = t.openAt m (ws ++ vs) := by
  unfold openAt
  rw [graft_graft]
  congr 1
  funext d i
  show (opened (m + ws.length) vs d i).graft (fun e => opened m ws (e + d)) (fun _ x => .free x) =
    opened m (ws ++ vs) d i
  unfold opened
  by_cases h : i < d + m
  · rw [if_pos (by omega), if_pos h, graft_bound, if_pos (by omega)]
  · rw [if_neg h]
    by_cases h' : i < d + (m + ws.length)
    · rw [if_pos h', graft_bound, if_neg (by omega), Nat.zero_add, List.getElem?_append_left (by omega)]
    · rw [if_neg h', List.getElem?_append_right (by omega), show i - (d + m) - ws.length = i - (d + (m + ws.length))
        from by omega]
      cases hv : vs[i - (d + (m + ws.length))]? with
      | none =>
        rw [Option.getD_none, graft_bound, if_neg (by omega), Nat.zero_add, List.getElem?_eq_none (by omega)]
        rfl
      | some v =>
        have hc : v.ClosedAt 0 := hvs v (List.mem_of_getElem? hv)
        exact graft_eq_self (Leaves.mono hc (fun e j hj => if_pos (by omega)) fun _ _ _ => rfl)

theorem closedAt_openAt {m : Nat} {vs : List (Nameless α)} {t : Nameless α} (ht : t.ClosedAt (m + vs.length))
    (hvs : ∀ v ∈ vs, v.ClosedAt 0) : (t.openAt m vs).ClosedAt m := by
  refine (leaves_graft ..).2 (Leaves.mono ht (fun d i hi => ?_) fun _ _ _ => trivial)
  unfold opened
  split
  · simp only [leaves_bound]
    omega
  · rw [List.getElem?_eq_getElem (by omega : i - (d + m) < vs.length)]
    exact Leaves.mono (hvs _ (List.getElem_mem _)) (fun e j hj => by omega) fun _ _ h => h

theorem has_openAt {m : Nat} {vs : List (Nameless α)} {t : Nameless α} {x : α} (h : (t.openAt m vs).Has x) :
    t.Has x ∨ ∃ v ∈ vs, v.Has x := by
  by_contra hn
  rw [not_or] at hn
  refine h ((leaves_graft ..).2 (Leaves.mono (not_not.1 hn.1) (fun d i _ => ?_) fun _ _ hy => hy))
  rcases opened_mem_or m d i vs with hi | hi
  · rw [hi]
    trivial
  · exact not_not.1 fun hv => hn.2 ⟨_, hi, hv⟩

theorem relabel_openAt (h : α → β) (m : Nat) (vs : List (Nameless α)) (t : Nameless α) :
    (t.openAt m vs).relabel h = (t.relabel h).openAt m (vs.map (relabel h)) := by
  simp only [relabel, openAt, graft_graft, graft_bound, graft_free, Nat.zero_add]
  congr 1
  funext d i
  unfold opened
  by_cases hi : i < d + m
  · rw [if_pos hi, if_pos hi, graft_bound]
  · rw [if_neg hi, if_neg hi, List.getElem?_map]
    cases vs[i - (d + m)]? <;> rfl

theorem closedAt_relabel {m : Nat} {t : Nameless α} (h : t.ClosedAt m) (k : α → β) : (t.relabel k).ClosedAt m :=
  (leaves_graft ..).2 (Leaves.mono h (fun _ _ hi => by simpa using hi) fun _ _ _ => trivial)

end MuTypes.Nameless
