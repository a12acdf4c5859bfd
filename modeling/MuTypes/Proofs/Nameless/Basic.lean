import MuTypes.Proofs.Lookup
import MuTypes.Ty.Basic

/-!
# Types without the names of binders

In a nameless type a bound variable is the number of binders between it and its own, and a free variable is a leaf
with a label.  Types that differ in the names of their binders only have the same nameless form, and putting a type
for a variable needs no renaming: `graft` replaces all leaves at once, and two replacements in a row are one
(`graft_graft`).
-/

namespace MuTypes

/-- Types whose bound variables are numbers, with labels of type `α` for the free ones. -/
inductive Nameless (α : Type) where
  | prim (p : Prim)
  | container (kind : Container) (elem : Nameless α)
  | func (params : List (Name × Nameless α)) (result : Nameless α)
  | object (row : List (Name × Nameless α))
  | union (variants : List (Name × List (Name × Nameless α)))
  | mu (body : Nameless α)
  /-- A generic type with the given number of parameters, of which the last one is number zero in the body. -/
  | generic (arity : Nat) (body : Nameless α)
  | bound (i : Nat)
  | free (x : α)

namespace Nameless

variable {α β γ : Type}

/-- Induction over nameless types, with a hypothesis for every type in a list. -/
@[elab_as_elim, induction_eliminator]
theorem induct {motive : Nameless α → Prop}
    (prim : ∀ p, motive (.prim p))
    (container : ∀ kind elem, motive elem → motive (.container kind elem))
    (func : ∀ params result, (∀ p ∈ params, motive p.2) → motive result → motive (.func params result))
    (object : ∀ row, (∀ p ∈ row, motive p.2) → motive (.object row))
    (union : ∀ variants, (∀ v ∈ variants, ∀ p ∈ v.2, motive p.2) → motive (.union variants))
    (mu : ∀ body, motive body → motive (.mu body))
    (generic : ∀ arity body, motive body → motive (.generic arity body))
    (bound : ∀ i, motive (.bound i)) (free : ∀ x, motive (.free x)) (t : Nameless α) : motive t :=
  Nameless.rec (motive_1 := motive) (motive_2 := fun row => ∀ p ∈ row, motive p.2)
    (motive_3 := fun variants => ∀ v ∈ variants, ∀ p ∈ v.2, motive p.2)
    (motive_4 := fun p => motive p.2) (motive_5 := fun v => ∀ p ∈ v.2, motive p.2)
    prim container func object union mu generic bound free
    (by simp) (fun _ _ hp hps => List.forall_mem_cons.2 ⟨hp, hps⟩)
    (by simp) (fun _ _ hv hvs => List.forall_mem_cons.2 ⟨hv, hvs⟩)
    (fun _ _ h => h) (fun _ _ h => h) t

/-- Is the type headed by a recursive binder? -/
def isMu : Nameless α → Bool
  | .mu _ => true
  | _ => false

/-! ### Replacing leaves -/

mutual

/-- Replaces the leaves.  `f d i` comes for the bound variable `i` that stands below `d` binders, and `g d x` for the
free variable `x` that does. -/
def graft (f : Nat → Nat → Nameless β) (g : Nat → α → Nameless β) : Nameless α → Nameless β
  | .prim p => .prim p
  | .container k e => .container k (e.graft f g)
  | .func ps r => .func (graftRow f g ps) (r.graft f g)
  | .object ps => .object (graftRow f g ps)
  | .union vs => .union (graftVariants f g vs)
  | .mu b => .mu (b.graft (fun d => f (d + 1)) fun d => g (d + 1))
  | .generic n b => .generic n (b.graft (fun d => f (d + n)) fun d => g (d + n))
  | .bound i => f 0 i
  | .free x => g 0 x

/-- `graft` on rows. -/
def graftRow (f : Nat → Nat → Nameless β) (g : Nat → α → Nameless β) :
    List (Name × Nameless α) → List (Name × Nameless β)
  | [] => []
  | (n, t) :: ps => (n, t.graft f g) :: graftRow f g ps

/-- `graft` on variants. -/
def graftVariants (f : Nat → Nat → Nameless β) (g : Nat → α → Nameless β) :
    List (Name × List (Name × Nameless α)) → List (Name × List (Name × Nameless β))
  | [] => []
  | (l, ps) :: vs => (l, graftRow f g ps) :: graftVariants f g vs

end

section Graft

variable (f : Nat → Nat → Nameless β) (g : Nat → α → Nameless β)

theorem graftRow_eq_map (ps : List (Name × Nameless α)) :
    graftRow f g ps = ps.map fun p => (p.1, p.2.graft f g) := by
  induction ps with
  | nil => rfl
  | cons p ps ih => exact congrArg ((p.1, p.2.graft f g) :: ·) ih

theorem graftVariants_eq_map (vs : List (Name × List (Name × Nameless α))) :
    graftVariants f g vs = vs.map fun v => (v.1, v.2.map fun p => (p.1, p.2.graft f g)) := by
  induction vs with
  | nil => rfl
  | cons v vs ih =>
    show (v.1, graftRow f g v.2) :: graftVariants f g vs = _
    rw [graftRow_eq_map, ih, List.map_cons]

@[simp] theorem graft_prim (p : Prim) : (Nameless.prim p).graft f g = .prim p := rfl

@[simp] theorem graft_container (k : Container) (e : Nameless α) :
    (Nameless.container k e).graft f g = .container k (e.graft f g) := rfl

@[simp] theorem graft_func (ps : List (Name × Nameless α)) (r : Nameless α) :
    (Nameless.func ps r).graft f g = .func (ps.map fun p => (p.1, p.2.graft f g)) (r.graft f g) := by
  rw [← graftRow_eq_map]
  rfl

@[simp] theorem graft_object (ps : List (Name × Nameless α)) :
    (Nameless.object ps).graft f g = .object (ps.map fun p => (p.1, p.2.graft f g)) := by
  rw [← graftRow_eq_map]
  rfl

@[simp] theorem graft_union (vs : List (Name × List (Name × Nameless α))) :
    (Nameless.union vs).graft f g = .union (vs.map fun v => (v.1, v.2.map fun p => (p.1, p.2.graft f g))) := by
  rw [← graftVariants_eq_map]
  rfl

@[simp] theorem graft_mu (b : Nameless α) :
    (Nameless.mu b).graft f g = .mu (b.graft (fun d => f (d + 1)) fun d => g (d + 1)) := rfl

@[simp] theorem graft_generic (n : Nat) (b : Nameless α) :
    (Nameless.generic n b).graft f g = .generic n (b.graft (fun d => f (d + n)) fun d => g (d + n)) := rfl

@[simp] theorem graft_bound (i : Nat) : (Nameless.bound i).graft f g = f 0 i := rfl

@[simp] theorem graft_free (x : α) : (Nameless.free x).graft f g = g 0 x := rfl

end Graft

/-! ### What holds of all leaves -/

mutual

/-- All leaves satisfy a property: `B d i` is asked of a bound variable `i` that stands below `d` binders, and `A d x`
of a free variable `x` that does. -/
def Leaves (B : Nat → Nat → Prop) (A : Nat → α → Prop) : Nameless α → Prop
  | .prim _ => True
  | .container _ e => e.Leaves B A
  | .func ps r => LeavesRow B A ps ∧ r.Leaves B A
  | .object ps => LeavesRow B A ps
  | .union vs => LeavesVariants B A vs
  | .mu b => b.Leaves (fun d => B (d + 1)) fun d => A (d + 1)
  | .generic n b => b.Leaves (fun d => B (d + n)) fun d => A (d + n)
  | .bound i => B 0 i
  | .free x => A 0 x

/-- `Leaves` on rows. -/
def LeavesRow (B : Nat → Nat → Prop) (A : Nat → α → Prop) : List (Name × Nameless α) → Prop
  | [] => True
  | (_, t) :: ps => t.Leaves B A ∧ LeavesRow B A ps

/-- `Leaves` on variants. -/
def LeavesVariants (B : Nat → Nat → Prop) (A : Nat → α → Prop) :
    List (Name × List (Name × Nameless α)) → Prop
  | [] => True
  | (_, ps) :: vs => LeavesRow B A ps ∧ LeavesVariants B A vs

end

section Leaves

variable (B : Nat → Nat → Prop) (A : Nat → α → Prop)

theorem leavesRow_iff (ps : List (Name × Nameless α)) : LeavesRow B A ps ↔ ∀ p ∈ ps, p.2.Leaves B A := by
  induction ps with
  | nil => exact iff_of_true trivial (List.forall_mem_nil _)
  | cons p ps ih =>
    rw [List.forall_mem_cons, ← ih]
    rfl

theorem leavesVariants_iff (vs : List (Name × List (Name × Nameless α))) :
    LeavesVariants B A vs ↔ ∀ v ∈ vs, ∀ p ∈ v.2, p.2.Leaves B A := by
  induction vs with
  | nil => exact iff_of_true trivial (List.forall_mem_nil _)
  | cons v vs ih =>
    rw [List.forall_mem_cons, ← ih, ← leavesRow_iff]
    rfl

@[simp] theorem leaves_prim (p : Prim) : (Nameless.prim p).Leaves B A := trivial

@[simp] theorem leaves_container (k : Container) (e : Nameless α) :
    (Nameless.container k e).Leaves B A ↔ e.Leaves B A := Iff.rfl

@[simp] theorem leaves_func (ps : List (Name × Nameless α)) (r : Nameless α) :
    (Nameless.func ps r).Leaves B A ↔ (∀ p ∈ ps, p.2.Leaves B A) ∧ r.Leaves B A :=
  and_congr_left fun _ => leavesRow_iff B A ps

@[simp] theorem leaves_object (ps : List (Name × Nameless α)) :
    (Nameless.object ps).Leaves B A ↔ ∀ p ∈ ps, p.2.Leaves B A :=
  leavesRow_iff B A ps

@[simp] theorem leaves_union (vs : List (Name × List (Name × Nameless α))) :
    (Nameless.union vs).Leaves B A ↔ ∀ v ∈ vs, ∀ p ∈ v.2, p.2.Leaves B A :=
  leavesVariants_iff B A vs

@[simp] theorem leaves_mu (b : Nameless α) :
    (Nameless.mu b).Leaves B A ↔ b.Leaves (fun d => B (d + 1)) fun d => A (d + 1) := Iff.rfl

@[simp] theorem leaves_generic (n : Nat) (b : Nameless α) :
    (Nameless.generic n b).Leaves B A ↔ b.Leaves (fun d => B (d + n)) fun d => A (d + n) := Iff.rfl

@[simp] theorem leaves_bound (i : Nat) : (Nameless.bound i : Nameless α).Leaves B A ↔ B 0 i := Iff.rfl

@[simp] theorem leaves_free (x : α) : (Nameless.free x).Leaves B A ↔ A 0 x := Iff.rfl

end Leaves

theorem Leaves.mono {B B' : Nat → Nat → Prop} {A A' : Nat → α → Prop} {t : Nameless α} (h : t.Leaves B A)
    (hB : ∀ d i, B d i → B' d i) (hA : ∀ d x, A d x → A' d x) : t.Leaves B' A' := by
  induction t generalizing B B' A A' with
  | prim p => trivial
  | container k e ih => exact ih h hB hA
  | func ps r ihps ihr =>
    rw [leaves_func] at h ⊢
    exact ⟨fun p hp => ihps p hp (h.1 p hp) hB hA, ihr h.2 hB hA⟩
  | object ps ih =>
    rw [leaves_object] at h ⊢
    exact fun p hp => ih p hp (h p hp) hB hA
  | union vs ih =>
    rw [leaves_union] at h ⊢
    exact fun v hv p hp => ih v hv p hp (h v hv p hp) hB hA
  | mu b ih => exact ih h (fun d => hB (d + 1)) fun d => hA (d + 1)
  | generic n b ih => exact ih h (fun d => hB (d + n)) fun d => hA (d + n)
  | bound i => exact hB 0 i h
  | free x => exact hA 0 x h

theorem leaves_of_forall {B : Nat → Nat → Prop} {A : Nat → α → Prop} (hB : ∀ d i, B d i) (hA : ∀ d x, A d x)
    (t : Nameless α) : t.Leaves B A := by
  induction t generalizing B A with
  | prim p => trivial
  | container k e ih => exact ih hB hA
  | func ps r ihps ihr => exact (leaves_func ..).2 ⟨fun p hp => ihps p hp hB hA, ihr hB hA⟩
  | object ps ih => exact (leaves_object ..).2 fun p hp => ih p hp hB hA
  | union vs ih => exact (leaves_union ..).2 fun v hv p hp => ih v hv p hp hB hA
  | mu b ih => exact ih (fun d => hB (d + 1)) fun d => hA (d + 1)
  | generic n b ih => exact ih (fun d => hB (d + n)) fun d => hA (d + n)
  | bound i => exact hB 0 i
  | free x => exact hA 0 x

theorem Leaves.and {B B' : Nat → Nat → Prop} {A A' : Nat → α → Prop} {t : Nameless α} (h : t.Leaves B A)
    (h' : t.Leaves B' A') : t.Leaves (fun d i => B d i ∧ B' d i) fun d x => A d x ∧ A' d x := by
  induction t generalizing B B' A A' with
  | prim p => trivial
  | container k e ih => exact ih h h'
  | func ps r ihps ihr =>
    rw [leaves_func] at h h' ⊢
    exact ⟨fun p hp => ihps p hp (h.1 p hp) (h'.1 p hp), ihr h.2 h'.2⟩
  | object ps ih =>
    rw [leaves_object] at h h' ⊢
    exact fun p hp => ih p hp (h p hp) (h' p hp)
  | union vs ih =>
    rw [leaves_union] at h h' ⊢
    exact fun v hv p hp => ih v hv p hp (h v hv p hp) (h' v hv p hp)
  | mu b ih => exact ih h h'
  | generic n b ih => exact ih h h'
  | bound i => exact ⟨h, h'⟩
  | free x => exact ⟨h, h'⟩

/-! ### Laws of replacing -/

/-- Two replacements in a row are one. -/
theorem graft_graft (f : Nat → Nat → Nameless β) (g : Nat → α → Nameless β) (f' : Nat → Nat → Nameless γ)
    (g' : Nat → β → Nameless γ) (t : Nameless α) :
    (t.graft f g).graft f' g' =
      t.graft (fun d i => (f d i).graft (fun e => f' (e + d)) fun e => g' (e + d))
        (fun d x => (g d x).graft (fun e => f' (e + d)) fun e => g' (e + d)) := by
  induction t generalizing f g f' g' with
  | prim p => rfl
  | container k e ih => simp only [graft_container, ih]
  | func ps r ihps ihr =>
    simp only [graft_func, map_snd_map_snd, ihr]
    congr 1
    exact List.map_congr_left fun p hp => by rw [ihps p hp]
  | object ps ih =>
    simp only [graft_object, map_snd_map_snd]
    congr 1
    exact List.map_congr_left fun p hp => by rw [ih p hp]
  | union vs ih =>
    simp only [graft_union, map_snd_map_snd]
    congr 1
    refine List.map_congr_left fun v hv => ?_
    rw [List.map_congr_left fun p hp => by rw [ih v hv p hp]]
  | mu b ih => simp only [graft_mu, ih, Nat.add_assoc]
  | generic n b ih => simp only [graft_generic, ih, Nat.add_assoc]
  | bound i => rfl
  | free x => rfl

/-- Replacements that agree on the leaves of a type are the same for it. -/
theorem graft_congr {f f' : Nat → Nat → Nameless β} {g g' : Nat → α → Nameless β} {t : Nameless α}
    (h : t.Leaves (fun d i => f d i = f' d i) fun d x => g d x = g' d x) : t.graft f g = t.graft f' g' := by
  induction t generalizing f f' g g' with
  | prim p => rfl
  | container k e ih => rw [graft_container, graft_container, ih h]
  | func ps r ihps ihr =>
    rw [leaves_func] at h
    rw [graft_func, graft_func, map_snd_congr fun p hp => ihps p hp (h.1 p hp), ihr h.2]
  | object ps ih =>
    rw [leaves_object] at h
    rw [graft_object, graft_object, map_snd_congr fun p hp => ih p hp (h p hp)]
  | union vs ih =>
    rw [leaves_union] at h
    rw [graft_union, graft_union]
    congr 1
    exact List.map_congr_left fun v hv => by rw [map_snd_congr fun p hp => ih v hv p hp (h v hv p hp)]
  | mu b ih => rw [graft_mu, graft_mu, ih h]
  | generic n b ih => rw [graft_generic, graft_generic, ih h]
  | bound i => exact h
  | free x => exact h

@[simp] theorem graft_id (t : Nameless α) : t.graft (fun _ i => .bound i) (fun _ x => .free x) = t := by
  induction t with
  | prim p => rfl
  | container k e ih => rw [graft_container, ih]
  | func ps r ihps ihr => rw [graft_func, map_snd_eq_self ihps, ihr]
  | object ps ih => rw [graft_object, map_snd_eq_self ih]
  | union vs ih => rw [graft_union, map_snd_eq_self fun v hv => map_snd_eq_self (ih v hv)]
  | mu b ih => rw [graft_mu, ih]
  | generic n b ih => rw [graft_generic, ih]
  | bound i => rfl
  | free x => rfl

theorem graft_eq_self {f : Nat → Nat → Nameless α} {g : Nat → α → Nameless α} {t : Nameless α}
    (h : t.Leaves (fun d i => f d i = .bound i) fun d x => g d x = .free x) : t.graft f g = t := by
  rw [graft_congr h, graft_id]

theorem leaves_graft {B : Nat → Nat → Prop} {A : Nat → β → Prop} (f : Nat → Nat → Nameless β)
    (g : Nat → α → Nameless β) (t : Nameless α) :
    (t.graft f g).Leaves B A ↔
      t.Leaves (fun d i => (f d i).Leaves (fun e => B (e + d)) fun e => A (e + d))
        fun d x => (g d x).Leaves (fun e => B (e + d)) fun e => A (e + d) := by
  induction t generalizing f g B A with
  | prim p => exact Iff.rfl
  | container k e ih => simp only [graft_container, leaves_container, ih]
  | func ps r ihps ihr =>
    simp only [graft_func, leaves_func, List.forall_mem_map, ihr]
    exact and_congr (forall₂_congr fun p hp => ihps p hp f g) Iff.rfl
  | object ps ih =>
    simp only [graft_object, leaves_object, List.forall_mem_map]
    exact forall₂_congr fun p hp => ih p hp f g
  | union vs ih =>
    simp only [graft_union, leaves_union, List.forall_mem_map]
    exact forall₂_congr fun v hv => forall₂_congr fun p hp => ih v hv p hp f g
  | mu b ih => simp only [graft_mu, leaves_mu, ih, Nat.add_assoc]
  | generic n b ih => simp only [graft_generic, leaves_generic, ih, Nat.add_assoc]
  | bound i => exact Iff.rfl
  | free x => exact Iff.rfl

end Nameless

end MuTypes
