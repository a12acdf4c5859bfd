import MuTypes.Proofs.Nameless.Paths
import MuTypes.Proofs.Termination

/-!
# Types without generic types in them

A monomorphic type keeps its free names: neither unrolling nor going to a part brings in another one
(`Path.monomorphic`).  So comparing monomorphic types ends (`Monomorphic.settles`), and the binders of a comparison
stay those of the scope (`Comparison.MonomorphicIn`).
-/

namespace MuTypes

namespace Nameless

variable {α β : Type}

/-- There is no generic type in the type. -/
inductive Monomorphic : Nameless α → Prop where
  | prim (p : Prim) : Monomorphic (.prim p)
  | container {k : Container} {e : Nameless α} (he : Monomorphic e) : Monomorphic (.container k e)
  | func {ps : List (Name × Nameless α)} {r : Nameless α} (hps : ∀ p ∈ ps, Monomorphic p.2) (hr : Monomorphic r) :
    Monomorphic (.func ps r)
  | object {ps : List (Name × Nameless α)} (hps : ∀ p ∈ ps, Monomorphic p.2) : Monomorphic (.object ps)
  | union {vs : List (Name × List (Name × Nameless α))} (hvs : ∀ v ∈ vs, ∀ p ∈ v.2, Monomorphic p.2) :
    Monomorphic (.union vs)
  | mu {b : Nameless α} (hb : Monomorphic b) : Monomorphic (.mu b)
  | bound (i : Nat) : Monomorphic (.bound i)
  | free (x : α) : Monomorphic (.free x)

theorem monomorphic_graft {f : Nat → Nat → Nameless β} {g : Nat → α → Nameless β} (hf : ∀ d i, (f d i).Monomorphic)
    (hg : ∀ d x, (g d x).Monomorphic) {t : Nameless α} (h : t.Monomorphic) : (t.graft f g).Monomorphic := by
  induction h generalizing f g with
  | prim p => exact .prim p
  | container _ ih => exact .container (ih hf hg)
  | func _ _ ihps ihr =>
    rw [graft_func]
    exact .func (List.forall_mem_map.2 fun p hp => ihps p hp hf hg) (ihr hf hg)
  | object _ ih =>
    rw [graft_object]
    exact .object (List.forall_mem_map.2 fun p hp => ih p hp hf hg)
  | union _ ih =>
    rw [graft_union]
    exact .union (List.forall_mem_map.2 fun v hv => List.forall_mem_map.2 fun p hp => ih v hv p hp hf hg)
  | mu _ ih => exact .mu (ih (fun d => hf (d + 1)) fun d => hg (d + 1))
  | bound i => exact hf 0 i
  | free x => exact hg 0 x

namespace Monomorphic

variable {t u : Nameless α}

theorem unrollOnce (h : t.Monomorphic) : t.unrollOnce.Monomorphic := by
  cases h with
  | @mu b hb =>
    refine monomorphic_graft (fun d i => ?_) (fun _ x => .free x) hb
    rcases opened_mem_or 0 d i [Nameless.mu b] with hi | hi
    · rw [hi]
      exact .bound i
    · rw [List.mem_singleton.1 hi]
      exact .mu hb
  | prim p => exact .prim p
  | container he => exact .container he
  | func hps hr => exact .func hps hr
  | object hps => exact .object hps
  | union hvs => exact .union hvs
  | bound i => exact .bound i
  | free x => exact .free x

theorem unroll (h : t.Monomorphic) : t.unroll.Monomorphic := by
  unfold Nameless.unroll
  generalize t.muCount = k
  induction k generalizing t with
  | zero => exact h
  | succ k ih => exact ih h.unrollOnce

/-- The children of a monomorphic type are monomorphic, and their labels are labels of the type. -/
theorem child (h : t.Monomorphic) (hc : Child t u) : u.Monomorphic ∧ ∀ x, u.Has x → t.Has x := by
  cases hc with
  | body _ => cases h
  | piece hu =>
    cases h with
    | container he =>
      obtain rfl := List.mem_singleton.1 hu
      exact ⟨he, fun _ hx => hx⟩
    | func hps hr =>
      rcases mem_pieces_func.1 hu with rfl | ⟨p, hp, rfl⟩
      · exact ⟨hr, fun _ hx => has_func.2 (.inr hx)⟩
      · exact ⟨hps p hp, fun _ hx => has_func.2 (.inl ⟨p, hp, hx⟩)⟩
    | object hps =>
      obtain ⟨p, hp, rfl⟩ := mem_pieces_object.1 hu
      exact ⟨hps p hp, fun _ hx => has_object.2 ⟨p, hp, hx⟩⟩
    | union hvs =>
      obtain ⟨v, hv, p, hp, rfl⟩ := mem_pieces_union.1 hu
      exact ⟨hvs v hv p hp, fun _ hx => has_union.2 ⟨v, hv, p, hp, hx⟩⟩
    | _ => simp [pieces] at hu

end Monomorphic

/-- On a path that starts with a monomorphic type no labels come up but those of the start. -/
theorem Path.monomorphic {p : Nat → Nameless α} (hp : Path p) (h : (p 0).Monomorphic) (i : Nat) :
    (p i).Monomorphic ∧ ∀ x, (p i).Has x → (p 0).Has x := by
  induction i with
  | zero => exact ⟨h, fun _ hx => hx⟩
  | succ i ih =>
    obtain ⟨hm, hhas⟩ := ih.1.unroll.child (hp i)
    exact ⟨hm, fun x hx => ih.2 x (has_unroll (hhas x hx))⟩

end Nameless

namespace Ty

open Nameless NameSupply

/-- There is no generic type in the type. -/
inductive Monomorphic : Ty → Prop where
  | prim (p : Prim) : Monomorphic (.prim p)
  | container {k : Container} {e : Ty} (he : Monomorphic e) : Monomorphic (.container k e)
  | func {ps : Row} {r : Ty} (hps : ∀ p ∈ ps, Monomorphic p.2) (hr : Monomorphic r) : Monomorphic (.func ps r)
  | object {ps : Row} (hps : ∀ p ∈ ps, Monomorphic p.2) : Monomorphic (.object ps)
  | union {vs : Variants} (hvs : ∀ v ∈ vs, ∀ p ∈ v.2, Monomorphic p.2) : Monomorphic (.union vs)
  | mu {n : Name} {b : Ty} (hb : Monomorphic b) : Monomorphic (.mu n b)
  | var (x : Name) : Monomorphic (.var x)

theorem Monomorphic.nameless {t : Ty} (h : t.Monomorphic) (ctx : List Name) : (t.nameless ctx).Monomorphic := by
  induction h generalizing ctx with
  | prim p => exact .prim p
  | container _ ih => exact .container (ih ctx)
  | func _ _ ihps ihr =>
    rw [nameless_func]
    exact .func (List.forall_mem_map.2 fun p hp => ihps p hp ctx) (ihr ctx)
  | object _ ih =>
    rw [nameless_object]
    exact .object (List.forall_mem_map.2 fun p hp => ih p hp ctx)
  | union _ ih =>
    rw [nameless_union]
    exact .union (List.forall_mem_map.2 fun v hv => List.forall_mem_map.2 fun p hp => ih v hv p hp ctx)
  | @mu n b _ ih => exact .mu (ih (n :: ctx))
  | var x =>
    rw [nameless_var, leaf]
    split
    · exact .bound _
    · exact .free x

theorem Monomorphic.bare {t : Ty} (h : t.Monomorphic) : t.bare.Monomorphic :=
  h.nameless []

/-- A part of a monomorphic type stands below no further binders. -/
theorem Part.eq_nil_of_monomorphic {t u : Ty} {ns : List Name} (h : Part t ns u) (ht : t.bare.Monomorphic) :
    ns = [] := by
  cases h with
  | body =>
    rw [bare_generic] at ht
    cases ht
  | _ => rfl

/-- The walk from a comparison with a monomorphic type on one side is answered with enough fuel. -/
theorem Monomorphic.settles {p : Position} (hr : p.comparison.Ready p.supply) (right : Bool)
    (h : (p.side right).Monomorphic) : p.Settles := by
  refine (settles_iff_bounded hr).2 fun w h0 hw => ⟨right, (p.side right).freeNames, fun i x hx => ?_⟩
  subst h0
  have hpath := hw.path hr right
  have hhas := (hpath.monomorphic h.bare i).2 x (has_nameless_iff.2 ⟨hx, List.not_mem_nil⟩)
  exact mem_freeNames_iff.2 (has_nameless_iff.1 hhas).1

/-! ### Comparisons of monomorphic types in a scope -/

/-- Both types are monomorphic, and the binders are those of the scope. -/
structure Comparison.MonomorphicIn (scope : List Name) (c : Comparison) : Prop where
  binders : c.binders = .ofScope scope
  expected : c.expected.bare.Monomorphic
  actual : c.actual.bare.Monomorphic

theorem swap_ofScope (scope : List Name) : (Binders.ofScope scope).swap = .ofScope scope := by
  rw [Binders.ofScope, Binders.enter, List.append_nil, Binders.swap, List.map_reverse, List.zip_swap]

namespace Comparison.MonomorphicIn

variable {scope : List Name} {c d : Comparison}

theorem part (h : c.MonomorphicIn scope) (hd : d.PartOf c) : d.MonomorphicIn scope := by
  rcases hd with ⟨ns, ms, -, hb, he, ha⟩ | ⟨hb, he, ha⟩
  · obtain rfl := he.eq_nil_of_monomorphic h.expected
    obtain rfl := ha.eq_nil_of_monomorphic h.actual
    exact ⟨hb.trans h.binders, (h.expected.child he.child).1, (h.actual.child ha.child).1⟩
  · refine ⟨?_, (h.actual.child ha.child).1, (h.expected.child he.child).1⟩
    rw [hb, h.binders, swap_ofScope]

theorem unrolled (h : c.MonomorphicIn scope) (hd : d.UnrolledFrom c) : d.MonomorphicIn scope :=
  ⟨hd.binders.trans h.binders, hd.expected ▸ h.expected.unroll, hd.actual ▸ h.actual.unroll⟩

end Comparison.MonomorphicIn

end Ty

end MuTypes
