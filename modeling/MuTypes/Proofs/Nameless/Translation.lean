import MuTypes.Proofs.Nameless.WellFormed
import MuTypes.Ty.Free

/-!
# The nameless form of a type

`Ty.nameless ctx` reads a type below binders with the names `ctx`, innermost first.  It depends only on where the free
names of the type stand in `ctx` (`nameless_congr`), its labels are the free names outside `ctx`
(`has_nameless_iff`), and leaving binders out of `ctx` opens them with their own names (`nameless_eq_openAt`).
-/

namespace MuTypes

open Nameless

/-- The number of binders between a variable and its own, for binders given innermost first. -/
def place (ctx : List Name) (x : Name) : Option Nat :=
  ctx.findIdx? (· = x)

/-- The leaf that a variable becomes below the binders. -/
def leaf (ctx : List Name) (x : Name) : Nameless Name :=
  match place ctx x with
  | some i => .bound i
  | none => .free x

theorem place_eq_none_iff {ctx : List Name} {x : Name} : place ctx x = none ↔ x ∉ ctx := by
  rw [place, List.findIdx?_eq_none_iff]
  constructor
  · intro h hx
    simpa using h x hx
  · intro h y hy
    simpa using fun e : y = x => h (e ▸ hy)

theorem place_append (ns ctx : List Name) (x : Name) :
    place (ns ++ ctx) x = (place ns x).or ((place ctx x).map (· + ns.length)) := by
  simp [place, List.findIdx?_append]

theorem place_eq_some {ctx : List Name} {x : Name} {i : Nat} (h : place ctx x = some i) :
    i < ctx.length ∧ ctx[i]? = some x := by
  obtain ⟨hi, hx, _⟩ := List.findIdx?_eq_some_iff_getElem.1 h
  exact ⟨hi, by rw [List.getElem?_eq_getElem hi, of_decide_eq_true hx]⟩

theorem place_append_of_mem {ns : List Name} {x : Name} (h : x ∈ ns) (ctx : List Name) :
    place (ns ++ ctx) x = place ns x := by
  rw [place_append]
  cases hp : place ns x with
  | some i => rfl
  | none => exact absurd h (place_eq_none_iff.1 hp)

theorem place_append_of_not_mem {ns : List Name} {x : Name} (h : x ∉ ns) (ctx : List Name) :
    place (ns ++ ctx) x = (place ctx x).map (· + ns.length) := by
  rw [place_append, place_eq_none_iff.2 h]
  rfl

theorem leaf_of_not_mem {ctx : List Name} {x : Name} (h : x ∉ ctx) : leaf ctx x = .free x := by
  rw [leaf, place_eq_none_iff.2 h]

/-- The leaf that a label becomes below `d` binders that stand below the binders `ctx`. -/
def leafBelow (ctx : List Name) (d : Nat) (x : Name) : Nameless Name :=
  match place ctx x with
  | some i => .bound (i + d)
  | none => .free x

theorem leafBelow_of_not_mem {ctx : List Name} {x : Name} (h : x ∉ ctx) (d : Nat) : leafBelow ctx d x = .free x := by
  rw [leafBelow, place_eq_none_iff.2 h]

theorem leafBelow_congr {ctx ctx' : List Name} {x : Name} (h : place ctx x = place ctx' x) (d : Nat) :
    leafBelow ctx d x = leafBelow ctx' d x := by
  rw [leafBelow, leafBelow, h]

/-- Binds the labels that are among the names of the binders. -/
def Nameless.enclose (ctx : List Name) (t : Nameless Name) : Nameless Name :=
  t.graft (fun _ i => .bound i) (leafBelow ctx)

namespace Ty

mutual

/-- The nameless form of a type below binders with the given names, innermost first. -/
def nameless (ctx : List Name) : Ty → Nameless Name
  | .prim p => .prim p
  | .container k e => .container k (e.nameless ctx)
  | .func ps r => .func (namelessRow ctx ps) (r.nameless ctx)
  | .object ps => .object (namelessRow ctx ps)
  | .union vs => .union (namelessVariants ctx vs)
  | .mu n b => .mu (b.nameless (n :: ctx))
  | .generic ns b => .generic ns.length (b.nameless (ns.reverse ++ ctx))
  | .var x => leaf ctx x

/-- `nameless` on rows. -/
def namelessRow (ctx : List Name) : Row → List (Name × Nameless Name)
  | [] => []
  | (n, t) :: ps => (n, t.nameless ctx) :: namelessRow ctx ps

/-- `nameless` on variants. -/
def namelessVariants (ctx : List Name) : Variants → List (Name × List (Name × Nameless Name))
  | [] => []
  | (l, ps) :: vs => (l, namelessRow ctx ps) :: namelessVariants ctx vs

end

/-- The nameless form of a type that stands below no binders. -/
abbrev bare (t : Ty) : Nameless Name :=
  t.nameless []

section Equations

variable (ctx : List Name)

theorem namelessRow_eq_map (ps : Row) : namelessRow ctx ps = ps.map fun p => (p.1, p.2.nameless ctx) := by
  induction ps with
  | nil => rfl
  | cons p ps ih => exact congrArg ((p.1, p.2.nameless ctx) :: ·) ih

theorem namelessVariants_eq_map (vs : Variants) :
    namelessVariants ctx vs = vs.map fun v => (v.1, v.2.map fun p => (p.1, p.2.nameless ctx)) := by
  induction vs with
  | nil => rfl
  | cons v vs ih =>
    show (v.1, namelessRow ctx v.2) :: namelessVariants ctx vs = _
    rw [namelessRow_eq_map, ih, List.map_cons]

@[simp] theorem nameless_prim (p : Prim) : (Ty.prim p).nameless ctx = .prim p := rfl

@[simp] theorem nameless_container (k : Container) (e : Ty) :
    (Ty.container k e).nameless ctx = .container k (e.nameless ctx) := rfl

@[simp] theorem nameless_func (ps : Row) (r : Ty) :
    (Ty.func ps r).nameless ctx = .func (ps.map fun p => (p.1, p.2.nameless ctx)) (r.nameless ctx) := by
  rw [← namelessRow_eq_map]
  rfl

@[simp] theorem nameless_object (ps : Row) :
    (Ty.object ps).nameless ctx = .object (ps.map fun p => (p.1, p.2.nameless ctx)) := by
  rw [← namelessRow_eq_map]
  rfl

@[simp] theorem nameless_union (vs : Variants) :
    (Ty.union vs).nameless ctx = .union (vs.map fun v => (v.1, v.2.map fun p => (p.1, p.2.nameless ctx))) := by
  rw [← namelessVariants_eq_map]
  rfl

@[simp] theorem nameless_mu (n : Name) (b : Ty) : (Ty.mu n b).nameless ctx = .mu (b.nameless (n :: ctx)) := rfl

@[simp] theorem nameless_generic (ns : List Name) (b : Ty) :
    (Ty.generic ns b).nameless ctx = .generic ns.length (b.nameless (ns.reverse ++ ctx)) := rfl

@[simp] theorem nameless_var (x : Name) : (Ty.var x).nameless ctx = leaf ctx x := rfl

end Equations

section Bare

@[simp] theorem bare_func (ps : Row) (r : Ty) :
    (Ty.func ps r).bare = .func (ps.map fun p => (p.1, p.2.bare)) r.bare :=
  nameless_func [] ps r

@[simp] theorem bare_object (ps : Row) : (Ty.object ps).bare = .object (ps.map fun p => (p.1, p.2.bare)) :=
  nameless_object [] ps

@[simp] theorem bare_union (vs : Variants) :
    (Ty.union vs).bare = .union (vs.map fun v => (v.1, v.2.map fun p => (p.1, p.2.bare))) :=
  nameless_union [] vs

@[simp] theorem bare_generic (ns : List Name) (b : Ty) :
    (Ty.generic ns b).bare = .generic ns.length (b.nameless ns.reverse) := by
  rw [bare, nameless_generic, List.append_nil]

@[simp] theorem bare_var (x : Name) : (Ty.var x).bare = .free x :=
  leaf_of_not_mem List.not_mem_nil

end Bare

theorem isMu_nameless (ctx : List Name) (t : Ty) : (t.nameless ctx).isMu = t.isMu := by
  cases t with
  | var x =>
    rw [nameless_var, leaf]
    cases place ctx x <;> rfl
  | func ps r => rw [nameless_func]; rfl
  | object ps => rw [nameless_object]; rfl
  | union vs => rw [nameless_union]; rfl
  | _ => rfl

/-! ### Free names -/

section Mentions

variable (x : Name)

@[simp] theorem mentions_prim (p : Prim) : (Ty.prim p).mentions x = false := rfl

@[simp] theorem mentions_container (k : Container) (e : Ty) : (Ty.container k e).mentions x = e.mentions x := rfl

@[simp] theorem mentions_func (ps : Row) (r : Ty) :
    (Ty.func ps r).mentions x = true ↔ (∃ p ∈ ps, p.2.mentions x = true) ∨ r.mentions x = true := by
  rw [← List.any_eq_true, ← mentionsInRow_eq_any]
  exact Bool.or_eq_true_iff

@[simp] theorem mentions_object (ps : Row) :
    (Ty.object ps).mentions x = true ↔ ∃ p ∈ ps, p.2.mentions x = true := by
  rw [← List.any_eq_true, ← mentionsInRow_eq_any]
  rfl

@[simp] theorem mentions_union (vs : Variants) :
    (Ty.union vs).mentions x = true ↔ ∃ v ∈ vs, ∃ p ∈ v.2, p.2.mentions x = true := by
  show mentionsInVariants x vs = true ↔ _
  simp [mentionsInVariants_eq_any]

@[simp] theorem mentions_mu (n : Name) (b : Ty) :
    (Ty.mu n b).mentions x = true ↔ n ≠ x ∧ b.mentions x = true := by
  show (decide (n ≠ x) && b.mentions x) = true ↔ _
  rw [Bool.and_eq_true, decide_eq_true_eq]

@[simp] theorem mentions_generic (ns : List Name) (b : Ty) :
    (Ty.generic ns b).mentions x = true ↔ x ∉ ns ∧ b.mentions x = true := by
  show (decide (x ∉ ns) && b.mentions x) = true ↔ _
  rw [Bool.and_eq_true, decide_eq_true_eq]

@[simp] theorem mentions_var (y : Name) : (Ty.var y).mentions x = true ↔ y = x :=
  decide_eq_true_iff

end Mentions

/-- Only the places of the free names matter. -/
theorem nameless_congr {ctx ctx' : List Name} {t : Ty}
    (h : ∀ x, t.mentions x = true → place ctx x = place ctx' x) : t.nameless ctx = t.nameless ctx' := by
  induction t generalizing ctx ctx' with
  | prim p => rfl
  | container k e ih => rw [nameless_container, nameless_container, ih h]
  | func ps r ihps ihr =>
    simp only [mentions_func] at h
    rw [nameless_func, nameless_func, ihr fun x hx => h x (.inr hx),
      map_snd_congr fun p hp => ihps p hp fun x hx => h x (.inl ⟨p, hp, hx⟩)]
  | object ps ih =>
    simp only [mentions_object] at h
    rw [nameless_object, nameless_object, map_snd_congr fun p hp => ih p hp fun x hx => h x ⟨p, hp, hx⟩]
  | union vs ih =>
    simp only [mentions_union] at h
    rw [nameless_union, nameless_union]
    congr 1
    exact List.map_congr_left fun v hv => by
      rw [map_snd_congr fun p hp => ih v hv p hp fun x hx => h x ⟨v, hv, p, hp, hx⟩]
  | mu n b ih =>
    rw [nameless_mu, nameless_mu, ih fun x hx => ?_]
    show place ([n] ++ ctx) x = place ([n] ++ ctx') x
    by_cases hn : x ∈ [n]
    · rw [place_append_of_mem hn, place_append_of_mem hn]
    · rw [place_append_of_not_mem hn, place_append_of_not_mem hn,
        h x ((mentions_mu ..).2 ⟨fun e => hn (by simp [e]), hx⟩)]
  | generic ns b ih =>
    rw [nameless_generic, nameless_generic, ih fun x hx => ?_]
    by_cases hn : x ∈ ns.reverse
    · rw [place_append_of_mem hn, place_append_of_mem hn]
    · rw [place_append_of_not_mem hn, place_append_of_not_mem hn,
        h x ((mentions_generic ..).2 ⟨fun e => hn (by simpa using e), hx⟩)]
  | var x => rw [nameless_var, nameless_var, leaf, leaf, h x (by simp)]

/-- The variables that are not free are bound by a binder of the type or of `ctx`. -/
theorem closedAt_nameless (ctx : List Name) (t : Ty) : (t.nameless ctx).ClosedAt ctx.length := by
  induction t generalizing ctx with
  | prim p => exact leaves_prim ..
  | container k e ih => exact ih ctx
  | func ps r ihps ihr =>
    rw [nameless_func, ClosedAt, leaves_func, List.forall_mem_map]
    exact ⟨fun p hp => ihps p hp ctx, ihr ctx⟩
  | object ps ih =>
    rw [nameless_object, ClosedAt, leaves_object, List.forall_mem_map]
    exact fun p hp => ih p hp ctx
  | union vs ih =>
    rw [nameless_union, ClosedAt, leaves_union, List.forall_mem_map]
    exact fun v hv => List.forall_mem_map.2 fun p hp => ih v hv p hp ctx
  | mu n b ih =>
    rw [nameless_mu, closedAt_mu]
    exact ih (n :: ctx)
  | generic ns b ih =>
    rw [nameless_generic, closedAt_generic]
    have h := ih (ns.reverse ++ ctx)
    rwa [List.length_append, List.length_reverse, Nat.add_comm] at h
  | var x =>
    rw [nameless_var, leaf]
    cases h : place ctx x with
    | none => trivial
    | some i =>
      have hi := (place_eq_some h).1
      show i < 0 + ctx.length
      omega

theorem leaves_nameless_iff {A : Name → Prop} (ctx : List Name) (t : Ty) :
    (t.nameless ctx).Leaves (fun _ _ => True) (fun _ x => A x) ↔ ∀ x, t.mentions x = true → x ∉ ctx → A x := by
  induction t generalizing ctx with
  | prim p => simp
  | container k e ih => simpa using ih ctx
  | func ps r ihps ihr =>
    rw [nameless_func, leaves_func, List.forall_mem_map, ihr ctx]
    rw [forall₂_congr fun p hp => ihps p hp ctx]
    simp only [mentions_func]
    constructor
    · rintro ⟨hps, hr⟩ x (⟨p, hp, hx⟩ | hx) hn
      · exact hps p hp x hx hn
      · exact hr x hx hn
    · exact fun h => ⟨fun p hp x hx => h x (.inl ⟨p, hp, hx⟩), fun x hx => h x (.inr hx)⟩
  | object ps ih =>
    rw [nameless_object, leaves_object, List.forall_mem_map, forall₂_congr fun p hp => ih p hp ctx]
    simp only [mentions_object]
    constructor
    · rintro h x ⟨p, hp, hx⟩ hn
      exact h p hp x hx hn
    · exact fun h p hp x hx => h x ⟨p, hp, hx⟩
  | union vs ih =>
    rw [nameless_union, leaves_union, List.forall_mem_map]
    simp only [List.forall_mem_map, mentions_union]
    constructor
    · rintro h x ⟨v, hv, p, hp, hx⟩ hn
      exact (ih v hv p hp ctx).1 (h v hv p hp) x hx hn
    · exact fun h v hv p hp => (ih v hv p hp ctx).2 fun x hx => h x ⟨v, hv, p, hp, hx⟩
  | mu n b ih =>
    rw [nameless_mu, leaves_mu, ih (n :: ctx)]
    simp only [mentions_mu, List.mem_cons, not_or]
    exact ⟨fun h x hx hn => h x hx.2 ⟨fun e => hx.1 e.symm, hn⟩, fun h x hx hn => h x ⟨fun e => hn.1 e.symm, hx⟩ hn.2⟩
  | generic ns b ih =>
    rw [nameless_generic, leaves_generic, ih (ns.reverse ++ ctx)]
    simp only [mentions_generic, List.mem_append, List.mem_reverse, not_or]
    exact ⟨fun h x hx hn => h x hx.2 ⟨hx.1, hn⟩, fun h x hx hn => h x ⟨hn.1, hx⟩ hn.2⟩
  | var y =>
    simp only [nameless_var, mentions_var, forall_eq']
    by_cases hy : y ∈ ctx
    · cases h : place ctx y with
      | none => exact absurd hy (place_eq_none_iff.1 h)
      | some i => simp [leaf, h, hy]
    · simp [leaf_of_not_mem hy, hy]

/-- The labels of the nameless form are the free names that are not in `ctx`. -/
theorem has_nameless_iff {ctx : List Name} {t : Ty} {x : Name} :
    (t.nameless ctx).Has x ↔ t.mentions x = true ∧ x ∉ ctx := by
  rw [Has, leaves_nameless_iff]
  constructor
  · intro h
    by_cases hx : t.mentions x = true ∧ x ∉ ctx
    · exact hx
    · exact absurd (fun y hy hn (e : y = x) => hx (e ▸ ⟨hy, hn⟩)) h
  · rintro ⟨hx, hn⟩ h
    exact h x hx hn rfl

/-- Further binders around a type bind its labels. -/
theorem nameless_append (ctx ns : List Name) (t : Ty) :
    t.nameless (ctx ++ ns) =
      (t.nameless ctx).graft (fun _ i => .bound i) fun d => leafBelow ns (d + ctx.length) := by
  induction t generalizing ctx with
  | prim p => rfl
  | container k e ih => exact congrArg _ (ih ctx)
  | func ps r ihps ihr =>
    rw [nameless_func, nameless_func, graft_func, map_snd_map_snd, ihr ctx]
    congr 1
    exact List.map_congr_left fun p hp => by rw [ihps p hp ctx]
  | object ps ih =>
    rw [nameless_object, nameless_object, graft_object, map_snd_map_snd]
    congr 1
    exact List.map_congr_left fun p hp => by rw [ih p hp ctx]
  | union vs ih =>
    rw [nameless_union, nameless_union, graft_union, map_snd_map_snd]
    congr 1
    refine List.map_congr_left fun v hv => ?_
    rw [map_snd_map_snd, List.map_congr_left fun p hp => by rw [ih v hv p hp ctx]]
  | mu n b ih =>
    rw [nameless_mu, nameless_mu, graft_mu, ← List.cons_append, ih (n :: ctx)]
    simp only [List.length_cons, Nat.add_assoc, Nat.add_comm 1]
  | generic ms b ih =>
    rw [nameless_generic, nameless_generic, graft_generic, ← List.append_assoc, ih (ms.reverse ++ ctx)]
    simp only [List.length_append, List.length_reverse, Nat.add_assoc]
  | var x =>
    rw [nameless_var, nameless_var, leaf, leaf, place_append]
    cases h : place ctx x with
    | some i => rfl
    | none =>
      rw [graft_free, leafBelow, Option.none_or]
      cases place ns x <;> simp

theorem nameless_eq_enclose (ctx : List Name) (t : Ty) : t.nameless ctx = t.bare.enclose ctx :=
  nameless_append [] ctx t

/-- Binders left out of `ctx` are opened with their own names. -/
theorem nameless_eq_openAt (ctx ns : List Name) (t : Ty) :
    t.nameless ctx = (t.nameless (ctx ++ ns)).openAt ctx.length (ns.map .free) := by
  induction t generalizing ctx with
  | prim p => rfl
  | container k e ih => exact congrArg _ (ih ctx)
  | func ps r ihps ihr =>
    rw [nameless_func, nameless_func, openAt_func, map_snd_map_snd, ihr ctx]
    congr 1
    exact List.map_congr_left fun p hp => by rw [ihps p hp ctx]
  | object ps ih =>
    rw [nameless_object, nameless_object, openAt_object, map_snd_map_snd]
    congr 1
    exact List.map_congr_left fun p hp => by rw [ih p hp ctx]
  | union vs ih =>
    rw [nameless_union, nameless_union, openAt_union, map_snd_map_snd]
    congr 1
    refine List.map_congr_left fun v hv => ?_
    rw [map_snd_map_snd, List.map_congr_left fun p hp => by rw [ih v hv p hp ctx]]
  | mu n b ih => rw [nameless_mu, nameless_mu, openAt_mu, ih (n :: ctx)]; rfl
  | generic ms b ih =>
    rw [nameless_generic, nameless_generic, openAt_generic, ih (ms.reverse ++ ctx), List.append_assoc,
      List.length_append, List.length_reverse, Nat.add_comm]
  | var x =>
    rw [nameless_var, nameless_var, leaf, leaf, place_append]
    cases h : place ctx x with
    | some i =>
      have hi := (place_eq_some h).1
      simp [openAt, opened, hi]
    | none =>
      cases h' : place ns x with
      | none => simp [openAt]
      | some i =>
        have hi := (place_eq_some h').2
        simp [openAt, opened, hi]

end Ty

end MuTypes
