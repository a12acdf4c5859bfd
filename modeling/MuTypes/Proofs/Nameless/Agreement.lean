import MuTypes.Proofs.Nameless.Alike
import MuTypes.Ty.Fits

/-!
# Agreement of nameless types

Two nameless types are compared below the same number of binders, whose levels are the labels of their free
variables.  `Comparison.Agree k` says that one fits where the other is required as far as `k` unrollings show.  It
depends on the two types only up to the order of entries, and on levels only as far as they tell which variables of
the two types are paired (`Agree.of_embeds`): so what was found below some binders holds below others that pair the
same variables.
-/

namespace MuTypes

/-- What a comparison of expected entries with those offered under their names asks: `part` for each pair, and
`none` where nothing is offered. -/
def offered {τ γ : Type} (part : τ → τ → List (Option γ)) (expected actual : List (Name × τ)) : List (Option γ) :=
  expected.flatMap fun p =>
    match actual.lookup p.1 with
    | some q => part p.2 q
    | none => [none]

theorem mem_offered {τ γ : Type} {part : τ → τ → List (Option γ)} {ps qs : List (Name × τ)} {o : Option γ} :
    o ∈ offered part ps qs ↔
      ∃ p ∈ ps, (∃ q, qs.lookup p.1 = some q ∧ o ∈ part p.2 q) ∨ qs.lookup p.1 = none ∧ o = none := by
  rw [offered, List.mem_flatMap]
  refine exists_congr fun p => and_congr_right fun _ => ?_
  cases qs.lookup p.1 <;> simp

/-- Where no comparison fails, everything expected is offered. -/
theorem exists_lookup_of_offered {τ γ : Type} {part : τ → τ → List (Option γ)} {ps qs : List (Name × τ)}
    (h : none ∉ offered part ps qs) {p : Name × τ} (hp : p ∈ ps) :
    ∃ q, qs.lookup p.1 = some q ∧ none ∉ part p.2 q := by
  cases hq : qs.lookup p.1 with
  | none => exact absurd (mem_offered.2 ⟨p, hp, .inr ⟨hq, rfl⟩⟩) h
  | some q => exact ⟨q, rfl, fun hn => h (mem_offered.2 ⟨p, hp, .inl ⟨q, hq, hn⟩⟩)⟩

namespace Nameless

/-- Two types to be compared below `depth` binders; the labels are the levels of these, outermost first. -/
structure Comparison where
  depth : Nat
  fit : Fit
  expected : Nameless Nat
  actual : Nameless Nat

/-- The next `arity` levels, innermost first. -/
def levels (depth arity : Nat) : List (Nameless Nat) :=
  (List.range arity).map fun j => .free (depth + (arity - 1 - j))

theorem length_levels (n m : Nat) : (levels n m).length = m := by
  simp [levels]

theorem mem_levels {n m : Nat} {v : Nameless Nat} (h : v ∈ levels n m) : ∃ x, v = .free x ∧ n ≤ x ∧ x < n + m := by
  obtain ⟨j, hj, rfl⟩ := List.mem_map.1 h
  rw [List.mem_range] at hj
  exact ⟨_, rfl, Nat.le_add_right .., by omega⟩

namespace Comparison

/-- Is one of the types the type of `undefined`? -/
def Trivial (c : Comparison) : Prop :=
  c.expected = .prim .undefined ∨ c.actual = .prim .undefined

/-- Is one of the types headed by a recursive binder? -/
def headed (c : Comparison) : Bool :=
  c.expected.isMu || c.actual.isMu

/-- The comparison with both heads unrolled. -/
def unrolled (c : Comparison) : Comparison :=
  { c with expected := c.expected.unroll, actual := c.actual.unroll }

/-- The same comparison of two parts. -/
def part (c : Comparison) (expected actual : Nameless Nat) : Comparison :=
  { c with expected, actual }

/-- The comparison of two parameters, whose order depends on the fit. -/
def param (c : Comparison) (expected actual : Nameless Nat) : Comparison :=
  match c.fit with
  | .exact => c.part expected actual
  | .wide => c.part actual expected

/-- The exact comparison of two rows. -/
def rowParts (c : Comparison) (ps qs : List (Name × Nameless Nat)) : List (Option Comparison) :=
  if ps.length = qs.length then offered (fun t u => [some { c.part t u with fit := .exact }]) ps qs else [none]

/-- The comparisons of parts that a comparison of types without recursive heads asks; `none` for one that fails. -/
def parts (c : Comparison) : List (Option Comparison) :=
  match c.expected, c.actual with
  | .prim p, .prim q => if p = q then [] else [none]
  | .container k t, .container l u => if k = l then [some (c.part t u)] else [none]
  | .func ps r, .func qs s =>
    if ps.length = qs.length then
      ((ps.zip qs).map fun p => some (c.param p.1.2 p.2.2)) ++ [some (c.part r s)]
    else
      [none]
  | .object ps, .object qs =>
    if c.fit = .wide ∨ ps.length = qs.length then offered (fun t u => [some (c.part t u)]) ps qs else [none]
  | .union vs, .union ws => if vs.length = ws.length then offered c.rowParts vs ws else [none]
  | .generic n t, .generic m u =>
    if n = m then
      [some ⟨c.depth + n, c.fit, t.openAt 0 (levels c.depth n), u.openAt 0 (levels c.depth n)⟩]
    else
      [none]
  | .free x, .free y => if x = y then [] else [none]
  | _, _ => [none]

/-- As far as `k` unrollings show, the actual type fits where the expected one is required. -/
inductive Agree : Nat → Comparison → Prop where
  | start (c : Comparison) : Agree 0 c
  | trivial {k : Nat} {c : Comparison} (h : c.Trivial) : Agree k c
  | unrolled {k : Nat} {c : Comparison} (h : c.headed = true) (hu : Agree k c.unrolled) : Agree (k + 1) c
  | parts {k : Nat} {c : Comparison} (h : c.headed = false) (hn : none ∉ c.parts)
    (hp : ∀ d, some d ∈ c.parts → Agree k d) : Agree k c

namespace Agree

variable {k : Nat} {c : Comparison}

theorem anti {j : Nat} (h : Agree k c) (hj : j ≤ k) : Agree j c := by
  induction h generalizing j with
  | start c =>
    obtain rfl := Nat.le_zero.1 hj
    exact start c
  | trivial h => exact trivial h
  | unrolled h _ ih =>
    cases j with
    | zero => exact start _
    | succ j => exact unrolled h (ih (Nat.le_of_succ_le_succ hj))
  | parts h hn _ ih => exact parts h hn fun d hd => ih d hd hj

theorem of_headed (h : Agree (k + 1) c) (ht : ¬ c.Trivial) (hh : c.headed = true) : Agree k c.unrolled := by
  cases h with
  | trivial h => exact absurd h ht
  | unrolled _ hu => exact hu
  | parts h _ _ => simp [hh] at h

theorem of_parts (h : Agree (k + 1) c) (ht : ¬ c.Trivial) (hh : c.headed = false) :
    none ∉ c.parts ∧ ∀ d, some d ∈ c.parts → Agree (k + 1) d := by
  cases h with
  | trivial h => exact absurd h ht
  | unrolled h _ => simp [hh] at h
  | parts _ hn hp => exact ⟨hn, hp⟩

end Agree

end Comparison

/-! ### Parts -/

/-- The second type, below the second number of binders, is a direct part of the first. -/
inductive Part : Nat → Nameless Nat → Nat → Nameless Nat → Prop where
  | elem {n : Nat} {k : Container} {t : Nameless Nat} : Part n (.container k t) n t
  | param {n : Nat} {ps : List (Name × Nameless Nat)} {r : Nameless Nat} {p : Name × Nameless Nat} (hp : p ∈ ps) :
    Part n (.func ps r) n p.2
  | result {n : Nat} {ps : List (Name × Nameless Nat)} {r : Nameless Nat} : Part n (.func ps r) n r
  | property {n : Nat} {ps : List (Name × Nameless Nat)} {p : Name × Nameless Nat} (hp : p ∈ ps) :
    Part n (.object ps) n p.2
  | variant {n : Nat} {vs : List (Name × List (Name × Nameless Nat))} {v : Name × List (Name × Nameless Nat)}
    {p : Name × Nameless Nat} (hv : v ∈ vs) (hp : p ∈ v.2) : Part n (.union vs) n p.2
  | body {n m : Nat} {t : Nameless Nat} : Part n (.generic m t) (n + m) (t.openAt 0 (levels n m))

theorem sound_of_mem_levels {n m : Nat} {v : Nameless Nat} (h : v ∈ levels n m) : v.Sound := by
  obtain ⟨x, rfl, -⟩ := mem_levels h
  exact sound_free x

section Part

variable {n m : Nat} {t u : Nameless Nat}

theorem Part.depth_le (h : Part n t m u) : n ≤ m := by
  cases h with
  | body => exact Nat.le_add_right ..
  | _ => exact Nat.le_refl _

theorem Part.sound (h : Part n t m u) (ht : t.Sound) : u.Sound := by
  obtain ⟨hc, hw⟩ := ht
  cases h with
  | elem =>
    cases hw with
    | container he => exact ⟨hc, he⟩
  | param hp =>
    cases hw with
    | func hps hr => exact ⟨((leaves_func ..).1 hc).1 _ hp, hps _ hp⟩
  | result =>
    cases hw with
    | func hps hr => exact ⟨((leaves_func ..).1 hc).2, hr⟩
  | property hp =>
    cases hw with
    | object hd hps => exact ⟨(leaves_object ..).1 hc _ hp, hps _ hp⟩
  | variant hv hp =>
    cases hw with
    | union hd hds hvs => exact ⟨(leaves_union ..).1 hc _ hv _ hp, hvs _ hv _ hp⟩
  | @body m b =>
    cases hw with
    | generic hb =>
      have hb' : b.ClosedAt (0 + (levels n m).length) := by
        rw [length_levels]
        exact (closedAt_generic ..).1 hc
      exact ⟨closedAt_openAt hb' fun v hv => (sound_of_mem_levels hv).closed,
        wellFormed_openAt hb (fun v hv => (sound_of_mem_levels hv).closed) fun v hv =>
          (sound_of_mem_levels hv).wellFormed⟩

/-- The labels of a part are those of the whole, and the levels of the binders between. -/
theorem Part.has (h : Part n t m u) {x : Nat} (hx : u.Has x) : t.Has x ∨ n ≤ x ∧ x < m := by
  cases h with
  | elem => exact .inl hx
  | param hp => exact .inl (has_func.2 (.inl ⟨_, hp, hx⟩))
  | result => exact .inl (has_func.2 (.inr hx))
  | property hp => exact .inl (has_object.2 ⟨_, hp, hx⟩)
  | variant hv hp => exact .inl (has_union.2 ⟨_, hv, _, hp, hx⟩)
  | body =>
    rcases has_openAt hx with hb | ⟨v, hv, hvx⟩
    · exact .inl hb
    · obtain ⟨y, rfl, hy⟩ := mem_levels hv
      exact .inr (has_free.1 hvx ▸ hy)

theorem Part.has_lt (h : Part n t m u) (ht : ∀ x, t.Has x → x < n) (x : Nat) (hx : u.Has x) : x < m := by
  rcases h.has hx with hx | hx
  · exact Nat.lt_of_lt_of_le (ht x hx) h.depth_le
  · exact hx.2

end Part

namespace Comparison

theorem mem_rowParts {c d : Comparison} {ps qs : List (Name × Nameless Nat)} (h : some d ∈ c.rowParts ps qs) :
    ∃ p ∈ ps, ∃ u, qs.lookup p.1 = some u ∧ d = { c.part p.2 u with fit := .exact } := by
  unfold rowParts at h
  split at h
  · obtain ⟨p, hp, ⟨u, hu, hd⟩ | ⟨-, hd⟩⟩ := mem_offered.1 h
    · exact ⟨p, hp, u, hu, Option.some.inj (List.mem_singleton.1 hd)⟩
    · cases hd
  · cases List.mem_singleton.1 h

/-- The comparisons asked are of parts of the two types, in this order or in the other. -/
theorem part_of_mem_parts {c d : Comparison} (h : some d ∈ c.parts) :
    Part c.depth c.expected d.depth d.expected ∧ Part c.depth c.actual d.depth d.actual ∨
      Part c.depth c.expected d.depth d.actual ∧ Part c.depth c.actual d.depth d.expected := by
  obtain ⟨n, fit, t, u⟩ := c
  have hnone : ∀ {l : List (Option Comparison)}, l = [none] → some d ∉ l := by simp
  cases t <;> cases u
  case prim.prim p q =>
    simp only [parts] at h
    split at h <;> simp at h
  case container.container k t l u =>
    simp only [parts] at h
    split at h
    · obtain rfl := Option.some.inj (List.mem_singleton.1 h)
      exact .inl ⟨.elem, .elem⟩
    · exact absurd h (hnone rfl)
  case func.func ps r qs s =>
    simp only [parts] at h
    split at h
    · rcases List.mem_append.1 h with h | h
      · obtain ⟨⟨p, q⟩, hpq, hd⟩ := List.mem_map.1 h
        obtain rfl := Option.some.inj hd
        obtain ⟨hp, hq⟩ := List.of_mem_zip hpq
        cases fit
        · exact .inl ⟨.param hp, .param hq⟩
        · exact .inr ⟨.param hp, .param hq⟩
      · obtain rfl := Option.some.inj (List.mem_singleton.1 h)
        exact .inl ⟨.result, .result⟩
    · exact absurd h (hnone rfl)
  case object.object ps qs =>
    simp only [parts] at h
    split at h
    · obtain ⟨p, hp, ⟨u, hu, hd⟩ | ⟨-, hd⟩⟩ := mem_offered.1 h
      · obtain rfl := Option.some.inj (List.mem_singleton.1 hd)
        exact .inl ⟨.property hp, .property (mem_of_lookup hu)⟩
      · cases hd
    · exact absurd h (hnone rfl)
  case union.union vs ws =>
    simp only [parts] at h
    split at h
    · obtain ⟨v, hv, ⟨qs, hqs, hd⟩ | ⟨-, hd⟩⟩ := mem_offered.1 h
      · obtain ⟨p, hp, u, hu, rfl⟩ := mem_rowParts hd
        exact .inl ⟨.variant hv hp, .variant (mem_of_lookup hqs) (mem_of_lookup hu)⟩
      · cases hd
    · exact absurd h (hnone rfl)
  case generic.generic n t m u =>
    simp only [parts] at h
    split at h
    · rename_i e
      subst e
      obtain rfl := Option.some.inj (List.mem_singleton.1 h)
      exact .inl ⟨.body, .body⟩
    · exact absurd h (hnone rfl)
  case free.free x y =>
    simp only [parts] at h
    split at h <;> simp at h
  all_goals exact absurd h (hnone rfl)

/-- Both types are sound, and their labels are levels of binders passed. -/
structure Sound (c : Comparison) : Prop where
  expected : c.expected.Sound
  actual : c.actual.Sound
  expected_lt : ∀ x, c.expected.Has x → x < c.depth
  actual_lt : ∀ x, c.actual.Has x → x < c.depth

theorem Sound.unrolled {c : Comparison} (h : c.Sound) : c.unrolled.Sound :=
  ⟨h.expected.unroll, h.actual.unroll, fun x hx => h.expected_lt x (has_unroll hx),
    fun x hx => h.actual_lt x (has_unroll hx)⟩

theorem Sound.of_mem_parts {c d : Comparison} (h : c.Sound) (hd : some d ∈ c.parts) : d.Sound := by
  rcases part_of_mem_parts hd with ⟨he, ha⟩ | ⟨he, ha⟩
  · exact ⟨he.sound h.expected, ha.sound h.actual, he.has_lt h.expected_lt, ha.has_lt h.actual_lt⟩
  · exact ⟨ha.sound h.actual, he.sound h.expected, ha.has_lt h.actual_lt, he.has_lt h.expected_lt⟩

end Comparison

end Nameless

end MuTypes
