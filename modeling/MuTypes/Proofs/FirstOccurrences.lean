import MuTypes.Proofs.Nameless.Translation

/-!
# The order of free variables

A position is the way from a type down to one of its parts, as the list of the places that are taken on it, and
positions are compared from the top: `p < q` says that `p` stands to the left of `q`.  `Ty.FreeAt` says which variable
stands free at which position, binder by binder and without any list of bound names.

Collecting free variables adds exactly the names that stand free somewhere, each of them once, and a name that is added
before another has an occurrence to the left of all occurrences of that one (`Ty.collects_collectFree`).
-/

namespace MuTypes

/-! ### Occurrences -/

/-- Names at positions. -/
abbrev Occurrences := List Nat → Name → Prop

namespace Occurrences

variable {α : Type} {O O' : Occurrences} {bound : List Name} {c c' : List Name → List Name}

/-- Some occurrence of `x` stands to the left of all occurrences of `y`. -/
def Before (O : Occurrences) (x y : Name) : Prop :=
  ∃ p, O p x ∧ ∀ q, O q y → p < q

/-- The occurrences, as they are seen from a node that has them at its place `k`. -/
def below (k : Nat) (O : Occurrences) : Occurrences :=
  fun p x => ∃ q, p = k :: q ∧ O q x

/-- The occurrences in the elements of a list, whose places are counted from `k`. -/
def among (O : α → Occurrences) (k : Nat) (l : List α) : Occurrences :=
  fun p x => ∃ i a, l[i]? = some a ∧ below (k + i) (O a) p x

theorem Before.irrefl {x : Name} : ¬ O.Before x x := by
  rintro ⟨p, hp, h⟩
  exact List.lt_irrefl p (h p hp)

theorem among_cons {F : α → Occurrences} {k : Nat} {a : α} {l : List α} {p : List Nat} {x : Name} :
    among F k (a :: l) p x ↔ below k (F a) p x ∨ among F (k + 1) l p x := by
  constructor
  · rintro ⟨i, b, hb, h⟩
    cases i with
    | zero =>
      obtain rfl : a = b := Option.some.inj hb
      exact .inl h
    | succ i => exact .inr ⟨i, b, hb, by rwa [Nat.add_assoc, Nat.add_comm 1]⟩
  · rintro (h | ⟨i, b, hb, h⟩)
    · exact ⟨0, a, rfl, h⟩
    · exact ⟨i + 1, b, hb, by rwa [Nat.add_comm i, ← Nat.add_assoc]⟩

theorem exists_below {k : Nat} {x : Name} : (∃ p, below k O p x) ↔ ∃ p, O p x :=
  ⟨fun ⟨_, p, _, h⟩ => ⟨p, h⟩, fun ⟨p, h⟩ => ⟨k :: p, p, rfl, h⟩⟩

theorem exists_among {F : α → Occurrences} {k : Nat} {l : List α} {x : Name} :
    (∃ p, among F k l p x) ↔ ∃ a ∈ l, ∃ p, F a p x := by
  constructor
  · rintro ⟨_, i, a, ha, q, -, hq⟩
    exact ⟨a, List.mem_of_getElem? ha, q, hq⟩
  · rintro ⟨a, ha, q, hq⟩
    obtain ⟨i, hi⟩ := List.mem_iff_getElem?.1 ha
    exact ⟨(k + i) :: q, i, a, hi, q, rfl, hq⟩

theorem below_lt {j k : Nat} (h : j < k) {p q : List Nat} {x y : Name} (hp : below j O p x) (hq : below k O' q y) :
    p < q := by
  obtain ⟨p, rfl, -⟩ := hp
  obtain ⟨q, rfl, -⟩ := hq
  exact List.cons_lt_cons_iff.2 (.inl h)

/-! ### Collecting -/

/-- Applied to the names found so far, the function adds the names that occur, apart from those in `bound`: each of them
once, and those that occur first before the others. -/
def Collects (O : Occurrences) (bound : List Name) (c : List Name → List Name) : Prop :=
  ∀ found, ∃ new, c found = found ++ new ∧ (∀ x, x ∈ new ↔ (∃ p, O p x) ∧ x ∉ bound ∧ x ∉ found) ∧
    new.Pairwise O.Before

namespace Collects

theorem congr (h : Collects O bound c) (hO : ∀ p x, O' p x ↔ O p x) : Collects O' bound c := by
  obtain rfl : O' = O := funext fun p => funext fun x => propext (hO p x)
  exact h

theorem id (hO : ∀ p x, ¬ O p x) : Collects O bound fun found => found :=
  fun _ => ⟨[], by simp, by simp [hO], .nil⟩

/-- First what stands to the left, and then what stands to the right. -/
theorem comp (h : Collects O bound c) (h' : Collects O' bound c') (hlt : ∀ p q x y, O p x → O' q y → p < q) :
    Collects (fun p x => O p x ∨ O' p x) bound fun found => c' (c found) := by
  intro found
  obtain ⟨new, hc, hmem, hbefore⟩ := h found
  obtain ⟨new', hc', hmem', hbefore'⟩ := h' (found ++ new)
  have hfirst : ∀ x ∈ new', ∀ p, ¬ O p x := by
    intro x hx p hp
    obtain ⟨-, hbound, hfound⟩ := (hmem' x).1 hx
    rw [List.mem_append, not_or] at hfound
    exact hfound.2 ((hmem x).2 ⟨⟨p, hp⟩, hbound, hfound.1⟩)
  refine ⟨new ++ new', by simp only [hc, hc', List.append_assoc], fun x => ?_, ?_⟩
  · rw [List.mem_append, hmem', List.mem_append, hmem, exists_or]
    grind
  · refine List.pairwise_append.2 ⟨hbefore.imp ?_, hbefore'.imp_of_mem ?_, fun x hx y hy => ?_⟩
    · rintro x y ⟨p, hp, hq⟩
      exact ⟨p, .inl hp, fun q hy => hy.elim (hq q) (hlt p q x y hp)⟩
    · rintro x y - hy ⟨p, hp, hq⟩
      exact ⟨p, .inr hp, fun q hqy => hqy.elim (fun hqy => absurd hqy (hfirst y hy q)) (hq q)⟩
    · obtain ⟨⟨p, hp⟩, -⟩ := (hmem x).1 hx
      exact ⟨p, .inl hp, fun q hqy => hqy.elim (fun hqy => absurd hqy (hfirst y hy q)) (hlt p q x y hp)⟩

theorem below (h : Collects O bound c) (k : Nat) : Collects (O.below k) bound c := by
  intro found
  obtain ⟨new, hc, hmem, hbefore⟩ := h found
  refine ⟨new, hc, fun x => by rw [hmem, exists_below], hbefore.imp ?_⟩
  rintro x y ⟨p, hp, hq⟩
  refine ⟨k :: p, ⟨p, rfl, hp⟩, ?_⟩
  rintro _ ⟨q, rfl, hqy⟩
  exact List.cons_lt_cons_iff.2 (.inr ⟨rfl, hq q hqy⟩)

/-- Collecting for each element of a list in turn. -/
theorem foldl {F : α → Occurrences} {step : List Name → α → List Name} {l : List α}
    (h : ∀ a ∈ l, Collects (F a) bound fun found => step found a) (k : Nat) :
    Collects (among F k l) bound (l.foldl step) := by
  induction l generalizing k with
  | nil => exact id (by simp [among])
  | cons a l ih =>
    obtain ⟨ha, hl⟩ := List.forall_mem_cons.1 h
    refine congr ((ha.below k).comp (ih hl (k + 1)) ?_) fun p x => among_cons
    rintro p q x y hp ⟨i, b, -, hq⟩
    exact below_lt (by omega) hp hq

/-- What stands below binders. -/
theorem bind {ns : List Name} (h : Collects O (ns ++ bound) c) :
    Collects (fun p x => x ∉ ns ∧ O p x) bound c := by
  intro found
  obtain ⟨new, hc, hmem, hbefore⟩ := h found
  refine ⟨new, hc, fun x => ?_, hbefore.imp_of_mem ?_⟩
  · rw [hmem, List.mem_append, not_or, exists_and_left]
    grind
  · rintro x y hx - ⟨p, hp, hq⟩
    obtain ⟨-, hns, -⟩ := (hmem x).1 hx
    exact ⟨p, ⟨fun hmem => hns (List.mem_append_left _ hmem), hp⟩, fun q hqy => hq q hqy.2⟩

end Collects

end Occurrences

namespace Ty

open Occurrences

/-- The variable stands at the position, and no binder above it has its name. -/
inductive FreeAt : Ty → Occurrences where
  | elem {k : Container} {e : Ty} {p : List Nat} {x : Name} (h : FreeAt e p x) : FreeAt (.container k e) (0 :: p) x
  | param {ps : Row} {r : Ty} {i : Nat} {q : Name × Ty} {p : List Nat} {x : Name} (hq : ps[i]? = some q)
    (h : FreeAt q.2 p x) : FreeAt (.func ps r) (i :: p) x
  /-- The result stands behind the parameters. -/
  | result {ps : Row} {r : Ty} {p : List Nat} {x : Name} (h : FreeAt r p x) :
    FreeAt (.func ps r) (ps.length :: p) x
  | property {ps : Row} {i : Nat} {q : Name × Ty} {p : List Nat} {x : Name} (hq : ps[i]? = some q)
    (h : FreeAt q.2 p x) : FreeAt (.object ps) (i :: p) x
  | variant {vs : Variants} {i j : Nat} {v : Name × Row} {q : Name × Ty} {p : List Nat} {x : Name}
    (hv : vs[i]? = some v) (hq : v.2[j]? = some q) (h : FreeAt q.2 p x) : FreeAt (.union vs) (i :: j :: p) x
  | mu {n : Name} {b : Ty} {p : List Nat} {x : Name} (hn : x ≠ n) (h : FreeAt b p x) : FreeAt (.mu n b) (0 :: p) x
  | generic {ns : List Name} {b : Ty} {p : List Nat} {x : Name} (hns : x ∉ ns) (h : FreeAt b p x) :
    FreeAt (.generic ns b) (0 :: p) x
  | var (x : Name) : FreeAt (.var x) [] x

/-- The occurrences in the types of a row. -/
abbrev rowFreeAt (ps : Row) : Occurrences :=
  among (fun q : Name × Ty => q.2.FreeAt) 0 ps

section Equations

variable {p : List Nat} {x : Name}

theorem freeAt_container {k : Container} {e : Ty} : (Ty.container k e).FreeAt p x ↔ below 0 e.FreeAt p x := by
  constructor
  · intro h
    cases h with
    | elem h => exact ⟨_, rfl, h⟩
  · rintro ⟨q, rfl, h⟩
    exact .elem h

theorem freeAt_func {ps : Row} {r : Ty} :
    (Ty.func ps r).FreeAt p x ↔ rowFreeAt ps p x ∨ below ps.length r.FreeAt p x := by
  constructor
  · intro h
    cases h with
    | param hq h => exact .inl ⟨_, _, hq, _, by rw [Nat.zero_add], h⟩
    | result h => exact .inr ⟨_, rfl, h⟩
  · rintro (⟨i, q, hq, p, rfl, h⟩ | ⟨p, rfl, h⟩)
    · rw [Nat.zero_add]
      exact .param hq h
    · exact .result h

theorem freeAt_object {ps : Row} : (Ty.object ps).FreeAt p x ↔ rowFreeAt ps p x := by
  constructor
  · intro h
    cases h with
    | property hq h => exact ⟨_, _, hq, _, by rw [Nat.zero_add], h⟩
  · rintro ⟨i, q, hq, p, rfl, h⟩
    rw [Nat.zero_add]
    exact .property hq h

theorem freeAt_union {vs : Variants} :
    (Ty.union vs).FreeAt p x ↔ among (fun v : Name × Row => rowFreeAt v.2) 0 vs p x := by
  constructor
  · intro h
    cases h with
    | variant hv hq h => exact ⟨_, _, hv, _, by rw [Nat.zero_add], _, _, hq, _, by rw [Nat.zero_add], h⟩
  · rintro ⟨i, v, hv, _, rfl, j, q, hq, p, rfl, h⟩
    rw [Nat.zero_add, Nat.zero_add]
    exact .variant hv hq h

theorem freeAt_mu {n : Name} {b : Ty} : (Ty.mu n b).FreeAt p x ↔ x ∉ [n] ∧ below 0 b.FreeAt p x := by
  rw [List.mem_singleton]
  constructor
  · intro h
    cases h with
    | mu hn h => exact ⟨hn, _, rfl, h⟩
  · rintro ⟨hn, q, rfl, h⟩
    exact .mu hn h

theorem freeAt_generic {ns : List Name} {b : Ty} :
    (Ty.generic ns b).FreeAt p x ↔ x ∉ ns ∧ below 0 b.FreeAt p x := by
  constructor
  · intro h
    cases h with
    | generic hns h => exact ⟨hns, _, rfl, h⟩
  · rintro ⟨hns, q, rfl, h⟩
    exact .generic hns h

end Equations

/-- Collecting free variables collects the free occurrences. -/
theorem collects_collectFree (t : Ty) (bound : List Name) : Collects t.FreeAt bound (t.collectFree bound) := by
  have hrow : ∀ {ps : Row} {bound}, (∀ p ∈ ps, Collects p.2.FreeAt bound (p.2.collectFree bound)) →
      Collects (rowFreeAt ps) bound (collectFreeInRow bound ps) := by
    intro ps bound h
    rw [funext (collectFreeInRow_eq_foldl bound ps)]
    exact .foldl h 0
  induction t generalizing bound with
  | prim p => exact .id fun p x h => nomatch h
  | container k e ih => exact ((ih bound).below 0).congr fun _ _ => freeAt_container
  | func ps r ihps ihr =>
    refine ((hrow fun p hp => ihps p hp bound).comp ((ihr bound).below ps.length) ?_).congr fun _ _ => freeAt_func
    rintro p q x y ⟨i, a, ha, hp⟩ hq
    have hi : i < ps.length := (List.getElem?_eq_some_iff.1 ha).1
    exact below_lt (by omega) hp hq
  | object ps ih => exact (hrow fun p hp => ih p hp bound).congr fun _ _ => freeAt_object
  | union vs ih =>
    have hvs : Collects (among (fun v : Name × Row => rowFreeAt v.2) 0 vs) bound
        (vs.foldl fun found v => collectFreeInRow bound v.2 found) :=
      .foldl (fun v hv => hrow fun p hp => ih v hv p hp bound) 0
    rw [← funext (collectFreeInVariants_eq_foldl bound vs)] at hvs
    exact hvs.congr fun _ _ => freeAt_union
  | mu n b ih => exact (((ih ([n] ++ bound)).below 0).bind).congr fun _ _ => freeAt_mu
  | generic ns b ih => exact (((ih (ns ++ bound)).below 0).bind).congr fun _ _ => freeAt_generic
  | var n =>
    intro found
    have hocc : ∀ x, (∃ p, (Ty.var n).FreeAt p x) ↔ x = n := by
      refine fun x => ⟨fun h => ?_, fun h => h ▸ ⟨[], .var x⟩⟩
      obtain ⟨_, h⟩ := h
      cases h
      rfl
    rw [collectFree]
    split
    case isTrue hknown =>
      refine ⟨[], (List.append_nil found).symm, fun x => ?_, .nil⟩
      rw [hocc]
      simp only [List.not_mem_nil, false_iff]
      rintro ⟨rfl, hbound, hfound⟩
      exact hknown.elim hbound hfound
    case isFalse hnew =>
      refine ⟨[n], rfl, fun x => ?_, List.pairwise_singleton ..⟩
      rw [hocc, List.mem_singleton]
      refine ⟨fun h => ⟨h, ?_⟩, fun h => h.1⟩
      subst h
      exact not_or.1 hnew

/-! ### The free names of a type -/

/-- A name occurs free in a type when it stands free somewhere. -/
theorem mentions_iff_exists_freeAt {t : Ty} {x : Name} : t.mentions x = true ↔ ∃ p, t.FreeAt p x := by
  induction t with
  | prim p =>
    refine ⟨fun h => by simp at h, fun h => ?_⟩
    obtain ⟨_, h⟩ := h
    cases h
  | container k e ih =>
    simp only [freeAt_container, exists_below]
    exact ih
  | func ps r ihps ihr =>
    simp only [freeAt_func, exists_or, exists_below, exists_among, mentions_func, ihr]
    exact or_congr_left (exists_congr fun p => and_congr_right (ihps p))
  | object ps ih =>
    simp only [freeAt_object, exists_among, mentions_object]
    exact exists_congr fun p => and_congr_right (ih p)
  | union vs ih =>
    simp only [freeAt_union, exists_among, mentions_union]
    exact exists_congr fun v => and_congr_right fun hv => exists_congr fun p => and_congr_right (ih v hv p)
  | mu n b ih =>
    simp only [freeAt_mu, exists_and_left, exists_below, mentions_mu, ih, List.mem_singleton, ne_comm (a := n), ne_eq]
  | generic ns b ih => simp only [freeAt_generic, exists_and_left, exists_below, mentions_generic, ih]
  | var y =>
    rw [mentions_var]
    refine ⟨fun h => h ▸ ⟨[], .var y⟩, fun h => ?_⟩
    obtain ⟨_, h⟩ := h
    cases h
    rfl

theorem freeNames_collected (t : Ty) :
    (∀ x, x ∈ t.freeNames ↔ ∃ p, t.FreeAt p x) ∧ t.freeNames.Pairwise t.FreeAt.Before := by
  obtain ⟨new, hnew, hmem, hbefore⟩ := t.collects_collectFree [] []
  rw [freeNames, hnew]
  exact ⟨fun x => by simpa using hmem x, hbefore⟩

/-- A name is listed as free when it occurs free. -/
theorem mem_freeNames_iff {x : Name} {t : Ty} : x ∈ t.freeNames ↔ t.mentions x = true :=
  (t.freeNames_collected.1 x).trans mentions_iff_exists_freeAt.symm

/-- The free names of a type are the names that occur free in it, each of them once, in the order of their first free
occurrences from left to right. -/
theorem freeNames_in_order (t : Ty) :
    (∀ x, x ∈ t.freeNames ↔ t.mentions x = true) ∧ t.freeNames.Nodup ∧
      t.freeNames.Pairwise fun x y => ∃ p, t.FreeAt p x ∧ ∀ q, t.FreeAt q y → p < q := by
  have hbefore := t.freeNames_collected.2
  refine ⟨fun x => mem_freeNames_iff, hbefore.imp ?_, hbefore⟩
  rintro x y h rfl
  exact h.irrefl

/-- Shadowed names are left out, below their binders only. -/
example :
    (Ty.func [("a", .mu "X" (.generic ["Z", "X"] (.func [("b", .var "X")] (.var "Y")))), ("c", .var "X")]
      (.object [("d", .var "Y"), ("e", .var "Z")])).freeNames = ["Y", "X", "Z"] := by
  decide

end Ty

end MuTypes
