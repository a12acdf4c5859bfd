import Mathlib.Data.List.Forall2
import MuTypes.Proofs.Supply

/-!
# Runs from supplies that are apart

Adding a number to all drawn names from some number on (`Shifts`) is an injective renaming, and it goes with drawing: a
supply that is so much further draws the renamed names.  `Parallel` says of two computations, started from supplies that
are so far apart, that they give related results and that the supplies stay apart, and `Alongside` says the same of
computations that may fail.
-/

namespace MuTypes

/-! ### Shifting drawn names -/

/-- The renaming adds `d` to the numbers of the names that are drawn from `k` on, and keeps the others. -/
structure Shifts (k d : Nat) (f : Name → Name) : Prop where
  drawn : ∀ base n, k ≤ n → f (numbered base n) = numbered base (n + d)
  other : ∀ x, (⟨k⟩ : NameSupply).AheadOf x → f x = x

theorem stem_numbered (base : Name) (n : Nat) : stem (numbered base n) = stem base := by
  apply String.toList_inj.1
  rw [toList_stem, toList_numbered, List.takeWhile_append_of_pos]
  · simp
  · intro c hc
    simpa using fun e : c = '@' => at_sign_not_mem_stem base (e ▸ hc)

theorem numbered_congr {b c : Name} (h : stem b = stem c) (n : Nat) : numbered b n = numbered c n := by
  rw [numbered, h, numbered]

/-- The number of a drawn name. -/
def number? (x : Name) : Option Nat :=
  let n := Nat.ofDigitChars 10 ((x.toList.dropWhile (· ≠ '@')).drop 1) 0
  -- a drawn name is its own base
  if x = numbered x n then some n else none

theorem number?_numbered (base : Name) (n : Nat) : number? (numbered base n) = some n := by
  have hself : numbered base n = numbered (numbered base n) n := numbered_congr (stem_numbered base n).symm n
  have hdigits : Nat.ofDigitChars 10 (((numbered base n).toList.dropWhile (· ≠ '@')).drop 1) 0 = n := by
    rw [dropWhile_toList_numbered]
    simp
  rw [number?, hdigits, if_pos hself]

theorem eq_numbered_of_number? {x : Name} {n : Nat} (h : number? x = some n) : x = numbered x n := by
  simp only [number?] at h
  split at h
  · rename_i hx
    exact Option.some.inj h ▸ hx
  · cases h

/-- The renaming that makes names drawn from `n` on ones that are drawn from `m` on, in the same order, and keeps the
others. -/
def renumber (n m : Nat) (x : Name) : Name :=
  match number? x with
  | some i => if n ≤ i then numbered x (m + (i - n)) else x
  | none => x

theorem renumber_numbered {n i : Nat} (m : Nat) (h : n ≤ i) (base : Name) :
    renumber n m (numbered base i) = numbered base (m + (i - n)) := by
  rw [renumber, number?_numbered]
  dsimp only
  rw [if_pos h, numbered_congr (stem_numbered base i)]

theorem renumber_of_aheadOf {n m : Nat} {x : Name} (h : (⟨n⟩ : NameSupply).AheadOf x) : renumber n m x = x := by
  unfold renumber
  cases hx : number? x with
  | none => rfl
  | some i => exact if_neg fun hi => h x i hi (eq_numbered_of_number? hx)

theorem shifts_renumber (k d : Nat) : Shifts k d (renumber k (k + d)) where
  drawn := fun base n hn => by
    rw [renumber_numbered _ hn]
    congr 1
    omega
  other := fun _ hx => renumber_of_aheadOf hx

namespace Shifts

variable {k d : Nat} {f : Name → Name} (hs : Shifts k d f)
include hs

theorem stem_eq (x : Name) : stem (f x) = stem x := by
  by_cases hx : (⟨k⟩ : NameSupply).AheadOf x
  · rw [hs.other x hx]
  · simp only [NameSupply.AheadOf, not_forall, not_not] at hx
    obtain ⟨base, n, hn, rfl⟩ := hx
    rw [hs.drawn base n hn, stem_numbered, stem_numbered]

theorem injective : Function.Injective f := by
  intro x y h
  have hstem : stem x = stem y := by rw [← hs.stem_eq x, h, hs.stem_eq y]
  by_cases hx : (⟨k⟩ : NameSupply).AheadOf x <;> by_cases hy : (⟨k⟩ : NameSupply).AheadOf y
  · rwa [hs.other x hx, hs.other y hy] at h
  · simp only [NameSupply.AheadOf, not_forall, not_not] at hy
    obtain ⟨base, n, hn, rfl⟩ := hy
    rw [hs.other x hx, hs.drawn base n hn] at h
    exact absurd h (hx base (n + d) (Nat.le_add_right_of_le hn))
  · simp only [NameSupply.AheadOf, not_forall, not_not] at hx
    obtain ⟨base, n, hn, rfl⟩ := hx
    rw [hs.other y hy, hs.drawn base n hn] at h
    exact absurd h.symm (hy base (n + d) (Nat.le_add_right_of_le hn))
  · simp only [NameSupply.AheadOf, not_forall, not_not] at hx hy
    obtain ⟨b, n, hn, rfl⟩ := hx
    obtain ⟨c, m, hm, rfl⟩ := hy
    rw [hs.drawn b n hn, hs.drawn c m hm] at h
    obtain rfl : n = m := Nat.add_right_cancel (number_eq_of_numbered_eq h)
    rw [stem_numbered, stem_numbered] at hstem
    exact numbered_congr hstem n

end Shifts

/-! ### Runs side by side -/

section Parallel

variable {k d : Nat} {ε α α' β β' τ : Type} {R : α → α' → Prop} {S : β → β' → Prop}

/-- Started from supplies that are `d` numbers apart, the first one at `k` or later, the computations give related
results, and the supplies stay as far apart. -/
def Parallel (k d : Nat) (R : α → α' → Prop) (m : SupplyM α) (m' : SupplyM α') : Prop :=
  ∀ n, k ≤ n → R (m.run ⟨n⟩).1 (m'.run ⟨n + d⟩).1 ∧ k ≤ (m.run ⟨n⟩).2.next ∧
    (m'.run ⟨n + d⟩).2 = ⟨(m.run ⟨n⟩).2.next + d⟩

namespace Parallel

variable {m : SupplyM α} {m' : SupplyM α'} {g : α → SupplyM β} {g' : α' → SupplyM β'}

theorem pure {a : α} {a' : α'} (h : R a a') : Parallel k d R (Pure.pure a) (Pure.pure a') :=
  fun _ hn => ⟨h, hn, rfl⟩

theorem bind (hm : Parallel k d R m m') (hg : ∀ a a', R a a' → Parallel k d S (g a) (g' a')) :
    Parallel k d S (m >>= g) (m' >>= g') := by
  intro n hn
  obtain ⟨hR, hk, hd⟩ := hm n hn
  have hrest := hg _ _ hR _ hk
  rw [StateT.run_bind, StateT.run_bind]
  show S ((g (m.run ⟨n⟩).1).run (m.run ⟨n⟩).2).1 ((g' (m'.run ⟨n + d⟩).1).run (m'.run ⟨n + d⟩).2).1 ∧
    k ≤ ((g (m.run ⟨n⟩).1).run (m.run ⟨n⟩).2).2.next ∧
    ((g' (m'.run ⟨n + d⟩).1).run (m'.run ⟨n + d⟩).2).2 = ⟨((g (m.run ⟨n⟩).1).run (m.run ⟨n⟩).2).2.next + d⟩
  rw [hd]
  exact hrest

theorem ite {p p' : Prop} [Decidable p] [Decidable p'] {l : SupplyM α} {l' : SupplyM α'} (hp : p' ↔ p)
    (hm : Parallel k d R m m') (hl : Parallel k d R l l') :
    Parallel k d R (if p then m else l) (if p' then m' else l') := by
  by_cases h : p
  · rwa [if_pos h, if_pos (hp.2 h)]
  · rwa [if_neg h, if_neg (mt hp.1 h)]

/-- Names drawn with the same stem. -/
theorem draw {f : Name → Name} (hf : Shifts k d f) {b b' : Name} (h : stem b' = stem b) :
    Parallel k d (fun x x' => x' = f x) (MuTypes.draw b) (MuTypes.draw b') := by
  intro n hn
  refine ⟨?_, Nat.le_succ_of_le hn, ?_⟩
  · exact (numbered_congr h (n + d)).trans (hf.drawn b n hn).symm
  · show (⟨n + d + 1⟩ : NameSupply) = ⟨n + 1 + d⟩
    rw [Nat.add_right_comm]

/-- Lists of results, for lists whose elements go with each other. -/
theorem mapM {ρ : β → β'} {g : τ → SupplyM β} {g' : τ → SupplyM β'} {l l' : List τ}
    (h : List.Forall₂ (fun a a' => Parallel k d (fun b b' => b' = ρ b) (g a) (g' a')) l l') :
    Parallel k d (fun bs bs' => bs' = bs.map ρ) (l.mapM g) (l'.mapM g') := by
  induction h with
  | nil => exact .pure rfl
  | cons ha _ ih =>
    rw [List.mapM_cons, List.mapM_cons]
    refine ha.bind fun b b' hb => ih.bind fun bs bs' hbs => .pure ?_
    rw [hb, hbs, List.map_cons]

end Parallel

/-- Both outcomes are results that are related, or both are errors that are. -/
def OutcomesRelated (R : α → α' → Prop) (E : ε → ε → Prop) : Except ε α → Except ε α' → Prop
  | .ok a, .ok a' => R a a'
  | .error e, .error e' => E e e'
  | _, _ => False

namespace OutcomesRelated

variable {E : ε → ε → Prop} {o : Except ε α} {o' : Except ε α'}

theorem of_ok {a : α} (h : OutcomesRelated R E (.ok a) o') : ∃ a', o' = .ok a' ∧ R a a' := by
  cases o' with
  | error _ => cases h
  | ok a' => exact ⟨a', rfl, h⟩

theorem of_ok_right {a' : α'} (h : OutcomesRelated R E o (.ok a')) : ∃ a, o = .ok a ∧ R a a' := by
  cases o with
  | error _ => cases h
  | ok a => exact ⟨a, rfl, h⟩

/-- Where related results are equal, either both outcomes are the given result or none is. -/
theorem eq_ok_iff {o' : Except ε α} (h : OutcomesRelated (fun a a' => a' = a) E o o') {a : α} :
    o' = .ok a ↔ o = .ok a := by
  constructor
  · rintro rfl
    obtain ⟨_, rfl, rfl⟩ := h.of_ok_right
    rfl
  · rintro rfl
    obtain ⟨_, rfl, rfl⟩ := h.of_ok
    rfl

end OutcomesRelated

/-- The same for computations that may fail: the outcomes are related. -/
def Alongside (k d : Nat) (E : ε → ε → Prop) (R : α → α' → Prop) (m : ExceptT ε SupplyM α) (m' : ExceptT ε SupplyM α') :
    Prop :=
  Parallel k d (OutcomesRelated R E) m.run m'.run

namespace Alongside

variable {E : ε → ε → Prop} {m : ExceptT ε SupplyM α} {m' : ExceptT ε SupplyM α'} {g : α → ExceptT ε SupplyM β}
  {g' : α' → ExceptT ε SupplyM β'}

theorem pure {a : α} {a' : α'} (h : R a a') :
    Alongside k d E R (Pure.pure a : ExceptT ε SupplyM α) (Pure.pure a' : ExceptT ε SupplyM α') :=
  Parallel.pure (R := OutcomesRelated R E) h

theorem throw {e e' : ε} (h : E e e') :
    Alongside k d E R (throw e : ExceptT ε SupplyM α) (throw e' : ExceptT ε SupplyM α') :=
  Parallel.pure (R := OutcomesRelated R E) h

theorem lift {m : SupplyM α} {m' : SupplyM α'} (h : Parallel k d R m m') :
    Alongside k d E R (liftM m : ExceptT ε SupplyM α) (liftM m' : ExceptT ε SupplyM α') :=
  h

theorem bind (hm : Alongside k d E R m m') (hg : ∀ a a', R a a' → Alongside k d E S (g a) (g' a')) :
    Alongside k d E S (m >>= g) (m' >>= g') := by
  rw [Alongside, ExceptT.run_bind, ExceptT.run_bind]
  refine Parallel.bind hm fun o o' ho => ?_
  cases o <;> cases o'
  · exact .pure ho
  · cases ho
  · cases ho
  · exact hg _ _ ho

theorem ite {p p' : Prop} [Decidable p] [Decidable p'] {l : ExceptT ε SupplyM α} {l' : ExceptT ε SupplyM α'}
    (hp : p' ↔ p) (hm : Alongside k d E R m m') (hl : Alongside k d E R l l') :
    Alongside k d E R (if p then m else l) (if p' then m' else l') := by
  by_cases h : p
  · rwa [if_pos h, if_pos (hp.2 h)]
  · rwa [if_neg h, if_neg (mt hp.1 h)]

/-- Conjunctions over lists of which the second one is the image of the first one. -/
theorem allM {κ : τ → τ} {g g' : τ → ExceptT ε SupplyM Bool} {l : List τ}
    (h : ∀ a ∈ l, Alongside k d E (fun b b' => b' = b) (g a) (g' (κ a))) :
    Alongside k d E (fun b b' => b' = b) (l.allM g) ((l.map κ).allM g') := by
  induction l with
  | nil => exact .pure rfl
  | cons a l ih =>
    obtain ⟨ha, hl⟩ := List.forall_mem_cons.1 h
    rw [List.map_cons, List.allM, List.allM]
    refine ha.bind fun b b' hb => ?_
    subst hb
    cases b' with
    | false => exact .pure rfl
    | true => exact ih hl

end Alongside

end Parallel

end MuTypes
