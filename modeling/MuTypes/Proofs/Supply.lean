import Mathlib.Order.Nat
import MuTypes.NameSupply

/-!
# Names that will not be drawn again

Two drawn names with different numbers are different (`number_eq_of_numbered_eq`).  So a supply never again draws a
name that it is ahead of (`NameSupply.AheadOf`), and drawing only ever adds to those names.

`NameSupply.Yields` says what a computation gives when it starts from a supply: a result with a property, and a
supply that has not gone back.
-/

namespace MuTypes

/-! ### Numbers -/

theorem at_sign_not_mem_stem (n : Name) : '@' ∉ (stem n).toList := by
  rw [toList_stem]
  intro h
  simpa using List.all_eq_true.1 List.all_takeWhile _ h

theorem toList_numbered (base : Name) (n : Nat) :
    (numbered base n).toList = (stem base).toList ++ '@' :: Nat.toDigits 10 n := by
  simp [numbered]

/-- What follows the stem of a drawn name. -/
theorem dropWhile_toList_numbered (base : Name) (n : Nat) :
    (numbered base n).toList.dropWhile (· ≠ '@') = '@' :: Nat.toDigits 10 n := by
  rw [toList_numbered, List.dropWhile_append_of_pos]
  · simp
  · intro c hc
    simpa using fun e : c = '@' => at_sign_not_mem_stem base (e ▸ hc)

theorem number_eq_of_numbered_eq {b c : Name} {n m : Nat} (h : numbered b n = numbered c m) : n = m := by
  have hlist := congrArg (fun x : Name => x.toList.dropWhile (· ≠ '@')) h
  simp only [dropWhile_toList_numbered, List.cons.injEq, true_and] at hlist
  simpa using congrArg (fun ds => Nat.ofDigitChars 10 ds 0) hlist

/-! ### Being ahead of names -/

namespace NameSupply

/-- Supplies are compared by the number that comes next. -/
instance : Preorder NameSupply :=
  Preorder.lift NameSupply.next

theorem le_def {s t : NameSupply} : s ≤ t ↔ s.next ≤ t.next := Iff.rfl

/-- The supply will not draw the name. -/
def AheadOf (s : NameSupply) (x : Name) : Prop :=
  ∀ base n, s.next ≤ n → x ≠ numbered base n

theorem AheadOf.mono {s t : NameSupply} {x : Name} (h : s.AheadOf x) (hst : s ≤ t) : t.AheadOf x :=
  fun base n hn => h base n (Nat.le_trans hst hn)

theorem AheadOf.ne_drawn {s : NameSupply} {x : Name} (h : s.AheadOf x) (base : Name) : x ≠ numbered base s.next :=
  h base s.next (Nat.le_refl _)

theorem aheadOf_numbered {s : NameSupply} {n : Nat} (h : n < s.next) (base : Name) :
    s.AheadOf (numbered base n) := by
  intro b m hm he
  have := number_eq_of_numbered_eq he
  omega

/-- Every supply is ahead of the names that front ends produce. -/
theorem aheadOf_of_at_sign_not_mem {x : Name} (h : '@' ∉ x.toList) (s : NameSupply) : s.AheadOf x := by
  intro b n _ he
  exact h (by simp [he, toList_numbered])

/-! ### Runs from a supply -/

/-- Started from the supply, the computation ends with a result and a supply that have the property, and the supply
has not gone back. -/
def Yields {α : Type} (s : NameSupply) (m : SupplyM α) (Q : α → NameSupply → Prop) : Prop :=
  s ≤ (m.run s).2 ∧ Q (m.run s).1 (m.run s).2

namespace Yields

variable {α β : Type} {s : NameSupply} {m : SupplyM α} {f : α → SupplyM β} {P Q : α → NameSupply → Prop}
  {R : β → NameSupply → Prop}

theorem pure {a : α} (h : Q a s) : s.Yields (Pure.pure a) Q :=
  ⟨le_refl s, h⟩

theorem bind (hm : s.Yields m Q) (hf : ∀ a t, s ≤ t → Q a t → t.Yields (f a) R) : s.Yields (m >>= f) R := by
  obtain ⟨hs, hq⟩ := hm
  obtain ⟨ht, hr⟩ := hf _ _ hs hq
  exact ⟨le_trans hs ht, hr⟩

theorem mono (hm : s.Yields m P) (h : ∀ a t, s ≤ t → P a t → Q a t) : s.Yields m Q :=
  ⟨hm.1, h _ _ hm.1 hm.2⟩

theorem and (hm : s.Yields m P) (hm' : s.Yields m Q) : s.Yields m fun a t => P a t ∧ Q a t :=
  ⟨hm.1, hm.2, hm'.2⟩

theorem and_always {A : α → Prop} (hm : s.Yields m P) (h : Always A m) : s.Yields m fun a t => P a t ∧ A a :=
  ⟨hm.1, hm.2, h s⟩

theorem draw {base : Name} {Q : Name → NameSupply → Prop} (h : Q (numbered base s.next) ⟨s.next + 1⟩) :
    s.Yields (draw base) Q :=
  ⟨Nat.le_succ s.next, h⟩

end Yields

/-! ### Runs that may fail -/

section Failing

variable {ε α β : Type} {s : NameSupply} {m : ExceptT ε SupplyM α} {f : α → ExceptT ε SupplyM β}
  {P Q : α → NameSupply → Prop} {R : β → NameSupply → Prop}

/-- When the computation returns, started from the supply, then a result and a supply that have the property. -/
def Ensures (s : NameSupply) (m : ExceptT ε SupplyM α) (Q : α → NameSupply → Prop) : Prop :=
  s.Yields m.run fun o t => ∀ a, o = .ok a → Q a t

/-- Started from the supply, the computation returns a result and a supply that have the property. -/
def Returns (s : NameSupply) (m : ExceptT ε SupplyM α) (Q : α → NameSupply → Prop) : Prop :=
  s.Yields m.run fun o t => ∃ a, o = .ok a ∧ Q a t

theorem Ensures.pure {a : α} (h : Q a s) : s.Ensures (Pure.pure a : ExceptT ε SupplyM α) Q :=
  Yields.pure fun _ e => Except.ok.inj e ▸ h

theorem Ensures.throw (e : ε) : s.Ensures (throw e : ExceptT ε SupplyM α) Q :=
  ⟨le_refl s, fun _ h => by cases h⟩

theorem Ensures.bind (hm : s.Ensures m Q) (hf : ∀ a t, s ≤ t → Q a t → t.Ensures (f a) R) :
    s.Ensures (m >>= f) R := by
  rw [Ensures, ExceptT.run_bind]
  refine Yields.bind hm fun o t hst ho => ?_
  cases o with
  | ok a => exact hf a t hst (ho a rfl)
  | error e => exact Ensures.throw e

theorem Ensures.mono (hm : s.Ensures m P) (h : ∀ a t, s ≤ t → P a t → Q a t) : s.Ensures m Q :=
  Yields.mono hm fun _ t hst ho a e => h a t hst (ho a e)

theorem Ensures.and (hm : s.Ensures m P) (hm' : s.Ensures m Q) : s.Ensures m fun a t => P a t ∧ Q a t :=
  ⟨hm.1, fun a e => ⟨hm.2 a e, hm'.2 a e⟩⟩

theorem Returns.pure {a : α} (h : Q a s) : s.Returns (Pure.pure a : ExceptT ε SupplyM α) Q :=
  Yields.pure ⟨a, rfl, h⟩

theorem Returns.lift {m : SupplyM α} (h : s.Yields m Q) : s.Returns (liftM m : ExceptT ε SupplyM α) Q :=
  ⟨h.1, _, rfl, h.2⟩

theorem Returns.bind (hm : s.Returns m Q) (hf : ∀ a t, s ≤ t → Q a t → t.Returns (f a) R) :
    s.Returns (m >>= f) R := by
  rw [Returns, ExceptT.run_bind]
  refine Yields.bind hm fun o t hst ho => ?_
  obtain ⟨a, rfl, ha⟩ := ho
  exact hf a t hst ha

theorem Returns.mono (hm : s.Returns m P) (h : ∀ a t, s ≤ t → P a t → Q a t) : s.Returns m Q :=
  Yields.mono hm fun _ t hst ho => ho.imp fun a ha => ⟨ha.1, h a t hst ha.2⟩

theorem Returns.ensures (hm : s.Returns m Q) : s.Ensures m Q := by
  refine Yields.mono hm fun o t _ ho a e => ?_
  obtain ⟨a', ha', hq⟩ := ho
  exact Except.ok.inj (ha'.symm.trans e) ▸ hq

end Failing

/-! ### All outcomes -/

section Outcomes

variable {ε α β τ : Type} {m : ExceptT ε SupplyM α} {f : α → ExceptT ε SupplyM β} {P Q : α → Prop} {R : β → Prop}
  {E : ε → Prop}

/-- Whatever the supply, a result has the first property and an error the second one. -/
def Outcomes (m : ExceptT ε SupplyM α) (P : α → Prop) (E : ε → Prop) : Prop :=
  Always (fun o => (∀ a, o = .ok a → P a) ∧ ∀ e, o = .error e → E e) m.run

namespace Outcomes

theorem pure {a : α} (h : P a) : Outcomes (Pure.pure a : ExceptT ε SupplyM α) P E :=
  Always.pure ⟨fun _ e => Except.ok.inj e ▸ h, nofun⟩

theorem throw {e : ε} (h : E e) : Outcomes (throw e : ExceptT ε SupplyM α) P E :=
  fun _ => ⟨nofun, fun _ e => Except.error.inj e ▸ h⟩

theorem lift {m : SupplyM α} (h : Always P m) : Outcomes (liftM m : ExceptT ε SupplyM α) P E :=
  fun s => ⟨fun _ e => Except.ok.inj e ▸ h s, nofun⟩

theorem bind (hm : Outcomes m P E) (hf : ∀ a, P a → Outcomes (f a) R E) : Outcomes (m >>= f) R E := by
  rw [Outcomes, ExceptT.run_bind]
  refine Always.bind hm fun o ho => ?_
  cases o with
  | ok a => exact hf a (ho.1 a rfl)
  | error e => exact throw (ho.2 e rfl)

theorem allM {g : τ → ExceptT ε SupplyM Bool} {l : List τ} (h : ∀ a ∈ l, Outcomes (g a) (fun _ => True) E) :
    Outcomes (l.allM g) (fun _ => True) E := by
  induction l with
  | nil => exact pure trivial
  | cons a l ih =>
    obtain ⟨ha, hl⟩ := List.forall_mem_cons.1 h
    refine ha.bind fun b _ => ?_
    cases b with
    | false => exact pure trivial
    | true => exact ih hl

end Outcomes

end Outcomes

/-! ### Runs one after the other -/

section Runs

variable {ε α β τ : Type} {s t u : NameSupply}

theorem run_bind_of_ok {σ : Type} {g g' : σ} {m : ExceptT ε (StateM σ) α} {a : α} (h : m.run.run g = (.ok a, g'))
    (f : α → ExceptT ε (StateM σ) β) : (m >>= f).run.run g = (f a).run.run g' := by
  rw [ExceptT.run_bind, StateT.run_bind, h]
  rfl

theorem run_bind_of_error {σ : Type} {g : σ} {m : ExceptT ε (StateM σ) α} {e : ε} (h : (m.run.run g).1 = .error e)
    (f : α → ExceptT ε (StateM σ) β) : ((m >>= f).run.run g).1 = .error e := by
  rw [ExceptT.run_bind, StateT.run_bind]
  rcases hrun : m.run.run g with ⟨_ | a, g'⟩ <;> rw [hrun] at h
  · cases h
    rfl
  · cases h

/-- What is bound gives a result when its parts do. -/
theorem run_bind_eq_ok {σ : Type} {g g' : σ} {m : ExceptT ε (StateM σ) α} {f : α → ExceptT ε (StateM σ) β} {b : β}
    (h : (m >>= f).run.run g = (.ok b, g')) :
    ∃ a g₁, m.run.run g = (.ok a, g₁) ∧ (f a).run.run g₁ = (.ok b, g') := by
  rcases hm : m.run.run g with ⟨e | a, g₁⟩
  · have herror := run_bind_of_error (congrArg Prod.fst hm) f
    rw [h] at herror
    cases herror
  · rw [run_bind_of_ok hm] at h
    exact ⟨a, g₁, rfl, h⟩

theorem run_allM_cons (f : τ → ExceptT ε SupplyM Bool) (a : τ) (l : List τ) :
    ((a :: l).allM f).run.run s =
      match (f a).run.run s with
      | (.ok true, t) => (l.allM f).run.run t
      | (.ok false, t) => (.ok false, t)
      | (.error e, t) => (.error e, t) := by
  rw [List.allM, ExceptT.run_bind, StateT.run_bind]
  rcases (f a).run.run s with ⟨_ | _ | _, t⟩ <;> rfl

/-- A conjunction goes on with the rest when all the first answers are yes. -/
theorem run_allM_append_of_true {f : τ → ExceptT ε SupplyM Bool} {l : List τ}
    (h : (l.allM f).run.run s = (.ok true, t)) (r : List τ) :
    ((l ++ r).allM f).run.run s = (r.allM f).run.run t := by
  induction l generalizing s with
  | nil =>
    cases h
    rfl
  | cons a l ih =>
    rw [List.cons_append, run_allM_cons]
    rw [run_allM_cons] at h
    rcases ha : (f a).run.run s with ⟨_ | _ | _, u⟩ <;> rw [ha] at h
    · cases h
    · cases h
    · exact ih h

/-- When a conjunction is answered, the conjunction of its first parts is. -/
theorem run_allM_of_append {f : τ → ExceptT ε SupplyM Bool} {l r : List τ} {b : Bool}
    (h : ((l ++ r).allM f).run.run s = (.ok b, t)) : ∃ b' u, (l.allM f).run.run s = (.ok b', u) := by
  induction l generalizing s with
  | nil => exact ⟨true, s, rfl⟩
  | cons a l ih =>
    rw [List.cons_append, run_allM_cons] at h
    rw [run_allM_cons]
    rcases ha : (f a).run.run s with ⟨_ | _ | _, u⟩ <;> rw [ha] at h
    · cases h
    · exact ⟨false, u, rfl⟩
    · exact ih h

/-- The second computation returns what the first one returns, from every supply. -/
def Refines (m m' : ExceptT ε SupplyM α) : Prop :=
  ∀ s a t, m.run.run s = (.ok a, t) → m'.run.run s = (.ok a, t)

theorem Refines.refl (m : ExceptT ε SupplyM α) : Refines m m :=
  fun _ _ _ h => h

theorem Refines.bind {m m' : ExceptT ε SupplyM α} {f f' : α → ExceptT ε SupplyM β} (hm : Refines m m')
    (hf : ∀ a, Refines (f a) (f' a)) : Refines (m >>= f) (m' >>= f') := by
  intro s b t h
  rcases hma : m.run.run s with ⟨e | a, u⟩
  · rw [ExceptT.run_bind, StateT.run_bind, hma] at h
    cases h
  · rw [run_bind_of_ok hma] at h
    rw [run_bind_of_ok (hm s a u hma)]
    exact hf a u b t h

theorem Refines.allM {f f' : τ → ExceptT ε SupplyM Bool} {l : List τ} (h : ∀ a ∈ l, Refines (f a) (f' a)) :
    Refines (l.allM f) (l.allM f') := by
  induction l with
  | nil => exact .refl _
  | cons a l ih =>
    refine (h a List.mem_cons_self).bind fun b => ?_
    cases b with
    | false => exact .refl _
    | true => exact ih fun c hc => h c (List.mem_cons_of_mem a hc)

end Runs

/-! ### Conjunctions -/

section AllM

variable {ε τ : Type} {s : NameSupply} {f : τ → ExceptT ε SupplyM Bool} {l : List τ} {P N : τ → Prop}

/-- What a true and a false answer for each element say, they say for the whole list. -/
theorem Ensures.allM (h : ∀ a ∈ l, ∀ t, s ≤ t →
      t.Ensures (f a) fun b _ => (b = true → P a) ∧ (b = false → N a)) :
    s.Ensures (l.allM f) fun b _ => (b = true → ∀ a ∈ l, P a) ∧ (b = false → ∃ a ∈ l, N a) := by
  induction l generalizing s with
  | nil => exact .pure ⟨fun _ => by simp, nofun⟩
  | cons a l ih =>
    refine (h a List.mem_cons_self s (le_refl s)).bind fun b t hst hb => ?_
    cases b with
    | false => exact .pure ⟨nofun, fun _ => ⟨a, List.mem_cons_self, hb.2 rfl⟩⟩
    | true =>
      refine (ih fun c hc u hu => h c (List.mem_cons_of_mem a hc) u (le_trans hst hu)).mono fun b u _ hrest => ?_
      refine ⟨fun e => List.forall_mem_cons.2 ⟨hb.1 rfl, hrest.1 e⟩, fun e => ?_⟩
      exact (hrest.2 e).imp fun c hc => ⟨List.mem_cons_of_mem a hc.1, hc.2⟩

theorem Returns.allM (h : ∀ a ∈ l, ∀ t, s ≤ t → t.Returns (f a) fun b _ => (b = true ↔ P a)) :
    s.Returns (l.allM f) fun b _ => (b = true ↔ ∀ a ∈ l, P a) := by
  induction l generalizing s with
  | nil => exact .pure (by simp)
  | cons a l ih =>
    refine (h a List.mem_cons_self s (le_refl s)).bind fun b t hst hb => ?_
    cases b with
    | false => exact .pure (by simp [← hb])
    | true =>
      refine (ih fun c hc u hu => h c (List.mem_cons_of_mem a hc) u (le_trans hst hu)).mono fun b u _ hrest => ?_
      rw [hrest, List.forall_mem_cons, ← hb]
      simp

end AllM

/-! ### Lists -/

section MapM

variable {ε α β : Type} {s : NameSupply} {l : List α} {P : β → NameSupply → Prop}

/-- What holds of the result for each element, whatever is drawn later, holds of all results for a list. -/
theorem Yields.mapM {f : α → SupplyM β} (hmono : ∀ b t u, t ≤ u → P b t → P b u)
    (h : ∀ a ∈ l, ∀ t, s ≤ t → t.Yields (f a) P) :
    s.Yields (l.mapM f) fun bs t => bs.length = l.length ∧ ∀ b ∈ bs, P b t := by
  induction l generalizing s with
  | nil => exact .pure ⟨rfl, by simp⟩
  | cons a l ih =>
    rw [List.mapM_cons]
    refine (h a List.mem_cons_self s (le_refl s)).bind fun b t hst hb => ?_
    have hl := ih fun c hc u hu => h c (List.mem_cons_of_mem a hc) u (le_trans hst hu)
    refine hl.bind fun bs u htu hbs => .pure ⟨congrArg (· + 1) hbs.1, ?_⟩
    exact List.forall_mem_cons.2 ⟨hmono b t u htu hb, hbs.2⟩

theorem drawAll_yields (s : NameSupply) (bases : List Name) :
    s.Yields (drawAll bases) fun ns t => ns.length = bases.length ∧ ∀ n ∈ ns, t.AheadOf n :=
  .mapM (fun _ _ _ htu h => h.mono htu) fun base _ t _ => .draw (aheadOf_numbered (Nat.lt_succ_self t.next) base)

end MapM

end NameSupply

end MuTypes
