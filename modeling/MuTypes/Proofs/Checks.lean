import MuTypes.CheckM
import MuTypes.Proofs.Supply

/-!
# What checks end with

`NameSupply.Checks` is the triple for computations that draw names and may fail: started from a supply they end with a
result that has a property, and a supply that has not gone back, or with a failure.  That failure is a violated rule or
a lack of fuel.  No check stops because a comparison met a type variable that is not in scope.
-/

namespace MuTypes

/-- The comparison has not stopped at a type variable that is not in scope. -/
def Halt.InScope (h : Halt) : Prop :=
  ∀ expected actual, h ≠ .unscoped expected actual

/-- The check has not stopped at a type variable that is not in scope. -/
def Failure.InScope (f : Failure) : Prop :=
  ∀ expected actual, f ≠ .halt (.unscoped expected actual)

namespace NameSupply

variable {α β τ : Type} {s : NameSupply} {m : CheckM α} {f : α → CheckM β} {P Q : α → NameSupply → Prop}
  {R : β → NameSupply → Prop}

/-- Started from the supply, the check ends with a result that has the property, or it fails, but not at a type
variable out of scope. -/
def Checks (s : NameSupply) (m : CheckM α) (Q : α → NameSupply → Prop) : Prop :=
  s.Yields m.run fun o t => (∀ a, o = .ok a → Q a t) ∧ ∀ f, o = .error f → f.InScope

namespace Checks

theorem pure {a : α} (h : Q a s) : s.Checks (Pure.pure a : CheckM α) Q :=
  Yields.pure ⟨fun _ e => Except.ok.inj e ▸ h, nofun⟩

theorem violation (v : Violation) (span : Span) : s.Checks (CheckM.violation v span) Q :=
  ⟨le_refl s, nofun, fun f e x y he => by cases Except.error.inj e; cases he⟩

theorem unfinished : s.Checks (throw (.halt .unfinished)) Q :=
  ⟨le_refl s, nofun, fun f e x y he => by cases Except.error.inj e; cases he⟩

theorem lift {m : SupplyM α} (h : s.Yields m Q) : s.Checks (liftM m : CheckM α) Q :=
  ⟨h.1, fun _ e => Except.ok.inj e ▸ h.2, nofun⟩

/-- A comparison within a check, which must not stop at a variable out of scope. -/
theorem compare {m : CompareM α} (h : s.Ensures m Q) (hscope : ∀ f, (m.run.run s).1 = .error f → f.InScope) :
    s.Checks (liftM m : CheckM α) Q := by
  have hrun : (liftM m : CheckM α).run.run s = ((m.run.run s).1.mapError Failure.halt, (m.run.run s).2) := rfl
  obtain ⟨hs, hq⟩ := h
  unfold Checks Yields
  rw [hrun]
  refine ⟨hs, fun a e => hq a ?_, fun f e => ?_⟩
  · rcases hm : (m.run.run s).1 with _ | a' <;> rw [hm] at e <;> cases e
    rfl
  · rcases hm : (m.run.run s).1 with g | _ <;> rw [hm] at e <;> cases e
    intro x y he
    cases he
    exact hscope _ hm x y rfl

theorem bind (hm : s.Checks m Q) (hf : ∀ a t, s ≤ t → Q a t → t.Checks (f a) R) : s.Checks (m >>= f) R := by
  rw [Checks, ExceptT.run_bind]
  refine Yields.bind hm fun o t hst ho => ?_
  cases o with
  | ok a => exact hf a t hst (ho.1 a rfl)
  | error e => exact ⟨le_refl t, nofun, fun f he => Except.error.inj he ▸ ho.2 e rfl⟩

theorem mono (hm : s.Checks m P) (h : ∀ a t, s ≤ t → P a t → Q a t) : s.Checks m Q :=
  Yields.mono hm fun _ t hst ho => ⟨fun a e => h a t hst (ho.1 a e), ho.2⟩

theorem forM {l : List τ} {f : τ → CheckM Unit}
    (h : ∀ a ∈ l, ∀ t, s ≤ t → t.Checks (f a) fun _ _ => True) : s.Checks (l.forM f) fun _ _ => True := by
  induction l generalizing s with
  | nil => exact .pure trivial
  | cons a l ih =>
    refine (h a List.mem_cons_self s (le_refl s)).bind fun _ t hst _ => ?_
    exact ih fun c hc u hu => h c (List.mem_cons_of_mem a hc) u (le_trans hst hu)

theorem mapM {l : List τ} {f : τ → CheckM β} (hmono : ∀ b t u, t ≤ u → R b t → R b u)
    (h : ∀ a ∈ l, ∀ t, s ≤ t → t.Checks (f a) R) :
    s.Checks (l.mapM f) fun bs t => bs.length = l.length ∧ ∀ b ∈ bs, R b t := by
  induction l generalizing s with
  | nil => exact .pure ⟨rfl, by simp⟩
  | cons a l ih =>
    rw [List.mapM_cons]
    refine (h a List.mem_cons_self s (le_refl s)).bind fun b t hst hb => ?_
    have hl := ih fun c hc u hu => h c (List.mem_cons_of_mem a hc) u (le_trans hst hu)
    refine hl.bind fun bs u htu hbs => .pure ⟨congrArg (· + 1) hbs.1, ?_⟩
    exact List.forall_mem_cons.2 ⟨hmono b t u htu hb, hbs.2⟩

end Checks

end NameSupply

end MuTypes
