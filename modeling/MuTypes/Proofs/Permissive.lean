import MuTypes.Proofs.Filling.Typing

/-!
# More permissive policies

What is accepted under a policy is accepted under a more permissive one, with the same type up to bound names, unless
types are refused that were accepted wrongly (`Expr.typeOf_permissive`).

That is so since an exact fit is a wide one.  But the two comparisons do not assume the same things.  The variants of a
union are always compared exactly, so a wide comparison that comes back to a union from inside has not assumed the exact
comparison yet, and goes round once more.  There it finds the disagreement that the exact one has missed by closing a
cycle where it should not (`strict_not_permissive`).
-/

namespace MuTypes

open NameSupply

variable {cx cx' : Context} {env : Env} {e : Expr} {t : Ty}

/-- When an expression has a type, then it has the same one under a more permissive policy, up to bound names, or its
check fails with an excuse: a comparison lacks fuel, or types that were accepted wrongly are refused. -/
theorem Expr.typeOf_permissive (hcx : cx.Widens cx') (haliases : cx.aliases.Unnumbered) (henv : env.Unnumbered)
    (he : e.Unnumbered) (ht : (e.typeOf cx env).result = .ok t) :
    (∃ t', (e.typeOf cx' env).result = .ok t' ∧ t.alphaEquiv t' = true) ∨
      ∃ f, (e.typeOf cx' env).result = .error f ∧ f.Excused cx.fuel := by
  have hscopes : Scope.Filled cx.aliases .none .free [] [] {} {} :=
    ⟨.free [], ⟨nofun, nofun, nofun⟩, ⟨nofun, nofun, nofun⟩, fun _ _ _ => nofun, fun _ h => h, fun _ _ => nofun⟩
  have hbinds : e.Binds Fillers.none.Admits := he.mono fun _ hn => ⟨hn, fun _ _ => nofun⟩
  have hruns := e.typeIn_imitates hcx haliases ⟨hscopes, henv.filled .free [] [] {} {}⟩ hbinds
  rw [Expr.fill_none] at hruns
  rcases hruns.result ht with ⟨t', u, u', ht', hfilled⟩ | hfails
  · refine .inl ⟨t', ht', hfilled.left.wellFormed.alphaEquiv_of_bare_eq ?_⟩
    rw [hfilled.bare, Nameless.fill_id]
  · exact .inr hfails

/-- `mu R. <X>(v: { y: X; n: R })` -/
private def renewedUnion : Ty :=
  .mu "R" (.generic ["X"] (.union [("v", [("y", .var "X"), ("n", .var "R")])]))

/-- `<Y>(mu A. (v: { y: Y; n: <Z>A }))` -/
private def sharedUnion : Ty :=
  .generic ["Y"] (.mu "A" (.union [("v", [("y", .var "Y"), ("n", .generic ["Z"] (.var "A"))])]))

/-- `f` is a test of the first union, and `x` is of the second one. -/
private def unionEnv : Env :=
  (Env.empty.bind "x" sharedUnion).bind "f" (.func [("p", renewedUnion)] .boolean)

/-- `f(x)` -/
private def testCall : Expr :=
  .mk ⟨2, 3⟩ (.call (.mk ⟨0, 1⟩ (.var "f")) [.mk ⟨1, 2⟩ (.var "x")])

/-- `x` is of the type that `f` takes. -/
private def sameEnv : Env :=
  (Env.empty.bind "x" renewedUnion).bind "f" (.func [("p", renewedUnion)] .boolean)

private theorem widens_strict : Context.Widens { policy := .strict } {} :=
  ⟨rfl, .inr ⟨rfl, rfl⟩, .refl .exact⟩

private theorem testCall_unnumbered : testCall.Unnumbered := by
  have hvar : ∀ span x, (Expr.mk span (.var x)).Unnumbered := fun _ _ => .mk (by simp [Term.ownBinders]) nofun
  exact .mk (by simp [Term.ownBinders]) (List.forall_mem_cons.2 ⟨hvar _ _, List.forall_mem_singleton.2 (hvar _ _)⟩)

private theorem unionEnv_unnumbered : unionEnv.Unnumbered :=
  unnumbered_of_freeNames (by decide)

private theorem strict_accepts : (testCall.typeOf { policy := .strict } unionEnv).result = .ok .boolean := by
  cbv

private theorem default_refuses : (testCall.typeOf {} unionEnv).result =
    .error (.rule ⟨.mismatch .argument renewedUnion sharedUnion, ⟨1, 2⟩⟩) := by
  cbv

private theorem strict_accepts_same : (testCall.typeOf { policy := .strict } sameEnv).result = .ok .boolean := by
  cbv

private theorem default_accepts_same : (testCall.typeOf {} sameEnv).result = .ok .boolean := by
  cbv

/-- A program that is accepted under the strict policy is refused under the default one. -/
theorem strict_not_permissive :
    Context.Widens { policy := .strict } {} ∧ unionEnv.Unnumbered ∧ testCall.Unnumbered ∧
      (testCall.typeOf { policy := .strict } unionEnv).result = .ok .boolean ∧
      (testCall.typeOf {} unionEnv).result =
        .error (.rule ⟨.mismatch .argument renewedUnion sharedUnion, ⟨1, 2⟩⟩) :=
  ⟨widens_strict, unionEnv_unnumbered, testCall_unnumbered, strict_accepts, default_refuses⟩

/-- Where the types are the same the program is accepted under both policies, and where it is refused under the second
one the types have been accepted wrongly under the first one. -/
theorem typeOf_permissive_testCall :
    (∃ t, (testCall.typeOf {} sameEnv).result = .ok t ∧ Ty.boolean.alphaEquiv t = true) ∧
      AcceptedWrongly 1000000 renewedUnion sharedUnion := by
  have haliases : (Context.aliases { policy := .strict }).Unnumbered := List.forall_mem_nil _
  constructor
  · rcases Expr.typeOf_permissive widens_strict haliases (unnumbered_of_freeNames (by decide)) testCall_unnumbered
      strict_accepts_same with hok | ⟨f, hf, -⟩
    · exact hok
    · rw [default_accepts_same] at hf
      cases hf
  · rcases Expr.typeOf_permissive widens_strict haliases unionEnv_unnumbered testCall_unnumbered strict_accepts with
      ⟨t, ht, -⟩ | ⟨f, hf, hexcused⟩
    · rw [default_refuses] at ht
      cases ht
    · rw [default_refuses] at hf
      cases hf
      cases hexcused with
      | mismatch h => exact h

end MuTypes
