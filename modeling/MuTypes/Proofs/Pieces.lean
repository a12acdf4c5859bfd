import MuTypes.Proofs.Alpha
import MuTypes.Proofs.Renumbering

/-!
# Checking in pieces

A type that one check gives can be handed to a later check, for a variable.  When the supply of the later check is ahead
of the names in that type, then the outcome is that of checking both at once (`pieces_sameOutcome`): the later check
draws other names than the one at once, but it does the same with them.

A supply that starts again from one need not be ahead of them.  Then a binder can be renamed to a name that the type has
already, and captures (`pieces_differ`).
-/

namespace MuTypes

open NameSupply

/-! ### Outcomes from different supplies -/

/-- Both checks give types, which are equal up to bound names, or both fail for the same kind of reason at the same
place. -/
def SameOutcome : Except Failure Ty → Except Failure Ty → Prop :=
  OutcomesRelated (fun t t' => t.alphaEquiv t' = true) Failure.SameKind

theorem Failure.SameKind.symm {e e' : Failure} (h : e.SameKind e') : e'.SameKind e := by
  cases e <;> cases e'
  · exact ⟨h.1.symm, h.2.symm⟩
  · cases h
  · cases h
  · exact Eq.symm h

section Supplies

variable {cx : Context} {env : Env} {e : Expr} {s s' : NameSupply}

/-- From a later supply that is ahead of the environment as well, checking gives the type with other names for those
that are drawn. -/
private theorem typeOf_renamed (haliases : cx.aliases.Unnumbered) (he : e.Unnumbered) (henv : env.InOrder [] s)
    (hss : s ≤ s') : ∃ f, Function.Injective f ∧ OutcomesRelated (fun t t' => t' = t.rename f) Failure.SameKind
      ((e.typeOf cx env).run.run s).1 ((e.typeOf cx env).run.run s').1 := by
  obtain ⟨d, hd⟩ := Nat.exists_eq_add_of_le (le_def.1 hss)
  have hshifted := (Expr.typeOf_shifted haliases he (fun p hp => (henv p hp).ahead) d).1
  rw [← hd] at hshifted
  refine ⟨renumber s.next s'.next, ?_, ?_⟩
  · rw [hd]
    exact (shifts_renumber s.next d).injective
  · rw [hshifted]
    exact related_renameOutcome _ _

/-- Checking has the same outcome from all supplies that are ahead of the environment. -/
theorem typeOf_sameOutcome (haliases : cx.aliases.Unnumbered) (he : e.Unnumbered) (henv : env.InOrder [] s)
    (henv' : env.InOrder [] s') : SameOutcome ((e.typeOf cx env).run.run s).1 ((e.typeOf cx env).run.run s').1 := by
  -- from both supplies the types are well-formed and closed, so renaming shows in bound names only
  have hright : ∀ s, env.InOrder [] s → ∀ t, ((e.typeOf cx env).run.run s).1 = .ok t →
      t.WellFormed ∧ ∀ x, ¬ t.mentions x = true := by
    intro s henv t ht
    have hproper : MuTypes.Proper cx [] env s :=
      ⟨henv, by simp [Scope.meanings], aheadOfAliases_of_unnumbered haliases s⟩
    have hin := (Expr.typeIn_right cx e [] env s hproper (he.mono fun n hn => aheadOf_of_at_sign_not_mem hn s)).2.1 t ht
    exact ⟨hin.wellFormed, fun x hx => List.not_mem_nil (hin.mem x hx)⟩
  rcases le_total s.next s'.next with hss | hss
  · obtain ⟨f, hf, hrun⟩ := typeOf_renamed haliases he henv (le_def.2 hss)
    have ht := hright s henv
    revert hrun ht
    cases ((e.typeOf cx env).run.run s).1 <;> cases ((e.typeOf cx env).run.run s').1 <;> intro hrun ht
    · exact hrun
    · cases hrun
    · cases hrun
    · obtain ⟨hw, hclosed⟩ := ht _ rfl
      have hbare := Ty.bare_rename hf hclosed
      rw [← hrun] at hbare
      exact hw.alphaEquiv_of_bare_eq hbare.symm
  · obtain ⟨f, hf, hrun⟩ := typeOf_renamed haliases he henv' (le_def.2 hss)
    have ht := hright s henv
    have ht' := hright s' henv'
    revert hrun ht ht'
    cases ((e.typeOf cx env).run.run s).1 <;> cases ((e.typeOf cx env).run.run s').1 <;> intro hrun ht ht'
    · exact Failure.SameKind.symm hrun
    · cases hrun
    · cases hrun
    · have hbare := Ty.bare_rename hf (ht' _ rfl).2
      rw [← hrun] at hbare
      exact (ht _ rfl).1.alphaEquiv_of_bare_eq hbare

end Supplies

/-! ### A check and a later one -/

/-- Checking an expression for a variable of the type that another check gave has the same outcome as checking both at
once, when the supply is ahead of the names in that type. -/
theorem pieces_sameOutcome {cx : Context} {e rest : Expr} {t : Ty} {s : NameSupply} (haliases : cx.aliases.Unnumbered)
    (he : e.Unnumbered) (hrest : rest.Unnumbered) (ht : (e.typeOf cx .empty).result = .ok t) (hs : s.AheadOfTy t)
    (x : Name) (span : Span) :
    SameOutcome ((rest.typeOf cx (Env.empty.bind x t)).run.run s).1
      ((Expr.mk span (.bind x e rest)).typeOf cx .empty).result := by
  have hempty : Env.Unnumbered .empty := by simp [Env.Unnumbered, Env.empty]
  have hin := (Call.proper_of_unnumbered haliases hempty he {}).checks.2.1 t ht
  have hrun : ((Expr.mk span (.bind x e rest)).typeOf cx .empty).result =
      ((rest.typeOf cx (Env.empty.bind x t)).run.run ((e.typeOf cx .empty).run.run {}).2).1 := by
    have hfirst : (e.typeIn cx [] .empty).run.run {} = (.ok t, ((e.typeOf cx .empty).run.run {}).2) := Prod.ext ht rfl
    rw [CheckM.result, Expr.typeOf, Expr.typeIn_mk, Checker.rule, run_bind_of_ok hfirst]
    rfl
  rw [hrun]
  refine typeOf_sameOutcome haliases hrest (List.forall_mem_singleton.2 ⟨hin.wellFormed, hin.mem, hs⟩) ?_
  exact List.forall_mem_singleton.2 hin

/-! ### A supply that starts again -/

/-- `type F<T> = <Y>(mu R. { a: Y; c: T; n: <Y>{ b: Y; c: T; n: R } })` -/
def cellContext : Context where
  aliases := [{
    name := "F"
    params := some ["T"]
    body := .mk ⟨11, 12⟩ (.generic ["Y"] (.mk ⟨10, 11⟩ (.mu "R" (.mk ⟨9, 10⟩ (.object [("a", .mk ⟨0, 1⟩ (.ref "Y")),
      ("c", .mk ⟨1, 2⟩ (.ref "T")), ("n", .mk ⟨8, 9⟩ (.generic ["Y"] (.mk ⟨7, 8⟩ (.object [("b", .mk ⟨2, 3⟩ (.ref "Y")),
        ("c", .mk ⟨3, 4⟩ (.ref "T")), ("n", .mk ⟨4, 5⟩ (.ref "R"))]))))])))))
    span := ⟨12, 13⟩ }]

/-- `<Y><Y>` and the empty array of type `F<Y>[]`. -/
def cells : Expr :=
  .mk ⟨17, 18⟩ (.generic ["Y"] (.mk ⟨16, 17⟩ (.generic ["Y"] (.mk ⟨15, 16⟩ (.emptyArray
    (.mk ⟨14, 15⟩ (.container .array (.mk ⟨13, 14⟩ (.app "F" [.mk ⟨18, 19⟩ (.ref "Y")])))))))))

/-- `x === x` -/
def selfCompared : Expr :=
  .mk ⟨20, 21⟩ (.compare .same (.mk ⟨21, 22⟩ (.var "x")) (.mk ⟨22, 23⟩ (.var "x")))

/-- `<Y><Y@1>(<Y>(mu R. { a: Y; c: Y@1; n: <Y>{ b: Y; c: Y@1; n: R } }))[]` -/
def cellsTy : Ty :=
  .generic ["Y"] (.generic ["Y@1"] (.array (.generic ["Y"] (.mu "R" (.object [("a", .var "Y"), ("c", .var "Y@1"),
    ("n", .generic ["Y"] (.object [("b", .var "Y"), ("c", .var "Y@1"), ("n", .var "R")]))])))))

private theorem typeOf_cells : (cells.typeOf cellContext .empty).result = .ok cellsTy := by
  cbv

private theorem typeOf_bind_cells :
    ((Expr.mk ⟨19, 20⟩ (.bind "x" cells selfCompared)).typeOf cellContext .empty).result = .ok .boolean := by
  cbv

/-- At once the comparison of the variable with itself is fine, and in pieces it is a mismatch. -/
theorem pieces_differ :
    (cells.typeOf cellContext .empty).result = .ok cellsTy ∧
    ((Expr.mk ⟨19, 20⟩ (.bind "x" cells selfCompared)).typeOf cellContext .empty).result = .ok .boolean ∧
    (selfCompared.typeOf cellContext (Env.empty.bind "x" cellsTy)).result =
      .error (.rule ⟨.mismatch .operands cellsTy cellsTy, ⟨20, 21⟩⟩) :=
  ⟨typeOf_cells, typeOf_bind_cells, by cbv⟩

private theorem cellContext_unnumbered : cellContext.aliases.Unnumbered := by
  simp [Aliases.Unnumbered, cellContext, TyExpr.Unnumbered, TyExpr.binders, TyExpr.bindersForm, TyExpr.bindersRow]

private theorem cells_unnumbered : cells.Unnumbered := by
  refine .mk (by decide) (List.forall_mem_singleton.2 (.mk (by decide) (List.forall_mem_singleton.2 (.mk ?_ nofun))))
  simp [Term.ownBinders, TyExpr.binders, TyExpr.bindersForm, TyExpr.bindersArgs]

private theorem selfCompared_unnumbered : selfCompared.Unnumbered := by
  have hvar : ∀ span, (Expr.mk span (.var "x")).Unnumbered := fun span => .mk (by simp [Term.ownBinders]) nofun
  refine .mk (by simp [Term.ownBinders]) ?_
  exact List.forall_mem_cons.2 ⟨hvar _, List.forall_mem_singleton.2 (hvar _)⟩

/-- From a supply that is past the one drawn name in the type, the comparison is fine in pieces as well. -/
theorem pieces_sameOutcome_cells :
    (⟨2⟩ : NameSupply).AheadOfTy cellsTy ∧
    SameOutcome ((selfCompared.typeOf cellContext (Env.empty.bind "x" cellsTy)).run.run ⟨2⟩).1 (.ok .boolean) := by
  have hahead : (⟨2⟩ : NameSupply).AheadOfTy cellsTy := by
    have hnames : ∀ x ∈ cellsTy.typeNames, x = numbered "Y" 1 ∨ '@' ∉ x.toList := by decide
    intro x hx
    rcases hnames x hx with rfl | h
    · exact aheadOf_numbered (by decide) "Y"
    · exact aheadOf_of_at_sign_not_mem h _
  refine ⟨hahead, ?_⟩
  rw [← typeOf_bind_cells]
  exact pieces_sameOutcome cellContext_unnumbered cells_unnumbered selfCompared_unnumbered typeOf_cells hahead "x" _

end MuTypes
