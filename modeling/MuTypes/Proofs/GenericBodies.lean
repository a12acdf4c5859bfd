import MuTypes.Proofs.Filling.Typing

/-!
# Generic expressions and their instances

The body of a generic expression is checked once, with a type variable for its parameter.  That stands for all checks of
the body with an annotation put for the parameter (`Expr.typeOf_generic_instance`): these give what instantiating the
generic expression gives, up to bound names, unless types are refused that the one check has accepted wrongly.

A check below a type parameter may accept types that it refuses elsewhere, since a type parameter inside another one
of the same name means a fresh variable (`generic_not_instance`).  A binder of that name, in an annotation below, keeps
its name over unrollings then, and a cycle is closed where it should not be.  Outside it gets a new name each time.
-/

namespace MuTypes

open NameSupply Ty

theorem Nameless.fill_update (x : Name) (v n : Nameless Name) : n.fill (Function.update .free x v) = n.put x v := by
  rw [fill, put]
  congr
  funext _ y
  exact Function.update_apply ..

/-- One type parameter at the outermost level means the variable of its name. -/
private theorem typeOf_generic (cx : Context) (env : Env) (span : Span) (x : Name) (body : Expr) :
    (Expr.mk span (.generic [x] body)).typeOf cx env =
      body.typeIn cx [⟨x, x, false⟩] env >>= fun t => pure (.generic [x] t) := by
  rw [Expr.typeOf, Expr.typeIn_mk, Checker.rule]
  rfl

theorem Ty.expectGeneric_generic (ns : List Name) (b : Ty) (span : Span) :
    (Ty.generic ns b).expectGeneric span = pure (ns, b) :=
  rfl

section Instances

variable {cx : Context} {env : Env} {x : Name} {body : Expr} {arg : TyExpr} {r t : Ty}

/-- The scopes of a body below one type parameter and of the body with an annotation put for that. -/
private theorem filled_single (hx : '@' ∉ x.toList) (harg : arg.Unnumbered)
    (hr : (cx.resolve [] arg).result = .ok r) (hdefined : r ≠ .undefined) {u : NameSupply} (hin : r.InOrder [] u)
    (s s' : NameSupply) :
    Scope.Filled cx.aliases (.single x arg) (Function.update .free x r.bare) [⟨x, x, false⟩] [] s s' := by
  have hupdate : ∀ y, Function.update Nameless.free x r.bare y = if y = x then r.bare else .free y := fun y =>
    Function.update_apply ..
  have hfilling : Filling (Function.update .free x r.bare) [x] [] := by
    refine ⟨fun y => ?_, fun y => ?_, fun y hy z hz => ?_, fun y hy => ?_⟩
    · rw [hupdate]
      split
      · exact hin.wellFormed.sound
      · exact Nameless.sound_free y
    · rw [hupdate]
      split
      · exact mt bare_eq_prim_iff.1 hdefined
      · nofun
    · rw [List.mem_singleton.1 hy, Function.update_self] at hz
      exact hin.mem z (has_nameless_iff.1 hz).1
    · exact Function.update_of_ne (mt List.mem_singleton.2 hy) _ _
  have hparams : Scope.OfParams [⟨x, x, false⟩] s := by
    refine ⟨List.forall_mem_singleton.2 (.inl rfl), List.forall_mem_singleton.2 rfl, List.forall_mem_singleton.2 ?_⟩
    exact aheadOf_of_at_sign_not_mem hx s
  refine ⟨hfilling, hparams, ⟨nofun, nofun, nofun⟩, fun y v hy hv => ?_, fun _ _ => rfl, fun y a hy => ?_⟩
  · obtain rfl : v = ⟨x, x, false⟩ := List.mem_singleton.1 (List.mem_of_find?_eq_some hv)
    have hxy : x = y := by simpa using List.find?_some hv
    rw [Fillers.single, if_pos hxy.symm] at hy
    cases hy
  · obtain ⟨rfl, rfl⟩ := Fillers.single_eq_some hy
    refine ⟨harg, fun _ _ => List.not_mem_nil, ⟨y, y, false⟩, List.find?_cons_of_pos (by simp), ?_⟩
    exact ⟨{}, _, r, Prod.ext hr rfl, ((hupdate y).trans (if_pos rfl)).symm⟩

private theorem resolve_returns (haliases : cx.aliases.Unnumbered) (harg : arg.Unnumbered)
    (hr : (cx.resolve [] arg).result = .ok r) (s : NameSupply) :
    s.Returns (cx.resolve [] arg) fun q u => q.bare = r.bare ∧ q.InOrder [] u := by
  have hnone : ∀ n ∈ Scope.meanings [], s.AheadOf n := List.forall_mem_nil _
  have hin := TyExpr.resolve_inOrder (aheadOfAliases_of_unnumbered haliases s) hnone arg
    (aheadOfTyExpr_of_unnumbered harg s)
  obtain ⟨q, u, hq, -, hs, hbare⟩ := TyExpr.resolve_again haliases harg {} s r _ (Prod.ext hr rfl)
  have hrun : (cx.resolve [] arg).run.run s = (.ok q, u) := hq
  unfold Returns Yields
  rw [hrun]
  exact ⟨hs, q, rfl, hbare, (congrArg Prod.snd hq) ▸ hin.2.1 q (congrArg Prod.fst hq)⟩

/-- Instantiating a generic expression puts what the argument means for the parameter. -/
private theorem instantiate_returns {target : Expr} (haliases : cx.aliases.Unnumbered)
    (harg : arg.Unnumbered) (hr : (cx.resolve [] arg).result = .ok r)
    (htarget : NameSupply.Returns {} (target.typeOf cx env) fun g u => g = .generic [x] t ∧ g.InOrder [] u)
    (span : Span) : NameSupply.Returns {} ((Expr.mk span (.instantiate target [arg])).typeOf cx env) fun u s' =>
      u.Spells (t.bare.put x r.bare) s' ∧ u.InOrder [] s' := by
  rw [Expr.typeOf, Expr.typeIn_mk, Checker.rule]
  refine htarget.bind fun g s₁ h₁ hg => ?_
  obtain ⟨rfl, hg⟩ := hg
  obtain ⟨hd, hns, hbody⟩ := inOrder_generic.1 hg
  have hl : [x].length = [arg].length := rfl
  rw [expectGeneric_generic, pure_bind]
  dsimp only
  rw [if_pos hl, List.mapM_cons, List.mapM_nil, bind_assoc]
  refine (resolve_returns haliases harg hr s₁).bind fun q s₂ h₂ hq => ?_
  rw [pure_bind, pure_bind]
  obtain ⟨hbare, hq⟩ := hq
  have hargs : ∀ a ∈ [q], a.InOrder [] s₂ := List.forall_mem_singleton.2 hq
  have hns₂ : ∀ n ∈ [x], s₂.AheadOf n := fun n hn => (hns n hn).mono h₂
  have hbody₂ := hbody.mono h₂
  have hyields := (instantiate_yields rfl hd hns₂ (fun a ha => (hargs a ha).spells) hbody₂.spells).and
    (instantiate_inOrder rfl hd hns₂ hbody₂ hargs)
  refine (Returns.lift hyields).mono fun u s₃ _ hu => ⟨?_, hu.2⟩
  have hopen : (t.nameless [x]).openAt 0 [q.bare] = t.bare.put x r.bare := by
    rw [nameless_eq_enclose, openAt_enclose (closedAt_nameless [] t), hbare]
  exact hopen ▸ hu.1

variable {g : Ty} {span : Span}

/-- When a generic expression has a type, then that has the parameter for its own, and every instance has a type: that
of the body, with what the argument means for the parameter.  The body with the argument put for the parameter has the
same type up to bound names, or its check fails with an excuse: a comparison lacks fuel, or types are refused that were
accepted wrongly. -/
theorem Expr.typeOf_generic_instance (haliases : cx.aliases.Unnumbered) (henv : env.Unnumbered)
    (hgeneric : (Expr.mk span (.generic [x] body)).Unnumbered) (harg : arg.Unnumbered)
    (hbinds : body.Binds fun b => b ∉ arg.names) (hr : (cx.resolve [] arg).result = .ok r) (hdefined : r ≠ .undefined)
    (hg : ((Expr.mk span (.generic [x] body)).typeOf cx env).result = .ok g) (span' : Span) :
    ∃ t u, g = .generic [x] t ∧
      ((Expr.mk span' (.instantiate (.mk span (.generic [x] body)) [arg])).typeOf cx env).result = .ok u ∧
      (∀ s : NameSupply, s.AheadOfTy t → s.AheadOfTy r → u.alphaEquiv ((subst x r t).run s).1 = true) ∧
      ((∃ t', ((body.fill (.single x arg)).typeOf cx env).result = .ok t' ∧ t'.alphaEquiv u = true) ∨
        ∃ f, ((body.fill (.single x arg)).typeOf cx env).result = .error f ∧ f.Excused cx.fuel) := by
  have hchecks := (Call.proper_of_unnumbered haliases henv hgeneric {}).checks
  have hginOrder := hchecks.2.1 g hg
  obtain ⟨hx, hbody⟩ : '@' ∉ x.toList ∧ body.Unnumbered := by
    cases hgeneric with
    | mk own parts => exact ⟨own x (List.mem_singleton_self x), parts body (List.mem_singleton_self body)⟩
  obtain ⟨-, q, hq, -, hrinOrder⟩ := resolve_returns haliases harg hr {}
  obtain rfl : r = q := Except.ok.inj (hr.symm.trans hq)
  have hrun : ((Expr.mk span (.generic [x] body)).typeOf cx env).run.run {} = (.ok g, _) := Prod.ext hg rfl
  rw [typeOf_generic] at hrun
  obtain ⟨t, s₁, ht, hpure⟩ := run_bind_eq_ok hrun
  obtain rfl : Ty.generic [x] t = g := Except.ok.inj (congrArg Prod.fst hpure)
  have htinOrder := (inOrder_generic.1 hginOrder).2.2
  have htarget : NameSupply.Returns {} ((Expr.mk span (.generic [x] body)).typeOf cx env) fun g u =>
      g = .generic [x] t ∧ g.InOrder [] u := ⟨hchecks.1, _, hg, rfl, hginOrder⟩
  obtain ⟨-, u, hu, hspells, huinOrder⟩ := instantiate_returns haliases harg hr htarget span'
  refine ⟨t, u, rfl, hu, fun s hst hsr => ?_, ?_⟩
  · -- the substitution may start anywhere, since only names of binders depend on that
    have hsubst := subst_yields (aheadOf_of_at_sign_not_mem hx s) (hrinOrder.wellFormed.spells hsr)
      (htinOrder.wellFormed.spells hst)
    exact huinOrder.wellFormed.alphaEquiv_of_bare_eq (hspells.bare.trans hsubst.2.bare.symm)
  · have hw : Surroundings cx (.single x arg) _ [⟨x, x, false⟩] [] env env {} {} :=
      ⟨filled_single hx harg hr hdefined hrinOrder {} {}, henv.filled _ _ _ _ _⟩
    have hadmits : body.Binds (Fillers.single x arg).Admits := (hbody.and hbinds).mono fun b hb =>
      ⟨hb.1, fun y a hy => (Fillers.single_eq_some hy).2 ▸ hb.2⟩
    have hruns := body.typeIn_imitates (.refl cx) haliases hw hadmits
    rcases hruns.result (congrArg Prod.fst ht) with ⟨t', s₂, s₂', ht', hfilled⟩ | hfails
    · refine .inl ⟨t', ht', hfilled.right.wellFormed.alphaEquiv_of_bare_eq ?_⟩
      rw [hfilled.bare, hspells.bare, Nameless.fill_update]
    · exact .inr hfails

end Instances

/-! ### Where the body accepts more -/

private def refTo (n : Name) : TyExpr :=
  .mk ⟨0, 1⟩ (.ref n)

private def rowOf (ps : List (Name × TyExpr)) : TyExpr :=
  .mk ⟨1, 2⟩ (.object ps)

private def numberExpr : TyExpr :=
  .mk ⟨2, 3⟩ (.prim .number)

/-- `mu R. { w: X; g: <X>{ y: X; n: R } }` -/
private def renewedExpr : TyExpr :=
  .mk ⟨3, 4⟩ (.mu "R" (rowOf [("w", refTo "X"),
    ("g", .mk ⟨4, 5⟩ (.generic ["X"] (rowOf [("y", refTo "X"), ("n", refTo "R")])))]))

/-- `{ w: X; g: <Y>(mu B. { y: Y; n: { w: X; g: <Z>B } }) }` -/
private def sharedExpr : TyExpr :=
  rowOf [("w", refTo "X"), ("g", .mk ⟨5, 6⟩ (.generic ["Y"] (.mk ⟨6, 7⟩ (.mu "B" (rowOf [("y", refTo "Y"),
    ("n", rowOf [("w", refTo "X"), ("g", .mk ⟨7, 8⟩ (.generic ["Z"] (refTo "B")))])])))))]

/-- `<X>(p: mu R. ..., q: { w: X; ... }) => p === q` -/
private def comparing : Expr :=
  .mk ⟨11, 12⟩ (.generic ["X"] (.mk ⟨10, 11⟩ (.lambda [("p", renewedExpr), ("q", sharedExpr)] none
    (.mk ⟨9, 10⟩ (.compare .same (.mk ⟨8, 9⟩ (.var "p")) (.mk ⟨8, 9⟩ (.var "q")))))))

/-- `(u: X) => <X>(p: mu R. ..., q: { w: X; ... }) => p === q` -/
private def takingFirst (type : TyExpr) : Expr :=
  .mk ⟨12, 13⟩ (.lambda [("u", type)] none comparing)

/-- `mu R. { w: X; g: <X>{ y: X; n: R } }` -/
private def renewedTy : Ty :=
  .mu "R" (.object [("w", .var "X"), ("g", .generic ["X"] (.object [("y", .var "X"), ("n", .var "R")]))])

/-- `{ w: X; g: <Y>(mu B. { y: Y; n: { w: X; g: <Z>B } }) }` -/
private def sharedTy : Ty :=
  .object [("w", .var "X"), ("g", .generic ["Y"] (.mu "B" (.object [("y", .var "Y"),
    ("n", .object [("w", .var "X"), ("g", .generic ["Z"] (.var "B"))])])))]

/-- `<X>(u: X) => <X>(p: mu R. ..., q: { w: X; ... }) => p === q` -/
private def takingGeneric : Expr :=
  .mk ⟨13, 14⟩ (.generic ["X"] (takingFirst (refTo "X")))

private theorem takingFirst_binds {p : Name → Prop} (h : ∀ b ∈ ["X", "R", "X", "Y", "B", "Z"], p b) :
    (takingFirst (refTo "X")).Binds p := by
  have hvar : ∀ span x, (Expr.mk span (.var x)).Binds p := fun _ _ => .mk nofun nofun
  have hcompare : (Expr.mk ⟨9, 10⟩ (.compare .same (.mk ⟨8, 9⟩ (.var "p")) (.mk ⟨8, 9⟩ (.var "q")))).Binds p :=
    .mk nofun (List.forall_mem_cons.2 ⟨hvar _ _, List.forall_mem_singleton.2 (hvar _ _)⟩)
  refine .mk nofun (List.forall_mem_singleton.2 (.mk (List.forall_mem_singleton.2 (h "X" List.mem_cons_self)) ?_))
  exact List.forall_mem_singleton.2 (.mk (fun b hb => h b (.tail "X" hb)) (List.forall_mem_singleton.2 hcompare))

private theorem takingGeneric_unnumbered : takingGeneric.Unnumbered :=
  .mk (by decide) (List.forall_mem_singleton.2 (takingFirst_binds (by decide)))

private theorem takingGeneric_accepted : ∃ t, (takingGeneric.typeOf {} .empty).result = .ok t :=
  ⟨_, by cbv⟩

private theorem fill_takingFirst : (takingFirst (refTo "X")).fill (.single "X" numberExpr) = takingFirst numberExpr :=
  rfl

private theorem instance_refused : ((takingFirst numberExpr).typeOf {} .empty).result =
    .error (.rule ⟨.mismatch .operands renewedTy sharedTy, ⟨9, 10⟩⟩) := by
  cbv

/-- The generic expression has a type, but its body, with `number` put for the parameter, is refused. -/
theorem generic_not_instance :
    takingGeneric.Unnumbered ∧ numberExpr.Unnumbered ∧ (takingFirst (refTo "X")).Binds (fun b => b ∉ numberExpr.names) ∧
      (Context.resolve {} [] numberExpr).result = .ok .number ∧
      (∃ t, (takingGeneric.typeOf {} .empty).result = .ok t) ∧
      (((takingFirst (refTo "X")).fill (.single "X" numberExpr)).typeOf {} .empty).result =
        .error (.rule ⟨.mismatch .operands renewedTy sharedTy, ⟨9, 10⟩⟩) :=
  ⟨takingGeneric_unnumbered, List.forall_mem_nil _, takingFirst_binds (by decide), rfl, takingGeneric_accepted,
    fill_takingFirst ▸ instance_refused⟩

/-- `(y: X) => y` -/
private def identity (type : TyExpr) : Expr :=
  .mk ⟨16, 17⟩ (.lambda [("y", type)] none (.mk ⟨15, 16⟩ (.var "y")))

/-- `<X>(y: X) => y` -/
private def genericIdentity : Expr :=
  .mk ⟨17, 18⟩ (.generic ["X"] (identity (refTo "X")))

private theorem identity_binds {p : Name → Prop} : (identity (refTo "X")).Binds p :=
  .mk nofun (List.forall_mem_singleton.2 (.mk nofun nofun))

/-- The instance of `<X>(y: X) => y` for `number` has the type of `(y: number) => y`.  And where a body is refused with
`number` put for the parameter, types have been accepted wrongly below the type parameter. -/
theorem typeOf_generic_instance_number :
    (∃ t u, ((identity numberExpr).typeOf {} .empty).result = .ok t ∧
      ((Expr.mk ⟨18, 19⟩ (.instantiate genericIdentity [numberExpr])).typeOf {} .empty).result = .ok u ∧
      t.alphaEquiv u = true) ∧ AcceptedWrongly 1000000 renewedTy sharedTy := by
  have haliases : (Context.aliases {}).Unnumbered := List.forall_mem_nil _
  have hempty : Env.Unnumbered .empty := List.forall_mem_nil _
  have hnumber : numberExpr.Unnumbered := List.forall_mem_nil _
  constructor
  · have hunnumbered : genericIdentity.Unnumbered :=
      .mk (by decide) (List.forall_mem_singleton.2 identity_binds)
    have htype : (genericIdentity.typeOf {} .empty).result =
      .ok (.generic ["X"] (.func [("y", .var "X")] (.var "X"))) := by cbv
    obtain ⟨_, u, ⟨⟩, hu, -, hok | ⟨f, hf, -⟩⟩ := Expr.typeOf_generic_instance haliases hempty hunnumbered hnumber
      identity_binds rfl (by decide) htype ⟨18, 19⟩
    · obtain ⟨t, ht, halpha⟩ := hok
      exact ⟨t, u, ht, hu, halpha⟩
    · cases hf
  · obtain ⟨g, hg⟩ := takingGeneric_accepted
    obtain ⟨_, u, -, -, -, ⟨t, ht, -⟩ | ⟨f, hf, hexcused⟩⟩ := Expr.typeOf_generic_instance haliases hempty
      takingGeneric_unnumbered hnumber (takingFirst_binds (by decide)) rfl (by decide) hg ⟨18, 19⟩
    · rw [fill_takingFirst, instance_refused] at ht
      cases ht
    · rw [fill_takingFirst, instance_refused] at hf
      cases hf
      cases hexcused with
      | mismatch h => exact h

end MuTypes
