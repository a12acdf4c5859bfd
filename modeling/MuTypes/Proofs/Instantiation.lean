import MuTypes.Proofs.Calls
import MuTypes.Proofs.Filling.Types

/-!
# Instantiating is simultaneous substitution

Arguments go into a generic type one after the other, and all parameters are renamed first only when an argument
mentions a later one.  The nameless form of the result does not show any of this: it is that of the body with every
parameter replaced at once (`instantiate_fills`).  A nameless type has no names of binders, so nothing can be captured
in it.

So all ways to write a generic type and its arguments down have the same instances (`instantiate_alike`), and what a
program gets from an instantiation is the simultaneous substitution up to bound names
(`Expr.instantiate_simultaneous`).
-/

namespace MuTypes

open Nameless NameSupply

/-- Opened binders are alike when what is put for them is. -/
theorem Nameless.opened_alike {α : Type} {vs ws : List (Nameless α)} (h : List.Forall₂ Alike vs ws) (m d i : Nat) :
    Alike (opened m vs d i) (opened m ws d i) := by
  obtain ⟨hl, hget⟩ := List.forall₂_iff_get.1 h
  unfold opened
  split
  · exact rfl
  · by_cases hi : i - (d + m) < vs.length
    · rw [List.getElem?_eq_getElem hi, List.getElem?_eq_getElem (hl ▸ hi)]
      exact hget _ hi (hl ▸ hi)
    · rw [List.getElem?_eq_none (by omega), List.getElem?_eq_none (by omega)]
      exact rfl

namespace Ty

/-! ### Arguments for parameters -/

/-- What a variable is replaced by: a parameter by its argument, and other variables by themselves. -/
def argument (ns : List Name) (args : List Ty) (x : Name) : Nameless Name :=
  ((ns.zip args).lookup x).elim (.free x) bare

section Argument

variable {ns : List Name} {args : List Ty} {x : Name}

theorem argument_of_mem {a : Ty} (hl : ns.length = args.length) (hd : ns.Nodup) (h : (x, a) ∈ ns.zip args) :
    argument ns args x = a.bare := by
  have hkeys : ((ns.zip args).map Prod.fst).Nodup := by rwa [List.map_fst_zip hl.le]
  rw [argument, lookup_of_mem hkeys h, Option.elim_some]

theorem argument_of_not_mem (h : x ∉ ns) : argument ns args x = .free x := by
  have hnone : (ns.zip args).lookup x = none := by
    refine List.lookup_eq_none_iff.2 fun p hp => bne_iff_ne.2 fun he => h ?_
    rw [he]
    exact (List.of_mem_zip hp).1
  rw [argument, hnone, Option.elim_none]

/-- Opening binders for the parameters, the last one innermost, replaces all of them at once. -/
theorem nameless_openAt_eq_fill (hl : ns.length = args.length) (hd : ns.Nodup) (t : Ty) :
    (t.nameless ns.reverse).openAt 0 (args.map bare).reverse = t.bare.fill (argument ns args) := by
  rw [nameless_eq_enclose, enclose, openAt, graft_graft, fill]
  refine graft_congr (Leaves.mono (closedAt_nameless [] t) (fun d i hi => ?_) fun d x _ => ?_)
  · rw [graft_bound, opened, if_pos (by simpa using hi)]
  · rw [leafBelow]
    cases hplace : place ns.reverse x with
    | none =>
      have hx : x ∉ ns := by simpa using place_eq_none_iff.1 hplace
      rw [graft_free, argument_of_not_mem hx]
    | some i =>
      obtain ⟨hi, hx⟩ := place_eq_some hplace
      rw [List.length_reverse] at hi
      rw [List.getElem?_reverse hi] at hx
      have hi' : i < (args.map bare).length := by simpa [← hl] using hi
      -- the argument stands where the parameter does
      obtain ⟨a, ha⟩ : ∃ a, args[ns.length - 1 - i]? = some a := by
        rw [← Option.isSome_iff_exists, isSome_getElem?]
        omega
      have hmem : (x, a) ∈ ns.zip args := List.mem_of_getElem? (List.getElem?_zip_eq_some.2 ⟨hx, ha⟩)
      rw [argument_of_mem hl hd hmem, graft_bound, opened, if_neg (by omega), Nat.zero_add, Nat.add_zero,
        Nat.add_sub_cancel, List.getElem?_reverse hi', List.length_map, ← hl, List.getElem?_map, ha]
      rfl

end Argument

/-! ### Instances -/

section Instances

variable {ns ns' : List Name} {args args' : List Ty} {body body' : Ty} {s : NameSupply}

/-- The nameless form of an instance is that of the body with all arguments put in at once. -/
theorem instantiate_fills (hl : ns.length = args.length) (hg : (Ty.generic ns body).WellFormed)
    (hahead : s.AheadOfTy (.generic ns body)) (hargs : ∀ a ∈ args, a.WellFormed ∧ s.AheadOfTy a) :
    s.Yields (body.instantiate ns args) fun u _ => u.bare = body.bare.fill (argument ns args) := by
  have hspells : ∀ a ∈ args, a.Spells a.bare s := fun a ha => (hargs a ha).1.spells (hargs a ha).2
  cases hg with
  | generic hd hbody =>
    refine (instantiate_yields hl hd (fun n hn => ?_) hspells (hbody.spells fun n hn => ?_)).mono fun u s' _ hu => ?_
    · exact hahead n (mem_typeNames_generic.2 (.inl hn))
    · exact hahead n (mem_typeNames_generic.2 (.inr hn))
    · rw [hu.bare, nameless_openAt_eq_fill hl hd]

/-- Generic types and arguments that are equal up to bound names have instances that are. -/
theorem fill_argument_alike (hl : ns.length = args.length) (hd : ns.Nodup) (hd' : ns'.Nodup)
    (hg : Alike (Ty.generic ns body).bare (Ty.generic ns' body').bare)
    (hargs : List.Forall₂ (fun a a' => a.alphaEquiv a' = true) args args') :
    Alike (body.bare.fill (argument ns args)) (body'.bare.fill (argument ns' args')) := by
  rw [bare_generic, bare_generic] at hg
  obtain ⟨_, he, hbody⟩ := hg
  obtain ⟨hlength, rfl⟩ := Nameless.generic.inj he
  have hl' : ns'.length = args'.length := hlength.trans (hl.trans hargs.length_eq)
  have hput : List.Forall₂ Alike (args.map bare).reverse (args'.map bare).reverse := by
    rw [List.forall₂_reverse_iff, List.forall₂_map_left_iff, List.forall₂_map_right_iff]
    exact hargs.imp fun _ _ => alphaEquiv_iff.1
  rw [← nameless_openAt_eq_fill hl hd, ← nameless_openAt_eq_fill hl' hd']
  exact hbody.graft (fun d i => opened_alike hput 0 d i) fun _ _ => rfl

/-- What unrolls to a generic type up to bound names, unrolls to a generic type. -/
theorem WellFormed.unroll_yields_generic {t : Ty} (h : t.WellFormed) (hs : s.AheadOfTy t)
    (hg : Alike (Ty.generic ns body).bare t.bare.unroll) :
    s.Yields t.unroll fun o s' => ∃ ns' body', o = some (.generic ns' body') ∧ (Ty.generic ns' body').WellFormed ∧
      s'.AheadOfTy (.generic ns' body') ∧ Alike (Ty.generic ns body).bare (Ty.generic ns' body').bare := by
  refine (unroll_yields h.sound (h.spells hs)).mono fun o s' _ ho => ?_
  obtain ⟨t', rfl, -, ht'⟩ := ho
  have hbare := ht'.bare
  obtain ⟨b, hb, -⟩ : ∃ b, t.bare.unroll = .generic ns.length b ∧ _ := by rwa [bare_generic] at hg
  obtain ⟨ns', body', rfl, -⟩ := bare_eq_generic_iff.1 (hbare.trans hb)
  exact ⟨ns', body', rfl, ht'.wellFormed h.sound.unroll.wellFormed, ht'.ahead, hbare ▸ hg⟩

/-- Up to bound names, an instance does not depend on the names of binders in the generic type and in the arguments,
nor on where fresh names start.  The first generic type may also be the unrolling of a type that is equal to the
second one. -/
theorem alphaEquiv_instantiate {g' u : Ty} (hl : ns.length = args.length) (hd : ns.Nodup)
    (hu : u.bare = body.bare.fill (argument ns args)) (hg : Alike (Ty.generic ns body).bare g'.bare.unroll)
    (hargs : List.Forall₂ (fun a a' => a.alphaEquiv a' = true) args args') (hg' : g'.WellFormed)
    (hahead : s.AheadOfTy g') (hargs' : ∀ a ∈ args', a.WellFormed ∧ s.AheadOfTy a) :
    ∃ ns' body' s', g'.unroll.run s = (some (.generic ns' body'), s') ∧
      u.alphaEquiv ((body'.instantiate ns' args').run s').1 = true := by
  obtain ⟨hs, ns', body', hrun, hw, hahead', halike⟩ := hg'.unroll_yields_generic hahead hg
  refine ⟨ns', body', _, Prod.ext hrun rfl, ?_⟩
  have hl' : ns'.length = args'.length := by
    rw [bare_generic, bare_generic] at halike
    obtain ⟨_, he, -⟩ := halike
    exact (Nameless.generic.inj he).1.trans (hl.trans hargs.length_eq)
  have hd' : ns'.Nodup := by
    cases hw with
    | generic hd' _ => exact hd'
  have hfills := instantiate_fills hl' hw hahead' fun a ha => ⟨(hargs' a ha).1, (hargs' a ha).2.mono hs⟩
  rw [alphaEquiv_iff, hu, hfills.2]
  exact fill_argument_alike hl hd hd' halike hargs

end Instances

end Ty

/-! ### Programs -/

section Programs

variable {cx : Context} {scope : Scope} {env : Env} {e target : Expr} {args : List TyExpr} {span : Span} {g u : Ty}
  {ns : List Name} {body : Ty} {ts : List Ty} {s s₁ s₂ s₃ : NameSupply} {c : Call}

/-- The steps of an instantiation that gives a type: the target has a type that unrolls to a generic one, and there is
an argument for each parameter. -/
structure InstantiatesBy (cx : Context) (scope : Scope) (env : Env) (target : Expr) (args : List TyExpr) (g : Ty)
    (ns : List Name) (body : Ty) (ts : List Ty) (s s₁ s₂ s₃ : NameSupply) : Prop where
  target : (target.typeIn cx scope env).run.run s = (.ok g, s₁)
  unroll : g.unroll.run s₁ = (some (.generic ns body), s₂)
  args : (args.mapM (cx.resolve scope)).run.run s₂ = (.ok ts, s₃)
  length : ns.length = ts.length

/-- Where it is called properly, an instantiation that gives a type has these steps, with types in order. -/
private theorem exists_instantiatesBy {s' : NameSupply}
    (hproper : Call.Proper cx ⟨scope, env, .mk span (.instantiate target args), s⟩)
    (h : ((Expr.mk span (.instantiate target args)).typeIn cx scope env).run.run s = (.ok u, s')) :
    ∃ g ns body ts s₁ s₂ s₃, InstantiatesBy cx scope env target args g ns body ts s s₁ s₂ s₃ ∧
      (Ty.generic ns body).bare = g.bare.unroll ∧ (Ty.generic ns body).InOrder scope.meanings s₃ ∧
      (∀ t ∈ ts, t.InOrder scope.meanings s₃) ∧ ((body.instantiate ns ts).run s₃).1 = u := by
  obtain ⟨hp, own, parts⟩ := hproper
  rw [Expr.typeIn_mk, Checker.rule] at h
  obtain ⟨g, s₁, hg, h⟩ := run_bind_eq_ok h
  obtain ⟨⟨ns, body⟩, s₂, hgeneric, h⟩ := run_bind_eq_ok h
  dsimp only at h
  split at h
  · rename_i hlength
    obtain ⟨ts, s₃, hts, h⟩ := run_bind_eq_ok h
    obtain ⟨h₁, hgin⟩ := (Expr.typeIn_right cx target scope env s hp (parts target (by simp [Term.parts]))).of_ok hg
    obtain ⟨h₂, hq⟩ := (expectGeneric_checks hgin _).of_ok hgeneric
    have hargs : s₂.Checks (args.mapM (cx.resolve scope)) fun ts s' =>
        ts.length = args.length ∧ ∀ t ∈ ts, t.InOrder scope.meanings s' := by
      refine Checks.mapM (fun t s' s'' h ht => ht.mono h) fun a ha s' hs' => ?_
      have hs := le_trans h₁ (le_trans h₂ hs')
      exact resolve_checks (hp.mono hs) fun n hn => (own n (List.mem_flatMap.2 ⟨a, ha, hn⟩)).mono hs
    obtain ⟨h₃, hl, htsin⟩ := hargs.of_ok hts
    have hunroll := expectGeneric_eq_ok_iff.1 hgeneric
    have hbare : (Ty.generic ns body).bare = g.bare.unroll := by
      obtain ⟨-, t', ht', -, hspells⟩ := Ty.unroll_yields hgin.wellFormed.sound hgin.spells
      rw [hunroll] at ht'
      exact Option.some.inj ht' ▸ hspells.bare
    exact ⟨g, ns, body, ts, s₁, s₂, s₃, ⟨hg, hunroll, hts, hlength.trans hl.symm⟩, hbare,
      (Ty.inOrder_generic.2 hq).mono h₃, htsin, Except.ok.inj (congrArg Prod.fst h)⟩
  · cases h

/-- Every instantiation in a program that gives a type has a target whose type unrolls to a generic one, and an argument
for each parameter.  The type that it gives is that of the body with all arguments put in at once, up to bound names.
It is the same, up to bound names, for all types that are equal to the target, its unrolling and the arguments. -/
theorem Expr.instantiate_simultaneous (haliases : cx.aliases.Unnumbered) (henv : env.Unnumbered) (he : e.Unnumbered)
    (hc : Relation.ReflTransGen (Calls cx) ⟨[], env, e, {}⟩ c) (hexpr : c.expr = .mk span (.instantiate target args))
    (hu : (c.outcome (Expr.typeIn cx)).1 = .ok u) :
    ∃ g ns body ts s₁ s₂ s₃,
      InstantiatesBy cx c.scope c.env target args g ns body ts c.supply s₁ s₂ s₃ ∧ ns.Nodup ∧
      u.bare = body.bare.fill (Ty.argument ns ts) ∧
      (∀ t : Ty, t.bare = body.bare.fill (Ty.argument ns ts) → u.alphaEquiv t = true) ∧
      ∀ (g' : Ty) (ts' : List Ty) (s : NameSupply),
        (g.alphaEquiv g' = true ∨ (Ty.generic ns body).alphaEquiv g' = true) → g'.WellFormed → s.AheadOfTy g' →
        List.Forall₂ (fun a a' => a.alphaEquiv a' = true) ts ts' → (∀ a ∈ ts', a.WellFormed ∧ s.AheadOfTy a) →
        ∃ ns' body' s', g'.unroll.run s = (some (.generic ns' body'), s') ∧
          u.alphaEquiv ((body'.instantiate ns' ts').run s').1 = true := by
  have hproper := (Call.proper_of_unnumbered haliases henv he {}).calls_all hc
  obtain ⟨scope, env', _, s⟩ := c
  obtain rfl : _ = Expr.mk span (.instantiate target args) := hexpr
  obtain ⟨g, ns, body, ts, s₁, s₂, s₃, hby, hunroll, hgeneric, hts, rfl⟩ :=
    exists_instantiatesBy hproper (Prod.ext hu rfl)
  obtain ⟨hd, -, -⟩ := Ty.inOrder_generic.1 hgeneric
  have hbare := (Ty.instantiate_fills hby.length hgeneric.wellFormed hgeneric.ahead fun a ha =>
    ⟨(hts a ha).wellFormed, (hts a ha).ahead⟩).2
  have hin := hproper.checks.2.1 _ hu
  refine ⟨g, ns, body, ts, s₁, s₂, s₃, hby, hd, hbare, fun t ht => ?_, fun g' ts' s' hg hg' hahead hts' hwts' => ?_⟩
  · exact hin.wellFormed.alphaEquiv_of_bare_eq (hbare.trans ht.symm)
  · refine Ty.alphaEquiv_instantiate hby.length hd hbare ?_ hts' hg' hahead hwts'
    rcases hg with hg | hg
    · exact hunroll ▸ (Ty.alphaEquiv_iff.1 hg).unroll
    · have hgeneric' : (Ty.generic ns body).bare.unroll = (Ty.generic ns body).bare :=
        unroll_of_isMu_eq_false (Ty.isMu_nameless ..)
      exact hgeneric' ▸ (Ty.alphaEquiv_iff.1 hg).unroll

/-- `{ a: P, b: Q, c: (mu R. { d: P, e: R }) }` -/
private def pairBody (p q r : Name) : Ty :=
  .object [("a", .var p), ("b", .var q), ("c", .mu r (.object [("d", .var p), ("e", .var r)]))]

/-- `f<Y, { p: X }>` -/
private def applied : Expr :=
  .mk ⟨8, 9⟩ (.instantiate (.mk ⟨1, 2⟩ (.var "f"))
    [.mk ⟨2, 3⟩ (.ref "Y"), .mk ⟨3, 4⟩ (.object [("p", .mk ⟨4, 5⟩ (.ref "X"))])])

/-- `f: <X, Y>{ a: X, b: Y, c: (mu Y. { d: X, e: Y }) }` -/
private def pairEnv : Env :=
  Env.empty.bind "f" (.generic ["X", "Y"] (pairBody "X" "Y" "Y"))

/-- `f<Y, { p: X }>` below `<X, Y>` -/
private def appliedCall : Call where
  scope := [⟨"Y", "Y", false⟩, ⟨"X", "X", false⟩]
  env := pairEnv
  expr := applied
  supply := {}

private theorem crossed_unnumbered : Expr.Unnumbered (.mk ⟨9, 10⟩ (.generic ["X", "Y"] applied)) := by
  have happlied : applied.Unnumbered :=
    .mk (by simp [Term.ownBinders, TyExpr.binders, TyExpr.bindersForm, TyExpr.bindersRow])
      (List.forall_mem_singleton.2 (.mk nofun nofun))
  exact .mk (by decide) (List.forall_mem_singleton.2 happlied)

private theorem pairEnv_unnumbered : pairEnv.Unnumbered := by
  refine List.forall_mem_singleton.2 ⟨by decide, fun x hx => ?_, by decide⟩
  exact List.not_mem_nil (Ty.mentions_mem_of_freeNames (by decide) x hx)

/-- The arguments mention the parameters crosswise, and the body binds the name of one of them once more.  The instance
is `{ a: Y, b: { p: X }, c: (mu Z. { d: Y, e: Z }) }`, whatever the parameters are called. -/
theorem instantiate_simultaneous_crossed :
    Calls {} ⟨[], pairEnv, .mk ⟨9, 10⟩ (.generic ["X", "Y"] applied), {}⟩ appliedCall ∧
      ∃ u, (appliedCall.outcome (Expr.typeIn {})).1 = .ok u ∧
        u.alphaEquiv (.object [("a", .var "Y"), ("b", .object [("p", .var "X")]),
          ("c", .mu "Z" (.object [("d", .var "Y"), ("e", .var "Z")]))]) = true ∧
        u.alphaEquiv (((pairBody "A" "B" "R").instantiate ["A", "B"]
          [.var "Y", .object [("p", .var "X")]]).run {}).1 = true := by
  have hbody : Calls {} ⟨[], pairEnv, .mk ⟨9, 10⟩ (.generic ["X", "Y"] applied), {}⟩ appliedCall :=
    Calls.generic_body (by decide) rfl
  have haliases : (Context.aliases {}).Unnumbered := List.forall_mem_nil _
  obtain ⟨u, hu⟩ : ∃ u, (appliedCall.outcome (Expr.typeIn {})).1 = .ok u := ⟨_, by cbv⟩
  refine ⟨hbody, u, hu, ?_⟩
  obtain ⟨g, ns, body, ts, s₁, s₂, s₃, ⟨htarget, hunroll, hargs, -⟩, -, -, hsame, hrenamed⟩ :=
    Expr.instantiate_simultaneous haliases pairEnv_unnumbered crossed_unnumbered (.single hbody) rfl hu
  cases (show _ = (Except.ok (Ty.generic ["X", "Y"] (pairBody "X" "Y" "Y")), _) by cbv).symm.trans htarget
  cases (show _ = (some (Ty.generic ["X", "Y"] (pairBody "X" "Y" "Y")), _) by cbv).symm.trans hunroll
  cases (show _ = (Except.ok [Ty.var "Y", Ty.object [("p", Ty.var "X")]], _) by cbv).symm.trans hargs
  refine ⟨hsame _ (by cbv), ?_⟩
  have hahead : ∀ t : Ty, (∀ x ∈ t.typeNames, '@' ∉ x.toList) → NameSupply.AheadOfTy {} t :=
    fun t ht => aheadOfTy_of_at_sign_not_mem ht {}
  obtain ⟨ns', body', s', hunroll', halpha⟩ := hrenamed (.generic ["A", "B"] (pairBody "A" "B" "R"))
    [.var "Y", .object [("p", .var "X")]] {} (.inr (by cbv)) (by decide) (hahead _ (by decide))
    (.cons (by cbv) (.cons (by cbv) .nil)) (List.forall_mem_cons.2 ⟨⟨.var "Y", hahead _ (by decide)⟩,
      List.forall_mem_singleton.2 ⟨by decide, hahead _ (by decide)⟩⟩)
  cases (show _ = (some (Ty.generic ["A", "B"] (pairBody "A" "B" "R")), _) by cbv).symm.trans hunroll'
  exact halpha

end Programs

end MuTypes
