import MuTypes.Proofs.Alpha
import MuTypes.Proofs.FreeVariables
import MuTypes.Proofs.Reruns

/-!
# Functions that do not call themselves

The declaration of a function that does not call itself is like that of a constant with a lambda
(`Expr.function_iff_bind_lambda`).  One rule resolves the annotation of the result before it checks the body, and the
other one after it, so that different names are drawn.  But each of the two passes just when the parameters do and the
rest of the declaration is right from whatever supplies its pieces are looked at (`Declares`).
-/

namespace MuTypes

open NameSupply
open Ty (Ahead AnswersWithin renameRow)

variable {cx : Context} {env env' : Env} {e : Expr} {s s' s₁ s₂ : NameSupply} {b : Nameless Name}

/-! ### Types from every supply -/

/-- From every supply from which the expression may be checked it has a type with the nameless form. -/
def Expr.Gives (cx : Context) (env : Env) (e : Expr) (b : Nameless Name) : Prop :=
  ∀ s, Call.Proper cx ⟨[], env, e, s⟩ → ∃ t s', (e.typeIn cx [] env).run.run s = (.ok t, s') ∧ t.bare = b

section Gives

variable {names : List Name}

/-- The type is in order at the supply that is left. -/
theorem Call.Proper.of_ok (h : Call.Proper cx ⟨[], env, e, s⟩) {t : Ty}
    (ht : (e.typeIn cx [] env).run.run s = (.ok t, s')) : s ≤ s' ∧ t.InOrder [] s' :=
  Checks.of_ok (Expr.typeIn_right cx e [] env s h.1 h.2) ht

theorem Expr.gives_of_run (hs : Call.Proper cx ⟨[], env, e, s⟩) {t : Ty}
    (ht : (e.typeIn cx [] env).run.run s = (.ok t, s')) : e.Gives cx env t.bare := by
  intro r hr
  obtain ⟨t', r', ht', hrenumbered⟩ := Call.outcome_again hs hr ht
  have hclosed := (hs.of_ok ht).2.mem
  have hclosed' := (hr.of_ok ht').2.mem
  exact ⟨t', r', ht', hrenumbered.bare_eq hclosed hclosed'⟩

variable (haliases : cx.aliases.Unnumbered) (he : e.Unnumbered)
include haliases he

private theorem gives_rename_iff {k d : Nat} {f : Name → Name} (hf : Shifts k d f) (hs : Proper cx [] env s)
    (hs' : Proper cx [] (env.rename f) s') : e.Gives cx (env.rename f) b ↔ e.Gives cx env b := by
  -- late enough for both environments
  let n := max k (max s.next s'.next)
  have hn : s ≤ ⟨n⟩ := (Nat.le_max_left ..).trans (Nat.le_max_right ..)
  have hn' : s' ≤ ⟨n + d⟩ := Nat.le_add_right_of_le ((Nat.le_max_right ..).trans (Nat.le_max_right ..))
  have hcall : Call.Proper cx ⟨[], env, e, ⟨n⟩⟩ :=
    ⟨hs.mono hn, he.mono fun x hx => aheadOf_of_at_sign_not_mem hx _⟩
  have hcall' : Call.Proper cx ⟨[], env.rename f, e, ⟨n + d⟩⟩ :=
    ⟨hs'.mono hn', he.mono fun x hx => aheadOf_of_at_sign_not_mem hx _⟩
  have hkept : cx.aliases.KeptBy f := keptBy_of_ahead hf (aheadOfAliases_of_unnumbered haliases _)
  have hbinds : e.Binds fun x => f x = x := he.mono fun x hx => hf.other x (aheadOf_of_at_sign_not_mem hx _)
  have hrelated := (Expr.typeIn_commutes hf hkept hbinds [] env n (Nat.le_max_left ..)).1
  have hbare : ∀ t : Ty, (∀ x, t.mentions x = true → x ∈ []) → (t.rename f).bare = t.bare := fun t ht =>
    Ty.bare_rename hf.injective fun x hx => List.not_mem_nil (ht x hx)
  constructor
  · intro h
    obtain ⟨t', r', ht', rfl⟩ := h _ hcall'
    obtain ⟨t, ht, rfl⟩ := OutcomesRelated.of_ok_right (congrArg Prod.fst ht' ▸ hrelated)
    have hrun := Prod.ext (y := (_, _)) ht rfl
    rw [hbare t (hcall.of_ok hrun).2.mem]
    exact Expr.gives_of_run hcall hrun
  · intro h
    obtain ⟨t, r, ht, rfl⟩ := h _ hcall
    obtain ⟨t', ht', rfl⟩ := OutcomesRelated.of_ok (congrArg Prod.fst ht ▸ hrelated)
    rw [← hbare t (hcall.of_ok ht).2.mem]
    exact Expr.gives_of_run hcall' (Prod.ext ht' rfl)

theorem Renumbered.gives_iff (h : Renumbered names Env.rename env env') (hs : Proper cx [] env s)
    (hs' : Proper cx [] env' s') : e.Gives cx env' b ↔ e.Gives cx env b := by
  obtain ⟨k, d, f, hf, -, rfl | rfl⟩ := h
  · exact gives_rename_iff haliases he hf hs hs'
  · exact (gives_rename_iff haliases he hf hs' hs).symm

end Gives

/-! ### Declarations -/

/-- The declaration is right for parameters of the given types: from supplies that come later, the annotation has a
meaning and the body, which does not see the function, has a type that fits it, and what follows has a type with the
nameless form. -/
def Declares (cx : Context) (env : Env) (f : Name) (result : TyExpr) (body rest : Expr) (ps : Row) (s : NameSupply)
    (b : Nameless Name) : Prop :=
  ∃ r t, (∃ u u', s ≤ u ∧ (cx.resolve [] result).run.run u = (.ok r, u')) ∧
    (∃ u u', s ≤ u ∧ (body.typeIn cx [] (env.bindAll ps)).run.run u = (.ok t, u')) ∧
    AnswersWithin cx.fuel [] r t true ∧ rest.Gives cx (env.bind f (.func ps r)) b

section Declares

variable {f : Name} {params : List (Name × TyExpr)} {result : TyExpr} {body rest : Expr} {ps : Row} {span : Span}
  {r t : Ty}

/-- Types that differ in numbers give environments that do, when all other types keep their names. -/
theorem Renumbered.bind_func {names : List Name} (h : Renumbered names Ty.rename r t)
    (hnames : ∀ p ∈ env.bindings ++ ps, ∀ x ∈ p.2.typeNames, x ∈ names) :
    Renumbered names Env.rename (env.bind f (.func ps r)) (env.bind f (.func ps t)) := by
  obtain ⟨k, d, g, hg, hahead, h⟩ := h
  have hrow : ∀ row : Row, row ⊆ env.bindings ++ ps → renameRow g row = row := by
    intro row hsub
    rw [Ty.renameRow_eq_map]
    exact map_snd_eq_self fun p hp => Ty.rename_eq_self fun x hx =>
      hg.other x (hahead x (hnames p (hsub hp) x hx))
  have hbind : ∀ u, (env.bind f (.func ps u)).rename g = env.bind f (.func ps (u.rename g)) := by
    intro u
    show Env.mk ((f, .func (renameRow g ps) (u.rename g)) :: renameRow g env.bindings) = _
    rw [hrow ps (List.subset_append_right ..), hrow env.bindings (List.subset_append_left ..)]
    rfl
  refine ⟨k, d, g, hg, hahead, h.imp ?_ ?_⟩
  · rintro rfl
    exact (hbind r).symm
  · rintro rfl
    exact (hbind t).symm

theorem Renumbered.weaken {names names' : List Name} (h : Renumbered names Ty.rename r t) (hsub : names' ⊆ names) :
    Renumbered names' Ty.rename r t := by
  obtain ⟨k, d, g, hg, hahead, h⟩ := h
  exact ⟨k, d, g, hg, fun n hn => hahead n (hsub hn), h⟩

theorem expectResult_eq_ok_iff : (cx.expectResult [] r t span).run.run s = (.ok (), s') ↔
    (Ty.fits cx.fuel [] .exact r t).run.run s = (.ok true, s') := by
  constructor
  · intro h
    obtain ⟨fitting, s₁, hfits, h'⟩ := run_bind_eq_ok h
    cases fitting <;> cases h'
    exact compare_eq_ok_iff.1 hfits
  · intro h
    have hfits : (cx.fits [] .exact r t).run.run s = (.ok true, s') := compare_eq_ok_iff.2 h
    rw [Context.expectResult, run_bind_of_ok hfits]
    rfl

theorem resolve_inOrder_of_ok (haliases : cx.aliases.Unnumbered) (hresult : result.Unnumbered)
    (h : (cx.resolve [] result).run.run s₁ = (.ok r, s₂)) : s₁ ≤ s₂ ∧ r.InOrder [] s₂ :=
  (TyExpr.resolve_inOrder (aheadOfAliases_of_unnumbered haliases s₁) (List.forall_mem_nil _) result
    (aheadOfTyExpr_of_unnumbered hresult s₁)).of_ok h

variable (haliases : cx.aliases.Unnumbered) (henv : env.Unnumbered) (hps : ∀ p ∈ ps, p.2.InOrder [] s)
include haliases henv hps

private theorem proper_body (hbody : body.Unnumbered) (hs : s ≤ s₁) :
    Call.Proper cx ⟨[], env.bindAll ps, body, s₁⟩ := by
  have hproper := Call.proper_of_unnumbered haliases henv hbody s₁
  exact ⟨hproper.1.withEnv (hproper.1.env.bindAll fun p hp => (hps p hp).mono hs), hproper.2⟩

private theorem proper_rest (hrest : rest.Unnumbered) (hs : s ≤ s₁) (hr : r.InOrder [] s₁) :
    Call.Proper cx ⟨[], env.bind f (.func ps r), rest, s₁⟩ := by
  have hproper := Call.proper_of_unnumbered haliases henv hrest s₁
  exact ⟨hproper.1.bind (Ty.inOrder_func.2 ⟨fun p hp => (hps p hp).mono hs, hr⟩) f, hproper.2⟩

variable (hresult : result.Unnumbered) (hbody : body.Unnumbered) (hrest : rest.Unnumbered)
include hresult hbody hrest

/-- What one order of the pieces finds. -/
theorem declares_of_runs {s₁' s₂' s₃ s₄ s₅ : NameSupply} {u : Ty} (h₁ : s ≤ s₁) (h₂ : s ≤ s₂)
    (hr : (cx.resolve [] result).run.run s₁ = (.ok r, s₁'))
    (ht : (body.typeIn cx [] (env.bindAll ps)).run.run s₂ = (.ok t, s₂')) (h₃ : s₁' ≤ s₃) (h₃' : s₂' ≤ s₃)
    (hfits : (cx.expectResult [] r t span).run.run s₃ = (.ok (), s₄))
    (hu : (rest.typeIn cx [] (env.bind f (.func ps r))).run.run s₄ = (.ok u, s₅)) :
    Declares cx env f result body rest ps s u.bare := by
  obtain ⟨hle, hin⟩ := resolve_inOrder_of_ok haliases hresult hr
  obtain ⟨-, hin'⟩ := (proper_body haliases henv hps hbody h₂).of_ok ht
  have hahead : Ahead s₃ [] r t := ⟨List.forall_mem_nil _, (hin.mono h₃).ahead, (hin'.mono h₃').ahead⟩
  have hrun := expectResult_eq_ok_iff.1 hfits
  have h₄ : s₃ ≤ s₄ := by
    have hfitsLe := Ty.le_fits cx.fuel [] .exact r t s₃
    rwa [hrun] at hfitsLe
  have hanswers := Ty.answersWithin_of_run hahead (congrArg Prod.fst hrun)
  have hproper : Call.Proper cx ⟨[], env.bind f (.func ps r), rest, s₄⟩ :=
    proper_rest haliases henv hps hrest (le_trans h₁ (le_trans hle (le_trans h₃ h₄))) (hin.mono (le_trans h₃ h₄))
  exact ⟨r, t, ⟨s₁, s₁', h₁, hr⟩, ⟨s₂, s₂', h₂, ht⟩, hanswers, Expr.gives_of_run hproper hu⟩

namespace Declares

variable (h : Declares cx env f result body rest ps s b)
include h

omit hps henv hbody hrest in
theorem resolve_eq_ok (s₁ : NameSupply) : ∃ r s₁', (cx.resolve [] result).run.run s₁ = (.ok r, s₁') := by
  obtain ⟨r, -, ⟨u, u', -, hr⟩, -⟩ := h
  have hresolvable : ∀ u, Resolvable cx [] result u := fun u =>
    resolvable_of_unnumbered haliases hresult (List.forall_mem_nil _)
  obtain ⟨r', s₁', hr', -⟩ := resolve_again (hresolvable u) (hresolvable s₁) hr
  exact ⟨r', s₁', hr'⟩

omit hresult hrest in
theorem body_eq_ok (h₂ : s ≤ s₂) : ∃ t s₂', (body.typeIn cx [] (env.bindAll ps)).run.run s₂ = (.ok t, s₂') := by
  obtain ⟨-, t, -, ⟨u, u', hu, ht⟩, -⟩ := h
  obtain ⟨t', s₂', ht', -⟩ := Call.outcome_again (proper_body haliases henv hps hbody hu)
    (proper_body haliases henv hps hbody h₂) ht
  exact ⟨t', s₂', ht'⟩

/-- What any order of the pieces finds. -/
theorem again {s₁' s₂' : NameSupply} (h₁ : s ≤ s₁) (h₂ : s ≤ s₂)
    (hr : (cx.resolve [] result).run.run s₁ = (.ok r, s₁'))
    (ht : (body.typeIn cx [] (env.bindAll ps)).run.run s₂ = (.ok t, s₂')) :
    AnswersWithin cx.fuel [] r t true ∧ rest.Gives cx (env.bind f (.func ps r)) b := by
  obtain ⟨r₀, t₀, ⟨u₁, u₁', hu₁, hr₀⟩, ⟨u₂, u₂', hu₂, ht₀⟩, hanswers, hgives⟩ := h
  -- the names in the types of the variables are kept
  let names := (env.bindings ++ ps).flatMap (·.2.typeNames)
  have hnames : ∀ u, s ≤ u → ∀ n ∈ names, u.AheadOf n := by
    intro u hu n hn
    obtain ⟨p, hp, hn⟩ := List.mem_flatMap.1 hn
    rcases List.mem_append.1 hp with hp | hp
    · exact aheadOf_of_at_sign_not_mem ((henv p hp).2.2 n hn) u
    · exact ((hps p hp).mono hu).ahead n hn
  have hresolvable : ∀ u, Resolvable cx [] result u := fun u =>
    resolvable_of_unnumbered haliases hresult (List.forall_mem_nil _)
  obtain ⟨r', s', hr', hresults⟩ :=
    resolve_again_keeping (hresolvable u₁) (hresolvable s₁) (hnames u₁ hu₁) (hnames s₁ h₁) hr₀
  obtain ⟨t', s'', ht', hbodies⟩ := Call.outcome_again (proper_body haliases henv hps hbody hu₂)
    (proper_body haliases henv hps hbody h₂) ht₀
  cases hr.symm.trans hr'
  cases ht.symm.trans ht'
  constructor
  · have hresults' : Renumbered [] Ty.rename r₀ r := hresults.weaken (List.nil_subset names)
    exact hresults'.answersWithin_expected_iff.2 (hbodies.answersWithin_actual_iff.2 hanswers)
  · have hfuncs : Renumbered names Env.rename (env.bind f (.func ps r₀)) (env.bind f (.func ps r)) :=
      hresults.bind_func fun p hp x hx => List.mem_flatMap.2 ⟨p, hp, hx⟩
    obtain ⟨hle, hin⟩ := resolve_inOrder_of_ok haliases hresult hr₀
    obtain ⟨hle', hin'⟩ := resolve_inOrder_of_ok haliases hresult hr
    have hproper := proper_rest (f := f) haliases henv hps hrest (le_trans hu₁ hle) hin
    have hproper' := proper_rest (f := f) haliases henv hps hrest (le_trans h₁ hle') hin'
    exact (hfuncs.gives_iff haliases hrest hproper.1 hproper'.1).2 hgives

/-- So it goes on to the end in any order. -/
theorem runs {s₁' s₂' s₃ : NameSupply} (h₁ : s ≤ s₁) (h₂ : s ≤ s₂)
    (hr : (cx.resolve [] result).run.run s₁ = (.ok r, s₁'))
    (ht : (body.typeIn cx [] (env.bindAll ps)).run.run s₂ = (.ok t, s₂')) (h₃ : s₁' ≤ s₃) (h₃' : s₂' ≤ s₃)
    (span : Span) :
    ∃ s₄ u s₅, (cx.expectResult [] r t span).run.run s₃ = (.ok (), s₄) ∧
      (rest.typeIn cx [] (env.bind f (.func ps r))).run.run s₄ = (.ok u, s₅) ∧ u.bare = b := by
  obtain ⟨hanswers, hgives⟩ := h.again haliases henv hps hresult hbody hrest h₁ h₂ hr ht
  obtain ⟨hle, hin⟩ := resolve_inOrder_of_ok haliases hresult hr
  obtain ⟨-, hin'⟩ := (proper_body haliases henv hps hbody h₂).of_ok ht
  have hahead : Ahead s₃ [] r t := ⟨List.forall_mem_nil _, (hin.mono h₃).ahead, (hin'.mono h₃').ahead⟩
  have h₄ := Ty.le_fits cx.fuel [] .exact r t s₃
  have hproper := proper_rest (f := f) haliases henv hps hrest (le_trans h₁ (le_trans hle (le_trans h₃ h₄)))
    (hin.mono (le_trans h₃ h₄))
  obtain ⟨u, s₅, hu, hbare⟩ := hgives _ hproper
  exact ⟨_, u, s₅, expectResult_eq_ok_iff.2 (Prod.ext (hanswers s₃ hahead) rfl), hu, hbare⟩

end Declares

/-! ### Both forms -/

variable {params : List (Name × TyExpr)} {s₀ : NameSupply} (span span' : Span)
  (hparams : (cx.paramRow [] params).run.run s₀ = (.ok ps, s))
include hparams

/-- A function that does not call itself has a type just when its declaration is right. -/
theorem function_iff_declares (hfree : body.mentions f = false) :
    (∃ t s', ((Expr.mk span (.function f params result body rest)).typeIn cx [] env).run.run s₀ = (.ok t, s') ∧
      t.bare = b) ↔ Declares cx env f result body rest ps s b := by
  have hunused : ∀ t, body.typeIn cx [] ((env.bindAll ps).bind f t) = body.typeIn cx [] (env.bindAll ps) := by
    intro t
    refine Expr.typeIn_eq_of_agree [] fun x hx => Env.find?_bind_of_ne _ _ ?_
    rintro rfl
    rw [hfree] at hx
    cases hx
  rw [Expr.typeIn_mk, Checker.rule, run_bind_of_ok hparams]
  simp only [hunused]
  constructor
  · rintro ⟨u, s₅, h, rfl⟩
    obtain ⟨r, s₂, hr, h⟩ := run_bind_eq_ok h
    obtain ⟨t, s₃, ht, h⟩ := run_bind_eq_ok h
    obtain ⟨⟨⟩, s₄, hfits, hu⟩ := run_bind_eq_ok h
    have h₂ := (resolve_inOrder_of_ok haliases hresult hr).1
    have h₃ := ((proper_body haliases henv hps hbody h₂).of_ok ht).1
    exact declares_of_runs haliases henv hps hresult hbody hrest (le_refl s) h₂ hr ht h₃ (le_refl s₃) hfits hu
  · intro h
    obtain ⟨r, s₂, hr⟩ := h.resolve_eq_ok haliases hresult s
    have h₂ := (resolve_inOrder_of_ok haliases hresult hr).1
    obtain ⟨t, s₃, ht⟩ := h.body_eq_ok haliases henv hps hbody h₂
    have h₃ := ((proper_body haliases henv hps hbody h₂).of_ok ht).1
    obtain ⟨s₄, u, s₅, hfits, hu, hbare⟩ := h.runs haliases henv hps hresult hbody hrest (le_refl s) h₂ hr ht h₃
      (le_refl s₃) span
    rw [run_bind_of_ok hr, run_bind_of_ok ht, run_bind_of_ok hfits]
    exact ⟨u, s₅, hu, hbare⟩

/-- So has a constant with a lambda. -/
theorem bind_lambda_iff_declares :
    (∃ t s', ((Expr.mk span (.bind f (.mk span' (.lambda params (some result) body)) rest)).typeIn cx [] env).run.run
      s₀ = (.ok t, s') ∧ t.bare = b) ↔ Declares cx env f result body rest ps s b := by
  rw [Expr.typeIn_mk, Checker.rule, Expr.typeIn_mk, Checker.rule]
  simp only [bind_assoc, pure_bind]
  rw [run_bind_of_ok hparams]
  constructor
  · rintro ⟨u, s₅, h, rfl⟩
    obtain ⟨t, s₂, ht, h⟩ := run_bind_eq_ok h
    obtain ⟨r, s₃, hr, h⟩ := run_bind_eq_ok h
    obtain ⟨⟨⟩, s₄, hfits, hu⟩ := run_bind_eq_ok h
    have h₂ := ((proper_body haliases henv hps hbody (le_refl s)).of_ok ht).1
    have h₃ := (resolve_inOrder_of_ok haliases hresult hr).1
    exact declares_of_runs haliases henv hps hresult hbody hrest h₂ (le_refl s) hr ht (le_refl s₃) h₃ hfits hu
  · intro h
    obtain ⟨t, s₂, ht⟩ := h.body_eq_ok haliases henv hps hbody (le_refl s)
    have h₂ := ((proper_body haliases henv hps hbody (le_refl s)).of_ok ht).1
    obtain ⟨r, s₃, hr⟩ := h.resolve_eq_ok haliases hresult s₂
    have h₃ := (resolve_inOrder_of_ok haliases hresult hr).1
    obtain ⟨s₄, u, s₅, hfits, hu, hbare⟩ := h.runs haliases henv hps hresult hbody hrest h₂ (le_refl s) hr ht
      (le_refl s₃) h₃ span'
    rw [run_bind_of_ok ht, run_bind_of_ok hr, run_bind_of_ok hfits]
    exact ⟨u, s₅, hu, hbare⟩

end Declares

section Result

variable {f : Name} {params : List (Name × TyExpr)} {result : TyExpr} {body rest : Expr} {span span' span'' : Span}

/-- A function that does not call itself is declared just when a constant with the lambda can be, whatever its
parameters are called.  Then the types of the two programs are equal up to bound names. -/
theorem Expr.function_iff_bind_lambda (haliases : cx.aliases.Unnumbered) (henv : env.Unnumbered)
    (hfunction : (Expr.mk span (.function f params result body rest)).Unnumbered) (hfree : body.mentions f = false) :
    ((∃ t, ((Expr.mk span (.function f params result body rest)).typeOf cx env).result = .ok t) ↔
      ∃ t, ((Expr.mk span' (.bind f (.mk span'' (.lambda params (some result) body)) rest)).typeOf cx env).result =
        .ok t) ∧
    ∀ t t', ((Expr.mk span (.function f params result body rest)).typeOf cx env).result = .ok t →
      ((Expr.mk span' (.bind f (.mk span'' (.lambda params (some result) body)) rest)).typeOf cx env).result = .ok t' →
      t.alphaEquiv t' = true := by
  have hproper := Call.proper_of_unnumbered haliases henv hfunction {}
  obtain ⟨hown, hparts⟩ := hfunction
  obtain ⟨hparamNames, hresult⟩ := List.forall_mem_append.1 hown
  have hbody : body.Unnumbered := hparts body (by simp [Term.parts])
  have hrest : rest.Unnumbered := hparts rest (by simp [Term.parts])
  have hps : ∀ ps s, (cx.paramRow [] params).run.run {} = (.ok ps, s) → ∀ p ∈ ps, p.2.InOrder [] s := fun ps s hrun =>
    ((paramRow_checks hproper.1 fun n hn => aheadOf_of_at_sign_not_mem (hparamNames n hn) {}).of_ok hrun).2
  -- both have types with the same nameless forms
  have hsame : ∀ b, (∃ t s', ((Expr.mk span (.function f params result body rest)).typeIn cx [] env).run.run {} =
      (.ok t, s') ∧ t.bare = b) ↔
      ∃ t s', ((Expr.mk span' (.bind f (.mk span'' (.lambda params (some result) body)) rest)).typeIn cx [] env).run.run
        {} = (.ok t, s') ∧ t.bare = b := by
    intro b
    constructor
    · rintro ⟨t, s', ht, hb⟩
      have hrun := ht
      rw [typeIn_mk, Checker.rule] at hrun
      obtain ⟨ps, s, hparams, -⟩ := run_bind_eq_ok hrun
      have hps := hps ps s hparams
      refine (bind_lambda_iff_declares haliases henv hps hresult hbody hrest span' span'' hparams).2 ?_
      exact (function_iff_declares haliases henv hps hresult hbody hrest span hparams hfree).1 ⟨t, s', ht, hb⟩
    · rintro ⟨t, s', ht, hb⟩
      have hrun := ht
      rw [typeIn_mk, Checker.rule, typeIn_mk, Checker.rule, bind_assoc] at hrun
      obtain ⟨ps, s, hparams, -⟩ := run_bind_eq_ok hrun
      have hps := hps ps s hparams
      refine (function_iff_declares haliases henv hps hresult hbody hrest span hparams hfree).2 ?_
      exact (bind_lambda_iff_declares haliases henv hps hresult hbody hrest span' span'' hparams).1 ⟨t, s', ht, hb⟩
  constructor
  · constructor
    · rintro ⟨t, ht⟩
      obtain ⟨t', s', ht', -⟩ := (hsame t.bare).1 ⟨t, _, Prod.ext ht rfl, rfl⟩
      exact ⟨t', congrArg Prod.fst ht'⟩
    · rintro ⟨t', ht'⟩
      obtain ⟨t, s', ht, -⟩ := (hsame t'.bare).2 ⟨t', _, Prod.ext ht' rfl, rfl⟩
      exact ⟨t, congrArg Prod.fst ht⟩
  · intro t t' ht ht'
    obtain ⟨u, s', hu, hbare⟩ := (hsame t.bare).1 ⟨t, _, Prod.ext ht rfl, rfl⟩
    obtain rfl : t' = u := Except.ok.inj (ht'.symm.trans (congrArg Prod.fst hu))
    have hwellFormed : t.WellFormed := (hproper.checks.2.1 t ht).wellFormed
    exact hwellFormed.alphaEquiv_of_bare_eq hbare.symm

/-- `type P<T> = <Y>{ a: Y; c: T }` -/
private def pairAlias : Context where
  aliases := [{
    name := "P"
    params := some ["T"]
    body := .mk ⟨3, 4⟩ (.generic ["Y"] (.mk ⟨2, 3⟩ (.object [("a", .mk ⟨0, 1⟩ (.ref "Y")),
      ("c", .mk ⟨1, 2⟩ (.ref "T"))])))
    span := ⟨4, 5⟩ }]

/-- `p: <Y><Z>{ a: Z; c: Y }` -/
private def pairVar : Env :=
  Env.empty.bind "p" (.generic ["Y"] (.generic ["Z"] (.object [("a", .var "Z"), ("c", .var "Y")])))

/-- `f: number, y: string, y: number` -/
private def crowdedParams : List (Name × TyExpr) :=
  [("f", .mk ⟨13, 14⟩ (.prim .number)), ("y", .mk ⟨14, 15⟩ (.prim .string)), ("y", .mk ⟨15, 16⟩ (.prim .number))]

/-- `<Y>P<Y>` -/
private def pairResult : TyExpr :=
  .mk ⟨10, 11⟩ (.generic ["Y"] (.mk ⟨11, 12⟩ (.app "P" [.mk ⟨12, 13⟩ (.ref "Y")])))

/-- `<Y><Y>1; p` -/
private def drawingBody : Expr :=
  .mk ⟨5, 6⟩ (.seq (.mk ⟨6, 7⟩ (.generic ["Y"] (.mk ⟨7, 8⟩ (.generic ["Y"] (.mk ⟨8, 9⟩ (.lit .number))))))
    (.mk ⟨9, 10⟩ (.var "p")))

/-- The type of `f` when its result draws the name. -/
private def crowdedFunc (drawn : Name) : Ty :=
  .func [("f", .number), ("y", .string), ("y", .number)]
    (.generic ["Y"] (.generic [drawn] (.object [("a", .var drawn), ("c", .var "Y")])))

/-- Two parameters have the same name and one is called like the function.  The result draws another name after the
body than before it. -/
theorem function_iff_bind_lambda_crowded :
    ((Expr.mk ⟨17, 18⟩ (.function "f" crowdedParams pairResult drawingBody (.mk ⟨16, 17⟩ (.var "f")))).typeOf pairAlias
      pairVar).result = .ok (crowdedFunc "Y@2") ∧
    ((Expr.mk ⟨17, 18⟩ (.bind "f" (.mk ⟨18, 19⟩ (.lambda crowdedParams (some pairResult) drawingBody))
      (.mk ⟨16, 17⟩ (.var "f")))).typeOf pairAlias pairVar).result = .ok (crowdedFunc "Y@3") ∧
    (crowdedFunc "Y@2").alphaEquiv (crowdedFunc "Y@3") = true := by
  have haliases : pairAlias.aliases.Unnumbered := by
    simp [Aliases.Unnumbered, pairAlias, TyExpr.Unnumbered, TyExpr.binders, TyExpr.bindersForm, TyExpr.bindersRow]
  have henv : pairVar.Unnumbered := unnumbered_of_freeNames (by decide)
  have hvar : ∀ span x, (Expr.mk span (.var x)).Unnumbered := fun span x => .leaf rfl rfl
  have hgenerics : (Expr.mk ⟨6, 7⟩ (.generic ["Y"] (.mk ⟨7, 8⟩ (.generic ["Y"]
      (.mk ⟨8, 9⟩ (.lit .number)))))).Unnumbered :=
    .mk (by decide) (List.forall_mem_singleton.2 (.mk (by decide) (List.forall_mem_singleton.2 (.leaf rfl rfl))))
  have hbody : drawingBody.Unnumbered :=
    .mk (List.forall_mem_nil _) (List.forall_mem_cons.2 ⟨hgenerics, List.forall_mem_singleton.2 (hvar _ _)⟩)
  have hfunction : (Expr.mk ⟨17, 18⟩ (.function "f" crowdedParams pairResult drawingBody
      (.mk ⟨16, 17⟩ (.var "f")))).Unnumbered :=
    .mk (by decide) (List.forall_mem_cons.2 ⟨hbody, List.forall_mem_singleton.2 (hvar _ _)⟩)
  have hfirst : ((Expr.mk ⟨17, 18⟩ (.function "f" crowdedParams pairResult drawingBody
      (.mk ⟨16, 17⟩ (.var "f")))).typeOf pairAlias pairVar).result = .ok (crowdedFunc "Y@2") := by cbv
  have hsecond : ((Expr.mk ⟨17, 18⟩ (.bind "f" (.mk ⟨18, 19⟩ (.lambda crowdedParams (some pairResult) drawingBody))
      (.mk ⟨16, 17⟩ (.var "f")))).typeOf pairAlias pairVar).result = .ok (crowdedFunc "Y@3") := by cbv
  have hsame := (Expr.function_iff_bind_lambda haliases henv hfunction (by decide)).2 _ _ hfirst hsecond
  exact ⟨hfirst, hsecond, hsame⟩

end Result

end MuTypes
