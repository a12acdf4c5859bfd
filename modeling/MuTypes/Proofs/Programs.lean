import Mathlib
import MuTypes.Proofs.InPlace
import MuTypes.Proofs.Typing

/-!
# Programs without numbered names

A program is checked in an environment of closed types, and neither it nor the environment has an `@` in the name of a
type.  Then all types that come up are well-formed and have their free names in scope (`calls_wellFormed`), and no
comparison meets a type variable that is not in scope (`typeOf_stays_in_scope`).
-/

namespace MuTypes

open NameSupply

/-- No type or type parameter that the expression binds has an `@` in its name. -/
def Expr.Unnumbered (e : Expr) : Prop :=
  e.Binds fun n => '@' ∉ n.toList

/-- The types of all variables are well-formed and closed, and no name in them has an `@`. -/
def Env.Unnumbered (env : Env) : Prop :=
  ∀ p ∈ env.bindings, p.2.WellFormed ∧ (∀ x, ¬ p.2.mentions x = true) ∧ ∀ x ∈ p.2.typeNames, '@' ∉ x.toList

variable {cx : Context} {scope : Scope} {env : Env} {e : Expr} {s : NameSupply}

/-- For a given environment this can be computed. -/
theorem unnumbered_of_freeNames (h : ∀ p ∈ env.bindings, p.2.WellFormed ∧ (∀ x ∈ p.2.freeNames, x ∈ []) ∧
    ∀ x ∈ p.2.typeNames, '@' ∉ x.toList) : env.Unnumbered := by
  intro p hp
  obtain ⟨hw, hclosed, hnames⟩ := h p hp
  exact ⟨hw, fun x hx => List.not_mem_nil (Ty.mentions_mem_of_freeNames hclosed x hx), hnames⟩

theorem Call.proper_of_unnumbered (haliases : cx.aliases.Unnumbered) (henv : env.Unnumbered) (he : e.Unnumbered)
    (s : NameSupply) : Call.Proper cx ⟨[], env, e, s⟩ := by
  refine ⟨⟨fun p hp => ?_, by simp [Scope.meanings], aheadOfAliases_of_unnumbered haliases s⟩, ?_⟩
  · obtain ⟨hw, hclosed, hnames⟩ := henv p hp
    exact ⟨hw, fun x hx => absurd hx (hclosed x), aheadOfTy_of_at_sign_not_mem hnames s⟩
  · exact he.mono fun n hn => aheadOf_of_at_sign_not_mem hn s

/-! ### Calls that are made -/

namespace Calls

/-- What is bound is checked first. -/
theorem bind_value (span : Span) (x : Name) (value rest : Expr) :
    Calls cx ⟨scope, env, .mk span (.bind x value rest), s⟩ ⟨scope, env, value, s⟩ := by
  intro check f _ hf
  show ((check scope env value >>= fun t => check scope (env.bind x t) rest).run.run s).1 = _
  exact run_bind_of_error hf _

/-- What follows a binding is checked with the type of what is bound. -/
theorem bind_rest {span : Span} {x : Name} {value rest : Expr} {t : Ty} {s' : NameSupply}
    (h : (value.typeIn cx scope env).run.run s = (.ok t, s')) :
    Calls cx ⟨scope, env, .mk span (.bind x value rest), s⟩ ⟨scope, env.bind x t, rest, s'⟩ := by
  intro check f hsame hf
  show ((check scope env value >>= fun t => check scope (env.bind x t) rest).run.run s).1 = _
  -- a checker that fails at the second call but not at the first one comes to the second one
  by_cases hq : (⟨scope, env, value, s⟩ : Call) = ⟨scope, env.bind x t, rest, s'⟩
  · rw [← hq] at hf
    exact run_bind_of_error hf _
  · have hvalue : (check scope env value).run.run s = (.ok t, s') := (hsame _ hq).trans h
    rw [run_bind_of_ok hvalue]
    exact hf

/-- The body below type parameters is checked in the scope that they extend. -/
theorem generic_body {span : Span} {params vars : List Name} {body : Expr} {s' : NameSupply} (hd : params.Nodup)
    (h : (scope.meaningsFor params).run s = (vars, s')) :
    Calls cx ⟨scope, env, .mk span (.generic params body), s⟩ ⟨scope.enterParams params vars, env, body, s'⟩ := by
  intro check f _ hf
  have hdistinct : expectDistinct params span = pure () := by
    rw [expectDistinct, firstRepeat_eq_none_iff.2 ⟨hd, by simp⟩]
  have hvars : (liftM (scope.meaningsFor params) : CheckM (List Name)).run.run s = (.ok vars, s') :=
    congrArg (fun q : List Name × NameSupply => (Except.ok q.1, q.2)) h
  show ((Checker.rule check cx scope env span (.generic params body)).run.run s).1 = _
  rw [Checker.rule, hdistinct, pure_bind, run_bind_of_ok hvars]
  exact run_bind_of_error hf _

end Calls

/-! ### Results -/

/-- At every call that checking a program makes, the types of variables are well-formed and have their free names in
scope, and so is the type that the call gives.  The type of the program is well-formed and closed. -/
theorem Expr.calls_wellFormed (haliases : cx.aliases.Unnumbered) (henv : env.Unnumbered) (he : e.Unnumbered) :
    (∀ c, Relation.ReflTransGen (Calls cx) ⟨[], env, e, {}⟩ c →
      (∀ p ∈ c.env.bindings, p.2.WellFormed ∧ ∀ x, p.2.mentions x = true → x ∈ c.scope.meanings) ∧
      ∀ t, (c.outcome (Expr.typeIn cx)).1 = .ok t →
        t.WellFormed ∧ ∀ x, t.mentions x = true → x ∈ c.scope.meanings) ∧
    ∀ t, (e.typeOf cx env).result = .ok t → t.WellFormed ∧ ∀ x, ¬ t.mentions x = true := by
  have hroot : Call.Proper cx ⟨[], env, e, {}⟩ := Call.proper_of_unnumbered haliases henv he {}
  constructor
  · intro c hc
    have hproper := hroot.calls_all hc
    refine ⟨fun p hp => ?_, fun t ht => ?_⟩
    · have hin := hproper.1.env p hp
      exact ⟨hin.wellFormed, hin.mem⟩
    · have hin := hproper.checks.2.1 t ht
      exact ⟨hin.wellFormed, hin.mem⟩
  · intro t ht
    have hin := hroot.checks.2.1 t ht
    exact ⟨hin.wellFormed, fun x hx => List.not_mem_nil (hin.mem x hx)⟩

/-- `type L = { next: L }` -/
private def chainContext : Context where
  aliases := [
    { name := "L", params := none, body := .mk ⟨0, 1⟩ (.object [("next", .mk ⟨1, 2⟩ (.ref "L"))]), span := ⟨2, 3⟩ }]

/-- `(y: Y, l: L) => y` -/
private def firstOf : Expr :=
  .mk ⟨3, 4⟩ (.lambda [("y", .mk ⟨4, 5⟩ (.ref "Y")), ("l", .mk ⟨5, 6⟩ (.ref "L"))] none (.mk ⟨6, 7⟩ (.var "y")))

/-- `<Y>(const f = (y: Y, l: L) => y; f)` -/
private def boundFirst : Expr :=
  .mk ⟨9, 10⟩ (.generic ["Y"] (.mk ⟨8, 9⟩ (.bind "f" firstOf (.mk ⟨7, 8⟩ (.var "f")))))

/-- `(y: Y, l: (mu L. { next: L })) => Y` -/
private def firstFunc : Ty :=
  .func [("y", .var "Y"), ("l", .mu "L" (.object [("next", .var "L")]))] (.var "Y")

private theorem chainContext_unnumbered : chainContext.aliases.Unnumbered := by
  simp [Aliases.Unnumbered, chainContext, TyExpr.Unnumbered, TyExpr.binders, TyExpr.bindersForm, TyExpr.bindersRow]

private theorem boundFirst_unnumbered : boundFirst.Unnumbered := by
  have hfirst : firstOf.Unnumbered :=
    .mk (by decide) (List.forall_mem_singleton.2 (.mk (by simp [Term.ownBinders]) nofun))
  refine .mk (by decide) (List.forall_mem_singleton.2 (.mk (by simp [Term.ownBinders]) ?_))
  exact List.forall_mem_cons.2 ⟨hfirst, List.forall_mem_singleton.2 (.mk (by simp [Term.ownBinders]) nofun)⟩

private theorem number_unnumbered : (Env.empty.bind "n" .number).Unnumbered :=
  List.forall_mem_singleton.2 ⟨.prim .number, by simp, by simp [Ty.typeNames]⟩

/-- At the call for `f`, below the type parameter and the binding, the type of the variable mentions the parameter. -/
theorem calls_wellFormed_boundFirst :
    (firstFunc.WellFormed ∧ ∀ x, firstFunc.mentions x = true → x ∈ ["Y"]) ∧
      (Ty.generic ["Y"] firstFunc).WellFormed ∧ ∀ x, ¬ (Ty.generic ["Y"] firstFunc).mentions x = true := by
  have hall := Expr.calls_wellFormed chainContext_unnumbered number_unnumbered boundFirst_unnumbered
  constructor
  · have hbody : Calls chainContext ⟨[], Env.empty.bind "n" .number, boundFirst, {}⟩
        ⟨[⟨"Y", "Y", false⟩], Env.empty.bind "n" .number, _, {}⟩ := Calls.generic_body (by decide) rfl
    have hfirst : (firstOf.typeIn chainContext [⟨"Y", "Y", false⟩] (Env.empty.bind "n" .number)).run.run {} =
        (.ok firstFunc, {}) := by cbv
    exact (hall.1 _ (.tail (.single hbody) (Calls.bind_rest hfirst))).1 ("f", firstFunc) List.mem_cons_self
  · exact hall.2 (.generic ["Y"] firstFunc) (by cbv)

end MuTypes
