import MuTypes.Proofs.Calls

/-!
# Dispatches are exhaustive exactly

The clauses of a dispatch pass one by one, each with a label of the union that has had no clause yet.  So those that
have passed are for different variants, and when there is no fallback the dispatch has a type just when they are for all
variants (`Call.dispatch_eq_ok_iff`).  Otherwise the labels that are missing are reported in the order of the union
(`Call.dispatch_eq_error_iff`).

`Expr.dispatch_exhaustive` puts this together with the calls that a dispatch makes (`Calls.dispatch_iff`): the body of
a clause sees its variable as the object of the variant, and the fallback sees it as the union of the others.
-/

namespace MuTypes

open NameSupply

section Dispatch

variable {cx : Context} {scope : Scope} {env : Env} {span : Span} {x : Name} {vs : Variants} {bound : Ty}
  {common : Option Ty} {s s₁ s₂ : NameSupply} {clauses : List (Name × Expr)}

/-! ### Outcomes without a fallback -/

/-- The labels without a clause, in the order of the union. -/
def missing (vs : Variants) (clauses : List (Name × Expr)) : List Name :=
  (vs.map Prod.fst).filter (· ∉ clauses.map Prod.fst)

theorem missing_eq (vs : Variants) (clauses : List (Name × Expr)) :
    (vs.filter fun v => v.1 ∉ clauses.map Prod.fst).map Prod.fst = missing vs clauses := by
  rw [missing, List.filter_map]
  rfl

/-- The labels of clauses that have passed are those of the union, in some order, when none is missing. -/
theorem ClausesPass.perm_iff (h : ClausesPass cx scope env span x vs [] none s clauses common s₁)
    (hd : (vs.map Prod.fst).Nodup) : missing vs clauses = [] ↔ (clauses.map Prod.fst).Perm (vs.map Prod.fst) := by
  obtain ⟨hnodup, hlabels⟩ := h.labels
  rw [List.perm_ext_iff_of_nodup hnodup hd, missing, List.filter_eq_nil_iff]
  constructor
  · exact fun hcovers l => ⟨fun hl => (hlabels l hl).2, fun hl => by simpa using hcovers l hl⟩
  · exact fun hsame l hl => by simpa using (hsame l).2 hl

/-- When the clauses pass, a dispatch without a fallback gives their common type or reports what is missing. -/
theorem Call.outcome_dispatch (hx : env.find? x = some bound) (hvs : bound.unroll.run s = (some (.union vs), s₁))
    (hpass : ClausesPass cx scope env span x vs [] none s₁ clauses common s₂) :
    Call.outcome (Expr.typeIn cx) ⟨scope, env, .mk span (.dispatch x clauses none), s⟩ =
      (if missing vs clauses = [] then .ok (common.getD .undefined)
        else .error (.rule ⟨.nonExhaustive (missing vs clauses), span⟩), s₂) := by
  rw [← Call.ruleOutcome_typeIn, ruleOutcome]
  simp only [Expr.span, Expr.term, Checker.rule, hx]
  rw [run_bind_of_ok (expectUnion_eq_ok_iff.2 hvs), run_bind_of_ok (clausesType_eq_ok_iff.2 hpass), missing_eq]
  have hempty : (vs.filter fun v => v.1 ∉ clauses.map Prod.fst).isEmpty = true ↔ missing vs clauses = [] := by
    rw [← missing_eq, List.map_eq_nil_iff, List.isEmpty_iff]
  by_cases hmissing : missing vs clauses = []
  · rw [if_pos hmissing, if_pos (hempty.2 hmissing)]
    rfl
  · rw [if_neg hmissing, if_neg (mt hempty.1 hmissing)]
    rfl

/-- Without a fallback, a dispatch has a type just when its clauses pass and are for all variants. -/
theorem Call.dispatch_eq_ok_iff {t : Ty} (hx : env.find? x = some bound)
    (hvs : bound.unroll.run s = (some (.union vs), s₁)) (hd : (vs.map Prod.fst).Nodup) :
    Call.outcome (Expr.typeIn cx) ⟨scope, env, .mk span (.dispatch x clauses none), s⟩ = (.ok t, s₂) ↔
      ∃ common, ClausesPass cx scope env span x vs [] none s₁ clauses common s₂ ∧
        (clauses.map Prod.fst).Perm (vs.map Prod.fst) ∧ t = common.getD .undefined := by
  constructor
  · intro h
    obtain ⟨bound', vs', s₁', common, s₃, hx', hvs', hpass, -⟩ := Call.dispatch_eq_ok h
    obtain rfl := Option.some.inj (hx.symm.trans hx')
    cases hvs.symm.trans (expectUnion_eq_ok_iff.1 hvs')
    rw [outcome_dispatch hx hvs hpass] at h
    split at h
    · rename_i hmissing
      cases h
      exact ⟨common, hpass, (hpass.perm_iff hd).1 hmissing, rfl⟩
    · cases h
  · rintro ⟨common, hpass, hperm, rfl⟩
    rw [outcome_dispatch hx hvs hpass, if_pos ((hpass.perm_iff hd).2 hperm)]

/-- When the clauses pass, a dispatch without a fallback is refused just when some variant has none, and all labels
that are missing are reported. -/
theorem Call.dispatch_eq_error_iff {labels : List Name} (hx : env.find? x = some bound)
    (hvs : bound.unroll.run s = (some (.union vs), s₁))
    (hpass : ClausesPass cx scope env span x vs [] none s₁ clauses common s₂) :
    (Call.outcome (Expr.typeIn cx) ⟨scope, env, .mk span (.dispatch x clauses none), s⟩).1 =
        .error (.rule ⟨.nonExhaustive labels, span⟩) ↔
      (∃ l ∈ vs.map Prod.fst, l ∉ clauses.map Prod.fst) ∧ labels = missing vs clauses := by
  have hsome : (∃ l ∈ vs.map Prod.fst, l ∉ clauses.map Prod.fst) ↔ missing vs clauses ≠ [] := by
    rw [Ne, missing, List.filter_eq_nil_iff]
    simp
  rw [outcome_dispatch hx hvs hpass, hsome]
  by_cases hmissing : missing vs clauses = []
  · simp [hmissing]
  · rw [if_neg hmissing]
    constructor
    · intro h
      cases h
      exact ⟨hmissing, rfl⟩
    · rintro ⟨-, rfl⟩
      rfl

/-! ### Results -/

/-- Without a fallback, a dispatch has a type only if the labels of its clauses are those of the union, in some order.
When all clauses pass, it is refused just when some label has no clause, with all such labels in the order of the union.
The body of a clause is checked once the clauses before it have passed, where only the variable is bound anew, to the
object of the variant.  The fallback is checked where it is bound to the union of the variants without a clause.
Nothing else is checked. -/
theorem Expr.dispatch_exhaustive (cx : Context) (p : Call) {fallback : Option Expr}
    (hp : p.expr = .mk span (.dispatch x clauses fallback)) (hx : p.env.find? x = some bound)
    (hvs : bound.unroll.run p.supply = (some (.union vs), s₁)) (hd : (vs.map Prod.fst).Nodup) :
    (fallback = none →
      (∀ t, (p.outcome (typeIn cx)).1 = .ok t → (clauses.map Prod.fst).Perm (vs.map Prod.fst)) ∧
      ∀ common s₂, ClausesPass cx p.scope p.env span x vs [] none s₁ clauses common s₂ →
        (∀ labels, (p.outcome (typeIn cx)).1 = .error (.rule ⟨.nonExhaustive labels, span⟩) ↔
          (∃ l ∈ vs.map Prod.fst, l ∉ clauses.map Prod.fst) ∧ labels = missing vs clauses) ∧
        ((∀ l ∈ vs.map Prod.fst, l ∈ clauses.map Prod.fst) →
          (p.outcome (typeIn cx)).1 = .ok (common.getD .undefined))) ∧
    (∀ body common s₂, fallback = some body → ClausesPass cx p.scope p.env span x vs [] none s₁ clauses common s₂ →
      Calls cx p ⟨p.scope, p.env.bind x (.union (vs.filter fun v => v.1 ∉ clauses.map Prod.fst)), body, s₂⟩) ∧
    (∀ pre label body post row common s₂, clauses = pre ++ (label, body) :: post →
      ClausesPass cx p.scope p.env span x vs [] none s₁ pre common s₂ → label ∉ pre.map Prod.fst → (label, row) ∈ vs →
      Calls cx p ⟨p.scope, p.env.bind x (.object row), body, s₂⟩) ∧
    ∀ q, Calls cx p q → q.scope = p.scope ∧
      ((∃ label row, (label, q.expr) ∈ clauses ∧ (label, row) ∈ vs ∧ q.env = p.env.bind x (.object row)) ∨
        (fallback = some q.expr ∧
          q.env = p.env.bind x (.union (vs.filter fun v => v.1 ∉ clauses.map Prod.fst)))) := by
  obtain ⟨scope, env, _, s⟩ := p
  obtain rfl : _ = Expr.mk span (.dispatch x clauses fallback) := hp
  have hunion : (bound.expectUnion span).run.run s = (.ok vs, s₁) := expectUnion_eq_ok_iff.2 hvs
  refine ⟨?_, fun body common s₂ hbody hpass => ?_,
    fun pre label body post row common s₂ hclauses hpass hnew hrow => ?_, fun q hq => ?_⟩
  · rintro rfl
    refine ⟨fun t ht => ?_, fun common s₂ hpass => ⟨fun labels => Call.dispatch_eq_error_iff hx hvs hpass, fun h => ?_⟩⟩
    · obtain ⟨common, -, hperm, -⟩ := (Call.dispatch_eq_ok_iff hx hvs hd).1 (Prod.ext ht rfl)
      exact hperm
    · have hmissing : missing vs clauses = [] := List.filter_eq_nil_iff.2 fun l hl => by simpa using h l hl
      rw [Call.outcome_dispatch hx hvs hpass, if_pos hmissing]
  · exact (Calls.dispatch_iff hx hunion).2 (.inr ⟨body, common, s₂, hbody, hpass, rfl⟩)
  · obtain rfl := hclauses
    refine (Calls.dispatch_iff hx hunion).2 (.inl (hpass.clauseCall ⟨List.not_mem_nil, hnew⟩ ?_))
    exact lookup_of_mem hd hrow
  · rcases (Calls.dispatch_iff hx hunion).1 hq with hclause | ⟨body, common, s₂, hbody, -, rfl⟩
    · obtain ⟨hscope, hclause⟩ := hclause.exists_clause
      exact ⟨hscope, .inl hclause⟩
    · exact ⟨rfl, .inr ⟨hbody, rfl⟩⟩

/-- `mu T. | { tag: "leaf"; v: number } | { tag: "node"; l: T; r: T }` -/
private def tree : Ty :=
  .mu "T" (.union [("leaf", [("v", .number)]), ("node", [("l", .var "T"), ("r", .var "T")])])

private def treeEnv : Env :=
  Env.empty.bind "t" tree

private def childOf (name : Name) : Expr :=
  .mk ⟨2, 3⟩ (.property (.mk ⟨1, 2⟩ (.var "t")) name)

/-- `case "node": t.l === t.r` -/
private def nodeClause : Name × Expr :=
  ("node", .mk ⟨3, 4⟩ (.compare .same (childOf "l") (childOf "r")))

/-- `case "leaf": true` -/
private def leafClause : Name × Expr :=
  ("leaf", .mk ⟨4, 5⟩ (.lit (.boolean true)))

private def treeCall (clauses : List (Name × Expr)) (fallback : Option Expr) : Call :=
  ⟨[], treeEnv, .mk ⟨5, 6⟩ (.dispatch "t" clauses fallback), {}⟩

private def treeVariants : Variants :=
  [("leaf", [("v", .number)]), ("node", [("l", tree), ("r", tree)])]

/-- A tree is a leaf or a node of two trees.  Clauses for both, in any order, are accepted.  Without one for leaves the
dispatch is refused, unless it has a fallback, which sees a leaf. -/
theorem dispatch_exhaustive_tree :
    ((treeCall [nodeClause, leafClause] none).outcome (Expr.typeIn {})).1 = .ok .boolean ∧
    ["node", "leaf"].Perm ["leaf", "node"] ∧
    ((treeCall [nodeClause] none).outcome (Expr.typeIn {})).1 = .error (.rule ⟨.nonExhaustive ["leaf"], ⟨5, 6⟩⟩) ∧
    Calls {} (treeCall [nodeClause] (some leafClause.2))
      ⟨[], treeEnv.bind "t" (.union [("leaf", [("v", .number)])]), leafClause.2, {}⟩ ∧
    Calls {} (treeCall [nodeClause, leafClause] none)
      ⟨[], treeEnv.bind "t" (.object [("l", tree), ("r", tree)]), nodeClause.2, {}⟩ := by
  have hunroll : tree.unroll.run {} = (some (.union treeVariants), {}) := by cbv
  have hnode : ClausesPass {} [] treeEnv ⟨5, 6⟩ "t" treeVariants [] none {} [nodeClause] (some .boolean) {} :=
    .cons (by decide) rfl (by cbv) rfl .nil
  have hpass : ClausesPass {} [] treeEnv ⟨5, 6⟩ "t" treeVariants [] none {} [nodeClause, leafClause]
      (some .boolean) {} :=
    .cons (by decide) rfl (by cbv) rfl (.cons (by decide) rfl rfl (by cbv) .nil)
  obtain ⟨hnone, -, hclause, -⟩ :=
    Expr.dispatch_exhaustive {} (treeCall [nodeClause, leafClause] none) rfl rfl hunroll (by decide)
  obtain ⟨hmissing, -⟩ := Expr.dispatch_exhaustive {} (treeCall [nodeClause] none) rfl rfl hunroll (by decide)
  obtain ⟨-, hfallback, -⟩ :=
    Expr.dispatch_exhaustive {} (treeCall [nodeClause] (some leafClause.2)) rfl rfl hunroll (by decide)
  have hok := ((hnone rfl).2 _ _ hpass).2 (by decide)
  refine ⟨hok, (hnone rfl).1 _ hok, (((hmissing rfl).2 _ _ hnode).1 _).2 ⟨by decide, rfl⟩, ?_, ?_⟩
  · exact hfallback _ _ _ rfl hnode
  · exact hclause [] "node" nodeClause.2 [leafClause] _ _ _ rfl .nil (by decide) (by simp [treeVariants])

end Dispatch

end MuTypes
