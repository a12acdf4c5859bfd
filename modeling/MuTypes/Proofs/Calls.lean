import MuTypes.Proofs.Programs

/-!
# Which calls a rule makes

`Calls` quantifies over checkers.  Here it is read off the rules: a computation that asks a checker makes a call
(`Reaches`), or does not depend on what the checker says there (`Avoids`), and not both.  For a conditional whose test
refines a variable the calls are those for its branches (`Calls.cond_iff`).  For a dispatch they are those for its
clauses, as far as these pass, and for its fallback (`Calls.dispatch_iff`), and when it has a type all of these have
been made (`Call.dispatch_eq_ok`).

A failure of a call is a failure of whatever has led to it (`Call.error_of_calls`).
-/

namespace MuTypes

open NameSupply

/-! ### Answers -/

section Answers

variable {α : Type} {t u : Ty} {s s' : NameSupply} {span : Span}

theorem NameSupply.Checks.of_ok {m : CheckM α} {Q : α → NameSupply → Prop} {a : α} (h : s.Checks m Q)
    (hrun : m.run.run s = (.ok a, s')) : s ≤ s' ∧ Q a s' := by
  unfold Checks Yields at h
  rw [hrun] at h
  exact ⟨h.1, h.2.1 a rfl⟩

theorem compare_eq_ok_iff {m : CompareM α} {a : α} :
    (liftM m : CheckM α).run.run s = (.ok a, s') ↔ m.run.run s = (.ok a, s') := by
  have hlift : (liftM m : CheckM α).run.run s = ((m.run.run s).1.mapError Failure.halt, (m.run.run s).2) := rfl
  rw [hlift]
  rcases m.run.run s with ⟨_ | a', s₁⟩
  · exact ⟨nofun, nofun⟩
  · constructor <;> (rintro ⟨⟩; rfl)

theorem unrolled_eq_ok_iff :
    (liftM t.unrolled : CheckM Ty).run.run s = (.ok u, s') ↔ t.unroll.run s = (some u, s') := by
  have hunroll : (liftM t.unroll : CompareM (Option Ty)).run.run s = (.ok (t.unroll.run s).1, (t.unroll.run s).2) :=
    rfl
  rw [compare_eq_ok_iff, Ty.unrolled, run_bind_of_ok hunroll]
  rcases t.unroll.run s with ⟨_ | u', s₁⟩
  · exact ⟨nofun, nofun⟩
  · constructor <;> (rintro ⟨⟩; rfl)

theorem expectGeneric_eq_ok_iff {ns : List Name} {body : Ty} :
    (t.expectGeneric span).run.run s = (.ok (ns, body), s') ↔ t.unroll.run s = (some (.generic ns body), s') := by
  rw [← unrolled_eq_ok_iff]
  constructor
  · intro h
    obtain ⟨t', s₁, ht', h'⟩ := run_bind_eq_ok h
    split at h' <;> cases h'
    exact ht'
  · intro h
    rw [Ty.expectGeneric, run_bind_of_ok h]
    rfl

theorem expectUnion_eq_ok_iff {vs : Variants} :
    (t.expectUnion span).run.run s = (.ok vs, s') ↔ t.unroll.run s = (some (.union vs), s') := by
  rw [← unrolled_eq_ok_iff]
  constructor
  · intro h
    obtain ⟨t', s₁, ht', h'⟩ := run_bind_eq_ok h
    split at h' <;> cases h'
    exact ht'
  · intro h
    rw [Ty.expectUnion, run_bind_of_ok h]
    rfl

end Answers

/-! ### Computations that make a call -/

/-- The checker gives types, except perhaps for one call. -/
def Checker.AgreesOff (check : Checker) (cx : Context) (q : Call) : Prop :=
  ∀ c, c ≠ q → c.outcome check = c.outcome (Expr.typeIn cx)

/-- Started from the supply, the computation fails when the call does, with the same failure. -/
def Reaches {α : Type} (cx : Context) (q : Call) (s : NameSupply) (m : Checker → CheckM α) : Prop :=
  ∀ check f, check.AgreesOff cx q → (q.outcome check).1 = .error f → ((m check).run.run s).1 = .error f

/-- Started from the supply, the computation does not depend on what the checker says at the call. -/
def Avoids {α : Type} (cx : Context) (q : Call) (s : NameSupply) (m : Checker → CheckM α) : Prop :=
  ∀ check, check.AgreesOff cx q → (m check).run.run s = (m (Expr.typeIn cx)).run.run s

section Computations

variable {α β : Type} {cx : Context} {q : Call} {scope : Scope} {env : Env} {e : Expr} {s s' : NameSupply}
  {m : Checker → CheckM α} {k : Checker → α → CheckM β}

theorem calls_iff_reaches {p : Call} :
    Calls cx p q ↔ Reaches cx q p.supply fun check => check.rule cx p.scope p.env p.expr.span p.expr.term :=
  Iff.rfl

theorem reaches_check (cx : Context) (q : Call) : Reaches cx q q.supply fun check => check q.scope q.env q.expr :=
  fun _ _ _ h => h

theorem avoids_check (h : ⟨scope, env, e, s⟩ ≠ q) : Avoids cx q s fun check => check scope env e :=
  fun _ hoff => hoff _ h

theorem avoids_const (m : CheckM α) : Avoids cx q s fun _ => m :=
  fun _ _ => rfl

theorem Reaches.bind (h : Reaches cx q s m) (k : Checker → α → CheckM β) :
    Reaches cx q s fun check => m check >>= k check :=
  fun check f hoff hf => run_bind_of_error (h check f hoff hf) _

/-- What comes first can avoid the call, and what follows make it. -/
theorem Avoids.bind_reaches (h : Avoids cx q s m) {a : α} (hrun : (m (Expr.typeIn cx)).run.run s = (.ok a, s'))
    (hk : Reaches cx q s' (k · a)) : Reaches cx q s fun check => m check >>= k check := by
  intro check f hoff hf
  show ((m check >>= k check).run.run s).1 = _
  rw [run_bind_of_ok ((h check hoff).trans hrun)]
  exact hk check f hoff hf

theorem Avoids.bind (h : Avoids cx q s m)
    (hk : ∀ a s', (m (Expr.typeIn cx)).run.run s = (.ok a, s') → Avoids cx q s' (k · a)) :
    Avoids cx q s fun check => m check >>= k check := by
  intro check hoff
  show (m check >>= k check).run.run s = (m (Expr.typeIn cx) >>= k (Expr.typeIn cx)).run.run s
  rcases hrun : (m (Expr.typeIn cx)).run.run s with ⟨f | a, s'⟩
  · have hcheck := (h check hoff).trans hrun
    rw [ExceptT.run_bind, ExceptT.run_bind, StateT.run_bind, StateT.run_bind, hrun, hcheck]
    rfl
  · rw [run_bind_of_ok hrun, run_bind_of_ok ((h check hoff).trans hrun)]
    exact hk a s' hrun check hoff

open Classical in
/-- The checker that fails at one call and otherwise gives types. -/
private noncomputable def failingAt (cx : Context) (q : Call) (f : Failure) : Checker := fun scope env e =>
  ExceptT.mk fun s =>
    if ⟨scope, env, e, s⟩ = q then (.error f, s) else (e.typeIn cx scope env).run.run s

/-- Where a call is made it cannot be avoided: the failure would be the same, whatever the call fails with. -/
theorem Avoids.not_reaches (h : Avoids cx q s m) : ¬ Reaches cx q s m := by
  intro hr
  have hfails : ∀ f, ((m (Expr.typeIn cx)).run.run s).1 = .error f := by
    intro f
    have hoff : (failingAt cx q f).AgreesOff cx q := fun c hc => if_neg hc
    rw [← h _ hoff]
    exact hr _ f hoff (congrArg Prod.fst (if_pos rfl))
  exact nomatch (hfails (.halt (.unscoped "" ""))).symm.trans (hfails (.halt .unfinished))

end Computations

/-! ### Failures -/

/-- A failure of a call is a failure of every call that leads to it. -/
theorem Call.error_of_calls {cx : Context} {p q : Call} (h : Relation.ReflTransGen (Calls cx) p q) {f : Failure}
    (hf : (q.outcome (Expr.typeIn cx)).1 = .error f) : (p.outcome (Expr.typeIn cx)).1 = .error f := by
  induction h using Relation.ReflTransGen.head_induction_on with
  | refl => exact hf
  | head hstep _ ih =>
    rw [← Call.ruleOutcome_typeIn]
    exact hstep _ f (fun _ _ => rfl) ih

/-! ### Conditionals -/

section Cond

variable {cx : Context} {scope : Scope} {env envYes envNo : Env} {test yes no : Expr} {s s₁ : NameSupply} {q : Call}

/-- A conditional whose test refines a variable makes the calls for its branches, the second one when the first branch
has a type. -/
theorem Calls.cond_iff {span : Span} (h : (env.refine? test).run.run s = (.ok (some (envYes, envNo)), s₁)) :
    Calls cx ⟨scope, env, .mk span (.cond test yes no), s⟩ q ↔
      q = ⟨scope, envYes, yes, s₁⟩ ∨
      ∃ t s₂, (yes.typeIn cx scope envYes).run.run s₁ = (.ok t, s₂) ∧ q = ⟨scope, envNo, no, s₂⟩ := by
  have hrefine : Avoids cx q s fun _ => env.refine? test := avoids_const _
  constructor
  · intro hcalls
    by_contra hn
    rw [not_or, not_exists] at hn
    refine Avoids.not_reaches ?_ (calls_iff_reaches.1 hcalls)
    refine hrefine.bind fun o s' hrun => ?_
    cases h.symm.trans hrun
    refine (avoids_check (Ne.symm hn.1)).bind fun t s₂ ht => ?_
    refine (avoids_check fun he => hn.2 t ⟨s₂, ht, he.symm⟩).bind fun _ _ _ => avoids_const _
  · intro hq
    refine calls_iff_reaches.2 (hrefine.bind_reaches h ?_)
    by_cases hyes : q = ⟨scope, envYes, yes, s₁⟩
    · rw [hyes]
      exact (reaches_check cx _).bind _
    · obtain ⟨t, s₂, ht, rfl⟩ := hq.resolve_left hyes
      exact (avoids_check (Ne.symm hyes)).bind_reaches ht ((reaches_check cx _).bind _)

/-- A conditional whose test is refused makes no calls. -/
theorem Calls.not_cond {span : Span} {f : Failure} (h : ((env.refine? test).run.run s).1 = .error f) :
    ¬ Calls cx ⟨scope, env, .mk span (.cond test yes no), s⟩ q := by
  refine Avoids.not_reaches ((avoids_const (env.refine? test)).bind fun o s' hrun => ?_)
  rw [hrun] at h
  cases h

/-- A conditional whose test is refused is refused alike. -/
theorem Call.cond_eq_error {span : Span} {f : Failure} (h : ((env.refine? test).run.run s).1 = .error f) :
    (Call.outcome (Expr.typeIn cx) ⟨scope, env, .mk span (.cond test yes no), s⟩).1 = .error f := by
  rw [← Call.ruleOutcome_typeIn]
  exact run_bind_of_error h _

end Cond

/-! ### Dispatches -/

/-- Started from the supply, all the clauses pass and end with a type that they have in common: each has a label of the
union that is not used yet, its body has a type, and this agrees with the type so far. -/
inductive ClausesPass (cx : Context) (scope : Scope) (env : Env) (span : Span) (x : Name) (vs : Variants) :
    List Name → Option Ty → NameSupply → List (Name × Expr) → Option Ty → NameSupply → Prop where
  | nil {seen : List Name} {sofar : Option Ty} {s : NameSupply} :
    ClausesPass cx scope env span x vs seen sofar s [] sofar s
  | cons {seen : List Name} {sofar common : Option Ty} {s s₁ s₂ s₃ : NameSupply} {label : Name} {body : Expr}
    {row : Row} {t u : Ty} {rest : List (Name × Expr)} (hnew : label ∉ seen) (hknown : vs.lookup label = some row)
    (hbody : (body.typeIn cx scope (env.bind x (.object row))).run.run s = (.ok t, s₁))
    (hagree : (cx.commonClause scope sofar t span).run.run s₁ = (.ok u, s₂))
    (hrest : ClausesPass cx scope env span x vs (label :: seen) (some u) s₂ rest common s₃) :
    ClausesPass cx scope env span x vs seen sofar s ((label, body) :: rest) common s₃

section Dispatch

variable {cx : Context} {scope : Scope} {env : Env} {span : Span} {x : Name} {vs : Variants} {seen : List Name}
  {sofar common : Option Ty} {s s' : NameSupply} {clauses pre post : List (Name × Expr)} {label : Name} {body : Expr}
  {q : Call}

theorem expectVariant_of_lookup {row : Row} (h : vs.lookup label = some row) (span : Span) :
    expectVariant vs label span = pure row := by
  rw [expectVariant, h]

theorem expectVariant_eq_ok {row : Row} (h : (expectVariant vs label span).run.run s = (.ok row, s')) :
    vs.lookup label = some row ∧ s = s' := by
  unfold expectVariant at h
  split at h
  · rename_i hlookup
    cases h
    exact ⟨hlookup, rfl⟩
  · cases h

/-- The clauses pass just when checking them succeeds. -/
theorem clausesType_eq_ok_iff :
    (Checker.clauses (Expr.typeIn cx) cx scope env span x vs seen sofar clauses).run.run s = (.ok common, s') ↔
      ClausesPass cx scope env span x vs seen sofar s clauses common s' := by
  constructor
  · intro h
    induction clauses generalizing seen sofar s with
    | nil =>
      cases h
      exact .nil
    | cons c rest ih =>
      obtain ⟨label, body⟩ := c
      rw [Checker.clauses] at h
      split at h
      · cases h
      · rename_i hnew
        obtain ⟨row, s₀, hrow, hbody⟩ := run_bind_eq_ok h
        obtain ⟨t, s₁, ht, hagree⟩ := run_bind_eq_ok hbody
        obtain ⟨u, s₂, hu, hrest⟩ := run_bind_eq_ok hagree
        obtain ⟨hknown, rfl⟩ := expectVariant_eq_ok hrow
        exact .cons hnew hknown ht hu (ih hrest)
  · intro h
    induction h with
    | nil => rfl
    | cons hnew hknown hbody hagree _ ih =>
      rw [Checker.clauses, if_neg hnew, expectVariant_of_lookup hknown, pure_bind, run_bind_of_ok hbody,
        run_bind_of_ok hagree]
      exact ih

/-- Clauses that pass have labels of the union, all different. -/
theorem ClausesPass.labels (h : ClausesPass cx scope env span x vs seen sofar s clauses common s') :
    (clauses.map Prod.fst).Nodup ∧ ∀ l ∈ clauses.map Prod.fst, l ∉ seen ∧ l ∈ vs.map Prod.fst := by
  induction h with
  | nil => exact ⟨List.nodup_nil, List.forall_mem_nil _⟩
  | cons hnew hknown _ _ _ ih =>
    obtain ⟨hnodup, hlabels⟩ := ih
    refine ⟨List.nodup_cons.2 ⟨fun hmem => (hlabels _ hmem).1 List.mem_cons_self, hnodup⟩, ?_⟩
    refine List.forall_mem_cons.2 ⟨⟨hnew, List.mem_map_of_mem (mem_of_lookup hknown)⟩, fun l hl => ?_⟩
    exact ⟨fun hmem => (hlabels l hl).1 (List.mem_cons_of_mem _ hmem), (hlabels l hl).2⟩

/-- The calls for clauses: for the first one when its label is new and known, and for others once it passes. -/
inductive ClauseCall (cx : Context) (scope : Scope) (env : Env) (span : Span) (x : Name) (vs : Variants) :
    List Name → Option Ty → NameSupply → List (Name × Expr) → Call → Prop where
  | head {seen : List Name} {sofar : Option Ty} {s : NameSupply} {label : Name} {body : Expr} {row : Row}
    {rest : List (Name × Expr)} (hnew : label ∉ seen) (hknown : vs.lookup label = some row) :
    ClauseCall cx scope env span x vs seen sofar s ((label, body) :: rest) ⟨scope, env.bind x (.object row), body, s⟩
  | tail {seen : List Name} {sofar : Option Ty} {s s₁ s₂ : NameSupply} {label : Name} {body : Expr} {row : Row}
    {t u : Ty} {rest : List (Name × Expr)} {q : Call} (hnew : label ∉ seen) (hknown : vs.lookup label = some row)
    (hbody : (body.typeIn cx scope (env.bind x (.object row))).run.run s = (.ok t, s₁))
    (hagree : (cx.commonClause scope sofar t span).run.run s₁ = (.ok u, s₂))
    (hrest : ClauseCall cx scope env span x vs (label :: seen) (some u) s₂ rest q) :
    ClauseCall cx scope env span x vs seen sofar s ((label, body) :: rest) q

/-- The call for a clause is made once the clauses before it pass. -/
theorem ClausesPass.clauseCall {row : Row} (hpre : ClausesPass cx scope env span x vs seen sofar s pre common s')
    (hnew : label ∉ seen ∧ label ∉ pre.map Prod.fst) (hknown : vs.lookup label = some row) :
    ClauseCall cx scope env span x vs seen sofar s (pre ++ (label, body) :: post)
      ⟨scope, env.bind x (.object row), body, s'⟩ := by
  induction hpre with
  | nil => exact .head hnew.1 hknown
  | cons hnew' hknown' hbody hagree _ ih =>
    rw [List.map_cons, List.mem_cons, not_or] at hnew
    refine .tail hnew' hknown' hbody hagree (ih ⟨fun hmem => ?_, hnew.2.2⟩)
    exact (List.mem_cons.1 hmem).elim hnew.2.1 hnew.1

/-- A call for a clause is for its body, where the variable is the object of the variant. -/
theorem ClauseCall.exists_clause (h : ClauseCall cx scope env span x vs seen sofar s clauses q) :
    q.scope = scope ∧
      ∃ label row, (label, q.expr) ∈ clauses ∧ (label, row) ∈ vs ∧ q.env = env.bind x (.object row) := by
  induction h with
  | head _ hknown => exact ⟨rfl, _, _, List.mem_cons_self, mem_of_lookup hknown, rfl⟩
  | tail _ _ _ _ _ ih =>
    obtain ⟨hscope, label, row, hclause, hrow, henv⟩ := ih
    exact ⟨hscope, label, row, List.mem_cons_of_mem _ hclause, hrow, henv⟩

private theorem avoids_clauses (h : ¬ ClauseCall cx scope env span x vs seen sofar s clauses q) :
    Avoids cx q s fun check => check.clauses cx scope env span x vs seen sofar clauses := by
  induction clauses generalizing seen sofar s with
  | nil => exact avoids_const _
  | cons c rest ih =>
    obtain ⟨label, body⟩ := c
    simp only [Checker.clauses]
    by_cases hnew : label ∈ seen
    · simp only [if_pos hnew]
      exact avoids_const _
    · simp only [if_neg hnew]
      refine (avoids_const _).bind fun row s₀ hrow => ?_
      obtain ⟨hknown, rfl⟩ := expectVariant_eq_ok hrow
      have hhead : (⟨scope, env.bind x (.object row), body, s⟩ : Call) ≠ q := fun he => h (he ▸ .head hnew hknown)
      refine (avoids_check hhead).bind fun t s₁ hbody => ?_
      exact (avoids_const _).bind fun u s₂ hagree => ih fun hcall => h (.tail hnew hknown hbody hagree hcall)

private theorem reaches_clauses (h : ClauseCall cx scope env span x vs seen sofar s clauses q) :
    Reaches cx q s fun check => check.clauses cx scope env span x vs seen sofar clauses := by
  induction h with
  | head hnew hknown =>
    simp only [Checker.clauses, if_neg hnew, expectVariant_of_lookup hknown, pure_bind]
    exact (reaches_check cx _).bind _
  | @tail seen sofar s s₁ s₂ label body row t u rest q hnew hknown hbody hagree _ ih =>
    simp only [Checker.clauses, if_neg hnew, expectVariant_of_lookup hknown, pure_bind]
    -- the first clause may be for the very call that is made later
    by_cases hq : (⟨scope, env.bind x (.object row), body, s⟩ : Call) = q
    · rw [← hq]
      exact (reaches_check cx _).bind _
    · exact (avoids_check hq).bind_reaches hbody ((avoids_const _).bind_reaches hagree ih)

/-- A dispatch on a variable of a union type makes the calls for its clauses, one after the other as long as they pass.
When all have passed it makes the call for the fallback, which sees the variants without a clause. -/
theorem Calls.dispatch_iff {bound : Ty} {fallback : Option Expr} {s₁ : NameSupply} (hx : env.find? x = some bound)
    (hvs : (bound.expectUnion span).run.run s = (.ok vs, s₁)) :
    Calls cx ⟨scope, env, .mk span (.dispatch x clauses fallback), s⟩ q ↔
      ClauseCall cx scope env span x vs [] none s₁ clauses q ∨
      ∃ body sofar s₂, fallback = some body ∧ ClausesPass cx scope env span x vs [] none s₁ clauses sofar s₂ ∧
        q = ⟨scope, env.bind x (.union (vs.filter fun v => v.1 ∉ clauses.map Prod.fst)), body, s₂⟩ := by
  have hunion : Avoids cx q s fun _ => bound.expectUnion span := avoids_const _
  rw [calls_iff_reaches]
  simp only [Expr.span, Expr.term, Checker.rule, hx]
  constructor
  · intro hcalls
    by_contra hn
    rw [not_or] at hn
    refine Avoids.not_reaches (hunion.bind fun vs' s' hrun => ?_) hcalls
    cases hvs.symm.trans hrun
    refine (avoids_clauses hn.1).bind fun sofar s₂ hpass => ?_
    cases fallback with
    | none => exact avoids_const _
    | some body =>
      refine (avoids_check fun he => hn.2 ?_).bind fun _ _ _ => avoids_const _
      exact ⟨body, sofar, s₂, rfl, clausesType_eq_ok_iff.1 hpass, he.symm⟩
  · intro hq
    refine hunion.bind_reaches hvs ?_
    by_cases hclause : ClauseCall cx scope env span x vs [] none s₁ clauses q
    · exact (reaches_clauses hclause).bind _
    · obtain ⟨body, sofar, s₂, rfl, hpass, rfl⟩ := hq.resolve_left hclause
      exact (avoids_clauses hclause).bind_reaches (clausesType_eq_ok_iff.2 hpass) ((reaches_check cx _).bind _)

/-- What a dispatch that has a type has gone through: the clauses pass, and then the fallback has a type that agrees
with theirs, if there is one. -/
theorem Call.dispatch_eq_ok {fallback : Option Expr} {t : Ty}
    (h : Call.outcome (Expr.typeIn cx) ⟨scope, env, .mk span (.dispatch x clauses fallback), s⟩ = (.ok t, s')) :
    ∃ bound vs s₁ sofar s₂, env.find? x = some bound ∧ (bound.expectUnion span).run.run s = (.ok vs, s₁) ∧
      ClausesPass cx scope env span x vs [] none s₁ clauses sofar s₂ ∧
      ((fallback = none ∧ t = sofar.getD .undefined) ∨
        ∃ body b s₃, fallback = some body ∧
          (body.typeIn cx scope (env.bind x (.union (vs.filter fun v => v.1 ∉ clauses.map Prod.fst)))).run.run s₂ =
            (.ok b, s₃) ∧
          (cx.commonClause scope sofar b span).run.run s₃ = (.ok t, s')) := by
  rw [← Call.ruleOutcome_typeIn, ruleOutcome] at h
  simp only [Expr.span, Expr.term, Checker.rule] at h
  cases hx : env.find? x with
  | none =>
    rw [hx] at h
    cases h
  | some bound =>
    rw [hx] at h
    obtain ⟨vs, s₁, hvs, hclauses⟩ := run_bind_eq_ok h
    obtain ⟨sofar, s₂, hpass, hrest⟩ := run_bind_eq_ok hclauses
    refine ⟨bound, vs, s₁, sofar, s₂, rfl, hvs, clausesType_eq_ok_iff.1 hpass, ?_⟩
    cases fallback with
    | none =>
      dsimp only at hrest
      split at hrest <;> cases hrest
      exact .inl ⟨rfl, rfl⟩
    | some body =>
      obtain ⟨b, s₃, hb, hagree⟩ := run_bind_eq_ok hrest
      exact .inr ⟨body, b, s₃, rfl, hb, hagree⟩

end Dispatch

end MuTypes
