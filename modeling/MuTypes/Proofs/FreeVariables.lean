import MuTypes.Expr.Free
import MuTypes.Proofs.Calls

/-!
# Only free variables matter

An expression has the same outcome in environments that agree on its free variables (`Expr.typeIn_eq_of_agree`).  A rule
goes on in environments that differ from its own in few variables: those that are bound around the part, and those that
a test or a dispatch refines (`Env.Within`, `Checker.rule_congr`).  What is bound in one part is never seen in another
one (`Calls.find?_eq`).
-/

namespace MuTypes

/-! ### Variables of a node -/

/-- The variables that the node reads, assigns or dispatches on itself. -/
def Term.variables : Term → List Name
  | .var x | .assign x _ | .dispatch x _ _ => [x]
  | _ => []

/-- The direct parts, each with the variables that are bound around it. -/
def Term.boundParts : Term → List (List Name × Expr)
  | .lambda params _ body => [(params.map Prod.fst, body)]
  | .bind x value rest => [([], value), ([x], rest)]
  | .forIndex array x body rest | .forItem array x body rest => [([], array), ([x], body), ([], rest)]
  | .function f params _ body rest => [(f :: params.map Prod.fst, body), ([f], rest)]
  | term => term.parts.map fun e => ([], e)

/-- The variable that a test says something about. -/
def Evidence.variable : Evidence → Name
  | .defined x _ | .tagged x _ _ => x

/-- The variable that may have a smaller type in parts of the node. -/
def Term.refined : Term → List Name
  | .cond test _ _ => (test.evidence?.map Evidence.variable).toList
  | .dispatch x _ _ => [x]
  | _ => []

namespace Expr

variable {x : Name}

theorem mentionsArgs_iff {es : List Expr} : mentionsArgs x es = true ↔ ∃ e ∈ es, e.mentions x = true := by
  induction es with
  | nil => simp [mentionsArgs]
  | cons e es ih => simp [mentionsArgs, ih]

theorem mentionsNamed_iff {es : List (Name × Expr)} :
    mentionsNamed x es = true ↔ ∃ e ∈ es.map Prod.snd, e.mentions x = true := by
  induction es with
  | nil => simp [mentionsNamed]
  | cons e es ih => rw [mentionsNamed, Bool.or_eq_true, ih, List.map_cons, List.exists_mem_cons_iff]

private theorem exists_unbound_iff {es : List Expr} :
    (∃ q ∈ es.map fun e => (([] : List Name), e), x ∉ q.1 ∧ q.2.mentions x = true) ↔ ∃ e ∈ es, e.mentions x = true := by
  simp

/-- A variable occurs free in a node itself, or in a part around which it is not bound. -/
theorem mentions_mk {span : Span} {term : Term} : (mk span term).mentions x = true ↔
    x ∈ term.variables ∨ ∃ q ∈ term.boundParts, x ∉ q.1 ∧ q.2.mentions x = true := by
  cases term with
  | dispatch y clauses fallback =>
    have hparts : (Term.dispatch y clauses fallback).boundParts =
        (clauses.map Prod.snd ++ fallback.toList).map fun e => ([], e) := rfl
    rw [Term.variables, hparts, exists_unbound_iff]
    cases fallback <;>
      simp only [mentions, mentionsTerm, mentionsNamed_iff, Bool.or_eq_true, decide_eq_true_eq, List.mem_append,
        or_and_right, exists_or, Option.toList, List.mem_singleton, exists_eq_left, List.append_nil, @eq_comm _ x,
        or_assoc]
  | _ =>
    simp [mentions, mentionsTerm, mentionsArgs_iff, mentionsNamed_iff, Term.variables, Term.boundParts, Term.parts,
      @eq_comm _ x, or_assoc, and_assoc]

end Expr

/-! ### Environments of parts -/

/-- The inner environments differ from the outer ones at most in the given variables, and agree on these. -/
structure Env.Within (env env' : Env) (names : List Name) (inner inner' : Env) : Prop where
  inside : ∀ x ∈ names, inner.find? x = inner'.find? x
  left : ∀ x ∉ names, inner.find? x = env.find? x
  right : ∀ x ∉ names, inner'.find? x = env'.find? x

namespace Env

variable {env env' inner inner' : Env} {names names' : List Name}

/-- Environments are within themselves when they agree on the variables. -/
theorem within_self (h : ∀ x ∈ names, env.find? x = env'.find? x) : Within env env' names env env' :=
  ⟨h, fun _ _ => rfl, fun _ _ => rfl⟩

namespace Within

theorem of_mem_iff (h : Within env env' names inner inner') (hnames : ∀ x, x ∈ names ↔ x ∈ names') :
    Within env env' names' inner inner' := by
  refine ⟨fun x hx => h.inside x ((hnames x).2 hx), fun x hx => h.left x ?_, fun x hx => h.right x ?_⟩
  · rwa [hnames]
  · rwa [hnames]

theorem bind (h : Within env env' names inner inner') (x : Name) (t : Ty) :
    Within env env' (x :: names) (inner.bind x t) (inner'.bind x t) where
  inside := by
    intro y hy
    rw [find?_bind, find?_bind]
    by_cases hyx : y = x
    · rw [if_pos hyx, if_pos hyx]
    · rw [if_neg hyx, if_neg hyx]
      exact h.inside y ((List.mem_cons.1 hy).resolve_left hyx)
  left := by
    intro y hy
    rw [List.mem_cons, not_or] at hy
    obtain ⟨hyx, hy⟩ := hy
    rw [find?_bind_of_ne _ _ hyx, h.left y hy]
  right := by
    intro y hy
    rw [List.mem_cons, not_or] at hy
    obtain ⟨hyx, hy⟩ := hy
    rw [find?_bind_of_ne _ _ hyx, h.right y hy]

theorem bindAll (h : Within env env' names inner inner') (row : Row) :
    Within env env' (row.map Prod.fst ++ names) (inner.bindAll row) (inner'.bindAll row) := by
  induction row generalizing names inner inner' with
  | nil => exact h
  | cons p row ih =>
    have hrow := ih (h.bind p.1 p.2)
    refine hrow.of_mem_iff fun x => ?_
    simp only [List.mem_append, List.mem_cons, List.map_cons]
    exact or_left_comm.trans or_assoc.symm

/-- Expressions look up the same, inside and outside. -/
theorem find?_eq (h : Within env env' names inner inner') {x : Name} (hx : x ∉ names → env.find? x = env'.find? x) :
    inner.find? x = inner'.find? x := by
  by_cases hmem : x ∈ names
  · exact h.inside x hmem
  · rw [h.left x hmem, h.right x hmem, hx hmem]

end Within

section Tests

variable {α : Type} {test : Expr} {k k' : Option (Env × Env) → CheckM α}

private theorem defined?_bind_congr {x : Name} (h : env.find? x = env'.find? x) {k k' : Option Env → CheckM α}
    (hnone : k none = k' none) (hsome : ∀ t, k (some (env.bind x t)) = k' (some (env'.bind x t))) :
    env.defined? x >>= k = env'.defined? x >>= k' := by
  unfold defined?
  rw [h]
  cases env'.find? x with
  | none => exact hnone
  | some t =>
    simp only [bind_assoc]
    refine bind_congr fun u => ?_
    split
    · exact hsome _
    · exact hnone

private theorem split?_bind_congr {x label : Name} {span : Span} (h : env.find? x = env'.find? x)
    {k k' : Option (Env × Env) → CheckM α} (hnone : k none = k' none)
    (hsome : ∀ t u, k (some (env.bind x t, env.bind x u)) = k' (some (env'.bind x t, env'.bind x u))) :
    env.split? x label span >>= k = env'.split? x label span >>= k' := by
  unfold split?
  rw [h]
  cases env'.find? x with
  | none => exact hnone
  | some t =>
    simp only [bind_assoc]
    refine bind_congr fun u => ?_
    split
    · rename_i vs
      rw [List.partition_eq_filter_filter]
      dsimp only
      split
      · rfl
      · exact hsome _ _
    · exact hnone

/-- A test refines environments alike that agree on the variable that it is about. -/
theorem refine?_bind_congr (h : ∀ x ∈ (test.evidence?.map Evidence.variable).toList, env.find? x = env'.find? x)
    (hnone : k none = k' none) (hsome : ∀ envs envs' : Env × Env,
      Within env env' (test.evidence?.map Evidence.variable).toList envs.1 envs'.1 →
      Within env env' (test.evidence?.map Evidence.variable).toList envs.2 envs'.2 → k (some envs) = k' (some envs')) :
    env.refine? test >>= k = env'.refine? test >>= k' := by
  unfold refine?
  cases hevidence : test.evidence? with
  | none => exact hnone
  | some evidence =>
    rw [hevidence] at h hsome
    have hx : env.find? evidence.variable = env'.find? evidence.variable := h _ (List.mem_singleton_self _)
    have hself : Within env env' [evidence.variable] env env' := within_self h
    have hbind : ∀ t, Within env env' [evidence.variable] (env.bind evidence.variable t)
        (env'.bind evidence.variable t) := fun t => (within_self (List.forall_mem_nil _)).bind _ t
    cases evidence with
    | defined x outcome =>
      cases outcome <;> simp only [bind_assoc, pure_bind]
      · exact defined?_bind_congr hx hnone fun t => hsome _ _ hself (hbind t)
      · exact defined?_bind_congr hx hnone fun t => hsome _ _ (hbind t) hself
    | tagged x label outcome =>
      cases outcome <;> simp only [bind_assoc, pure_bind]
      · exact split?_bind_congr hx hnone fun t u => hsome _ _ (hbind u) (hbind t)
      · exact split?_bind_congr hx hnone fun t u => hsome _ _ (hbind t) (hbind u)

end Tests

end Env

/-! ### Rules -/

/-- What follows annotated parameters depends on what it does for rows with their names. -/
private theorem Context.paramRow_bind_congr {α : Type} (cx : Context) (scope : Scope) {params : List (Name × TyExpr)}
    {k k' : Row → CheckM α} (h : ∀ row, row.map Prod.fst = params.map Prod.fst → k row = k' row) :
    cx.paramRow scope params >>= k = cx.paramRow scope params >>= k' := by
  unfold paramRow
  induction params generalizing k k' with
  | nil => exact h [] rfl
  | cons p params ih =>
    simp only [List.mapM_cons, bind_assoc, pure_bind]
    refine bind_congr fun t => ih fun row hrow => h _ ?_
    rw [List.map_cons, List.map_cons, hrow]

namespace Checker

section Congruence

variable {check check' : Checker} {cx : Context} {scope : Scope} {env env' : Env} {span : Span}

private theorem args_congr {es : List Expr} (h : ∀ e ∈ es, check scope env e = check' scope env' e) (ps : Row) :
    check.args cx scope env ps es = check'.args cx scope env' ps es := by
  induction es generalizing ps with
  | nil => cases ps <;> rfl
  | cons e es ih =>
    obtain ⟨he, hes⟩ := List.forall_mem_cons.1 h
    cases ps with
    | nil => rfl
    | cons p ps => simp only [args, he, ih hes]

private theorem inits_congr {es : List (Name × Expr)}
    (h : ∀ e ∈ es.map Prod.snd, check scope env e = check' scope env' e) (seen : List Name) :
    check.inits scope env span seen es = check'.inits scope env' span seen es := by
  induction es generalizing seen with
  | nil => rfl
  | cons e es ih =>
    obtain ⟨he, hes⟩ := List.forall_mem_cons.1 h
    simp only [inits, he, ih hes]

private theorem declaredInits_congr {es : List (Name × Expr)}
    (h : ∀ e ∈ es.map Prod.snd, check scope env e = check' scope env' e) (declared : Row) (seen : List Name) :
    check.declaredInits cx scope env span declared seen es =
      check'.declaredInits cx scope env' span declared seen es := by
  induction es generalizing seen with
  | nil => rfl
  | cons e es ih =>
    obtain ⟨he, hes⟩ := List.forall_mem_cons.1 h
    simp only [declaredInits, he, ih hes]

private theorem clauses_congr {x : Name} {es : List (Name × Expr)}
    (h : ∀ e ∈ es.map Prod.snd, ∀ t, check scope (env.bind x t) e = check' scope (env'.bind x t) e) (vs : Variants)
    (seen : List Name) (sofar : Option Ty) :
    check.clauses cx scope env span x vs seen sofar es = check'.clauses cx scope env' span x vs seen sofar es := by
  induction es generalizing seen sofar with
  | nil => rfl
  | cons e es ih =>
    obtain ⟨he, hes⟩ := List.forall_mem_cons.1 h
    simp only [clauses, he, ih hes]

/-- A rule gives the same in two environments that agree on the variables of the node, with checkers that give the same
for each part in environments that differ from these at most in what is bound or refined there. -/
theorem rule_congr {term : Term} (hvariables : ∀ x ∈ term.variables, env.find? x = env'.find? x)
    (hrefined : ∀ x ∈ term.refined, env.find? x = env'.find? x)
    (hparts : ∀ q ∈ term.boundParts, ∀ scope inner inner', Env.Within env env' (q.1 ++ term.refined) inner inner' →
      check scope inner q.2 = check' scope inner' q.2) :
    check.rule cx scope env span term = check'.rule cx scope env' span term := by
  have hself : Env.Within env env' term.refined env env' := Env.within_self hrefined
  -- the parts around which nothing is bound
  have hplain : ∀ e, ([], e) ∈ term.boundParts → ∀ scope, check scope env e = check' scope env' e := fun e he scope =>
    hparts ([], e) he scope env env' hself
  cases term with
  | lit v => cases v <;> rfl
  | emptyArray _ | emptyMap _ => rfl
  | var x => simp only [rule, hvariables x (List.mem_singleton_self x)]
  | not e | copyMap e | property e _ | widen e _ | instantiate e _ =>
    have he := hplain e (List.mem_singleton_self _)
    simp only [rule, he]
  | compare _ l r | add l r | seq l r | append l r | hasKey l r | index l r =>
    have hl := hplain l (by simp [Term.boundParts, Term.parts])
    have hr := hplain r (by simp [Term.boundParts, Term.parts])
    simp only [rule, hl, hr]
  | insert a b c =>
    have ha := hplain a (by simp [Term.boundParts, Term.parts])
    have hb := hplain b (by simp [Term.boundParts, Term.parts])
    have hc := hplain c (by simp [Term.boundParts, Term.parts])
    simp only [rule, ha, hb, hc]
  | generic params e => simp only [rule, hplain e (List.mem_singleton_self _)]
  | cond test yes no =>
    have htest := hplain test (by simp [Term.boundParts, Term.parts])
    have hyes := hparts ([], yes) (by simp [Term.boundParts, Term.parts])
    have hno := hparts ([], no) (by simp [Term.boundParts, Term.parts])
    simp only [rule]
    refine Env.refine?_bind_congr hrefined ?_ ?_
    · simp only [htest, hyes scope env env' hself, hno scope env env' hself]
    · intro envs envs' hfirst hsecond
      simp only [hyes scope envs.1 envs'.1 hfirst, hno scope envs.2 envs'.2 hsecond]
  | lambda params result body =>
    simp only [rule]
    refine Context.paramRow_bind_congr cx scope fun row hrow => ?_
    have hbody := hparts (params.map Prod.fst, body) (List.mem_singleton_self _)
    rw [← hrow] at hbody
    simp only [hbody scope _ _ (hself.bindAll row)]
  | call callee es =>
    have hcallee := hplain callee (by simp [Term.boundParts, Term.parts])
    have hargs : ∀ ps, check.args cx scope env ps es = check'.args cx scope env' ps es :=
      args_congr fun e he => hplain e (by simp [Term.boundParts, Term.parts, he]) scope
    simp only [rule, hcallee, hargs]
  | bind x value rest =>
    have hvalue := hplain value (by simp [Term.boundParts])
    have hrest := hparts ([x], rest) (by simp [Term.boundParts])
    simp only [rule, hvalue]
    refine bind_congr fun t => ?_
    exact hrest scope _ _ (hself.bind x t)
  | assign x value =>
    have hvalue := hplain value (List.mem_singleton_self _)
    simp only [rule, hvalue, hvariables x (List.mem_singleton_self x)]
  | forIndex array x body rest =>
    have harray := hplain array (by simp [Term.boundParts])
    have hbody := hparts ([x], body) (by simp [Term.boundParts])
    have hrest := hplain rest (by simp [Term.boundParts])
    simp only [rule, harray, hbody scope _ _ (hself.bind x _), hrest]
  | forItem array x body rest =>
    have harray := hplain array (by simp [Term.boundParts])
    have hbody := hparts ([x], body) (by simp [Term.boundParts])
    have hrest := hplain rest (by simp [Term.boundParts])
    simp only [rule, harray, hbody scope _ _ (hself.bind x _), hrest]
  | object es =>
    simp only [rule, inits_congr fun e he => hplain e (List.mem_map_of_mem he) scope]
  | variant label es type =>
    have hinits : ∀ row, check.declaredInits cx scope env span row [] es =
        check'.declaredInits cx scope env' span row [] es := fun row =>
      declaredInits_congr (fun e he => hplain e (List.mem_map_of_mem he) scope) row []
    simp only [rule, hinits]
  | dispatch x clauses fallback =>
    have hx := hvariables x (List.mem_singleton_self x)
    -- what the subject was before does not matter in a clause
    have hbound : ∀ t, Env.Within env env' [x] (env.bind x t) (env'.bind x t) := fun t =>
      (Env.within_self (List.forall_mem_nil _)).bind x t
    have hclauses : ∀ vs, check.clauses cx scope env span x vs [] none clauses =
        check'.clauses cx scope env' span x vs [] none clauses := by
      intro vs
      refine clauses_congr (fun e he t => ?_) vs [] none
      exact hparts ([], e) (List.mem_map_of_mem (List.mem_append_left _ he)) scope _ _ (hbound t)
    simp only [rule, hx, hclauses]
    cases fallback with
    | none => rfl
    | some e =>
      have he := hparts ([], e) (List.mem_map_of_mem (List.mem_append_right _ (List.mem_singleton_self e))) scope
      simp only [he _ _ (hbound _)]
  | function f params result body rest =>
    have hbody := hparts (f :: params.map Prod.fst, body) (by simp [Term.boundParts])
    have hrest := hparts ([f], rest) (by simp [Term.boundParts])
    simp only [rule]
    refine Context.paramRow_bind_congr cx scope fun row hrow => ?_
    rw [← hrow] at hbody
    have hinner : ∀ t, Env.Within env env' (f :: row.map Prod.fst ++ []) ((env.bindAll row).bind f t)
        ((env'.bindAll row).bind f t) := fun t => (hself.bindAll row).bind f t
    simp only [hbody scope _ _ (hinner _), hrest scope _ _ (hself.bind f _)]

end Congruence

end Checker

/-! ### Expressions -/

namespace Expr

theorem mentions_of_evidence? {test : Expr} {evidence : Evidence} (h : test.evidence? = some evidence) :
    test.mentions evidence.variable = true := by
  unfold evidence? at h
  split at h
  · cases h
    simp [mentions, mentionsTerm, Evidence.variable]
  · cases h
    simp [mentions, mentionsTerm, Evidence.variable]
  · split at h <;> cases h
    simp [mentions, mentionsTerm, Evidence.variable]
  · cases h

/-- What a node refines occurs free in it. -/
theorem mentions_of_mem_refined {span : Span} {term : Term} {x : Name} (h : x ∈ term.refined) :
    (mk span term).mentions x = true := by
  rw [mentions_mk]
  cases term with
  | cond test yes no =>
    obtain ⟨evidence, hevidence, rfl⟩ := Option.map_eq_some_iff.1 (Option.mem_toList.1 h)
    exact Or.inr ⟨([], test), by simp [Term.boundParts, Term.parts], List.not_mem_nil, mentions_of_evidence? hevidence⟩
  | dispatch y clauses fallback => exact Or.inl h
  | _ => cases h

theorem mem_parts_of_mem_boundParts {term : Term} {q : List Name × Expr} (h : q ∈ term.boundParts) :
    q.2 ∈ term.parts := by
  cases term with
  | lambda params result body =>
    rw [List.mem_singleton.1 h]
    exact List.mem_singleton_self body
  | bind x value rest | function f params result value rest =>
    rcases List.mem_pair.1 h with rfl | rfl <;> simp [Term.parts]
  | forIndex array x body rest | forItem array x body rest =>
    simp only [Term.boundParts, List.mem_cons, List.not_mem_nil, or_false] at h
    rcases h with rfl | rfl | rfl <;> simp [Term.parts]
  | _ =>
    obtain ⟨e, he, rfl⟩ := List.mem_map.1 h
    exact he

/-- An expression has the same outcome in environments that agree on its free variables. -/
theorem typeIn_eq_of_agree {cx : Context} {e : Expr} (scope : Scope) {env env' : Env}
    (h : ∀ x, e.mentions x = true → env.find? x = env'.find? x) : e.typeIn cx scope env = e.typeIn cx scope env' := by
  induction e using Expr.induct generalizing scope env env' with
  | mk span term ih =>
    rw [typeIn_mk, typeIn_mk]
    refine Checker.rule_congr ?_ ?_ ?_
    · intro x hx
      exact h x (mentions_mk.2 (Or.inl hx))
    · intro x hx
      exact h x (mentions_of_mem_refined hx)
    · intro q hq scope inner inner' hinner
      refine ih q.2 (mem_parts_of_mem_boundParts hq) scope fun x hx => hinner.find?_eq fun hbound => ?_
      exact h x (mentions_mk.2 (Or.inr ⟨q, hq, fun hmem => hbound (List.mem_append_left _ hmem), hx⟩))

end Expr

/-- A rule goes on where all variables are as in its own environment, except those that are bound around the part and
those that the node refines. -/
theorem Calls.exists_boundPart {cx : Context} {p q : Call} (h : Calls cx p q) :
    ∃ names, (names, q.expr) ∈ p.expr.term.boundParts ∧
      ∀ x ∉ names ++ p.expr.term.refined, q.env.find? x = p.env.find? x := by
  by_contra hnone
  have havoids : Avoids cx q p.supply fun check => check.rule cx p.scope p.env p.expr.span p.expr.term := by
    intro check hoff
    have hrule : check.rule cx p.scope p.env p.expr.span p.expr.term =
        Checker.rule (Expr.typeIn cx) cx p.scope p.env p.expr.span p.expr.term := by
      refine Checker.rule_congr (fun _ _ => rfl) (fun _ _ => rfl) fun part hpart scope inner inner' hinner => ?_
      have hcheck : check scope inner part.2 = part.2.typeIn cx scope inner := by
        refine funext fun s => hoff ⟨scope, inner, part.2, s⟩ ?_
        rintro rfl
        exact hnone ⟨part.1, hpart, hinner.left⟩
      rw [hcheck]
      exact Expr.typeIn_eq_of_agree scope fun x _ => hinner.find?_eq fun _ => rfl
    exact congrArg (fun m : CheckM Ty => m.run.run p.supply) hrule
  exact havoids.not_reaches (calls_iff_reaches.1 h)

/-! ### Bindings that do not matter -/

namespace Env

theorem find?_append (newer older : Row) (x : Name) :
    Env.find? ⟨newer ++ older⟩ x = (newer.lookup x).or (Env.find? ⟨older⟩ x) :=
  List.lookup_append

/-- A binding is not seen behind a newer one of the same name. -/
theorem find?_insert (newer older : Row) (x : Name) (t : Ty) {y : Name} (h : y = x → x ∈ newer.map Prod.fst) :
    Env.find? ⟨newer ++ (x, t) :: older⟩ y = Env.find? ⟨newer ++ older⟩ y := by
  rw [find?_append, find?_append]
  by_cases hyx : y = x
  · have hnewer : newer.lookup y ≠ none := fun hn => lookup_eq_none_iff.1 hn (hyx ▸ h hyx)
    obtain ⟨u, hu⟩ := Option.ne_none_iff_exists'.1 hnewer
    rw [hu]
    rfl
  · have holder : Env.find? ⟨(x, t) :: older⟩ y = Env.find? ⟨older⟩ y := find?_bind_of_ne ⟨older⟩ t hyx
    rw [holder]

/-- Bindings of different variables can be made in either order. -/
theorem find?_swap (newer older : Row) {p q : Name × Ty} (h : p.1 ≠ q.1) (y : Name) :
    Env.find? ⟨newer ++ p :: q :: older⟩ y = Env.find? ⟨newer ++ q :: p :: older⟩ y := by
  have hbind : (((Env.mk older).bind q.1 q.2).bind p.1 p.2).find? y =
      (((Env.mk older).bind p.1 p.2).bind q.1 q.2).find? y := by
    simp only [find?_bind]
    by_cases hp : y = p.1
    · have hq : y ≠ q.1 := fun hq => h (hp.symm.trans hq)
      rw [if_pos hp, if_neg hq, if_pos hp]
    · rw [if_neg hp, if_neg hp]
  rw [find?_append, find?_append]
  exact congrArg _ hbind

end Env

/-- Only the free variables of an expression matter.  In environments that agree on them it has the same outcome, which
is its type or the first violation with its place.  So a binding may be left out that is not used, or that is behind a
newer one of its name, and bindings of different variables may be exchanged.  What is bound around one part of an
expression is not seen in another one, and what is refined for one part is not seen after it. -/
theorem Expr.typeOf_of_free (cx : Context) (e : Expr) :
    (∀ env env' : Env, (∀ x, e.mentions x = true → env.find? x = env'.find? x) →
      e.typeOf cx env = e.typeOf cx env') ∧
    (∀ newer older x t, (e.mentions x = true → x ∈ newer.map Prod.fst) →
      e.typeOf cx ⟨newer ++ (x, t) :: older⟩ = e.typeOf cx ⟨newer ++ older⟩) ∧
    (∀ newer older (p q : Name × Ty), p.1 ≠ q.1 →
      e.typeOf cx ⟨newer ++ p :: q :: older⟩ = e.typeOf cx ⟨newer ++ q :: p :: older⟩) ∧
    ∀ scope env s q, Calls cx ⟨scope, env, e, s⟩ q → ∃ names, (names, q.expr) ∈ e.term.boundParts ∧
      ∀ x ∉ names ++ e.term.refined, q.env.find? x = env.find? x := by
  have hagree : ∀ env env' : Env, (∀ x, e.mentions x = true → env.find? x = env'.find? x) →
      e.typeOf cx env = e.typeOf cx env' := fun _ _ => typeIn_eq_of_agree []
  refine ⟨hagree, ?_, ?_, ?_⟩
  · intro newer older x t hx
    refine hagree _ _ fun y hy => Env.find?_insert newer older x t ?_
    rintro rfl
    exact hx hy
  · intro newer older p q hpq
    exact hagree _ _ fun y _ => Env.find?_swap newer older hpq y
  · intro scope env s q hq
    exact hq.exists_boundPart

/-- `x ? x : for (const x of xs) { x } 1` -/
private def reuse : Expr :=
  .mk ⟨0, 9⟩ (.cond (.mk ⟨0, 1⟩ (.var "x")) (.mk ⟨1, 2⟩ (.var "x"))
    (.mk ⟨2, 9⟩ (.forItem (.mk ⟨2, 3⟩ (.var "xs")) "x" (.mk ⟨4, 5⟩ (.var "x")) (.mk ⟨6, 7⟩ (.lit .number)))))

private def reuseEnv : Env :=
  ⟨[("x", .option .number), ("xs", .array .number)]⟩

/-- The type is the same with a variable that is not used, with the variables in the other order and with an older
variable of the same name.  The branch in which `x` is a number sees `xs` as it was. -/
theorem typeOf_of_free_reuse :
    (reuse.typeOf {} reuseEnv).run.run {} = (.ok .number, {}) ∧
    (reuse.typeOf {} ⟨[("y", .string), ("x", .option .number), ("xs", .array .number)]⟩).run.run {} =
      (.ok .number, {}) ∧
    (reuse.typeOf {} ⟨[("xs", .array .number), ("x", .option .number)]⟩).run.run {} = (.ok .number, {}) ∧
    (reuse.typeOf {} ⟨[("x", .option .number), ("x", .string), ("xs", .array .number)]⟩).run.run {} =
      (.ok .number, {}) ∧
    (reuse.typeOf {} (reuseEnv.bind "x" (.option .number))).run.run {} = (.ok .number, {}) ∧
    ∃ q, Calls {} ⟨[], reuseEnv, reuse, {}⟩ q ∧ q.env.find? "x" = some .number ∧
      q.env.find? "xs" = some (.array .number) := by
  have hreuse : (reuse.typeOf {} reuseEnv).run.run {} = (.ok .number, {}) := by cbv
  obtain ⟨hagree, hinsert, hswap, hcalls⟩ := Expr.typeOf_of_free {} reuse
  have hunused : reuse.typeOf {} ⟨("y", .string) :: reuseEnv.bindings⟩ = reuse.typeOf {} reuseEnv :=
    hinsert [] _ "y" .string (by decide)
  have hother : reuse.typeOf {} ⟨[("xs", .array .number), ("x", .option .number)]⟩ = reuse.typeOf {} reuseEnv :=
    hswap [] [] _ _ (by decide)
  have hhidden : reuse.typeOf {} ⟨[("x", .option .number), ("x", .string), ("xs", .array .number)]⟩ =
      reuse.typeOf {} reuseEnv :=
    hinsert [("x", .option .number)] _ "x" .string (by decide)
  have hagain : reuse.typeOf {} (reuseEnv.bind "x" (.option .number)) = reuse.typeOf {} reuseEnv := by
    refine hagree _ _ fun x _ => ?_
    by_cases hx : x = "x"
    · rw [hx]
      rfl
    · exact Env.find?_bind_of_ne _ _ hx
  have hrefine : (reuseEnv.refine? (.mk ⟨0, 1⟩ (.var "x"))).run.run {} =
      (.ok (some (reuseEnv.bind "x" .number, reuseEnv)), {}) := by cbv
  have hyes : Calls {} ⟨[], reuseEnv, reuse, {}⟩ ⟨[], reuseEnv.bind "x" .number, .mk ⟨1, 2⟩ (.var "x"), {}⟩ :=
    (Calls.cond_iff hrefine).2 (Or.inl rfl)
  obtain ⟨names, hpart, hfind⟩ := hcalls _ _ _ _ hyes
  have hplain : ∀ p ∈ reuse.term.boundParts, p.1 = [] := by decide
  have hnames : names = [] := hplain _ hpart
  refine ⟨hreuse, hunused ▸ hreuse, hother ▸ hreuse, hhidden ▸ hreuse, hagain ▸ hreuse, _, hyes, rfl, ?_⟩
  exact hfind "xs" (hnames ▸ by decide)

end MuTypes
