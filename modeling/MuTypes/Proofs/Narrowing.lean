import MuTypes.Proofs.Calls

/-!
# Tests of the tag narrow a variable exactly

A conditional on `x.tag === "l"` or `x.tag !== "l"` has one branch for the variant with the label and one for the
others.  Here such conditionals are nested, each in either branch of the one before (`TagTest.nest`), and `LeadsAll`
follows them to what stands innermost.  The type that the variable has at first is unrolled by the first test, and from
then on it is a union (`TagTest.leads_iff`).

So the variable keeps the variants that all tests on the way admit (`LeadsAll.narrowed`), and a test for any other label
is refused (`LeadsAll.refused`).  Of a union, all properties can be read when it has one variant, and otherwise only the
tag (`Ty.property_union_of_singleton`, `Ty.property_union_of_length_ne`).  `TagTest.narrows_exactly` puts this together.
-/

namespace MuTypes

open NameSupply

/-! ### Nested tests -/

/-- A conditional on the tag of a variable, with one of its branches taken. -/
structure TagTest where
  op : Comparison
  label : Name
  /-- The branch taken is that for a test that holds. -/
  taken : Bool
  /-- The branch that is not taken. -/
  other : Expr
  /-- The place of the test, and those of its parts and of the conditional. -/
  span : Span
  operandSpan : Span
  varSpan : Span
  labelSpan : Span
  condSpan : Span

namespace TagTest

/-- `x.tag === "label"` or `x.tag !== "label"` -/
def test (t : TagTest) (x : Name) : Expr :=
  .mk t.span (.compare t.op (.mk t.operandSpan (.property (.mk t.varSpan (.var x)) "tag"))
    (.mk t.labelSpan (.lit (.string t.label))))

/-- The conditional with an expression in the branch taken. -/
def around (x : Name) (t : TagTest) (inner : Expr) : Expr :=
  .mk t.condSpan (if t.taken then .cond (t.test x) inner t.other else .cond (t.test x) t.other inner)

/-- Conditionals nested in each other, with an expression in the innermost branch taken. -/
def nest (x : Name) (ts : List TagTest) (inner : Expr) : Expr :=
  ts.foldr (around x) inner

/-- May the variable have the label when the test has the outcome? -/
def allows (t : TagTest) (outcome : Bool) (l : Name) : Bool :=
  (l = t.label) == ((t.op = .same) == outcome)

/-- May the variable have the label in the branch taken? -/
def admits (t : TagTest) (l : Name) : Bool :=
  t.allows t.taken l

end TagTest

/-- The variants that all the tests admit, in the order of the union. -/
def remaining (vs : Variants) (ts : List TagTest) : Variants :=
  vs.filter fun v => ts.all (·.admits v.1)

/-! ### One test -/

section Refine

variable {env : Env} {x : Name} {bound : Ty} {vs : Variants} {s s₁ : NameSupply}

theorem Env.run_split? (hx : env.find? x = some bound) (hvs : bound.unroll.run s = (some (.union vs), s₁))
    (label : Name) (span : Span) :
    (env.split? x label span).run.run s =
      if label ∈ vs.map Prod.fst then
        (.ok (some (env.bind x (.union (vs.filter (·.1 = label))), env.bind x (.union (vs.filter (·.1 ≠ label))))), s₁)
      else (.error (.rule ⟨.unknownVariant label, span⟩), s₁) := by
  rw [Env.split?, hx]
  dsimp only
  rw [run_bind_of_ok (unrolled_eq_ok_iff.2 hvs)]
  dsimp only
  rw [List.partition_eq_filter_filter]
  dsimp only
  have hempty : (vs.filter (·.1 = label)).isEmpty = true ↔ label ∉ vs.map Prod.fst := by
    rw [List.isEmpty_iff, List.filter_eq_nil_iff, List.mem_map, not_exists]
    exact forall_congr' fun v => by simp
  have hothers : vs.filter (not ∘ fun v => decide (v.1 = label)) = vs.filter (·.1 ≠ label) :=
    List.filter_congr fun v _ => by simp
  rw [hothers]
  by_cases hlabel : label ∈ vs.map Prod.fst
  · rw [if_pos hlabel, if_neg (mt hempty.1 (not_not.2 hlabel))]
    rfl
  · rw [if_neg hlabel, if_pos (hempty.2 hlabel)]
    rfl

theorem TagTest.refine?_eq (t : TagTest) : env.refine? (t.test x) =
    env.split? x t.label t.span >>= fun o => pure (if t.op = .same then o else o.map Prod.swap) := by
  cases hop : t.op with
  | same =>
    rw [test, hop]
    exact (bind_pure _).symm
  | different =>
    rw [test, hop]
    rfl

/-- A test splits the variants into those that it allows when it holds and those when it does not. -/
theorem TagTest.run_refine? (hx : env.find? x = some bound) (hvs : bound.unroll.run s = (some (.union vs), s₁))
    {t : TagTest} (hlabel : t.label ∈ vs.map Prod.fst) :
    (env.refine? (t.test x)).run.run s =
      (.ok (some (env.bind x (.union (vs.filter fun v => t.allows true v.1)),
        env.bind x (.union (vs.filter fun v => t.allows false v.1)))), s₁) := by
  have hsplit := Env.run_split? hx hvs t.label t.span
  rw [if_pos hlabel] at hsplit
  rw [refine?_eq, run_bind_of_ok hsplit]
  cases hop : t.op <;> simp [allows, hop] <;> rfl

/-- A test for a label that is not there is refused. -/
theorem TagTest.refine?_refused (hx : env.find? x = some bound) (hvs : bound.unroll.run s = (some (.union vs), s₁))
    {t : TagTest} (hlabel : t.label ∉ vs.map Prod.fst) :
    ((env.refine? (t.test x)).run.run s).1 = .error (.rule ⟨.unknownVariant t.label, t.span⟩) := by
  have hsplit := Env.run_split? hx hvs t.label t.span
  rw [if_neg hlabel] at hsplit
  rw [refine?_eq]
  exact run_bind_of_error (congrArg Prod.fst hsplit) _

end Refine

/-! ### Along the branches taken -/

/-- Whatever stands in the branch taken, the conditional in the first environment leads to it in the second one. -/
def TagTest.Leads (cx : Context) (scope : Scope) (x : Name) (t : TagTest) (p q : Env × NameSupply) : Prop :=
  ∀ inner, Calls cx ⟨scope, p.1, t.around x inner, p.2⟩ ⟨scope, q.1, inner, q.2⟩

/-- Nested conditionals lead from the first environment to the last one. -/
inductive LeadsAll (cx : Context) (scope : Scope) (x : Name) :
    List TagTest → Env × NameSupply → Env × NameSupply → Prop where
  | nil {p : Env × NameSupply} : LeadsAll cx scope x [] p p
  | cons {t : TagTest} {ts : List TagTest} {p r q : Env × NameSupply} (h : t.Leads cx scope x p r)
    (hs : LeadsAll cx scope x ts r q) : LeadsAll cx scope x (t :: ts) p q

section Steps

variable {cx : Context} {scope : Scope} {env : Env} {x : Name} {bound : Ty} {vs : Variants} {s s₁ : NameSupply}
  {t : TagTest} {ts : List TagTest} {p q : Env × NameSupply}

theorem LeadsAll.calls (h : LeadsAll cx scope x ts p q) (inner : Expr) :
    Relation.ReflTransGen (Calls cx) ⟨scope, p.1, TagTest.nest x ts inner, p.2⟩ ⟨scope, q.1, inner, q.2⟩ := by
  induction h with
  | nil => exact .refl
  | cons h _ ih => exact .head (h _) ih

private theorem not_ne_self (e : Expr) (span : Span) : Expr.mk span (.not e) ≠ e := by
  intro h
  have := congrArg sizeOf h
  simp at this
  omega

/-- A test leads on just when its label is there, and the branch that comes first has a type if it is not taken.  What
is left are the variants that it admits. -/
theorem TagTest.leads_iff (hx : env.find? x = some bound) (hvs : bound.unroll.run s = (some (.union vs), s₁)) :
    t.Leads cx scope x (env, s) q ↔ t.label ∈ vs.map Prod.fst ∧
      q.1 = env.bind x (.union (vs.filter fun v => t.admits v.1)) ∧
      if t.taken then q.2 = s₁ else
        ∃ ty, (t.other.typeIn cx scope (env.bind x (.union (vs.filter fun v => t.allows true v.1)))).run.run s₁ =
          (.ok ty, q.2) := by
  by_cases hlabel : t.label ∈ vs.map Prod.fst
  · have hrefine := run_refine? hx hvs hlabel
    have hcond : ∀ yes no c, Calls cx ⟨scope, env, .mk t.condSpan (.cond (t.test x) yes no), s⟩ c ↔ _ :=
      fun yes no c => Calls.cond_iff hrefine
    obtain ⟨env', s'⟩ := q
    rw [and_iff_right hlabel]
    cases htaken : t.taken with
    | true =>
      simp only [Leads, around, admits, htaken, if_true, hcond, Call.mk.injEq, true_and]
      constructor
      · intro h
        -- with something else in the branch taken, the call is not the one for the other branch
        obtain h | ⟨_, _, -, -, he, -⟩ := h (.mk t.span (.not t.other))
        · exact h
        · exact absurd he (not_ne_self _ _)
      · exact fun h _ => .inl h
    | false =>
      simp only [Leads, around, admits, htaken, Bool.false_eq_true, if_false, hcond, Call.mk.injEq, true_and]
      constructor
      · intro h
        obtain ⟨-, he, -⟩ | ⟨ty, s₂, hty, henv, rfl⟩ := h (.mk t.span (.not t.other))
        · exact absurd he (not_ne_self _ _)
        · exact ⟨henv, ty, hty⟩
      · rintro ⟨henv, ty, hty⟩ _
        exact .inr ⟨ty, s', hty, henv, rfl⟩
  · refine iff_of_false (fun h => ?_) fun h => hlabel h.1
    have hrefused := refine?_refused hx hvs hlabel
    have hcalls := h t.other
    unfold around at hcalls
    split at hcalls <;> exact Calls.not_cond hrefused hcalls

/-- What is left of a union after some tests is what the last ones leave of what the first one leaves. -/
theorem remaining_cons (vs : Variants) (t : TagTest) (ts : List TagTest) :
    remaining vs (t :: ts) = remaining (vs.filter fun v => t.admits v.1) ts := by
  rw [remaining, remaining, List.filter_filter]
  exact List.filter_congr fun v _ => by rw [List.all_cons, Bool.and_comm]

@[simp] theorem remaining_nil (vs : Variants) : remaining vs [] = vs :=
  List.filter_true vs

/-- The variable has a type that unrolls to the union. -/
def Env.Unrolls (env : Env) (x : Name) (s : NameSupply) (vs : Variants) : Prop :=
  ∃ bound s₁, env.find? x = some bound ∧ bound.unroll.run s = (some (.union vs), s₁)

theorem Env.Unrolls.of_union (h : env.find? x = some (.union vs)) (s : NameSupply) : env.Unrolls x s vs :=
  ⟨_, s, h, rfl⟩

/-- After one test or more, the variable has the variants that all of them admit, and no other variable has changed. -/
theorem LeadsAll.narrowed (h : LeadsAll cx scope x ts p q) (hx : p.1.Unrolls x p.2 vs) :
    q.1.Unrolls x q.2 (remaining vs ts) ∧ (ts ≠ [] → q.1.find? x = some (.union (remaining vs ts))) ∧
      ∀ y, y ≠ x → q.1.find? y = p.1.find? y := by
  induction h generalizing vs with
  | nil => exact ⟨by rwa [remaining_nil], fun h => absurd rfl h, fun _ _ => rfl⟩
  | @cons t ts p r q h hs ih =>
    obtain ⟨bound, s₁, hbound, hunroll⟩ := hx
    obtain ⟨-, henv, -⟩ := (TagTest.leads_iff hbound hunroll).1 h
    have hfirst : r.1.find? x = some (.union (vs.filter fun v => t.admits v.1)) := by
      rw [henv, Env.find?_bind_self]
    obtain ⟨hunrolls, hlast, hothers⟩ := ih (.of_union hfirst r.2)
    rw [remaining_cons]
    refine ⟨hunrolls, fun _ => ?_, fun y hy => ?_⟩
    · by_cases hts : ts = []
      · subst hts
        cases hs
        rwa [remaining_nil]
      · exact hlast hts
    · rw [hothers y hy, henv, Env.find?_bind_of_ne _ _ hy]

/-- A test for a label that is not left is refused, and with it all conditionals around it. -/
theorem LeadsAll.refused (h : LeadsAll cx scope x ts p q) (hx : p.1.Unrolls x p.2 vs)
    (ht : t.label ∉ (remaining vs ts).map Prod.fst) (inner : Expr) :
    (Call.outcome (Expr.typeIn cx) ⟨scope, p.1, TagTest.nest x ts (t.around x inner), p.2⟩).1 =
      .error (.rule ⟨.unknownVariant t.label, t.span⟩) := by
  obtain ⟨bound, s₁, hbound, hunroll⟩ := (h.narrowed hx).1
  have hrefused := TagTest.refine?_refused hbound hunroll ht
  refine Call.error_of_calls (h.calls _) ?_
  unfold TagTest.around
  split <;> exact Call.cond_eq_error hrefused

/-- A test for a label that is left leads on, to its first branch at once and to its second one when the first one has a
type. -/
theorem TagTest.exists_leads (hx : p.1.Unrolls x p.2 vs) (ht : t.label ∈ vs.map Prod.fst) :
    (t.taken = true → ∃ q, t.Leads cx scope x p q) ∧
      (t.taken = false → ∀ r ty s', Leads cx scope x { t with taken := true } p r →
        (t.other.typeIn cx scope r.1).run.run r.2 = (.ok ty, s') → ∃ env', t.Leads cx scope x p (env', s')) := by
  obtain ⟨bound, s₁, hbound, hunroll⟩ := hx
  refine ⟨fun htaken => ?_, fun htaken r ty s' hfirst hty => ?_⟩
  · refine ⟨(_, s₁), (leads_iff hbound hunroll).2 ⟨ht, rfl, ?_⟩⟩
    rw [if_pos htaken]
  · obtain ⟨-, henv, hs⟩ := (leads_iff hbound hunroll).1 hfirst
    rw [if_pos rfl] at hs
    rw [henv, hs] at hty
    refine ⟨_, (leads_iff hbound hunroll).2 ⟨ht, rfl, ?_⟩⟩
    rw [htaken]
    exact ⟨ty, hty⟩

end Steps

/-! ### What can be read -/

/-- The property of a variable. -/
def propertyOf (x name : Name) (varSpan span : Span) : Expr :=
  .mk span (.property (.mk varSpan (.var x)) name)

theorem Env.typeIn_propertyOf {env : Env} {x : Name} {u : Ty} (hx : env.find? x = some u) (cx : Context) (scope : Scope)
    (name : Name) (varSpan span : Span) :
    (propertyOf x name varSpan span).typeIn cx scope env = u.property name varSpan span := by
  rw [propertyOf, Expr.typeIn_mk, Checker.rule, Expr.typeIn_mk, Checker.rule, hx]
  exact pure_bind ..

/-- The tag of a tagged value is a text. -/
theorem Ty.property_union_tag (vs : Variants) (baseSpan span : Span) :
    (Ty.union vs).property "tag" baseSpan span = pure .string :=
  rfl

section Union

variable {vs : Variants} {name : Name} (hname : name ≠ "tag") (baseSpan span : Span)
include hname

/-- Of a tagged value with one variant, the properties can be read. -/
theorem Ty.property_union_of_singleton (l : Name) (row : Row) :
    (Ty.union [(l, row)]).property name baseSpan span = expectProperty row name span :=
  if_neg hname

/-- Of a tagged value without or with several variants, only the tag can be read. -/
theorem Ty.property_union_of_length_ne (hvs : vs.length ≠ 1) :
    (Ty.union vs).property name baseSpan span = CheckM.violation (.unknownProperty name) span := by
  obtain _ | ⟨v, _ | ⟨w, ws⟩⟩ := vs
  · exact if_neg hname
  · exact absurd rfl hvs
  · exact if_neg hname

end Union

/-! ### Results -/

section Results

variable {cx : Context} {scope : Scope} {env : Env} {x : Name} {bound : Ty} {vs : Variants} {s s₁ : NameSupply}
  {ts : List TagTest} {q : Env × NameSupply}

/-- Conditionals on the tag of a variable are nested in each other, each in one of the branches of the one around it.
The innermost branch is checked where the variable has just those variants that all tests admit on the way, in the order
of the union, and where all other variables are as they were.  So the tag can be read there, and other properties just
when one variant is left.  One test more is refused when its label is not left, and goes on otherwise. -/
theorem TagTest.narrows_exactly (hx : env.find? x = some bound) (hvs : bound.unroll.run s = (some (.union vs), s₁))
    (h : LeadsAll cx scope x ts (env, s) q) :
    (∀ inner, Relation.ReflTransGen (Calls cx) ⟨scope, env, nest x ts inner, s⟩ ⟨scope, q.1, inner, q.2⟩) ∧
    (∀ y, y ≠ x → q.1.find? y = env.find? y) ∧
    (ts ≠ [] → q.1.find? x = some (.union (remaining vs ts)) ∧
      ∀ varSpan span s',
        ((propertyOf x "tag" varSpan span).typeIn cx scope q.1).run.run s' = (.ok .string, s') ∧
        ∀ name, name ≠ "tag" →
          (∀ l row, remaining vs ts = [(l, row)] → ∀ ty, row.lookup name = some ty →
            ((propertyOf x name varSpan span).typeIn cx scope q.1).run.run s' = (.ok ty, s')) ∧
          ((remaining vs ts).length ≠ 1 → ((propertyOf x name varSpan span).typeIn cx scope q.1).run.run s' =
            (.error (.rule ⟨.unknownProperty name, span⟩), s'))) ∧
    ∀ t : TagTest,
      (t.label ∉ (remaining vs ts).map Prod.fst → ∀ post inner,
        (Call.outcome (Expr.typeIn cx) ⟨scope, env, nest x (ts ++ t :: post) inner, s⟩).1 =
          .error (.rule ⟨.unknownVariant t.label, t.span⟩)) ∧
      (t.label ∈ (remaining vs ts).map Prod.fst →
        (t.taken = true → ∃ r, t.Leads cx scope x q r) ∧
        (t.taken = false → ∀ r ty s', Leads cx scope x { t with taken := true } q r →
          (t.other.typeIn cx scope r.1).run.run r.2 = (.ok ty, s') → ∃ env', t.Leads cx scope x q (env', s'))) := by
  have hunrolls : env.Unrolls x s vs := ⟨bound, s₁, hx, hvs⟩
  obtain ⟨hlast, hfind, hothers⟩ := h.narrowed hunrolls
  refine ⟨h.calls, hothers, fun hts => ⟨hfind hts, fun varSpan span s' => ⟨?_, fun name hname => ⟨?_, ?_⟩⟩⟩,
    fun t => ⟨fun ht post inner => ?_, TagTest.exists_leads hlast⟩⟩
  · rw [Env.typeIn_propertyOf (hfind hts), Ty.property_union_tag]
    rfl
  · intro l row hone ty hty
    rw [Env.typeIn_propertyOf (hfind hts), hone, Ty.property_union_of_singleton hname, expectProperty, hty]
    rfl
  · intro hlength
    rw [Env.typeIn_propertyOf (hfind hts), Ty.property_union_of_length_ne hname _ _ hlength]
    rfl
  · rw [nest, List.foldr_append]
    exact h.refused hunrolls ht (nest x post inner)

/-- `mu T. | { tag: "leaf"; v: number } | { tag: "node"; l: T; r: T } | { tag: "tip"; w: string }` -/
private def plant : Ty :=
  .mu "T" (.union [("leaf", [("v", .number)]), ("node", [("l", .var "T"), ("r", .var "T")]), ("tip", [("w", .string)])])

/-- A test whose other branch is `true`. -/
private def tagTest (op : Comparison) (label : Name) (taken : Bool) : TagTest :=
  ⟨op, label, taken, .mk ⟨1, 2⟩ (.lit (.boolean true)), ⟨2, 3⟩, ⟨3, 4⟩, ⟨4, 5⟩, ⟨5, 6⟩, ⟨6, 7⟩⟩

private def plantEnv : Env :=
  Env.empty.bind "t" plant

/-- What is not a leaf and not a node is a tip, so that `w` can be read.  One more test for leaves is refused. -/
theorem narrows_exactly_plant : ∃ q,
    LeadsAll {} [] "t" [tagTest .different "leaf" true, tagTest .same "node" false] (plantEnv, {}) q ∧
      q.1.find? "t" = some (.union [("tip", [("w", .string)])]) ∧
      ((propertyOf "t" "w" ⟨7, 8⟩ ⟨8, 9⟩).typeIn {} [] q.1).run.run {} = (.ok .string, {}) ∧
      ∀ inner, (Call.outcome (Expr.typeIn {}) ⟨[], plantEnv, TagTest.nest "t"
        [tagTest .different "leaf" true, tagTest .same "node" false, tagTest .same "leaf" true] inner, {}⟩).1 =
          .error (.rule ⟨.unknownVariant "leaf", ⟨2, 3⟩⟩) := by
  have hunroll : plant.unroll.run {} = (some (.union [("leaf", [("v", .number)]),
      ("node", [("l", plant), ("r", plant)]), ("tip", [("w", .string)])]), {}) := by cbv
  have hfirst : TagTest.Leads {} [] "t" (tagTest .different "leaf" true) (plantEnv, {})
      (plantEnv.bind "t" (.union [("node", [("l", plant), ("r", plant)]), ("tip", [("w", .string)])]), {}) :=
    (TagTest.leads_iff rfl hunroll).2 ⟨by decide, rfl, rfl⟩
  have hsecond : TagTest.Leads {} [] "t" (tagTest .same "node" false)
      (plantEnv.bind "t" (.union [("node", [("l", plant), ("r", plant)]), ("tip", [("w", .string)])]), {})
      (_, {}) :=
    (TagTest.leads_iff rfl rfl).2 ⟨by decide, rfl, .boolean, rfl⟩
  obtain ⟨-, -, hlast, hnext⟩ := TagTest.narrows_exactly rfl hunroll (.cons hfirst (.cons hsecond .nil))
  obtain ⟨hfind, hread⟩ := hlast (List.cons_ne_nil _ _)
  refine ⟨_, .cons hfirst (.cons hsecond .nil), hfind, ?_, fun inner => ?_⟩
  · exact ((hread ⟨7, 8⟩ ⟨8, 9⟩ {}).2 "w" (by decide)).1 "tip" [("w", .string)] rfl .string rfl
  · exact (hnext (tagTest .same "leaf" true)).1 (by decide) [] inner

end Results

end MuTypes
