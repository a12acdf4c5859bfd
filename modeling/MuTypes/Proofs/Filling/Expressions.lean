import MuTypes.Proofs.Filling.Agreement
import MuTypes.Proofs.Filling.Scopes

/-!
# Filled expressions

`Expr.fill φ` puts annotations for names in all annotations of an expression, below the type parameters that do not bind
the names.  Scopes and environments in which an expression and the filled one are checked are `Surroundings`.  A test
says the same in both, with one exception: a variable whose type is a type variable may be split once another type is
put for that.  But then the test, which is checked as an expression, is not one of a boolean (`refine?_filled`).
-/

namespace MuTypes

open NameSupply Ty

/-! ### Annotations of expressions -/

namespace Expr

mutual

/-- The expression with annotations put for the names that no binder in it binds. -/
def fill (φ : Fillers) : Expr → Expr
  | .mk span term => .mk span (fillTerm φ term)

/-- `fill` on the form of an expression. -/
def fillTerm (φ : Fillers) : Term → Term
  | .lit v => .lit v
  | .not e => .not (e.fill φ)
  | .compare op l r => .compare op (l.fill φ) (r.fill φ)
  | .cond t y n => .cond (t.fill φ) (y.fill φ) (n.fill φ)
  | .add l r => .add (l.fill φ) (r.fill φ)
  | .var x => .var x
  | .lambda ps r b => .lambda (TyExpr.fillRow φ ps) (r.map (TyExpr.fill φ)) (b.fill φ)
  | .call c es => .call (c.fill φ) (fillArgs φ es)
  | .seq a r => .seq (a.fill φ) (r.fill φ)
  | .bind x v r => .bind x (v.fill φ) (r.fill φ)
  | .assign x v => .assign x (v.fill φ)
  | .forIndex a i b r => .forIndex (a.fill φ) i (b.fill φ) (r.fill φ)
  | .forItem a i b r => .forItem (a.fill φ) i (b.fill φ) (r.fill φ)
  | .emptyArray t => .emptyArray (t.fill φ)
  | .append a i => .append (a.fill φ) (i.fill φ)
  | .emptyMap t => .emptyMap (t.fill φ)
  | .copyMap m => .copyMap (m.fill φ)
  | .insert m k i => .insert (m.fill φ) (k.fill φ) (i.fill φ)
  | .hasKey m k => .hasKey (m.fill φ) (k.fill φ)
  | .index b i => .index (b.fill φ) (i.fill φ)
  | .object is => .object (fillNamed φ is)
  | .property b n => .property (b.fill φ) n
  | .variant l is t => .variant l (fillNamed φ is) (t.fill φ)
  | .widen v t => .widen (v.fill φ) (t.fill φ)
  | .dispatch x cs none => .dispatch x (fillNamed φ cs) none
  | .dispatch x cs (some e) => .dispatch x (fillNamed φ cs) (some (e.fill φ))
  | .function f ps r b k => .function f (TyExpr.fillRow φ ps) (r.fill φ) (b.fill φ) (k.fill φ)
  | .generic ns b => .generic ns (b.fill (φ.hide ns))
  | .instantiate t as => .instantiate (t.fill φ) (TyExpr.fillArgs φ as)

/-- `fill` on arguments. -/
def fillArgs (φ : Fillers) : List Expr → List Expr
  | [] => []
  | e :: es => e.fill φ :: fillArgs φ es

/-- `fill` on named expressions. -/
def fillNamed (φ : Fillers) : List (Name × Expr) → List (Name × Expr)
  | [] => []
  | (n, e) :: es => (n, e.fill φ) :: fillNamed φ es

end

section None

mutual

/-- Where nothing is put, the expression stays as it is. -/
@[simp] theorem fill_none : ∀ e : Expr, e.fill .none = e
  | .mk _ t => by rw [fill, fillTerm_none t]

theorem fillTerm_none : ∀ t : Term, fillTerm .none t = t
  | .lit _ | .var _ => rfl
  | .not e | .copyMap e | .assign _ e | .property e _ => by rw [fillTerm, fill_none e]
  | .compare _ l r | .add l r | .seq l r | .bind _ l r | .append l r | .hasKey l r | .index l r => by
    rw [fillTerm, fill_none l, fill_none r]
  | .cond a b c | .insert a b c | .forIndex a _ b c | .forItem a _ b c => by
    rw [fillTerm, fill_none a, fill_none b, fill_none c]
  | .lambda _ none b => by rw [fillTerm, fill_none b, TyExpr.fillRow_none, Option.map_none]
  | .lambda _ (some r) b => by rw [fillTerm, fill_none b, TyExpr.fillRow_none, Option.map_some, TyExpr.fill_none]
  | .call c es => by rw [fillTerm, fill_none c, fillArgs_none es]
  | .emptyArray _ | .emptyMap _ => by rw [fillTerm, TyExpr.fill_none]
  | .object is => by rw [fillTerm, fillNamed_none is]
  | .variant _ is _ => by rw [fillTerm, fillNamed_none is, TyExpr.fill_none]
  | .widen v _ => by rw [fillTerm, fill_none v, TyExpr.fill_none]
  | .dispatch _ cs none => by rw [fillTerm, fillNamed_none cs]
  | .dispatch _ cs (some e) => by rw [fillTerm, fillNamed_none cs, fill_none e]
  | .function _ _ _ b k => by rw [fillTerm, fill_none b, fill_none k, TyExpr.fillRow_none, TyExpr.fill_none]
  | .generic _ b => by rw [fillTerm, Fillers.none_hide, fill_none b]
  | .instantiate t _ => by rw [fillTerm, fill_none t, TyExpr.fillArgs_none]

theorem fillArgs_none : ∀ es : List Expr, fillArgs .none es = es
  | [] => rfl
  | e :: es => by rw [fillArgs, fill_none e, fillArgs_none es]

theorem fillNamed_none : ∀ es : List (Name × Expr), fillNamed .none es = es
  | [] => rfl
  | (_, e) :: es => by rw [fillNamed, fill_none e, fillNamed_none es]

end

end None

theorem length_fillArgs (φ : Fillers) (es : List Expr) : (fillArgs φ es).length = es.length := by
  induction es with
  | nil => rfl
  | cons e es ih => exact congrArg (· + 1) ih

theorem names_fillNamed (φ : Fillers) (es : List (Name × Expr)) :
    (fillNamed φ es).map Prod.fst = es.map Prod.fst := by
  induction es with
  | nil => rfl
  | cons e es ih => exact congrArg (e.1 :: ·) ih

/-- A test says nothing about annotations, so it says the same when it is filled. -/
theorem evidence?_fill (φ : Fillers) (e : Expr) : (e.fill φ).evidence? = e.evidence? := by
  obtain ⟨span, term⟩ := e
  -- the recognised forms are two or three terms deep, and what is below them does not matter
  cases term with
  | not e =>
    obtain ⟨_, term⟩ := e
    cases term with
    | dispatch _ _ fallback => cases fallback <;> rfl
    | _ => rfl
  | compare op l r =>
    obtain ⟨_, term⟩ := l
    cases term with
    | property base name =>
      obtain ⟨_, term⟩ := base
      obtain ⟨_, term'⟩ := r
      cases term with
      | var x =>
        cases term' with
        | dispatch _ _ fallback => cases fallback <;> rfl
        | _ => rfl
      | dispatch _ _ fallback => cases fallback <;> rfl
      | _ => rfl
    | dispatch _ _ fallback => cases fallback <;> rfl
    | _ => rfl
  | dispatch _ _ fallback => cases fallback <;> rfl
  | _ => rfl

end Expr

/-! ### Environments -/

/-- The types of the variables are filled. -/
def Env.Filled (σ : Name → Nameless Name) (names names' : List Name) (env env' : Env) (s s' : NameSupply) : Prop :=
  FilledRow σ names names' env.bindings env'.bindings s s'

namespace Env.Filled

variable {σ : Name → Nameless Name} {names names' : List Name} {env env' : Env} {t t' : Ty} {row row' : Row}
  {s s' u u' : NameSupply}

theorem mono (h : Env.Filled σ names names' env env' s s') (hs : s ≤ u) (hs' : s' ≤ u') :
    Env.Filled σ names names' env env' u u' :=
  FilledRow.mono h hs hs'

theorem left (h : Env.Filled σ names names' env env' s s') : env.InOrder names s :=
  FilledRow.left h

theorem find? (h : Env.Filled σ names names' env env' s s') (x : Name) :
    Option.Rel (fun t t' => Ty.Filled σ names names' t t' s s') (env.find? x) (env'.find? x) :=
  rel_lookup (fun t t' => Ty.Filled σ names names' t t' s s') h x

theorem bind (h : Env.Filled σ names names' env env' s s') (ht : Ty.Filled σ names names' t t' s s') (x : Name) :
    Env.Filled σ names names' (env.bind x t) (env'.bind x t') s s' :=
  List.Forall₂.cons ⟨rfl, ht⟩ h

theorem bindAll (h : Env.Filled σ names names' env env' s s') (hrow : FilledRow σ names names' row row' s s') :
    Env.Filled σ names names' (env.bindAll row) (env'.bindAll row') s s' := by
  induction hrow generalizing env env' with
  | nil => exact h
  | @cons p p' _ _ hp _ ih =>
    rw [bindAll_cons, bindAll_cons, hp.1]
    exact ih (h.bind hp.2 p.1)

end Env.Filled

/-! ### Tests -/

/-- The variable that the evidence is about. -/
def Evidence.subject : Evidence → Name
  | .defined x _ | .tagged x _ _ => x

/-- The type of the variable is, unrolled, a type variable. -/
def Env.Abstract (env : Env) (x : Name) : Prop :=
  ∃ t y, env.find? x = some t ∧ t.bare.unroll = .free y

namespace NameSupply

section Abstract

variable {names : List Name} {t : Ty} {s : NameSupply} (h : t.InOrder names s)
include h

private theorem unrolled_bare : s.Checks (liftM t.unrolled : CheckM Ty) fun u _ => u.bare = t.bare.unroll :=
  .compare ((h.wellFormed.unrolled_returns h.ahead).ensures.mono fun _ _ _ hu => hu.2.2.2.1) fun f e =>
    ((Ty.unrolled_outcomes t) s).2 f e

variable {y : Name} (hy : t.bare.unroll = .free y)
include hy

private theorem unrolled_abstract : s.Checks (liftM t.unrolled : CheckM Ty) fun u _ => u = .var y :=
  (unrolled_bare h).mono fun _ _ _ hu => bare_eq_free_iff.1 (hu.trans hy)

private theorem expectPrim_abstract (p : Prim) (span : Span) : s.Checks (t.expectPrim p span) fun _ _ => False := by
  refine (unrolled_abstract h hy).bind fun u _ _ hu => ?_
  rw [if_neg (by rw [hu]; nofun)]
  exact .violation _ _

private theorem property_abstract (name : Name) (baseSpan span : Span) :
    s.Checks (t.property name baseSpan span) fun _ _ => False := by
  refine (unrolled_abstract h hy).bind fun u _ _ hu => ?_
  rw [hu]
  exact .violation _ _

end Abstract

variable {names : List Name} {env : Env} {s : NameSupply}

private theorem defined?_abstract (henv : env.InOrder names s) {x : Name} (h : env.Abstract x) :
    s.Checks (env.defined? x) fun o _ => o = none := by
  obtain ⟨t, y, ht, hy⟩ := h
  rw [Env.defined?, ht]
  refine (unrolled_abstract (henv.find? ht) hy).bind fun u _ _ hu => ?_
  rw [hu]
  exact .pure rfl

private theorem split?_abstract (henv : env.InOrder names s) {x : Name} (h : env.Abstract x) (label : Name)
    (span : Span) : s.Checks (env.split? x label span) fun o _ => o = none := by
  obtain ⟨t, y, ht, hy⟩ := h
  rw [Env.split?, ht]
  refine (unrolled_abstract (henv.find? ht) hy).bind fun u _ _ hu => ?_
  rw [hu]
  exact .pure rfl

variable {test : Expr} {ev : Evidence} (hev : test.evidence? = some ev) (h : env.Abstract ev.subject)
include hev h

private theorem refine?_abstract (henv : env.InOrder names s) : s.Checks (env.refine? test) fun o _ => o = none := by
  rw [Env.refine?, hev]
  have hmap : ∀ {α β : Type} {f : α → β} {o : Option α} {t : NameSupply}, o = none →
      t.Checks (pure (o.map f)) fun o _ => o = none := fun ho => .pure (by rw [ho, Option.map_none])
  match ev with
  | .defined x true | .defined x false => exact (defined?_abstract henv h).bind fun _ _ _ => hmap
  | .tagged x label true => exact split?_abstract henv h label test.span
  | .tagged x label false => exact (split?_abstract henv h label test.span).bind fun _ _ _ => hmap

/-- A test of a variable whose type is a type variable is not a boolean. -/
private theorem test_abstract (henv : env.InOrder names s) (cx : Context) (scope : Scope) (span : Span) :
    s.Checks (test.typeIn cx scope env >>= fun t => t.expectPrim .boolean span) fun _ _ => False := by
  obtain ⟨t, y, ht, hy⟩ := h
  have hin := henv.find? ht
  have hvar : ∀ x span, env.find? x = some t → (Expr.mk span (.var x)).typeIn cx scope env = pure t :=
    fun x span hx => by rw [Expr.typeIn_mk, Checker.rule, hx]
  unfold Expr.evidence? at hev
  split at hev
  · cases hev
    dsimp only [Evidence.subject] at ht
    rw [hvar _ _ ht, pure_bind]
    exact expectPrim_abstract hin hy _ _
  · cases hev
    dsimp only [Evidence.subject] at ht
    rw [Expr.typeIn_mk, Checker.rule, hvar _ _ ht, pure_bind, bind_assoc]
    exact (expectPrim_abstract hin hy _ _).bind fun _ _ _ => False.elim
  · split at hev
    · cases hev
      dsimp only [Evidence.subject] at ht
      rw [Expr.typeIn_mk, Checker.rule, Expr.typeIn_mk, Checker.rule, hvar _ _ ht, pure_bind, bind_assoc]
      exact (property_abstract hin hy _ _ _).bind fun _ _ _ => False.elim
    · cases hev
  · cases hev

/-- Nothing is known of a variable whose type is a type variable, and a test of it has no type. -/
theorem cond_abstract (henv : env.InOrder names s) (cx : Context) (scope : Scope) (yes no : Expr) (span : Span) :
    s.Checks ((Expr.mk span (.cond test yes no)).typeIn cx scope env) fun _ _ => False := by
  rw [Expr.typeIn_mk, Checker.rule]
  refine (refine?_abstract hev h henv).bind fun o s₁ h₁ ho => ?_
  subst ho
  dsimp only
  rw [← bind_assoc]
  exact (test_abstract hev h (henv.mono h₁) cx scope _).bind fun _ _ _ => False.elim

end NameSupply

section Tests

variable {σ : Name → Nameless Name} {names names' : List Name} {env env' : Env} {s s' : NameSupply}
  (hσ : Filling σ names names') (h : Env.Filled σ names names' env env' s s')
include hσ

private theorem unrolled_subject {t t' : Ty} {x : Name} (hx : env.find? x = some t) (hn : ¬ env.Abstract x)
    (ht : Ty.Filled σ names names' t t' s s') :
    Mirrors s s' (liftM t.unrolled) (liftM t'.unrolled) fun u u' v v' =>
      Ty.Filled σ names names' u u' v v' ∧ ∀ y, u ≠ .var y := by
  refine ((unrolled_filled hσ ht).and_checks (unrolled_bare ht.left) (unrolled_bare ht.right)).mono
    fun u u' v v' hu => ?_
  obtain ⟨hfilled, hbare, -⟩ := hu
  have hvar : ∀ y, u ≠ .var y := fun y hy => hn ⟨t, y, hx, hbare.symm.trans (congrArg bare hy)⟩
  exact ⟨hfilled hvar, hvar⟩

include h

private theorem defined?_filled {x : Name} (hn : ¬ env.Abstract x) :
    Mirrors s s' (env.defined? x) (env'.defined? x) fun o o' u u' =>
      Option.Rel (fun there there' => Env.Filled σ names names' there there' u u') o o' := by
  unfold Env.defined?
  have hfind := h.find? x
  generalize hx : env.find? x = o, env'.find? x = o' at hfind ⊢
  cases hfind with
  | none => exact .pure .none
  | some ht =>
    refine (unrolled_subject hσ hx hn ht).bind fun u u' v v' hs hs' hu => ?_
    obtain ⟨hu, hvar⟩ := hu
    split
    · obtain ⟨e', rfl, he⟩ := hu.container
      exact .pure (.some ((h.mono hs hs').bind he x))
    · rename_i hoption
      split
      · obtain ⟨e, rfl⟩ := hu.of_container hvar
        exact absurd rfl (hoption e)
      · exact .pure .none

private theorem split?_filled {x : Name} (hn : ¬ env.Abstract x) (label : Name) {span span' : Span} :
    Mirrors s s' (env.split? x label span) (env'.split? x label span') fun o o' u u' =>
      Option.Rel (fun q q' => Env.Filled σ names names' q.1 q'.1 u u' ∧ Env.Filled σ names names' q.2 q'.2 u u')
        o o' := by
  unfold Env.split?
  have hfind := h.find? x
  generalize hx : env.find? x = o, env'.find? x = o' at hfind ⊢
  cases hfind with
  | none => exact .pure .none
  | some ht =>
    refine (unrolled_subject hσ hx hn ht).bind fun u u' v v' hs hs' hu => ?_
    obtain ⟨hu, hvar⟩ := hu
    dsimp only
    split
    · rename_i vs
      obtain ⟨vs', rfl, -⟩ := hu.union
      have hhit := hu.filter fun n => n = label
      have hothers := hu.filter fun n => !decide (n = label)
      dsimp only
      rw [List.partition_eq_filter_filter, List.partition_eq_filter_filter]
      rw [hhit.isEmpty_eq]
      split
      · exact .violation _ _ _
      · exact .pure (.some ⟨(h.mono hs hs').bind hhit x, (h.mono hs hs').bind hothers x⟩)
    · rename_i hunion
      split
      · obtain ⟨vs, rfl⟩ := hu.of_union hvar
        exact absurd rfl (hunion vs)
      · exact .pure .none

/-- A test says the same in both environments, except for a variable whose type is a type variable. -/
theorem refine?_filled (φ : Fillers) {test : Expr}
    (hn : ∀ ev, test.evidence? = some ev → ¬ env.Abstract ev.subject) :
    Mirrors s s' (env.refine? test) (env'.refine? (test.fill φ)) fun o o' u u' =>
      Option.Rel (fun q q' => Env.Filled σ names names' q.1 q'.1 u u' ∧ Env.Filled σ names names' q.2 q'.2 u u')
        o o' := by
  rw [Env.refine?, Env.refine?, Expr.evidence?_fill]
  cases hev : test.evidence? with
  | none => exact .pure .none
  | some ev =>
    have hn := hn ev hev
    match ev with
    | .defined x true =>
      refine (defined?_filled hσ h hn).bind fun o o' u u' hs hs' ho => .pure ?_
      cases ho with
      | none => exact .none
      | some hthere => exact .some ⟨hthere, h.mono hs hs'⟩
    | .defined x false =>
      refine (defined?_filled hσ h hn).bind fun o o' u u' hs hs' ho => .pure ?_
      cases ho with
      | none => exact .none
      | some hthere => exact .some ⟨h.mono hs hs', hthere⟩
    | .tagged x label true => exact split?_filled hσ h hn label
    | .tagged x label false =>
      refine (split?_filled hσ h hn label).bind fun o o' u u' hs hs' ho => .pure ?_
      cases ho with
      | none => exact .none
      | some hq => exact .some ⟨hq.2, hq.1⟩

end Tests

end MuTypes
