import Mathlib.Data.Finset.Card
import Mathlib.Data.Finset.SDiff
import Mathlib.Data.Prod.Lex
import Mathlib.Logic.Relation
import Mathlib.Order.WellFounded
import MuTypes.Proofs.Supply
import MuTypes.TyExpr.Resolution

/-!
# Resolving annotations ends

Resolving leaves an annotation at every reference to an alias and goes on in the body of the alias, which may lead back
to where it came from.  It ends all the same.  A place that it visits is a `Spot`, and `Spot.Enters` says from which
place it goes on to which others: to the parts of an annotation, and to the body of an alias that is not being
expanded.  On the way the set of alias names that are not being expanded gets smaller, or it stays and the annotation
gets smaller (`Spot.Enters.decreases`).  So no place leads to others for ever, and along every way the aliases that are
being expanded are different (`Spot.Enters.enclosed`).

What resolving gives at a place is given by one rule, `Resolver.rule`, from what it gives at the places that it enters
from there, with nothing that bounds the depth.  Because all ways end this rule has exactly one solution, which is what
resolving gives with any depth that admits as many nested expansions as there are names of aliases.
-/

namespace MuTypes

open NameSupply Relation

/-! ### Places -/

/-- A place that resolving visits: the aliases whose expansions enclose it, what is visible there, and the annotation
that stands there. -/
structure Spot where
  active : List Name
  scope : Scope
  expr : TyExpr

/-- The names of the aliases. -/
def Aliases.names (aliases : Aliases) : Finset Name :=
  (aliases.map (·.name)).toFinset

theorem Aliases.card_names_le (aliases : Aliases) : aliases.names.card ≤ aliases.length :=
  (List.toFinset_card_le _).trans (Nat.le_of_eq (List.length_map _))

/-- The direct parts with what is visible there, in order. -/
def TyForm.parts (scope : Scope) : TyForm → List (Scope × TyExpr)
  | .prim _ | .ref _ => []
  | .container _ e => [(scope, e)]
  | .func ps r => (ps.map fun p => (scope, p.2)) ++ [(scope, r)]
  | .object ps => ps.map fun p => (scope, p.2)
  | .union vs => vs.flatMap fun v => v.2.map fun p => (scope, p.2)
  | .mu n b => [(scope.enterMu n, b)]
  | .generic ns b => [(scope.enterParams ns ns, b)]
  | .app _ es => es.map fun e => (scope, e)

namespace TyForm

variable {scope : Scope}

theorem mem_parts_param {ps : List (Name × TyExpr)} {p : Name × TyExpr} (hp : p ∈ ps) (r : TyExpr) :
    (scope, p.2) ∈ (func ps r).parts scope :=
  List.mem_append_left _ (List.mem_map.2 ⟨p, hp, rfl⟩)

theorem mem_parts_result (ps : List (Name × TyExpr)) (r : TyExpr) : (scope, r) ∈ (func ps r).parts scope :=
  List.mem_append_right _ (List.mem_singleton.2 rfl)

theorem mem_parts_property {ps : List (Name × TyExpr)} {p : Name × TyExpr} (hp : p ∈ ps) :
    (scope, p.2) ∈ (object ps).parts scope :=
  List.mem_map.2 ⟨p, hp, rfl⟩

theorem mem_parts_variant {vs : List (Name × List (Name × TyExpr))} {v : Name × List (Name × TyExpr)} (hv : v ∈ vs)
    {p : Name × TyExpr} (hp : p ∈ v.2) : (scope, p.2) ∈ (union vs).parts scope :=
  List.mem_flatMap.2 ⟨v, hv, List.mem_map.2 ⟨p, hp, rfl⟩⟩

theorem mem_parts_arg {es : List TyExpr} {e : TyExpr} (he : e ∈ es) (n : Name) :
    (scope, e) ∈ (app n es).parts scope :=
  List.mem_map.2 ⟨e, he, rfl⟩

end TyForm

/-- What stands somewhere refers to an alias that is to be expanded there: nothing hides its name, it is not being
expanded already, and it gets as many arguments as it has parameters. -/
inductive TyForm.Uses (aliases : Aliases) (active : List Name) (scope : Scope) : TyForm → Alias → Prop where
  | plain {n : Name} {a : Alias} (hs : scope.find? n = none) (ha : aliases.find? n = some a) (hn : n ∉ active)
    (hp : a.params = none) : Uses aliases active scope (.ref n) a
  | applied {n : Name} {es : List TyExpr} {a : Alias} {ns : List Name} (hs : scope.find? n = none)
    (ha : aliases.find? n = some a) (hn : n ∉ active) (hp : a.params = some ns) (hlen : ns.length = es.length) :
    Uses aliases active scope (.app n es) a

namespace Spot

/-- The names of the aliases that are not being expanded. -/
def waiting (aliases : Aliases) (p : Spot) : Finset Name :=
  aliases.names \ p.active.toFinset

/-- The body of an alias, expanded inside the expansions of the active ones with variables for its parameters. -/
def body (active : List Name) (a : Alias) (vars : List Name) : Spot :=
  ⟨a.name :: active, Scope.enterParams [] (a.params.getD []) vars, a.body⟩

/-- Resolving the first place may go on at the second one. -/
inductive Enters (aliases : Aliases) : Spot → Spot → Prop where
  | part {active : List Name} {scope : Scope} {span : Span} {f : TyForm} {q : Scope × TyExpr} (hq : q ∈ f.parts scope) :
    Enters aliases ⟨active, scope, .mk span f⟩ ⟨active, q.1, q.2⟩
  | body {active : List Name} {scope : Scope} {span : Span} {f : TyForm} {a : Alias}
    (ha : f.Uses aliases active scope a) (vars : List Name) :
    Enters aliases ⟨active, scope, .mk span f⟩ (body active a vars)

end Spot

/-! ### The way gets shorter -/

private theorem sizeOf_snd_lt_of_mem {ps : List (Name × TyExpr)} {p : Name × TyExpr} (h : p ∈ ps) :
    sizeOf p.2 < sizeOf ps := by
  have hlist := List.sizeOf_lt_of_mem h
  have hpair : sizeOf p = 1 + sizeOf p.1 + sizeOf p.2 := by
    cases p
    rfl
  omega

theorem TyForm.sizeOf_lt_of_mem_parts {form : TyForm} {scope : Scope} {q : Scope × TyExpr} (h : q ∈ form.parts scope) :
    sizeOf q.2 < sizeOf form := by
  cases form with
  | prim _ | ref _ => cases h
  | container _ _ | mu _ _ | generic _ _ =>
    obtain rfl := List.mem_singleton.1 h
    simp only [container.sizeOf_spec, mu.sizeOf_spec, generic.sizeOf_spec]
    omega
  | func ps r =>
    rcases List.mem_append.1 h with h | h
    · obtain ⟨p, hp, rfl⟩ := List.mem_map.1 h
      have := sizeOf_snd_lt_of_mem hp
      simp only [func.sizeOf_spec]
      omega
    · obtain rfl := List.mem_singleton.1 h
      simp only [func.sizeOf_spec]
      omega
  | object ps =>
    obtain ⟨p, hp, rfl⟩ := List.mem_map.1 h
    have := sizeOf_snd_lt_of_mem hp
    simp only [object.sizeOf_spec]
    omega
  | union vs =>
    obtain ⟨v, hv, h⟩ := List.mem_flatMap.1 h
    obtain ⟨p, hp, rfl⟩ := List.mem_map.1 h
    have hlist := List.sizeOf_lt_of_mem hv
    have hpair : sizeOf v = 1 + sizeOf v.1 + sizeOf v.2 := by
      cases v
      rfl
    have := sizeOf_snd_lt_of_mem hp
    simp only [union.sizeOf_spec]
    omega
  | app n es =>
    obtain ⟨e, he, rfl⟩ := List.mem_map.1 h
    have := List.sizeOf_lt_of_mem he
    simp only [app.sizeOf_spec]
    omega

/-- An alias that is to be expanded is one of the program, and is not being expanded. -/
theorem TyForm.Uses.waits {aliases : Aliases} {active : List Name} {scope : Scope} {f : TyForm} {a : Alias}
    (h : f.Uses aliases active scope a) :
    a.name ∈ aliases.names ∧ a.name ∉ active := by
  have hnamed : ∀ {n : Name}, aliases.find? n = some a → n ∉ active → a.name ∈ aliases.names ∧ a.name ∉ active := by
    intro n ha hn
    obtain rfl := Aliases.find?_name ha
    exact ⟨List.mem_toFinset.2 (List.mem_map_of_mem (Aliases.find?_mem ha)), hn⟩
  cases h with
  | plain _ ha hn _ => exact hnamed ha hn
  | applied _ ha hn _ _ => exact hnamed ha hn

namespace Spot

variable {aliases : Aliases} {p q : Spot}

theorem mem_waiting {n : Name} : n ∈ p.waiting aliases ↔ n ∈ aliases.names ∧ n ∉ p.active := by
  simp [waiting]

/-- Expanding an alias takes its name from those that are waiting. -/
theorem waiting_body_ssubset {active : List Name} {a : Alias} (hname : a.name ∈ aliases.names) (hn : a.name ∉ active)
    (vars : List Name) (scope : Scope) (e : TyExpr) :
    (body active a vars).waiting aliases ⊂ (⟨active, scope, e⟩ : Spot).waiting aliases := by
  have hsub : (body active a vars).waiting aliases ⊆ (⟨active, scope, e⟩ : Spot).waiting aliases := by
    intro m hm
    obtain ⟨hmem, hnot⟩ := mem_waiting.1 hm
    exact mem_waiting.2 ⟨hmem, fun h => hnot (List.mem_cons_of_mem _ h)⟩
  refine (Finset.ssubset_iff_of_subset hsub).2 ⟨a.name, mem_waiting.2 ⟨hname, hn⟩, fun h => ?_⟩
  exact (mem_waiting.1 h).2 List.mem_cons_self

/-- Either more aliases are being expanded, or the same ones and what is left to resolve is smaller. -/
theorem Enters.decreases (h : Enters aliases p q) :
    Prod.Lex (· ⊂ ·) (· < ·) (q.waiting aliases, sizeOf q.expr) (p.waiting aliases, sizeOf p.expr) := by
  cases h with
  | part hq =>
    refine .right _ ?_
    have := TyForm.sizeOf_lt_of_mem_parts hq
    simp only [TyExpr.mk.sizeOf_spec]
    omega
  | body ha vars => exact .left _ _ (waiting_body_ssubset ha.waits.1 ha.waits.2 vars ..)

/-- No place leads to others for ever. -/
theorem wellFounded_enters (aliases : Aliases) : WellFounded fun q p => Enters aliases p q :=
  Subrelation.wf (fun h => Enters.decreases h)
    (InvImage.wf (fun p : Spot => (p.waiting aliases, sizeOf p.expr))
      (WellFounded.prod_lex (wellFounded_lt (α := Finset Name)) (wellFounded_lt (α := Nat))))

/-! ### What encloses a place -/

/-- The aliases that are being expanded are different ones of the program. -/
def Enclosed (aliases : Aliases) (p : Spot) : Prop :=
  p.active.Nodup ∧ ∀ n ∈ p.active, n ∈ aliases.names

/-- Going on expands no alias inside its own expansion. -/
theorem Enters.enclosed (h : Enters aliases p q) (hp : p.Enclosed aliases) : q.Enclosed aliases := by
  cases h with
  | part _ => exact hp
  | body ha vars =>
    exact ⟨List.nodup_cons.2 ⟨ha.waits.2, hp.1⟩, List.forall_mem_cons.2 ⟨ha.waits.1, hp.2⟩⟩

theorem Enclosed.of_reaches (hp : p.Enclosed aliases) (h : ReflTransGen (Enters aliases) p q) :
    q.Enclosed aliases := by
  induction h with
  | refl => exact hp
  | tail _ h ih => exact h.enclosed ih

/-- Expansions nest no deeper than there are names of aliases. -/
theorem Enclosed.length_le (hp : p.Enclosed aliases) : p.active.length ≤ aliases.names.card := by
  rw [← List.toFinset_card_of_nodup hp.1]
  exact Finset.card_le_card fun n hn => hp.2 n (List.mem_toFinset.1 hn)

end Spot

/-! ### The rule -/

/-- How places get their types. -/
abbrev Resolver := Spot → CheckM Ty

namespace Resolver

section Parts

variable (sub : TyExpr → CheckM Ty) (span : Span)

/-- Properties, whose names differ from each other and from those already `seen`. -/
def row (seen : List Name) : List (Name × TyExpr) → CheckM Row
  | [] => return []
  | (n, e) :: ps =>
    if n ∈ seen then
      CheckM.violation (.duplicateProperty n) span
    else do
      let t ← sub e
      return (n, t) :: (← row (n :: seen) ps)

/-- Variants, whose labels differ from each other and from those already `seen`. -/
def variants (seen : List Name) : List (Name × List (Name × TyExpr)) → CheckM Variants
  | [] => return []
  | (l, ps) :: vs =>
    if l ∈ seen then
      CheckM.violation (.duplicateVariant l) span
    else do
      let props ← row sub span [] ps
      return (l, props) :: (← variants (l :: seen) vs)

end Parts

/-- The type of what stands at the given place, with the types of its parts and a way to expand aliases. -/
def form (x : Expansion) (sub : Scope → TyExpr → CheckM Ty) (scope : Scope) (span : Span) : TyForm → CheckM Ty
  | .prim p => return .prim p
  | .container kind e => return .container kind (← sub scope e)
  | .func ps r => do
    let ps ← ps.mapM fun p => return (p.1, ← sub scope p.2)
    return .func ps (← sub scope r)
  | .object ps => return .object (← row (sub scope) span [] ps)
  | .union vs => return .union (← variants (sub scope) span [] vs)
  | .mu n b =>
    if scope.hasMu n then
      CheckM.violation (.duplicateTypeParameter n) span
    else do
      recursive n (← sub (scope.enterMu n) b) span
  | .generic ns b => do
    expectDistinct ns span
    return .generic ns (← sub (scope.enterParams ns ns) b)
  | .ref n => x.plain scope span n
  | .app n es => do
    let a ← x.generic scope span n es.length
    x.use a (← es.mapM (sub scope)) span

/-- Expands an alias inside the expansions of the active ones, with its body resolved as given. -/
def use (r : Resolver) (active : List Name) (a : Alias) (args : List Ty) (span : Span) : CheckM Ty := do
  let params := a.params.getD []
  expectDistinct params a.span
  let vars ← drawAll params
  let body ← r (.body active a vars)
  let body ← Ty.substAll (vars.zip args) body
  if body.mentions a.name then recursive a.name body span else return body

/-- The type that the annotation at a place means, with the types at the places that are entered from there. -/
def rule (aliases : Aliases) (r : Resolver) : Resolver := fun p =>
  form ⟨aliases, p.active, r.use p.active⟩ (fun scope e => r ⟨p.active, scope, e⟩) p.scope p.expr.span p.expr.form

end Resolver

/-! ### What resolving gives is what the rule gives -/

namespace TyExpr

variable (x : Expansion) (scope : Scope) (span : Span)

private theorem resolveParamRow_eq (ps : List (Name × TyExpr)) :
    resolveParamRow x scope ps = ps.mapM fun p => return (p.1, ← p.2.resolveIn x scope) := by
  induction ps with
  | nil => rfl
  | cons p ps ih => simp [resolveParamRow, List.mapM_cons, ih]

private theorem resolveRow_eq (seen : List Name) (ps : List (Name × TyExpr)) :
    resolveRow x scope span seen ps = Resolver.row (resolveIn x scope) span seen ps := by
  induction ps generalizing seen with
  | nil => rfl
  | cons p ps ih => simp only [resolveRow, Resolver.row, ih]

private theorem resolveVariants_eq (seen : List Name) (vs : List (Name × List (Name × TyExpr))) :
    resolveVariants x scope span seen vs = Resolver.variants (resolveIn x scope) span seen vs := by
  induction vs generalizing seen with
  | nil => rfl
  | cons v vs ih => simp only [resolveVariants, Resolver.variants, resolveRow_eq, ih]

private theorem resolveArgs_eq (es : List TyExpr) : resolveArgs x scope es = es.mapM (resolveIn x scope) := by
  induction es with
  | nil => rfl
  | cons e es ih => simp [resolveArgs, List.mapM_cons, ih]

theorem resolveIn_mk (form : TyForm) :
    (TyExpr.mk span form).resolveIn x scope = Resolver.form x (fun scope e => e.resolveIn x scope) scope span form := by
  rw [resolveIn]
  cases form with
  | func ps r => simp only [resolveForm, Resolver.form, resolveParamRow_eq]
  | object ps => simp only [resolveForm, Resolver.form, resolveRow_eq]
  | union vs => simp only [resolveForm, Resolver.form, resolveVariants_eq]
  | app n es => simp only [resolveForm, Resolver.form, resolveArgs_eq]
  | _ => rw [resolveForm, Resolver.form]

end TyExpr

namespace Resolver

/-! ### Checks that do not halt -/

/-- The check ends with a result or with a violated rule. -/
def Decided {α : Type} (m : CheckM α) : Prop :=
  Outcomes m (fun _ => True) fun f => ∀ h, f ≠ .halt h

namespace Decided

variable {α β : Type} {m : CheckM α} {k : α → CheckM β}

theorem pure (a : α) : Decided (Pure.pure a : CheckM α) :=
  Outcomes.pure trivial

theorem violation (v : Violation) (span : Span) : Decided (CheckM.violation v span : CheckM α) :=
  Outcomes.throw nofun

theorem lift (m : SupplyM α) : Decided (liftM m : CheckM α) :=
  Outcomes.lift fun _ => trivial

theorem bind (hm : Decided m) (hk : ∀ a, Decided (k a)) : Decided (m >>= k) :=
  Outcomes.bind hm fun a _ => hk a

theorem mapM {l : List α} {f : α → CheckM β} (h : ∀ a ∈ l, Decided (f a)) : Decided (l.mapM f) := by
  induction l with
  | nil => exact pure _
  | cons a l ih =>
    rw [List.mapM_cons]
    exact (h a List.mem_cons_self).bind fun b =>
      (ih fun c hc => h c (List.mem_cons_of_mem a hc)).bind fun bs => pure _

end Decided

/-! ### What a name refers to -/

section Names

variable (aliases : Aliases) (active : List Name) (scope : Scope) (span : Span) (n : Name)

/-- A name is an alias that is to be expanded, or what it means does not depend on how aliases are expanded. -/
private theorem plain_cases :
    (∃ a, (TyForm.ref n).Uses aliases active scope a ∧
      ∀ use, Expansion.plain ⟨aliases, active, use⟩ scope span n = use a [] span) ∨
    ∃ m, Decided m ∧ ∀ use, Expansion.plain ⟨aliases, active, use⟩ scope span n = m := by
  rcases hs : scope.find? n with _ | v
  · rcases ha : aliases.find? n with _ | a
    · exact .inr ⟨_, .violation _ _, fun _ => by simp only [Expansion.plain, hs, ha]; rfl⟩
    · rcases hp : a.params with _ | ns
      · by_cases hn : n ∈ active
        · exact .inr ⟨_, .pure _, fun _ => by simp only [Expansion.plain, hs, ha, hp, hn, if_true]; rfl⟩
        · exact .inl ⟨a, .plain hs ha hn hp, fun _ => by simp only [Expansion.plain, hs, ha, hp, hn, if_false]⟩
      · exact .inr ⟨_, .violation _ _, fun _ => by simp only [Expansion.plain, hs, ha, hp]; rfl⟩
  · exact .inr ⟨_, .pure _, fun _ => by simp only [Expansion.plain, hs]; rfl⟩

/-- A name with arguments is an alias that is to be expanded, or violates a rule. -/
private theorem applied_cases (es : List TyExpr) :
    (∃ a, (TyForm.app n es).Uses aliases active scope a ∧
      ∀ use, Expansion.generic ⟨aliases, active, use⟩ scope span n es.length = pure a) ∨
    ∃ v, ∀ use, Expansion.generic ⟨aliases, active, use⟩ scope span n es.length = CheckM.violation v span := by
  rcases hs : scope.find? n with _ | v
  · rcases ha : aliases.find? n with _ | a
    · exact .inr ⟨_, fun _ => by simp [Expansion.generic, hs, ha]; rfl⟩
    · by_cases hn : n ∈ active
      · exact .inr ⟨_, fun _ => by simp [Expansion.generic, hs, ha, hn]; rfl⟩
      · rcases hp : a.params with _ | ns
        · exact .inr ⟨_, fun _ => by simp [Expansion.generic, hs, ha, hn, hp]; rfl⟩
        · by_cases hlen : ns.length = es.length
          · exact .inl ⟨a, .applied hs ha hn hp hlen, fun _ => by simp [Expansion.generic, hs, ha, hn, hp, hlen]⟩
          · exact .inr ⟨_, fun _ => by simp [Expansion.generic, hs, ha, hn, hp, hlen]; rfl⟩
  · exact .inr ⟨_, fun _ => by simp [Expansion.generic, hs]; rfl⟩

end Names

/-! ### The rule depends on the places that are entered -/

section Congruence

variable {aliases : Aliases} {active : List Name} {scope : Scope} {span : Span}

private theorem mapM_eq {α β : Type} {l : List α} {f g : α → CheckM β} (h : ∀ a ∈ l, f a = g a) :
    l.mapM f = l.mapM g := by
  induction l with
  | nil => rfl
  | cons a l ih =>
    rw [List.mapM_cons, List.mapM_cons, h a List.mem_cons_self, ih fun b hb => h b (List.mem_cons_of_mem a hb)]

section

variable {sub sub' : TyExpr → CheckM Ty} {seen : List Name}

private theorem row_congr {ps : List (Name × TyExpr)} (h : ∀ p ∈ ps, sub p.2 = sub' p.2) :
    row sub span seen ps = row sub' span seen ps := by
  induction ps generalizing seen with
  | nil => rfl
  | cons p ps ih =>
    obtain ⟨hp, hps⟩ := List.forall_mem_cons.1 h
    simp only [row, hp, ih hps]

private theorem variants_congr {vs : List (Name × List (Name × TyExpr))}
    (h : ∀ v ∈ vs, ∀ p ∈ v.2, sub p.2 = sub' p.2) : variants sub span seen vs = variants sub' span seen vs := by
  induction vs generalizing seen with
  | nil => rfl
  | cons v vs ih =>
    obtain ⟨hv, hvs⟩ := List.forall_mem_cons.1 h
    simp only [variants, row_congr hv, ih hvs]

end

variable {use use' : Alias → List Ty → Span → CheckM Ty}

private theorem form_congr {sub sub' : Scope → TyExpr → CheckM Ty} {f : TyForm}
    (hsub : ∀ q ∈ f.parts scope, sub q.1 q.2 = sub' q.1 q.2)
    (huse : ∀ a, f.Uses aliases active scope a → ∀ args, use a args span = use' a args span) :
    form ⟨aliases, active, use⟩ sub scope span f = form ⟨aliases, active, use'⟩ sub' scope span f := by
  cases f with
  | prim p => rfl
  | container k e =>
    have he : sub scope e = sub' scope e := hsub _ (List.mem_singleton.2 rfl)
    simp only [form, he]
  | func ps r =>
    have hps : ∀ p ∈ ps, sub scope p.2 = sub' scope p.2 := fun p hp => hsub _ (TyForm.mem_parts_param hp r)
    have hr : sub scope r = sub' scope r := hsub _ (TyForm.mem_parts_result ps r)
    simp only [form, hr]
    rw [mapM_eq fun p hp => by rw [hps p hp]]
  | object ps =>
    have hps : ∀ p ∈ ps, sub scope p.2 = sub' scope p.2 := fun p hp => hsub _ (TyForm.mem_parts_property hp)
    simp only [form, row_congr hps]
  | union vs =>
    have hvs : ∀ v ∈ vs, ∀ p ∈ v.2, sub scope p.2 = sub' scope p.2 := fun v hv p hp =>
      hsub _ (TyForm.mem_parts_variant hv hp)
    simp only [form, variants_congr hvs]
  | mu n b =>
    have hb : sub (scope.enterMu n) b = sub' (scope.enterMu n) b := hsub _ (List.mem_singleton.2 rfl)
    simp only [form, hb]
  | generic ns b =>
    have hb : sub (scope.enterParams ns ns) b = sub' (scope.enterParams ns ns) b := hsub _ (List.mem_singleton.2 rfl)
    simp only [form, hb]
  | ref n =>
    rcases plain_cases aliases active scope span n with ⟨a, ha, hplain⟩ | ⟨m, _, hplain⟩
    · exact (hplain use).trans ((huse a ha []).trans (hplain use').symm)
    · exact (hplain use).trans (hplain use').symm
  | app n es =>
    have hes : ∀ e ∈ es, sub scope e = sub' scope e := fun e he => hsub _ (TyForm.mem_parts_arg he n)
    simp only [form, mapM_eq hes]
    rcases applied_cases aliases active scope span n es with ⟨a, ha, happlied⟩ | ⟨v, happlied⟩
    · simp only [happlied, pure_bind, huse a ha]
    · simp only [happlied]
      rfl

private theorem use_congr {r r' : Resolver} {a : Alias}
    (h : ∀ vars, r (.body active a vars) = r' (.body active a vars)) : r.use active a = r'.use active a := by
  unfold Resolver.use
  simp only [h]

/-- The rule asks for nothing but the types at the places that are entered. -/
theorem rule_congr {r r' : Resolver} {p : Spot} (h : ∀ q, p.Enters aliases q → r q = r' q) :
    rule aliases r p = rule aliases r' p := by
  obtain ⟨active, scope, ⟨span, f⟩⟩ := p
  refine form_congr (fun q hq => h _ (.part hq)) fun a ha args => ?_
  rw [use_congr fun vars => h _ (.body ha vars)]

end Congruence

/-! ### Any depth will do -/

/-- Resolving at a place, with expansions nested up to the given depth. -/
def within (aliases : Aliases) (depth : Nat) : Resolver := fun p =>
  p.expr.resolveIn (expansion aliases depth p.active) p.scope

/-- Resolving at a place, with expansions nested as deep as there are names of aliases that are not being expanded. -/
def resolved (aliases : Aliases) : Resolver := fun p =>
  within aliases (p.waiting aliases).card p

variable {aliases : Aliases} {p : Spot}

/-- An admissible depth for a place leaves one for the bodies that are entered from there. -/
private theorem expansion_use {active : List Name} {scope : Scope} {e : TyExpr} {f : TyForm} {a : Alias} {depth : Nat}
    (ha : f.Uses aliases active scope a) (hd : ((⟨active, scope, e⟩ : Spot).waiting aliases).card ≤ depth) :
    ∃ d, (expansion aliases depth active).use a = (within aliases d).use active a ∧
      ∀ vars, ((Spot.body active a vars).waiting aliases).card ≤ d := by
  have hlt : ∀ vars, ((Spot.body active a vars).waiting aliases).card < depth := fun vars =>
    Nat.lt_of_lt_of_le (Finset.card_lt_card (Spot.waiting_body_ssubset ha.waits.1 ha.waits.2 vars scope e)) hd
  cases depth with
  | zero => exact absurd (hlt []) (Nat.not_lt_zero _)
  | succ d => exact ⟨d, rfl, fun vars => Nat.le_of_lt_succ (hlt vars)⟩

private theorem within_eq_rule (h : ∀ q, p.Enters aliases q →
      ∀ d, (q.waiting aliases).card ≤ d → within aliases d q = resolved aliases q)
    {depth : Nat} (hd : (p.waiting aliases).card ≤ depth) :
    within aliases depth p = rule aliases (resolved aliases) p := by
  obtain ⟨active, scope, ⟨span, f⟩⟩ := p
  rw [within, TyExpr.resolveIn_mk]
  have hx : expansion aliases depth active = ⟨aliases, active, (expansion aliases depth active).use⟩ := by
    cases depth <;> rfl
  refine (congrArg (fun x => form x (fun scope e => within aliases depth ⟨active, scope, e⟩) scope span f) hx).trans ?_
  refine form_congr (fun q hq => h _ (.part hq) depth hd) fun a ha args => ?_
  obtain ⟨d, huse, hvars⟩ := expansion_use ha hd
  rw [huse, use_congr fun vars => h _ (.body ha vars) d (hvars vars)]

/-- With every depth that admits as many nested expansions as there are names to expand, resolving gives the same. -/
theorem within_eq_resolved {depth : Nat} (hd : (p.waiting aliases).card ≤ depth) :
    within aliases depth p = resolved aliases p := by
  induction p using (Spot.wellFounded_enters aliases).induction generalizing depth with
  | _ p ih =>
    have hrule : ∀ {d}, (p.waiting aliases).card ≤ d → within aliases d p = rule aliases (resolved aliases) p :=
      within_eq_rule fun q hq d hd => ih q hq hd
    exact (hrule hd).trans (hrule (Nat.le_refl _)).symm

theorem resolved_eq_rule (aliases : Aliases) : resolved aliases = rule aliases (resolved aliases) :=
  funext fun _ => within_eq_rule (fun _ _ _ hd => within_eq_resolved hd) (Nat.le_refl _)

/-- The rule has no other solution. -/
theorem eq_resolved {r : Resolver} (h : r = rule aliases r) : r = resolved aliases := by
  funext p
  induction p using (Spot.wellFounded_enters aliases).induction with
  | _ p ih =>
    rw [h, resolved_eq_rule]
    exact rule_congr ih

/-! ### Resolving does not halt -/

section Deciding

variable {span : Span} {sub : TyExpr → CheckM Ty}

private theorem expectDistinct_decided (params : List Name) (span : Span) : Decided (expectDistinct params span) := by
  unfold expectDistinct
  split
  · exact .violation _ _
  · exact .pure _

private theorem recursive_decided (n : Name) (t : Ty) (span : Span) : Decided (recursive n t span) := by
  unfold recursive
  split
  · exact .pure _
  · exact .violation _ _

private theorem row_decided {seen : List Name} {ps : List (Name × TyExpr)} (h : ∀ p ∈ ps, Decided (sub p.2)) :
    Decided (row sub span seen ps) := by
  induction ps generalizing seen with
  | nil => exact .pure _
  | cons p ps ih =>
    obtain ⟨hp, hps⟩ := List.forall_mem_cons.1 h
    rw [row]
    split
    · exact .violation _ _
    · exact hp.bind fun _ => (ih hps).bind fun _ => .pure _

private theorem variants_decided {seen : List Name} {vs : List (Name × List (Name × TyExpr))}
    (h : ∀ v ∈ vs, ∀ p ∈ v.2, Decided (sub p.2)) : Decided (variants sub span seen vs) := by
  induction vs generalizing seen with
  | nil => exact .pure _
  | cons v vs ih =>
    obtain ⟨hv, hvs⟩ := List.forall_mem_cons.1 h
    rw [variants]
    split
    · exact .violation _ _
    · exact (row_decided hv).bind fun _ => (ih hvs).bind fun _ => .pure _

private theorem use_decided {r : Resolver} {active : List Name} {a : Alias}
    (h : ∀ vars, Decided (r (.body active a vars))) (args : List Ty) (span : Span) :
    Decided (r.use active a args span) := by
  unfold Resolver.use
  refine (expectDistinct_decided _ _).bind fun _ => (Decided.lift _).bind fun vars => (h vars).bind fun body =>
    (Decided.lift _).bind fun body => ?_
  split
  · exact recursive_decided _ _ _
  · exact .pure _

variable {aliases : Aliases} {p : Spot}

theorem rule_decided {r : Resolver} (h : ∀ q, p.Enters aliases q → Decided (r q)) : Decided (rule aliases r p) := by
  obtain ⟨active, scope, ⟨span, f⟩⟩ := p
  have hpart : ∀ q ∈ f.parts scope, Decided (r ⟨active, q.1, q.2⟩) := fun q hq => h _ (.part hq)
  have huse : ∀ a, f.Uses aliases active scope a → ∀ args, Decided (r.use active a args span) := fun a ha args =>
    use_decided (fun vars => h _ (.body ha vars)) args span
  show Decided (form _ _ scope span f)
  cases f with
  | prim p => exact .pure _
  | container k e => exact (hpart _ (List.mem_singleton.2 rfl)).bind fun _ => .pure _
  | func ps r =>
    have hps : ∀ p ∈ ps, _ := fun p hp => hpart _ (TyForm.mem_parts_param hp r)
    have hr := hpart _ (TyForm.mem_parts_result ps r)
    exact (Decided.mapM fun p hp => (hps p hp).bind fun _ => .pure _).bind fun _ => hr.bind fun _ => .pure _
  | object ps =>
    have hps : ∀ p ∈ ps, _ := fun p hp => hpart _ (TyForm.mem_parts_property hp)
    exact (row_decided hps).bind fun _ => .pure _
  | union vs =>
    have hvs : ∀ v ∈ vs, ∀ p ∈ v.2, _ := fun v hv p hp => hpart _ (TyForm.mem_parts_variant hv hp)
    exact (variants_decided hvs).bind fun _ => .pure _
  | mu n b =>
    rw [form]
    split
    · exact .violation _ _
    · exact (hpart _ (List.mem_singleton.2 rfl)).bind fun _ => recursive_decided _ _ _
  | generic ns b =>
    exact (expectDistinct_decided _ _).bind fun _ => (hpart _ (List.mem_singleton.2 rfl)).bind fun _ => .pure _
  | ref n =>
    rw [form]
    rcases plain_cases aliases active scope span n with ⟨a, ha, hplain⟩ | ⟨m, hm, hplain⟩
    · rw [hplain]
      exact huse a ha []
    · rw [hplain]
      exact hm
  | app n es =>
    have hes : ∀ e ∈ es, _ := fun e he => hpart _ (TyForm.mem_parts_arg he n)
    rw [form]
    rcases applied_cases aliases active scope span n es with ⟨a, ha, happlied⟩ | ⟨v, happlied⟩
    · rw [happlied, pure_bind]
      exact (Decided.mapM hes).bind fun ts => huse a ha ts
    · rw [happlied]
      exact .violation v span

/-- Resolving ends with a type or with a violated rule. -/
theorem resolved_decided (aliases : Aliases) (p : Spot) : Decided (resolved aliases p) := by
  induction p using (Spot.wellFounded_enters aliases).induction with
  | _ p ih =>
    rw [resolved_eq_rule]
    exact rule_decided ih

end Deciding

end Resolver

/-! ### Resolving ends -/

/-- Resolving an annotation ends, whatever the aliases.  Every depth that admits as many nested expansions as there are
names of aliases gives the same, which is a type or a violated rule.  It is what the only solution of the rule without
a depth gives, and the rule asks for no more than the types at the places that it enters.  From none of these places
the way leads on for ever: with every step either the set of names that are not being expanded gets smaller, or it is
the same and the annotation is smaller.  On all ways from the annotation the aliases that are being expanded are
different, so that they nest no deeper than there are names. -/
theorem TyExpr.resolve_terminates (aliases : Aliases) (scope : Scope) (e : TyExpr) :
    (∀ s f, ((e.resolve aliases scope).run.run s).1 = .error f → ∀ h, f ≠ .halt h) ∧
    (∀ depth, aliases.names.card ≤ depth →
      e.resolveIn (expansion aliases depth []) scope = e.resolve aliases scope) ∧
    (∃ r : Resolver, r = r.rule aliases ∧ (∀ r' : Resolver, r' = r'.rule aliases → r' = r) ∧
      e.resolve aliases scope = r ⟨[], scope, e⟩) ∧
    (∀ (r r' : Resolver) (p : Spot), (∀ q, p.Enters aliases q → r q = r' q) →
      r.rule aliases p = r'.rule aliases p) ∧
    (∀ p q : Spot, p.Enters aliases q →
      Prod.Lex (· ⊂ ·) (· < ·) (q.waiting aliases, sizeOf q.expr) (p.waiting aliases, sizeOf p.expr)) ∧
    WellFounded (fun q p : Spot => p.Enters aliases q) ∧
    ∀ p : Spot, ReflTransGen (Spot.Enters aliases) ⟨[], scope, e⟩ p →
      p.active.Nodup ∧ (∀ n ∈ p.active, n ∈ aliases.names) ∧ p.active.length ≤ aliases.names.card := by
  have hresolved : ∀ depth, aliases.names.card ≤ depth →
      e.resolveIn (expansion aliases depth []) scope = Resolver.resolved aliases ⟨[], scope, e⟩ := fun depth hd =>
    Resolver.within_eq_resolved (p := ⟨[], scope, e⟩) (Nat.le_trans (Finset.card_le_card Finset.sdiff_subset) hd)
  have hresolve : e.resolve aliases scope = Resolver.resolved aliases ⟨[], scope, e⟩ :=
    hresolved aliases.length aliases.card_names_le
  refine ⟨fun s f hf => ?_, fun depth hd => (hresolved depth hd).trans hresolve.symm,
    ⟨_, Resolver.resolved_eq_rule aliases, fun _ => Resolver.eq_resolved, hresolve⟩,
    fun _ _ _ => Resolver.rule_congr, fun _ _ => Spot.Enters.decreases, Spot.wellFounded_enters aliases,
    fun p hp => ?_⟩
  · rw [hresolve] at hf
    exact (Resolver.resolved_decided aliases ⟨[], scope, e⟩ s).2 f hf
  · have hencl : p.Enclosed aliases := Spot.Enclosed.of_reaches ⟨List.nodup_nil, by simp⟩ hp
    exact ⟨hencl.1, hencl.2, hencl.length_le⟩

end MuTypes
