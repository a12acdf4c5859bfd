import MuTypes.Proofs.Hygiene.OneBinder

/-!
# Annotations for names

`TyExpr.fill φ` puts annotations for the names that no binder inside binds.  Nothing is renamed, so the binders around
such a name must not bind a name of what is put there.  Then it means the same there as anywhere else, since the meaning
of an annotation depends on the scope only at the names in it (`resolveIn_congr`).
-/

namespace MuTypes

/-- Which annotations are put for which names. -/
abbrev Fillers := Name → Option TyExpr

namespace Fillers

/-- Nothing is put anywhere. -/
def none : Fillers := fun _ => Option.none

/-- The annotation is put for the one name. -/
def single (x : Name) (a : TyExpr) : Fillers := fun y => if y = x then some a else Option.none

theorem single_eq_some {x y : Name} {a b : TyExpr} (h : single x a y = some b) : y = x ∧ a = b := by
  unfold single at h
  split at h
  · exact ⟨‹_›, Option.some.inj h⟩
  · cases h

/-- Nothing is put for names that are bound. -/
def hide (φ : Fillers) (ns : List Name) : Fillers := fun x => if x ∈ ns then Option.none else φ x

@[simp] theorem hide_nil (φ : Fillers) : φ.hide [] = φ := by
  funext x
  simp [hide]

@[simp] theorem none_hide (ns : List Name) : none.hide ns = none := by
  funext x
  simp [hide, none]

theorem hide_hide (φ : Fillers) (ns ms : List Name) : (φ.hide ns).hide ms = φ.hide (ms ++ ns) := by
  funext x
  by_cases hm : x ∈ ms <;> by_cases hn : x ∈ ns <;> simp [hide, hm, hn]

theorem hide_congr (φ : Fillers) {ns ms : List Name} (h : ∀ x, x ∈ ns ↔ x ∈ ms) : φ.hide ns = φ.hide ms := by
  funext x
  simp [hide, h]

theorem hide_eq_some {φ : Fillers} {ns : List Name} {x : Name} {a : TyExpr} (h : φ.hide ns x = some a) :
    x ∉ ns ∧ φ x = some a := by
  unfold hide at h
  split at h
  · cases h
  · exact ⟨‹_›, h⟩

end Fillers

namespace TyExpr

mutual

/-- The annotation with others put for the names that no binder in it binds. -/
def fill (φ : Fillers) : TyExpr → TyExpr
  | .mk span form => fillForm φ span form

/-- `fill` on what stands at the given place. -/
def fillForm (φ : Fillers) (span : Span) : TyForm → TyExpr
  | .prim p => .mk span (.prim p)
  | .container k e => .mk span (.container k (e.fill φ))
  | .func ps r => .mk span (.func (fillRow φ ps) (r.fill φ))
  | .object ps => .mk span (.object (fillRow φ ps))
  | .union vs => .mk span (.union (fillVariants φ vs))
  | .mu b e => .mk span (.mu b (e.fill (φ.hide [b])))
  | .generic bs e => .mk span (.generic bs (e.fill (φ.hide bs)))
  | .ref x => (φ x).getD (.mk span (.ref x))
  | .app x es => .mk span (.app x (fillArgs φ es))

/-- `fill` on the annotations of a row. -/
def fillRow (φ : Fillers) : List (Name × TyExpr) → List (Name × TyExpr)
  | [] => []
  | (l, e) :: ps => (l, e.fill φ) :: fillRow φ ps

/-- `fill` on the annotations of all variants. -/
def fillVariants (φ : Fillers) : List (Name × List (Name × TyExpr)) → List (Name × List (Name × TyExpr))
  | [] => []
  | (l, ps) :: vs => (l, fillRow φ ps) :: fillVariants φ vs

/-- `fill` on arguments. -/
def fillArgs (φ : Fillers) : List TyExpr → List TyExpr
  | [] => []
  | e :: es => e.fill φ :: fillArgs φ es

end

section Fill

mutual

/-- Where nothing is put, the annotation stays as it is. -/
@[simp] theorem fill_none : ∀ e : TyExpr, e.fill .none = e
  | .mk _ (.prim _) => rfl
  | .mk _ (.container _ e) => by rw [fill, fillForm, fill_none e]
  | .mk _ (.func ps r) => by rw [fill, fillForm, fillRow_none ps, fill_none r]
  | .mk _ (.object ps) => by rw [fill, fillForm, fillRow_none ps]
  | .mk _ (.union vs) => by rw [fill, fillForm, fillVariants_none vs]
  | .mk _ (.mu b e) => by rw [fill, fillForm, Fillers.none_hide, fill_none e]
  | .mk _ (.generic bs e) => by rw [fill, fillForm, Fillers.none_hide, fill_none e]
  | .mk _ (.ref _) => rfl
  | .mk _ (.app x es) => by rw [fill, fillForm, fillArgs_none es]

@[simp] theorem fillRow_none : ∀ ps : List (Name × TyExpr), fillRow .none ps = ps
  | [] => rfl
  | (_, e) :: ps => by rw [fillRow, fill_none e, fillRow_none ps]

theorem fillVariants_none : ∀ vs : List (Name × List (Name × TyExpr)), fillVariants .none vs = vs
  | [] => rfl
  | (_, ps) :: vs => by rw [fillVariants, fillRow_none ps, fillVariants_none vs]

@[simp] theorem fillArgs_none : ∀ es : List TyExpr, fillArgs .none es = es
  | [] => rfl
  | e :: es => by rw [fillArgs, fill_none e, fillArgs_none es]

end

theorem length_fillArgs (φ : Fillers) (es : List TyExpr) : (fillArgs φ es).length = es.length := by
  induction es with
  | nil => rfl
  | cons e es ih => exact congrArg (· + 1) ih

variable {P : Name → Prop}

mutual

/-- What is put in brings no more than its own binders. -/
theorem binders_fill {φ : Fillers} (hφ : ∀ x a, φ x = some a → ∀ b ∈ a.binders, P b) :
    ∀ e : TyExpr, (∀ b ∈ e.binders, P b) → ∀ b ∈ (e.fill φ).binders, P b
  | .mk _ (.prim _), he => he
  | .mk _ (.container _ e), he => binders_fill hφ e he
  | .mk _ (.func ps r), he =>
    have he := List.forall_mem_append.1 he
    List.forall_mem_append.2 ⟨bindersRow_fill hφ ps he.1, binders_fill hφ r he.2⟩
  | .mk _ (.object ps), he => bindersRow_fill hφ ps he
  | .mk _ (.union vs), he => bindersVariants_fill hφ vs he
  | .mk _ (.mu _ e), he =>
    have he := List.forall_mem_cons.1 he
    List.forall_mem_cons.2 ⟨he.1, binders_fill (fun x a ha => hφ x a (Fillers.hide_eq_some ha).2) e he.2⟩
  | .mk _ (.generic _ e), he =>
    have he := List.forall_mem_append.1 he
    List.forall_mem_append.2 ⟨he.1, binders_fill (fun x a ha => hφ x a (Fillers.hide_eq_some ha).2) e he.2⟩
  | .mk _ (.ref x), he => by
    rw [fill, fillForm]
    cases h : φ x with
    | none => exact he
    | some a => exact hφ x a h
  | .mk _ (.app _ es), he => bindersArgs_fill hφ es he

theorem bindersRow_fill {φ : Fillers} (hφ : ∀ x a, φ x = some a → ∀ b ∈ a.binders, P b) :
    ∀ ps : List (Name × TyExpr), (∀ b ∈ bindersRow ps, P b) → ∀ b ∈ bindersRow (fillRow φ ps), P b
  | [], he => he
  | (_, e) :: ps, he =>
    have he := List.forall_mem_append.1 he
    List.forall_mem_append.2 ⟨binders_fill hφ e he.1, bindersRow_fill hφ ps he.2⟩

theorem bindersVariants_fill {φ : Fillers} (hφ : ∀ x a, φ x = some a → ∀ b ∈ a.binders, P b) :
    ∀ vs : List (Name × List (Name × TyExpr)), (∀ b ∈ bindersVariants vs, P b) →
      ∀ b ∈ bindersVariants (fillVariants φ vs), P b
  | [], he => he
  | (_, ps) :: vs, he =>
    have he := List.forall_mem_append.1 he
    List.forall_mem_append.2 ⟨bindersRow_fill hφ ps he.1, bindersVariants_fill hφ vs he.2⟩

theorem bindersArgs_fill {φ : Fillers} (hφ : ∀ x a, φ x = some a → ∀ b ∈ a.binders, P b) :
    ∀ es : List TyExpr, (∀ b ∈ bindersArgs es, P b) → ∀ b ∈ bindersArgs (fillArgs φ es), P b
  | [], he => he
  | e :: es, he =>
    have he := List.forall_mem_append.1 he
    List.forall_mem_append.2 ⟨binders_fill hφ e he.1, bindersArgs_fill hφ es he.2⟩

end

end Fill

end TyExpr

/-! ### Scopes that read names alike -/

/-- The name has the same meaning in both scopes, and may be bound by a recursive binder in both or in neither. -/
def Scope.SameAt (scope scope' : Scope) (x : Name) : Prop :=
  scope.find? x = scope'.find? x ∧ scope.hasMu x = scope'.hasMu x

theorem Scope.SameAt.cons {scope scope' : Scope} {x : Name} (h : scope.SameAt scope' x) (v : Visible) :
    Scope.SameAt (v :: scope) (v :: scope') x := by
  obtain ⟨hfind, hmu⟩ := h
  unfold find? at hfind
  unfold hasMu at hmu
  constructor
  · rw [find?, find?, List.find?_cons, List.find?_cons, hfind]
  · rw [hasMu, hasMu, List.any_cons, List.any_cons, hmu]

theorem Scope.SameAt.append {scope scope' : Scope} {x : Name} (h : scope.SameAt scope' x) (vs : List Visible) :
    Scope.SameAt (vs ++ scope) (vs ++ scope') x := by
  induction vs with
  | nil => exact h
  | cons v vs ih => exact ih.cons v

/-- A scope reads a name that is not in it as the empty scope does. -/
theorem Scope.sameAt_nil {scope : Scope} {x : Name} (h : x ∉ scope.names) : scope.SameAt [] x := by
  refine ⟨find?_eq_none_iff.2 h, ?_⟩
  rw [hasMu, show hasMu [] x = false from rfl, List.any_eq_false]
  intro v hv
  simp only [Bool.and_eq_true, decide_eq_true_eq, not_and]
  exact fun _ e => h (List.mem_map.2 ⟨v, hv, e⟩)

namespace TyExpr

mutual

/-- Scopes that read all names in an annotation alike give it the same meaning. -/
theorem resolveIn_congr {x : Expansion} {scope scope' : Scope} :
    ∀ e : TyExpr, (∀ n ∈ e.names, scope.SameAt scope' n) → e.resolveIn x scope = e.resolveIn x scope'
  | .mk _ (.prim _), _ => rfl
  | .mk _ (.container _ e), h => by
    rw [resolveIn, resolveIn, resolveForm, resolveForm, resolveIn_congr e h]
  | .mk _ (.func ps r), h => by
    obtain ⟨hps, hr⟩ := List.forall_mem_append.1 h
    rw [resolveIn, resolveIn, resolveForm, resolveForm, resolveParamRow_congr ps hps]
    simp only [resolveIn_congr r hr]
  | .mk _ (.object ps), h => by
    rw [resolveIn, resolveIn, resolveForm, resolveForm, resolveRow_congr _ _ ps h]
  | .mk _ (.union vs), h => by
    rw [resolveIn, resolveIn, resolveForm, resolveForm, resolveVariants_congr _ _ vs h]
  | .mk _ (.mu b e), h => by
    obtain ⟨hb, he⟩ := List.forall_mem_cons.1 h
    have hinside : e.resolveIn x (scope.enterMu b) = e.resolveIn x (scope'.enterMu b) :=
      resolveIn_congr e fun n hn => (he n hn).cons _
    rw [resolveIn, resolveIn, resolveForm, resolveForm, hb.2, hinside]
  | .mk _ (.generic bs e), h => by
    obtain ⟨-, he⟩ := List.forall_mem_append.1 h
    have hinside : e.resolveIn x (scope.enterParams bs bs) = e.resolveIn x (scope'.enterParams bs bs) :=
      resolveIn_congr e fun n hn => (he n hn).append _
    rw [resolveIn, resolveIn, resolveForm, resolveForm, hinside]
  | .mk _ (.ref n), h => by
    have hn := (h n (List.mem_singleton_self n)).1
    rw [resolveIn, resolveIn, resolveForm, resolveForm, Expansion.plain, Expansion.plain, hn]
  | .mk _ (.app n es), h => by
    obtain ⟨hn, hes⟩ := List.forall_mem_cons.1 h
    rw [resolveIn, resolveIn, resolveForm, resolveForm, Expansion.generic, Expansion.generic, hn.1,
      resolveArgs_congr es hes]

theorem resolveParamRow_congr {x : Expansion} {scope scope' : Scope} :
    ∀ ps : List (Name × TyExpr), (∀ n ∈ namesRow ps, scope.SameAt scope' n) →
      resolveParamRow x scope ps = resolveParamRow x scope' ps
  | [], _ => rfl
  | (_, e) :: ps, h => by
    obtain ⟨he, hps⟩ := List.forall_mem_append.1 h
    rw [resolveParamRow, resolveParamRow, resolveIn_congr e he, resolveParamRow_congr ps hps]

theorem resolveRow_congr {x : Expansion} {scope scope' : Scope} (span : Span) (seen : List Name) :
    ∀ ps : List (Name × TyExpr), (∀ n ∈ namesRow ps, scope.SameAt scope' n) →
      resolveRow x scope span seen ps = resolveRow x scope' span seen ps
  | [], _ => rfl
  | (_, e) :: ps, h => by
    obtain ⟨he, hps⟩ := List.forall_mem_append.1 h
    rw [resolveRow, resolveRow, resolveIn_congr e he, resolveRow_congr span _ ps hps]

theorem resolveVariants_congr {x : Expansion} {scope scope' : Scope} (span : Span) (seen : List Name) :
    ∀ vs : List (Name × List (Name × TyExpr)), (∀ n ∈ namesVariants vs, scope.SameAt scope' n) →
      resolveVariants x scope span seen vs = resolveVariants x scope' span seen vs
  | [], _ => rfl
  | (_, ps) :: vs, h => by
    obtain ⟨hps, hvs⟩ := List.forall_mem_append.1 h
    rw [resolveVariants, resolveVariants, resolveRow_congr span _ ps hps, resolveVariants_congr span _ vs hvs]

theorem resolveArgs_congr {x : Expansion} {scope scope' : Scope} :
    ∀ es : List TyExpr, (∀ n ∈ namesArgs es, scope.SameAt scope' n) → resolveArgs x scope es = resolveArgs x scope' es
  | [], _ => rfl
  | e :: es, h => by
    obtain ⟨he, hes⟩ := List.forall_mem_append.1 h
    rw [resolveArgs, resolveArgs, resolveIn_congr e he, resolveArgs_congr es hes]

end

end TyExpr

end MuTypes
