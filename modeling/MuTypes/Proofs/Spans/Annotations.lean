import MuTypes.TyExpr.Resolution

/-!
# Annotations at other places

Two checks are alike except for places when the second one is the first one with the place of its violation changed
(`Moved`).  Resolving an annotation with all places changed is alike to resolving it as it stands
(`TyExpr.resolve_moved`): each violation has a place of the annotation or of an alias, and no place is looked at.
-/

namespace MuTypes

/-- Changing the place of a violation changes neither a result nor the supply. -/
theorem CheckM.run_mapSpan {α : Type} (f : Span → Span) (m : CheckM α) (s : NameSupply) :
    (m.mapSpan f).run.run s = ((m.run.run s).1.mapError (Failure.mapSpan f), (m.run.run s).2) := rfl

/-- The second check is the first one, except that `f` has changed the place of a violation. -/
def Moved {α : Type} (f : Span → Span) (m m' : CheckM α) : Prop :=
  m' = m.mapSpan f

namespace Moved

variable {α β τ : Type} {f : Span → Span} {m m' : CheckM α} {g g' : α → CheckM β}

theorem pure (a : α) : Moved f (Pure.pure a) (Pure.pure a) := rfl

theorem violation (v : Violation) (span : Span) :
    Moved f (CheckM.violation v span : CheckM α) (CheckM.violation v (f span)) := rfl

theorem halt (h : Halt) : Moved f (throw (.halt h) : CheckM α) (throw (.halt h)) := rfl

theorem lift (m : SupplyM α) : Moved f (liftM m : CheckM α) (liftM m) := rfl

/-- Comparisons know no places. -/
theorem compare (m : CompareM α) : Moved f (liftM m : CheckM α) (liftM m) := by
  funext s
  show ((m.run s).1.mapError Failure.halt, (m.run s).2) =
    (((m.run s).1.mapError Failure.halt).mapError (Failure.mapSpan f), (m.run s).2)
  cases (m.run s).1 <;> rfl

theorem bind (hm : Moved f m m') (hg : ∀ a, Moved f (g a) (g' a)) : Moved f (m >>= g) (m' >>= g') := by
  obtain rfl := hm
  obtain rfl : g' = fun a => (g a).mapSpan f := funext hg
  refine ExceptT.ext (StateT.ext fun s => ?_)
  rw [CheckM.run_mapSpan, ExceptT.run_bind, ExceptT.run_bind, StateT.run_bind, StateT.run_bind, CheckM.run_mapSpan]
  rcases m.run.run s with ⟨e | a, s'⟩ <;> rfl

theorem ite {p : Prop} [Decidable p] {l l' : CheckM α} (hm : Moved f m m') (hl : Moved f l l') :
    Moved f (if p then m else l) (if p then m' else l') := by
  split
  · exact hm
  · exact hl

theorem forM {g g' : τ → CheckM Unit} {l : List τ} (h : ∀ a ∈ l, Moved f (g a) (g' a)) :
    Moved f (l.forM g) (l.forM g') := by
  induction l with
  | nil => exact .pure ()
  | cons a l ih =>
    obtain ⟨ha, hl⟩ := List.forall_mem_cons.1 h
    exact ha.bind fun _ => ih hl

theorem mapM {κ : τ → τ} {g g' : τ → CheckM β} {l : List τ} (h : ∀ a ∈ l, Moved f (g a) (g' (κ a))) :
    Moved f (l.mapM g) ((l.map κ).mapM g') := by
  induction l with
  | nil => exact .pure []
  | cons a l ih =>
    obtain ⟨ha, hl⟩ := List.forall_mem_cons.1 h
    rw [List.map_cons, List.mapM_cons, List.mapM_cons]
    exact ha.bind fun b => (ih hl).bind fun bs => .pure _

end Moved

/-! ### Names -/

section Resolution

variable {f : Span → Span}

theorem expectDistinct_moved (params : List Name) (span : Span) :
    Moved f (expectDistinct params span) (expectDistinct params (f span)) := by
  unfold expectDistinct
  split
  · exact .violation _ span
  · exact .pure ()

theorem recursive_moved (name : Name) (body : Ty) (span : Span) :
    Moved f (recursive name body span) (recursive name body (f span)) :=
  .ite (.pure _) (.violation _ span)

theorem Aliases.find?_map_mapSpan (f : Span → Span) (aliases : Aliases) (name : Name) :
    Aliases.find? (aliases.map (Alias.mapSpan f)) name = (aliases.find? name).map (Alias.mapSpan f) := by
  rw [Aliases.find?, List.find?_map]
  rfl

/-- The second expansion is for the same aliases at the places that `f` gives. -/
structure Expansion.Moves (f : Span → Span) (x x' : Expansion) : Prop where
  aliases : x'.aliases = x.aliases.map (Alias.mapSpan f)
  active : x'.active = x.active
  use : ∀ a args span, Moved f (x.use a args span) (x'.use (a.mapSpan f) args (f span))

namespace Expansion.Moves

variable {x x' : Expansion} (hx : x.Moves f x')
include hx

theorem find? (name : Name) : x'.aliases.find? name = (x.aliases.find? name).map (Alias.mapSpan f) := by
  rw [hx.aliases, Aliases.find?_map_mapSpan]

theorem plain (scope : Scope) (span : Span) (name : Name) :
    Moved f (x.plain scope span name) (x'.plain scope (f span) name) := by
  unfold Expansion.plain
  cases scope.find? name with
  | some v => exact .pure _
  | none =>
    dsimp only
    rw [hx.find?, hx.active]
    cases x.aliases.find? name with
    | none => exact .violation _ span
    | some a =>
      obtain ⟨_, params, body, place⟩ := a
      cases params with
      | some ps => exact .violation _ span
      | none => exact .ite (.pure _) (hx.use ⟨_, none, body, place⟩ [] span)

/-- A reference with arguments finds the alias at its changed place, or breaks the same rule. -/
theorem generic (scope : Scope) (span : Span) (name : Name) (args : Nat) :
    (∃ a, x.generic scope span name args = Pure.pure a ∧
      x'.generic scope (f span) name args = Pure.pure (a.mapSpan f)) ∨
    ∃ v, x.generic scope span name args = CheckM.violation v span ∧
      x'.generic scope (f span) name args = CheckM.violation v (f span) := by
  unfold Expansion.generic
  split
  · exact .inr ⟨_, rfl, rfl⟩
  · rw [hx.find?, hx.active]
    cases x.aliases.find? name with
    | none => exact .inr ⟨_, rfl, rfl⟩
    | some a =>
      obtain ⟨own, params, body, place⟩ := a
      dsimp only [Option.map_some, Alias.mapSpan]
      split
      · exact .inr ⟨_, rfl, rfl⟩
      cases params with
      | none => exact .inr ⟨_, rfl, rfl⟩
      | some ps =>
        dsimp only
        split
        · exact .inl ⟨⟨own, some ps, body, place⟩, rfl, rfl⟩
        · exact .inr ⟨_, rfl, rfl⟩

end Expansion.Moves

/-! ### Annotations -/

namespace TyExpr

theorem length_mapSpanArgs (es : List TyExpr) : (mapSpanArgs f es).length = es.length := by
  induction es with
  | nil => rfl
  | cons e es ih => exact congrArg (· + 1) ih

mutual

theorem resolveIn_moved {x x' : Expansion} (hx : x.Moves f x') (scope : Scope) : ∀ e : TyExpr,
    Moved f (e.resolveIn x scope) ((e.mapSpan f).resolveIn x' scope)
  | .mk span form => resolveForm_moved hx scope span form

theorem resolveForm_moved {x x' : Expansion} (hx : x.Moves f x') (scope : Scope) (span : Span) : ∀ form : TyForm,
    Moved f (resolveForm x scope span form) (resolveForm x' scope (f span) (mapSpanForm f form))
  | .prim p => .pure _
  | .container kind e => (resolveIn_moved hx scope e).bind fun _ => .pure _
  | .func ps r => (resolveParamRow_moved hx scope ps).bind fun _ => (resolveIn_moved hx scope r).bind fun _ => .pure _
  | .object ps => (resolveRow_moved hx scope span [] ps).bind fun _ => .pure _
  | .union vs => (resolveVariants_moved hx scope span [] vs).bind fun _ => .pure _
  | .mu n b => .ite (.violation _ span)
      ((resolveIn_moved hx (scope.enterMu n) b).bind fun t => recursive_moved n t span)
  | .generic ns b => (expectDistinct_moved ns span).bind fun _ =>
      (resolveIn_moved hx (scope.enterParams ns ns) b).bind fun _ => .pure _
  | .ref n => hx.plain scope span n
  | .app n es => by
    unfold mapSpanForm resolveForm
    rw [length_mapSpanArgs]
    rcases hx.generic scope span n es.length with ⟨a, ha, ha'⟩ | ⟨v, hv, hv'⟩
    · rw [ha, ha', pure_bind, pure_bind]
      exact (resolveArgs_moved hx scope es).bind fun args => hx.use a args span
    · rw [hv, hv']
      rfl

theorem resolveParamRow_moved {x x' : Expansion} (hx : x.Moves f x') (scope : Scope) : ∀ ps : List (Name × TyExpr),
    Moved f (resolveParamRow x scope ps) (resolveParamRow x' scope (mapSpanRow f ps))
  | [] => .pure _
  | (_, e) :: ps => (resolveIn_moved hx scope e).bind fun _ => (resolveParamRow_moved hx scope ps).bind fun _ => .pure _

theorem resolveRow_moved {x x' : Expansion} (hx : x.Moves f x') (scope : Scope) (span : Span) (seen : List Name) :
    ∀ ps : List (Name × TyExpr),
      Moved f (resolveRow x scope span seen ps) (resolveRow x' scope (f span) seen (mapSpanRow f ps))
  | [] => .pure _
  | (n, e) :: ps => .ite (.violation _ span) ((resolveIn_moved hx scope e).bind fun _ =>
      (resolveRow_moved hx scope span (n :: seen) ps).bind fun _ => .pure _)

theorem resolveVariants_moved {x x' : Expansion} (hx : x.Moves f x') (scope : Scope) (span : Span) (seen : List Name) :
    ∀ vs : List (Name × List (Name × TyExpr)),
      Moved f (resolveVariants x scope span seen vs) (resolveVariants x' scope (f span) seen (mapSpanVariants f vs))
  | [] => .pure _
  | (l, ps) :: vs => .ite (.violation _ span) ((resolveRow_moved hx scope span [] ps).bind fun _ =>
      (resolveVariants_moved hx scope span (l :: seen) vs).bind fun _ => .pure _)

theorem resolveArgs_moved {x x' : Expansion} (hx : x.Moves f x') (scope : Scope) : ∀ es : List TyExpr,
    Moved f (resolveArgs x scope es) (resolveArgs x' scope (mapSpanArgs f es))
  | [] => .pure _
  | e :: es => (resolveIn_moved hx scope e).bind fun _ => (resolveArgs_moved hx scope es).bind fun _ => .pure _

end

end TyExpr

/-! ### Aliases -/

theorem expansion_moves (f : Span → Span) (aliases : Aliases) (depth : Nat) (active : List Name) :
    (expansion aliases depth active).Moves f (expansion (aliases.map (Alias.mapSpan f)) depth active) := by
  induction depth generalizing active with
  | zero => exact ⟨rfl, rfl, fun _ _ _ => .halt .unfinished⟩
  | succ depth ih =>
    refine ⟨rfl, rfl, fun a args span => ?_⟩
    refine (expectDistinct_moved _ a.span).bind fun _ => .bind (.lift _) fun vars => ?_
    refine (TyExpr.resolveIn_moved (ih (a.name :: active)) _ a.body).bind fun body => .bind (.lift _) fun t => ?_
    exact .ite (recursive_moved a.name t span) (.pure t)

/-- An annotation means the same where all places are changed, and what is wrong with it is wrong at the changed
place. -/
theorem TyExpr.resolve_moved (f : Span → Span) (aliases : Aliases) (scope : Scope) (e : TyExpr) :
    Moved f (e.resolve aliases scope) ((e.mapSpan f).resolve (aliases.map (Alias.mapSpan f)) scope) := by
  unfold TyExpr.resolve
  rw [List.length_map]
  exact resolveIn_moved (expansion_moves f aliases aliases.length []) scope e

end Resolution

end MuTypes
