import MuTypes.Proofs.Renaming.Fits
import MuTypes.Proofs.Resolution

/-!
# Annotations under renamed variables

An annotation means renamed types where the variables in scope have renamed meanings (`resolve_commutes`), provided that
the renaming keeps the names that the annotation and the aliases bind: those of recursive types, of type parameters and
of the aliases.
-/

namespace MuTypes

/-- Failures of one kind: violations of the same rule at the same place, or comparisons that halt for the same kind of
reason. -/
def Failure.SameKind : Failure → Failure → Prop
  | .rule d, .rule d' => d.violation.ctorIdx = d'.violation.ctorIdx ∧ d.span = d'.span
  | .halt h, .halt h' => h.SameKind h'
  | _, _ => False

/-- The violation with the types in it renamed.  Its names are those that the program writes. -/
def Violation.rename (f : Name → Name) : Violation → Violation
  | .mismatch site e a => .mismatch site (e.rename f) (a.rename f)
  | .wrongShape shape t => .wrongShape shape (t.rename f)
  | .wrongReturn e a => .wrongReturn (e.rename f) (a.rename f)
  | v => v

/-- The failure with the types in it renamed, at the same place. -/
def Failure.rename (f : Name → Name) : Failure → Failure
  | .rule d => .rule { d with violation := d.violation.rename f }
  | .halt h => .halt (h.rename f)

/-- The second failure is the first one, renamed. -/
def Failure.Renamed (f : Name → Name) (e e' : Failure) : Prop :=
  e' = e.rename f

theorem Failure.sameKind_rename (f : Name → Name) (e : Failure) : e.SameKind (e.rename f) := by
  cases e with
  | rule d =>
    obtain ⟨v, span⟩ := d
    refine ⟨?_, rfl⟩
    cases v <;> rfl
  | halt h => cases h <;> rfl

/-- Started from supplies that are apart, the checks give results of which the second is the image of the first, or
fail and the second failure is the first one, renamed. -/
abbrev Commutes {α β : Type} (k d : Nat) (f : Name → Name) (ρ : α → β) (m : CheckM α) (m' : CheckM β) : Prop :=
  Alongside k d (Failure.Renamed f) (fun a a' => a' = ρ a) m m'

namespace Alongside

variable {k d : Nat} {f : Name → Name} {α β : Type} {R : α → β → Prop}

theorem violation {v v' : Violation} (span : Span) (h : v' = v.rename f) :
    Alongside k d (Failure.Renamed f) R (CheckM.violation v span) (CheckM.violation v' span) :=
  .throw (congrArg (fun v => Failure.rule ⟨v, span⟩) h)

theorem compare {m : CompareM α} {m' : CompareM β} (h : Alongside k d (Halt.Renamed f) R m m') :
    Alongside k d (Failure.Renamed f) R (liftM m : CheckM α) (liftM m' : CheckM β) := by
  intro n hn
  obtain ⟨hR, hs⟩ := h n hn
  refine ⟨?_, hs⟩
  show OutcomesRelated R (Failure.Renamed f) ((m.run.run ⟨n⟩).1.mapError Failure.halt)
    ((m'.run.run ⟨n + d⟩).1.mapError Failure.halt)
  revert hR
  cases (m.run.run ⟨n⟩).1 <;> cases (m'.run.run ⟨n + d⟩).1 <;> intro hR
  · exact congrArg Failure.halt hR
  · cases hR
  · cases hR
  · exact hR

end Alongside

section Commutes

variable {k d : Nat} {f : Name → Name} {α β τ : Type} {r : α → α} {R : β → β → Prop} {m m' : CheckM α}
  {g g' : α → CheckM β}

namespace Commutes

theorem bind (hm : Commutes k d f r m m') (hg : ∀ a, Alongside k d (Failure.Renamed f) R (g a) (g' (r a))) :
    Alongside k d (Failure.Renamed f) R (m >>= g) (m' >>= g') :=
  Alongside.bind hm fun a _ ha => ha ▸ hg a

theorem forM {κ : τ → τ} {g g' : τ → CheckM Unit} {l : List τ}
    (h : ∀ a ∈ l, Commutes k d f id (g a) (g' (κ a))) : Commutes k d f id (l.forM g) ((l.map κ).forM g') := by
  induction l with
  | nil => exact .pure rfl
  | cons a l ih =>
    obtain ⟨ha, hl⟩ := List.forall_mem_cons.1 h
    exact ha.bind fun _ => ih hl

theorem mapM {ρ : β → β} {g g' : τ → CheckM β} {l : List τ} (h : ∀ a ∈ l, Commutes k d f ρ (g a) (g' a)) :
    Commutes k d f (List.map ρ) (l.mapM g) (l.mapM g') := by
  induction l with
  | nil => exact .pure rfl
  | cons a l ih =>
    obtain ⟨ha, hl⟩ := List.forall_mem_cons.1 h
    rw [List.mapM_cons, List.mapM_cons]
    exact ha.bind fun b => (ih hl).bind fun bs => .pure rfl

end Commutes

end Commutes

/-! ### Scopes -/

namespace Scope

/-- The scope with the meanings of all variables changed by `f`. -/
def rename (f : Name → Name) (scope : Scope) : Scope :=
  scope.map fun v => { v with meaning := f v.meaning }

variable {f : Name → Name}

theorem find?_rename (scope : Scope) (name : Name) :
    (scope.rename f).find? name = (scope.find? name).map fun v => { v with meaning := f v.meaning } := by
  rw [find?, rename, List.find?_map]
  rfl

theorem hasMu_rename (scope : Scope) (name : Name) : (scope.rename f).hasMu name = scope.hasMu name := by
  rw [hasMu, rename, List.any_map]
  rfl

theorem meanings_rename (scope : Scope) : (scope.rename f).meanings = scope.meanings.map f := by
  simp only [meanings, rename, List.map_map, Function.comp_def]

theorem rename_enterMu (scope : Scope) {name : Name} (h : f name = name) :
    (scope.enterMu name).rename f = (scope.rename f).enterMu name := by
  rw [enterMu, rename, List.map_cons, h]
  rfl

theorem rename_enterParams (scope : Scope) (params meanings : List Name) :
    (scope.enterParams params meanings).rename f = (scope.rename f).enterParams params (meanings.map f) := by
  simp only [enterParams, rename, List.map_append, List.map_reverse, List.map_zipWith, List.zipWith_map_right]

end Scope

/-! ### Annotations -/

section Resolution

variable {k d : Nat} {f : Name → Name}

/-- Expanding aliases with renamed arguments gives renamed types, and the names of the active aliases are kept. -/
structure Expansion.Commuting (k d : Nat) (f : Name → Name) (x : Expansion) : Prop where
  shifts : Shifts k d f
  active : ∀ n ∈ x.active, f n = n
  use : ∀ a ∈ x.aliases, ∀ args span,
    Commutes k d f (Ty.rename f) (x.use a args span) (x.use a (args.map (Ty.rename f)) span)

theorem expectDistinct_commutes (params : List Name) (span : Span) :
    Commutes k d f id (expectDistinct params span) (expectDistinct params span) := by
  unfold expectDistinct
  split
  · exact .violation span rfl
  · exact .pure rfl

theorem recursive_commutes (hf : Shifts k d f) {name : Name} (hn : f name = name) (body : Ty) (span : Span) :
    Commutes k d f (Ty.rename f) (recursive name body span) (recursive name (body.rename f) span) := by
  have hmu : (Ty.mu name body).rename f = .mu name (body.rename f) := by rw [Ty.rename, hn]
  unfold recursive
  rw [← hmu, Ty.isContractive_rename hf.injective]
  exact .ite Iff.rfl (.pure rfl) (.violation span rfl)

theorem Expansion.plain_commutes {x : Expansion} (hx : x.Commuting k d f) (scope : Scope) (span : Span) (name : Name) :
    Commutes k d f (Ty.rename f) (x.plain scope span name) (x.plain (scope.rename f) span name) := by
  unfold plain
  rw [Scope.find?_rename]
  cases scope.find? name with
  | some v => exact .pure rfl
  | none =>
    dsimp only [Option.map_none]
    split
    · exact .violation span rfl
    rename_i a ha
    split
    · exact .violation span rfl
    by_cases hactive : name ∈ x.active
    · rw [if_pos hactive]
      exact .pure (by rw [Ty.rename, hx.active name hactive])
    · rw [if_neg hactive]
      exact hx.use a (Aliases.find?_mem ha) [] span

theorem Expansion.generic_commutes (x : Expansion) (scope : Scope) (span : Span) (name : Name) (args : Nat) :
    Alongside k d (Failure.Renamed f) (fun a a' => a' = a ∧ a ∈ x.aliases) (x.generic scope span name args)
      (x.generic (scope.rename f) span name args) := by
  unfold generic
  rw [Scope.find?_rename, Option.isSome_map]
  split
  · exact .violation span rfl
  split
  · exact .violation span rfl
  rename_i a ha
  split
  · exact .violation span rfl
  split
  · exact .violation span rfl
  split
  · exact .pure ⟨rfl, Aliases.find?_mem ha⟩
  · exact .violation span rfl

namespace TyExpr

open Ty (renameRow renameVariants)

mutual

theorem resolveIn_commutes {x : Expansion} (hx : x.Commuting k d f) (scope : Scope) : ∀ e : TyExpr,
    (∀ n ∈ e.binders, f n = n) →
      Commutes k d f (Ty.rename f) (e.resolveIn x scope) (e.resolveIn x (scope.rename f))
  | .mk span form, he => resolveForm_commutes hx scope span form he

theorem resolveForm_commutes {x : Expansion} (hx : x.Commuting k d f) (scope : Scope) (span : Span) : ∀ form : TyForm,
    (∀ n ∈ bindersForm form, f n = n) →
      Commutes k d f (Ty.rename f) (resolveForm x scope span form) (resolveForm x (scope.rename f) span form)
  | .prim p, _ => .pure rfl
  | .container kind e, he => (resolveIn_commutes hx scope e he).bind fun t => .pure rfl
  | .func ps r, he => by
    obtain ⟨hps, hr⟩ := List.forall_mem_append.1 he
    exact (resolveParamRow_commutes hx scope ps hps).bind fun row =>
      (resolveIn_commutes hx scope r hr).bind fun t => .pure rfl
  | .object ps, he => (resolveRow_commutes hx scope span [] ps he).bind fun row => .pure rfl
  | .union vs, he => (resolveVariants_commutes hx scope span [] vs he).bind fun row => .pure rfl
  | .mu n b, he => by
    obtain ⟨hn, hb⟩ := List.forall_mem_cons.1 he
    unfold resolveForm
    rw [Scope.hasMu_rename]
    split
    · exact .violation span rfl
    · rw [← Scope.rename_enterMu scope hn]
      exact (resolveIn_commutes hx (scope.enterMu n) b hb).bind fun t => recursive_commutes hx.shifts hn t span
  | .generic ns b, he => by
    obtain ⟨hns, hb⟩ := List.forall_mem_append.1 he
    have hkept : ns.map f = ns := (List.map_congr_left (g := id) hns).trans (List.map_id ns)
    unfold resolveForm
    refine (expectDistinct_commutes ns span).bind fun _ => ?_
    have hinside := resolveIn_commutes hx (scope.enterParams ns ns) b hb
    rw [Scope.rename_enterParams, hkept] at hinside
    exact hinside.bind fun t => .pure (by rw [Ty.rename, hkept])
  | .ref n, _ => Expansion.plain_commutes hx scope span n
  | .app n es, he => by
    refine (Expansion.generic_commutes x scope span n es.length).bind fun a a' ha => ?_
    obtain ⟨rfl, ha⟩ := ha
    exact (resolveArgs_commutes hx scope es he).bind fun args => hx.use a' ha args span

theorem resolveParamRow_commutes {x : Expansion} (hx : x.Commuting k d f) (scope : Scope) :
    ∀ ps : List (Name × TyExpr), (∀ n ∈ bindersRow ps, f n = n) →
      Commutes k d f (renameRow f) (resolveParamRow x scope ps) (resolveParamRow x (scope.rename f) ps)
  | [], _ => .pure rfl
  | (n, e) :: ps, he => by
    obtain ⟨he, hps⟩ := List.forall_mem_append.1 he
    exact (resolveIn_commutes hx scope e he).bind fun t =>
      (resolveParamRow_commutes hx scope ps hps).bind fun row => .pure rfl

theorem resolveRow_commutes {x : Expansion} (hx : x.Commuting k d f) (scope : Scope) (span : Span) (seen : List Name) :
    ∀ ps : List (Name × TyExpr), (∀ n ∈ bindersRow ps, f n = n) →
      Commutes k d f (renameRow f) (resolveRow x scope span seen ps) (resolveRow x (scope.rename f) span seen ps)
  | [], _ => .pure rfl
  | (n, e) :: ps, he => by
    obtain ⟨he, hps⟩ := List.forall_mem_append.1 he
    unfold resolveRow
    split
    · exact .violation span rfl
    · exact (resolveIn_commutes hx scope e he).bind fun t =>
        (resolveRow_commutes hx scope span (n :: seen) ps hps).bind fun row => .pure rfl

theorem resolveVariants_commutes {x : Expansion} (hx : x.Commuting k d f) (scope : Scope) (span : Span)
    (seen : List Name) : ∀ vs : List (Name × List (Name × TyExpr)), (∀ n ∈ bindersVariants vs, f n = n) →
      Commutes k d f (renameVariants f) (resolveVariants x scope span seen vs)
        (resolveVariants x (scope.rename f) span seen vs)
  | [], _ => .pure rfl
  | (l, ps) :: vs, he => by
    obtain ⟨hps, hvs⟩ := List.forall_mem_append.1 he
    unfold resolveVariants
    split
    · exact .violation span rfl
    · exact (resolveRow_commutes hx scope span [] ps hps).bind fun row =>
        (resolveVariants_commutes hx scope span (l :: seen) vs hvs).bind fun vs' => .pure rfl

theorem resolveArgs_commutes {x : Expansion} (hx : x.Commuting k d f) (scope : Scope) :
    ∀ es : List TyExpr, (∀ n ∈ bindersArgs es, f n = n) →
      Commutes k d f (List.map (Ty.rename f)) (resolveArgs x scope es) (resolveArgs x (scope.rename f) es)
  | [], _ => .pure rfl
  | e :: es, he => by
    obtain ⟨he, hes⟩ := List.forall_mem_append.1 he
    exact (resolveIn_commutes hx scope e he).bind fun t =>
      (resolveArgs_commutes hx scope es hes).bind fun ts => .pure rfl

end

end TyExpr

/-- The renaming keeps the names of the aliases and those that their bodies bind. -/
def Aliases.KeptBy (f : Name → Name) (aliases : Aliases) : Prop :=
  ∀ a ∈ aliases, f a.name = a.name ∧ ∀ n ∈ a.body.binders, f n = n

variable (hf : Shifts k d f)
include hf

theorem expansion_commuting {aliases : Aliases} (haliases : aliases.KeptBy f) (depth : Nat) {active : List Name}
    (hactive : ∀ n ∈ active, f n = n) : (expansion aliases depth active).Commuting k d f := by
  induction depth generalizing active with
  | zero => exact ⟨hf, hactive, fun _ _ _ _ => .throw rfl⟩
  | succ depth ih =>
    refine ⟨hf, hactive, fun a ha args span => ?_⟩
    obtain ⟨hname, hbody⟩ := haliases a ha
    have hinside : (expansion aliases depth (a.name :: active)).Commuting k d f :=
      ih (List.forall_mem_cons.2 ⟨hname, hactive⟩)
    have hdraws : Parallel k d (fun vars vars' => vars' = vars.map f) (drawAll (a.params.getD []))
        (drawAll (a.params.getD [])) := Parallel.mapM (List.forall₂_same.2 fun n _ => Parallel.draw hf rfl)
    refine (expectDistinct_commutes _ a.span).bind fun _ => ?_
    refine Commutes.bind (.lift hdraws) fun vars => ?_
    have hresolved := TyExpr.resolveIn_commutes hinside (Scope.enterParams [] (a.params.getD []) vars) a.body hbody
    rw [Scope.rename_enterParams] at hresolved
    refine hresolved.bind fun body => ?_
    have hzip : (vars.map f).zip (args.map (Ty.rename f)) = (vars.zip args).map fun q => (f q.1, q.2.rename f) :=
      List.zip_map
    rw [hzip]
    refine Commutes.bind (.lift (Ty.substAll_parallel hf (vars.zip args) body)) fun t => ?_
    have hmentions : (t.rename f).mentions a.name = t.mentions a.name := by
      rw [← hname, Ty.mentions_rename hf.injective, hname]
    exact .ite (by rw [hmentions]) (recursive_commutes hf hname t span) (.pure rfl)

/-- An annotation means the renamed type where the variables in scope have renamed meanings. -/
theorem TyExpr.resolve_commutes {aliases : Aliases} (haliases : aliases.KeptBy f) (scope : Scope) {e : TyExpr}
    (he : ∀ n ∈ e.binders, f n = n) :
    Commutes k d f (Ty.rename f) (e.resolve aliases scope) (e.resolve aliases (scope.rename f)) :=
  resolveIn_commutes (expansion_commuting hf haliases aliases.length (by simp)) scope e he

end Resolution

end MuTypes
