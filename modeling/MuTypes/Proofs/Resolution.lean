import MuTypes.Proofs.Checks
import MuTypes.Proofs.InOrder
import MuTypes.TyExpr.Resolution

/-!
# Annotations mean types in order

The type that an annotation means is in order for the meanings of the variables in scope (`resolve_inOrder`).  While it
is resolved, the aliases whose expansions enclose a place are names as well (`resolveIn_inOrder`).  An expansion takes
its own alias away again by the recursive binder that it puts around, and replaces the variables that it draws for the
parameters by the arguments (`expansion_inOrder`).

Of all names in an annotation, only those that it binds can come to be drawn again, so it is enough that the supply is
ahead of these and of the names of the aliases, which are bound as well.
-/

namespace MuTypes

open NameSupply

/-! ### Bound names -/

namespace TyExpr

mutual

/-- The names that an annotation binds: those of recursive types and type parameters. -/
def binders : TyExpr → List Name
  | .mk _ form => bindersForm form

/-- The names that what stands somewhere binds. -/
def bindersForm : TyForm → List Name
  | .prim _ => []
  | .container _ e => e.binders
  | .func ps r => bindersRow ps ++ r.binders
  | .object ps => bindersRow ps
  | .union vs => bindersVariants vs
  | .mu n b => n :: b.binders
  | .generic ns b => ns ++ b.binders
  | .ref _ => []
  | .app _ es => bindersArgs es

/-- `binders` of the annotations of a row. -/
def bindersRow : List (Name × TyExpr) → List Name
  | [] => []
  | (_, e) :: ps => e.binders ++ bindersRow ps

/-- `binders` of the annotations of all variants. -/
def bindersVariants : List (Name × List (Name × TyExpr)) → List Name
  | [] => []
  | (_, ps) :: vs => bindersRow ps ++ bindersVariants vs

/-- `binders` of arguments. -/
def bindersArgs : List TyExpr → List Name
  | [] => []
  | e :: es => e.binders ++ bindersArgs es

end

end TyExpr

/-- No name that the annotation binds has an `@`. -/
def TyExpr.Unnumbered (e : TyExpr) : Prop :=
  ∀ n ∈ e.binders, '@' ∉ n.toList

/-- No alias has an `@` in its name or in one that its body binds. -/
def Aliases.Unnumbered (aliases : Aliases) : Prop :=
  ∀ a ∈ aliases, '@' ∉ a.name.toList ∧ a.body.Unnumbered

namespace NameSupply

/-- The supply is ahead of the names that the annotation binds. -/
def AheadOfTyExpr (s : NameSupply) (e : TyExpr) : Prop :=
  ∀ n ∈ e.binders, s.AheadOf n

/-- The supply is ahead of the names of the aliases and of those that their bodies bind. -/
def AheadOfAliases (s : NameSupply) (aliases : Aliases) : Prop :=
  ∀ a ∈ aliases, s.AheadOf a.name ∧ s.AheadOfTyExpr a.body

variable {s t : NameSupply} {e : TyExpr} {aliases : Aliases}

theorem AheadOfTyExpr.mono (h : s.AheadOfTyExpr e) (hst : s ≤ t) : t.AheadOfTyExpr e :=
  fun n hn => (h n hn).mono hst

theorem AheadOfAliases.mono (h : s.AheadOfAliases aliases) (hst : s ≤ t) : t.AheadOfAliases aliases :=
  fun a ha => ⟨(h a ha).1.mono hst, (h a ha).2.mono hst⟩

/-- Every supply is ahead of what is written without `@`. -/
theorem aheadOfTyExpr_of_unnumbered (h : e.Unnumbered) (s : NameSupply) : s.AheadOfTyExpr e :=
  fun n hn => aheadOf_of_at_sign_not_mem (h n hn) s

theorem aheadOfAliases_of_unnumbered (h : aliases.Unnumbered) (s : NameSupply) : s.AheadOfAliases aliases :=
  fun a ha => ⟨aheadOf_of_at_sign_not_mem (h a ha).1 s, aheadOfTyExpr_of_unnumbered (h a ha).2 s⟩

/-! ### Parts of resolving -/

theorem expectDistinct_checks (s : NameSupply) (params : List Name) (span : Span) :
    s.Checks (expectDistinct params span) fun _ _ => params.Nodup := by
  unfold expectDistinct
  split
  · exact .violation _ _
  · rename_i h
    exact .pure (firstRepeat_eq_none_iff.1 h).1

theorem recursive_checks {names : List Name} {name : Name} {body : Ty} (hn : s.AheadOf name)
    (hb : body.InOrder (name :: names) s) (span : Span) :
    s.Checks (recursive name body span) fun t s' => t.InOrder names s' := by
  unfold recursive
  split
  · rename_i hc
    exact .pure (Ty.inOrder_mu.2 ⟨hc, hn, hb⟩)
  · exact .violation _ _

end NameSupply

/-! ### Scopes -/

namespace Scope

variable {scope : Scope}

theorem meaning_mem_of_find? {name : Name} {v : Visible} (h : scope.find? name = some v) :
    v.meaning ∈ scope.meanings :=
  List.mem_map_of_mem (List.mem_of_find?_eq_some h)

@[simp] theorem meanings_enterMu (name : Name) : (scope.enterMu name).meanings = name :: scope.meanings := rfl

theorem meanings_enterParams (scope : Scope) {params meanings : List Name} (h : meanings.length = params.length) :
    (scope.enterParams params meanings).meanings = meanings.reverse ++ scope.meanings := by
  have hzip : (params.zipWith (fun name meaning => (⟨name, meaning, false⟩ : Visible)) meanings).map (·.meaning)
      = meanings := by
    rw [List.map_zipWith]
    have hle : meanings.length ≤ params.length := Nat.le_of_eq h
    simpa [List.zip] using List.map_snd_zip hle
  simp only [enterParams, Scope.meanings, List.map_append, List.map_reverse, hzip]

theorem mem_meanings_enterParams {params meanings : List Name} (h : meanings.length = params.length) {x : Name} :
    x ∈ (scope.enterParams params meanings).meanings ↔ x ∈ meanings ++ scope.meanings := by
  rw [meanings_enterParams scope h, List.mem_append, List.mem_append, List.mem_reverse]

end Scope

/-! ### Annotations -/

/-- The supply is ahead of the active aliases, and expanding an alias gives a type in order for names under which the
active aliases and the names of the arguments are. -/
structure Expansion.InOrder (x : Expansion) (s : NameSupply) : Prop where
  ahead : ∀ n ∈ x.active, s.AheadOf n
  use : ∀ a ∈ x.aliases, ∀ args names, args.length = (a.params.getD []).length → (∀ n ∈ x.active, n ∈ names) →
    ∀ t, s ≤ t → (∀ r ∈ args, r.InOrder names t) → ∀ span, t.Checks (x.use a args span) fun r t' => r.InOrder names t'

namespace Expansion

variable {x : Expansion} {scope : Scope} {s s' : NameSupply}

theorem InOrder.mono (h : x.InOrder s) (hs : s ≤ s') : x.InOrder s' :=
  ⟨fun n hn => (h.ahead n hn).mono hs, fun a ha args names hl hn t ht => h.use a ha args names hl hn t (le_trans hs ht)⟩

theorem plain_inOrder (hx : x.InOrder s) (hscope : ∀ n ∈ scope.meanings, s.AheadOf n) (span : Span) (name : Name) :
    s.Checks (x.plain scope span name) fun t s' => t.InOrder (scope.meanings ++ x.active) s' := by
  unfold plain
  split
  · rename_i v hv
    have hmem := Scope.meaning_mem_of_find? hv
    exact .pure (Ty.inOrder_var (List.mem_append_left x.active hmem) (hscope _ hmem))
  split
  · exact .violation _ _
  rename_i a ha
  split
  · exact .violation _ _
  rename_i hparams
  split
  · rename_i hactive
    exact .pure (Ty.inOrder_var (List.mem_append_right scope.meanings hactive) (hx.ahead name hactive))
  · refine hx.use a (Aliases.find?_mem ha) [] _ (by simp [hparams]) ?_ s (le_refl s) (by simp) span
    exact fun n hn => List.mem_append_right scope.meanings hn

theorem generic_checks (s : NameSupply) (span : Span) (name : Name) (args : Nat) :
    s.Checks (x.generic scope span name args) fun a _ => a ∈ x.aliases ∧ args = (a.params.getD []).length := by
  unfold generic
  split
  · exact .violation _ _
  split
  · exact .violation _ _
  rename_i a ha
  split
  · exact .violation _ _
  split
  · exact .violation _ _
  rename_i ps hps
  split
  · rename_i hl
    exact .pure ⟨Aliases.find?_mem ha, by simp [hps, hl]⟩
  · exact .violation _ _

end Expansion

namespace TyExpr

open Expansion

mutual

/-- What an annotation means in a scope, inside the expansions of the active aliases. -/
theorem resolveIn_inOrder {x : Expansion} {scope : Scope} {s : NameSupply} (hx : x.InOrder s)
    (hscope : ∀ n ∈ scope.meanings, s.AheadOf n) : ∀ e : TyExpr, (∀ n ∈ e.binders, s.AheadOf n) →
      s.Checks (e.resolveIn x scope) fun t s' => t.InOrder (scope.meanings ++ x.active) s'
  | .mk span form, he => resolveForm_inOrder hx hscope span form he

theorem resolveForm_inOrder {x : Expansion} {scope : Scope} {s : NameSupply} (hx : x.InOrder s)
    (hscope : ∀ n ∈ scope.meanings, s.AheadOf n) (span : Span) :
    ∀ form : TyForm, (∀ n ∈ bindersForm form, s.AheadOf n) →
      s.Checks (resolveForm x scope span form) fun t s' => t.InOrder (scope.meanings ++ x.active) s'
  | .prim p, _ => .pure (Ty.inOrder_prim p)
  | .container k e, he => by
    refine (resolveIn_inOrder hx hscope e he).bind fun t s₁ _ ht => .pure ?_
    exact Ty.inOrder_container.2 ht
  | .func ps r, he => by
    obtain ⟨hps, hr⟩ := List.forall_mem_append.1 he
    refine (resolveParamRow_inOrder hx hscope ps hps).bind fun row s₁ h₁ hrow => ?_
    refine (resolveIn_inOrder (hx.mono h₁) (fun n hn => (hscope n hn).mono h₁) r fun n hn => (hr n hn).mono h₁).bind
      fun t s₂ h₂ ht => .pure ?_
    exact Ty.inOrder_func.2 ⟨fun p hp => (hrow p hp).mono h₂, ht⟩
  | .object ps, he => by
    refine (resolveRow_inOrder hx hscope span [] ps he).bind fun row s₁ _ hrow => .pure ?_
    exact Ty.inOrder_object.2 ⟨hrow.1, hrow.2.2⟩
  | .union vs, he => by
    refine (resolveVariants_inOrder hx hscope span [] vs he).bind fun row s₁ _ hrow => .pure ?_
    exact Ty.inOrder_union.2 ⟨hrow.1, hrow.2.2⟩
  | .mu n b, he => by
    obtain ⟨hn, hb⟩ := List.forall_mem_cons.1 he
    unfold resolveForm
    split
    · exact .violation _ _
    · -- the body may mention the name, and the binder that `recursive` puts around it takes the name away again
      have hinside : ∀ m ∈ (scope.enterMu n).meanings, s.AheadOf m := List.forall_mem_cons.2 ⟨hn, hscope⟩
      refine (resolveIn_inOrder hx hinside b hb).bind fun t s₁ h₁ ht => ?_
      exact recursive_checks (hn.mono h₁) ht span
  | .generic ns b, he => by
    obtain ⟨hns, hb⟩ := List.forall_mem_append.1 he
    refine (expectDistinct_checks s ns span).bind fun _ s₁ h₁ hd => ?_
    have hinside : ∀ m ∈ (scope.enterParams ns ns).meanings, s₁.AheadOf m := fun m hm =>
      (List.mem_append.1 ((Scope.mem_meanings_enterParams rfl).1 hm)).elim (fun h => (hns m h).mono h₁)
        fun h => (hscope m h).mono h₁
    refine (resolveIn_inOrder (hx.mono h₁) hinside b fun n hn => (hb n hn).mono h₁).bind fun t s₂ h₂ ht => .pure ?_
    refine Ty.inOrder_generic.2 ⟨hd, fun n hn => (hns n hn).mono (le_trans h₁ h₂), ht.weaken fun m hm => ?_⟩
    rw [← List.append_assoc]
    exact (List.mem_append.1 hm).elim
      (fun h => List.mem_append_left x.active ((Scope.mem_meanings_enterParams rfl).1 h))
      (fun h => List.mem_append_right _ h)
  | .ref n, _ => plain_inOrder hx hscope span n
  | .app n es, he => by
    refine (generic_checks s span n es.length).bind fun a s₁ h₁ ha => ?_
    have hscope₁ : ∀ n ∈ scope.meanings, s₁.AheadOf n := fun n hn => (hscope n hn).mono h₁
    refine (resolveArgs_inOrder (hx.mono h₁) hscope₁ es fun n hn => (he n hn).mono h₁).bind fun args s₂ h₂ hargs => ?_
    have hactive : ∀ n ∈ x.active, n ∈ scope.meanings ++ x.active := fun n hn => List.mem_append_right scope.meanings hn
    exact hx.use a ha.1 args _ (hargs.1.trans ha.2) hactive s₂ (le_trans h₁ h₂) hargs.2 span

theorem resolveParamRow_inOrder {x : Expansion} {scope : Scope} {s : NameSupply} (hx : x.InOrder s)
    (hscope : ∀ n ∈ scope.meanings, s.AheadOf n) :
    ∀ ps : List (Name × TyExpr), (∀ n ∈ bindersRow ps, s.AheadOf n) →
      s.Checks (resolveParamRow x scope ps) fun row s' =>
        ∀ p ∈ row, p.2.InOrder (scope.meanings ++ x.active) s'
  | [], _ => .pure (by simp)
  | (n, e) :: ps, he => by
    obtain ⟨he, hps⟩ := List.forall_mem_append.1 he
    refine (resolveIn_inOrder hx hscope e he).bind fun t s₁ h₁ ht => ?_
    refine (resolveParamRow_inOrder (hx.mono h₁) (fun n hn => (hscope n hn).mono h₁) ps
      fun n hn => (hps n hn).mono h₁).bind fun row s₂ h₂ hrow => .pure ?_
    exact List.forall_mem_cons.2 ⟨ht.mono h₂, hrow⟩

theorem resolveRow_inOrder {x : Expansion} {scope : Scope} {s : NameSupply} (hx : x.InOrder s)
    (hscope : ∀ n ∈ scope.meanings, s.AheadOf n) (span : Span) (seen : List Name) :
    ∀ ps : List (Name × TyExpr), (∀ n ∈ bindersRow ps, s.AheadOf n) →
      s.Checks (resolveRow x scope span seen ps) fun row s' =>
        (row.map Prod.fst).Nodup ∧ (∀ n ∈ row.map Prod.fst, n ∉ seen) ∧
          ∀ p ∈ row, p.2.InOrder (scope.meanings ++ x.active) s'
  | [], _ => .pure ⟨List.nodup_nil, by simp, by simp⟩
  | (n, e) :: ps, he => by
    obtain ⟨he, hps⟩ := List.forall_mem_append.1 he
    unfold resolveRow
    split
    · exact .violation _ _
    · rename_i hn
      refine (resolveIn_inOrder hx hscope e he).bind fun t s₁ h₁ ht => ?_
      refine (resolveRow_inOrder (hx.mono h₁) (fun n hn => (hscope n hn).mono h₁) span (n :: seen) ps
        fun n hn => (hps n hn).mono h₁).bind fun row s₂ h₂ hrow => .pure ?_
      obtain ⟨hd, hseen, hrow⟩ := hrow
      refine ⟨List.nodup_cons.2 ⟨fun hm => hseen n hm List.mem_cons_self, hd⟩, ?_, ?_⟩
      · exact List.forall_mem_cons.2 ⟨hn, fun m hm hs => hseen m hm (List.mem_cons_of_mem n hs)⟩
      · exact List.forall_mem_cons.2 ⟨ht.mono h₂, hrow⟩

theorem resolveVariants_inOrder {x : Expansion} {scope : Scope} {s : NameSupply} (hx : x.InOrder s)
    (hscope : ∀ n ∈ scope.meanings, s.AheadOf n) (span : Span) (seen : List Name) :
    ∀ vs : List (Name × List (Name × TyExpr)), (∀ n ∈ bindersVariants vs, s.AheadOf n) →
      s.Checks (resolveVariants x scope span seen vs) fun vs s' =>
        (vs.map Prod.fst).Nodup ∧ (∀ n ∈ vs.map Prod.fst, n ∉ seen) ∧
          ∀ v ∈ vs, (Ty.object v.2).InOrder (scope.meanings ++ x.active) s'
  | [], _ => .pure ⟨List.nodup_nil, by simp, by simp⟩
  | (l, ps) :: vs, he => by
    obtain ⟨hps, hvs⟩ := List.forall_mem_append.1 he
    unfold resolveVariants
    split
    · exact .violation _ _
    · rename_i hl
      refine (resolveRow_inOrder hx hscope span [] ps hps).bind fun row s₁ h₁ hrow => ?_
      refine (resolveVariants_inOrder (hx.mono h₁) (fun n hn => (hscope n hn).mono h₁) span (l :: seen) vs
        fun n hn => (hvs n hn).mono h₁).bind fun vs' s₂ h₂ hvs' => .pure ?_
      obtain ⟨hd, hseen, hvs'⟩ := hvs'
      refine ⟨List.nodup_cons.2 ⟨fun hm => hseen l hm List.mem_cons_self, hd⟩, ?_, ?_⟩
      · exact List.forall_mem_cons.2 ⟨hl, fun m hm hs => hseen m hm (List.mem_cons_of_mem l hs)⟩
      · have hobject := Ty.inOrder_object.2 ⟨hrow.1, hrow.2.2⟩
        exact List.forall_mem_cons.2 ⟨hobject.mono h₂, hvs'⟩

theorem resolveArgs_inOrder {x : Expansion} {scope : Scope} {s : NameSupply} (hx : x.InOrder s)
    (hscope : ∀ n ∈ scope.meanings, s.AheadOf n) :
    ∀ es : List TyExpr, (∀ n ∈ bindersArgs es, s.AheadOf n) →
      s.Checks (resolveArgs x scope es) fun ts s' =>
        ts.length = es.length ∧ ∀ t ∈ ts, t.InOrder (scope.meanings ++ x.active) s'
  | [], _ => .pure ⟨rfl, by simp⟩
  | e :: es, he => by
    obtain ⟨he, hes⟩ := List.forall_mem_append.1 he
    refine (resolveIn_inOrder hx hscope e he).bind fun t s₁ h₁ ht => ?_
    refine (resolveArgs_inOrder (hx.mono h₁) (fun n hn => (hscope n hn).mono h₁) es
      fun n hn => (hes n hn).mono h₁).bind fun ts s₂ h₂ hts => .pure ?_
    exact ⟨congrArg (· + 1) hts.1, List.forall_mem_cons.2 ⟨ht.mono h₂, hts.2⟩⟩

end

end TyExpr

/-! ### Aliases -/

@[simp] theorem expansion_aliases (aliases : Aliases) (depth : Nat) (active : List Name) :
    (expansion aliases depth active).aliases = aliases := by
  cases depth <;> rfl

@[simp] theorem expansion_active (aliases : Aliases) (depth : Nat) (active : List Name) :
    (expansion aliases depth active).active = active := by
  cases depth <;> rfl

/-- Expansions give types in order, however deep they nest. -/
theorem expansion_inOrder {aliases : Aliases} (depth : Nat) {active : List Name} {s : NameSupply}
    (hs : s.AheadOfAliases aliases) (hactive : ∀ n ∈ active, s.AheadOf n) :
    (expansion aliases depth active).InOrder s := by
  induction depth generalizing active s with
  | zero => exact ⟨hactive, fun _ _ _ _ _ _ _ _ _ _ => .unfinished⟩
  | succ depth ih =>
    refine ⟨hactive, fun a ha args names hl hnames s₀ h₀ hargs span => ?_⟩
    have hname : s.AheadOf a.name := (hs a ha).1
    refine (expectDistinct_checks s₀ _ a.span).bind fun _ s₁ h₁ _ => ?_
    refine (Checks.lift (drawAll_yields s₁ (a.params.getD []))).bind fun vars s₂ h₂ hvars => ?_
    have hs₂ : s ≤ s₂ := le_trans h₀ (le_trans h₁ h₂)
    -- the body knows only the parameters and the active aliases, among which now is this one
    have hinside : (expansion aliases depth (a.name :: active)).InOrder s₂ := by
      refine ih (hs.mono hs₂) (List.forall_mem_cons.2 ⟨hname.mono hs₂, fun n hn => (hactive n hn).mono hs₂⟩)
    have hscope : ∀ n ∈ (Scope.enterParams [] (a.params.getD []) vars).meanings, s₂.AheadOf n := by
      intro n hn
      have hmem := (Scope.mem_meanings_enterParams hvars.1).1 hn
      exact hvars.2 n (by simpa [Scope.meanings] using hmem)
    have hbinders : ∀ n ∈ a.body.binders, s₂.AheadOf n := fun n hn => ((hs a ha).2 n hn).mono hs₂
    refine (TyExpr.resolveIn_inOrder hinside hscope a.body hbinders).bind fun body s₃ h₃ hbody => ?_
    have hbody' : body.InOrder (vars ++ a.name :: names) s₃ := by
      refine hbody.weaken fun n hn => ?_
      rcases List.mem_append.1 hn with hn | hn
      · have hmem := (Scope.mem_meanings_enterParams hvars.1).1 hn
        exact List.mem_append_left _ (by simpa [Scope.meanings] using hmem)
      · rw [expansion_active] at hn
        rcases List.mem_cons.1 hn with rfl | hn
        · exact List.mem_append_right vars List.mem_cons_self
        · exact List.mem_append_right vars (List.mem_cons_of_mem a.name (hnames n hn))
    -- the arguments replace the parameters, and a recursive binder takes the alias away
    have hputs : s₃.Yields (Ty.substAll (vars.zip args) body) fun t s' => t.InOrder (a.name :: names) s' := by
      refine Ty.substAll_inOrder (hvars.1.trans hl.symm) (fun n hn => (hvars.2 n hn).mono h₃) (fun r hr => ?_) hbody'
      exact ((hargs r hr).mono (le_trans h₁ (le_trans h₂ h₃))).weaken fun n hn => List.mem_cons_of_mem a.name hn
    refine (Checks.lift hputs).bind fun t s₄ h₄ ht => ?_
    split
    · exact recursive_checks (hname.mono (le_trans hs₂ (le_trans h₃ h₄))) ht span
    · rename_i hmentions
      refine .pure { ht with mem := fun n hn => (List.mem_cons.1 (ht.mem n hn)).resolve_left ?_ }
      rintro rfl
      exact hmentions hn

/-- The type that an annotation means is in order for the meanings in its scope. -/
theorem TyExpr.resolve_inOrder {aliases : Aliases} {scope : Scope} {s : NameSupply} (hs : s.AheadOfAliases aliases)
    (hscope : ∀ n ∈ scope.meanings, s.AheadOf n) (e : TyExpr) (he : s.AheadOfTyExpr e) :
    s.Checks (e.resolve aliases scope) fun t s' => t.InOrder scope.meanings s' := by
  have hx : (expansion aliases aliases.length []).InOrder s := expansion_inOrder aliases.length hs (by simp)
  refine (TyExpr.resolveIn_inOrder hx hscope e he).mono fun t s' _ ht => ht.weaken fun n hn => ?_
  rwa [expansion_active, List.append_nil] at hn

/-- A type that an annotation without `@` means outside all binders is well-formed and has no free names. -/
theorem TyExpr.inOrder_of_resolve {aliases : Aliases} (haliases : aliases.Unnumbered) {e : TyExpr} (he : e.Unnumbered)
    {t : Ty} (h : (e.resolve aliases []).result = .ok t) : ∃ s : NameSupply, t.InOrder [] s := by
  have hscope : ∀ n ∈ Scope.meanings [], (⟨1⟩ : NameSupply).AheadOf n := by simp [Scope.meanings]
  have hrun := TyExpr.resolve_inOrder (aheadOfAliases_of_unnumbered haliases _) hscope e
    (aheadOfTyExpr_of_unnumbered he _)
  exact ⟨_, hrun.2.1 t h⟩

end MuTypes
