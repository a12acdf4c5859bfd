import MuTypes.Proofs.Answers
import MuTypes.Proofs.Renaming.Typing

/-!
# The same once more

An annotation that is resolved again from another supply, and an expression that is checked again, give the same type up
to the numbers of the names that are drawn (`resolve_again`, `Call.outcome_again`).  One of the two types is the other
one with later names shifted, whichever supply came first (`Renumbered`).  Such types have one nameless form
(`Renumbered.bare_eq`), and exact comparisons answer alike for both (`Renumbered.answers_expected_iff`,
`Renumbered.answers_actual_iff`).
-/

namespace MuTypes

open NameSupply
open Ty (Answers AnswersWithin renameRow renameVariants)

/-- One of the two is the other one with drawn names shifted, of which none is in the list. -/
def Renumbered {α : Type} (names : List Name) (r : (Name → Name) → α → α) (a a' : α) : Prop :=
  ∃ k d f, Shifts k d f ∧ (∀ n ∈ names, (⟨k⟩ : NameSupply).AheadOf n) ∧ (a' = r f a ∨ a = r f a')

/-! ### Types that differ in numbers -/

section Renumbered

variable {names : List Name} {t t' u : Ty} {b : Bool}

theorem Renumbered.bare_eq (h : Renumbered names Ty.rename t t') (ht : ∀ x, t.mentions x = true → x ∈ names)
    (ht' : ∀ x, t'.mentions x = true → x ∈ names) : t'.bare = t.bare := by
  obtain ⟨k, d, f, hf, hnames, rfl | rfl⟩ := h
  · exact Ty.bare_rename_of_kept hf.injective fun x hx => hf.other x (hnames x (ht x hx))
  · exact (Ty.bare_rename_of_kept hf.injective fun x hx => hf.other x (hnames x (ht' x hx))).symm

/-- What holds just as well after a shift holds of both or of neither. -/
theorem Renumbered.congr {α : Type} {r : (Name → Name) → α → α} {P : α → Prop} {a a' : α} (h : Renumbered names r a a')
    (hP : ∀ ⦃k d f⦄, Shifts k d f → (∀ n ∈ names, (⟨k⟩ : NameSupply).AheadOf n) → ∀ a, P (r f a) ↔ P a) :
    P a' ↔ P a := by
  obtain ⟨k, d, f, hf, hnames, rfl | rfl⟩ := h
  · exact hP hf hnames a
  · exact (hP hf hnames a').symm

theorem Renumbered.answers_expected_iff (h : Renumbered names Ty.rename t t') :
    Answers names t' u b ↔ Answers names t u b :=
  h.congr (P := fun t => Answers names t u b) fun _ _ _ hf hnames _ => Ty.answers_rename_expected_iff hf hnames

theorem Renumbered.answers_actual_iff (h : Renumbered names Ty.rename t t') :
    Answers names u t' b ↔ Answers names u t b :=
  h.congr (P := fun t => Answers names u t b) fun _ _ _ hf hnames _ => Ty.answers_rename_actual_iff hf hnames

theorem Renumbered.answersWithin_expected_iff (h : Renumbered names Ty.rename t t') {fuel : Nat} :
    AnswersWithin fuel names t' u b ↔ AnswersWithin fuel names t u b :=
  h.congr (P := fun t => AnswersWithin fuel names t u b) fun _ _ _ hf hnames _ =>
    Ty.answersWithin_rename_expected_iff hf hnames

theorem Renumbered.answersWithin_actual_iff (h : Renumbered names Ty.rename t t') {fuel : Nat} :
    AnswersWithin fuel names u t' b ↔ AnswersWithin fuel names u t b :=
  h.congr (P := fun t => AnswersWithin fuel names u t b) fun _ _ _ hf hnames _ =>
    Ty.answersWithin_rename_actual_iff hf hnames

end Renumbered

/-! ### Two runs -/

/-- What commutes with every shift of names that the supplies are ahead of gives the same twice, up to numbers. -/
theorem Commutes.again {α : Type} {m : CheckM α} {r : (Name → Name) → α → α} {names : List Name}
    {P : NameSupply → Prop} (hnames : ∀ s, P s → ∀ n ∈ names, s.AheadOf n)
    (h : ∀ k d f, Shifts k d f → P ⟨k⟩ → Commutes k d f (r f) m m) {s s' s₁ : NameSupply} (hs : P s) (hs' : P s')
    {a : α} (ha : m.run.run s = (.ok a, s₁)) :
    ∃ a' s₁', m.run.run s' = (.ok a', s₁') ∧ Renumbered names r a a' := by
  have hpair : ∀ k d, P ⟨k⟩ → ∃ f, Shifts k d f ∧
      OutcomesRelated (fun a a' => a' = r f a) (Failure.Renamed f) (m.run.run ⟨k⟩).1 (m.run.run ⟨k + d⟩).1 :=
    fun k d hk => ⟨_, shifts_renumber k d, (h k d _ (shifts_renumber k d) hk k (Nat.le_refl k)).1⟩
  obtain ⟨n⟩ := s
  obtain ⟨n'⟩ := s'
  rcases Nat.le_total n n' with hle | hle
  · obtain ⟨d, rfl⟩ := Nat.exists_eq_add_of_le hle
    obtain ⟨f, hf, hrelated⟩ := hpair n d hs
    rw [ha] at hrelated
    obtain ⟨a', ha', he⟩ := hrelated.of_ok
    exact ⟨a', _, Prod.ext ha' rfl, n, d, f, hf, hnames _ hs, .inl he⟩
  · obtain ⟨d, rfl⟩ := Nat.exists_eq_add_of_le hle
    obtain ⟨f, hf, hrelated⟩ := hpair n' d hs'
    rw [ha] at hrelated
    obtain ⟨a', ha', he⟩ := hrelated.of_ok_right
    exact ⟨a', _, Prod.ext ha' rfl, n', d, f, hf, hnames _ hs', .inr he⟩

section Again

variable {cx : Context} {scope : Scope} {env : Env} {e : Expr} {type : TyExpr} {s s' s₁ : NameSupply}

/-- The supply is ahead of the names in scope and of those that the annotation and the aliases bind. -/
structure Resolvable (cx : Context) (scope : Scope) (type : TyExpr) (s : NameSupply) : Prop where
  scope : ∀ n ∈ scope.meanings, s.AheadOf n
  aliases : s.AheadOfAliases cx.aliases
  binders : s.AheadOfTyExpr type

theorem resolvable_of_unnumbered (haliases : cx.aliases.Unnumbered) (htype : type.Unnumbered)
    (hs : ∀ n ∈ scope.meanings, s.AheadOf n) : Resolvable cx scope type s :=
  ⟨hs, aheadOfAliases_of_unnumbered haliases s, aheadOfTyExpr_of_unnumbered htype s⟩

variable {k d : Nat} {f : Name → Name}

theorem keptBy_of_ahead (hf : Shifts k d f) (h : (⟨k⟩ : NameSupply).AheadOfAliases cx.aliases) :
    cx.aliases.KeptBy f :=
  fun a ha => ⟨hf.other _ (h a ha).1, fun n hn => hf.other n ((h a ha).2 n hn)⟩

private theorem scope_rename_eq_self (hf : Shifts k d f) (h : ∀ n ∈ scope.meanings, (⟨k⟩ : NameSupply).AheadOf n) :
    scope.rename f = scope := by
  refine (List.map_congr_left fun v hv => ?_).trans (List.map_id scope)
  rw [hf.other v.meaning (h v.meaning (List.mem_map_of_mem hv))]
  rfl

private theorem env_rename_eq_self (hf : Shifts k d f) (h : ∀ p ∈ env.bindings, (⟨k⟩ : NameSupply).AheadOfTy p.2) :
    env.rename f = env := by
  have hbindings : renameRow f env.bindings = env.bindings := by
    rw [Ty.renameRow_eq_map]
    exact map_snd_eq_self fun p hp => Ty.rename_eq_self fun x hx => hf.other x (h p hp x hx)
  rw [Env.rename, hbindings]

private theorem Resolvable.commutes (hf : Shifts k d f) (h : Resolvable cx scope type ⟨k⟩) :
    Commutes k d f (Ty.rename f) (cx.resolve scope type) (cx.resolve scope type) := by
  have hresolve := TyExpr.resolve_commutes hf (keptBy_of_ahead hf h.aliases) scope fun n hn =>
    hf.other n (h.binders n hn)
  rwa [scope_rename_eq_self hf h.scope] at hresolve

/-- All names stay that both supplies are ahead of. -/
theorem resolve_again_keeping {names : List Name} (hs : Resolvable cx scope type s)
    (hs' : Resolvable cx scope type s') (hnames : ∀ n ∈ names, s.AheadOf n) (hnames' : ∀ n ∈ names, s'.AheadOf n)
    {t : Ty} (ht : (cx.resolve scope type).run.run s = (.ok t, s₁)) :
    ∃ t' s₁', (cx.resolve scope type).run.run s' = (.ok t', s₁') ∧ Renumbered names Ty.rename t t' :=
  Commutes.again (P := fun s => Resolvable cx scope type s ∧ ∀ n ∈ names, s.AheadOf n) (fun _ h => h.2)
    (fun _ _ _ hf h => h.1.commutes hf) ⟨hs, hnames⟩ ⟨hs', hnames'⟩ ht

theorem resolve_again (hs : Resolvable cx scope type s) (hs' : Resolvable cx scope type s') {t : Ty}
    (ht : (cx.resolve scope type).run.run s = (.ok t, s₁)) :
    ∃ t' s₁', (cx.resolve scope type).run.run s' = (.ok t', s₁') ∧ Renumbered scope.meanings Ty.rename t t' :=
  resolve_again_keeping hs hs' hs.scope hs'.scope ht

/-- The variants of the union that an annotation unrolls to. -/
theorem resolveUnion_again (span : Span) (hs : Resolvable cx scope type s) (hs' : Resolvable cx scope type s')
    {vs : Variants} (hvs : (cx.resolve scope type >>= fun t => t.expectUnion span).run.run s = (.ok vs, s₁)) :
    ∃ vs' s₁', (cx.resolve scope type >>= fun t => t.expectUnion span).run.run s' = (.ok vs', s₁') ∧
      Renumbered scope.meanings renameVariants vs vs' :=
  Commutes.again (fun _ h => h.scope)
    (fun _ _ _ hf h => (h.commutes hf).bind fun t => expectUnion_commutes hf t span) hs hs' hvs

theorem Call.outcome_again (hs : Call.Proper cx ⟨scope, env, e, s⟩) (hs' : Call.Proper cx ⟨scope, env, e, s'⟩) {t : Ty}
    (ht : (e.typeIn cx scope env).run.run s = (.ok t, s₁)) :
    ∃ t' s₁', (e.typeIn cx scope env).run.run s' = (.ok t', s₁') ∧ Renumbered scope.meanings Ty.rename t t' := by
  refine Commutes.again (P := fun s => Call.Proper cx ⟨scope, env, e, s⟩) (fun _ h => h.1.scope)
    (fun k d f hf h => ?_) hs hs' ht
  have htype := Expr.typeIn_commutes hf (keptBy_of_ahead hf h.1.aliases) (h.2.mono fun n hn => hf.other n hn) scope env
  rwa [scope_rename_eq_self hf h.1.scope, env_rename_eq_self hf fun p hp => (h.1.env p hp).ahead] at htype

end Again

end MuTypes
