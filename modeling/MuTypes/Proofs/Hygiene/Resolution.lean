import MuTypes.Proofs.Hygiene.Annotations

/-!
# What annotations with renamed binders mean

Binders of an annotation and of the bodies of aliases are renamed from a name `n` to a name `m`, neither of which is an
alias's.  Then what the annotation means has the same nameless form as before (`resolve_renamed`).

The two resolutions draw different names, since a binder that would capture something gets a name with a number, so
they are compared by the nameless forms below the variables in scope (`Mirrors`).  An active alias is a variable in the
types on both sides, and it is bound at the same place in both, or in neither, because no renamed binder has its name.
-/

namespace MuTypes

open NameSupply

/-! ### Resolutions that mirror each other -/

/-- When the first check gives a result, started from the first supply, the second one gives one that is related,
started from the second supply, and the supplies have not gone back. -/
def Mirrors {α α' : Type} (s s' : NameSupply) (m : CheckM α) (m' : CheckM α')
    (R : α → α' → NameSupply → NameSupply → Prop) : Prop :=
  ∀ a t, m.run.run s = (.ok a, t) → ∃ a' t', m'.run.run s' = (.ok a', t') ∧ s ≤ t ∧ s' ≤ t' ∧ R a a' t t'

namespace Mirrors

variable {α α' β β' : Type} {s s' : NameSupply} {m : CheckM α} {m' : CheckM α'} {g : α → CheckM β} {g' : α' → CheckM β'}
  {R : α → α' → NameSupply → NameSupply → Prop} {S : β → β' → NameSupply → NameSupply → Prop}

theorem pure {a : α} {a' : α'} (h : R a a' s s') :
    Mirrors s s' (Pure.pure a : CheckM α) (Pure.pure a' : CheckM α') R := by
  rintro _ _ ⟨⟩
  exact ⟨a', s', rfl, le_refl s, le_refl s', h⟩

theorem violation (v : Violation) (span : Span) (m' : CheckM α') :
    Mirrors s s' (CheckM.violation v span : CheckM α) m' R := by
  rintro _ _ ⟨⟩

theorem bind (hm : Mirrors s s' m m' R)
    (hg : ∀ a a' t t', s ≤ t → s' ≤ t' → R a a' t t' → Mirrors t t' (g a) (g' a') S) :
    Mirrors s s' (m >>= g) (m' >>= g') S := by
  intro b u hb
  obtain ⟨a, t, hrun, hb⟩ := run_bind_eq_ok hb
  obtain ⟨a', t', hrun', ht, ht', hR⟩ := hm a t hrun
  obtain ⟨b', u', hb', hu, hu', hS⟩ := hg a a' t t' ht ht' hR b u hb
  exact ⟨b', u', (run_bind_of_ok hrun' g').trans hb', le_trans ht hu, le_trans ht' hu', hS⟩

theorem mono {R' : α → α' → NameSupply → NameSupply → Prop} (h : Mirrors s s' m m' R)
    (hR : ∀ a a' t t', R a a' t t' → R' a a' t t') : Mirrors s s' m m' R' := by
  intro a t ha
  obtain ⟨a', t', ha', ht, ht', hr⟩ := h a t ha
  exact ⟨a', t', ha', ht, ht', hR a a' t t' hr⟩

/-- Draws that have properties each on their own. -/
theorem lift {m : SupplyM α} {m' : SupplyM α'} {P : α → NameSupply → Prop} {P' : α' → NameSupply → Prop}
    (h : s.Yields m P) (h' : s'.Yields m' P') :
    Mirrors s s' (liftM m : CheckM α) (liftM m' : CheckM α') fun a a' t t' => P a t ∧ P' a' t' := by
  rintro _ _ ⟨⟩
  exact ⟨_, _, rfl, h.1, h'.1, h.2, h'.2⟩

/-- Comparisons that have results with properties each on their own. -/
theorem compare {m : CompareM α} {m' : CompareM α'} {P : α → NameSupply → Prop} {P' : α' → NameSupply → Prop}
    (h : s.Returns m P) (h' : s'.Returns m' P') :
    Mirrors s s' (liftM m : CheckM α) (liftM m' : CheckM α') fun a a' t t' => P a t ∧ P' a' t' := by
  have hrun : ∀ {γ : Type} (m : CompareM γ) (s : NameSupply), (liftM m : CheckM γ).run.run s =
      ((m.run.run s).1.mapError Failure.halt, (m.run.run s).2) := fun _ _ => rfl
  obtain ⟨hs, b, hb, hP⟩ := h
  obtain ⟨hs', b', hb', hP'⟩ := h'
  intro a t ha
  rw [hrun, hb] at ha
  obtain ⟨⟩ := ha
  exact ⟨b', _, by rw [hrun, hb']; rfl, hs, hs', hP, hP'⟩

/-- What holds of the results of each check holds of the related results. -/
theorem and_checks {P : α → NameSupply → Prop} {P' : α' → NameSupply → Prop} (h : Mirrors s s' m m' R)
    (hm : s.Checks m P) (hm' : s'.Checks m' P') :
    Mirrors s s' m m' fun a a' t t' => R a a' t t' ∧ P a t ∧ P' a' t' := by
  intro a t ha
  obtain ⟨a', t', ha', ht, ht', hR⟩ := h a t ha
  have hP := hm.2.1 a (congrArg Prod.fst ha)
  have hP' := hm'.2.1 a' (congrArg Prod.fst ha')
  have hrun : (m.run.run s).2 = t := congrArg Prod.snd ha
  have hrun' : (m'.run.run s').2 = t' := congrArg Prod.snd ha'
  exact ⟨a', t', ha', ht, ht', hR, hrun ▸ hP, hrun' ▸ hP'⟩

end Mirrors

section Parts

variable {s s' : NameSupply}

theorem expectDistinct_mirrors {ns ns' : List Name} (h : ns.Nodup → ns'.Nodup) (span span' : Span) :
    Mirrors s s' (expectDistinct ns span) (expectDistinct ns' span') fun _ _ _ _ => True := by
  unfold expectDistinct
  split
  · exact .violation _ _ _
  · rename_i hd
    have hd' := h (firstRepeat_eq_none_iff.1 hd).1
    rw [firstRepeat_eq_none_iff.2 ⟨hd', by simp⟩]
    exact .pure trivial

theorem recursive_mirrors {b b' : Name} {t t' : Ty} {ctx ctx' : List Name}
    (h : t.nameless (b :: ctx) = t'.nameless (b' :: ctx')) (span span' : Span) :
    Mirrors s s' (recursive b t span) (recursive b' t' span') fun u u' _ _ => u.nameless ctx = u'.nameless ctx' := by
  unfold recursive
  split
  · rename_i hc
    have hc' : (Ty.mu b' t').isContractive = true := by
      rw [← Ty.guarded_nameless_iff_isContractive, ← h]
      exact (Ty.guarded_nameless_iff_isContractive ..).2 hc
    rw [if_pos hc']
    exact .pure (congrArg _ h)
  · exact .violation _ _ _

end Parts

/-! ### Annotations -/

/-- The expansions are those of aliases with renamed binders: arguments that look alike give types that look alike
wherever the names of aliases are bound at the same places. -/
structure Expansion.Renamed (n m : Name) (x x' : Expansion) : Prop where
  inOrder : ∀ s, x.InOrder s
  inOrder' : ∀ s, x'.InOrder s
  active : x'.active = x.active
  aliases : List.Forall₂ (Alias.Renamed n m) x.aliases x'.aliases
  steady : ∀ a ∈ x.aliases, Steady n m a.name
  use : ∀ a ∈ x.aliases, ∀ a' ∈ x'.aliases, a.Renamed n m a' → ∀ args args' ctx ctx' s s',
    args.length = (a.params.getD []).length → (∀ r ∈ args, r.Spells r.bare s) → (∀ r ∈ args', r.Spells r.bare s') →
    args.map (·.nameless ctx) = args'.map (·.nameless ctx') → (∀ y, Steady n m y → place ctx y = place ctx' y) →
    ∀ span span', Mirrors s s' (x.use a args span) (x'.use a' args' span')
      fun t t' _ _ => t.nameless ctx = t'.nameless ctx'

theorem Aliases.find?_renamed {n m : Name} {aliases aliases' : Aliases}
    (h : List.Forall₂ (Alias.Renamed n m) aliases aliases') {y : Name} {a : Alias} (ha : aliases.find? y = some a) :
    ∃ a', aliases'.find? y = some a' ∧ a.Renamed n m a' := by
  induction h with
  | nil => cases ha
  | @cons b b' aliases aliases' hb _ ih =>
    by_cases hy : b.name = y
    · have he : b = a := by simpa [Aliases.find?, List.find?_cons, hy] using ha
      exact ⟨b', by simp [Aliases.find?, hb.name, hy], he ▸ hb⟩
    · have htail : Aliases.find? aliases y = some a := by simpa [Aliases.find?, List.find?_cons, hy] using ha
      obtain ⟨a', ha', hren⟩ := ih htail
      refine ⟨a', ?_, hren⟩
      rw [← ha']
      simp [Aliases.find?, hb.name, hy]

section Resolution

variable {n m : Name} {x x' : Expansion} (hx : x.Renamed n m x')
include hx

theorem Expansion.plain_mirrors {scope scope' : Scope} {s s' : NameSupply} (hscope : scope.Renamed n m scope' s s')
    {y y' : Name} (hy : SameBinder scope.names scope'.names y y') (span span' : Span) :
    Mirrors s s' (x.plain scope span y) (x'.plain scope' span' y')
      fun t t' _ _ => t.nameless scope.meanings = t'.nameless scope'.meanings := by
  unfold plain
  cases hv : scope.find? y with
  | some v =>
    obtain ⟨v', hv', hleaf⟩ := hscope.find? hy hv
    rw [hv']
    exact .pure hleaf
  | none =>
    obtain ⟨rfl, hv'⟩ := hy.find?_eq_none hv
    rw [hv']
    dsimp only
    cases ha : x.aliases.find? y' with
    | none => exact .violation _ _ _
    | some a =>
      obtain ⟨a', ha', hren⟩ := Aliases.find?_renamed hx.aliases ha
      have hmem := Aliases.find?_mem ha
      have hsteady : Steady n m y' := Aliases.find?_name ha ▸ hx.steady a hmem
      rw [ha', hx.active]
      dsimp only
      rw [hren.params]
      cases hparams : a.params with
      | some ps => exact .violation _ _ _
      | none =>
        dsimp only
        by_cases hactive : y' ∈ x.active
        · rw [if_pos hactive, if_pos hactive]
          -- the reference is a variable with the name of the alias, which is bound at the same place in both scopes
          refine .pure ?_
          rw [Ty.nameless_var, Ty.nameless_var, leaf, leaf, hscope.place_steady hsteady]
        · rw [if_neg hactive, if_neg hactive]
          exact hx.use a hmem a' (Aliases.find?_mem ha') hren [] [] scope.meanings scope'.meanings s s'
            (by simp [hparams]) (by simp) (by simp) rfl (fun z hz => hscope.place_steady hz) span span'

theorem Expansion.generic_mirrors {scope scope' : Scope} {s s' : NameSupply} {y y' : Name}
    (hy : SameBinder scope.names scope'.names y y') (span span' : Span) (k : Nat) :
    Mirrors s s' (x.generic scope span y k) (x'.generic scope' span' y' k)
      fun a a' _ _ => a ∈ x.aliases ∧ a' ∈ x'.aliases ∧ a.Renamed n m a' ∧ (a.params.getD []).length = k := by
  unfold generic
  cases hv : scope.find? y with
  | some v => exact .violation _ _ _
  | none =>
    obtain ⟨rfl, hv'⟩ := hy.find?_eq_none hv
    rw [hv']
    simp only [Option.isSome_none, Bool.false_eq_true, if_false]
    cases ha : x.aliases.find? y' with
    | none => exact .violation _ _ _
    | some a =>
      obtain ⟨a', ha', hren⟩ := Aliases.find?_renamed hx.aliases ha
      rw [ha', hx.active]
      dsimp only
      by_cases hactive : y' ∈ x.active
      · rw [if_pos hactive]
        exact .violation _ _ _
      · rw [if_neg hactive, if_neg hactive, hren.params]
        cases hparams : a.params with
        | none => exact .violation _ _ _
        | some ps =>
          dsimp only
          by_cases hl : ps.length = k
          · rw [if_pos hl, if_pos hl]
            exact .pure ⟨Aliases.find?_mem ha, Aliases.find?_mem ha', hren, by simp [hparams, hl]⟩
          · rw [if_neg hl]
            exact .violation _ _ _

end Resolution

theorem TyExpr.RenamedArgs.length_eq {n m : Name} {ns ns' : List Name} : ∀ {es es' : List TyExpr},
    TyExpr.RenamedArgs n m ns ns' es es' → es'.length = es.length
  | [], _, h => by cases h; rfl
  | _ :: _, _, h => by
    cases h with
    | cons _ hes => exact congrArg (· + 1) hes.length_eq

namespace TyExpr

variable {n m : Name}

mutual

/-- What an annotation means looks like what the one with renamed binders means. -/
theorem resolveIn_mirrors {x x' : Expansion} (hx : x.Renamed n m x') {scope scope' : Scope} {s s' : NameSupply}
    (hscope : scope.Renamed n m scope' s s') :
    ∀ e e' : TyExpr, e.Renamed n m scope.names scope'.names e' → e.Unnumbered → e'.Unnumbered →
      Mirrors s s' (e.resolveIn x scope) (e'.resolveIn x' scope')
        fun t t' _ _ => t.nameless scope.meanings = t'.nameless scope'.meanings
  | .mk span (.prim p), _, h, _, _ => by
    cases h with
    | prim => exact .pure rfl
  | .mk span (.container k e), _, h, he, he' => by
    cases h with
    | container h =>
      exact (resolveIn_mirrors hx hscope e _ h he he').bind fun t t' _ _ _ _ ht => .pure (congrArg _ ht)
  | .mk span (.func ps r), _, h, he, he' => by
    cases h with
    | func hps hr =>
      obtain ⟨heps, her⟩ := List.forall_mem_append.1 he
      obtain ⟨heps', her'⟩ := List.forall_mem_append.1 he'
      refine (resolveParamRow_mirrors hx hscope ps _ hps heps heps').bind fun row row' t t' ht ht' hrow => ?_
      refine (resolveIn_mirrors hx (hscope.mono ht ht') r _ hr her her').bind fun u u' _ _ _ _ hu => .pure ?_
      rw [Ty.nameless_func, Ty.nameless_func, hrow, hu]
  | .mk span (.object ps), _, h, he, he' => by
    cases h with
    | object hps =>
      refine (resolveRow_mirrors hx hscope span _ [] ps _ hps he he').bind fun row row' _ _ _ _ hrow => .pure ?_
      rw [Ty.nameless_object, Ty.nameless_object, hrow]
  | .mk span (.union vs), _, h, he, he' => by
    cases h with
    | union hvs =>
      refine (resolveVariants_mirrors hx hscope span _ [] vs _ hvs he he').bind fun ws ws' _ _ _ _ hws => .pure ?_
      rw [Ty.nameless_union, Ty.nameless_union, hws]
  | .mk span (.mu b e), _, h, he, he' => by
    cases h with
    | mu hb h =>
      obtain ⟨hub, he⟩ := List.forall_mem_cons.1 he
      obtain ⟨hub', he'⟩ := List.forall_mem_cons.1 he'
      simp only [resolveIn, resolveForm]
      by_cases hmu : scope.hasMu b = true
      · rw [if_pos hmu]
        exact .violation _ _ _
      · rw [if_neg hmu, if_neg (mt (hscope.hasMu hb) hmu)]
        have hinside := hscope.enter hb hub hub' true
        exact (resolveIn_mirrors hx hinside e _ h he he').bind fun t t' _ _ _ _ ht => recursive_mirrors ht _ _
  | .mk span (.generic bs e), _, h, he, he' => by
    cases h with
    | @generic _ _ _ _ _ bs' _ e' hbs h =>
      obtain ⟨hubs, he⟩ := List.forall_mem_append.1 he
      obtain ⟨hubs', he'⟩ := List.forall_mem_append.1 he'
      simp only [resolveIn, resolveForm]
      refine (expectDistinct_mirrors (RenamedBinder.nodup hbs) _ _).bind fun _ _ t t' ht ht' _ => ?_
      have hinside := (hscope.mono ht ht').enterParams hbs hubs hubs'
      rw [← Scope.names_enterParams scope (rfl : bs.length = bs.length),
        ← Scope.names_enterParams scope' (rfl : bs'.length = bs'.length)] at h
      refine (resolveIn_mirrors hx hinside e e' h he he').bind fun u u' _ _ _ _ hu => .pure ?_
      rw [Scope.meanings_enterParams scope rfl, Scope.meanings_enterParams scope' rfl] at hu
      rw [Ty.nameless_generic, Ty.nameless_generic, hu, hbs.length_eq]
  | .mk span (.ref y), _, h, _, _ => by
    cases h with
    | ref hy => exact Expansion.plain_mirrors hx hscope hy _ _
  | .mk span (.app y es), _, h, he, he' => by
    cases h with
    | @app _ _ _ _ _ _ _ es' hy hes =>
      simp only [resolveIn, resolveForm]
      rw [hes.length_eq]
      refine (Expansion.generic_mirrors hx hy _ _ es.length).bind fun a a' t t' ht ht' ha => ?_
      obtain ⟨hmem, hmem', hren, hl⟩ := ha
      have hscope₁ := hscope.mono ht ht'
      -- the arguments look alike, and on either side they are in order, so they can be put into the bodies
      have hargs := (resolveArgs_mirrors hx hscope₁ es es' hes he he').and_checks
        (resolveArgs_inOrder (hx.inOrder t) hscope₁.ahead es fun b hb => aheadOf_of_at_sign_not_mem (he b hb) t)
        (resolveArgs_inOrder (hx.inOrder' t') hscope₁.ahead' es' fun b hb => aheadOf_of_at_sign_not_mem (he' b hb) t')
      refine hargs.bind fun args args' u u' _ _ hq => ?_
      obtain ⟨hsame, hin, hin'⟩ := hq
      exact hx.use a hmem a' hmem' hren args args' _ _ u u' (hin.1.trans hl.symm) (fun r hr => (hin.2 r hr).spells)
        (fun r hr => (hin'.2 r hr).spells) hsame (fun z hz => hscope.place_steady hz) _ _
termination_by structural e => e

theorem resolveParamRow_mirrors {x x' : Expansion} (hx : x.Renamed n m x') {scope scope' : Scope} {s s' : NameSupply}
    (hscope : scope.Renamed n m scope' s s') :
    ∀ ps ps' : List (Name × TyExpr), RenamedRow n m scope.names scope'.names ps ps' →
      (∀ b ∈ bindersRow ps, '@' ∉ b.toList) → (∀ b ∈ bindersRow ps', '@' ∉ b.toList) →
      Mirrors s s' (resolveParamRow x scope ps) (resolveParamRow x' scope' ps') fun row row' _ _ =>
        (row.map fun p => (p.1, p.2.nameless scope.meanings)) = row'.map fun p => (p.1, p.2.nameless scope'.meanings)
  | [], _, h, _, _ => by
    cases h with
    | nil => exact .pure rfl
  | (l, e) :: ps, _, h, he, he' => by
    cases h with
    | cons h hps =>
      obtain ⟨he, heps⟩ := List.forall_mem_append.1 he
      obtain ⟨he', heps'⟩ := List.forall_mem_append.1 he'
      refine (resolveIn_mirrors hx hscope e _ h he he').bind fun t t' _ _ hs hs' ht => ?_
      refine (resolveParamRow_mirrors hx (hscope.mono hs hs') ps _ hps heps heps').bind fun row row' _ _ _ _ hrow =>
        .pure ?_
      rw [List.map_cons, List.map_cons, hrow, ht]
termination_by structural ps => ps

theorem resolveRow_mirrors {x x' : Expansion} (hx : x.Renamed n m x') {scope scope' : Scope} {s s' : NameSupply}
    (hscope : scope.Renamed n m scope' s s') (span span' : Span) (seen : List Name) :
    ∀ ps ps' : List (Name × TyExpr), RenamedRow n m scope.names scope'.names ps ps' →
      (∀ b ∈ bindersRow ps, '@' ∉ b.toList) → (∀ b ∈ bindersRow ps', '@' ∉ b.toList) →
      Mirrors s s' (resolveRow x scope span seen ps) (resolveRow x' scope' span' seen ps') fun row row' _ _ =>
        (row.map fun p => (p.1, p.2.nameless scope.meanings)) = row'.map fun p => (p.1, p.2.nameless scope'.meanings)
  | [], _, h, _, _ => by
    cases h with
    | nil => exact .pure rfl
  | (l, e) :: ps, _, h, he, he' => by
    cases h with
    | cons h hps =>
      obtain ⟨he, heps⟩ := List.forall_mem_append.1 he
      obtain ⟨he', heps'⟩ := List.forall_mem_append.1 he'
      unfold resolveRow
      by_cases hl : l ∈ seen
      · rw [if_pos hl]
        exact .violation _ _ _
      · rw [if_neg hl, if_neg hl]
        refine (resolveIn_mirrors hx hscope e _ h he he').bind fun t t' _ _ hs hs' ht => ?_
        refine (resolveRow_mirrors hx (hscope.mono hs hs') span span' (l :: seen) ps _ hps heps heps').bind
          fun row row' _ _ _ _ hrow => .pure ?_
        rw [List.map_cons, List.map_cons, hrow, ht]
termination_by structural ps => ps

theorem resolveVariants_mirrors {x x' : Expansion} (hx : x.Renamed n m x') {scope scope' : Scope} {s s' : NameSupply}
    (hscope : scope.Renamed n m scope' s s') (span span' : Span) (seen : List Name) :
    ∀ vs vs' : List (Name × List (Name × TyExpr)), RenamedVariants n m scope.names scope'.names vs vs' →
      (∀ b ∈ bindersVariants vs, '@' ∉ b.toList) → (∀ b ∈ bindersVariants vs', '@' ∉ b.toList) →
      Mirrors s s' (resolveVariants x scope span seen vs) (resolveVariants x' scope' span' seen vs') fun ws ws' _ _ =>
        (ws.map fun w => (w.1, w.2.map fun p => (p.1, p.2.nameless scope.meanings))) =
          ws'.map fun w => (w.1, w.2.map fun p => (p.1, p.2.nameless scope'.meanings))
  | [], _, h, _, _ => by
    cases h with
    | nil => exact .pure rfl
  | (l, ps) :: vs, _, h, he, he' => by
    cases h with
    | cons hps hvs =>
      obtain ⟨heps, hevs⟩ := List.forall_mem_append.1 he
      obtain ⟨heps', hevs'⟩ := List.forall_mem_append.1 he'
      unfold resolveVariants
      by_cases hl : l ∈ seen
      · rw [if_pos hl]
        exact .violation _ _ _
      · rw [if_neg hl, if_neg hl]
        refine (resolveRow_mirrors hx hscope span span' [] ps _ hps heps heps').bind fun row row' _ _ hs hs' hrow => ?_
        refine (resolveVariants_mirrors hx (hscope.mono hs hs') span span' (l :: seen) vs _ hvs hevs hevs').bind
          fun ws ws' _ _ _ _ hws => .pure ?_
        rw [List.map_cons, List.map_cons, hws, hrow]
termination_by structural vs => vs

theorem resolveArgs_mirrors {x x' : Expansion} (hx : x.Renamed n m x') {scope scope' : Scope} {s s' : NameSupply}
    (hscope : scope.Renamed n m scope' s s') :
    ∀ es es' : List TyExpr, RenamedArgs n m scope.names scope'.names es es' →
      (∀ b ∈ bindersArgs es, '@' ∉ b.toList) → (∀ b ∈ bindersArgs es', '@' ∉ b.toList) →
      Mirrors s s' (resolveArgs x scope es) (resolveArgs x' scope' es') fun ts ts' _ _ =>
        ts.map (·.nameless scope.meanings) = ts'.map (·.nameless scope'.meanings)
  | [], _, h, _, _ => by
    cases h with
    | nil => exact .pure rfl
  | e :: es, _, h, he, he' => by
    cases h with
    | cons h hes =>
      obtain ⟨he, hees⟩ := List.forall_mem_append.1 he
      obtain ⟨he', hees'⟩ := List.forall_mem_append.1 he'
      refine (resolveIn_mirrors hx hscope e _ h he he').bind fun t t' _ _ hs hs' ht => ?_
      refine (resolveArgs_mirrors hx (hscope.mono hs hs') es _ hes hees hees').bind fun ts ts' _ _ _ _ hts => .pure ?_
      rw [List.map_cons, List.map_cons, hts, ht]
termination_by structural es => es

end

end TyExpr

/-! ### Aliases -/

theorem drawAll_drawn (s : NameSupply) (bases : List Name) :
    s.Yields (drawAll bases) fun vars t => vars.length = bases.length ∧ Scope.Drawn [] vars t ∧
      ∀ x ∈ vars, ¬ s.AheadOf x := by
  induction bases generalizing s with
  | nil => exact .pure ⟨rfl, ⟨List.nodup_nil, by simp, by simp, by simp⟩, by simp⟩
  | cons b bases ih =>
    have hdraw : s.Yields (draw b) fun x t => t.AheadOf x ∧ ¬ s.AheadOf x :=
      .draw ⟨aheadOf_numbered (Nat.lt_succ_self s.next) b, fun h => h.ne_drawn b rfl⟩
    rw [drawAll, List.mapM_cons]
    refine hdraw.bind fun x t hst hx => (ih t).bind fun vars u htu hvars => .pure ?_
    obtain ⟨hl, hd, hnew⟩ := hvars
    have hall : ∀ y ∈ x :: vars, ¬ s.AheadOf y :=
      List.forall_mem_cons.2 ⟨hx.2, fun y hy hs => hnew y hy (hs.mono hst)⟩
    refine ⟨congrArg (· + 1) hl, ⟨List.nodup_cons.2 ⟨fun hm => hnew x hm hx.1, hd.nodup⟩, fun y hy => ?_, ?_, ?_⟩, hall⟩
    · by_contra hat
      exact hall y hy (aheadOf_of_at_sign_not_mem hat s)
    · simp [Scope.meanings]
    · exact List.forall_mem_cons.2 ⟨hx.1.mono htu, hd.ahead⟩

section Expansions

variable {n m : Name} {aliases aliases' : Aliases}

/-- To use an alias is to put the arguments into its body, which is the same nameless form for both, and to close what
that gives.  The labels of the body are active aliases. -/
theorem use_opens {depth : Nat} {active : List Name} {a a' : Alias}
    (hinside : (expansion aliases depth (a.name :: active)).Renamed n m (expansion aliases' depth (a.name :: active)))
    (hren : a.Renamed n m a') (hu : a.body.Unnumbered) (hu' : a'.body.Unnumbered) {args args' : List Ty}
    {s s' : NameSupply} (hl : args.length = (a.params.getD []).length) (hl' : args'.length = (a.params.getD []).length)
    (hargs : ∀ r ∈ args, r.Spells r.bare s) (hargs' : ∀ r ∈ args', r.Spells r.bare s') {R : Ty → Ty → Prop}
    {span span' : Span}
    (hclose : ∀ (b : Nameless Name) (t t' : Ty) (u u' : NameSupply), (∀ y, b.Has y → y ∈ a.name :: active) →
      t.bare = b.openAt 0 (args.map Ty.bare).reverse → t'.bare = b.openAt 0 (args'.map Ty.bare).reverse →
      Mirrors u u' (if t.mentions a.name then recursive a.name t span else return t)
        (if t'.mentions a.name then recursive a.name t' span' else return t') fun v v' _ _ => R v v') :
    Mirrors s s' ((expansion aliases (depth + 1) active).use a args span)
      ((expansion aliases' (depth + 1) active).use a' args' span') fun t t' _ _ => R t t' := by
  simp only [expansion, hren.params, hren.name]
  refine (expectDistinct_mirrors id _ _).bind fun _ _ s₁ s₁' h₁ h₁' _ => ?_
  refine (Mirrors.lift (drawAll_drawn s₁ _) (drawAll_drawn s₁' _)).bind fun vars vars' s₂ s₂' h₂ h₂' hq => ?_
  obtain ⟨⟨hvl, hvd, hvn⟩, hvl', hvd', hvn'⟩ := hq
  have hscope : Scope.Renamed n m (Scope.enterParams [] (a.params.getD []) vars)
      (Scope.enterParams [] (a.params.getD []) vars') s₂ s₂' :=
    Scope.Renamed.empty.enterDrawn hren.kept hvl hvl' hvd hvd'
  have hbody : a.body.Renamed n m (Scope.enterParams [] (a.params.getD []) vars).names
      (Scope.enterParams [] (a.params.getD []) vars').names a'.body := by
    rw [Scope.names_enterParams [] hvl, Scope.names_enterParams [] hvl', Scope.names, List.map_nil, List.append_nil]
    exact hren.body
  have hresolved := (TyExpr.resolveIn_mirrors hinside hscope a.body a'.body hbody hu hu').and_checks
    (TyExpr.resolveIn_inOrder (hinside.inOrder s₂) hscope.ahead a.body (aheadOfTyExpr_of_unnumbered hu s₂))
    (TyExpr.resolveIn_inOrder (hinside.inOrder' s₂') hscope.ahead' a'.body (aheadOfTyExpr_of_unnumbered hu' s₂'))
  refine hresolved.bind fun body body' s₃ s₃' h₃ h₃' hq => ?_
  obtain ⟨hlike, hin, hin'⟩ := hq
  rw [Scope.meanings_enterParams [] hvl, Scope.meanings_enterParams [] hvl', Scope.meanings, List.map_nil,
    List.append_nil, List.append_nil] at hlike
  -- no argument mentions a name that was drawn after it
  have hfresh : ∀ r ∈ args, ∀ x ∈ vars, ¬ r.mentions x = true := fun r hr x hx hm =>
    hvn x hx (((hargs r hr).ahead.of_mentions hm).mono h₁)
  have hfresh' : ∀ r ∈ args', ∀ x ∈ vars', ¬ r.mentions x = true := fun r hr x hx hm =>
    hvn' x hx (((hargs' r hr).ahead.of_mentions hm).mono h₁')
  have hs₃ : s ≤ s₃ := le_trans h₁ (le_trans h₂ h₃)
  have hs₃' : s' ≤ s₃' := le_trans h₁' (le_trans h₂' h₃')
  have hputs := Ty.substAll_yields (hvl.trans hl.symm) hvd.nodup (hvd.mono h₃).ahead
    (Ty.mentionsLater_eq_false hfresh) (fun r hr => (hargs r hr).mono hs₃) hin.spells
  have hputs' := Ty.substAll_yields (hvl'.trans hl'.symm) hvd'.nodup (hvd'.mono h₃').ahead
    (Ty.mentionsLater_eq_false hfresh') (fun r hr => (hargs' r hr).mono hs₃') hin'.spells
  refine (Mirrors.lift hputs hputs').bind fun t t' s₄ s₄' _ _ ht => ?_
  refine hclose _ t t' s₄ s₄' (fun y hy => ?_) ht.1.bare (hlike ▸ ht.2.bare)
  obtain ⟨hmentions, hnot⟩ := Ty.has_nameless_iff.1 hy
  have hmem := hin.mem y hmentions
  rw [Scope.meanings_enterParams [] hvl, expansion_active, Scope.meanings, List.map_nil, List.append_nil] at hmem
  exact (List.mem_append.1 hmem).resolve_left hnot

/-- Arguments that look alike give types that look alike. -/
private theorem use_mirrors {depth : Nat} {active : List Name} {a a' : Alias}
    (hinside : (expansion aliases depth (a.name :: active)).Renamed n m (expansion aliases' depth (a.name :: active)))
    (hactive : ∀ y ∈ a.name :: active, Steady n m y) (hren : a.Renamed n m a') (hu : a.body.Unnumbered)
    (hu' : a'.body.Unnumbered) {args args' : List Ty} {ctx ctx' : List Name} {s s' : NameSupply}
    (hl : args.length = (a.params.getD []).length) (hargs : ∀ r ∈ args, r.Spells r.bare s)
    (hargs' : ∀ r ∈ args', r.Spells r.bare s')
    (hsame : args.map (·.nameless ctx) = args'.map (·.nameless ctx'))
    (hplace : ∀ y, Steady n m y → place ctx y = place ctx' y) (span span' : Span) :
    Mirrors s s' ((expansion aliases (depth + 1) active).use a args span)
      ((expansion aliases' (depth + 1) active).use a' args' span')
      fun t t' _ _ => t.nameless ctx = t'.nameless ctx' := by
  have hl' : args'.length = (a.params.getD []).length := by
    have hlength := congrArg List.length hsame
    simp only [List.length_map] at hlength
    exact hlength.symm.trans hl
  refine use_opens hinside hren hu hu' hl hl' hargs hargs' fun b t t' s s' hb ht ht' => ?_
  have hlike : t.nameless ctx = t'.nameless ctx' := by
    rw [Ty.nameless_eq_enclose, Ty.nameless_eq_enclose, ht, ht']
    refine Nameless.enclose_openAt_congr (Ty.closedAt_bares args) (Ty.closedAt_bares args') ?_
      fun y hy => hplace y (hactive y (hb y hy))
    rw [Ty.enclose_bares, Ty.enclose_bares, hsame]
  have hname := hplace a.name (hactive a.name List.mem_cons_self)
  have hmentions := Ty.mentions_congr hlike hname
  by_cases hm : t.mentions a.name = true
  · rw [if_pos hm, if_pos (hmentions.1 hm)]
    exact recursive_mirrors (Ty.nameless_cons_congr hlike hname) _ _
  · rw [if_neg hm, if_neg (mt hmentions.2 hm)]
    exact .pure hlike

/-- The expansions of aliases with renamed binders correspond, whatever depth is left: the aliases under expansion keep
their names. -/
theorem expansion_renamed (haliases : List.Forall₂ (Alias.Renamed n m) aliases aliases')
    (hsteady : ∀ a ∈ aliases, Steady n m a.name) (hu : aliases.Unnumbered) (hu' : aliases'.Unnumbered) (depth : Nat)
    {active : List Name} (hactive : ∀ y ∈ active, Steady n m y) :
    (expansion aliases depth active).Renamed n m (expansion aliases' depth active) := by
  have hahead : ∀ active : List Name, (∀ y ∈ active, Steady n m y) → ∀ (s : NameSupply), ∀ y ∈ active, s.AheadOf y :=
    fun active h s y hy => aheadOf_of_at_sign_not_mem (h y hy).unnumbered s
  induction depth generalizing active with
  | zero =>
    refine ⟨fun s => expansion_inOrder 0 (aheadOfAliases_of_unnumbered hu s) (hahead active hactive s),
      fun s => expansion_inOrder 0 (aheadOfAliases_of_unnumbered hu' s) (hahead active hactive s), rfl, haliases,
      hsteady, ?_⟩
    -- an expansion without any depth left fails
    intros
    rintro _ _ ⟨⟩
  | succ depth ih =>
    refine ⟨fun s => expansion_inOrder _ (aheadOfAliases_of_unnumbered hu s) (hahead active hactive s),
      fun s => expansion_inOrder _ (aheadOfAliases_of_unnumbered hu' s) (hahead active hactive s), rfl, haliases,
      hsteady, ?_⟩
    intro a ha a' ha' hren args args' ctx ctx' s s' hl hargs hargs' hsame hplace span span'
    have hactive' : ∀ y ∈ a.name :: active, Steady n m y := List.forall_mem_cons.2 ⟨hsteady a ha, hactive⟩
    exact use_mirrors (ih hactive') hactive' hren (hu a ha).2 (hu' a' ha').2 hl hargs hargs' hsame hplace span span'

/-- An annotation means a type with the same nameless form when binders of it and of the aliases are renamed from a name
to another one, neither of which is an alias's. -/
theorem TyExpr.resolve_renamed (haliases : List.Forall₂ (Alias.Renamed n m) aliases aliases')
    (hsteady : ∀ a ∈ aliases, Steady n m a.name) (hu : aliases.Unnumbered) (hm : '@' ∉ m.toList) {e e' : TyExpr}
    (he : e.Unnumbered) (hrenamed : e.Renamed n m [] [] e') {t : Ty} (ht : (e.resolve aliases []).result = .ok t) :
    ∃ t', (e'.resolve aliases' []).result = .ok t' ∧ t.bare = t'.bare := by
  have hnone : ∀ y ∈ ([] : List Name), Steady n m y := by simp
  have hexpansion := expansion_renamed haliases hsteady hu (hu.renamed hm haliases) aliases.length hnone
  obtain ⟨t', _, ht', -, -, hsame⟩ :=
    resolveIn_mirrors hexpansion .empty e e' hrenamed he (he.renamed hm hrenamed) t _ (Prod.ext ht rfl)
  refine ⟨t', ?_, hsame⟩
  rw [TyExpr.resolve, ← haliases.length_eq]
  exact congrArg Prod.fst ht'

end Expansions

end MuTypes
