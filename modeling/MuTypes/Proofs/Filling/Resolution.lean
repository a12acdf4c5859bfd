import MuTypes.Proofs.Filling.Annotations
import MuTypes.Proofs.Filling.Binders

/-!
# What filled annotations mean

An annotation and the one with other annotations put for some names in it are resolved in two scopes (`Scope.Filled`).
A name is visible in both of them, with meanings that correspond, or it is visible in the first one and something is put
for it.  Then the second type is the first one with types put for its free names (`resolveIn_filled`): that of an
annotation where it was put for the name, and a variable for a variable elsewhere.
-/

namespace MuTypes

open NameSupply

/-! ### Resolving twice -/

section Twice

variable {aliases : Aliases}

theorem exists_unused (aliases : Aliases) (e : TyExpr) : ∃ m, Unused m aliases e := by
  obtain ⟨s, hs⟩ := exists_aheadOf (e.names ++ aliases.flatMap fun a => a.name :: (a.params.getD [] ++ a.body.names))
  obtain ⟨he, haliases⟩ := List.forall_mem_append.1 hs
  have hne : ∀ {l : List Name}, (∀ x ∈ l, s.AheadOf x) → numbered "" s.next ∉ l := fun h hm =>
    (h _ hm).ne_drawn "" rfl
  refine ⟨numbered "" s.next, hne he, fun a ha => ?_⟩
  have hall : numbered "" s.next ∉ a.name :: (a.params.getD [] ++ a.body.names) :=
    hne fun x hx => haliases x (List.mem_flatMap.2 ⟨a, ha, hx⟩)
  obtain ⟨hname, hrest⟩ := not_or.1 (mt List.mem_cons.2 hall)
  exact ⟨hname, not_or.1 (mt List.mem_append.2 hrest)⟩

theorem Unused.alias_renamed {m : Name} {e : TyExpr} (hm : Unused m aliases e) {a : Alias} (ha : a ∈ aliases) :
    a.Renamed m m a :=
  ⟨rfl, rfl, (hm.2 a ha).2.1, TyExpr.renamed_self (fun x _ => .refl _ x) a.body (hm.2 a ha).2.2⟩

theorem Unused.expansion_renamed {m : Name} {e : TyExpr} (hm : Unused m aliases e) (haliases : aliases.Unnumbered)
    (depth : Nat) (active : List Name) (hactive : ∀ y ∈ active, ∃ a ∈ aliases, a.name = y) :
    (expansion aliases depth active).Renamed m m (expansion aliases depth active) := by
  have hsteady : ∀ a ∈ aliases, Steady m m a.name := fun a ha =>
    ⟨Ne.symm (hm.2 a ha).1, Ne.symm (hm.2 a ha).1, (haliases a ha).1⟩
  refine MuTypes.expansion_renamed (List.forall₂_same.2 fun a ha => hm.alias_renamed ha) hsteady haliases haliases depth
    fun y hy => ?_
  obtain ⟨a, ha, rfl⟩ := hactive y hy
  exact hsteady a ha

/-- An annotation means a type of the same nameless form whenever it is resolved outside all binders. -/
theorem TyExpr.resolve_again (haliases : aliases.Unnumbered) {e : TyExpr} (he : e.Unnumbered) (s s' : NameSupply) :
    Mirrors s s' (e.resolve aliases []) (e.resolve aliases []) fun t t' _ _ => t'.bare = t.bare := by
  obtain ⟨m, hm⟩ := exists_unused aliases e
  have hx := hm.expansion_renamed haliases aliases.length [] (by simp)
  exact (resolveIn_mirrors hx .empty e e (renamed_self (fun x _ => .refl _ x) e hm.1) he he).mono fun _ _ _ _ => Eq.symm

end Twice

/-! ### Recursive types and aliases -/

section Names

variable {σ : Name → Nameless Name} {names names' ctx : List Name} {s s' : NameSupply} (hσ : Filling σ names names')
include hσ

theorem recursive_filled {b : Name} {t t' : Ty} (h : t'.nameless (b :: ctx) = (t.nameless (b :: ctx)).fill σ)
    (span span' : Span) :
    Mirrors s s' (recursive b t span) (recursive b t' span') fun u u' _ _ =>
      u'.nameless ctx = (u.nameless ctx).fill σ := by
  unfold recursive
  split
  · rename_i hc
    have hc' : (Ty.mu b t').isContractive = true := by
      rw [← Ty.guarded_nameless_iff_isContractive b ctx, h]
      exact Nameless.guarded_fill hσ ((Ty.guarded_nameless_iff_isContractive ..).2 hc)
    rw [if_pos hc']
    exact .pure (congrArg _ h)
  · exact .violation _ _ _

/-- An alias that is used with filled arguments gives a filled type, since its body sees nothing of the scope. -/
theorem use_filled {aliases : Aliases} (haliases : aliases.Unnumbered) {depth : Nat} {a : Alias} (ha : a ∈ aliases)
    {args args' : List Ty} (hl : args.length = (a.params.getD []).length) (hargs : ∀ r ∈ args, r.Spells r.bare s)
    (hargs' : ∀ r ∈ args', r.Spells r.bare s')
    (hfilled : args'.map (·.nameless ctx) = args.map fun r => (r.nameless ctx).fill σ) (hctx : a.name ∉ ctx)
    (hn : a.name ∉ names) (hn' : a.name ∉ names') (span span' : Span) :
    Mirrors s s' ((expansion aliases depth []).use a args span) ((expansion aliases depth []).use a args' span')
      fun t t' _ _ => t'.nameless ctx = (t.nameless ctx).fill σ := by
  cases depth with
  | zero =>
    -- an expansion without any depth left fails
    rintro _ _ ⟨⟩
  | succ depth =>
    obtain ⟨m, hm⟩ := exists_unused aliases a.body
    have hinside := hm.expansion_renamed haliases depth [a.name] fun y hy =>
      ⟨a, ha, (List.mem_singleton.1 hy).symm⟩
    have hl' : args'.length = (a.params.getD []).length := by
      have hlength := congrArg List.length hfilled
      simp only [List.length_map] at hlength
      exact hlength.trans hl
    have hu := (haliases a ha).2
    refine use_opens hinside (hm.alias_renamed ha) hu hu hl hl' hargs hargs' fun b t t' s s' hb ht ht' => ?_
    have hlike : t'.nameless ctx = (t.nameless ctx).fill σ := by
      rw [Ty.nameless_eq_enclose, Ty.nameless_eq_enclose, ht, ht']
      refine Nameless.enclose_openAt_fill hσ (Ty.closedAt_bares args) (Ty.closedAt_bares args') ?_ fun y hy => ?_
      · rw [Ty.enclose_bares, Ty.enclose_bares, hfilled, List.map_reverse, List.map_map]
        rfl
      · obtain rfl := List.mem_singleton.1 (hb y hy)
        exact ⟨hctx, hn⟩
    have hmentions : t.mentions a.name = true ↔ t'.mentions a.name = true := by
      have hhas : ∀ t : Ty, (t.nameless ctx).Has a.name ↔ t.mentions a.name = true := fun t =>
        Ty.has_nameless_iff.trans (and_iff_left hctx)
      rw [← hhas, ← hhas, hlike, Nameless.has_fill_iff hσ hn hn']
    by_cases h : t.mentions a.name = true
    · rw [if_pos h, if_pos (hmentions.1 h)]
      exact recursive_filled hσ (Ty.nameless_cons_fill hσ hlike hctx hn hn') _ _
    · rw [if_neg h, if_neg (mt hmentions.2 h)]
      exact .pure hlike

end Names

/-! ### Scopes -/

/-- What the annotation means outside all binders. -/
def TyExpr.Means (aliases : Aliases) (e : TyExpr) (n : Nameless Name) : Prop :=
  ∃ s s' t, (e.resolve aliases []).run.run s = (.ok t, s') ∧ t.bare = n

/-- A binder may have the name: it has no `@`, and no annotation that is put has it. -/
structure Fillers.Admits (φ : Fillers) (b : Name) : Prop where
  unnumbered : '@' ∉ b.toList
  apart : ∀ x a, φ x = some a → b ∉ a.names

theorem Fillers.Admits.hide {φ : Fillers} {b : Name} (h : φ.Admits b) (ns : List Name) : (φ.hide ns).Admits b :=
  ⟨h.unnumbered, fun x a ha => h.apart x a (hide_eq_some ha).2⟩

namespace Scope

/-- The variables are type parameters, whose meanings are their own names or drawn ones. -/
structure OfParams (scope : Scope) (s : NameSupply) : Prop where
  own : ∀ v ∈ scope, v.meaning = v.name ∨ '@' ∈ v.meaning.toList
  byMu : ∀ v ∈ scope, v.byMu = false
  ahead : ∀ x ∈ scope.meanings, s.AheadOf x

/-- The scopes in which an annotation and the filled one are resolved.  What a name means in the first one is filled
with what it means in the second one, or with what the annotation means that is put for it. -/
structure Filled (aliases : Aliases) (φ : Fillers) (σ : Name → Nameless Name) (scope scope' : Scope)
    (s s' : NameSupply) : Prop where
  filling : Filling σ scope.meanings scope'.meanings
  params : scope.OfParams s
  params' : scope'.OfParams s'
  visible : ∀ x v, φ x = none → scope.find? x = some v →
    ∃ v', scope'.find? x = some v' ∧ σ v.meaning = .free v'.meaning
  hidden : ∀ x, scope.find? x = none → scope'.find? x = none
  put : ∀ x a, φ x = some a → a.Unnumbered ∧ (∀ n ∈ a.names, n ∉ scope'.names) ∧
    ∃ v, scope.find? x = some v ∧ a.Means aliases (σ v.meaning)

/-- The variables of binders inside an annotation, which are none of the names in what is put. -/
def Inner (φ : Fillers) (scope : Scope) : Prop :=
  ∀ v ∈ scope, v.meaning = v.name ∧ φ.Admits v.name

variable {φ : Fillers} {inner scope scope' : Scope} {s s' t t' : NameSupply}

theorem OfParams.mono (h : scope.OfParams s) (hs : s ≤ t) : scope.OfParams t :=
  { h with ahead := fun x hx => (h.ahead x hx).mono hs }

theorem Filled.mono {aliases : Aliases} {σ : Name → Nameless Name} (h : Filled aliases φ σ scope scope' s s')
    (hs : s ≤ t) (hs' : s' ≤ t') : Filled aliases φ σ scope scope' t t' :=
  { h with params := h.params.mono hs, params' := h.params'.mono hs' }

namespace Inner

theorem nil : Inner φ [] :=
  List.forall_mem_nil _

theorem cons (h : Inner φ inner) {b : Name} (hb : φ.Admits b) (byMu : Bool) :
    Inner φ (⟨b, b, byMu⟩ :: inner) :=
  List.forall_mem_cons.2 ⟨⟨rfl, hb⟩, h⟩

theorem enterParams (h : Inner φ inner) {bs : List Name} (hbs : ∀ b ∈ bs, φ.Admits b) :
    Inner φ (inner.enterParams bs bs) := by
  induction bs generalizing inner with
  | nil => exact h
  | cons b bs ih =>
    obtain ⟨hb, hbs⟩ := List.forall_mem_cons.1 hbs
    rw [enterParams_cons]
    exact ih (h.cons hb false) hbs

theorem meanings_eq (h : Inner φ inner) : inner.meanings = inner.names :=
  List.map_congr_left fun v hv => (h v hv).1

theorem admits (h : Inner φ inner) {b : Name} (hb : b ∈ inner.names) : φ.Admits b := by
  obtain ⟨v, hv, rfl⟩ := List.mem_map.1 hb
  exact (h v hv).2

/-- An outer variable that is not shadowed has a meaning that is not shadowed. -/
theorem meaning_not_mem (h : Inner φ inner) (hscope : scope.OfParams s) {x : Name} {v : Visible}
    (hv : scope.find? x = some v) (hx : x ∉ inner.names) : v.meaning ∉ inner.meanings := by
  have hname : v.name = x := by simpa using List.find?_some hv
  rw [h.meanings_eq]
  rcases hscope.own v (List.mem_of_find?_eq_some hv) with ho | ho
  · rwa [ho, hname]
  · exact fun hm => (h.admits hm).unnumbered ho

theorem ahead (h : Inner φ inner) (hscope : scope.OfParams s) : ∀ x ∈ Scope.meanings (inner ++ scope), s.AheadOf x := by
  intro x hx
  rw [meanings, List.map_append, ← meanings, h.meanings_eq] at hx
  rcases List.mem_append.1 hx with hx | hx
  · exact aheadOf_of_at_sign_not_mem (h.admits hx).unnumbered s
  · exact hscope.ahead x hx

end Inner

theorem find?_append_of_mem {x : Name} (h : x ∈ inner.names) :
    ∃ v ∈ inner, v.name = x ∧ ∀ scope : Scope, Scope.find? (inner ++ scope) x = some v := by
  cases hv : inner.find? x with
  | none => exact absurd h (find?_eq_none_iff.1 hv)
  | some v =>
    refine ⟨v, List.mem_of_find?_eq_some hv, by simpa using List.find?_some hv, fun scope => ?_⟩
    rw [Scope.find?, List.find?_append, show List.find? _ inner = some v from hv, Option.some_or]

theorem find?_append_of_not_mem {x : Name} (h : x ∉ inner.names) : Scope.find? (inner ++ scope) x = scope.find? x := by
  rw [Scope.find?, List.find?_append, show List.find? _ inner = none from find?_eq_none_iff.2 h, Option.none_or]
  rfl

theorem hasMu_append (h : ∀ v ∈ scope, v.byMu = false) (x : Name) : Scope.hasMu (inner ++ scope) x = inner.hasMu x := by
  have hnone : scope.hasMu x = false := List.any_eq_false.2 fun v hv => by simp [h v hv]
  rw [hasMu, List.any_append, ← hasMu, ← hasMu, hnone, Bool.or_false]

/-- An unnumbered name that is not in a scope is no meaning there. -/
theorem OfParams.not_mem_meanings (h : scope.OfParams s) {x : Name} (hx : '@' ∉ x.toList) (hn : x ∉ scope.names) :
    x ∉ scope.meanings := by
  intro hm
  obtain ⟨v, hv, rfl⟩ := List.mem_map.1 hm
  rcases h.own v hv with ho | ho
  · exact hn (List.mem_map.2 ⟨v, hv, ho.symm⟩)
  · exact hx ho

end Scope

/-! ### Names -/

section Aliases

variable {aliases : Aliases} {φ : Fillers} {σ : Name → Nameless Name} {inner scope scope' : Scope} {s s' : NameSupply}
  (h : Scope.Filled aliases φ σ scope scope' s s')
include h

private theorem Scope.Filled.find?_eq_none {x : Name} (hx : Scope.find? (inner ++ scope) x = none) :
    Scope.find? (inner ++ scope') x = none := by
  have hn : x ∉ inner.names := by
    intro hm
    obtain ⟨v, -, -, hv⟩ := Scope.find?_append_of_mem hm
    rw [hv scope] at hx
    cases hx
  rw [Scope.find?_append_of_not_mem hn] at hx ⊢
  exact h.hidden x hx

/-- A name with arguments refers to the same alias in both scopes. -/
private theorem generic_filled (span : Span) (x : Name) (k : Nat) :
    Mirrors s s' ((expansion aliases aliases.length []).generic (inner ++ scope) span x k)
      ((expansion aliases aliases.length []).generic (inner ++ scope') span x k) fun a a' _ _ =>
      a' = a ∧ a ∈ aliases ∧ Scope.find? (inner ++ scope) a.name = none ∧ k = (a.params.getD []).length := by
  cases hx : Scope.find? (inner ++ scope) x with
  | some v =>
    rw [Expansion.generic, hx]
    exact .violation _ _ _
  | none =>
    have hsame : (expansion aliases aliases.length []).generic (inner ++ scope') span x k =
        (expansion aliases aliases.length []).generic (inner ++ scope) span x k := by
      rw [Expansion.generic, Expansion.generic, hx, h.find?_eq_none hx]
    rw [hsame, Expansion.generic, hx, expansion_aliases, expansion_active]
    simp only [Option.isSome_none, Bool.false_eq_true, if_false, List.not_mem_nil]
    split
    · exact .violation _ _ _
    rename_i a ha
    split
    · exact .violation _ _ _
    rename_i ps hps
    split
    · rename_i hl
      exact .pure ⟨rfl, Aliases.find?_mem ha, (Aliases.find?_name ha).symm ▸ hx, by simp [hps, hl]⟩
    · exact .violation _ _ _

end Aliases

section Resolution

variable {aliases : Aliases} {φ : Fillers} {σ : Name → Nameless Name} {inner scope scope' : Scope} {s s' : NameSupply}
  (haliases : aliases.Unnumbered) (h : Scope.Filled aliases φ σ scope scope' s s') (hinner : Scope.Inner φ inner)
include haliases h hinner

/-- An alias whose name is not visible is used alike. -/
private theorem use_mirrors_filled {a : Alias} (ha : a ∈ aliases) (hname : Scope.find? (inner ++ scope) a.name = none)
    {args args' : List Ty} (hl : args.length = (a.params.getD []).length) (hargs : ∀ r ∈ args, r.Spells r.bare s)
    (hargs' : ∀ r ∈ args', r.Spells r.bare s')
    (hfilled : args'.map (·.nameless inner.meanings) = args.map fun r => (r.nameless inner.meanings).fill σ)
    (span : Span) :
    Mirrors s s' ((expansion aliases aliases.length []).use a args span)
      ((expansion aliases aliases.length []).use a args' span) fun t t' _ _ =>
      t'.nameless inner.meanings = (t.nameless inner.meanings).fill σ := by
  have hn : a.name ∉ Scope.names (inner ++ scope) := Scope.find?_eq_none_iff.1 hname
  rw [Scope.names, List.map_append] at hn
  obtain ⟨hninner, hnscope⟩ := not_or.1 (mt List.mem_append.2 hn)
  have hu := (haliases a ha).1
  have hnscope' := Scope.find?_eq_none_iff.1 (h.hidden a.name (Scope.find?_eq_none_iff.2 hnscope))
  exact use_filled h.filling haliases ha hl hargs hargs' hfilled (hinner.meanings_eq ▸ hninner)
    (h.params.not_mem_meanings hu hnscope) (h.params'.not_mem_meanings hu hnscope') span span

/-- A name means what it meant, filled, and where an annotation is put for it, that means what it means anywhere. -/
private theorem ref_filled (span : Span) (x : Name) :
    Mirrors s s' ((TyExpr.mk span (.ref x)).resolveIn (expansion aliases aliases.length []) (inner ++ scope))
      (((TyExpr.mk span (.ref x)).fill (φ.hide inner.names)).resolveIn (expansion aliases aliases.length [])
        (inner ++ scope'))
      fun t t' _ _ => t'.nameless inner.meanings = (t.nameless inner.meanings).fill σ := by
  rw [TyExpr.fill, TyExpr.fillForm, TyExpr.resolveIn, TyExpr.resolveForm]
  by_cases hmem : x ∈ inner.names
  · obtain ⟨v, hv, -, hfind⟩ := Scope.find?_append_of_mem hmem
    have hhide : φ.hide inner.names x = none := if_pos hmem
    rw [hhide, Option.getD_none, TyExpr.resolveIn, TyExpr.resolveForm, Expansion.plain, Expansion.plain, hfind, hfind]
    refine .pure ?_
    -- the variable is bound where the annotation stands
    have hplace : place inner.meanings v.meaning ≠ none := fun e =>
      place_eq_none_iff.1 e (List.mem_map.2 ⟨v, hv, rfl⟩)
    obtain ⟨i, hi⟩ := Option.ne_none_iff_exists'.1 hplace
    rw [Ty.nameless_var, leaf, hi]
    rfl
  have hfind : ∀ scope : Scope, Scope.find? (inner ++ scope) x = scope.find? x := fun scope =>
    Scope.find?_append_of_not_mem hmem
  have hhide : φ.hide inner.names x = φ x := if_neg hmem
  have hvar : ∀ v, scope.find? x = some v → (Ty.var v.meaning).nameless inner.meanings = .free v.meaning :=
    fun v hv => leaf_of_not_mem (hinner.meaning_not_mem h.params hv hmem)
  cases hput : φ x with
  | some a =>
    obtain ⟨hu, hnames, v, hv, s₀, s₁, r, hr, hmeans⟩ := h.put x a hput
    rw [hhide, hput, Option.getD_some, Expansion.plain, hfind, hv]
    rintro _ _ ⟨⟩
    obtain ⟨r', t', hr', -, hs', hsame⟩ := TyExpr.resolve_again haliases hu s₀ s' r s₁ hr
    have hoff : ∀ n ∈ a.names, Scope.SameAt (inner ++ scope') [] n := by
      refine fun n hn => Scope.sameAt_nil fun hm => ?_
      rw [Scope.names, List.map_append] at hm
      exact (List.mem_append.1 hm).elim (fun hm => (hinner.admits hm).apart x a hput hn) (hnames n hn)
    refine ⟨r', t', by rwa [TyExpr.resolveIn_congr a hoff], le_refl s, hs', ?_⟩
    -- what the annotation means has no free names
    have hnone : ∀ n ∈ Scope.meanings [], s'.AheadOf n := List.forall_mem_nil _
    have hclosed := (TyExpr.resolve_inOrder (aheadOfAliases_of_unnumbered haliases s') hnone a
      (aheadOfTyExpr_of_unnumbered hu s')).2.1 r' (congrArg Prod.fst hr')
    show r'.nameless inner.meanings = ((Ty.var v.meaning).nameless inner.meanings).fill σ
    rw [hvar v hv, Nameless.fill_free, ← hmeans, ← hsame]
    exact Ty.nameless_congr fun y hy => absurd (hclosed.mem y hy) List.not_mem_nil
  | none =>
    rw [hhide, hput, Option.getD_none, TyExpr.resolveIn, TyExpr.resolveForm, Expansion.plain, Expansion.plain, hfind,
      hfind, expansion_aliases, expansion_active]
    cases hv : scope.find? x with
    | some v =>
      obtain ⟨v', hv', hfree⟩ := h.visible x v hput hv
      rw [hv']
      refine .pure ?_
      rw [hvar v hv, Nameless.fill_free, hfree]
      exact leaf_of_not_mem (hinner.meaning_not_mem h.params' hv' hmem)
    | none =>
      rw [h.hidden x hv]
      dsimp only
      cases ha : aliases.find? x with
      | none => exact .violation _ _ _
      | some a =>
        dsimp only
        cases hparams : a.params with
        | some ps => exact .violation _ _ _
        | none =>
          dsimp only
          have hnone : Scope.find? (inner ++ scope) a.name = none := by rw [Aliases.find?_name ha, hfind, hv]
          exact use_mirrors_filled haliases h hinner (Aliases.find?_mem ha) hnone (by simp [hparams]) (by simp)
            (by simp) rfl span

end Resolution

/-! ### Annotations -/

namespace TyExpr

variable {aliases : Aliases} {φ : Fillers} {σ : Name → Nameless Name} {scope scope' : Scope}

private theorem spells_args {inner : Scope} {s : NameSupply} (haliases : aliases.Unnumbered)
    (hscope : ∀ x ∈ Scope.meanings (inner ++ scope), s.AheadOf x) {es : List TyExpr}
    (hes : ∀ b ∈ bindersArgs es, '@' ∉ b.toList) :
    s.Checks (resolveArgs (expansion aliases aliases.length []) (inner ++ scope) es) fun ts s' =>
      ts.length = es.length ∧ ∀ t ∈ ts, t.Spells t.bare s' :=
  (resolveArgs_inOrder (expansion_inOrder aliases.length (aheadOfAliases_of_unnumbered haliases s)
    (List.forall_mem_nil _)) hscope es fun b hb => aheadOf_of_at_sign_not_mem (hes b hb) s).mono
    fun _ _ _ hts => ⟨hts.1, fun r hr => (hts.2 r hr).spells⟩

mutual

/-- The filled annotation means the filled type. -/
theorem resolveIn_filled (haliases : aliases.Unnumbered) {s s' : NameSupply} {inner : Scope}
    (h : Scope.Filled aliases φ σ scope scope' s s') (hinner : Scope.Inner φ inner) :
    ∀ e : TyExpr, (∀ b ∈ e.binders, φ.Admits b) →
      Mirrors s s' (e.resolveIn (expansion aliases aliases.length []) (inner ++ scope))
        ((e.fill (φ.hide inner.names)).resolveIn (expansion aliases aliases.length []) (inner ++ scope'))
        fun t t' _ _ => t'.nameless inner.meanings = (t.nameless inner.meanings).fill σ
  | .mk span (.prim p), _ => .pure rfl
  | .mk span (.container k e), he =>
    (resolveIn_filled haliases h hinner e he).bind fun t t' _ _ _ _ ht => .pure (congrArg _ ht)
  | .mk span (.func ps r), he => by
    obtain ⟨hps, hr⟩ := List.forall_mem_append.1 he
    refine (resolveParamRow_filled haliases h hinner ps hps).bind fun row row' s₁ s₁' h₁ h₁' hrow => ?_
    refine (resolveIn_filled haliases (h.mono h₁ h₁') hinner r hr).bind fun t t' _ _ _ _ ht => .pure ?_
    rw [Ty.nameless_func, Ty.nameless_func, Nameless.fill_func, hrow, ht, List.map_map]
    rfl
  | .mk span (.object ps), he => by
    refine (resolveRow_filled haliases h hinner span [] ps he).bind fun row row' _ _ _ _ hrow => .pure ?_
    rw [Ty.nameless_object, Ty.nameless_object, Nameless.fill_object, hrow, List.map_map]
    rfl
  | .mk span (.union vs), he => by
    refine (resolveVariants_filled haliases h hinner span [] vs he).bind fun ws ws' _ _ _ _ hws => .pure ?_
    rw [Ty.nameless_union, Ty.nameless_union, Nameless.fill_union, hws, List.map_map]
    simp only [Function.comp_def, List.map_map]
  | .mk span (.mu b e), he => by
    obtain ⟨hb, he⟩ := List.forall_mem_cons.1 he
    rw [fill, fillForm, resolveIn, resolveIn, resolveForm, resolveForm, Scope.hasMu_append h.params.byMu,
      Scope.hasMu_append h.params'.byMu]
    split
    · exact .violation _ _ _
    · have hbody := resolveIn_filled haliases h (hinner.cons hb true) e he
      rw [show (φ.hide inner.names).hide [b] = φ.hide (b :: inner.names) from Fillers.hide_hide ..]
      exact hbody.bind fun t t' _ _ _ _ ht => recursive_filled h.filling ht span span
  | .mk span (.generic bs e), he => by
    obtain ⟨hbs, he⟩ := List.forall_mem_append.1 he
    rw [fill, fillForm, resolveIn, resolveIn, resolveForm, resolveForm]
    refine (expectDistinct_mirrors id span span).bind fun _ _ s₁ s₁' h₁ h₁' _ => ?_
    have hbody := resolveIn_filled haliases (h.mono h₁ h₁') (hinner.enterParams hbs) e he
    rw [Scope.names_enterParams inner rfl, Scope.meanings_enterParams inner rfl, ← Fillers.hide_hide,
      Fillers.hide_congr _ fun _ => List.mem_reverse] at hbody
    have houter : ∀ scope : Scope, Scope.enterParams (inner ++ scope) bs bs = inner.enterParams bs bs ++ scope :=
      fun scope => (List.append_assoc ..).symm
    rw [houter, houter]
    exact hbody.bind fun t t' _ _ _ _ ht => .pure (congrArg _ ht)
  | .mk span (.ref x), _ => ref_filled haliases h hinner span x
  | .mk span (.app x es), he => by
    rw [fill, fillForm, resolveIn, resolveIn, resolveForm, resolveForm, length_fillArgs]
    refine (generic_filled h span x es.length).bind fun a a' s₁ s₁' h₁ h₁' hq => ?_
    obtain ⟨rfl, ha, hname, hl⟩ := hq
    have h := h.mono h₁ h₁'
    have hbinders : ∀ b ∈ bindersArgs (fillArgs (φ.hide inner.names) es), '@' ∉ b.toList :=
      bindersArgs_fill (fun y a ha => (h.put y a (Fillers.hide_eq_some ha).2).1) es fun b hb => (he b hb).unnumbered
    have hargs := (resolveArgs_filled haliases h hinner es he).and_checks
      (spells_args haliases (hinner.ahead h.params) fun b hb => (he b hb).unnumbered)
      (spells_args haliases (hinner.ahead h.params') hbinders)
    refine hargs.bind fun args args' s₂ s₂' h₂ h₂' hq => ?_
    obtain ⟨hfilled, hspells, hspells'⟩ := hq
    exact use_mirrors_filled haliases (h.mono h₂ h₂') hinner ha hname (hspells.1.trans hl) hspells.2 hspells'.2
      hfilled span
termination_by structural e => e

theorem resolveParamRow_filled (haliases : aliases.Unnumbered) {s s' : NameSupply} {inner : Scope}
    (h : Scope.Filled aliases φ σ scope scope' s s') (hinner : Scope.Inner φ inner) :
    ∀ ps : List (Name × TyExpr), (∀ b ∈ bindersRow ps, φ.Admits b) →
      Mirrors s s' (resolveParamRow (expansion aliases aliases.length []) (inner ++ scope) ps)
        (resolveParamRow (expansion aliases aliases.length []) (inner ++ scope') (fillRow (φ.hide inner.names) ps))
        fun row row' _ _ => (row'.map fun p => (p.1, p.2.nameless inner.meanings)) =
          row.map fun p => (p.1, (p.2.nameless inner.meanings).fill σ)
  | [], _ => .pure rfl
  | (l, e) :: ps, he => by
    obtain ⟨he, hps⟩ := List.forall_mem_append.1 he
    refine (resolveIn_filled haliases h hinner e he).bind fun t t' _ _ hs hs' ht => ?_
    refine (resolveParamRow_filled haliases (h.mono hs hs') hinner ps hps).bind fun row row' _ _ _ _ hrow => .pure ?_
    rw [List.map_cons, List.map_cons, hrow, ht]
termination_by structural ps => ps

theorem resolveRow_filled (haliases : aliases.Unnumbered) {s s' : NameSupply} {inner : Scope}
    (h : Scope.Filled aliases φ σ scope scope' s s') (hinner : Scope.Inner φ inner) (span : Span) (seen : List Name) :
    ∀ ps : List (Name × TyExpr), (∀ b ∈ bindersRow ps, φ.Admits b) →
      Mirrors s s' (resolveRow (expansion aliases aliases.length []) (inner ++ scope) span seen ps)
        (resolveRow (expansion aliases aliases.length []) (inner ++ scope') span seen
          (fillRow (φ.hide inner.names) ps))
        fun row row' _ _ => (row'.map fun p => (p.1, p.2.nameless inner.meanings)) =
          row.map fun p => (p.1, (p.2.nameless inner.meanings).fill σ)
  | [], _ => .pure rfl
  | (l, e) :: ps, he => by
    obtain ⟨he, hps⟩ := List.forall_mem_append.1 he
    rw [fillRow, resolveRow, resolveRow]
    by_cases hl : l ∈ seen
    · rw [if_pos hl]
      exact .violation _ _ _
    · rw [if_neg hl, if_neg hl]
      refine (resolveIn_filled haliases h hinner e he).bind fun t t' _ _ hs hs' ht => ?_
      refine (resolveRow_filled haliases (h.mono hs hs') hinner span (l :: seen) ps hps).bind
        fun row row' _ _ _ _ hrow => .pure ?_
      rw [List.map_cons, List.map_cons, hrow, ht]
termination_by structural ps => ps

theorem resolveVariants_filled (haliases : aliases.Unnumbered) {s s' : NameSupply} {inner : Scope}
    (h : Scope.Filled aliases φ σ scope scope' s s') (hinner : Scope.Inner φ inner) (span : Span) (seen : List Name) :
    ∀ vs : List (Name × List (Name × TyExpr)), (∀ b ∈ bindersVariants vs, φ.Admits b) →
      Mirrors s s' (resolveVariants (expansion aliases aliases.length []) (inner ++ scope) span seen vs)
        (resolveVariants (expansion aliases aliases.length []) (inner ++ scope') span seen
          (fillVariants (φ.hide inner.names) vs))
        fun ws ws' _ _ => (ws'.map fun w => (w.1, w.2.map fun p => (p.1, p.2.nameless inner.meanings))) =
          ws.map fun w => (w.1, w.2.map fun p => (p.1, (p.2.nameless inner.meanings).fill σ))
  | [], _ => .pure rfl
  | (l, ps) :: vs, he => by
    obtain ⟨hps, hvs⟩ := List.forall_mem_append.1 he
    rw [fillVariants, resolveVariants, resolveVariants]
    by_cases hl : l ∈ seen
    · rw [if_pos hl]
      exact .violation _ _ _
    · rw [if_neg hl, if_neg hl]
      refine (resolveRow_filled haliases h hinner span [] ps hps).bind fun row row' _ _ hs hs' hrow => ?_
      refine (resolveVariants_filled haliases (h.mono hs hs') hinner span (l :: seen) vs hvs).bind
        fun ws ws' _ _ _ _ hws => .pure ?_
      rw [List.map_cons, List.map_cons, hws, hrow]
termination_by structural vs => vs

theorem resolveArgs_filled (haliases : aliases.Unnumbered) {s s' : NameSupply} {inner : Scope}
    (h : Scope.Filled aliases φ σ scope scope' s s') (hinner : Scope.Inner φ inner) :
    ∀ es : List TyExpr, (∀ b ∈ bindersArgs es, φ.Admits b) →
      Mirrors s s' (resolveArgs (expansion aliases aliases.length []) (inner ++ scope) es)
        (resolveArgs (expansion aliases aliases.length []) (inner ++ scope') (fillArgs (φ.hide inner.names) es))
        fun ts ts' _ _ => ts'.map (·.nameless inner.meanings) = ts.map fun t => (t.nameless inner.meanings).fill σ
  | [], _ => .pure rfl
  | e :: es, he => by
    obtain ⟨he, hes⟩ := List.forall_mem_append.1 he
    refine (resolveIn_filled haliases h hinner e he).bind fun t t' _ _ hs hs' ht => ?_
    refine (resolveArgs_filled haliases (h.mono hs hs') hinner es hes).bind fun ts ts' _ _ _ _ hts => .pure ?_
    rw [List.map_cons, List.map_cons, hts, ht]
termination_by structural es => es

end

/-- An annotation below the type parameters in scope means the filled type when it is filled. -/
theorem resolve_filled (haliases : aliases.Unnumbered) {s s' : NameSupply}
    (h : Scope.Filled aliases φ σ scope scope' s s') {e : TyExpr} (he : ∀ b ∈ e.binders, φ.Admits b) :
    Mirrors s s' (e.resolve aliases scope) ((e.fill φ).resolve aliases scope') fun t t' _ _ =>
      t'.bare = t.bare.fill σ := by
  have hall := resolveIn_filled haliases h .nil e he
  rwa [show φ.hide (Scope.names []) = φ from φ.hide_nil] at hall

end TyExpr

end MuTypes
