import MuTypes.Proofs.OrderLaws
import MuTypes.Proofs.Resolution

/-!
# What annotations mean, without a depth

Among aliases without parameters nothing is drawn and nothing is substituted while annotations are resolved.  So what
an annotation means is a relation, `Means`, with one rule for each form and three for aliases: inside its own expansion
an alias is a variable, and elsewhere it is what its body means, below a recursive binder when it is mentioned there.
Resolving gives this meaning when there is one (`Means.resolveIn_eq`), and finds one only then (`exists_means`).
-/

namespace MuTypes

open NameSupply

/-! ### The fragment -/

namespace TyExpr

mutual

/-- Is there a generic type in the annotation? -/
def hasGeneric : TyExpr → Bool
  | .mk _ form => hasGenericForm form

/-- Is there a generic type in what stands somewhere? -/
def hasGenericForm : TyForm → Bool
  | .prim _ | .ref _ => false
  | .container _ e => e.hasGeneric
  | .func ps r => hasGenericRow ps || r.hasGeneric
  | .object ps => hasGenericRow ps
  | .union vs => hasGenericVariants vs
  | .mu _ b => b.hasGeneric
  | .generic .. => true
  | .app _ es => hasGenericArgs es

/-- `hasGeneric` for the annotations of a row. -/
def hasGenericRow : List (Name × TyExpr) → Bool
  | [] => false
  | (_, e) :: ps => e.hasGeneric || hasGenericRow ps

/-- `hasGeneric` for the annotations of all variants. -/
def hasGenericVariants : List (Name × List (Name × TyExpr)) → Bool
  | [] => false
  | (_, ps) :: vs => hasGenericRow ps || hasGenericVariants vs

/-- `hasGeneric` for arguments. -/
def hasGenericArgs : List TyExpr → Bool
  | [] => false
  | e :: es => e.hasGeneric || hasGenericArgs es

end

end TyExpr

/-- Aliases that are mere names for types: they have no parameters, no generic types in their bodies, and no recursive
binder there has the name of an alias. -/
structure Aliases.Plain (aliases : Aliases) : Prop where
  distinct : (aliases.map (·.name)).Nodup
  params : ∀ a ∈ aliases, a.params = none
  monomorphic : ∀ a ∈ aliases, a.body.hasGeneric = false
  binders : ∀ a ∈ aliases, ∀ n ∈ a.body.binders, n ∉ aliases.map (·.name)

theorem Aliases.find?_eq_none_iff {aliases : Aliases} {n : Name} :
    aliases.find? n = none ↔ n ∉ aliases.map (·.name) := by
  simp [Aliases.find?]

/-- Among distinct names an alias is the first one of its own. -/
theorem Aliases.Plain.find?_self {aliases : Aliases} (h : aliases.Plain) {a : Alias} (ha : a ∈ aliases) :
    aliases.find? a.name = some a := by
  cases hb : aliases.find? a.name with
  | none => exact absurd (List.mem_map_of_mem ha) (find?_eq_none_iff.1 hb)
  | some b => exact congrArg some (List.inj_on_of_nodup_map h.distinct (find?_mem hb) ha (find?_name hb))

theorem Aliases.Plain.find?_binder {aliases : Aliases} (h : aliases.Plain) {a : Alias} (ha : a ∈ aliases) {n : Name}
    (hn : n ∈ a.body.binders) : aliases.find? n = none :=
  find?_eq_none_iff.2 (h.binders a ha n hn)

/-- The recursive binders that enclose a place in an annotation, with their bodies, innermost first. -/
abbrev MuPath := List (Name × TyExpr)

namespace MuPath

variable {path : MuPath} {n : Name}

/-- The names of the binders. -/
def names (path : MuPath) : List Name :=
  path.map Prod.fst

/-- What is visible below the binders. -/
def scope (path : MuPath) : Scope :=
  path.map fun p => ⟨p.1, p.1, true⟩

theorem hasMu_scope : path.scope.hasMu n = true ↔ n ∈ path.names := by
  simp [scope, names, Scope.hasMu]

theorem find?_scope_of_mem (h : n ∈ path.names) : path.scope.find? n = some ⟨n, n, true⟩ := by
  induction path with
  | nil => cases h
  | cons p path ih =>
    by_cases hn : p.1 = n
    · simp [scope, Scope.find?, hn]
    · have hmem : n ∈ MuPath.names path := (List.mem_cons.1 h).resolve_left (Ne.symm hn)
      rw [scope, List.map_cons, Scope.find?, List.find?_cons_of_neg (by simpa using hn)]
      exact ih hmem

theorem find?_scope_of_not_mem (h : n ∉ path.names) : path.scope.find? n = none := by
  rw [Scope.find?, List.find?_eq_none]
  intro v hv
  obtain ⟨p, hp, rfl⟩ := List.mem_map.1 hv
  simpa using fun e : p.1 = n => h (e ▸ List.mem_map_of_mem hp)

end MuPath

/-! ### Meanings -/

/-- What an annotation means below some recursive binders, inside the expansions of the active aliases. -/
inductive Means (aliases : Aliases) : List Name → MuPath → TyExpr → Ty → Prop where
  | prim {active : List Name} {path : MuPath} {span : Span} (p : Prim) :
    Means aliases active path (.mk span (.prim p)) (.prim p)
  | container {active : List Name} {path : MuPath} {span : Span} {k : Container} {e : TyExpr} {t : Ty}
    (he : Means aliases active path e t) : Means aliases active path (.mk span (.container k e)) (.container k t)
  | func {active : List Name} {path : MuPath} {span : Span} {ps : List (Name × TyExpr)} {r : TyExpr}
    {f : TyExpr → Ty} {t : Ty} (hps : ∀ p ∈ ps, Means aliases active path p.2 (f p.2))
    (hr : Means aliases active path r t) :
    Means aliases active path (.mk span (.func ps r)) (.func (ps.map fun p => (p.1, f p.2)) t)
  | object {active : List Name} {path : MuPath} {span : Span} {ps : List (Name × TyExpr)} {f : TyExpr → Ty}
    (hd : (ps.map Prod.fst).Nodup) (hps : ∀ p ∈ ps, Means aliases active path p.2 (f p.2)) :
    Means aliases active path (.mk span (.object ps)) (.object (ps.map fun p => (p.1, f p.2)))
  | union {active : List Name} {path : MuPath} {span : Span} {vs : List (Name × List (Name × TyExpr))}
    {f : TyExpr → Ty} (hd : (vs.map Prod.fst).Nodup) (hds : ∀ v ∈ vs, (v.2.map Prod.fst).Nodup)
    (hvs : ∀ v ∈ vs, ∀ p ∈ v.2, Means aliases active path p.2 (f p.2)) :
    Means aliases active path (.mk span (.union vs)) (.union (vs.map fun v => (v.1, v.2.map fun p => (p.1, f p.2))))
  | mu {active : List Name} {path : MuPath} {span : Span} {n : Name} {b : TyExpr} {t : Ty} (hn : n ∉ path.names)
    (halias : aliases.find? n = none) (hb : Means aliases active ((n, b) :: path) b t)
    (hc : (Ty.mu n t).isContractive = true) : Means aliases active path (.mk span (.mu n b)) (.mu n t)
  | enclosed {active : List Name} {path : MuPath} {span : Span} {n : Name} (hn : n ∈ path.names)
    (halias : aliases.find? n = none) : Means aliases active path (.mk span (.ref n)) (.var n)
  | active {active : List Name} {path : MuPath} {span : Span} {n : Name} {a : Alias} (hn : n ∉ path.names)
    (ha : aliases.find? n = some a) (hparams : a.params = none) (hactive : n ∈ active) :
    Means aliases active path (.mk span (.ref n)) (.var n)
  | unfolded {active : List Name} {path : MuPath} {span : Span} {n : Name} {a : Alias} {t : Ty} (hn : n ∉ path.names)
    (ha : aliases.find? n = some a) (hparams : a.params = none) (hactive : n ∉ active)
    (hb : Means aliases (n :: active) [] a.body t) (ht : t.mentions n = false) :
    Means aliases active path (.mk span (.ref n)) t
  | recursive {active : List Name} {path : MuPath} {span : Span} {n : Name} {a : Alias} {t : Ty}
    (hn : n ∉ path.names) (ha : aliases.find? n = some a) (hparams : a.params = none) (hactive : n ∉ active)
    (hb : Means aliases (n :: active) [] a.body t) (ht : t.mentions n = true)
    (hc : (Ty.mu n t).isContractive = true) : Means aliases active path (.mk span (.ref n)) (.mu n t)

variable {aliases : Aliases} {active : List Name} {path : MuPath} {e : TyExpr} {t : Ty}

/-- Meanings are regular types, whose free names are those of enclosing binders and of active aliases. -/
theorem Means.regular (h : Means aliases active path e t) : t.Regular (path.names ++ active) := by
  induction h with
  | prim p => exact ⟨.prim p, .prim p, by simp⟩
  | container _ ih => exact ⟨.container ih.wellFormed, .container ih.monomorphic, ih.mem⟩
  | func _ _ ihps ihr =>
    refine ⟨.func (List.forall_mem_map.2 fun p hp => (ihps p hp).wellFormed) ihr.wellFormed,
      .func (List.forall_mem_map.2 fun p hp => (ihps p hp).monomorphic) ihr.monomorphic, fun x hx => ?_⟩
    rcases (Ty.mentions_func ..).1 hx with ⟨q, hq, hx⟩ | hx
    · obtain ⟨p, hp, rfl⟩ := List.mem_map.1 hq
      exact (ihps p hp).mem x hx
    · exact ihr.mem x hx
  | object hd _ ih =>
    refine ⟨.object (by rwa [map_fst_map_snd]) (List.forall_mem_map.2 fun p hp => (ih p hp).wellFormed),
      .object (List.forall_mem_map.2 fun p hp => (ih p hp).monomorphic), fun x hx => ?_⟩
    obtain ⟨q, hq, hx⟩ := (Ty.mentions_object ..).1 hx
    obtain ⟨p, hp, rfl⟩ := List.mem_map.1 hq
    exact (ih p hp).mem x hx
  | union hd hds _ ih =>
    refine ⟨.union (by rwa [map_fst_map_snd]) (List.forall_mem_map.2 fun v hv => ?_)
      (List.forall_mem_map.2 fun v hv => List.forall_mem_map.2 fun p hp => (ih v hv p hp).wellFormed),
      .union (List.forall_mem_map.2 fun v hv => List.forall_mem_map.2 fun p hp => (ih v hv p hp).monomorphic),
      fun x hx => ?_⟩
    · rw [map_fst_map_snd]
      exact hds v hv
    · obtain ⟨w, hw, q, hq, hx⟩ := (Ty.mentions_union ..).1 hx
      obtain ⟨v, hv, rfl⟩ := List.mem_map.1 hw
      obtain ⟨p, hp, rfl⟩ := List.mem_map.1 hq
      exact (ih v hv p hp).mem x hx
  | mu _ _ _ hc ih =>
    refine ⟨.mu hc ih.wellFormed, .mu ih.monomorphic, fun x hx => ?_⟩
    obtain ⟨hne, hx⟩ := (Ty.mentions_mu ..).1 hx
    exact (List.mem_cons.1 (ih.mem x hx)).resolve_left (Ne.symm hne)
  | enclosed hn _ => exact ⟨.var _, .var _, by simpa using .inl hn⟩
  | active _ _ _ hactive => exact ⟨.var _, .var _, by simpa using .inr hactive⟩
  | @unfolded _ _ _ n _ _ _ _ _ _ _ ht ih =>
    refine ⟨ih.wellFormed, ih.monomorphic, fun x hx => List.mem_append_right _ ?_⟩
    refine (List.mem_cons.1 (ih.mem x hx)).resolve_left fun e => ?_
    rw [e, ht] at hx
    cases hx
  | recursive _ _ _ _ _ _ hc ih =>
    refine ⟨.mu hc ih.wellFormed, .mu ih.monomorphic, fun x hx => List.mem_append_right _ ?_⟩
    obtain ⟨hne, hx⟩ := (Ty.mentions_mu ..).1 hx
    exact (List.mem_cons.1 (ih.mem x hx)).resolve_left (Ne.symm hne)

/-! ### Resolving gives the meaning -/

/-- How many aliases are not active. -/
def Aliases.inactive (aliases : Aliases) (active : List Name) : Nat :=
  aliases.countP (·.name ∉ active)

theorem Aliases.inactive_nil (aliases : Aliases) : aliases.inactive [] = aliases.length := by
  simp [inactive]

/-- Expanding an alias leaves fewer that are not active. -/
theorem Aliases.inactive_cons_lt {n : Name} {a : Alias} (ha : aliases.find? n = some a) (hn : n ∉ active) :
    aliases.inactive (n :: active) < aliases.inactive active := by
  obtain ⟨l, r, hsplit⟩ := List.append_of_mem (Aliases.find?_mem ha)
  have hname := Aliases.find?_name ha
  have hmono : ∀ l : Aliases, l.countP (·.name ∉ n :: active) ≤ l.countP (·.name ∉ active) := fun l =>
    List.countP_mono_left fun b _ hb => by simp_all
  have hl := hmono l
  have hr := hmono r
  have hdropped : [a].countP (·.name ∉ n :: active) = 0 := by simp [hname]
  have hcounted : [a].countP (·.name ∉ active) = 1 := by simp [hname, hn]
  rw [inactive, inactive, hsplit, List.append_cons]
  simp only [List.countP_append, hdropped, hcounted]
  omega

section Rows

variable {x : Expansion} {scope : Scope} {span : Span} {f : TyExpr → Ty}

private theorem resolveParamRow_eq {ps : List (Name × TyExpr)} (h : ∀ p ∈ ps, p.2.resolveIn x scope = pure (f p.2)) :
    TyExpr.resolveParamRow x scope ps = pure (ps.map fun p => (p.1, f p.2)) := by
  induction ps with
  | nil => rfl
  | cons p ps ih =>
    obtain ⟨hp, hps⟩ := List.forall_mem_cons.1 h
    rw [TyExpr.resolveParamRow, hp, ih hps]
    rfl

private theorem resolveRow_eq {ps : List (Name × TyExpr)} {seen : List Name} (hd : (ps.map Prod.fst).Nodup)
    (hseen : ∀ p ∈ ps, p.1 ∉ seen) (h : ∀ p ∈ ps, p.2.resolveIn x scope = pure (f p.2)) :
    TyExpr.resolveRow x scope span seen ps = pure (ps.map fun p => (p.1, f p.2)) := by
  induction ps generalizing seen with
  | nil => rfl
  | cons p ps ih =>
    obtain ⟨hp, hps⟩ := List.forall_mem_cons.1 h
    obtain ⟨hn, hseen⟩ := List.forall_mem_cons.1 hseen
    obtain ⟨hnew, hd⟩ := List.nodup_cons.1 hd
    have hseen' : ∀ q ∈ ps, q.1 ∉ p.1 :: seen := fun q hq hmem =>
      (List.mem_cons.1 hmem).elim (fun e => hnew (e ▸ List.mem_map_of_mem hq)) (hseen q hq)
    rw [TyExpr.resolveRow, if_neg hn, hp, ih hd hseen' hps]
    rfl

private theorem resolveVariants_eq {vs : List (Name × List (Name × TyExpr))} {seen : List Name}
    (hd : (vs.map Prod.fst).Nodup) (hseen : ∀ v ∈ vs, v.1 ∉ seen) (hds : ∀ v ∈ vs, (v.2.map Prod.fst).Nodup)
    (h : ∀ v ∈ vs, ∀ p ∈ v.2, p.2.resolveIn x scope = pure (f p.2)) :
    TyExpr.resolveVariants x scope span seen vs = pure (vs.map fun v => (v.1, v.2.map fun p => (p.1, f p.2))) := by
  induction vs generalizing seen with
  | nil => rfl
  | cons v vs ih =>
    obtain ⟨hv, hvs⟩ := List.forall_mem_cons.1 h
    obtain ⟨hn, hseen⟩ := List.forall_mem_cons.1 hseen
    obtain ⟨hdv, hds⟩ := List.forall_mem_cons.1 hds
    obtain ⟨hnew, hd⟩ := List.nodup_cons.1 hd
    have hseen' : ∀ w ∈ vs, w.1 ∉ v.1 :: seen := fun w hw hmem =>
      (List.mem_cons.1 hmem).elim (fun e => hnew (e ▸ List.mem_map_of_mem hw)) (hseen w hw)
    rw [TyExpr.resolveVariants, if_neg hn, resolveRow_eq hdv (fun _ _ => List.not_mem_nil) hv, ih hd hseen' hds hvs]
    rfl

end Rows

/-- Expanding an alias without parameters resolves its body, with nothing visible. -/
private theorem use_eq {depth : Nat} {a : Alias} {span : Span} (hparams : a.params = none) :
    (expansion aliases (depth + 1) active).use a [] span =
      a.body.resolveIn (expansion aliases depth (a.name :: active)) [] >>= fun t =>
        if t.mentions a.name then recursive a.name t span else pure t := by
  have hdistinct : expectDistinct [] a.span = pure () := rfl
  have hdraw : (liftM (drawAll []) : CheckM (List Name)) = pure [] := rfl
  have hsubst : ∀ t, (liftM (Ty.substAll [] t) : CheckM Ty) = pure t := fun _ => rfl
  simp only [expansion, hparams, Option.getD_none, hdistinct, hdraw, pure_bind, List.zip_nil_left, hsubst]
  rfl

/-- A name that is not visible here and not active is resolved by expanding it. -/
private theorem resolveIn_expanded {depth : Nat} {n : Name} {a : Alias} (hn : n ∉ path.names)
    (ha : aliases.find? n = some a) (hparams : a.params = none) (hactive : n ∉ active)
    (hd : aliases.inactive active ≤ depth) (span : Span) :
    ∃ d, aliases.inactive (n :: active) ≤ d ∧
      (TyExpr.mk span (.ref n)).resolveIn (expansion aliases depth active) path.scope =
        a.body.resolveIn (expansion aliases d (n :: active)) (MuPath.scope []) >>= fun t =>
          if t.mentions n then recursive n t span else pure t := by
  have hlt := Aliases.inactive_cons_lt ha hactive
  obtain ⟨d, rfl⟩ : ∃ d, depth = d + 1 := ⟨depth - 1, by omega⟩
  obtain rfl := Aliases.find?_name ha
  refine ⟨d, by omega, ?_⟩
  rw [TyExpr.resolveIn, TyExpr.resolveForm, Expansion.plain, MuPath.find?_scope_of_not_mem hn]
  simp only [expansion_aliases, ha, hparams, expansion_active, if_neg hactive]
  exact use_eq hparams

/-- An annotation resolves to its meaning when expansions may nest as deep as there are aliases that are not active. -/
theorem Means.resolveIn_eq (h : Means aliases active path e t) {depth : Nat} (hd : aliases.inactive active ≤ depth) :
    e.resolveIn (expansion aliases depth active) path.scope = pure t := by
  induction h generalizing depth with
  | prim p => rfl
  | container _ ih =>
    rw [TyExpr.resolveIn, TyExpr.resolveForm, ih hd]
    rfl
  | func _ _ ihps ihr =>
    rw [TyExpr.resolveIn, TyExpr.resolveForm, resolveParamRow_eq fun p hp => ihps p hp hd, ihr hd]
    rfl
  | object hdistinct _ ih =>
    rw [TyExpr.resolveIn, TyExpr.resolveForm,
      resolveRow_eq hdistinct (fun _ _ => List.not_mem_nil) fun p hp => ih p hp hd]
    rfl
  | union hdistinct hds _ ih =>
    rw [TyExpr.resolveIn, TyExpr.resolveForm,
      resolveVariants_eq hdistinct (fun _ _ => List.not_mem_nil) hds fun v hv p hp => ih v hv p hp hd]
    rfl
  | @mu _ path _ n _ _ hn _ _ hc ih =>
    have hbody := ih hd
    change TyExpr.resolveIn _ (path.scope.enterMu n) _ = _ at hbody
    rw [TyExpr.resolveIn, TyExpr.resolveForm, if_neg (mt MuPath.hasMu_scope.1 hn), hbody]
    exact if_pos hc
  | enclosed hn _ =>
    rw [TyExpr.resolveIn, TyExpr.resolveForm, Expansion.plain, MuPath.find?_scope_of_mem hn]
  | active hn ha hparams hactive =>
    rw [TyExpr.resolveIn, TyExpr.resolveForm, Expansion.plain, MuPath.find?_scope_of_not_mem hn]
    simp only [expansion_aliases, ha, hparams, expansion_active, if_pos hactive]
  | unfolded hn ha hparams hactive _ ht ih =>
    obtain ⟨d, hle, heq⟩ := resolveIn_expanded hn ha hparams hactive hd _
    rw [heq, ih hle, pure_bind, ht]
    rfl
  | recursive hn ha hparams hactive _ ht hc ih =>
    obtain ⟨d, hle, heq⟩ := resolveIn_expanded hn ha hparams hactive hd _
    rw [heq, ih hle, pure_bind, if_pos ht]
    exact if_pos hc

theorem Means.eq_of_run {depth : Nat} {u : Ty} {s s' : NameSupply} (h : Means aliases active path e t)
    (hd : aliases.inactive active ≤ depth)
    (hrun : (e.resolveIn (expansion aliases depth active) path.scope).run.run s = (.ok u, s')) : u = t := by
  rw [h.resolveIn_eq hd] at hrun
  cases hrun
  rfl

/-! ### Resolving finds a meaning -/

theorem recursive_eq_ok {n : Name} {b : Ty} {span : Span} {s s' : NameSupply}
    (h : (recursive n b span).run.run s = (.ok t, s')) : (Ty.mu n b).isContractive = true := by
  unfold recursive at h
  split at h
  · assumption
  · cases h

/-- Among aliases without parameters no name takes arguments. -/
private theorem generic_ne_ok {x : Expansion} (hparams : ∀ a ∈ x.aliases, a.params = none) {scope : Scope} {span : Span}
    {n : Name} {count : Nat} {a : Alias} {s s' : NameSupply} :
    (x.generic scope span n count).run.run s ≠ (.ok a, s') := by
  unfold Expansion.generic
  split
  · nofun
  split
  · nofun
  rename_i b hb
  split
  · nofun
  rw [hparams b (Aliases.find?_mem hb)]
  nofun

section Finding

variable {depth : Nat}

/-- A function gives every annotation its meaning, if that has one. -/
theorem exists_meanings (aliases : Aliases) (active : List Name) (path : MuPath) :
    ∃ f : TyExpr → Ty, ∀ e, (∃ t, Means aliases active path e t) → Means aliases active path e (f e) :=
  ⟨fun e => Classical.epsilon (Means aliases active path e), fun _ h => Classical.epsilon_spec h⟩

/-- No name takes arguments, expansions may nest as deep as there are aliases that are not active, and what resolves
inside one more expansion has a meaning there. -/
private structure Finds (aliases : Aliases) (active : List Name) (depth : Nat) : Prop where
  params : ∀ a ∈ aliases, a.params = none
  deep : aliases.inactive active ≤ depth
  body : ∀ n a, aliases.find? n = some a → n ∉ active → ∀ d, aliases.inactive (n :: active) ≤ d → ∀ s t s',
    (a.body.resolveIn (expansion aliases d (n :: active)) (MuPath.scope [])).run.run s = (.ok t, s') →
      ∃ t', Means aliases (n :: active) [] a.body t'

private theorem plain_finds (hx : Finds aliases active depth) (hpath : ∀ n ∈ path.names, aliases.find? n = none)
    {span : Span} {n : Name} {s s' : NameSupply}
    (h : ((TyExpr.mk span (.ref n)).resolveIn (expansion aliases depth active) path.scope).run.run s = (.ok t, s')) :
    ∃ t', Means aliases active path (.mk span (.ref n)) t' := by
  by_cases hn : n ∈ path.names
  · exact ⟨_, .enclosed hn (hpath n hn)⟩
  cases ha : aliases.find? n with
  | none =>
    rw [TyExpr.resolveIn, TyExpr.resolveForm, Expansion.plain, MuPath.find?_scope_of_not_mem hn] at h
    simp only [expansion_aliases, ha] at h
    cases h
  | some a =>
    have hplain := hx.params a (Aliases.find?_mem ha)
    by_cases hactive : n ∈ active
    · exact ⟨_, .active hn ha hplain hactive⟩
    · obtain ⟨d, hle, heq⟩ := resolveIn_expanded hn ha hplain hactive hx.deep span
      rw [heq] at h
      obtain ⟨u, s₁, hu, hrest⟩ := run_bind_eq_ok h
      obtain ⟨u', hb⟩ := hx.body n a ha hactive d hle s u s₁ hu
      obtain rfl := hb.eq_of_run hle hu
      split at hrest
      · exact ⟨_, .recursive hn ha hplain hactive hb ‹_› (recursive_eq_ok hrest)⟩
      · exact ⟨_, .unfolded hn ha hplain hactive hb (Bool.of_not_eq_true ‹_›)⟩

mutual

private theorem resolveIn_finds (hx : Finds aliases active depth) :
    ∀ (e : TyExpr) (path : MuPath), (∀ n ∈ path.names, aliases.find? n = none) → e.hasGeneric = false →
      (∀ n ∈ e.binders, aliases.find? n = none) → ∀ s t s',
        (e.resolveIn (expansion aliases depth active) path.scope).run.run s = (.ok t, s') →
          ∃ t', Means aliases active path e t'
  | .mk span form, path, hpath, hg, hb, s, t, s', h =>
    resolveForm_finds hx span form path hpath hg hb s t s' h
termination_by structural e => e

private theorem resolveForm_finds (hx : Finds aliases active depth) (span : Span) :
    ∀ (form : TyForm) (path : MuPath), (∀ n ∈ path.names, aliases.find? n = none) →
      TyExpr.hasGenericForm form = false → (∀ n ∈ TyExpr.bindersForm form, aliases.find? n = none) → ∀ s t s',
        (TyExpr.resolveForm (expansion aliases depth active) path.scope span form).run.run s = (.ok t, s') →
          ∃ t', Means aliases active path (.mk span form) t'
  | .prim p, _, _, _, _, _, _, _, _ => ⟨_, .prim p⟩
  | .container k e, path, hpath, hg, hb, s, t, s', h => by
    obtain ⟨u, s₁, hu, -⟩ := run_bind_eq_ok h
    obtain ⟨u', hmeans⟩ := resolveIn_finds hx e path hpath hg hb s u s₁ hu
    exact ⟨_, .container hmeans⟩
  | .func ps r, path, hpath, hg, hb, s, t, s', h => by
    obtain ⟨hgps, hgr⟩ := Bool.or_eq_false_iff.1 hg
    obtain ⟨hbps, hbr⟩ := List.forall_mem_append.1 hb
    obtain ⟨row, s₁, hrow, h⟩ := run_bind_eq_ok h
    obtain ⟨u, s₂, hu, -⟩ := run_bind_eq_ok h
    obtain ⟨f, hf⟩ := exists_meanings aliases active path
    obtain ⟨u', hr⟩ := resolveIn_finds hx r path hpath hgr hbr s₁ u s₂ hu
    have hps := resolveParamRow_finds hx ps path hpath hgps hbps s row s₁ hrow
    exact ⟨_, .func (fun p hp => hf p.2 (hps p hp)) hr⟩
  | .object ps, path, hpath, hg, hb, s, t, s', h => by
    obtain ⟨row, s₁, hrow, -⟩ := run_bind_eq_ok h
    obtain ⟨f, hf⟩ := exists_meanings aliases active path
    obtain ⟨hdistinct, -, hps⟩ := resolveRow_finds hx span ps path [] hpath hg hb s row s₁ hrow
    exact ⟨_, .object hdistinct fun p hp => hf p.2 (hps p hp)⟩
  | .union vs, path, hpath, hg, hb, s, t, s', h => by
    obtain ⟨row, s₁, hrow, -⟩ := run_bind_eq_ok h
    obtain ⟨f, hf⟩ := exists_meanings aliases active path
    obtain ⟨hdistinct, -, hvs⟩ := resolveVariants_finds hx span vs path [] hpath hg hb s row s₁ hrow
    exact ⟨_, .union hdistinct (fun v hv => (hvs v hv).1) fun v hv p hp => hf p.2 ((hvs v hv).2 p hp)⟩
  | .mu n b, path, hpath, hg, hb, s, t, s', h => by
    obtain ⟨hn, hb⟩ := List.forall_mem_cons.1 hb
    unfold TyExpr.resolveForm at h
    split at h
    · cases h
    rename_i hmu
    obtain ⟨u, s₁, hu, hrec⟩ := run_bind_eq_ok h
    have hpath' : ∀ m ∈ MuPath.names ((n, b) :: path), aliases.find? m = none := List.forall_mem_cons.2 ⟨hn, hpath⟩
    obtain ⟨u', hbody⟩ := resolveIn_finds hx b ((n, b) :: path) hpath' hg hb s u s₁ hu
    obtain rfl := hbody.eq_of_run hx.deep hu
    exact ⟨_, .mu (mt MuPath.hasMu_scope.2 hmu) hn hbody (recursive_eq_ok hrec)⟩
  | .generic ns b, _, _, hg, _, _, _, _, _ => by cases hg
  | .ref n, _, hpath, _, _, _, _, _, h => plain_finds hx hpath h
  | .app n es, path, _, _, _, s, t, s', h => by
    obtain ⟨a, s₁, ha, -⟩ := run_bind_eq_ok h
    refine absurd ha (generic_ne_ok fun b hb => hx.params b ?_)
    rwa [expansion_aliases] at hb
termination_by structural form => form

private theorem resolveParamRow_finds (hx : Finds aliases active depth) :
    ∀ (ps : List (Name × TyExpr)) (path : MuPath), (∀ n ∈ path.names, aliases.find? n = none) →
      TyExpr.hasGenericRow ps = false → (∀ n ∈ TyExpr.bindersRow ps, aliases.find? n = none) → ∀ s row s',
        (TyExpr.resolveParamRow (expansion aliases depth active) path.scope ps).run.run s = (.ok row, s') →
          ∀ p ∈ ps, ∃ t', Means aliases active path p.2 t'
  | [], _, _, _, _, _, _, _, _ => List.forall_mem_nil _
  | (n, e) :: ps, path, hpath, hg, hb, s, row, s', h => by
    obtain ⟨hge, hgps⟩ := Bool.or_eq_false_iff.1 hg
    obtain ⟨hbe, hbps⟩ := List.forall_mem_append.1 hb
    obtain ⟨t, s₁, ht, h⟩ := run_bind_eq_ok h
    obtain ⟨rest, s₂, hrest, -⟩ := run_bind_eq_ok h
    exact List.forall_mem_cons.2 ⟨resolveIn_finds hx e path hpath hge hbe s t s₁ ht,
      resolveParamRow_finds hx ps path hpath hgps hbps s₁ rest s₂ hrest⟩
termination_by structural ps => ps

private theorem resolveRow_finds (hx : Finds aliases active depth) (span : Span) :
    ∀ (ps : List (Name × TyExpr)) (path : MuPath) (seen : List Name), (∀ n ∈ path.names, aliases.find? n = none) →
      TyExpr.hasGenericRow ps = false → (∀ n ∈ TyExpr.bindersRow ps, aliases.find? n = none) → ∀ s row s',
        (TyExpr.resolveRow (expansion aliases depth active) path.scope span seen ps).run.run s = (.ok row, s') →
          (ps.map Prod.fst).Nodup ∧ (∀ n ∈ ps.map Prod.fst, n ∉ seen) ∧
            ∀ p ∈ ps, ∃ t', Means aliases active path p.2 t'
  | [], _, _, _, _, _, _, _, _, _ => ⟨List.nodup_nil, List.forall_mem_nil _, List.forall_mem_nil _⟩
  | (n, e) :: ps, path, seen, hpath, hg, hb, s, row, s', h => by
    obtain ⟨hge, hgps⟩ := Bool.or_eq_false_iff.1 hg
    obtain ⟨hbe, hbps⟩ := List.forall_mem_append.1 hb
    unfold TyExpr.resolveRow at h
    split at h
    · cases h
    rename_i hn
    obtain ⟨t, s₁, ht, h⟩ := run_bind_eq_ok h
    obtain ⟨rest, s₂, hrest, -⟩ := run_bind_eq_ok h
    obtain ⟨hdistinct, hseen, hps⟩ :=
      resolveRow_finds hx span ps path (n :: seen) hpath hgps hbps s₁ rest s₂ hrest
    refine ⟨List.nodup_cons.2 ⟨fun hm => hseen n hm List.mem_cons_self, hdistinct⟩, ?_, ?_⟩
    · exact List.forall_mem_cons.2 ⟨hn, fun m hm hs => hseen m hm (List.mem_cons_of_mem n hs)⟩
    · exact List.forall_mem_cons.2 ⟨resolveIn_finds hx e path hpath hge hbe s t s₁ ht, hps⟩
termination_by structural ps => ps

private theorem resolveVariants_finds (hx : Finds aliases active depth) (span : Span) :
    ∀ (vs : List (Name × List (Name × TyExpr))) (path : MuPath) (seen : List Name),
      (∀ n ∈ path.names, aliases.find? n = none) → TyExpr.hasGenericVariants vs = false →
        (∀ n ∈ TyExpr.bindersVariants vs, aliases.find? n = none) → ∀ s row s',
          (TyExpr.resolveVariants (expansion aliases depth active) path.scope span seen vs).run.run s = (.ok row, s') →
            (vs.map Prod.fst).Nodup ∧ (∀ n ∈ vs.map Prod.fst, n ∉ seen) ∧
              ∀ v ∈ vs, (v.2.map Prod.fst).Nodup ∧ ∀ p ∈ v.2, ∃ t', Means aliases active path p.2 t'
  | [], _, _, _, _, _, _, _, _, _ => ⟨List.nodup_nil, List.forall_mem_nil _, List.forall_mem_nil _⟩
  | (l, ps) :: vs, path, seen, hpath, hg, hb, s, row, s', h => by
    obtain ⟨hgps, hgvs⟩ := Bool.or_eq_false_iff.1 hg
    obtain ⟨hbps, hbvs⟩ := List.forall_mem_append.1 hb
    unfold TyExpr.resolveVariants at h
    split at h
    · cases h
    rename_i hl
    obtain ⟨first, s₁, hfirst, h⟩ := run_bind_eq_ok h
    obtain ⟨rest, s₂, hrest, -⟩ := run_bind_eq_ok h
    obtain ⟨hdistinctRow, -, hps⟩ :=
      resolveRow_finds hx span ps path [] hpath hgps hbps s first s₁ hfirst
    obtain ⟨hdistinct, hseen, hvs⟩ :=
      resolveVariants_finds hx span vs path (l :: seen) hpath hgvs hbvs s₁ rest s₂ hrest
    refine ⟨List.nodup_cons.2 ⟨fun hm => hseen l hm List.mem_cons_self, hdistinct⟩, ?_, ?_⟩
    · exact List.forall_mem_cons.2 ⟨hl, fun m hm hs => hseen m hm (List.mem_cons_of_mem l hs)⟩
    · exact List.forall_mem_cons.2 ⟨⟨hdistinctRow, hps⟩, hvs⟩
termination_by structural vs => vs

end

end Finding

/-- Expansions have meanings when they resolve, by induction on the number of aliases that are not active. -/
private theorem finds (h : aliases.Plain) {active : List Name} {depth : Nat} (hd : aliases.inactive active ≤ depth) :
    Finds aliases active depth := by
  induction hk : aliases.inactive active using Nat.strongRecOn generalizing active depth with
  | ind k ih =>
    refine ⟨h.params, hd, fun n a ha hactive d hd s t s' hrun => ?_⟩
    have hmem := Aliases.find?_mem ha
    have hlt := Aliases.inactive_cons_lt ha hactive
    exact resolveIn_finds (ih _ (hk ▸ hlt) hd rfl) a.body [] (List.forall_mem_nil _) (h.monomorphic a hmem)
      (fun m hm => h.find?_binder hmem hm) s t s' hrun

/-- Outside all binders an annotation resolves to what it means there. -/
theorem resolve_eq_ok_iff_means (h : aliases.Plain) (hg : e.hasGeneric = false)
    (hb : ∀ n ∈ e.binders, aliases.find? n = none) :
    (e.resolve aliases []).result = .ok t ↔ Means aliases [] [] e t := by
  have hd : aliases.inactive [] ≤ aliases.length := Nat.le_of_eq aliases.inactive_nil
  constructor
  · intro hok
    have hrun : (e.resolveIn (expansion aliases aliases.length []) (MuPath.scope [])).run.run {} = (.ok t, _) :=
      Prod.ext hok rfl
    obtain ⟨t', ht'⟩ := resolveIn_finds (finds h hd) e [] (List.forall_mem_nil _) hg hb {} t _ hrun
    obtain rfl := ht'.eq_of_run hd hrun
    exact ht'
  · intro hmeans
    have heq : e.resolve aliases [] = pure t := hmeans.resolveIn_eq hd
    rw [heq]
    rfl

end MuTypes
