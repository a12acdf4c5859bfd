import MuTypes.Proofs.Hygiene.Plugging
import MuTypes.Proofs.Resolution

/-!
# Annotations with renamed binders

Some binders of an annotation are renamed, with what they bind, from a name `n` to a name `m` (`TyExpr.Renamed`).  The
variables in scope inside the two annotations correspond (`Scope.Renamed`): a reference finds variables that stand at
the same place, and the name of an alias, if it is neither `n` nor `m`, is the meaning of variables at the same place
or of none (`place_steady`).
-/

namespace MuTypes

open NameSupply

/-! ### Renamed binders -/

/-- The binder keeps its name, which is not the new one, or gets the new name for the old one. -/
def RenamedBinder (n m b b' : Name) : Prop :=
  b' = b ∧ b ≠ m ∨ b = n ∧ b' = m

/-- The names belong to binders at the same place, or both are free and the same. -/
def SameBinder (ns ns' : List Name) (x x' : Name) : Prop :=
  place ns x = place ns' x' ∧ (x ∉ ns → x' = x)

namespace TyExpr

mutual

/-- The second annotation is the first one with some binders `n`, and what they bind, renamed to `m`, when it stands
below the binders `ns'` in place of `ns`. -/
inductive Renamed (n m : Name) : List Name → List Name → TyExpr → TyExpr → Prop where
  | prim {ns ns' : List Name} {s s' : Span} (p : Prim) : Renamed n m ns ns' (.mk s (.prim p)) (.mk s' (.prim p))
  | container {ns ns' : List Name} {s s' : Span} {k : Container} {e e' : TyExpr} (he : Renamed n m ns ns' e e') :
    Renamed n m ns ns' (.mk s (.container k e)) (.mk s' (.container k e'))
  | func {ns ns' : List Name} {s s' : Span} {ps ps' : List (Name × TyExpr)} {r r' : TyExpr}
    (hps : RenamedRow n m ns ns' ps ps') (hr : Renamed n m ns ns' r r') :
    Renamed n m ns ns' (.mk s (.func ps r)) (.mk s' (.func ps' r'))
  | object {ns ns' : List Name} {s s' : Span} {ps ps' : List (Name × TyExpr)} (hps : RenamedRow n m ns ns' ps ps') :
    Renamed n m ns ns' (.mk s (.object ps)) (.mk s' (.object ps'))
  | union {ns ns' : List Name} {s s' : Span} {vs vs' : List (Name × List (Name × TyExpr))}
    (hvs : RenamedVariants n m ns ns' vs vs') : Renamed n m ns ns' (.mk s (.union vs)) (.mk s' (.union vs'))
  | mu {ns ns' : List Name} {s s' : Span} {b b' : Name} {e e' : TyExpr} (hb : RenamedBinder n m b b')
    (he : Renamed n m (b :: ns) (b' :: ns') e e') : Renamed n m ns ns' (.mk s (.mu b e)) (.mk s' (.mu b' e'))
  | generic {ns ns' : List Name} {s s' : Span} {bs bs' : List Name} {e e' : TyExpr}
    (hbs : List.Forall₂ (RenamedBinder n m) bs bs') (he : Renamed n m (bs.reverse ++ ns) (bs'.reverse ++ ns') e e') :
    Renamed n m ns ns' (.mk s (.generic bs e)) (.mk s' (.generic bs' e'))
  | ref {ns ns' : List Name} {s s' : Span} {x x' : Name} (hx : SameBinder ns ns' x x') :
    Renamed n m ns ns' (.mk s (.ref x)) (.mk s' (.ref x'))
  | app {ns ns' : List Name} {s s' : Span} {x x' : Name} {es es' : List TyExpr} (hx : SameBinder ns ns' x x')
    (hes : RenamedArgs n m ns ns' es es') : Renamed n m ns ns' (.mk s (.app x es)) (.mk s' (.app x' es'))

/-- `Renamed` for rows with the same names. -/
inductive RenamedRow (n m : Name) : List Name → List Name → List (Name × TyExpr) → List (Name × TyExpr) → Prop where
  | nil {ns ns' : List Name} : RenamedRow n m ns ns' [] []
  | cons {ns ns' : List Name} {l : Name} {e e' : TyExpr} {ps ps' : List (Name × TyExpr)} (he : Renamed n m ns ns' e e')
    (hps : RenamedRow n m ns ns' ps ps') : RenamedRow n m ns ns' ((l, e) :: ps) ((l, e') :: ps')

/-- `Renamed` for variants with the same labels. -/
inductive RenamedVariants (n m : Name) : List Name → List Name → List (Name × List (Name × TyExpr)) →
    List (Name × List (Name × TyExpr)) → Prop where
  | nil {ns ns' : List Name} : RenamedVariants n m ns ns' [] []
  | cons {ns ns' : List Name} {l : Name} {ps ps' : List (Name × TyExpr)} {vs vs' : List (Name × List (Name × TyExpr))}
    (hps : RenamedRow n m ns ns' ps ps') (hvs : RenamedVariants n m ns ns' vs vs') :
    RenamedVariants n m ns ns' ((l, ps) :: vs) ((l, ps') :: vs')

/-- `Renamed` for arguments. -/
inductive RenamedArgs (n m : Name) : List Name → List Name → List TyExpr → List TyExpr → Prop where
  | nil {ns ns' : List Name} : RenamedArgs n m ns ns' [] []
  | cons {ns ns' : List Name} {e e' : TyExpr} {es es' : List TyExpr} (he : Renamed n m ns ns' e e')
    (hes : RenamedArgs n m ns ns' es es') : RenamedArgs n m ns ns' (e :: es) (e' :: es')

end

end TyExpr

/-- The aliases have the same name and parameters, and binders in the body of the second one are renamed. -/
structure Alias.Renamed (n m : Name) (a a' : Alias) : Prop where
  name : a'.name = a.name
  params : a'.params = a.params
  kept : m ∉ a.params.getD []
  body : a.body.Renamed n m (a.params.getD []).reverse (a.params.getD []).reverse a'.body

/-- The name is neither the old nor the new one, and has no `@`. -/
structure Steady (n m y : Name) : Prop where
  ne_old : y ≠ n
  ne_new : y ≠ m
  unnumbered : '@' ∉ y.toList

section Names

variable {n m : Name}

theorem RenamedBinder.inj {b b' c c' : Name} (hb : RenamedBinder n m b b') (hc : RenamedBinder n m c c') (h : b' = c') :
    b = c := by
  rcases hb with ⟨rfl, hb⟩ | ⟨rfl, rfl⟩ <;> rcases hc with ⟨rfl, hc⟩ | ⟨rfl, rfl⟩
  · exact h
  · exact absurd h hb
  · exact absurd h.symm hc
  · rfl

theorem RenamedBinder.new_or_old {b b' : Name} (h : RenamedBinder n m b b') : b' = m ∨ b' = b :=
  h.elim (fun h => .inr h.1) fun h => .inl h.2

/-- Binders do not get the name of an alias, nor lose it. -/
theorem RenamedBinder.eq_iff {b b' y : Name} (hb : RenamedBinder n m b b') (hy : Steady n m y) : b = y ↔ b' = y := by
  rcases hb with ⟨rfl, -⟩ | ⟨rfl, rfl⟩
  · exact Iff.rfl
  · exact iff_of_false (Ne.symm hy.ne_old) (Ne.symm hy.ne_new)

theorem RenamedBinder.nodup {bs bs' : List Name} (h : List.Forall₂ (RenamedBinder n m) bs bs') (hd : bs.Nodup) :
    bs'.Nodup := by
  induction h with
  | nil => exact List.nodup_nil
  | cons hb hbs ih =>
    obtain ⟨hn, hd⟩ := List.nodup_cons.1 hd
    refine List.nodup_cons.2 ⟨fun hm => hn ?_, ih hd⟩
    obtain ⟨c, hc, hcb⟩ := exists_of_mem_right hbs hm
    exact hb.inj hcb rfl ▸ hc

end Names

/-! ### Names that are bound -/

namespace TyExpr

variable {n m : Name}

mutual

/-- Only the new name comes to be bound. -/
theorem Renamed.binders {ns ns' : List Name} : ∀ {e e' : TyExpr}, e.Renamed n m ns ns' e' →
    ∀ b ∈ e'.binders, b = m ∨ b ∈ e.binders
  | .mk _ (.prim _), _, h, b, hb => by
    cases h with
    | prim => exact .inr hb
  | .mk _ (.container ..), _, h, b, hb => by
    cases h with
    | container h => exact h.binders b hb
  | .mk _ (.func ..), _, h, b, hb => by
    cases h with
    | func hps hr =>
      rcases List.mem_append.1 hb with hb | hb
      · exact (hps.binders b hb).imp_right (List.mem_append_left _)
      · exact (hr.binders b hb).imp_right (List.mem_append_right _)
  | .mk _ (.object _), _, h, b, hb => by
    cases h with
    | object hps => exact hps.binders b hb
  | .mk _ (.union _), _, h, b, hb => by
    cases h with
    | union hvs => exact hvs.binders b hb
  | .mk _ (.mu ..), _, h, b, hb => by
    cases h with
    | mu hc h =>
      rcases List.mem_cons.1 hb with rfl | hb
      · exact hc.new_or_old.imp_right fun e => List.mem_cons.2 (.inl e)
      · exact (h.binders b hb).imp_right (List.mem_cons_of_mem _)
  | .mk _ (.generic ..), _, h, b, hb => by
    cases h with
    | generic hbs h =>
      rcases List.mem_append.1 hb with hb | hb
      · obtain ⟨c, hc, hcb⟩ := exists_of_mem_right hbs hb
        exact hcb.new_or_old.imp_right fun e : b = c => List.mem_append_left _ (e.symm ▸ hc)
      · exact (h.binders b hb).imp_right (List.mem_append_right _)
  | .mk _ (.ref _), _, h, b, hb => by
    cases h with
    | ref => cases hb
  | .mk _ (.app ..), _, h, b, hb => by
    cases h with
    | app _ hes => exact hes.binders b hb

theorem RenamedRow.binders {ns ns' : List Name} : ∀ {ps ps' : List (Name × TyExpr)}, RenamedRow n m ns ns' ps ps' →
    ∀ b ∈ bindersRow ps', b = m ∨ b ∈ bindersRow ps
  | [], _, h, b, hb => by
    cases h with
    | nil => cases hb
  | _ :: _, _, h, b, hb => by
    cases h with
    | cons h hps =>
      rcases List.mem_append.1 hb with hb | hb
      · exact (h.binders b hb).imp_right (List.mem_append_left _)
      · exact (hps.binders b hb).imp_right (List.mem_append_right _)

theorem RenamedVariants.binders {ns ns' : List Name} : ∀ {vs vs' : List (Name × List (Name × TyExpr))},
    RenamedVariants n m ns ns' vs vs' → ∀ b ∈ bindersVariants vs', b = m ∨ b ∈ bindersVariants vs
  | [], _, h, b, hb => by
    cases h with
    | nil => cases hb
  | _ :: _, _, h, b, hb => by
    cases h with
    | cons hps hvs =>
      rcases List.mem_append.1 hb with hb | hb
      · exact (hps.binders b hb).imp_right (List.mem_append_left _)
      · exact (hvs.binders b hb).imp_right (List.mem_append_right _)

theorem RenamedArgs.binders {ns ns' : List Name} : ∀ {es es' : List TyExpr}, RenamedArgs n m ns ns' es es' →
    ∀ b ∈ bindersArgs es', b = m ∨ b ∈ bindersArgs es
  | [], _, h, b, hb => by
    cases h with
    | nil => cases hb
  | _ :: _, _, h, b, hb => by
    cases h with
    | cons h hes =>
      rcases List.mem_append.1 hb with hb | hb
      · exact (h.binders b hb).imp_right (List.mem_append_left _)
      · exact (hes.binders b hb).imp_right (List.mem_append_right _)

end

end TyExpr

section Unnumbered

variable {n m : Name} (hm : '@' ∉ m.toList)
include hm

theorem TyExpr.Unnumbered.renamed {ns ns' : List Name} {e e' : TyExpr} (he : e.Unnumbered)
    (h : e.Renamed n m ns ns' e') : e'.Unnumbered := by
  intro b hb
  rcases h.binders b hb with rfl | hb
  · exact hm
  · exact he b hb

theorem Aliases.Unnumbered.renamed {aliases aliases' : Aliases} (haliases : aliases.Unnumbered)
    (h : List.Forall₂ (Alias.Renamed n m) aliases aliases') : aliases'.Unnumbered := by
  intro a' ha'
  obtain ⟨a, ha, hren⟩ := exists_of_mem_right h ha'
  rw [hren.name]
  exact ⟨(haliases a ha).1, (haliases a ha).2.renamed hm hren.body⟩

end Unnumbered

/-! ### Scopes -/

namespace Scope

/-- The names that annotations use, innermost first. -/
def names (scope : Scope) : List Name :=
  scope.map (·.name)

/-- Different names have different meanings, and a meaning is the name itself or has an `@`. -/
structure Tidy (scope : Scope) : Prop where
  faithful : ∀ v ∈ scope, ∀ w ∈ scope, v.meaning = w.meaning → v.name = w.name
  own : ∀ v ∈ scope, v.meaning = v.name ∨ '@' ∈ v.meaning.toList

theorem tidy_nil : Tidy [] :=
  ⟨by simp, by simp⟩

theorem Tidy.cons {scope : Scope} {v : Visible} (h : scope.Tidy) (hown : v.meaning = v.name ∨ '@' ∈ v.meaning.toList)
    (hv : ∀ w ∈ scope, w.meaning = v.meaning → w.name = v.name) : Tidy (v :: scope) := by
  refine ⟨?_, List.forall_mem_cons.2 ⟨hown, h.own⟩⟩
  refine List.forall_mem_cons.2 ⟨List.forall_mem_cons.2 ⟨fun _ => rfl, fun w hw e => (hv w hw e.symm).symm⟩, ?_⟩
  exact fun w hw => List.forall_mem_cons.2 ⟨hv w hw, h.faithful w hw⟩

/-- Scopes stay tidy below a binder whose name has no `@`. -/
theorem Tidy.enter {scope : Scope} (h : scope.Tidy) {b : Name} (hb : '@' ∉ b.toList) (byMu : Bool) :
    Tidy (⟨b, b, byMu⟩ :: scope) := by
  refine h.cons (.inl rfl) fun w hw e => ?_
  rcases h.own w hw with ho | ho
  · exact ho.symm.trans e
  · rw [show w.meaning = b from e] at ho
    exact absurd ho hb

/-- The variable that a name finds has its meaning where the name stands. -/
theorem Tidy.place_meaning {scope : Scope} (h : scope.Tidy) {x : Name} {v : Visible} (hv : scope.find? x = some v) :
    place scope.meanings v.meaning = place scope.names x := by
  have hname : v.name = x := by simpa using List.find?_some hv
  induction scope with
  | nil => cases hv
  | cons w scope ih =>
    have hrest : Tidy scope :=
      ⟨fun u hu u' hu' => h.faithful u (.tail w hu) u' (.tail w hu'), fun u hu => h.own u (.tail w hu)⟩
    by_cases hw : w.name = x
    · have he : w = v := by simpa [find?, List.find?_cons, hw] using hv
      subst he
      simp [meanings, names, place_cons, hw]
    · have htail : find? scope x = some v := by simpa [find?, List.find?_cons, hw] using hv
      -- a variable with another name has another meaning, so both searches go on
      have hne : w.meaning ≠ v.meaning := fun e => hw ((h.faithful w List.mem_cons_self v
        (.tail w (List.mem_of_find?_eq_some htail)) e).trans hname)
      rw [meanings, names, List.map_cons, List.map_cons, place_cons, place_cons, if_neg hne, if_neg hw, ← meanings,
        ← names, ih hrest htail]

theorem find?_eq_none_iff {scope : Scope} {x : Name} : scope.find? x = none ↔ x ∉ scope.names := by
  simp [find?, names]

theorem names_enterParams (scope : Scope) {params meanings : List Name} (h : meanings.length = params.length) :
    (scope.enterParams params meanings).names = params.reverse ++ scope.names := by
  have hzip : (params.zipWith (fun name meaning => (⟨name, meaning, false⟩ : Visible)) meanings).map (·.name)
      = params := by
    rw [List.map_zipWith]
    have hle : params.length ≤ meanings.length := Nat.le_of_eq h.symm
    simpa [List.zip] using List.map_fst_zip hle
  simp only [enterParams, names, List.map_append, List.map_reverse, hzip]

theorem enterParams_cons (scope : Scope) (p x : Name) (params meanings : List Name) :
    scope.enterParams (p :: params) (x :: meanings) = enterParams (⟨p, x, false⟩ :: scope) params meanings := by
  simp [enterParams]

/-- The names are drawn ones, for a supply that is ahead of them, and mean nothing in the scope yet. -/
structure Drawn (scope : Scope) (vars : List Name) (s : NameSupply) : Prop where
  nodup : vars.Nodup
  numbered : ∀ x ∈ vars, '@' ∈ x.toList
  new : ∀ x ∈ vars, x ∉ scope.meanings
  ahead : ∀ x ∈ vars, s.AheadOf x

theorem Drawn.mono {scope : Scope} {vars : List Name} {s t : NameSupply} (h : scope.Drawn vars s) (hst : s ≤ t) :
    scope.Drawn vars t :=
  { h with ahead := fun x hx => (h.ahead x hx).mono hst }

section Drawn

variable {scope : Scope} {x : Name} {vars : List Name} {s : NameSupply} (h : scope.Drawn (x :: vars) s) (p : Name)
include h

theorem Drawn.tidy (hscope : scope.Tidy) : Tidy (⟨p, x, false⟩ :: scope) := by
  refine hscope.cons (.inr (h.numbered x List.mem_cons_self)) fun w hw e => ?_
  have hmem : x ∈ scope.meanings := List.mem_map.2 ⟨w, hw, e⟩
  exact absurd hmem (h.new x List.mem_cons_self)

theorem Drawn.tail : Drawn (⟨p, x, false⟩ :: scope) vars s := by
  obtain ⟨hx, hd⟩ := List.nodup_cons.1 h.nodup
  refine ⟨hd, fun y hy => h.numbered y (.tail x hy), fun y hy hm => ?_, fun y hy => h.ahead y (.tail x hy)⟩
  rcases List.mem_cons.1 hm with rfl | hm
  · exact hx hy
  · exact h.new y (.tail x hy) hm

end Drawn

end Scope

/-- The variable has a renamed binder, or it stands for drawn names. -/
structure Visible.Renamed (n m : Name) (v v' : Visible) : Prop where
  name : RenamedBinder n m v.name v'.name
  byMu : v'.byMu = v.byMu
  meaning : v.meaning = v.name ∧ v'.meaning = v'.name ∨ '@' ∈ v.meaning.toList ∧ '@' ∈ v'.meaning.toList

/-- The scopes of the two resolutions, with supplies that are ahead of their meanings. -/
structure Scope.Renamed (n m : Name) (scope scope' : Scope) (s s' : NameSupply) : Prop where
  visibles : List.Forall₂ (Visible.Renamed n m) scope scope'
  tidy : scope.Tidy
  tidy' : scope'.Tidy
  ahead : ∀ x ∈ scope.meanings, s.AheadOf x
  ahead' : ∀ x ∈ scope'.meanings, s'.AheadOf x

namespace Scope.Renamed

variable {n m : Name} {scope scope' : Scope} {s s' t t' : NameSupply}

theorem empty : Scope.Renamed n m [] [] s s' :=
  ⟨.nil, tidy_nil, tidy_nil, by simp [meanings], by simp [meanings]⟩

theorem mono (h : scope.Renamed n m scope' s s') (hs : s ≤ t) (hs' : s' ≤ t') : scope.Renamed n m scope' t t' :=
  { h with ahead := fun x hx => (h.ahead x hx).mono hs, ahead' := fun x hx => (h.ahead' x hx).mono hs' }

theorem cons (h : scope.Renamed n m scope' s s') {v w : Visible} (hvw : v.Renamed n m w) (hv : Tidy (v :: scope))
    (hw : Tidy (w :: scope')) (hs : s.AheadOf v.meaning) (hs' : s'.AheadOf w.meaning) :
    Scope.Renamed n m (v :: scope) (w :: scope') s s' where
  visibles := .cons hvw h.visibles
  tidy := hv
  tidy' := hw
  ahead := List.forall_mem_cons.2 ⟨hs, h.ahead⟩
  ahead' := List.forall_mem_cons.2 ⟨hs', h.ahead'⟩

theorem enter (h : scope.Renamed n m scope' s s') {b b' : Name} (hb : RenamedBinder n m b b') (hu : '@' ∉ b.toList)
    (hu' : '@' ∉ b'.toList) (byMu : Bool) :
    Scope.Renamed n m (⟨b, b, byMu⟩ :: scope) (⟨b', b', byMu⟩ :: scope') s s' :=
  h.cons ⟨hb, rfl, .inl ⟨rfl, rfl⟩⟩ (h.tidy.enter hu byMu) (h.tidy'.enter hu' byMu) (aheadOf_of_at_sign_not_mem hu s)
    (aheadOf_of_at_sign_not_mem hu' s')

theorem enterParams (h : scope.Renamed n m scope' s s') {bs bs' : List Name}
    (hbs : List.Forall₂ (RenamedBinder n m) bs bs') (hu : ∀ b ∈ bs, '@' ∉ b.toList) (hu' : ∀ b ∈ bs', '@' ∉ b.toList) :
    (scope.enterParams bs bs).Renamed n m (scope'.enterParams bs' bs') s s' := by
  induction hbs generalizing scope scope' with
  | nil => exact h
  | cons hb _ ih =>
    obtain ⟨hub, hu⟩ := List.forall_mem_cons.1 hu
    obtain ⟨hub', hu'⟩ := List.forall_mem_cons.1 hu'
    rw [enterParams_cons, enterParams_cons]
    exact ih (h.enter hb hub hub' false) hu hu'

/-- Scopes go on to correspond when drawn names are the meanings of the same parameters. -/
theorem enterDrawn (h : scope.Renamed n m scope' s s') {params vars vars' : List Name} (hkept : m ∉ params)
    (hl : vars.length = params.length) (hl' : vars'.length = params.length) (hvars : scope.Drawn vars s)
    (hvars' : scope'.Drawn vars' s') :
    (scope.enterParams params vars).Renamed n m (scope'.enterParams params vars') s s' := by
  induction params generalizing scope scope' vars vars' with
  | nil => exact h
  | cons p params ih =>
    obtain ⟨hp, hkept⟩ := not_or.1 (mt List.mem_cons.2 hkept)
    cases vars with
    | nil => cases hl
    | cons x vars =>
      cases vars' with
      | nil => cases hl'
      | cons x' vars' =>
        have hx := List.forall_mem_cons.1 hvars.numbered
        have hx' := List.forall_mem_cons.1 hvars'.numbered
        have hcons := h.cons (v := ⟨p, x, false⟩) (w := ⟨p, x', false⟩)
          ⟨.inl ⟨rfl, Ne.symm hp⟩, rfl, .inr ⟨hx.1, hx'.1⟩⟩
          (hvars.tidy p h.tidy) (hvars'.tidy p h.tidy') (hvars.ahead x List.mem_cons_self)
          (hvars'.ahead x' List.mem_cons_self)
        rw [enterParams_cons, enterParams_cons]
        exact ih hcons hkept (Nat.succ.inj hl) (Nat.succ.inj hl') (hvars.tail p) (hvars'.tail p)

/-- An alias's name is the meaning of variables at the same place, or of none. -/
theorem place_steady (h : scope.Renamed n m scope' s s') {y : Name} (hy : Steady n m y) :
    place scope.meanings y = place scope'.meanings y := by
  have hvisibles := h.visibles
  clear h
  induction hvisibles with
  | nil => rfl
  | @cons v v' scope scope' hv _ ih =>
    -- drawn meanings have an `@`, which the name has not
    have hmeaning : v.meaning = y ↔ v'.meaning = y := by
      rcases hv.meaning with ⟨ho, ho'⟩ | ⟨ho, ho'⟩
      · rw [ho, ho']
        exact hv.name.eq_iff hy
      · exact iff_of_false (fun e => hy.unnumbered (e ▸ ho)) fun e => hy.unnumbered (e ▸ ho')
    rw [meanings, meanings, List.map_cons, List.map_cons, place_cons, place_cons, ← meanings, ← meanings, ih]
    simp only [hmeaning]

theorem hasMu (h : scope.Renamed n m scope' s s') {b b' : Name} (hb : RenamedBinder n m b b')
    (hmu : scope'.hasMu b' = true) : scope.hasMu b = true := by
  have hvisibles := h.visibles
  clear h
  induction hvisibles with
  | nil => simp [Scope.hasMu] at hmu
  | cons hv _ ih =>
    simp only [Scope.hasMu, List.any_cons, Bool.or_eq_true, Bool.and_eq_true, decide_eq_true_eq] at hmu ih ⊢
    rcases hmu with ⟨hmu, he⟩ | hmu
    · exact .inl ⟨hv.byMu ▸ hmu, hv.name.inj hb he⟩
    · exact .inr (ih hmu)

/-- A reference finds variables that have their meanings at the same place. -/
theorem find? (h : scope.Renamed n m scope' s s') {x x' : Name} (hx : SameBinder scope.names scope'.names x x')
    {v : Visible} (hv : scope.find? x = some v) :
    ∃ v', scope'.find? x' = some v' ∧ leaf scope.meanings v.meaning = leaf scope'.meanings v'.meaning := by
  have hmem : x ∈ scope.names := by
    by_contra hn
    rw [Scope.find?_eq_none_iff.2 hn] at hv
    cases hv
  cases hv' : scope'.find? x' with
  | none =>
    have hnone : place scope.names x = none := hx.1.trans (place_eq_none_iff.2 (Scope.find?_eq_none_iff.1 hv'))
    exact absurd hmem (place_eq_none_iff.1 hnone)
  | some v' =>
    refine ⟨v', rfl, ?_⟩
    have hplace := (h.tidy.place_meaning hv).trans (hx.1.trans (h.tidy'.place_meaning hv').symm)
    cases hi : place scope.names x with
    | none => exact absurd hmem (place_eq_none_iff.1 hi)
    | some i => rw [leaf, leaf, ← hplace, h.tidy.place_meaning hv, hi]

end Scope.Renamed

/-- A free reference stays free. -/
theorem SameBinder.find?_eq_none {scope scope' : Scope} {x x' : Name}
    (hx : SameBinder scope.names scope'.names x x') (hv : scope.find? x = none) : x' = x ∧ scope'.find? x' = none := by
  have hn := Scope.find?_eq_none_iff.1 hv
  refine ⟨hx.2 hn, Scope.find?_eq_none_iff.2 (place_eq_none_iff.1 ?_)⟩
  rw [← hx.1]
  exact place_eq_none_iff.2 hn

end MuTypes
