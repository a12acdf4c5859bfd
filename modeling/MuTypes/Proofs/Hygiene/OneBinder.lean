import Mathlib
import MuTypes.Proofs.Alpha
import MuTypes.Proofs.Hygiene.Resolution

/-!
# Renaming one binder

One binder of an annotation, or of the body of an alias, gets a name that occurs nowhere, and the references to it get
that name as well (`TyExpr.RenamesBinder`, `RenamesOne`).  When the old name is not an alias's, then the annotation
means the same type as before, up to the names of its binders (`resolve_renamesOne`).

When it is an alias's name, this can fail (`resolve_captures`).  While an alias is expanded, a reference to it is a
variable with its name, and this variable leaves the body in which it was written: a binder of another body that has the
name of the alias captures it.
-/

namespace MuTypes

namespace TyExpr

/-! ### Names and references -/

mutual

/-- All names of type variables and aliases in the annotation, whether bound or referred to. -/
def names : TyExpr → List Name
  | .mk _ form => namesForm form

/-- `names` of what stands somewhere. -/
def namesForm : TyForm → List Name
  | .prim _ => []
  | .container _ e => e.names
  | .func ps r => namesRow ps ++ r.names
  | .object ps => namesRow ps
  | .union vs => namesVariants vs
  | .mu b e => b :: e.names
  | .generic bs e => bs ++ e.names
  | .ref x => [x]
  | .app x es => x :: namesArgs es

/-- `names` of the annotations of a row. -/
def namesRow : List (Name × TyExpr) → List Name
  | [] => []
  | (_, e) :: ps => e.names ++ namesRow ps

/-- `names` of the annotations of all variants. -/
def namesVariants : List (Name × List (Name × TyExpr)) → List Name
  | [] => []
  | (_, ps) :: vs => namesRow ps ++ namesVariants vs

/-- `names` of arguments. -/
def namesArgs : List TyExpr → List Name
  | [] => []
  | e :: es => e.names ++ namesArgs es

end

mutual

/-- The annotation with `m` for those references to `n` that no binder in it binds. -/
def renameRefs (n m : Name) : TyExpr → TyExpr
  | .mk span form => .mk span (renameRefsForm n m form)

/-- `renameRefs` on what stands somewhere. -/
def renameRefsForm (n m : Name) : TyForm → TyForm
  | .prim p => .prim p
  | .container k e => .container k (e.renameRefs n m)
  | .func ps r => .func (renameRefsRow n m ps) (r.renameRefs n m)
  | .object ps => .object (renameRefsRow n m ps)
  | .union vs => .union (renameRefsVariants n m vs)
  | .mu b e => .mu b (if n = b then e else e.renameRefs n m)
  | .generic bs e => .generic bs (if n ∈ bs then e else e.renameRefs n m)
  | .ref x => .ref (if x = n then m else x)
  | .app x es => .app (if x = n then m else x) (renameRefsArgs n m es)

/-- `renameRefs` on the annotations of a row. -/
def renameRefsRow (n m : Name) : List (Name × TyExpr) → List (Name × TyExpr)
  | [] => []
  | (l, e) :: ps => (l, e.renameRefs n m) :: renameRefsRow n m ps

/-- `renameRefs` on the annotations of all variants. -/
def renameRefsVariants (n m : Name) : List (Name × List (Name × TyExpr)) → List (Name × List (Name × TyExpr))
  | [] => []
  | (l, ps) :: vs => (l, renameRefsRow n m ps) :: renameRefsVariants n m vs

/-- `renameRefs` on arguments. -/
def renameRefsArgs (n m : Name) : List TyExpr → List TyExpr
  | [] => []
  | e :: es => e.renameRefs n m :: renameRefsArgs n m es

end

/-- The second annotation is the first one with one binder, and the references to it, renamed from `n` to `m`. -/
inductive RenamesBinder (n m : Name) : TyExpr → TyExpr → Prop where
  | mu {s : Span} {e : TyExpr} : RenamesBinder n m (.mk s (.mu n e)) (.mk s (.mu m (e.renameRefs n m)))
  | param {s : Span} {ps qs : List Name} {e : TyExpr} (hn : n ∉ qs) :
    RenamesBinder n m (.mk s (.generic (ps ++ n :: qs) e)) (.mk s (.generic (ps ++ m :: qs) (e.renameRefs n m)))
  /-- A parameter that is repeated binds nothing. -/
  | repeated {s : Span} {ps qs : List Name} {e : TyExpr} (hn : n ∈ qs) :
    RenamesBinder n m (.mk s (.generic (ps ++ n :: qs) e)) (.mk s (.generic (ps ++ m :: qs) e))
  | inContainer {s : Span} {k : Container} {e e' : TyExpr} (h : RenamesBinder n m e e') :
    RenamesBinder n m (.mk s (.container k e)) (.mk s (.container k e'))
  | inParam {s : Span} {ps qs : List (Name × TyExpr)} {l : Name} {e e' r : TyExpr} (h : RenamesBinder n m e e') :
    RenamesBinder n m (.mk s (.func (ps ++ (l, e) :: qs) r)) (.mk s (.func (ps ++ (l, e') :: qs) r))
  | inResult {s : Span} {ps : List (Name × TyExpr)} {r r' : TyExpr} (h : RenamesBinder n m r r') :
    RenamesBinder n m (.mk s (.func ps r)) (.mk s (.func ps r'))
  | inProperty {s : Span} {ps qs : List (Name × TyExpr)} {l : Name} {e e' : TyExpr} (h : RenamesBinder n m e e') :
    RenamesBinder n m (.mk s (.object (ps ++ (l, e) :: qs))) (.mk s (.object (ps ++ (l, e') :: qs)))
  | inVariant {s : Span} {vs ws : List (Name × List (Name × TyExpr))} {ps qs : List (Name × TyExpr)} {k l : Name}
    {e e' : TyExpr} (h : RenamesBinder n m e e') :
    RenamesBinder n m (.mk s (.union (vs ++ (k, ps ++ (l, e) :: qs) :: ws)))
      (.mk s (.union (vs ++ (k, ps ++ (l, e') :: qs) :: ws)))
  | inMu {s : Span} {b : Name} {e e' : TyExpr} (h : RenamesBinder n m e e') :
    RenamesBinder n m (.mk s (.mu b e)) (.mk s (.mu b e'))
  | inGeneric {s : Span} {bs : List Name} {e e' : TyExpr} (h : RenamesBinder n m e e') :
    RenamesBinder n m (.mk s (.generic bs e)) (.mk s (.generic bs e'))
  | inArg {s : Span} {x : Name} {as bs : List TyExpr} {e e' : TyExpr} (h : RenamesBinder n m e e') :
    RenamesBinder n m (.mk s (.app x (as ++ e :: bs))) (.mk s (.app x (as ++ e' :: bs)))

end TyExpr

/-! ### References below renamed binders -/

section SameBinder

variable {ns ns' : List Name} {x x' : Name}

theorem SameBinder.refl (ns : List Name) (x : Name) : SameBinder ns ns x x :=
  ⟨rfl, fun _ => rfl⟩

theorem SameBinder.cons {b b' : Name} (hb : b = x ↔ b' = x') (h : b ≠ x → SameBinder ns ns' x x') :
    SameBinder (b :: ns) (b' :: ns') x x' := by
  rw [SameBinder, place_cons, place_cons]
  by_cases hx : b = x
  · rw [if_pos hx, if_pos (hb.1 hx)]
    exact ⟨rfl, fun hn => absurd (List.mem_cons.2 (.inl hx.symm)) hn⟩
  · obtain ⟨hplace, hfree⟩ := h hx
    rw [if_neg hx, if_neg (mt hb.2 hx), hplace]
    exact ⟨rfl, fun hn => hfree (List.not_mem_of_not_mem_cons hn)⟩

/-- Binders that keep their names bind the same references. -/
theorem SameBinder.append {bs : List Name} (hb : x ∈ bs → x' = x) (hb' : x ∉ bs → x' ∉ bs)
    (h : x ∉ bs → SameBinder ns ns' x x') : SameBinder (bs ++ ns) (bs ++ ns') x x' := by
  by_cases hx : x ∈ bs
  · rw [hb hx]
    refine ⟨?_, fun hn => absurd (List.mem_append_left ns hx) hn⟩
    rw [place_append_of_mem hx, place_append_of_mem hx]
  · obtain ⟨hplace, hfree⟩ := h hx
    refine ⟨?_, fun hn => hfree fun hm => hn (List.mem_append_right bs hm)⟩
    rw [place_append_of_not_mem hx, place_append_of_not_mem (hb' hx), hplace]

end SameBinder

namespace TyExpr

variable {n m : Name}

theorem forall₂_renamedBinder_self {bs : List Name} (hm : m ∉ bs) : List.Forall₂ (RenamedBinder n m) bs bs :=
  List.forall₂_same.2 fun _ hb => .inl ⟨rfl, fun e => hm (e ▸ hb)⟩

mutual

/-- An annotation stands for itself where other binders bind the same references. -/
theorem renamed_self {ns ns' : List Name} (h : ∀ x, x ≠ m → SameBinder ns ns' x x) :
    ∀ e : TyExpr, m ∉ e.names → e.Renamed n m ns ns' e
  | .mk _ (.prim p), _ => .prim p
  | .mk _ (.container _ e), hm => .container (renamed_self h e hm)
  | .mk _ (.func ps r), hm => by
    obtain ⟨hps, hr⟩ := not_or.1 (mt List.mem_append.2 hm)
    exact .func (renamedRow_self h ps hps) (renamed_self h r hr)
  | .mk _ (.object ps), hm => .object (renamedRow_self h ps hm)
  | .mk _ (.union vs), hm => .union (renamedVariants_self h vs hm)
  | .mk _ (.mu b e), hm => by
    obtain ⟨hb, he⟩ := not_or.1 (mt List.mem_cons.2 hm)
    exact .mu (.inl ⟨rfl, Ne.symm hb⟩) (renamed_self (fun x hx => .cons Iff.rfl fun _ => h x hx) e he)
  | .mk _ (.generic bs e), hm => by
    obtain ⟨hbs, he⟩ := not_or.1 (mt List.mem_append.2 hm)
    exact .generic (forall₂_renamedBinder_self hbs)
      (renamed_self (fun x hx => .append (fun _ => rfl) id fun _ => h x hx) e he)
  | .mk _ (.ref x), hm => .ref (h x fun e => hm (List.mem_singleton.2 e.symm))
  | .mk _ (.app x es), hm => by
    obtain ⟨hx, hes⟩ := not_or.1 (mt List.mem_cons.2 hm)
    exact .app (h x (Ne.symm hx)) (renamedArgs_self h es hes)

theorem renamedRow_self {ns ns' : List Name} (h : ∀ x, x ≠ m → SameBinder ns ns' x x) :
    ∀ ps : List (Name × TyExpr), m ∉ namesRow ps → RenamedRow n m ns ns' ps ps
  | [], _ => .nil
  | (_, e) :: ps, hm => by
    obtain ⟨he, hps⟩ := not_or.1 (mt List.mem_append.2 hm)
    exact .cons (renamed_self h e he) (renamedRow_self h ps hps)

theorem renamedVariants_self {ns ns' : List Name} (h : ∀ x, x ≠ m → SameBinder ns ns' x x) :
    ∀ vs : List (Name × List (Name × TyExpr)), m ∉ namesVariants vs → RenamedVariants n m ns ns' vs vs
  | [], _ => .nil
  | (_, ps) :: vs, hm => by
    obtain ⟨hps, hvs⟩ := not_or.1 (mt List.mem_append.2 hm)
    exact .cons (renamedRow_self h ps hps) (renamedVariants_self h vs hvs)

theorem renamedArgs_self {ns ns' : List Name} (h : ∀ x, x ≠ m → SameBinder ns ns' x x) :
    ∀ es : List TyExpr, m ∉ namesArgs es → RenamedArgs n m ns ns' es es
  | [], _ => .nil
  | e :: es, hm => by
    obtain ⟨he, hes⟩ := not_or.1 (mt List.mem_append.2 hm)
    exact .cons (renamed_self h e he) (renamedArgs_self h es hes)

end

/-- The references to `n` are bound by a binder that is renamed to `m`, and the others as before. -/
def Follows (n m : Name) (ns ns' : List Name) : Prop :=
  ∀ x, x ≠ m → SameBinder ns ns' x (if x = n then m else x)

theorem Follows.append {ns ns' : List Name} (h : Follows n m ns ns') {bs : List Name} (hn : n ∉ bs) (hm : m ∉ bs) :
    Follows n m (bs ++ ns) (bs ++ ns') := by
  intro x hx
  by_cases hxn : x = n
  · rw [if_pos hxn]
    refine .append (fun hb => absurd (hxn ▸ hb) hn) (fun _ => hm) fun _ => ?_
    have hx := h x hx
    rwa [if_pos hxn] at hx
  · rw [if_neg hxn]
    refine .append (fun _ => rfl) id fun _ => ?_
    have hx := h x hx
    rwa [if_neg hxn] at hx

/-- A binder inside that has the old name keeps its references. -/
theorem Follows.shadow {ns ns' : List Name} (h : Follows n m ns ns') {bs : List Name} (hn : n ∈ bs) :
    ∀ x, x ≠ m → SameBinder (bs ++ ns) (bs ++ ns') x x := by
  intro x hx
  refine .append (fun _ => rfl) id fun hxb => ?_
  have hx := h x hx
  rwa [if_neg fun e : x = n => hxb (e.symm ▸ hn)] at hx

mutual

/-- Below the renamed binder the references to it are renamed. -/
theorem renamed_renameRefs {ns ns' : List Name} (h : Follows n m ns ns') :
    ∀ e : TyExpr, m ∉ e.names → e.Renamed n m ns ns' (e.renameRefs n m)
  | .mk _ (.prim p), _ => .prim p
  | .mk _ (.container _ e), hm => .container (renamed_renameRefs h e hm)
  | .mk _ (.func ps r), hm => by
    obtain ⟨hps, hr⟩ := not_or.1 (mt List.mem_append.2 hm)
    exact .func (renamedRow_renameRefs h ps hps) (renamed_renameRefs h r hr)
  | .mk _ (.object ps), hm => .object (renamedRow_renameRefs h ps hm)
  | .mk _ (.union vs), hm => .union (renamedVariants_renameRefs h vs hm)
  | .mk _ (.mu b e), hm => by
    obtain ⟨hb, he⟩ := not_or.1 (mt List.mem_cons.2 hm)
    refine .mu (.inl ⟨rfl, Ne.symm hb⟩) ?_
    by_cases hn : n = b
    · rw [if_pos hn]
      exact renamed_self (h.shadow (List.mem_singleton.2 hn)) e he
    · rw [if_neg hn]
      exact renamed_renameRefs (h.append (mt List.mem_singleton.1 hn) (mt List.mem_singleton.1 hb)) e he
  | .mk _ (.generic bs e), hm => by
    obtain ⟨hbs, he⟩ := not_or.1 (mt List.mem_append.2 hm)
    refine .generic (forall₂_renamedBinder_self hbs) ?_
    -- a parameter with the old name binds the references below it, which then stay
    by_cases hn : n ∈ bs
    · rw [if_pos hn]
      exact renamed_self (h.shadow (List.mem_reverse.2 hn)) e he
    · rw [if_neg hn]
      exact renamed_renameRefs (h.append (mt List.mem_reverse.1 hn) (mt List.mem_reverse.1 hbs)) e he
  | .mk _ (.ref x), hm => .ref (h x fun e => hm (List.mem_singleton.2 e.symm))
  | .mk _ (.app x es), hm => by
    obtain ⟨hx, hes⟩ := not_or.1 (mt List.mem_cons.2 hm)
    exact .app (h x (Ne.symm hx)) (renamedArgs_renameRefs h es hes)

theorem renamedRow_renameRefs {ns ns' : List Name} (h : Follows n m ns ns') :
    ∀ ps : List (Name × TyExpr), m ∉ namesRow ps → RenamedRow n m ns ns' ps (renameRefsRow n m ps)
  | [], _ => .nil
  | (_, e) :: ps, hm => by
    obtain ⟨he, hps⟩ := not_or.1 (mt List.mem_append.2 hm)
    exact .cons (renamed_renameRefs h e he) (renamedRow_renameRefs h ps hps)

theorem renamedVariants_renameRefs {ns ns' : List Name} (h : Follows n m ns ns') :
    ∀ vs : List (Name × List (Name × TyExpr)), m ∉ namesVariants vs →
      RenamedVariants n m ns ns' vs (renameRefsVariants n m vs)
  | [], _ => .nil
  | (_, ps) :: vs, hm => by
    obtain ⟨hps, hvs⟩ := not_or.1 (mt List.mem_append.2 hm)
    exact .cons (renamedRow_renameRefs h ps hps) (renamedVariants_renameRefs h vs hvs)

theorem renamedArgs_renameRefs {ns ns' : List Name} (h : Follows n m ns ns') :
    ∀ es : List TyExpr, m ∉ namesArgs es → RenamedArgs n m ns ns' es (renameRefsArgs n m es)
  | [], _ => .nil
  | e :: es, hm => by
    obtain ⟨he, hes⟩ := not_or.1 (mt List.mem_append.2 hm)
    exact .cons (renamed_renameRefs h e he) (renamedArgs_renameRefs h es hes)

end

/-- The renamed binder binds the renamed references. -/
theorem follows_cons (n m : Name) (ns : List Name) : Follows n m (n :: ns) (m :: ns) := by
  intro x hx
  by_cases hxn : x = n
  · rw [if_pos hxn]
    exact .cons (iff_of_true hxn.symm rfl) fun hn => absurd hxn.symm hn
  · rw [if_neg hxn]
    exact .cons (iff_of_false (Ne.symm hxn) (Ne.symm hx)) fun _ => .refl ns x

theorem RenamedRow.replace {ns : List Name} {l : Name} {e e' : TyExpr} {qs : List (Name × TyExpr)}
    (he : m ∉ e.names → e.Renamed n m ns ns e') :
    ∀ ps : List (Name × TyExpr), m ∉ namesRow (ps ++ (l, e) :: qs) →
      RenamedRow n m ns ns (ps ++ (l, e) :: qs) (ps ++ (l, e') :: qs)
  | [], hm => by
    obtain ⟨hme, hqs⟩ := not_or.1 (mt List.mem_append.2 hm)
    exact .cons (he hme) (renamedRow_self (fun x _ => .refl ns x) qs hqs)
  | (_, d) :: ps, hm => by
    obtain ⟨hd, hps⟩ := not_or.1 (mt List.mem_append.2 hm)
    exact .cons (renamed_self (fun x _ => .refl ns x) d hd) (RenamedRow.replace he ps hps)

theorem RenamedVariants.replace {ns : List Name} {l : Name} {qs qs' : List (Name × TyExpr)}
    {ws : List (Name × List (Name × TyExpr))} (hqs : m ∉ namesRow qs → RenamedRow n m ns ns qs qs') :
    ∀ vs : List (Name × List (Name × TyExpr)), m ∉ namesVariants (vs ++ (l, qs) :: ws) →
      RenamedVariants n m ns ns (vs ++ (l, qs) :: ws) (vs ++ (l, qs') :: ws)
  | [], hm => by
    obtain ⟨hmqs, hws⟩ := not_or.1 (mt List.mem_append.2 hm)
    exact .cons (hqs hmqs) (renamedVariants_self (fun x _ => .refl ns x) ws hws)
  | (_, ps) :: vs, hm => by
    obtain ⟨hps, hvs⟩ := not_or.1 (mt List.mem_append.2 hm)
    exact .cons (renamedRow_self (fun x _ => .refl ns x) ps hps) (RenamedVariants.replace hqs vs hvs)

theorem RenamedArgs.replace {ns : List Name} {e e' : TyExpr} {bs : List TyExpr}
    (he : m ∉ e.names → e.Renamed n m ns ns e') :
    ∀ as : List TyExpr, m ∉ namesArgs (as ++ e :: bs) → RenamedArgs n m ns ns (as ++ e :: bs) (as ++ e' :: bs)
  | [], hm => by
    obtain ⟨hme, hbs⟩ := not_or.1 (mt List.mem_append.2 hm)
    exact .cons (he hme) (renamedArgs_self (fun x _ => .refl ns x) bs hbs)
  | d :: as, hm => by
    obtain ⟨hd, has⟩ := not_or.1 (mt List.mem_append.2 hm)
    exact .cons (renamed_self (fun x _ => .refl ns x) d hd) (RenamedArgs.replace he as has)

theorem Renamed.param {ns ps qs : List Name} {s : Span} {e e' : TyExpr} (hps : m ∉ ps) (hqs : m ∉ qs)
    (h : e.Renamed n m (qs.reverse ++ n :: (ps.reverse ++ ns)) (qs.reverse ++ m :: (ps.reverse ++ ns)) e') :
    Renamed n m ns ns (.mk s (.generic (ps ++ n :: qs) e)) (.mk s (.generic (ps ++ m :: qs) e')) := by
  refine .generic (List.rel_append (forall₂_renamedBinder_self hps) (.cons (.inr ⟨rfl, rfl⟩)
    (forall₂_renamedBinder_self hqs))) ?_
  simpa only [List.reverse_append, List.reverse_cons, List.append_assoc, List.cons_append, List.nil_append] using h

private theorem not_mem_param {ps qs : List Name} {s : Span} {e : TyExpr}
    (hm : m ∉ (TyExpr.mk s (.generic (ps ++ n :: qs) e)).names) : m ∉ ps ∧ m ∉ qs ∧ m ∉ e.names := by
  simp only [names, namesForm, List.mem_append, List.mem_cons, not_or] at hm
  exact ⟨hm.1.1, hm.1.2.2, hm.2⟩

/-- Renaming one binder to a new name renames binders. -/
theorem RenamesBinder.renamed {e e' : TyExpr} (h : e.RenamesBinder n m e') {ns : List Name} (hm : m ∉ e.names) :
    e.Renamed n m ns ns e' := by
  induction h generalizing ns with
  | @mu _ e =>
    have hme : m ∉ e.names := fun h => hm (.tail n h)
    exact .mu (.inr ⟨rfl, rfl⟩) (renamed_renameRefs (follows_cons n m ns) e hme)
  | @param _ ps qs e hn =>
    obtain ⟨hps, hqs, hme⟩ := not_mem_param hm
    have hfollows := (follows_cons n m (ps.reverse ++ ns)).append (mt List.mem_reverse.1 hn) (mt List.mem_reverse.1 hqs)
    exact .param hps hqs (renamed_renameRefs hfollows e hme)
  | @repeated _ ps qs e hn =>
    obtain ⟨hps, hqs, hme⟩ := not_mem_param hm
    exact .param hps hqs (renamed_self ((follows_cons n m _).shadow (List.mem_reverse.2 hn)) e hme)
  | inContainer _ ih => exact .container (ih hm)
  | @inParam _ ps qs l e e' r _ ih =>
    obtain ⟨hps, hr⟩ := not_or.1 (mt List.mem_append.2 hm)
    exact .func (RenamedRow.replace ih ps hps) (renamed_self (fun x _ => .refl ns x) r hr)
  | @inResult _ ps r r' _ ih =>
    obtain ⟨hps, hr⟩ := not_or.1 (mt List.mem_append.2 hm)
    exact .func (renamedRow_self (fun x _ => .refl ns x) ps hps) (ih hr)
  | @inProperty _ ps qs l e e' _ ih => exact .object (RenamedRow.replace ih ps hm)
  | @inVariant _ vs ws ps qs k l e e' _ ih => exact .union (RenamedVariants.replace (RenamedRow.replace ih ps) vs hm)
  | inMu _ ih =>
    obtain ⟨hb, he⟩ := not_or.1 (mt List.mem_cons.2 hm)
    exact .mu (.inl ⟨rfl, Ne.symm hb⟩) (ih he)
  | inGeneric _ ih =>
    obtain ⟨hbs, he⟩ := not_or.1 (mt List.mem_append.2 hm)
    exact .generic (forall₂_renamedBinder_self hbs) (ih he)
  | @inArg _ x as bs e e' _ ih =>
    obtain ⟨hx, hes⟩ := not_or.1 (mt List.mem_cons.2 hm)
    exact .app (.refl ns x) (RenamedArgs.replace ih as hes)

end TyExpr

/-! ### Programs -/

/-- One binder, of the annotation or of the body of an alias, is renamed from `n` to `m`. -/
inductive RenamesOne (n m : Name) : Aliases → TyExpr → Aliases → TyExpr → Prop where
  | inAnnotation {aliases : Aliases} {e e' : TyExpr} (h : e.RenamesBinder n m e') : RenamesOne n m aliases e aliases e'
  | inAlias {as bs : Aliases} {a : Alias} {body : TyExpr} {e : TyExpr} (h : a.body.RenamesBinder n m body) :
    RenamesOne n m (as ++ a :: bs) e (as ++ { a with body } :: bs) e

/-- The name occurs nowhere in the annotation and in the aliases. -/
def Unused (m : Name) (aliases : Aliases) (e : TyExpr) : Prop :=
  m ∉ e.names ∧ ∀ a ∈ aliases, m ≠ a.name ∧ m ∉ a.params.getD [] ∧ m ∉ a.body.names

variable {n m : Name} {aliases aliases' : Aliases} {e e' : TyExpr}

/-- Renaming one binder to an unused name renames binders. -/
theorem Unused.renamed (hm : Unused m aliases e) (h : RenamesOne n m aliases e aliases' e') :
    List.Forall₂ (Alias.Renamed n m) aliases aliases' ∧ e.Renamed n m [] [] e' := by
  have hself : ∀ l : Aliases, (∀ a ∈ l, m ∉ a.params.getD [] ∧ m ∉ a.body.names) →
      List.Forall₂ (Alias.Renamed n m) l l :=
    fun l hl => List.forall₂_same.2 fun a ha =>
      ⟨rfl, rfl, (hl a ha).1, TyExpr.renamed_self (fun x _ => .refl _ x) a.body (hl a ha).2⟩
  obtain ⟨hme, hmaliases⟩ := hm
  cases h with
  | inAnnotation h => exact ⟨hself aliases fun a ha => (hmaliases a ha).2, h.renamed hme⟩
  | @inAlias as bs a body _ h =>
    obtain ⟨has, habs⟩ := List.forall_mem_append.1 hmaliases
    obtain ⟨ha, hbs⟩ := List.forall_mem_cons.1 habs
    refine ⟨List.rel_append (hself as fun b hb => (has b hb).2) (.cons ⟨rfl, rfl, ha.2.1, h.renamed ha.2.2⟩
      (hself bs fun b hb => (hbs b hb).2)), ?_⟩
    exact TyExpr.renamed_self (fun x _ => .refl _ x) e hme

/-! ### A program with a binder to rename -/

/-- `{ q: C; z: b }` -/
def backBody (b : Name) : TyExpr :=
  .mk ⟨3, 4⟩ (.object [("q", .mk ⟨1, 2⟩ (.ref "C")), ("z", .mk ⟨2, 3⟩ (.ref b))])

/-- `type A = { p: <b>{ q: C; z: b } }` and `type C = { back: A }` -/
def backAliases (b : Name) : Aliases := [
  { name := "A"
    params := none
    body := .mk ⟨5, 6⟩ (.object [("p", .mk ⟨4, 5⟩ (.generic [b] (backBody b)))])
    span := ⟨0, 6⟩ },
  { name := "C"
    params := none
    body := .mk ⟨8, 9⟩ (.object [("back", .mk ⟨7, 8⟩ (.ref "A"))])
    span := ⟨6, 9⟩ }]

/-- `A` -/
def backReference : TyExpr :=
  .mk ⟨10, 11⟩ (.ref "A")

private theorem backAliases_renamesOne {b c : Name} (hb : b ≠ "C") (e : TyExpr) :
    RenamesOne b c (backAliases b) e (backAliases c) e := by
  have hbody : (backBody b).renameRefs b c = backBody c := by
    simp [backBody, TyExpr.renameRefs, TyExpr.renameRefsForm, TyExpr.renameRefsRow, Ne.symm hb]
  have hparam : TyExpr.RenamesBinder b c (.mk ⟨4, 5⟩ (.generic [b] (backBody b)))
      (.mk ⟨4, 5⟩ (.generic [c] (backBody c))) :=
    hbody ▸ @TyExpr.RenamesBinder.param b c ⟨4, 5⟩ [] [] (backBody b) List.not_mem_nil
  exact @RenamesOne.inAlias b c [] _ _ _ e (@TyExpr.RenamesBinder.inProperty b c _ [] [] "p" _ _ hparam)

private theorem backAliases_unnumbered {b : Name} (hb : '@' ∉ b.toList) : (backAliases b).Unnumbered := by
  simpa [Aliases.Unnumbered, backAliases, backBody, TyExpr.Unnumbered, TyExpr.binders, TyExpr.bindersForm,
    TyExpr.bindersRow] using hb

private theorem backReference_unnumbered : backReference.Unnumbered := by
  simp [backReference, TyExpr.Unnumbered, TyExpr.binders, TyExpr.bindersForm]

private theorem backAliases_unused {b c : Name} (hc : c ∉ ["A", "C", b]) : Unused c (backAliases b) backReference := by
  simp only [List.mem_cons, List.not_mem_nil, or_false, not_or] at hc
  simp [Unused, backReference, backAliases, backBody, TyExpr.names, TyExpr.namesForm, TyExpr.namesRow, hc]

/-- `{ p: <b>{ q: { back: A }; z: b } }` -/
def backTy (b : Name) : Ty :=
  .object [("p", .generic [b] (.object [("q", .object [("back", .var "A")]), ("z", .var b)]))]

/-! ### Renaming -/

/-- Renaming a binder that does not have the name of an alias, together with the references to it, changes no more than
the names of binders in the type that an annotation means. -/
theorem TyExpr.resolve_renamesOne (haliases : aliases.Unnumbered) (he : e.Unnumbered) (hnumber : '@' ∉ m.toList)
    (hm : Unused m aliases e) (hn : ∀ a ∈ aliases, n ≠ a.name) (h : RenamesOne n m aliases e aliases' e') {t : Ty}
    (ht : (e.resolve aliases []).result = .ok t) :
    ∃ t', (e'.resolve aliases' []).result = .ok t' ∧ t.alphaEquiv t' = true := by
  obtain ⟨hrenamed, hrenamed'⟩ := hm.renamed h
  have hsteady : ∀ a ∈ aliases, Steady n m a.name := fun a ha =>
    ⟨Ne.symm (hn a ha), Ne.symm (hm.2 a ha).1, (haliases a ha).1⟩
  obtain ⟨t', ht', hbare⟩ := TyExpr.resolve_renamed hrenamed hsteady haliases hnumber he hrenamed' ht
  obtain ⟨s, hin⟩ := TyExpr.inOrder_of_resolve haliases he ht
  exact ⟨t', ht', hin.wellFormed.alphaEquiv_of_bare_eq hbare⟩

/-- Without a binder `A` in the body of `A`, the type does not depend on how the binder there is called. -/
theorem resolve_renamesOne_back :
    ∃ t', (backReference.resolve (backAliases "Y") []).result = .ok t' ∧
      (Ty.mu "A" (backTy "X")).alphaEquiv t' = true :=
  TyExpr.resolve_renamesOne (backAliases_unnumbered (by decide)) backReference_unnumbered (by decide)
    (backAliases_unused (by decide)) (by decide) (backAliases_renamesOne (by decide) backReference)
    (show (backReference.resolve (backAliases "X") []).result = .ok (.mu "A" (backTy "X")) by cbv)

/-- The reference to `A` in the body of `C` comes to mean the binder `A` in the body of `A`, and it does not when this
binder has another name. -/
theorem resolve_captures :
    (backAliases "A").Unnumbered ∧ backReference.Unnumbered ∧ Unused "B" (backAliases "A") backReference ∧
    RenamesOne "A" "B" (backAliases "A") backReference (backAliases "B") backReference ∧
    (backReference.resolve (backAliases "A") []).result = .ok (backTy "A") ∧
    (backReference.resolve (backAliases "B") []).result = .ok (.mu "A" (backTy "B")) ∧
    (backTy "A").alphaEquiv (.mu "A" (backTy "B")) = false :=
  ⟨backAliases_unnumbered (by decide), backReference_unnumbered, backAliases_unused (by decide),
    backAliases_renamesOne (by decide) backReference, by cbv, by cbv, by cbv⟩

end MuTypes
