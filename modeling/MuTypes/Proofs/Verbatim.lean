import MuTypes.Proofs.Contractive
import MuTypes.Proofs.Resolution
import MuTypes.Proofs.Spans.Annotations
import MuTypes.TyExpr.Verbatim

/-!
# Without aliases, annotations are read verbatim

In a program without aliases exactly the well-formed annotations have a meaning, and it is the type of the same form
(`Program.resolve_verbatim`).  Resolving such an annotation draws no name.  So a type that is written down as an
annotation is what this annotation means, provided that some well-formed annotation is read as the type.

Resolving decides: it gives one type when a condition holds, and ends with a violated rule when it does not
(`CheckM.Decides`).  A binder of the annotation puts one name more into the scope, so the condition for the whole is put
together from the conditions for the parts in the scopes that `Scope.Binds` describes.
-/

namespace MuTypes

open NameSupply

/-! ### Deciding -/

namespace CheckM

variable {α β : Type} {m : CheckM α} {f : α → CheckM β} {P Q : Prop} {a : α} {b : β}

/-- The check ends with a violated rule and has drawn no name. -/
def Refuses (m : CheckM α) : Prop :=
  ∀ s : NameSupply, ∃ d, m.run.run s = (.error (.rule d), s)

/-- The check gives this result and draws no name when the condition holds, and otherwise ends with a violated rule. -/
structure Decides (m : CheckM α) (P : Prop) (a : α) : Prop where
  gives : P → ∀ s : NameSupply, m.run.run s = (.ok a, s)
  refuses : ¬ P → m.Refuses

theorem Refuses.violation (v : Violation) (span : Span) : (CheckM.violation v span : CheckM α).Refuses :=
  fun _ => ⟨⟨v, span⟩, rfl⟩

theorem Refuses.bind (h : m.Refuses) (f : α → CheckM β) : (m >>= f).Refuses := by
  intro s
  obtain ⟨d, hd⟩ := h s
  refine ⟨d, ?_⟩
  rw [ExceptT.run_bind, StateT.run_bind, hd]
  rfl

theorem Refuses.mapSpan (h : m.Refuses) (g : Span → Span) : (m.mapSpan g).Refuses := by
  intro s
  obtain ⟨d, hd⟩ := h s
  refine ⟨d.mapSpan g, ?_⟩
  rw [run_mapSpan, hd]
  rfl

theorem Refuses.decides (h : m.Refuses) (hP : ¬ P) (a : α) : Decides m P a :=
  ⟨fun hP' => absurd hP' hP, fun _ => h⟩

namespace Decides

theorem pure (hP : P) (a : α) : Decides (Pure.pure a) P a :=
  ⟨fun _ _ => rfl, fun h => absurd hP h⟩

theorem violation (hP : ¬ P) (v : Violation) (span : Span) (a : α) : Decides (CheckM.violation v span) P a :=
  (Refuses.violation v span).decides hP a

theorem congr (h : Decides m P a) (hiff : P ↔ Q) : Decides m Q a := by
  rwa [← propext hiff]

/-- Both conditions have to hold, and the second one counts only where the first one holds. -/
theorem bind (hm : Decides m P a) (hf : P → Decides (f a) Q b) : Decides (m >>= f) (P ∧ Q) b := by
  by_cases hP : P
  · have hrun : ∀ s : NameSupply, (m >>= f).run.run s = (f a).run.run s := fun s => run_bind_of_ok (hm.gives hP s) f
    refine ⟨fun h s => (hrun s).trans ((hf hP).gives h.2 s), fun h s => ?_⟩
    rw [hrun]
    exact (hf hP).refuses (fun hQ => h ⟨hP, hQ⟩) s
  · exact ((hm.refuses hP).bind f).decides (fun h => hP h.1) b

theorem map (hm : Decides m P a) (g : α → β) : Decides (m >>= fun a => Pure.pure (g a)) P (g a) :=
  (hm.bind fun _ => .pure trivial (g a)).congr (and_iff_left trivial)

theorem mapSpan (hm : Decides m P a) (g : Span → Span) : Decides (m.mapSpan g) P a := by
  refine ⟨fun hP s => ?_, fun hP => (hm.refuses hP).mapSpan g⟩
  rw [run_mapSpan, hm.gives hP]
  rfl

theorem run_eq_ok_iff (hm : Decides m P a) {s s' : NameSupply} {a' : α} :
    m.run.run s = (.ok a', s') ↔ P ∧ a' = a ∧ s' = s := by
  constructor
  · intro h
    by_cases hP : P
    · rw [hm.gives hP] at h
      cases h
      exact ⟨hP, rfl, rfl⟩
    · obtain ⟨d, hd⟩ := hm.refuses hP s
      rw [hd] at h
      cases h
  · rintro ⟨hP, rfl, rfl⟩
    exact hm.gives hP s'

end Decides

end CheckM

open CheckM (Refuses Decides)

theorem expectDistinct_decides (params : List Name) (span : Span) :
    Decides (expectDistinct params span) params.Nodup () := by
  unfold expectDistinct
  split
  · rename_i n h
    refine .violation (fun hd => ?_) _ _ ()
    rw [firstRepeat_nil_eq_none_iff.2 hd] at h
    cases h
  · rename_i h
    exact .pure (firstRepeat_nil_eq_none_iff.1 h) ()

theorem recursive_decides (n : Name) (b : Ty) (span : Span) :
    Decides (recursive n b span) ((Ty.mu n b).isContractive = true) (.mu n b) := by
  unfold recursive
  split
  · rename_i hc
    exact .pure hc _
  · rename_i hc
    exact .violation hc _ _ _

/-! ### Scopes -/

/-- The scope has the names of these recursive types and these type parameters, and each stands for itself. -/
structure Scope.Binds (scope : Scope) (mus params : List Name) : Prop where
  hasMu : ∀ n, scope.hasMu n = true ↔ n ∈ mus
  names : ∀ n, n ∈ scope.map (·.name) ↔ n ∈ mus ∨ n ∈ params
  meaning : ∀ v ∈ scope, v.meaning = v.name

namespace Scope.Binds

variable {scope : Scope} {mus params : List Name}

theorem nil : Binds [] [] [] :=
  ⟨by simp [Scope.hasMu], by simp, by simp⟩

theorem enterMu (h : scope.Binds mus params) (n : Name) : (scope.enterMu n).Binds (n :: mus) params := by
  refine ⟨fun m => ?_, fun m => ?_, List.forall_mem_cons.2 ⟨rfl, h.meaning⟩⟩
  · have hcons : (scope.enterMu n).hasMu m = (decide (n = m) || scope.hasMu m) := rfl
    rw [hcons, Bool.or_eq_true, decide_eq_true_iff, h.hasMu m, List.mem_cons, eq_comm]
  · rw [Scope.enterMu, List.map_cons, List.mem_cons, h.names m, List.mem_cons, or_assoc]

theorem enterParams (h : scope.Binds mus params) (ns : List Name) :
    (scope.enterParams ns ns).Binds mus (ns ++ params) := by
  have henter : scope.enterParams ns ns = (ns.map fun n => (⟨n, n, false⟩ : Visible)).reverse ++ scope := by
    rw [Scope.enterParams, List.zipWith_self]
  refine ⟨fun m => ?_, fun m => ?_, ?_⟩
  · rw [← h.hasMu m, henter, Scope.hasMu, List.any_append, Scope.hasMu]
    simp
  · rw [henter, List.map_append, List.mem_append, h.names m, List.mem_append, or_left_comm]
    simp
  · rw [henter, List.forall_mem_append]
    refine ⟨fun v hv => ?_, h.meaning⟩
    obtain ⟨n, -, rfl⟩ := List.mem_map.1 (List.mem_reverse.1 hv)
    rfl

theorem find?_eq_none_iff (h : scope.Binds mus params) {n : Name} :
    scope.find? n = none ↔ ¬ (n ∈ mus ∨ n ∈ params) := by
  rw [← h.names n, Scope.find?, List.find?_eq_none]
  simp

theorem meaning_of_find? (h : scope.Binds mus params) {n : Name} {v : Visible} (hv : scope.find? n = some v) :
    v.meaning = n := by
  have hname : v.name = n := by simpa using List.find?_some hv
  rw [h.meaning v (List.mem_of_find?_eq_some hv), hname]

end Scope.Binds

/-! ### Reading -/

namespace TyExpr

variable {mus params : List Name} {e : TyExpr}

theorem muNames_verbatim : ∀ e : TyExpr, e.verbatim.muNames = e.muNames
  | .mk _ (.mu n b) => congrArg (n :: ·) b.muNames_verbatim
  | .mk _ (.prim _) | .mk _ (.container ..) | .mk _ (.func ..) | .mk _ (.object _) | .mk _ (.union _)
  | .mk _ (.generic ..) | .mk _ (.ref _) | .mk _ (.app ..) => rfl

/-- Below the leading binders of a well-formed annotation stands a name just when a variable is read there. -/
theorem WellFormed.muBody_eq_var_iff (h : e.WellFormed mus params) {x : Name} :
    e.verbatim.muBody = .var x ↔ e.muBody.form = .ref x := by
  induction h with
  | mu _ _ _ ih => exact ih
  | ref _ => exact ⟨fun h => congrArg TyForm.ref (Ty.var.inj h), fun h => congrArg Ty.var (TyForm.ref.inj h)⟩
  | _ => exact ⟨nofun, nofun⟩

/-- A recursive annotation with a well-formed body is contractive just when the type that it is read as is. -/
theorem WellFormed.isContractive_iff (h : e.WellFormed mus params) (n : Name) :
    (Ty.mu n e.verbatim).isContractive = true ↔ ∀ m ∈ n :: e.muNames, e.muBody.form ≠ .ref m := by
  rw [Ty.isContractive_iff_muBody, Ty.muNames, Ty.muBody, muNames_verbatim]
  simp only [ne_eq, h.muBody_eq_var_iff]

/-! ### Resolving -/

variable {x : Expansion} {scope : Scope}

theorem plain_decides (hx : x.aliases = []) (hscope : scope.Binds mus params) (span : Span) (n : Name) :
    Decides (x.plain scope span n) (n ∈ mus ∨ n ∈ params) (.var n) := by
  unfold Expansion.plain
  split
  · rename_i v hv
    rw [hscope.meaning_of_find? hv]
    refine .pure (by_contra fun hn => ?_) _
    rw [hscope.find?_eq_none_iff.2 hn] at hv
    cases hv
  · rename_i hn
    rw [hx]
    exact .violation (hscope.find?_eq_none_iff.1 hn) _ _ _

theorem generic_refuses (hx : x.aliases = []) (scope : Scope) (span : Span) (n : Name) (k : Nat) :
    (x.generic scope span n k).Refuses := by
  unfold Expansion.generic
  split
  · exact .violation _ _
  · rw [hx]
    exact .violation _ _

mutual

/-- Resolving an annotation decides whether it is well-formed where it stands. -/
theorem resolveIn_decides (hx : x.aliases = []) {mus params : List Name} {scope : Scope}
    (hscope : scope.Binds mus params) :
    ∀ e : TyExpr, Decides (e.resolveIn x scope) (e.WellFormed mus params) e.verbatim
  | .mk span form => resolveForm_decides hx hscope span form

theorem resolveForm_decides (hx : x.aliases = []) {mus params : List Name} {scope : Scope}
    (hscope : scope.Binds mus params) (span : Span) :
    ∀ form : TyForm, Decides (resolveForm x scope span form) ((mk span form).WellFormed mus params) (verbatimForm form)
  | .prim p => .pure (.prim p) _
  | .container k e =>
    ((resolveIn_decides hx hscope e).map (Ty.container k)).congr ⟨.container, fun | .container he => he⟩
  | .func ps r => by
    refine ((resolveParamRow_decides hx hscope ps).bind fun _ =>
      (resolveIn_decides hx hscope r).map (Ty.func (verbatimRow ps))).congr ?_
    exact ⟨fun h => .func h.1 h.2, fun | .func hps hr => ⟨hps, hr⟩⟩
  | .object ps => by
    refine ((resolveRow_decides hx hscope span [] ps).map Ty.object).congr ?_
    rw [firstRepeat_nil_eq_none_iff]
    exact ⟨fun h => .object h.1 h.2, fun | .object hd hps => ⟨hd, hps⟩⟩
  | .union vs => by
    refine ((resolveVariants_decides hx hscope span [] vs).map Ty.union).congr ?_
    rw [firstRepeat_nil_eq_none_iff]
    exact ⟨fun h => .union h.1 (fun v hv => (h.2 v hv).1) fun v hv => (h.2 v hv).2,
      fun | .union hd hds hvs => ⟨hd, fun v hv => ⟨hds v hv, hvs v hv⟩⟩⟩
  | .mu n b => by
    unfold resolveForm
    split
    · rename_i hmu
      exact .violation (fun | .mu hn _ _ => hn ((hscope.hasMu n).1 hmu)) _ _ _
    · rename_i hmu
      have hn : n ∉ mus := fun h => hmu ((hscope.hasMu n).2 h)
      -- only of a body that is well-formed does the type say what stands below the leading binders
      refine ((resolveIn_decides hx (hscope.enterMu n) b).bind fun _ => recursive_decides n b.verbatim span).congr ?_
      exact ⟨fun h => .mu hn ((h.1.isContractive_iff n).1 h.2) h.1,
        fun | .mu _ hc hb => ⟨hb, (hb.isContractive_iff n).2 hc⟩⟩
  | .generic ns b => by
    refine ((expectDistinct_decides ns span).bind fun _ =>
      (resolveIn_decides hx (hscope.enterParams ns) b).map (Ty.generic ns)).congr ?_
    exact ⟨fun h => .generic h.1 h.2, fun | .generic hns hb => ⟨hns, hb⟩⟩
  | .ref n => (plain_decides hx hscope span n).congr ⟨.ref, fun | .ref hn => hn⟩
  | .app n es => ((generic_refuses hx scope span n es.length).bind _).decides nofun _

theorem resolveParamRow_decides (hx : x.aliases = []) {mus params : List Name} {scope : Scope}
    (hscope : scope.Binds mus params) :
    ∀ ps : List (Name × TyExpr),
      Decides (resolveParamRow x scope ps) (∀ p ∈ ps, p.2.WellFormed mus params) (verbatimRow ps)
  | [] => .pure nofun _
  | (n, e) :: ps => by
    refine ((resolveIn_decides hx hscope e).bind fun _ =>
      (resolveParamRow_decides hx hscope ps).map ((n, e.verbatim) :: ·)).congr ?_
    rw [List.forall_mem_cons]

theorem resolveRow_decides (hx : x.aliases = []) {mus params : List Name} {scope : Scope}
    (hscope : scope.Binds mus params) (span : Span) (seen : List Name) :
    ∀ ps : List (Name × TyExpr),
      Decides (resolveRow x scope span seen ps)
        (firstRepeat seen (ps.map Prod.fst) = none ∧ ∀ p ∈ ps, p.2.WellFormed mus params) (verbatimRow ps)
  | [] => .pure ⟨rfl, nofun⟩ _
  | (n, e) :: ps => by
    unfold resolveRow
    rw [List.map_cons, firstRepeat_cons_eq_none_iff, List.forall_mem_cons]
    split
    · rename_i hn
      exact .violation (fun h => h.1.1 hn) _ _ _
    · rename_i hn
      refine ((resolveIn_decides hx hscope e).bind fun _ =>
        (resolveRow_decides hx hscope span (n :: seen) ps).map ((n, e.verbatim) :: ·)).congr ?_
      rw [and_iff_right hn, and_left_comm]

theorem resolveVariants_decides (hx : x.aliases = []) {mus params : List Name} {scope : Scope}
    (hscope : scope.Binds mus params) (span : Span) (seen : List Name) :
    ∀ vs : List (Name × List (Name × TyExpr)),
      Decides (resolveVariants x scope span seen vs)
        (firstRepeat seen (vs.map Prod.fst) = none ∧
          ∀ v ∈ vs, (v.2.map Prod.fst).Nodup ∧ ∀ p ∈ v.2, p.2.WellFormed mus params) (verbatimVariants vs)
  | [] => .pure ⟨rfl, nofun⟩ _
  | (l, ps) :: vs => by
    unfold resolveVariants
    rw [List.map_cons, firstRepeat_cons_eq_none_iff, List.forall_mem_cons]
    split
    · rename_i hl
      exact .violation (fun h => h.1.1 hl) _ _ _
    · rename_i hl
      refine ((resolveRow_decides hx hscope span [] ps).bind fun _ =>
        (resolveVariants_decides hx hscope span (l :: seen) vs).map ((l, verbatimRow ps) :: ·)).congr ?_
      rw [firstRepeat_nil_eq_none_iff, and_iff_right hl, and_left_comm]

end

end TyExpr

/-! ### Writing -/

/-- The builder makes something with this property, and declares no alias. -/
def Makes {α : Type} (m : StateM Program α) (Q : α → Prop) : Prop :=
  ∀ p : Program, Q (m.run p).1 ∧ (m.run p).2.aliases = p.aliases

namespace Makes

variable {α β : Type} {m : StateM Program α} {f : α → StateM Program β} {P Q : α → Prop} {R : β → Prop} {a : α}

theorem pure (h : Q a) : Makes (Pure.pure a) Q :=
  fun _ => ⟨h, rfl⟩

theorem node {form : TyForm} {Q : TyExpr → Prop} (h : ∀ span, Q (.mk span form)) :
    Makes (modifyGet (Program.makeTyExpr form)) Q :=
  fun _ => ⟨h _, rfl⟩

theorem bind (hm : Makes m Q) (hf : ∀ a, Q a → Makes (f a) R) : Makes (m >>= f) R := by
  intro p
  obtain ⟨hQ, haliases⟩ := hm p
  obtain ⟨hR, haliases'⟩ := hf _ hQ (m.run p).2
  exact ⟨hR, haliases'.trans haliases⟩

theorem and (hP : Makes m P) (hQ : Makes m Q) : Makes m fun a => P a ∧ Q a :=
  fun p => ⟨⟨(hP p).1, (hQ p).1⟩, (hP p).2⟩

end Makes

namespace Ty

mutual

/-- The annotation that is written down for a type is read as the type. -/
theorem lower_verbatim : ∀ t : Ty, Makes t.lower fun e => e.verbatim = t
  | .prim _ => .node fun _ => rfl
  | .container k t => t.lower_verbatim.bind fun _ he => .node fun _ => congrArg (Ty.container k) he
  | .func ps r =>
    (lowerRow_verbatim ps).bind fun _ hps => r.lower_verbatim.bind fun _ hr => .node fun _ => congrArg₂ Ty.func hps hr
  | .object ps => (lowerRow_verbatim ps).bind fun _ hps => .node fun _ => congrArg Ty.object hps
  | .union vs => (lowerVariants_verbatim vs).bind fun _ hvs => .node fun _ => congrArg Ty.union hvs
  | .mu n b => b.lower_verbatim.bind fun _ hb => .node fun _ => congrArg (Ty.mu n) hb
  | .generic ns b => b.lower_verbatim.bind fun _ hb => .node fun _ => congrArg (Ty.generic ns) hb
  | .var _ => .node fun _ => rfl

theorem lowerRow_verbatim : ∀ ps : Row, Makes (lowerRow ps) fun es => TyExpr.verbatimRow es = ps
  | [] => .pure rfl
  | (n, t) :: ps =>
    t.lower_verbatim.bind fun _ he => (lowerRow_verbatim ps).bind fun _ hes =>
      .pure (congrArg₂ (fun t ps => (n, t) :: ps) he hes)

theorem lowerVariants_verbatim : ∀ vs : Variants, Makes (lowerVariants vs) fun es => TyExpr.verbatimVariants es = vs
  | [] => .pure rfl
  | (l, ps) :: vs =>
    (lowerRow_verbatim ps).bind fun _ hps => (lowerVariants_verbatim vs).bind fun _ hes =>
      .pure (congrArg₂ (fun ps vs => (l, ps) :: vs) hps hes)

end

end Ty

namespace TyExpr

variable {P : TyExpr → Prop}

theorem lowerRow_makes {ps : List (Name × TyExpr)} (h : ∀ p ∈ ps, Makes p.2.verbatim.lower P) :
    Makes (Ty.lowerRow (verbatimRow ps)) fun es => es.map Prod.fst = ps.map Prod.fst ∧ ∀ q ∈ es, P q.2 := by
  induction ps with
  | nil => exact .pure ⟨rfl, nofun⟩
  | cons p ps ih =>
    obtain ⟨hp, hps⟩ := List.forall_mem_cons.1 h
    refine hp.bind fun e he => (ih hps).bind fun es hes => .pure ?_
    exact ⟨congrArg (p.1 :: ·) hes.1, List.forall_mem_cons.2 ⟨he, hes.2⟩⟩

theorem lowerVariants_makes {vs : List (Name × List (Name × TyExpr))}
    (h : ∀ v ∈ vs, ∀ p ∈ v.2, Makes p.2.verbatim.lower P) (hd : ∀ v ∈ vs, (v.2.map Prod.fst).Nodup) :
    Makes (Ty.lowerVariants (verbatimVariants vs)) fun es =>
      es.map Prod.fst = vs.map Prod.fst ∧ ∀ v ∈ es, (v.2.map Prod.fst).Nodup ∧ ∀ q ∈ v.2, P q.2 := by
  induction vs with
  | nil => exact .pure ⟨rfl, nofun⟩
  | cons v vs ih =>
    obtain ⟨hv, hvs⟩ := List.forall_mem_cons.1 h
    obtain ⟨hdv, hdvs⟩ := List.forall_mem_cons.1 hd
    refine (lowerRow_makes hv).bind fun row hrow => (ih hvs hdvs).bind fun es hes => .pure ?_
    refine ⟨congrArg (v.1 :: ·) hes.1, List.forall_mem_cons.2 ⟨⟨?_, hrow.2⟩, hes.2⟩⟩
    rwa [hrow.1]

/-- What is read in a well-formed annotation is written down as a well-formed one. -/
theorem WellFormed.lower {mus params : List Name} {e : TyExpr} (h : e.WellFormed mus params) :
    Makes e.verbatim.lower (WellFormed mus params) := by
  induction h with
  | prim p => exact .node fun _ => .prim p
  | container _ ih => exact ih.bind fun e' he' => .node fun _ => .container he'
  | func _ _ ihps ihr =>
    exact (lowerRow_makes ihps).bind fun es hes => ihr.bind fun r' hr' => .node fun _ => .func hes.2 hr'
  | object hd _ ih =>
    refine (lowerRow_makes ih).bind fun es hes => .node fun _ => .object ?_ hes.2
    rwa [hes.1]
  | union hd hds _ ih =>
    refine (lowerVariants_makes ih hds).bind fun es hes => .node fun _ => ?_
    refine .union ?_ (fun v hv => (hes.2 v hv).1) fun v hv => (hes.2 v hv).2
    rwa [hes.1]
  | @mu _ _ _ n b hn hc hb ih =>
    refine (b.verbatim.lower_verbatim.and ih).bind fun b' hb' => .node fun _ => .mu hn ?_ hb'.2
    rw [← hb'.2.isContractive_iff, hb'.1, hb.isContractive_iff]
    exact hc
  | generic hns _ ih => exact ih.bind fun b' hb' => .node fun _ => .generic hns hb'
  | ref hn => exact .node fun _ => .ref hn

end TyExpr

/-! ### Programs without aliases -/

theorem Program.resolve_decides {p : Program} (hp : p.aliases = []) (e : TyExpr) :
    Decides (p.resolve e) (e.WellFormed [] []) e.verbatim := by
  rw [Program.resolve, hp]
  exact (TyExpr.resolveIn_decides rfl Scope.Binds.nil e).mapSpan p.place

/-- In a program without aliases an annotation has a meaning just when it is well-formed, and then it means the type
that is read in it; any other one violates a rule, and no name is drawn.  A type that is written down is what the
annotation means, if it can be read in some well-formed annotation at all. -/
theorem Program.resolve_verbatim {p : Program} (hp : p.aliases = []) :
    (∀ (e : TyExpr) (t : Ty) (s s' : NameSupply),
      (p.resolve e).run.run s = (.ok t, s') ↔ e.WellFormed [] [] ∧ t = e.verbatim ∧ s' = s) ∧
    (∀ (e : TyExpr) (s : NameSupply),
      ¬ e.WellFormed [] [] → ∃ d, (p.resolve e).run.run s = (.error (.rule d), s)) ∧
    ∀ (t : Ty) (s : NameSupply), (t.lower.run p).1.verbatim = t ∧
      (((t.lower.run p).2.resolve (t.lower.run p).1).run.run s = (.ok t, s) ↔
        ∃ e : TyExpr, e.WellFormed [] [] ∧ e.verbatim = t) := by
  refine ⟨fun e t s s' => (resolve_decides hp e).run_eq_ok_iff, fun e s h => (resolve_decides hp e).refuses h s,
    fun t s => ?_⟩
  obtain ⟨hverbatim, haliases⟩ := t.lower_verbatim p
  refine ⟨hverbatim, ?_⟩
  rw [(resolve_decides (haliases.trans hp) _).run_eq_ok_iff, hverbatim]
  constructor
  · exact fun h => ⟨_, h.1, hverbatim⟩
  · rintro ⟨e, he, rfl⟩
    exact ⟨(he.lower p).1, rfl, rfl⟩

/-- `mu X. { next: <X>(x: X) => X }` is written down and read back, as a type parameter may have the name of a recursive
type around it, but `mu X. <X>(mu X. number)` is refused. -/
theorem Program.resolve_verbatim_shadowed :
    ({} : Program).aliases = [] ∧
    (let t : Ty := .mu "X" (.object [("next", .generic ["X"] (.func [("x", .var "X")] (.var "X")))]);
      ((t.lower.run {}).2.resolve (t.lower.run {}).1).run.run ⟨1⟩ = (.ok t, ⟨1⟩)) ∧
    ∃ d, (({} : Program).resolve (.mk ⟨3, 4⟩ (.mu "X" (.mk ⟨2, 3⟩ (.generic ["X"] (.mk ⟨1, 2⟩ (.mu "X"
      (.mk ⟨0, 1⟩ (.prim .number))))))))).run.run ⟨1⟩ = (.error (.rule d), ⟨1⟩) := by
  obtain ⟨-, hrefuses, hlower⟩ := resolve_verbatim (p := {}) rfl
  refine ⟨rfl, (hlower _ ⟨1⟩).2.2 ⟨.mk ⟨5, 6⟩ (.mu "X" (.mk ⟨4, 5⟩ (.object [("next", .mk ⟨3, 4⟩ (.generic ["X"]
    (.mk ⟨2, 3⟩ (.func [("x", .mk ⟨0, 1⟩ (.ref "X"))] (.mk ⟨1, 2⟩ (.ref "X"))))))]))), ?_, rfl⟩, hrefuses _ _ ?_⟩
  · have href : ∀ span, TyExpr.WellFormed ["X"] ["X"] (.mk span (.ref "X")) := fun _ => .ref (Or.inl List.mem_cons_self)
    refine .mu (by simp) (fun _ _ => nofun) (.object (by simp) (List.forall_mem_singleton.2 ?_))
    exact .generic (by simp) (.func (List.forall_mem_singleton.2 (href _)) (href _))
  · exact fun | .mu _ _ (.generic _ (.mu hn _ _)) => hn List.mem_cons_self

end MuTypes
