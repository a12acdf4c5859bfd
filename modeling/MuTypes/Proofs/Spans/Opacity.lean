import Mathlib
import MuTypes.Proofs.Spans.Expressions

/-!
# Places are opaque

Changing the places in a program changes nothing but the place of a violation (`Expr.places_opaque`).  So the place of
a violation is one of the places in the program: a change that keeps all of these keeps the program, hence the outcome,
but it could move any other place (`Moved.span_mem`).
-/

namespace MuTypes

/-! ### The places in a program -/

namespace TyExpr

mutual

/-- The places in an annotation. -/
def spans : TyExpr → List Span
  | .mk s form => s :: spansForm form

/-- The places in what stands somewhere. -/
def spansForm : TyForm → List Span
  | .prim _ => []
  | .container _ e => e.spans
  | .func ps r => spansRow ps ++ r.spans
  | .object ps => spansRow ps
  | .union vs => spansVariants vs
  | .mu _ b => b.spans
  | .generic _ b => b.spans
  | .ref _ => []
  | .app _ es => spansArgs es

/-- `spans` of the annotations of a row. -/
def spansRow : List (Name × TyExpr) → List Span
  | [] => []
  | (_, e) :: ps => e.spans ++ spansRow ps

/-- `spans` of the annotations of all variants. -/
def spansVariants : List (Name × List (Name × TyExpr)) → List Span
  | [] => []
  | (_, ps) :: vs => spansRow ps ++ spansVariants vs

/-- `spans` of arguments. -/
def spansArgs : List TyExpr → List Span
  | [] => []
  | e :: es => e.spans ++ spansArgs es

end

variable {f : Span → Span}

mutual

/-- An annotation stays when its places do. -/
theorem mapSpan_eq_self : ∀ e : TyExpr, (∀ s ∈ e.spans, f s = s) → e.mapSpan f = e
  | .mk span form, h => by
    obtain ⟨hspan, hform⟩ := List.forall_mem_cons.1 h
    rw [mapSpan, hspan, mapSpanForm_eq_self form hform]

theorem mapSpanForm_eq_self : ∀ form : TyForm, (∀ s ∈ spansForm form, f s = s) → mapSpanForm f form = form
  | .prim _, _ => rfl
  | .container k e, h => congrArg (TyForm.container k) (mapSpan_eq_self e h)
  | .func ps r, h => by
    obtain ⟨hps, hr⟩ := List.forall_mem_append.1 h
    rw [mapSpanForm, mapSpanRow_eq_self ps hps, mapSpan_eq_self r hr]
  | .object ps, h => congrArg TyForm.object (mapSpanRow_eq_self ps h)
  | .union vs, h => congrArg TyForm.union (mapSpanVariants_eq_self vs h)
  | .mu n b, h => congrArg (TyForm.mu n) (mapSpan_eq_self b h)
  | .generic ns b, h => congrArg (TyForm.generic ns) (mapSpan_eq_self b h)
  | .ref _, _ => rfl
  | .app n es, h => congrArg (TyForm.app n) (mapSpanArgs_eq_self es h)

theorem mapSpanRow_eq_self : ∀ ps : List (Name × TyExpr), (∀ s ∈ spansRow ps, f s = s) → mapSpanRow f ps = ps
  | [], _ => rfl
  | (n, e) :: ps, h => by
    obtain ⟨he, hps⟩ := List.forall_mem_append.1 h
    rw [mapSpanRow, mapSpan_eq_self e he, mapSpanRow_eq_self ps hps]

theorem mapSpanVariants_eq_self : ∀ vs : List (Name × List (Name × TyExpr)),
    (∀ s ∈ spansVariants vs, f s = s) → mapSpanVariants f vs = vs
  | [], _ => rfl
  | (l, ps) :: vs, h => by
    obtain ⟨hps, hvs⟩ := List.forall_mem_append.1 h
    rw [mapSpanVariants, mapSpanRow_eq_self ps hps, mapSpanVariants_eq_self vs hvs]

theorem mapSpanArgs_eq_self : ∀ es : List TyExpr, (∀ s ∈ spansArgs es, f s = s) → mapSpanArgs f es = es
  | [], _ => rfl
  | e :: es, h => by
    obtain ⟨he, hes⟩ := List.forall_mem_append.1 h
    rw [mapSpanArgs, mapSpan_eq_self e he, mapSpanArgs_eq_self es hes]

end

end TyExpr

/-- The places of the aliases and of what stands in their bodies. -/
def Aliases.spans (aliases : Aliases) : List Span :=
  aliases.flatMap fun a => a.span :: a.body.spans

/-- The places of annotated parameters. -/
def paramSpans (params : List (Name × TyExpr)) : List Span :=
  params.flatMap fun p => p.2.spans

namespace Expr

mutual

/-- The places in an expression, also those in its annotations. -/
def spans : Expr → List Span
  | .mk s term => s :: spansTerm term

/-- The places in what stands somewhere. -/
def spansTerm : Term → List Span
  | .lit _ | .var _ => []
  | .emptyArray t | .emptyMap t => t.spans
  | .not e | .copyMap e | .assign _ e | .property e _ | .generic _ e => e.spans
  | .compare _ l r | .add l r | .seq l r | .bind _ l r | .append l r | .hasKey l r | .index l r => l.spans ++ r.spans
  | .cond a b c | .insert a b c | .forIndex a _ b c | .forItem a _ b c => a.spans ++ (b.spans ++ c.spans)
  | .call c es => c.spans ++ spansArgs es
  | .object inits => spansNamed inits
  | .variant _ inits t => spansNamed inits ++ t.spans
  | .widen e t => e.spans ++ t.spans
  | .instantiate e ts => e.spans ++ ts.flatMap TyExpr.spans
  | .lambda ps r e => paramSpans ps ++ (r.toList.flatMap TyExpr.spans ++ e.spans)
  | .function _ ps r b k => paramSpans ps ++ (r.spans ++ (b.spans ++ k.spans))
  | .dispatch _ cs none => spansNamed cs
  | .dispatch _ cs (some e) => spansNamed cs ++ e.spans

/-- `spans` of arguments. -/
def spansArgs : List Expr → List Span
  | [] => []
  | e :: es => e.spans ++ spansArgs es

/-- `spans` of named expressions. -/
def spansNamed : List (Name × Expr) → List Span
  | [] => []
  | (_, e) :: es => e.spans ++ spansNamed es

end

end Expr

/-! ### Keeping places -/

section Keeping

variable {f : Span → Span}

theorem map_mapSpan_eq_self {es : List TyExpr} (h : ∀ s ∈ es.flatMap TyExpr.spans, f s = s) :
    es.map (·.mapSpan f) = es := by
  refine (List.map_congr_left fun e he => ?_).trans (List.map_id es)
  exact TyExpr.mapSpan_eq_self e fun s hs => h s (List.mem_flatMap.2 ⟨e, he, hs⟩)

theorem paramSpans_eq_self {ps : List (Name × TyExpr)} (h : ∀ s ∈ paramSpans ps, f s = s) :
    (ps.map fun p => (p.1, p.2.mapSpan f)) = ps := by
  refine (List.map_congr_left fun p hp => ?_).trans (List.map_id ps)
  exact congrArg (p.1, ·) (TyExpr.mapSpan_eq_self p.2 fun s hs => h s (List.mem_flatMap.2 ⟨p, hp, hs⟩))

theorem Aliases.map_mapSpan_eq_self {aliases : Aliases} (h : ∀ s ∈ aliases.spans, f s = s) :
    aliases.map (Alias.mapSpan f) = aliases := by
  refine (List.map_congr_left fun a ha => ?_).trans (List.map_id aliases)
  obtain ⟨hspan, hbody⟩ := List.forall_mem_cons.1 fun s hs => h s (List.mem_flatMap.2 ⟨a, ha, hs⟩)
  rw [Alias.mapSpan, hspan, TyExpr.mapSpan_eq_self a.body hbody]
  rfl

namespace Expr

mutual

/-- An expression stays when its places do. -/
theorem mapSpan_eq_self : ∀ e : Expr, (∀ s ∈ e.spans, f s = s) → e.mapSpan f = e
  | .mk span term, h => by
    obtain ⟨hspan, hterm⟩ := List.forall_mem_cons.1 h
    rw [mapSpan, hspan, mapSpanTerm_eq_self term hterm]

theorem mapSpanTerm_eq_self : ∀ term : Term, (∀ s ∈ spansTerm term, f s = s) → mapSpanTerm f term = term
  | .lit _, _ => rfl
  | .var _, _ => rfl
  | .emptyArray t, h => congrArg Term.emptyArray (TyExpr.mapSpan_eq_self t h)
  | .emptyMap t, h => congrArg Term.emptyMap (TyExpr.mapSpan_eq_self t h)
  | .not e, h => congrArg Term.not (mapSpan_eq_self e h)
  | .copyMap e, h => congrArg Term.copyMap (mapSpan_eq_self e h)
  | .assign x e, h => congrArg (Term.assign x) (mapSpan_eq_self e h)
  | .property e n, h => congrArg (Term.property · n) (mapSpan_eq_self e h)
  | .generic ns e, h => congrArg (Term.generic ns) (mapSpan_eq_self e h)
  | .compare op l r, h => by
    obtain ⟨hl, hr⟩ := List.forall_mem_append.1 h
    rw [mapSpanTerm, mapSpan_eq_self l hl, mapSpan_eq_self r hr]
  | .add l r, h => by
    obtain ⟨hl, hr⟩ := List.forall_mem_append.1 h
    rw [mapSpanTerm, mapSpan_eq_self l hl, mapSpan_eq_self r hr]
  | .seq l r, h => by
    obtain ⟨hl, hr⟩ := List.forall_mem_append.1 h
    rw [mapSpanTerm, mapSpan_eq_self l hl, mapSpan_eq_self r hr]
  | .bind _ l r, h => by
    obtain ⟨hl, hr⟩ := List.forall_mem_append.1 h
    rw [mapSpanTerm, mapSpan_eq_self l hl, mapSpan_eq_self r hr]
  | .append l r, h => by
    obtain ⟨hl, hr⟩ := List.forall_mem_append.1 h
    rw [mapSpanTerm, mapSpan_eq_self l hl, mapSpan_eq_self r hr]
  | .hasKey l r, h => by
    obtain ⟨hl, hr⟩ := List.forall_mem_append.1 h
    rw [mapSpanTerm, mapSpan_eq_self l hl, mapSpan_eq_self r hr]
  | .index l r, h => by
    obtain ⟨hl, hr⟩ := List.forall_mem_append.1 h
    rw [mapSpanTerm, mapSpan_eq_self l hl, mapSpan_eq_self r hr]
  | .cond a b c, h => by
    obtain ⟨ha, hb, hc⟩ := (List.forall_mem_append.1 h).imp_right List.forall_mem_append.1
    rw [mapSpanTerm, mapSpan_eq_self a ha, mapSpan_eq_self b hb, mapSpan_eq_self c hc]
  | .insert a b c, h => by
    obtain ⟨ha, hb, hc⟩ := (List.forall_mem_append.1 h).imp_right List.forall_mem_append.1
    rw [mapSpanTerm, mapSpan_eq_self a ha, mapSpan_eq_self b hb, mapSpan_eq_self c hc]
  | .forIndex a _ b c, h => by
    obtain ⟨ha, hb, hc⟩ := (List.forall_mem_append.1 h).imp_right List.forall_mem_append.1
    rw [mapSpanTerm, mapSpan_eq_self a ha, mapSpan_eq_self b hb, mapSpan_eq_self c hc]
  | .forItem a _ b c, h => by
    obtain ⟨ha, hb, hc⟩ := (List.forall_mem_append.1 h).imp_right List.forall_mem_append.1
    rw [mapSpanTerm, mapSpan_eq_self a ha, mapSpan_eq_self b hb, mapSpan_eq_self c hc]
  | .call c es, h => by
    obtain ⟨hc, hes⟩ := List.forall_mem_append.1 h
    rw [mapSpanTerm, mapSpan_eq_self c hc, mapSpanArgs_eq_self es hes]
  | .object inits, h => congrArg Term.object (mapSpanNamed_eq_self inits h)
  | .variant _ inits t, h => by
    obtain ⟨hinits, ht⟩ := List.forall_mem_append.1 h
    rw [mapSpanTerm, mapSpanNamed_eq_self inits hinits, TyExpr.mapSpan_eq_self t ht]
  | .widen e t, h => by
    obtain ⟨he, ht⟩ := List.forall_mem_append.1 h
    rw [mapSpanTerm, mapSpan_eq_self e he, TyExpr.mapSpan_eq_self t ht]
  | .instantiate e ts, h => by
    obtain ⟨he, hts⟩ := List.forall_mem_append.1 h
    rw [mapSpanTerm, mapSpan_eq_self e he, map_mapSpan_eq_self hts]
  | .lambda ps r e, h => by
    obtain ⟨hps, hr, he⟩ := (List.forall_mem_append.1 h).imp_right List.forall_mem_append.1
    have hresult : r.map (·.mapSpan f) = r := by
      cases r with
      | none => rfl
      | some r => exact congrArg some (TyExpr.mapSpan_eq_self r fun s hs => hr s (by simpa using hs))
    rw [mapSpanTerm, paramSpans_eq_self hps, hresult, mapSpan_eq_self e he]
  | .function _ ps r b k, h => by
    obtain ⟨hps, hrest⟩ := List.forall_mem_append.1 h
    obtain ⟨hr, hb, hk⟩ := (List.forall_mem_append.1 hrest).imp_right List.forall_mem_append.1
    rw [mapSpanTerm, paramSpans_eq_self hps, TyExpr.mapSpan_eq_self r hr, mapSpan_eq_self b hb, mapSpan_eq_self k hk]
  | .dispatch x cs none, h => congrArg (Term.dispatch x · none) (mapSpanNamed_eq_self cs h)
  | .dispatch _ cs (some e), h => by
    obtain ⟨hcs, he⟩ := List.forall_mem_append.1 h
    rw [mapSpanTerm, mapSpanNamed_eq_self cs hcs, mapSpan_eq_self e he]

theorem mapSpanArgs_eq_self : ∀ es : List Expr, (∀ s ∈ spansArgs es, f s = s) → mapSpanArgs f es = es
  | [], _ => rfl
  | e :: es, h => by
    obtain ⟨he, hes⟩ := List.forall_mem_append.1 h
    rw [mapSpanArgs, mapSpan_eq_self e he, mapSpanArgs_eq_self es hes]

theorem mapSpanNamed_eq_self : ∀ es : List (Name × Expr), (∀ s ∈ spansNamed es, f s = s) → mapSpanNamed f es = es
  | [], _ => rfl
  | (n, e) :: es, h => by
    obtain ⟨he, hes⟩ := List.forall_mem_append.1 h
    rw [mapSpanNamed, mapSpan_eq_self e he, mapSpanNamed_eq_self es hes]

end

end Expr

end Keeping

/-! ### Opacity -/

/-- A check that stays under all changes that keep some places reports only these. -/
theorem Moved.span_mem {α : Type} {m : CheckM α} {spans : List Span}
    (h : ∀ f, (∀ s ∈ spans, f s = s) → Moved f m m) {s : NameSupply} {d : Diagnostic}
    (hd : (m.run.run s).1 = .error (.rule d)) : d.span ∈ spans := by
  refine Decidable.byContradiction fun hnot => ?_
  let f : Span → Span := fun x => if x ∈ spans then x else ⟨x.start + 1, x.stop⟩
  have hm : m = m.mapSpan f := h f fun x hx => if_pos hx
  have hfailure : (.error (.rule d) : Except Failure α) = .error (.rule (d.mapSpan f)) := by
    have hrun := congrArg (fun m : CheckM α => (m.run.run s).1) hm
    simp only [CheckM.run_mapSpan, hd] at hrun
    exact hrun
  have hspan : d.span = f d.span := by
    injection hfailure with hfailure
    injection hfailure with hfailure
    exact congrArg Diagnostic.span hfailure
  -- but `f` has moved the place
  have hstart := congrArg Span.start hspan
  simp only [f, if_neg hnot] at hstart
  omega

/-- Where all places of a program are changed, an expression has the same type and an annotation the same meaning, or
the same rule is violated at the changed place; and each violation stands at a place of the program. -/
theorem places_opaque (cx : Context) (scope : Scope) (env : Env) (e : Expr) (t : TyExpr) :
    (∀ f, (e.mapSpan f).typeOf (cx.mapSpan f) env = (e.typeOf cx env).mapSpan f ∧
      (t.mapSpan f).resolve (cx.aliases.map (Alias.mapSpan f)) scope = (t.resolve cx.aliases scope).mapSpan f) ∧
    (∀ s d, ((e.typeOf cx env).run.run s).1 = .error (.rule d) → d.span ∈ e.spans ++ cx.aliases.spans) ∧
    ∀ s d, ((t.resolve cx.aliases scope).run.run s).1 = .error (.rule d) → d.span ∈ t.spans ++ cx.aliases.spans := by
  refine ⟨fun f => ⟨Expr.typeIn_moved cx e [] env, TyExpr.resolve_moved f cx.aliases scope t⟩, fun s d hd => ?_,
    fun s d hd => ?_⟩
  · refine Moved.span_mem (fun f hf => ?_) hd
    obtain ⟨he, haliases⟩ := List.forall_mem_append.1 hf
    have h : Moved f (e.typeOf cx env) ((e.mapSpan f).typeOf (cx.mapSpan f) env) := Expr.typeIn_moved cx e [] env
    rwa [Expr.mapSpan_eq_self e he, Context.mapSpan, Aliases.map_mapSpan_eq_self haliases] at h
  · refine Moved.span_mem (fun f hf => ?_) hd
    obtain ⟨ht, haliases⟩ := List.forall_mem_append.1 hf
    have h := TyExpr.resolve_moved f cx.aliases scope t
    rwa [TyExpr.mapSpan_eq_self t ht, Aliases.map_mapSpan_eq_self haliases] at h

/-- The body of an alias is at fault for an expression that uses it, an annotation is so by itself; both faults move
along when everything moves. -/
theorem places_opaque_repeatedProperty :
    let repeated : TyExpr :=
      .mk ⟨3, 8⟩ (.object [("p", .mk ⟨4, 5⟩ (.prim .number)), ("p", .mk ⟨6, 7⟩ (.prim .string))])
    let cx : Context := { aliases := [{ name := "A", params := none, body := repeated, span := ⟨1, 9⟩ }] }
    let e : Expr := .mk ⟨20, 30⟩ (.emptyArray (.mk ⟨21, 22⟩ (.ref "A")))
    let t : TyExpr := .mk ⟨40, 44⟩ (.mu "X" (.mk ⟨42, 43⟩ (.ref "X")))
    let f : Span → Span := fun s => ⟨s.start + 100, s.stop + 100⟩
    ((e.mapSpan f).typeOf (cx.mapSpan f) .empty = (e.typeOf cx .empty).mapSpan f ∧
      (t.mapSpan f).resolve (cx.aliases.map (Alias.mapSpan f)) [] = (t.resolve cx.aliases []).mapSpan f) ∧
    ((⟨3, 8⟩ : Span) ∈ e.spans ++ cx.aliases.spans ∧ (⟨40, 44⟩ : Span) ∈ t.spans ++ cx.aliases.spans) ∧
    (e.typeOf cx .empty).result = .error (.rule ⟨.duplicateProperty "p", ⟨3, 8⟩⟩) ∧
    ((e.mapSpan f).typeOf (cx.mapSpan f) .empty).result = .error (.rule ⟨.duplicateProperty "p", ⟨103, 108⟩⟩) ∧
    (t.resolve cx.aliases []).result = .error (.rule ⟨.notContractive "X", ⟨40, 44⟩⟩) := by
  intro repeated cx e t f
  have he : (e.typeOf cx .empty).result = .error (.rule ⟨.duplicateProperty "p", ⟨3, 8⟩⟩) := by cbv
  have ht : (t.resolve cx.aliases []).result = .error (.rule ⟨.notContractive "X", ⟨40, 44⟩⟩) := by cbv
  obtain ⟨hmoved, hexpr, htyExpr⟩ := places_opaque cx [] .empty e t
  refine ⟨hmoved f, ⟨hexpr {} _ he, htyExpr {} _ ht⟩, he, ?_, ht⟩
  rw [(hmoved f).1, CheckM.result_mapSpan, he]
  rfl

end MuTypes
