import MuTypes.Diagnostic
import MuTypes.Proofs.Reading.Roundtrip

/-!
# Different types have different texts

Types that can be read have different texts if they are different, and so an error tells which types it shows
(`Ty.render_inj`): of two errors that differ only in their types, not even those that show two types have the same text.
Behind the first of two types stands a comma, so that its text can be read off before the second one's.
-/

namespace MuTypes

/-! ### Errors -/

namespace Violation

/-- The types that the text of a violation shows. -/
def types : Violation → List Ty
  | .mismatch _ e f | .wrongReturn e f => [e, f]
  | .wrongShape _ f => [f]
  | _ => []

/-- The same rule is violated, at the same site or for the same shape, with types that may differ. -/
inductive SameRule : Violation → Violation → Prop where
  | mismatch (site : Site) (e f e' f' : Ty) : SameRule (.mismatch site e f) (.mismatch site e' f')
  | wrongReturn (e f e' f' : Ty) : SameRule (.wrongReturn e f) (.wrongReturn e' f')
  | wrongShape (s : Shape) (f f' : Ty) : SameRule (.wrongShape s f) (.wrongShape s f')

theorem eq_of_expectedFound_eq {t t' u u' : Ty} (ht : ∀ s ∈ [t, t'], s.Readable) (hu : ∀ s ∈ [u, u'], s.Readable)
    (h : expectedFound t.render t'.render = expectedFound u.render u'.render) : t = u ∧ t' = u' := by
  simp only [List.forall_mem_cons, List.not_mem_nil, false_imp_iff, implies_true, and_true] at ht hu
  have htexts : t.text ++ (", found ".toList ++ t'.text) = u.text ++ (", found ".toList ++ u'.text) := by
    have hlists := congrArg String.toList h
    simp only [expectedFound, String.toList_append, List.append_assoc] at hlists
    exact List.append_cancel_left hlists
  have hends : ∀ cs, Ty.Ends (", found ".toList ++ cs) := Ty.ends_append ", found " (by decide)
  obtain ⟨rfl, hrest⟩ := Ty.eq_of_text_append_eq ht.1 hu.1 (hends _) (hends _) htexts
  exact ⟨rfl, ht.2.eq_of_render_eq hu.2 (String.toList_inj.1 (List.append_cancel_left hrest))⟩

theorem SameRule.eq_of_text_eq {v w : Violation} (h : v.SameRule w) (hv : ∀ t ∈ v.types, t.Readable)
    (hw : ∀ t ∈ w.types, t.Readable) (htext : v.text = w.text) : v = w := by
  cases h with
  | mismatch site e f e' f' =>
    have hshown := (String.append_right_inj (site.text ++ ": ")).1 htext
    obtain ⟨rfl, rfl⟩ := eq_of_expectedFound_eq hv hw hshown
    rfl
  | wrongReturn e f e' f' =>
    have hshown := (String.append_right_inj "wrong return type: ").1 htext
    obtain ⟨rfl, rfl⟩ := eq_of_expectedFound_eq hv hw hshown
    rfl
  | wrongShape s f f' =>
    have hshown : f.render = f'.render := (String.append_right_inj (s.text ++ " expected, found ")).1 htext
    rw [types, List.forall_mem_singleton] at hv hw
    rw [hv.eq_of_render_eq hw hshown]

end Violation

/-! ### Types -/

namespace Ty

/-- Different types have different texts, and an error with other types has another text. -/
theorem render_inj {t u : Ty} (ht : t.Readable) (hu : u.Readable) :
    (t.render = u.render → t = u) ∧
      ∀ v w : Violation, v.SameRule w → (∀ s ∈ v.types, s.Readable) → (∀ s ∈ w.types, s.Readable) →
        v.text = w.text → v = w := by
  constructor
  · exact ht.eq_of_render_eq hu
  · intro v w hrule hv hw htext
    exact hrule.eq_of_text_eq hv hw htext

/-- A function that gives an array is not shown like an array of functions, also not as what was found. -/
theorem render_inj_parentheses :
    (Ty.func [("x", .number)] (.array .string)).Readable ∧ (Ty.array (.func [("x", .number)] .string)).Readable ∧
      (Ty.func [("x", .number)] (.array .string)).render ≠ (Ty.array (.func [("x", .number)] .string)).render ∧
      (Violation.wrongShape .array (.func [("x", .number)] (.array .string))).text ≠
        (Violation.wrongShape .array (.array (.func [("x", .number)] .string))).text := by
  have hgives : (Ty.func [("x", .number)] (.array .string)).Readable :=
    .func (by decide) (by simpa using .prim .number) (.container (.prim .string))
  have hholds : (Ty.array (.func [("x", .number)] .string)).Readable :=
    .container (.func (by decide) (by simpa using .prim .number) (.prim .string))
  obtain ⟨hrender, herrors⟩ := render_inj hgives hholds
  refine ⟨hgives, hholds, fun h => absurd (hrender h) (by decide), fun h => ?_⟩
  have hsame := herrors _ _ (.wrongShape .array ..) (List.forall_mem_singleton.2 hgives)
    (List.forall_mem_singleton.2 hholds) h
  exact absurd hsame (by decide)

end Ty

end MuTypes
