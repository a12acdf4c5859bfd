import MuTypes.Diagnostic
import MuTypes.Ty.Fits

/-!
# Checks that may fail

Resolving annotations and checking expressions draw fresh names and end with the first violated rule, or without an
answer when a comparison of types halts.
-/

namespace MuTypes

/-- Why there is no result. -/
inductive Failure where
  /-- A rule is violated. -/
  | rule (d : Diagnostic)
  /-- A comparison halted. -/
  | halt (h : Halt)
deriving DecidableEq

/-- The failure with the place of a violation changed by `f`. -/
def Failure.mapSpan (f : Span → Span) : Failure → Failure
  | .rule d => .rule (d.mapSpan f)
  | .halt h => .halt h

/-- Computations that draw fresh names and may fail. -/
abbrev CheckM := ExceptT Failure SupplyM

instance : MonadLift CompareM CheckM := ⟨ExceptT.adapt Failure.halt⟩

namespace CheckM

/-- Ends with a violation at a place. -/
def violation {α : Type} (v : Violation) (span : Span) : CheckM α :=
  throw (.rule ⟨v, span⟩)

/-- The same check, with the place of a violation changed by `f`. -/
def mapSpan {α : Type} (f : Span → Span) (m : CheckM α) : CheckM α :=
  m.adapt (Failure.mapSpan f)

/-- The outcome when fresh names are numbered from one. -/
def result {α : Type} (m : CheckM α) : Except Failure α :=
  (m.run.run {}).1

/-- Changing the place of a violation changes nothing else in the outcome. -/
theorem result_mapSpan {α : Type} (f : Span → Span) (m : CheckM α) :
    (m.mapSpan f).result = m.result.mapError (Failure.mapSpan f) := rfl

end CheckM

/-- The first name of a list that also stands earlier in it, or is among those already `seen`. -/
def firstRepeat (seen : List Name) : List Name → Option Name
  | [] => none
  | n :: ns => if n ∈ seen then some n else firstRepeat (n :: seen) ns

theorem firstRepeat_eq_none_iff {seen ns : List Name} :
    firstRepeat seen ns = none ↔ ns.Nodup ∧ ∀ n ∈ ns, n ∉ seen := by
  induction ns generalizing seen with
  | nil => simp [firstRepeat]
  | cons n ns ih =>
    by_cases h : n ∈ seen
    · simp [firstRepeat, h]
    · simp only [firstRepeat, h, if_false, ih, List.nodup_cons, List.mem_cons, forall_eq_or_imp, not_or,
        not_false_eq_true, true_and]
      constructor
      · rintro ⟨hd, hs⟩
        exact ⟨⟨fun hn => (hs n hn).1 rfl, hd⟩, fun m hm => (hs m hm).2⟩
      · rintro ⟨⟨hn, hd⟩, hs⟩
        exact ⟨hd, fun m hm => ⟨fun e => hn (e ▸ hm), hs m hm⟩⟩

theorem firstRepeat_nil_eq_none_iff {ns : List Name} : firstRepeat [] ns = none ↔ ns.Nodup :=
  firstRepeat_eq_none_iff.trans (and_iff_left (by simp))

theorem firstRepeat_cons_eq_none_iff {seen ns : List Name} {n : Name} :
    firstRepeat seen (n :: ns) = none ↔ n ∉ seen ∧ firstRepeat (n :: seen) ns = none := by
  by_cases hn : n ∈ seen <;> simp [firstRepeat, hn]

/-- Type parameters have to be distinct. -/
def expectDistinct (params : List Name) (span : Span) : CheckM Unit :=
  match firstRepeat [] params with
  | some n => CheckM.violation (.duplicateTypeParameter n) span
  | none => return ()

end MuTypes
