/-!
# Names and the supply of fresh names

A drawn name has the form `stem@n`.  The stem is the part of the requested name before its first `@`, so drawing
from a drawn name does not make it longer (`stem_stem`), and the number `n` grows by one with every draw, so along
one run no name is drawn twice.
-/

namespace MuTypes

/-- Names of variables, properties, labels, type variables and aliases: arbitrary text. -/
abbrev Name := String

/-- The part of a name before its first `@`. -/
def stem (n : Name) : Name :=
  String.ofList (n.toList.takeWhile (· ≠ '@'))

/-- The number that the next drawn name will carry. -/
structure NameSupply where
  next : Nat := 1
deriving DecidableEq

/-- Computations that may draw fresh names. -/
abbrev SupplyM := StateM NameSupply

/-- The name made from a requested name and a number. -/
def numbered (base : Name) (n : Nat) : Name :=
  stem base ++ "@" ++ toString n

/-- Draws a name with the stem of `base` and the next number. -/
def draw (base : Name) : SupplyM Name :=
  fun s => (numbered base s.next, ⟨s.next + 1⟩)

/-- A drawn name for each requested one, in order. -/
def drawAll (bases : List Name) : SupplyM (List Name) :=
  bases.mapM draw

/-! ### Small facts -/

theorem toList_stem (n : Name) : (stem n).toList = n.toList.takeWhile (· ≠ '@') := by
  simp [stem]

theorem stem_stem (n : Name) : stem (stem n) = stem n := by
  apply String.toList_inj.1
  rw [toList_stem, toList_stem]
  generalize n.toList = l
  induction l with
  | nil => rfl
  | cons c l ih => by_cases h : c = '@' <;> simp_all [List.takeWhile]

@[simp] theorem draw_run (base : Name) (s : NameSupply) :
    (draw base).run s = (numbered base s.next, ⟨s.next + 1⟩) := rfl

/-! ### What holds of every result -/

/-- Every result has the property, whatever the supply. -/
def Always {α : Type} (P : α → Prop) (m : SupplyM α) : Prop :=
  ∀ s, P (m.run s).1

namespace Always

variable {α β : Type} {P Q : α → Prop} {R : β → Prop} {m : SupplyM α} {f g : α → SupplyM β}

theorem pure {a : α} (h : P a) : Always P (Pure.pure a) :=
  fun _ => h

theorem bind (hm : Always P m) (hf : ∀ a, P a → Always R (f a)) : Always R (m >>= f) :=
  fun s => hf _ (hm s) _

theorem mono (hm : Always P m) (h : ∀ a, P a → Q a) : Always Q m :=
  fun s => h _ (hm s)

theorem and (hm : Always P m) (h : Always Q m) : Always (fun a => P a ∧ Q a) m :=
  fun s => ⟨hm s, h s⟩

/-- Two continuations are the same when they agree on all results. -/
theorem bind_congr (hm : Always P m) (h : ∀ a, P a → f a = g a) : m >>= f = m >>= g := by
  funext s
  show f (m.run s).1 (m.run s).2 = g (m.run s).1 (m.run s).2
  rw [h _ (hm s)]

end Always

end MuTypes
