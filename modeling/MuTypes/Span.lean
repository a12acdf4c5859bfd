/-!
# Spans

A span says where a piece of a program stands.  Checking copies spans into its messages and never looks at them.

Whoever builds a program can let its nodes be numbered in the order in which they are made: node `n` gets the span
from `n` to `n + 1`.  Such a span is found on one node only, so the node's true place can be noted later, and be looked
up for those few spans that an answer shows.
-/

namespace MuTypes

/-- A place in a program text. -/
structure Span where
  start : Nat
  stop : Nat
deriving DecidableEq

/-- How many nodes have been numbered, and the true places of some of them, the latest first. -/
structure Numbering where
  next : Nat := 0
  places : List (Span × Span) := []

namespace Numbering

/-- The span of the next node. -/
def number (ν : Numbering) : Span × Numbering :=
  (⟨ν.next, ν.next + 1⟩, { ν with next := ν.next + 1 })

/-- Notes the true place of the node that was numbered `own`. -/
def note (ν : Numbering) (own place : Span) : Numbering :=
  { ν with places := (own, place) :: ν.places }

/-- The true place of a numbered node: the latest one noted, or else its number. -/
def place (ν : Numbering) (own : Span) : Span :=
  (ν.places.lookup own).getD own

/-- The place noted last counts, and only for its own node. -/
theorem place_note (ν : Numbering) (own place s : Span) :
    (ν.note own place).place s = if s = own then place else ν.place s := by
  by_cases h : s = own
  · simp [Numbering.place, note, h]
  · simp [Numbering.place, note, List.lookup_cons, beq_false_of_ne h, h]

end Numbering

end MuTypes
