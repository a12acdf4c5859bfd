import MuTypes.NameSupply

/-!
# Pairs of binders

Two types are walked side by side, and the binders passed on the way are kept as pairs, innermost first.  A variable
of either side then stands for the nearest pair that has its name on that side, and two variables correspond when
they stand for the same pair.
-/

namespace MuTypes

/-- Binders of two types passed together, innermost first. -/
abbrev Binders := List (Name × Name)

namespace Binders

/-- Enters two lists of binders, outermost first, pairwise. -/
def enter (bs : Binders) (left right : List Name) : Binders :=
  (left.zip right).reverse ++ bs

/-- Names that mean the same on both sides. -/
def ofScope (names : List Name) : Binders :=
  enter [] names names

/-- The same pairs for the two types in the other order. -/
def swap (bs : Binders) : Binders :=
  bs.map Prod.swap

/-- The pair for which a variable of the left type stands. -/
def left? (bs : Binders) (n : Name) : Option Nat :=
  bs.findIdx? (·.1 = n)

/-- The pair for which a variable of the right type stands. -/
def right? (bs : Binders) (n : Name) : Option Nat :=
  bs.findIdx? (·.2 = n)

@[simp] theorem swap_swap (bs : Binders) : bs.swap.swap = bs := by
  simp [swap]

theorem left?_swap (bs : Binders) (n : Name) : bs.swap.left? n = bs.right? n := by
  induction bs with
  | nil => rfl
  | cons p bs ih => simp_all [swap, left?, right?, List.findIdx?_cons]

theorem right?_swap (bs : Binders) (n : Name) : bs.swap.right? n = bs.left? n := by
  rw [← left?_swap, swap_swap]

end Binders

end MuTypes
