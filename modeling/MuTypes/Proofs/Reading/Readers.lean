import Mathlib.Data.List.Basic
import MuTypes.NameSupply

/-!
# Readers

A reader takes a result off the front of a text.  `Takes` says that it takes off a given text that stands in front of a
given rest.  There is one rule for each way in which readers are put together, so that the proof that a reader takes off
what a writer has written goes through the reader step by step.

What may follow matters: a name ends where the characters of names end, and a list ends where no separator follows.
-/

namespace MuTypes

/-- Readers take a result off the front of a text, or refuse the text. -/
abbrev Reader := StateT (List Char) Option

/-- Is the character one of those that names are made of? -/
def isWordChar (c : Char) : Bool :=
  c.isAlphanum || c = '_' || c = '@'

/-- The name is a word: not empty, of letters, digits, `_` and `@`. -/
def IsWord (n : Name) : Prop :=
  n.toList ≠ [] ∧ ∀ c ∈ n.toList, isWordChar c = true

instance (n : Name) : Decidable (IsWord n) :=
  decidable_of_iff (n.toList ≠ [] ∧ n.toList.all isWordChar = true) (by rw [List.all_eq_true, IsWord])

theorem IsWord.exists_cons {w : Name} (hw : IsWord w) : ∃ c cs, w.toList = c :: cs ∧ isWordChar c = true := by
  obtain ⟨c, cs, hcs⟩ := List.exists_cons_of_ne_nil hw.1
  exact ⟨c, cs, hcs, hw.2 c (hcs ▸ List.mem_cons_self)⟩

/-- A word begins with a character of words. -/
theorem IsWord.append_ne_cons {w : Name} (hw : IsWord w) {c : Char} (hc : isWordChar c = false) (rest cs : List Char) :
    w.toList ++ rest ≠ c :: cs := by
  obtain ⟨d, ds, hds, hd⟩ := hw.exists_cons
  rw [hds, List.cons_append]
  intro heq
  obtain ⟨rfl, -⟩ := List.cons.inj heq
  rw [hc] at hd
  cases hd

section While

variable {p : Char → Bool} {s rest : List Char} (hs : ∀ c ∈ s, p c = true) (hrest : ∀ c ∈ rest.head?, p c = false)
include hs hrest

theorem takeWhile_append_of_head : (s ++ rest).takeWhile p = s := by
  rw [List.takeWhile_append_of_pos hs]
  cases rest with
  | nil => exact List.append_nil s
  | cons c rest => rw [List.takeWhile_cons_of_neg (by simp [hrest c rfl]), List.append_nil]

theorem dropWhile_append_of_head : (s ++ rest).dropWhile p = rest := by
  rw [List.dropWhile_append_of_pos hs]
  cases rest with
  | nil => rfl
  | cons c rest => exact List.dropWhile_cons_of_neg (by simp [hrest c rfl])

end While

namespace Reader

variable {α β : Type}

/-! ### Single steps -/

/-- Takes the given text off. -/
def skip (text : String) : Reader Unit :=
  fun cs => (text.toList.isPrefixOf? cs).map ((), ·)

/-- Takes all characters off up to the first one without the property. -/
def takeWhile (p : Char → Bool) : Reader String :=
  fun cs => some (.ofList (cs.takeWhile p), cs.dropWhile p)

/-- The reader takes the text off, gives the result, and leaves the rest. -/
def Takes (m : Reader α) (text : List Char) (a : α) (rest : List Char) : Prop :=
  m.run (text ++ rest) = some (a, rest)

section Steps

variable {m : Reader α} {f : α → Reader β} {text text' rest : List Char} {a : α} {b : β}

theorem Takes.bind (hm : Takes m text a (text' ++ rest)) (hf : Takes (f a) text' b rest) :
    Takes (m >>= f) (text ++ text') b rest := by
  rw [Takes, StateT.run_bind, List.append_assoc, hm]
  exact hf

/-- The last step, with what is made from its result. -/
theorem Takes.map (hm : Takes m text a rest) (f : α → β) : Takes (m >>= fun a => pure (f a)) text (f a) rest := by
  rw [Takes, StateT.run_bind, hm]
  rfl

/-- Looking ahead. -/
theorem takes_get {f : List Char → Reader β} (h : Takes (f (text ++ rest)) text b rest) :
    Takes (get >>= f) text b rest :=
  h

theorem skip_takes (text : String) (rest : List Char) : Takes (skip text) text.toList () rest := by
  have hbegins : text.toList.isPrefixOf? (text.toList ++ rest) = some rest :=
    List.isPrefixOf?_eq_some_iff_append_eq.2 rfl
  show (text.toList.isPrefixOf? (text.toList ++ rest)).map ((), ·) = some ((), rest)
  rw [hbegins]
  rfl

/-- A text at the end, behind which nothing more is read. -/
theorem skip_takes_last (text : String) (a : α) (rest : List Char) :
    Takes (skip text >>= fun _ => pure a) text.toList a rest :=
  (skip_takes text rest).map fun _ => a

theorem takeWhile_takes {p : Char → Bool} {s : String} (hs : ∀ c ∈ s.toList, p c = true)
    (hrest : ∀ c ∈ rest.head?, p c = false) : Takes (takeWhile p) s.toList s rest := by
  show some (String.ofList ((s.toList ++ rest).takeWhile p), (s.toList ++ rest).dropWhile p) = some (s, rest)
  rw [takeWhile_append_of_head hs hrest, dropWhile_append_of_head hs hrest, String.ofList_toList]

end Steps

/-! ### Lists -/

/-- At most the given number of items, each after a separator, as long as the text goes on with a separator. -/
def moreWithin (sep : String) (item : Reader α) : Nat → Reader (List α)
  | 0 => return []
  | k + 1 => do
    if sep.toList.isPrefixOf (← get) then
      skip sep
      let a ← item
      return a :: (← moreWithin sep item k)
    else
      return []

/-- Items, each after a separator, as long as the text goes on with a separator. -/
def more (sep : String) (item : Reader α) : Reader (List α) := do
  moreWithin sep item (← get).length

/-- One item or more, with separators between them. -/
def separated (sep : String) (item : Reader α) : Reader (List α) := do
  let a ← item
  return a :: (← more sep item)

/-- Items with separators between them; none when the text goes on with the character that closes the list. -/
def listed (close : Char) (sep : String) (item : Reader α) : Reader (List α) := do
  if (← get).head? = some close then
    return []
  else
    separated sep item

/-- Texts with a separator before each one. -/
def textAfter (sep : String) (texts : List (List Char)) : List Char :=
  texts.flatMap (sep.toList ++ ·)

theorem textAfter_cons (sep : String) (text : List Char) (texts : List (List Char)) :
    textAfter sep (text :: texts) = sep.toList ++ (text ++ textAfter sep texts) := by
  rw [textAfter, List.flatMap_cons, List.append_assoc, textAfter]

/-- A list is written as its first item, and the others after separators. -/
theorem intercalate_cons (sep : String) (text : List Char) (texts : List (List Char)) :
    sep.toList.intercalate (text :: texts) = text ++ textAfter sep texts := by
  induction texts generalizing text with
  | nil => simp [textAfter]
  | cons text' texts ih => rw [List.intercalate_cons_cons, ih, textAfter_cons, List.append_assoc]

theorem length_le_length_textAfter {sep : String} (hsep : sep.toList ≠ []) (texts : List (List Char)) :
    texts.length ≤ (textAfter sep texts).length := by
  induction texts with
  | nil => exact Nat.le_refl 0
  | cons text texts ih =>
    have hpos : 0 < sep.toList.length := List.length_pos_iff.2 hsep
    rw [textAfter_cons, List.length_append, List.length_append, List.length_cons]
    omega

section Lists

variable {sep : String} {item : Reader α} {text : α → List Char} {Follows : List Char → Prop} {rest : List Char}

/-- The items can be read in front of what may follow them, and both another separator and the rest may. -/
structure ListText (sep : String) (item : Reader α) (text : α → List Char) (Follows : List Char → Prop)
    (as : List α) (rest : List Char) : Prop where
  item : ∀ a ∈ as, ∀ cs, Follows cs → Takes item (text a) a cs
  sep_follows : ∀ cs, Follows (sep.toList ++ cs)
  rest_follows : Follows rest
  ends : sep.toList.isPrefixOf rest = false
  sep_ne : sep.toList ≠ []

theorem ListText.tail {a : α} {as : List α} (h : ListText sep item text Follows (a :: as) rest) :
    ListText sep item text Follows as rest :=
  { h with item := fun b hb => h.item b (List.mem_cons_of_mem a hb) }

/-- What stands behind the items that are already read may follow them. -/
theorem ListText.follows {as : List α} (h : ListText sep item text Follows as rest) :
    Follows (textAfter sep (as.map text) ++ rest) := by
  cases as with
  | nil => exact h.rest_follows
  | cons a as =>
    rw [List.map_cons, textAfter_cons, List.append_assoc]
    exact h.sep_follows _

theorem moreWithin_takes {as : List α} (h : ListText sep item text Follows as rest) {k : Nat} (hk : as.length ≤ k) :
    Takes (moreWithin sep item k) (textAfter sep (as.map text)) as rest := by
  induction as generalizing k with
  | nil =>
    cases k with
    | zero => rfl
    | succ k =>
      rw [moreWithin]
      refine takes_get ?_
      rw [List.map_nil, textAfter, List.flatMap_nil, List.nil_append, if_neg (by simp [h.ends])]
      rfl
  | cons a as ih =>
    obtain _ | k := k
    · simp at hk
    have hbegins : sep.toList.isPrefixOf (textAfter sep ((a :: as).map text) ++ rest) = true := by
      rw [List.map_cons, textAfter_cons, List.append_assoc]
      exact List.isPrefixOf_iff_prefix.2 (List.prefix_append ..)
    rw [moreWithin]
    refine takes_get ?_
    rw [if_pos hbegins, List.map_cons, textAfter_cons]
    refine (skip_takes sep _).bind ((h.item a List.mem_cons_self _ h.tail.follows).bind ?_)
    exact (ih h.tail (Nat.le_of_succ_le_succ hk)).map _

theorem more_takes {as : List α} (h : ListText sep item text Follows as rest) :
    Takes (more sep item) (textAfter sep (as.map text)) as rest := by
  refine takes_get (moreWithin_takes h ?_)
  have := length_le_length_textAfter h.sep_ne (as.map text)
  rw [List.length_map] at this
  rw [List.length_append]
  omega

theorem separated_takes {a : α} {as : List α} (h : ListText sep item text Follows (a :: as) rest) :
    Takes (separated sep item) (text a ++ textAfter sep (as.map text)) (a :: as) rest :=
  (h.item a List.mem_cons_self _ h.tail.follows).bind ((more_takes h.tail).map _)

/-- A list is read to its end, when its rest goes on with the closing character and no item does. -/
theorem listed_takes (close : Char) {as : List α} (h : ListText sep item text Follows as rest)
    (hclose : rest.head? = some close) (hitems : ∀ a ∈ as, ∀ cs cs', text a ++ cs ≠ close :: cs') :
    Takes (listed close sep item) (sep.toList.intercalate (as.map text)) as rest := by
  refine takes_get ?_
  cases as with
  | nil =>
    rw [List.map_nil, List.intercalate_nil, List.nil_append, if_pos hclose]
    rfl
  | cons a as =>
    have hitem : ¬ (text a ++ textAfter sep (as.map text) ++ rest).head? = some close := by
      intro hhead
      obtain ⟨cs, hcs⟩ := List.head?_eq_some_iff.1 hhead
      exact hitems a List.mem_cons_self _ cs ((List.append_assoc ..).symm.trans hcs)
    rw [List.map_cons, intercalate_cons, if_neg hitem]
    exact separated_takes h

end Lists

end Reader

end MuTypes
