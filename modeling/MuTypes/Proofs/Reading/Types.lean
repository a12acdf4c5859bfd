import MuTypes.Proofs.Reading.Readers
import MuTypes.Ty.Render

/-!
# Reading types

A reader for the texts of types.  It gets a type back when the names in it are words, when no variable is called like
one of the types that words stand for, and when no label has a double quote (`Ty.Readable`).

The text of a type begins in one of a few ways (`Form`), and a parenthesis can open five kinds of types: which one is
told by what stands behind it, the closing parenthesis, the tag of a variant, or what follows a leading word.  Behind a
type there never stands anything that could be taken for more of it (`Stops`), except for `[]`: the element of an array
is read before it is known whether an array is being read.  So the reader first reads a type that is no array, or an
element in parentheses, and then makes an array for each `[]` that follows (`arrays`).  A function or a generic type,
which extends to the right, is therefore read correctly only where no `[]` follows, and that is why it gets parentheses
as an element.
-/

namespace MuTypes

open Reader

/-! ### Types that can be read -/

/-- The words that stand for types. -/
def keywords : List Name :=
  ["boolean", "number", "string", "undefined", "never"]

namespace Ty

/-- All names in the type are words, no variable has the name of a type, and no label has a double quote. -/
inductive Readable : Ty → Prop where
  | prim (p : Prim) : Readable (.prim p)
  | container {k : Container} {e : Ty} (he : Readable e) : Readable (.container k e)
  | func {ps : Row} {r : Ty} (hns : ∀ p ∈ ps, IsWord p.1) (hps : ∀ p ∈ ps, Readable p.2) (hr : Readable r) :
    Readable (.func ps r)
  | object {ps : Row} (hns : ∀ p ∈ ps, IsWord p.1) (hps : ∀ p ∈ ps, Readable p.2) : Readable (.object ps)
  | union {vs : Variants} (hls : ∀ v ∈ vs, '"' ∉ v.1.toList) (hns : ∀ v ∈ vs, ∀ p ∈ v.2, IsWord p.1)
    (hvs : ∀ v ∈ vs, ∀ p ∈ v.2, Readable p.2) : Readable (.union vs)
  | mu {n : Name} {b : Ty} (hn : IsWord n) (hb : Readable b) : Readable (.mu n b)
  | generic {ns : List Name} {b : Ty} (hns : ∀ n ∈ ns, IsWord n) (hb : Readable b) : Readable (.generic ns b)
  | var {x : Name} (hx : IsWord x) (hk : x ∉ keywords) : Readable (.var x)

/-! ### The reader -/

/-- The ways in which the text of a type that is no array begins. -/
inductive Form where
  /-- A word that stands for itself. -/
  | word
  | map
  | object
  | generic
  | func
  | mu
  | union
  /-- A type in parentheses: that of an option, or the element of an array. -/
  | nested

/-- What a parenthesis opens that stands before a word, by the text behind the word. -/
def Form.behindWord : List Char → Form
  | ':' :: _ => .func
  | ' ' :: c :: _ => if isWordChar c then .mu else .nested
  | _ => .nested

/-- What a parenthesis opens, by the text behind it. -/
def Form.ofParen (cs : List Char) : Form :=
  if cs.head? = some ')' then .func
  else if "\x7b tag: \"".toList.isPrefixOf cs then .union
  else behindWord (cs.dropWhile isWordChar)

/-- The form of the type at the front of the text. -/
def Form.of : List Char → Form
  | '(' :: cs => .ofParen cs
  | '<' :: _ => .generic
  | '{' :: _ => .object
  | cs =>
    match cs.dropWhile isWordChar with
    | '<' :: _ => .map
    | _ => .word

/-- The type for which a word stands. -/
def ofWord (w : Name) : Ty :=
  if w = "boolean" then .boolean
  else if w = "number" then .number
  else if w = "string" then .string
  else if w = "undefined" then .undefined
  else if w = "never" then .union []
  else .var w

/-- Reads `name: type`. -/
def readEntry (type : Reader Ty) : Reader (Name × Ty) := do
  let n ← takeWhile isWordChar
  skip ": "
  let t ← type
  return (n, t)

/-- Reads an object with a tag. -/
def readVariant (type : Reader Ty) : Reader (Name × Row) := do
  skip "\x7b tag: \""
  let l ← takeWhile (· ≠ '"')
  skip "\""
  let ps ← more "; " (readEntry type)
  skip " \x7d"
  return (l, ps)

/-- Reads a type that is no array, or the element of an array that is in parentheses. -/
def readForm (type : Reader Ty) : Form → Reader Ty
  | .word => do return ofWord (← takeWhile isWordChar)
  | .map => do
    skip "Record<string, "
    let e ← type
    skip ">"
    return .map e
  | .object => do
    if "\x7b\x7d".toList.isPrefixOf (← get) then
      skip "\x7b\x7d"
      return .object []
    else
      skip "\x7b "
      let ps ← separated "; " (readEntry type)
      skip " \x7d"
      return .object ps
  | .generic => do
    skip "<"
    let ns ← listed '>' ", " (takeWhile isWordChar)
    skip ">"
    let b ← type
    return .generic ns b
  | .func => do
    skip "("
    let ps ← listed ')' ", " (readEntry type)
    skip ") => "
    let r ← type
    return .func ps r
  | .mu => do
    skip "(mu "
    let n ← takeWhile isWordChar
    skip ". "
    let b ← type
    skip ")"
    return .mu n b
  | .union => do
    skip "("
    let vs ← separated " | " (readVariant type)
    skip ")"
    return .union vs
  | .nested => do
    skip "("
    let t ← type
    if (← get).head? = some ')' then
      skip ")"
      return t
    else
      skip " | undefined)"
      return .option t

/-- Makes an array of the type for each `[]` at the front of the text. -/
def arrays (t : Ty) : List Char → Ty × List Char
  | '[' :: ']' :: cs => arrays (.array t) cs
  | cs => (t, cs)

/-- Reads a type that is at most so many levels high. -/
def readWithin : Nat → Reader Ty
  | 0 => failure
  | k + 1 => do
    let t ← readForm (readWithin k) (Form.of (← get))
    modifyGet (arrays t)

/-- The type with the given text. -/
def read (text : String) : Option Ty :=
  match (readWithin (text.toList.length + 1)).run text.toList with
  | some (t, []) => some t
  | _ => none

/-! ### Texts

The equations of `render` are read off by computation, with `show`. -/

/-- The characters of the text of a type. -/
abbrev text (t : Ty) : List Char :=
  t.render.toList

/-- The characters of `name: type`. -/
def entryText (p : Name × Ty) : List Char :=
  p.1.toList ++ (": ".toList ++ p.2.text)

/-- The characters of a variant. -/
def variantText (v : Name × Row) : List Char :=
  "\x7b tag: \"".toList ++
    (v.1.toList ++ ("\"".toList ++ (textAfter "; " (v.2.map entryText) ++ " \x7d".toList)))

theorem toList_rowTexts (ps : Row) : (rowTexts ps).map String.toList = ps.map entryText := by
  induction ps with
  | nil => rfl
  | cons p ps ih =>
    have hentry : (p.1 ++ ": " ++ p.2.render).toList = entryText p := by
      rw [String.toList_append, String.toList_append, List.append_assoc, entryText]
    show (p.1 ++ ": " ++ p.2.render).toList :: (rowTexts ps).map String.toList = entryText p :: ps.map entryText
    rw [hentry, ih]

theorem toList_braced (text : String) (texts : List String) :
    (braced (text :: texts)).toList =
      "\x7b ".toList ++ (text.toList ++ (textAfter "; " (texts.map String.toList) ++ " \x7d".toList)) := by
  rw [braced, String.toList_append, String.toList_append, String.toList_intercalate, List.map_cons, intercalate_cons,
    List.append_assoc, List.append_assoc]

theorem toList_variantTexts (vs : Variants) : (variantTexts vs).map String.toList = vs.map variantText := by
  induction vs with
  | nil => rfl
  | cons v vs ih =>
    obtain ⟨l, ps⟩ := v
    have hvariant : (braced (("tag: \"" ++ l ++ "\"") :: rowTexts ps)).toList = variantText (l, ps) := by
      rw [toList_braced, toList_rowTexts, String.toList_append, String.toList_append, List.append_assoc,
        List.append_assoc]
      rfl
    show (braced (("tag: \"" ++ l ++ "\"") :: rowTexts ps)).toList :: (variantTexts vs).map String.toList =
      variantText (l, ps) :: vs.map variantText
    rw [hvariant, ih]

section Texts

variable (e r b : Ty) (ps : Row) (n : Name) (ns : List Name)

theorem text_prim (p : Prim) : (Ty.prim p).text = p.text.toList :=
  rfl

theorem text_option : (Ty.option e).text = "(".toList ++ (e.text ++ " | undefined)".toList) := by
  show ("(" ++ e.render ++ " | undefined)").toList = _
  rw [String.toList_append, String.toList_append, List.append_assoc]

theorem text_map : (Ty.map e).text = "Record<string, ".toList ++ (e.text ++ ">".toList) := by
  show ("Record<string, " ++ e.render ++ ">").toList = _
  rw [String.toList_append, String.toList_append, List.append_assoc]

theorem text_array :
    (Ty.array e).text =
      if e.extendsRight then "(".toList ++ (e.text ++ (")".toList ++ "[]".toList)) else e.text ++ "[]".toList := by
  show (if e.extendsRight then "(" ++ e.render ++ ")[]" else e.render ++ "[]").toList = _
  split
  · rw [String.toList_append, String.toList_append, List.append_assoc]
    rfl
  · rw [String.toList_append]

theorem text_func :
    (Ty.func ps r).text = "(".toList ++ (", ".toList.intercalate (ps.map entryText) ++ (") => ".toList ++ r.text)) := by
  show ("(" ++ ", ".intercalate (rowTexts ps) ++ ") => " ++ r.render).toList = _
  rw [String.toList_append, String.toList_append, String.toList_append, String.toList_intercalate, toList_rowTexts,
    List.append_assoc, List.append_assoc]

theorem text_object_nil : (Ty.object []).text = "\x7b\x7d".toList :=
  rfl

theorem text_object_cons (p : Name × Ty) :
    (Ty.object (p :: ps)).text =
      "\x7b ".toList ++ ((entryText p ++ textAfter "; " (ps.map entryText)) ++ " \x7d".toList) := by
  have hrow : (p.1 ++ ": " ++ p.2.render).toList :: (rowTexts ps).map String.toList = entryText p :: ps.map entryText :=
    toList_rowTexts (p :: ps)
  obtain ⟨hentry, hentries⟩ := List.cons.inj hrow
  show (braced ((p.1 ++ ": " ++ p.2.render) :: rowTexts ps)).toList = _
  rw [toList_braced, hentry, hentries, List.append_assoc]

theorem text_union_nil : (Ty.union []).text = "never".toList :=
  rfl

theorem text_union_cons (v : Name × Row) (vs : Variants) :
    (Ty.union (v :: vs)).text =
      "(".toList ++ ((variantText v ++ textAfter " | " (vs.map variantText)) ++ ")".toList) := by
  show ("(" ++ " | ".intercalate (variantTexts (v :: vs)) ++ ")").toList = _
  rw [String.toList_append, String.toList_append, String.toList_intercalate, toList_variantTexts, List.map_cons,
    intercalate_cons, List.append_assoc]

theorem text_mu : (Ty.mu n b).text = "(mu ".toList ++ (n.toList ++ (". ".toList ++ (b.text ++ ")".toList))) := by
  show ("(mu " ++ n ++ ". " ++ b.render ++ ")").toList = _
  simp only [String.toList_append, List.append_assoc]

theorem text_generic :
    (Ty.generic ns b).text =
      "<".toList ++ (", ".toList.intercalate (ns.map String.toList) ++ (">".toList ++ b.text)) := by
  show ("<" ++ ", ".intercalate ns ++ ">" ++ b.render).toList = _
  simp only [String.toList_append, String.toList_intercalate, List.append_assoc]

theorem text_var : (Ty.var n).text = n.toList :=
  rfl

end Texts

/-! ### What stands behind a type -/

/-- What stands behind a type or its `[]`: not more of a word, nor anything that would make the word before it the name
of a parameter, the head of a recursive type or that of a map. -/
def Stops : List Char → Prop
  | [] => True
  | ' ' :: c :: _ => isWordChar c = false
  | c :: _ => isWordChar c = false ∧ c ≠ ':' ∧ c ≠ '<'

/-- What stands behind a whole type: no `[]` any more. -/
def Ends (rest : List Char) : Prop :=
  Stops rest ∧ rest.head? ≠ some '['

/-- What can stand behind a type that is part of another type, or of an error. -/
def terminators : List String :=
  [")", ">", "; ", ", ", " \x7d", " | undefined)", ", found "]

theorem ends_append (text : String) (h : text ∈ terminators) (cs : List Char) : Ends (text.toList ++ cs) := by
  simp only [terminators, List.mem_cons, List.not_mem_nil, or_false] at h
  rcases h with rfl | rfl | rfl | rfl | rfl | rfl | rfl <;> simp [Ends, Stops, isWordChar]

theorem ends_nil : Ends [] :=
  ⟨trivial, nofun⟩

theorem stops_brackets (cs : List Char) : Stops ("[]".toList ++ cs) :=
  ⟨by decide, by decide, by decide⟩

theorem Stops.head {rest : List Char} (h : Stops rest) : ∀ c ∈ rest.head?, isWordChar c = false := by
  intro c hc
  obtain _ | ⟨d, rest⟩ := rest
  · cases hc
  · obtain rfl : d = c := Option.some.inj hc
    unfold Stops at h
    split at h
    · cases ‹_ :: _ = []›
    · rename_i heq
      rw [(List.cons.inj heq).1]
      decide
    · rename_i heq
      rw [(List.cons.inj heq).1]
      exact h.1

theorem form_of_word {w : Name} (hw : IsWord w) {rest : List Char} (h : Stops rest) :
    Form.of (w.toList ++ rest) = .word := by
  rw [Form.of, dropWhile_append_of_head hw.2 h.head]
  · split
    · exact absurd rfl h.2.2
    · rfl
  · exact fun cs => hw.append_ne_cons (by decide) rest cs
  · exact fun cs => hw.append_ne_cons (by decide) rest cs
  · exact fun cs => hw.append_ne_cons (by decide) rest cs

theorem ofParen_word {w : Name} (hw : IsWord w) {rest : List Char} (h : ∀ c ∈ rest.head?, isWordChar c = false) :
    Form.ofParen (w.toList ++ rest) = .behindWord rest := by
  have hclose : ¬ (w.toList ++ rest).head? = some ')' := by
    intro hc
    obtain ⟨cs, hcs⟩ := List.head?_eq_some_iff.1 hc
    exact hw.append_ne_cons (by decide) rest cs hcs
  have htag : ¬ "\x7b tag: \"".toList.isPrefixOf (w.toList ++ rest) = true := by
    intro hp
    obtain ⟨tail, htail⟩ := List.isPrefixOf_iff_prefix.1 hp
    exact hw.append_ne_cons (by decide) rest _ htail.symm
  rw [Form.ofParen, if_neg hclose, if_neg htag, dropWhile_append_of_head hw.2 h]

/-- A word in parentheses is a type. -/
theorem Stops.ofParen_word {w : Name} (hw : IsWord w) {rest : List Char} (h : Stops rest) :
    Form.ofParen (w.toList ++ rest) = .nested := by
  rw [Ty.ofParen_word hw h.head]
  unfold Form.behindWord
  split
  · exact absurd rfl h.2.1
  · rename_i c _
    have hc : isWordChar c = false := h
    rw [if_neg (by simp [hc])]
  · rfl

/-! ### What a parenthesis opens -/

theorem isWord_of_mem_keywords : ∀ w ∈ keywords, IsWord w := by
  decide

theorem isWord_text (p : Prim) : IsWord p.text := by
  cases p <;> exact isWord_of_mem_keywords _ (by decide)

/-- The text of a type does not begin with a quote. -/
theorem Readable.append_ne_quote {t : Ty} (h : t.Readable) (rest cs : List Char) : t.text ++ rest ≠ '"' :: cs := by
  induction h generalizing rest with
  | prim p => exact (isWord_text p).append_ne_cons (by decide) rest cs
  | @container k e _ ih =>
    cases k with
    | option => rw [text_option]; exact nofun
    | map => rw [text_map]; exact nofun
    | array =>
      rw [text_array]
      split
      · exact nofun
      · rw [List.append_assoc]
        exact ih _
  | func _ _ _ _ _ => rw [text_func]; exact nofun
  | @object ps _ _ _ =>
    cases ps with
    | nil => rw [text_object_nil]; exact nofun
    | cons p ps => rw [text_object_cons]; exact nofun
  | @union vs _ _ _ _ =>
    cases vs with
    | nil => rw [text_union_nil]; exact nofun
    | cons v vs => rw [text_union_cons]; exact nofun
  | mu _ _ _ => rw [text_mu]; exact nofun
  | generic _ _ _ => rw [text_generic]; exact nofun
  | var hx _ =>
    rw [text_var]
    exact hx.append_ne_cons (by decide) rest cs

/-- An object is not taken for a variant, even if its first property is called `tag`. -/
theorem tag_not_prefix {n : Name} (hn : IsWord n) {t : Ty} (ht : t.Readable) (rest : List Char) :
    ¬ "\x7b tag: \"".toList.isPrefixOf ("\x7b ".toList ++ (entryText (n, t) ++ rest)) = true := by
  intro hp
  obtain ⟨tail, htail⟩ := List.isPrefixOf_iff_prefix.1 hp
  have hword : IsWord "tag" := by decide
  have htag : "tag".toList ++ (": \"".toList ++ tail) = n.toList ++ (": ".toList ++ (t.text ++ rest)) := by
    rw [entryText, List.append_assoc, List.append_assoc] at htail
    exact (List.append_right_inj "\x7b ".toList).1 htail
  have hdrop := congrArg (List.dropWhile isWordChar) htag
  rw [dropWhile_append_of_head hword.2 (by simp [isWordChar]), dropWhile_append_of_head hn.2 (by simp [isWordChar])]
    at hdrop
  exact ht.append_ne_quote rest tail ((List.append_right_inj ": ".toList).1 hdrop).symm

theorem of_func {ps : Row} (hns : ∀ p ∈ ps, IsWord p.1) (r : Ty) (rest : List Char) :
    Form.of ((Ty.func ps r).text ++ rest) = .func := by
  rw [text_func]
  cases ps with
  | nil => rfl
  | cons p ps =>
    rw [List.map_cons, intercalate_cons, entryText]
    simp only [List.append_assoc]
    exact ofParen_word (hns p List.mem_cons_self) (by simp [isWordChar])

theorem of_mu {n : Name} (hn : IsWord n) (b : Ty) (rest : List Char) : Form.of ((Ty.mu n b).text ++ rest) = .mu := by
  obtain ⟨c, cs, hc, hword⟩ := hn.exists_cons
  rw [text_mu, hc]
  show Form.ofParen ("mu".toList ++ ' ' :: c :: _) = .mu
  rw [ofParen_word (by decide) (by simp [isWordChar])]
  exact if_pos hword

/-- A parenthesis before a whole type opens that of an option or of the element of an array. -/
theorem Readable.ofParen_text {t : Ty} (h : t.Readable) {rest : List Char} (hrest : Stops rest) :
    Form.ofParen (t.text ++ rest) = .nested := by
  induction h generalizing rest with
  | prim p => exact hrest.ofParen_word (isWord_text p)
  | @container k e _ ih =>
    cases k with
    | option => rw [text_option]; rfl
    | map => rw [text_map]; rfl
    | array =>
      rw [text_array]
      split
      · rfl
      · rw [List.append_assoc]
        exact ih (stops_brackets rest)
  | func _ _ _ _ _ => rw [text_func]; rfl
  | @object ps hns hps _ =>
    cases ps with
    | nil => rw [text_object_nil]; rfl
    | cons p ps =>
      have htag := tag_not_prefix (hns p List.mem_cons_self) (hps p List.mem_cons_self)
        (textAfter "; " (ps.map entryText) ++ (" \x7d".toList ++ rest))
      rw [text_object_cons, List.append_assoc, List.append_assoc, List.append_assoc, Form.ofParen,
        if_neg (by exact nofun), if_neg htag]
      rfl
  | @union vs _ _ _ _ =>
    cases vs with
    | nil =>
      rw [text_union_nil]
      exact hrest.ofParen_word (isWord_of_mem_keywords _ (by decide))
    | cons v vs => rw [text_union_cons]; rfl
  | mu _ _ _ => rw [text_mu]; rfl
  | generic _ _ _ => rw [text_generic]; rfl
  | var hx _ =>
    rw [text_var]
    exact hrest.ofParen_word hx

end Ty

end MuTypes
