import MuTypes.Proofs.Reading.Types

/-!
# Reading back what is written

The reader gets every type back from its text (`Ty.read_render`), also where something else stands behind the text
(`Ty.eq_of_text_append_eq`).

The induction is on the type, and says what the reader makes of its text in front of any rest that does not go on with
a word (`Ty.Reads`): it goes on to the arrays of the type as long as the rest goes on with `[]`.  What the parts of a
type need is less (`Ty.ReadBack`), since behind a part stands the next separator or the end of what it is a part of.
-/

namespace MuTypes

open Reader

namespace Ty

/-! ### Reading back -/

theorem arrays_of_head_ne {rest : List Char} (h : rest.head? ≠ some '[') (t : Ty) : arrays t rest = (t, rest) := by
  unfold arrays
  split
  · exact absurd rfl h
  · rfl

theorem arrays_brackets (t : Ty) (rest : List Char) : arrays t ("[]".toList ++ rest) = arrays (.array t) rest :=
  rfl

theorem ofWord_text (p : Prim) : ofWord p.text = .prim p := by
  cases p <;> rfl

theorem ofWord_eq_var {x : Name} (h : x ∉ keywords) : ofWord x = .var x := by
  have hne : x ≠ "boolean" ∧ x ≠ "number" ∧ x ≠ "string" ∧ x ≠ "undefined" ∧ x ≠ "never" := by
    simpa [keywords] using h
  simp [ofWord, hne]

/-- The reader gets the type back where its text ends. -/
def ReadBack (type : Reader Ty) (t : Ty) : Prop :=
  ∀ rest, Ends rest → Takes type t.text t rest

section Parts

variable {type : Reader Ty} {rest : List Char}

theorem readEntry_takes {p : Name × Ty} (hn : IsWord p.1) (ht : ReadBack type p.2) (hrest : Ends rest) :
    Takes (readEntry type) (entryText p) p rest :=
  (takeWhile_takes hn.2 (by simp [isWordChar])).bind ((skip_takes ": " _).bind ((ht rest hrest).map _))

/-- The properties of an object or a variant, or the parameters of a function. -/
theorem listText_row (sep : String) {ps : Row} (hsep : sep ∈ terminators) (hns : ∀ p ∈ ps, IsWord p.1)
    (hps : ∀ p ∈ ps, ReadBack type p.2) {cs : List Char} (hcs : Ends cs) (hends : sep.toList.isPrefixOf cs = false) :
    ListText sep (readEntry type) entryText Ends ps cs where
  item := fun p hp _ hcs => readEntry_takes (hns p hp) (hps p hp) hcs
  sep_follows := ends_append sep hsep
  rest_follows := hcs
  ends := hends
  sep_ne := (by decide : ∀ text ∈ terminators, text.toList ≠ []) sep hsep

theorem readVariant_takes {v : Name × Row} (hl : '"' ∉ v.1.toList) (hns : ∀ p ∈ v.2, IsWord p.1)
    (hps : ∀ p ∈ v.2, ReadBack type p.2) : Takes (readVariant type) (variantText v) v rest := by
  have hlabel : ∀ c ∈ v.1.toList, decide (c ≠ '"') = true := fun c hc => decide_eq_true fun h => hl (h ▸ hc)
  have hrow := listText_row "; " (by decide) hns hps (ends_append " \x7d" (by decide) rest) rfl
  refine (skip_takes _ _).bind ((takeWhile_takes hlabel (by simp)).bind ((skip_takes _ _).bind ?_))
  exact (more_takes hrow).bind (skip_takes_last " \x7d" v rest)

/-- The type in parentheses is read, and what stands behind it tells the element of an array from an option. -/
theorem readForm_nested_takes {e : Ty} (he : ReadBack type e) :
    Takes (readForm type .nested) ("(".toList ++ (e.text ++ ")".toList)) e rest := by
  refine (skip_takes _ _).bind ((he _ (ends_append ")" (by decide) rest)).bind (takes_get ?_))
  rw [if_pos (by rfl)]
  exact skip_takes_last ")" e rest

theorem readForm_option_takes {e : Ty} (he : ReadBack type e) :
    Takes (readForm type .nested) (Ty.option e).text (.option e) rest := by
  rw [text_option]
  refine (skip_takes _ _).bind ((he _ (ends_append " | undefined)" (by decide) rest)).bind (takes_get ?_))
  rw [if_neg (by exact nofun)]
  exact skip_takes_last " | undefined)" (Ty.option e) rest

theorem readForm_map_takes {e : Ty} (he : ReadBack type e) :
    Takes (readForm type .map) (Ty.map e).text (.map e) rest := by
  rw [text_map]
  exact (skip_takes _ _).bind ((he _ (ends_append ">" (by decide) rest)).bind (skip_takes_last ">" (Ty.map e) rest))

theorem readForm_func_takes {ps : Row} {r : Ty} (hns : ∀ p ∈ ps, IsWord p.1) (hps : ∀ p ∈ ps, ReadBack type p.2)
    (hr : ReadBack type r) (hrest : Ends rest) :
    Takes (readForm type .func) (Ty.func ps r).text (.func ps r) rest := by
  have hends : Ends ((") => ".toList ++ r.text) ++ rest) := ends_append ")" (by decide) _
  have hrow := listText_row ", " (by decide) hns hps hends rfl
  rw [text_func]
  refine (skip_takes _ _).bind ((listed_takes ')' hrow rfl ?_).bind ((skip_takes _ _).bind ((hr rest hrest).map _)))
  intro p hp cs cs'
  rw [entryText, List.append_assoc]
  exact (hns p hp).append_ne_cons (by decide) _ cs'

theorem readForm_object_takes {ps : Row} (hns : ∀ p ∈ ps, IsWord p.1) (hps : ∀ p ∈ ps, ReadBack type p.2) :
    Takes (readForm type .object) (Ty.object ps).text (.object ps) rest := by
  refine takes_get ?_
  cases ps with
  | nil =>
    rw [text_object_nil, if_pos (by rfl)]
    exact skip_takes_last "\x7b\x7d" (Ty.object []) rest
  | cons p ps =>
    have hrow := listText_row "; " (by decide) hns hps (ends_append " \x7d" (by decide) rest) rfl
    rw [text_object_cons, if_neg (by exact nofun)]
    exact (skip_takes _ _).bind ((separated_takes hrow).bind (skip_takes_last " \x7d" (Ty.object (p :: ps)) rest))

theorem readForm_union_takes {v : Name × Row} {vs : Variants} (hls : ∀ w ∈ v :: vs, '"' ∉ w.1.toList)
    (hns : ∀ w ∈ v :: vs, ∀ p ∈ w.2, IsWord p.1) (hvs : ∀ w ∈ v :: vs, ∀ p ∈ w.2, ReadBack type p.2) :
    Takes (readForm type .union) (Ty.union (v :: vs)).text (.union (v :: vs)) rest := by
  have hvariants : ListText " | " (readVariant type) variantText (fun _ => True) (v :: vs) (")".toList ++ rest) :=
    { item := fun w hw _ _ => readVariant_takes (hls w hw) (hns w hw) (hvs w hw)
      sep_follows := fun _ => trivial
      rest_follows := trivial
      ends := rfl
      sep_ne := by decide }
  rw [text_union_cons]
  exact (skip_takes _ _).bind ((separated_takes hvariants).bind (skip_takes_last ")" (Ty.union (v :: vs)) rest))

theorem readForm_mu_takes {n : Name} {b : Ty} (hn : IsWord n) (hb : ReadBack type b) :
    Takes (readForm type .mu) (Ty.mu n b).text (.mu n b) rest := by
  rw [text_mu]
  refine (skip_takes _ _).bind ((takeWhile_takes hn.2 (by simp [isWordChar])).bind ((skip_takes _ _).bind ?_))
  exact (hb _ (ends_append ")" (by decide) rest)).bind (skip_takes_last ")" (Ty.mu n b) rest)

theorem readForm_generic_takes {ns : List Name} {b : Ty} (hns : ∀ n ∈ ns, IsWord n) (hb : ReadBack type b)
    (hrest : Ends rest) : Takes (readForm type .generic) (Ty.generic ns b).text (.generic ns b) rest := by
  have hnames : ListText ", " (takeWhile isWordChar) String.toList (fun cs => ∀ c ∈ cs.head?, isWordChar c = false) ns
      ((">".toList ++ b.text) ++ rest) :=
    { item := fun n hn _ hcs => takeWhile_takes (hns n hn).2 hcs
      sep_follows := fun _ => by simp [isWordChar]
      rest_follows := by simp [isWordChar]
      ends := rfl
      sep_ne := by decide }
  rw [text_generic]
  refine (skip_takes _ _).bind ((listed_takes '>' hnames rfl ?_).bind ((skip_takes _ _).bind ((hb rest hrest).map _)))
  exact fun n hn => (hns n hn).append_ne_cons (by decide)

end Parts

theorem run_readWithin_succ {k : Nat} {t : Ty} {text rest : List Char} {form : Form}
    (hform : Form.of (text ++ rest) = form) (h : Takes (readForm (readWithin k) form) text t rest) :
    (readWithin (k + 1)).run (text ++ rest) = some (arrays t rest) := by
  subst hform
  show ((readForm (readWithin k) (Form.of (text ++ rest))) >>= fun t => modifyGet (arrays t)).run (text ++ rest) = _
  rw [StateT.run_bind, h]
  rfl

theorem run_readWithin_word {w : Name} (hw : IsWord w) {rest : List Char} (hrest : Stops rest) (k : Nat) :
    (readWithin (k + 1)).run (w.toList ++ rest) = some (arrays (ofWord w) rest) :=
  run_readWithin_succ (form_of_word hw hrest) ((takeWhile_takes hw.2 hrest.head).map ofWord)

/-- The reader reads the type, and goes on to the arrays of it for which its text stands on. -/
def Reads (t : Ty) : Prop :=
  ∀ k rest, t.height ≤ k + 1 → Stops rest → (t.extendsRight = true → rest.head? ≠ some '[') →
    (readWithin (k + 1)).run (t.text ++ rest) = some (arrays t rest)

theorem Reads.readBack {t : Ty} (h : t.Reads) {k : Nat} (hk : t.height ≤ k) : ReadBack (readWithin k) t := by
  intro rest hrest
  obtain _ | k := k
  · exact absurd hk (Nat.not_le.2 t.height_pos)
  · rw [Takes, h k rest hk hrest.1 fun _ => hrest.2, arrays_of_head_ne hrest.2]

theorem Readable.reads {t : Ty} (h : t.Readable) : t.Reads := by
  induction h with
  | prim p =>
    intro k rest _ hrest _
    rw [text_prim, run_readWithin_word (isWord_text p) hrest k, ofWord_text]
  | @container c e he ih =>
    intro k rest hk hrest _
    have hheight : e.height ≤ k := by simpa [height] using hk
    have hback : ReadBack (readWithin k) e := ih.readBack hheight
    cases c with
    | option =>
      have hstops : Stops (" | undefined)".toList ++ rest) := (ends_append " | undefined)" (by decide) rest).1
      refine run_readWithin_succ ?_ (readForm_option_takes hback)
      rw [text_option, List.append_assoc, List.append_assoc]
      exact he.ofParen_text hstops
    | map =>
      refine run_readWithin_succ ?_ (readForm_map_takes hback)
      rw [text_map]
      rfl
    | array =>
      rw [text_array]
      split
      · have hparen : Form.of ("(".toList ++ (e.text ++ ")".toList) ++ ("[]".toList ++ rest)) = .nested := by
          rw [List.append_assoc, List.append_assoc]
          exact he.ofParen_text (ends_append ")" (by decide) _).1
        have hrun := run_readWithin_succ hparen (readForm_nested_takes hback)
        rw [arrays_brackets] at hrun
        simpa only [List.append_assoc] using hrun
      · rename_i hext
        rw [List.append_assoc, ih k _ (Nat.le_succ_of_le hheight) (stops_brackets rest) fun h => absurd h hext,
          arrays_brackets]
  | @func ps r hns _ _ ihps ihr =>
    intro k rest hk hrest harray
    have hheight : rowHeight ps ≤ k ∧ r.height ≤ k := Nat.max_le.1 (by simpa [height] using hk)
    have hrow : ∀ p ∈ ps, ReadBack (readWithin k) p.2 := fun p hp =>
      (ihps p hp).readBack (Nat.le_trans (height_le_rowHeight hp) hheight.1)
    exact run_readWithin_succ (of_func hns r rest)
      (readForm_func_takes hns hrow (ihr.readBack hheight.2) ⟨hrest, harray rfl⟩)
  | @object ps hns _ ih =>
    intro k rest hk _ _
    have hheight : rowHeight ps ≤ k := by simpa [height] using hk
    have hrow : ∀ p ∈ ps, ReadBack (readWithin k) p.2 := fun p hp =>
      (ih p hp).readBack (Nat.le_trans (height_le_rowHeight hp) hheight)
    refine run_readWithin_succ ?_ (readForm_object_takes hns hrow)
    cases ps with
    | nil => rw [text_object_nil]; rfl
    | cons p ps => rw [text_object_cons]; rfl
  | @union vs hls hns _ ih =>
    intro k rest hk hrest _
    have hheight : variantsHeight vs ≤ k := by simpa [height] using hk
    have hvariants : ∀ v ∈ vs, ∀ p ∈ v.2, ReadBack (readWithin k) p.2 := fun v hv p hp =>
      (ih v hv p hp).readBack
        (Nat.le_trans (height_le_rowHeight hp) (Nat.le_trans (rowHeight_le_variantsHeight hv) hheight))
    cases vs with
    | nil =>
      rw [text_union_nil]
      exact run_readWithin_word (isWord_of_mem_keywords _ (by decide)) hrest k
    | cons v vs =>
      refine run_readWithin_succ ?_ (readForm_union_takes hls hns hvariants)
      rw [text_union_cons]
      rfl
  | @mu n b hn _ ih =>
    intro k rest hk _ _
    have hback : ReadBack (readWithin k) b := ih.readBack (by simpa [height] using hk)
    exact run_readWithin_succ (of_mu hn b rest) (readForm_mu_takes hn hback)
  | @generic ns b hns _ ih =>
    intro k rest hk hrest harray
    have hback : ReadBack (readWithin k) b := ih.readBack (by simpa [height] using hk)
    refine run_readWithin_succ ?_ (readForm_generic_takes hns hback ⟨hrest, harray rfl⟩)
    rw [text_generic]
    rfl
  | @var x hx hk =>
    intro k rest _ hrest _
    rw [text_var, run_readWithin_word hx hrest k, ofWord_eq_var hk]

/-! ### The levels of a type -/

theorem height_le_length_entryText {p : Name × Ty} (h : p.2.height ≤ p.2.text.length + 1) :
    p.2.height ≤ (entryText p).length := by
  have hcolon : ": ".toList.length = 2 := rfl
  rw [entryText, List.length_append, List.length_append]
  omega

theorem rowHeight_le_length {ps : Row} (h : ∀ p ∈ ps, p.2.height ≤ p.2.text.length + 1) (sep : String) :
    rowHeight ps ≤ (textAfter sep (ps.map entryText)).length := by
  induction ps with
  | nil => exact Nat.zero_le _
  | cons p ps ih =>
    obtain ⟨hp, hps⟩ := List.forall_mem_cons.1 h
    have hentry := height_le_length_entryText hp
    have hrow := ih hps
    rw [rowHeight, List.map_cons, textAfter_cons, List.length_append, List.length_append]
    omega

theorem rowHeight_le_length_variantText {v : Name × Row} (h : ∀ p ∈ v.2, p.2.height ≤ p.2.text.length + 1) :
    rowHeight v.2 ≤ (variantText v).length := by
  have hbegins : textAfter "; " (v.2.map entryText) <+: textAfter "; " (v.2.map entryText) ++ " \x7d".toList :=
    List.prefix_append ..
  have hsuffix : textAfter "; " (v.2.map entryText) ++ " \x7d".toList <:+ variantText v :=
    (List.suffix_append ..).trans ((List.suffix_append ..).trans (List.suffix_append ..))
  exact Nat.le_trans (rowHeight_le_length h "; ") (Nat.le_trans hbegins.length_le hsuffix.length_le)

theorem variantsHeight_le_length {vs : Variants} (h : ∀ v ∈ vs, ∀ p ∈ v.2, p.2.height ≤ p.2.text.length + 1)
    (sep : String) : variantsHeight vs ≤ (textAfter sep (vs.map variantText)).length := by
  induction vs with
  | nil => exact Nat.zero_le _
  | cons v vs ih =>
    obtain ⟨hv, hvs⟩ := List.forall_mem_cons.1 h
    have hrow := rowHeight_le_length_variantText hv
    have hvariants := ih hvs
    rw [variantsHeight, List.map_cons, textAfter_cons, List.length_append, List.length_append]
    omega

/-- A type has no more levels than its text has characters, and one. -/
theorem height_le_length (t : Ty) : t.height ≤ t.text.length + 1 := by
  induction t with
  | prim p => simp [height]
  | container k e ih =>
    cases k with
    | option => rw [text_option]; simp [height] at ih ⊢; omega
    | map => rw [text_map]; simp [height] at ih ⊢; omega
    | array => rw [text_array]; split <;> simp [height] at ih ⊢ <;> omega
  | func ps r ihps ihr =>
    have hparen : "(".toList.length = 1 := rfl
    rw [text_func, height]
    cases ps with
    | nil =>
      simp only [List.length_append, rowHeight]
      omega
    | cons p ps =>
      obtain ⟨hp, hps⟩ := List.forall_mem_cons.1 ihps
      have hentry := height_le_length_entryText hp
      have hrow := rowHeight_le_length hps ", "
      rw [List.map_cons, intercalate_cons]
      simp only [List.length_append, rowHeight]
      omega
  | object ps ih =>
    cases ps with
    | nil => simp [height, rowHeight]
    | cons p ps =>
      obtain ⟨hp, hps⟩ := List.forall_mem_cons.1 ih
      have hentry := height_le_length_entryText hp
      have hrow := rowHeight_le_length hps "; "
      rw [text_object_cons]
      simp only [List.length_append, height, rowHeight]
      omega
  | union vs ih =>
    cases vs with
    | nil => simp [height, variantsHeight]
    | cons v vs =>
      obtain ⟨hv, hvs⟩ := List.forall_mem_cons.1 ih
      have hrow := rowHeight_le_length_variantText hv
      have hvariants := variantsHeight_le_length hvs " | "
      rw [text_union_cons]
      simp only [List.length_append, height, variantsHeight]
      omega
  | mu n b ih => rw [text_mu]; simp [height] at ih ⊢; omega
  | generic ns b ih => rw [text_generic]; simp [height] at ih ⊢; omega
  | var x => simp [height]

/-- The reader gets a type back from its text. -/
theorem read_render {t : Ty} (h : t.Readable) : read t.render = some t := by
  have hback := h.reads.readBack t.height_le_length [] ends_nil
  rw [Takes, List.append_nil] at hback
  rw [read, hback]

/-- The word `tag` before a string is what tells the variants of a union from an object. -/
example : read "(\x7b tag: \"some\"; tag: A \x7d | \x7b tag: \"none\" \x7d)" =
    some (.union [("some", [("tag", .var "A")]), ("none", [])]) := by
  decide +kernel

theorem Readable.eq_of_render_eq {t u : Ty} (ht : t.Readable) (hu : u.Readable) (h : t.render = u.render) : t = u := by
  have hread := read_render ht
  rw [h, read_render hu] at hread
  exact (Option.some.inj hread).symm

/-- Where a type may end, its text tells both the type and what stands behind it. -/
theorem eq_of_text_append_eq {t u : Ty} (ht : t.Readable) (hu : u.Readable) {rest rest' : List Char} (hrest : Ends rest)
    (hrest' : Ends rest') (h : t.text ++ rest = u.text ++ rest') : t = u ∧ rest = rest' := by
  have hread := ht.reads.readBack (Nat.le_max_left t.height u.height) rest hrest
  rw [Takes, h, hu.reads.readBack (Nat.le_max_right t.height u.height) rest' hrest'] at hread
  obtain ⟨rfl, rfl⟩ := Prod.mk.inj (Option.some.inj hread)
  exact ⟨rfl, rfl⟩

end Ty

end MuTypes
