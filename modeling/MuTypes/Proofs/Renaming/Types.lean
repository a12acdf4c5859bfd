import MuTypes.Proofs.Lookup
import MuTypes.Proofs.FreeNames
import MuTypes.Ty.Fits

/-!
# Renaming types

`Ty.rename f` changes all names of type variables in a type, those of binders included.  When `f` is injective nothing
is captured, and renaming keeps free names (`mentions_rename`), contractive binders, heights, and equality up to bound
names (`alphaEquiv_rename`).
-/

namespace MuTypes

/-! ### Renaming types -/

namespace Ty

mutual

/-- The type with all names of type variables changed by `f`, those of binders included. -/
def rename (f : Name → Name) : Ty → Ty
  | .prim p => .prim p
  | .container k e => .container k (e.rename f)
  | .func ps r => .func (renameRow f ps) (r.rename f)
  | .object ps => .object (renameRow f ps)
  | .union vs => .union (renameVariants f vs)
  | .mu n b => .mu (f n) (b.rename f)
  | .generic ns b => .generic (ns.map f) (b.rename f)
  | .var n => .var (f n)

/-- `rename` on the types of a row. -/
def renameRow (f : Name → Name) : Row → Row
  | [] => []
  | (n, t) :: ps => (n, t.rename f) :: renameRow f ps

/-- `rename` on the types of all variants. -/
def renameVariants (f : Name → Name) : Variants → Variants
  | [] => []
  | (l, ps) :: vs => (l, renameRow f ps) :: renameVariants f vs

end

section Rename

variable {f : Name → Name}

theorem renameRow_eq_map (ps : Row) : renameRow f ps = ps.map fun p => (p.1, p.2.rename f) := by
  induction ps with
  | nil => rfl
  | cons p ps ih => rw [renameRow, ih, List.map_cons]

theorem renameVariants_eq_map (vs : Variants) : renameVariants f vs = vs.map fun v => (v.1, renameRow f v.2) := by
  induction vs with
  | nil => rfl
  | cons v vs ih => rw [renameVariants, ih, List.map_cons]

theorem lookup_renameRow (ps : Row) (n : Name) : (renameRow f ps).lookup n = (ps.lookup n).map (rename f) := by
  rw [renameRow_eq_map, lookup_map_snd]

theorem lookup_renameVariants (vs : Variants) (n : Name) :
    (renameVariants f vs).lookup n = (vs.lookup n).map (renameRow f) := by
  rw [renameVariants_eq_map, lookup_map_snd]

@[simp] theorem length_renameRow (ps : Row) : (renameRow f ps).length = ps.length := by
  rw [renameRow_eq_map, List.length_map]

@[simp] theorem length_renameVariants (vs : Variants) : (renameVariants f vs).length = vs.length := by
  rw [renameVariants_eq_map, List.length_map]

@[simp] theorem rename_eq_prim_iff {t : Ty} {p : Prim} : t.rename f = .prim p ↔ t = .prim p := by
  cases t <;> simp [rename]

@[simp] theorem isMu_rename (t : Ty) : (t.rename f).isMu = t.isMu := by
  cases t <;> rfl

@[simp] theorem muNames_rename (t : Ty) : (t.rename f).muNames = t.muNames.map f := by
  induction t with
  | mu n b ih => rw [rename, muNames, ih, muNames, List.map_cons]
  | _ => rfl

@[simp] theorem muBody_rename (t : Ty) : (t.rename f).muBody = t.muBody.rename f := by
  induction t with
  | mu n b ih => exact ih
  | _ => rfl

@[simp] theorem height_rename (t : Ty) : (t.rename f).height = t.height := by
  have hrow : ∀ ps : Row, (∀ p ∈ ps, (p.2.rename f).height = p.2.height) →
      rowHeight (renameRow f ps) = rowHeight ps := by
    intro ps ih
    induction ps with
    | nil => rfl
    | cons p ps ihps =>
      obtain ⟨hp, hps⟩ := List.forall_mem_cons.1 ih
      rw [renameRow, rowHeight, rowHeight, hp, ihps hps]
  induction t with
  | prim p => rfl
  | container k e ih => rw [rename, height, height, ih]
  | func ps r ihps ihr => rw [rename, height, height, hrow ps ihps, ihr]
  | object ps ih => rw [rename, height, height, hrow ps ih]
  | union vs ih =>
    have hvs : variantsHeight (renameVariants f vs) = variantsHeight vs := by
      induction vs with
      | nil => rfl
      | cons v vs ihvs =>
        obtain ⟨hv, hvs⟩ := List.forall_mem_cons.1 ih
        rw [renameVariants, variantsHeight, variantsHeight, hrow v.2 hv, ihvs hvs]
    rw [rename, height, height, hvs]
  | mu n b ih => rw [rename, height, height, ih]
  | generic ns b ih => rw [rename, height, height, ih]
  | var n => rfl

/-- A renaming that keeps all names of a type keeps the type. -/
theorem rename_eq_self {t : Ty} (h : ∀ x ∈ t.typeNames, f x = x) : t.rename f = t := by
  have hrow : ∀ ps : Row, (∀ p ∈ ps, p.2.rename f = p.2) → renameRow f ps = ps := fun ps ih => by
    rw [renameRow_eq_map, map_snd_eq_self ih]
  induction t with
  | prim p => rfl
  | container k e ih => rw [rename, ih h]
  | func ps r ihps ihr =>
    rw [rename, ihr fun x hx => h x (mem_typeNames_func.2 (.inr hx)), hrow ps fun p hp => ihps p hp fun x hx => ?_]
    exact h x (mem_typeNames_func.2 (.inl ⟨p, hp, hx⟩))
  | object ps ih =>
    rw [rename, hrow ps fun p hp => ih p hp fun x hx => h x (mem_typeNames_object.2 ⟨p, hp, hx⟩)]
  | union vs ih =>
    rw [rename, renameVariants_eq_map, map_snd_eq_self fun v hv => hrow v.2 fun p hp => ih v hv p hp fun x hx => ?_]
    exact h x (mem_typeNames_union.2 ⟨v, hv, p, hp, hx⟩)
  | mu n b ih => rw [rename, h n (mem_typeNames_mu.2 (.inl rfl)), ih fun x hx => h x (mem_typeNames_mu.2 (.inr hx))]
  | generic ns b ih =>
    have hns : ns.map f = ns :=
      (List.map_congr_left (g := id) fun n hn => h n (mem_typeNames_generic.2 (.inl hn))).trans (List.map_id ns)
    rw [rename, hns, ih fun x hx => h x (mem_typeNames_generic.2 (.inr hx))]
  | var n => rw [rename, h n (by simp [typeNames])]

variable (hf : Function.Injective f)
include hf

theorem mentions_rename (x : Name) (t : Ty) : (t.rename f).mentions (f x) = t.mentions x := by
  have hrow : ∀ ps : Row, (∀ p ∈ ps, (p.2.rename f).mentions (f x) = p.2.mentions x) →
      mentionsInRow (f x) (renameRow f ps) = mentionsInRow x ps := by
    intro ps ih
    induction ps with
    | nil => rfl
    | cons p ps ihps =>
      obtain ⟨hp, hps⟩ := List.forall_mem_cons.1 ih
      rw [renameRow, mentionsInRow, mentionsInRow, hp, ihps hps]
  induction t with
  | prim p => rfl
  | container k e ih => exact ih
  | func ps r ihps ihr => rw [rename, mentions, mentions, hrow ps ihps, ihr]
  | object ps ih => exact hrow ps ih
  | union vs ih =>
    show mentionsInVariants (f x) (renameVariants f vs) = mentionsInVariants x vs
    induction vs with
    | nil => rfl
    | cons v vs ihvs =>
      obtain ⟨hv, hvs⟩ := List.forall_mem_cons.1 ih
      rw [renameVariants, mentionsInVariants, mentionsInVariants, hrow v.2 hv, ihvs hvs]
  | mu n b ih => simp only [rename, mentions, ih, hf.ne_iff]
  | generic ns b ih => simp only [rename, mentions, ih, List.mem_map_of_injective hf]
  | var n => simp only [rename, mentions, hf.eq_iff]

theorem mem_freeNames_rename {x : Name} {t : Ty} : f x ∈ (t.rename f).freeNames ↔ x ∈ t.freeNames := by
  rw [mem_freeNames_iff, mem_freeNames_iff, mentions_rename hf]

@[simp] theorem isContractive_rename (t : Ty) : (t.rename f).isContractive = t.isContractive := by
  unfold isContractive
  rw [muBody_rename, muNames_rename]
  cases t.muBody with
  | var n => simp only [rename, List.mem_map_of_injective hf]
  | _ => rfl

/-- A type and the renamed one have the same nameless form below binders that are renamed alike, when these bind all
its free names that are changed. -/
theorem nameless_rename {ctx : List Name} {t : Ty} (h : ∀ x, t.mentions x = true → x ∈ ctx ∨ f x = x) :
    (t.rename f).nameless (ctx.map f) = t.nameless ctx := by
  have hrow : ∀ (ctx : List Name) (ps : Row), (∀ p ∈ ps, (p.2.rename f).nameless (ctx.map f) = p.2.nameless ctx) →
      ((renameRow f ps).map fun p => (p.1, p.2.nameless (ctx.map f))) = ps.map fun p => (p.1, p.2.nameless ctx) := by
    intro ctx ps ih
    rw [renameRow_eq_map, map_snd_map_snd]
    exact List.map_congr_left fun p hp => congrArg (Prod.mk p.1) (ih p hp)
  induction t generalizing ctx with
  | prim p => rfl
  | container k e ih => rw [rename, nameless_container, nameless_container, ih h]
  | func ps r ihps ihr =>
    simp only [mentions_func] at h
    rw [rename, nameless_func, nameless_func, ihr fun x hx => h x (.inr hx),
      hrow ctx ps fun p hp => ihps p hp fun x hx => h x (.inl ⟨p, hp, hx⟩)]
  | object ps ih =>
    simp only [mentions_object] at h
    rw [rename, nameless_object, nameless_object, hrow ctx ps fun p hp => ih p hp fun x hx => h x ⟨p, hp, hx⟩]
  | union vs ih =>
    simp only [mentions_union] at h
    rw [rename, nameless_union, nameless_union, renameVariants_eq_map, map_snd_map_snd]
    refine congrArg Nameless.union (List.map_congr_left fun v hv => congrArg (Prod.mk v.1) ?_)
    exact hrow ctx v.2 fun p hp => ih v hv p hp fun x hx => h x ⟨v, hv, p, hp, hx⟩
  | mu n b ih =>
    rw [rename, nameless_mu, nameless_mu, ← List.map_cons, ih fun x hx => ?_]
    by_cases hn : n = x
    · exact .inl (List.mem_cons.2 (.inl hn.symm))
    · exact (h x ((mentions_mu ..).2 ⟨hn, hx⟩)).imp_left (List.mem_cons_of_mem n)
  | generic ns b ih =>
    rw [rename, nameless_generic, nameless_generic, List.length_map, ← List.map_reverse, ← List.map_append,
      ih fun x hx => ?_]
    by_cases hn : x ∈ ns
    · exact .inl (List.mem_append_left _ (List.mem_reverse.2 hn))
    · exact (h x ((mentions_generic ..).2 ⟨hn, hx⟩)).imp_left (List.mem_append_right _)
  | var x =>
    have hplace : place (ctx.map f) (f x) = place ctx x := by
      simp only [place, List.findIdx?_map, Function.comp_def, hf.eq_iff]
    have hmem : x ∈ ctx ∨ f x = x := h x (by simp)
    rw [rename, nameless_var, nameless_var, leaf, leaf, hplace]
    cases hp : place ctx x with
    | some i => rfl
    | none => exact congrArg Nameless.free (hmem.resolve_left (place_eq_none_iff.1 hp))

/-- A type and the renamed one have the same nameless form when the free names are kept. -/
theorem bare_rename_of_kept {t : Ty} (h : ∀ x, t.mentions x = true → f x = x) : (t.rename f).bare = t.bare :=
  show (t.rename f).nameless (List.map f []) = t.nameless [] from nameless_rename hf fun x hx => .inr (h x hx)

/-- A closed type and the renamed one have the same nameless form. -/
theorem bare_rename {t : Ty} (h : ∀ x, ¬ t.mentions x = true) : (t.rename f).bare = t.bare :=
  bare_rename_of_kept hf fun x hx => absurd hx (h x)

end Rename

end Ty

/-! ### Equality up to bound names -/

namespace Binders

/-- The pairs with all names changed by `f`. -/
def rename (f : Name → Name) (bs : Binders) : Binders :=
  bs.map (Prod.map f f)

variable {f : Name → Name}

theorem rename_enter (bs : Binders) (ns ms : List Name) :
    (bs.enter ns ms).rename f = (bs.rename f).enter (ns.map f) (ms.map f) := by
  simp [rename, enter, List.zip_map]

theorem rename_swap (bs : Binders) : bs.swap.rename f = (bs.rename f).swap := by
  simp [rename, swap]

theorem rename_ofScope (names : List Name) : (ofScope names).rename f = ofScope (names.map f) :=
  rename_enter [] names names

theorem left?_rename (hf : Function.Injective f) (bs : Binders) (n : Name) :
    (bs.rename f).left? (f n) = bs.left? n := by
  simp only [left?, rename, List.findIdx?_map, Function.comp_def, Prod.map_fst, hf.eq_iff]

theorem right?_rename (hf : Function.Injective f) (bs : Binders) (n : Name) :
    (bs.rename f).right? (f n) = bs.right? n := by
  simp only [right?, rename, List.findIdx?_map, Function.comp_def, Prod.map_snd, hf.eq_iff]

end Binders

namespace Ty

section AlphaEquiv

variable {f : Name → Name} (hf : Function.Injective f)
include hf

theorem alphaEquivUnder_rename (bs : Binders) (a b : Ty) :
    alphaEquivUnder (bs.rename f) (a.rename f) (b.rename f) = alphaEquivUnder bs a b := by
  have hrow : ∀ (bs : Binders) (ps qs : Row), (∀ p ∈ ps, ∀ bs b,
      alphaEquivUnder (bs.rename f) (p.2.rename f) (b.rename f) = alphaEquivUnder bs p.2 b) →
      alphaEquivRow (bs.rename f) (renameRow f ps) (renameRow f qs) = alphaEquivRow bs ps qs := by
    intro bs ps qs ih
    induction ps with
    | nil => simp only [renameRow, alphaEquivRow]
    | cons p ps ihps =>
      obtain ⟨hp, hps⟩ := List.forall_mem_cons.1 ih
      rw [renameRow, alphaEquivRow, alphaEquivRow, lookup_renameRow, ihps hps]
      cases qs.lookup p.1 with
      | none => rfl
      | some b => simp only [Option.map_some, hp]
  induction a generalizing bs b with
  | prim p => cases b <;> simp only [rename, alphaEquivUnder]
  | container k e ih =>
    cases b with
    | container l e' => simp only [rename, alphaEquivUnder, ih]
    | _ => simp only [rename, alphaEquivUnder]
  | func ps r ihps ihr =>
    cases b with
    | func qs r' =>
      have hparams : alphaEquivParams (bs.rename f) (renameRow f ps) (renameRow f qs) = alphaEquivParams bs ps qs := by
        clear ihr
        induction ps generalizing qs with
        | nil => cases qs <;> simp only [renameRow, alphaEquivParams]
        | cons p ps ih =>
          obtain ⟨hp, hps⟩ := List.forall_mem_cons.1 ihps
          cases qs with
          | nil => simp only [renameRow, alphaEquivParams]
          | cons q qs =>
            obtain ⟨n, a⟩ := p
            obtain ⟨m, b⟩ := q
            simp only [renameRow, alphaEquivParams, hp, ih hps]
      simp only [rename, alphaEquivUnder, hparams, ihr]
    | _ => simp only [rename, alphaEquivUnder]
  | object ps ih =>
    cases b with
    | object qs => simp only [rename, alphaEquivUnder, length_renameRow, hrow bs ps qs ih]
    | _ => simp only [rename, alphaEquivUnder]
  | union vs ih =>
    cases b with
    | union ws =>
      have hvariants : alphaEquivVariants (bs.rename f) (renameVariants f vs) (renameVariants f ws) =
          alphaEquivVariants bs vs ws := by
        induction vs with
        | nil => simp only [renameVariants, alphaEquivVariants]
        | cons v vs ihvs =>
          obtain ⟨hv, hvs⟩ := List.forall_mem_cons.1 ih
          rw [renameVariants, alphaEquivVariants, alphaEquivVariants, lookup_renameVariants, ihvs hvs]
          cases ws.lookup v.1 with
          | none => rfl
          | some qs => simp only [Option.map_some, length_renameRow, hrow bs v.2 qs hv]
      simp only [rename, alphaEquivUnder, length_renameVariants, hvariants]
    | _ => simp only [rename, alphaEquivUnder]
  | mu n b ih =>
    cases b with
    | mu m c => simp only [rename, alphaEquivUnder, ← ih, Binders.rename_enter, List.map_cons, List.map_nil]
    | _ => simp only [rename, alphaEquivUnder]
  | generic ns b ih =>
    cases b with
    | generic ms c => simp only [rename, alphaEquivUnder, ← ih, Binders.rename_enter, List.length_map]
    | _ => simp only [rename, alphaEquivUnder]
  | var n =>
    cases b with
    | var m => simp only [rename, alphaEquivUnder, Binders.left?_rename hf, Binders.right?_rename hf, hf.eq_iff]
    | _ => simp only [rename, alphaEquivUnder]

theorem alphaEquiv_rename (a b : Ty) : (a.rename f).alphaEquiv (b.rename f) = a.alphaEquiv b :=
  alphaEquivUnder_rename hf [] a b

end AlphaEquiv

end Ty

end MuTypes
