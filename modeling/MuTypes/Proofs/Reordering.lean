import Mathlib
import MuTypes.Proofs.Alpha

/-!
# Equality up to bound names and the order of entries

`Nameless.Reordered` says that a nameless type becomes another one when the properties of its objects and variants and
the variants of its unions are permuted, at any depth.  It is an equivalence without any condition on the types.

`Alike`, the form of it that is decided, looks entries up by their names and compares lengths on one side only.  Where
names and labels do not repeat, entries that are found are entries that are permuted (`upToOrder_iff_lookup`), so the
two relations are the same (`alike_iff_reordered`), and equality up to bound names is equality of the nameless forms up
to order (`Ty.alphaEquiv_iff_reordered`).
-/

namespace MuTypes

/-! ### Lists up to order -/

/-- The second list is a permutation of one that is related to the first one, element by element. -/
def UpToOrder {σ τ : Type} (R : σ → τ → Prop) (l : List σ) (r : List τ) : Prop :=
  ∃ m, List.Forall₂ R l m ∧ m.Perm r

section UpToOrder

variable {α β σ τ : Type}

theorem UpToOrder.refl {R : σ → σ → Prop} {l : List σ} (h : ∀ a ∈ l, R a a) : UpToOrder R l l :=
  ⟨l, List.forall₂_same.2 h, .refl l⟩

theorem UpToOrder.converse {R : σ → τ → Prop} {S : τ → σ → Prop} {l : List σ} {r : List τ} (h : UpToOrder R l r)
    (hs : ∀ a ∈ l, ∀ b, R a b → S b a) : UpToOrder S r l := by
  obtain ⟨m, hm, hperm⟩ := h
  have hconverse : List.Forall₂ S m l := Nameless.forall₂_converse hm fun a ha b _ => hs a ha b
  exact List.perm_comp_forall₂ hperm.symm hconverse

private theorem forall₂_congr_of_mem {R S : σ → τ → Prop} {l : List σ} {r : List τ}
    (h : ∀ a ∈ l, ∀ b ∈ r, (R a b ↔ S a b)) : List.Forall₂ R l r ↔ List.Forall₂ S l r := by
  rw [List.forall₂_iff_zip, List.forall₂_iff_zip]
  refine and_congr_right fun _ => forall_congr' fun a => forall_congr' fun b => forall_congr' fun hab => ?_
  obtain ⟨ha, hb⟩ := List.of_mem_zip hab
  exact h a ha b hb

private theorem exists_row_of_lookup {R : α → β → Prop} {ps : List (Name × α)} {qs : List (Name × β)}
    (h : ∀ p ∈ ps, ∃ u, qs.lookup p.1 = some u ∧ R p.2 u) :
    ∃ rs, List.Forall₂ (fun p q => (p.1 = q.1 ∧ R p.2 q.2) ∧ q ∈ qs) ps rs := by
  induction ps with
  | nil => exact ⟨[], .nil⟩
  | cons p ps ih =>
    obtain ⟨⟨u, hu, hR⟩, hps⟩ := List.forall_mem_cons.1 h
    obtain ⟨rs, hrs⟩ := ih hps
    exact ⟨(p.1, u) :: rs, .cons ⟨⟨rfl, hR⟩, mem_of_lookup hu⟩ hrs⟩

/-- Rows without repeated names agree up to order when they are equally long and every entry of the first one has a
related entry of its name in the second one. -/
theorem upToOrder_iff_lookup {R : α → β → Prop} {ps : List (Name × α)} {qs : List (Name × β)}
    (hd : (ps.map Prod.fst).Nodup) (hd' : (qs.map Prod.fst).Nodup) :
    UpToOrder (fun p q => p.1 = q.1 ∧ R p.2 q.2) ps qs ↔
      ps.length = qs.length ∧ ∀ p ∈ ps, ∃ u, qs.lookup p.1 = some u ∧ R p.2 u := by
  constructor
  · rintro ⟨rs, hrs, hperm⟩
    refine ⟨hrs.length_eq.trans hperm.length_eq, fun p hp => ?_⟩
    have hflip : List.Forall₂ (fun r p => p.1 = r.1 ∧ R p.2 r.2) rs ps :=
      Nameless.forall₂_converse hrs fun _ _ _ _ h => h
    obtain ⟨r, hr, hn, hR⟩ := exists_of_mem_right hflip hp
    exact ⟨r.2, hn ▸ lookup_of_mem hd' (hperm.subset hr), hR⟩
  · rintro ⟨hl, h⟩
    obtain ⟨rs, hrs⟩ := exists_row_of_lookup h
    have hnames : ps.map Prod.fst = rs.map Prod.fst := by
      rw [← List.forall₂_eq_eq_eq, List.forall₂_map_left_iff, List.forall₂_map_right_iff]
      exact hrs.imp fun p q hpq => hpq.1.1
    have hsub : rs ⊆ qs := fun q hq => (exists_of_mem_right hrs hq).elim fun _ hp => hp.2.2
    have hnodup : rs.Nodup := List.Nodup.of_map Prod.fst (hnames ▸ hd)
    refine ⟨rs, hrs.imp fun p q hpq => hpq.1, (hnodup.subperm hsub).perm_of_length_le ?_⟩
    rw [← hl, hrs.length_eq]

end UpToOrder

/-! ### Nameless types up to order -/

namespace Nameless

variable {α : Type}

mutual

/-- Is the second type the first one with properties and variants in another order? -/
def Reordered : Nameless α → Nameless α → Prop
  | .prim p => fun u => u = .prim p
  | .container k e => fun u => ∃ e', u = .container k e' ∧ Reordered e e'
  | .func ps r => fun u => ∃ qs s, u = .func qs s ∧ ReorderedRow ps qs ∧ Reordered r s
  | .object ps => fun u => ∃ qs, u = .object qs ∧ ∃ rs, ReorderedRow ps rs ∧ rs.Perm qs
  | .union vs => fun u => ∃ ws, u = .union ws ∧ ∃ us, ReorderedVariants vs us ∧ us.Perm ws
  | .mu b => fun u => ∃ b', u = .mu b' ∧ Reordered b b'
  | .generic n b => fun u => ∃ b', u = .generic n b' ∧ Reordered b b'
  | .bound i => fun u => u = .bound i
  | .free x => fun u => u = .free x

/-- The rows have the same names in the same order, with types that are reordered. -/
def ReorderedRow : List (Name × Nameless α) → List (Name × Nameless α) → Prop
  | [] => fun qs => qs = []
  | (n, t) :: ps => fun qs => ∃ t' qs', qs = (n, t') :: qs' ∧ Reordered t t' ∧ ReorderedRow ps qs'

/-- The variants have the same labels in the same order, with properties in another order. -/
def ReorderedVariants :
    List (Name × List (Name × Nameless α)) → List (Name × List (Name × Nameless α)) → Prop
  | [] => fun ws => ws = []
  | (l, ps) :: vs => fun ws =>
    ∃ qs ws', ws = (l, qs) :: ws' ∧ (∃ rs, ReorderedRow ps rs ∧ rs.Perm qs) ∧ ReorderedVariants vs ws'

end

/-- The entries have the same name, and their types are reordered. -/
def ReorderedEntry (p q : Name × Nameless α) : Prop :=
  p.1 = q.1 ∧ Reordered p.2 q.2

theorem reorderedRow_iff {ps qs : List (Name × Nameless α)} :
    ReorderedRow ps qs ↔ List.Forall₂ ReorderedEntry ps qs := by
  induction ps generalizing qs with
  | nil => simp [ReorderedRow]
  | cons p ps ih =>
    rw [ReorderedRow]
    constructor
    · rintro ⟨t', qs', rfl, ht, hps⟩
      exact .cons ⟨rfl, ht⟩ (ih.1 hps)
    · rintro (_ | ⟨⟨hn, ht⟩, hps⟩)
      exact ⟨_, _, by rw [hn], ht, ih.2 hps⟩

theorem reorderedVariants_iff {vs ws : List (Name × List (Name × Nameless α))} :
    ReorderedVariants vs ws ↔
      List.Forall₂ (fun v w => v.1 = w.1 ∧ UpToOrder ReorderedEntry v.2 w.2) vs ws := by
  induction vs generalizing ws with
  | nil => simp [ReorderedVariants]
  | cons v vs ih =>
    simp only [ReorderedVariants, reorderedRow_iff]
    constructor
    · rintro ⟨qs, ws', rfl, hqs, hvs⟩
      exact .cons ⟨rfl, hqs⟩ (ih.1 hvs)
    · rintro (_ | ⟨⟨hn, hqs⟩, hvs⟩)
      exact ⟨_, _, by rw [hn], hqs, ih.2 hvs⟩

section Equations

variable {u : Nameless α}

theorem reordered_func {ps : List (Name × Nameless α)} {r : Nameless α} :
    Reordered (.func ps r) u ↔ ∃ qs s, u = .func qs s ∧ List.Forall₂ ReorderedEntry ps qs ∧ Reordered r s :=
  exists₂_congr fun _ _ => and_congr_right fun _ => and_congr_left fun _ => reorderedRow_iff

theorem reordered_object {ps : List (Name × Nameless α)} :
    Reordered (.object ps) u ↔ ∃ qs, u = .object qs ∧ UpToOrder ReorderedEntry ps qs :=
  exists_congr fun _ => and_congr_right fun _ => exists_congr fun _ => and_congr_left fun _ => reorderedRow_iff

theorem reordered_union {vs : List (Name × List (Name × Nameless α))} :
    Reordered (.union vs) u ↔
      ∃ ws, u = .union ws ∧ UpToOrder (fun v w => v.1 = w.1 ∧ UpToOrder ReorderedEntry v.2 w.2) vs ws :=
  exists_congr fun _ => and_congr_right fun _ => exists_congr fun _ => and_congr_left fun _ => reorderedVariants_iff

end Equations

theorem Reordered.refl (t : Nameless α) : Reordered t t := by
  induction t with
  | prim p => exact rfl
  | container k e ih => exact ⟨e, rfl, ih⟩
  | func ps r ihps ihr => exact reordered_func.2 ⟨ps, r, rfl, List.forall₂_same.2 fun p hp => ⟨rfl, ihps p hp⟩, ihr⟩
  | object ps ih => exact reordered_object.2 ⟨ps, rfl, .refl fun p hp => ⟨rfl, ih p hp⟩⟩
  | union vs ih =>
    exact reordered_union.2 ⟨vs, rfl, .refl fun v hv => ⟨rfl, .refl fun p hp => ⟨rfl, ih v hv p hp⟩⟩⟩
  | mu b ih => exact ⟨b, rfl, ih⟩
  | generic n b ih => exact ⟨b, rfl, ih⟩
  | bound i => exact rfl
  | free x => exact rfl

theorem Reordered.symm {t u : Nameless α} (h : Reordered t u) : Reordered u t := by
  have hentry : ∀ {ps : List (Name × Nameless α)}, (∀ p ∈ ps, ∀ {u}, Reordered p.2 u → Reordered u p.2) →
      ∀ p ∈ ps, ∀ q, ReorderedEntry p q → ReorderedEntry q p :=
    fun ih p hp _ hpq => ⟨hpq.1.symm, ih p hp hpq.2⟩
  induction t generalizing u with
  | prim p =>
    obtain rfl := h
    exact rfl
  | container k e ih =>
    obtain ⟨e', rfl, he⟩ := h
    exact ⟨e, rfl, ih he⟩
  | func ps r ihps ihr =>
    obtain ⟨qs, s, rfl, hps, hr⟩ := reordered_func.1 h
    exact reordered_func.2 ⟨ps, r, rfl, forall₂_converse hps fun p hp q _ => hentry ihps p hp q, ihr hr⟩
  | object ps ih =>
    obtain ⟨qs, rfl, hps⟩ := reordered_object.1 h
    exact reordered_object.2 ⟨ps, rfl, hps.converse (hentry ih)⟩
  | union vs ih =>
    obtain ⟨ws, rfl, hvs⟩ := reordered_union.1 h
    refine reordered_union.2 ⟨vs, rfl, hvs.converse ?_⟩
    rintro v hv w ⟨hl, hps⟩
    exact ⟨hl.symm, hps.converse (hentry (ih v hv))⟩
  | mu b ih =>
    obtain ⟨b', rfl, hb⟩ := h
    exact ⟨b, rfl, ih hb⟩
  | generic n b ih =>
    obtain ⟨b', rfl, hb⟩ := h
    exact ⟨b, rfl, ih hb⟩
  | bound i =>
    obtain rfl := h
    exact rfl
  | free x =>
    obtain rfl := h
    exact rfl

/-! ### Names that do not repeat -/

/-- Properties do not repeat in an object or a variant, nor labels in a union. -/
inductive DistinctNames : Nameless α → Prop where
  | prim (p : Prim) : DistinctNames (.prim p)
  | container {k : Container} {e : Nameless α} (he : DistinctNames e) : DistinctNames (.container k e)
  | func {ps : List (Name × Nameless α)} {r : Nameless α} (hps : ∀ p ∈ ps, DistinctNames p.2)
    (hr : DistinctNames r) : DistinctNames (.func ps r)
  | object {ps : List (Name × Nameless α)} (hd : (ps.map Prod.fst).Nodup) (hps : ∀ p ∈ ps, DistinctNames p.2) :
    DistinctNames (.object ps)
  | union {vs : List (Name × List (Name × Nameless α))} (hd : (vs.map Prod.fst).Nodup)
    (hds : ∀ v ∈ vs, (v.2.map Prod.fst).Nodup) (hvs : ∀ v ∈ vs, ∀ p ∈ v.2, DistinctNames p.2) :
    DistinctNames (.union vs)
  | mu {b : Nameless α} (hb : DistinctNames b) : DistinctNames (.mu b)
  | generic {n : Nat} {b : Nameless α} (hb : DistinctNames b) : DistinctNames (.generic n b)
  | bound (i : Nat) : DistinctNames (.bound i)
  | free (x : α) : DistinctNames (.free x)

private theorem alikeRow_iff_upToOrder {ps qs : List (Name × Nameless α)} (hd : (ps.map Prod.fst).Nodup)
    (hd' : (qs.map Prod.fst).Nodup) (h : ∀ p ∈ ps, ∀ q ∈ qs, Alike p.2 q.2 ↔ Reordered p.2 q.2) :
    (ps.length = qs.length ∧ ∀ p ∈ ps, ∃ t', qs.lookup p.1 = some t' ∧ Alike p.2 t') ↔
      UpToOrder ReorderedEntry ps qs := by
  refine Iff.trans (and_congr_right fun _ => forall₂_congr fun p hp => exists_congr fun t' => ?_)
    (upToOrder_iff_lookup hd hd').symm
  exact and_congr_right fun ht' => h p hp _ (mem_of_lookup ht')

/-- Where names do not repeat, looking them up compares types up to order. -/
theorem alike_iff_reordered {t u : Nameless α} (ht : t.DistinctNames) (hu : u.DistinctNames) :
    Alike t u ↔ Reordered t u := by
  induction ht generalizing u with
  | prim p => exact Iff.rfl
  | container _ ih =>
    refine exists_congr fun e' => and_congr_right fun he => ?_
    subst he
    cases hu with
    | container he => exact ih he
  | func _ _ ihps ihr =>
    rw [alike_func, reordered_func]
    refine exists_congr fun qs => exists_congr fun s => and_congr_right fun he => ?_
    subst he
    cases hu with
    | func hqs hs =>
      exact and_congr (forall₂_congr_of_mem fun p hp q hq => and_congr_right fun _ => ihps p hp (hqs q hq)) (ihr hs)
  | object hd _ ih =>
    rw [alike_object, reordered_object]
    refine exists_congr fun qs => and_congr_right fun he => ?_
    subst he
    cases hu with
    | object hd' hqs => exact alikeRow_iff_upToOrder hd hd' fun p hp q hq => ih p hp (hqs q hq)
  | union hd hds _ ih =>
    rw [alike_union, reordered_union]
    refine exists_congr fun ws => and_congr_right fun he => ?_
    subst he
    cases hu with
    | union hd' hds' hws =>
      refine Iff.trans (and_congr_right fun _ => forall₂_congr fun v hv => exists_congr fun qs => ?_)
        (upToOrder_iff_lookup hd hd').symm
      refine and_congr_right fun hqs => ?_
      have hw := mem_of_lookup hqs
      exact alikeRow_iff_upToOrder (hds v hv) (hds' _ hw) fun p hp q hq => ih v hv p hp (hws _ hw q hq)
  | mu _ ih =>
    refine exists_congr fun b' => and_congr_right fun he => ?_
    subst he
    cases hu with
    | mu hb => exact ih hb
  | generic _ ih =>
    refine exists_congr fun b' => and_congr_right fun he => ?_
    subst he
    cases hu with
    | generic hb => exact ih hb
  | bound i => exact Iff.rfl
  | free x => exact Iff.rfl

end Nameless

/-! ### Types -/

namespace Ty

/-- Properties do not repeat in an object or a variant, nor labels in a union.  Names of variables and binders may be
any. -/
inductive DistinctNames : Ty → Prop where
  | prim (p : Prim) : DistinctNames (.prim p)
  | container {k : Container} {e : Ty} (he : DistinctNames e) : DistinctNames (.container k e)
  | func {ps : Row} {r : Ty} (hps : ∀ p ∈ ps, DistinctNames p.2) (hr : DistinctNames r) : DistinctNames (.func ps r)
  | object {ps : Row} (hd : (ps.map Prod.fst).Nodup) (hps : ∀ p ∈ ps, DistinctNames p.2) : DistinctNames (.object ps)
  | union {vs : Variants} (hd : (vs.map Prod.fst).Nodup) (hds : ∀ v ∈ vs, (v.2.map Prod.fst).Nodup)
    (hvs : ∀ v ∈ vs, ∀ p ∈ v.2, DistinctNames p.2) : DistinctNames (.union vs)
  | mu {n : Name} {b : Ty} (hb : DistinctNames b) : DistinctNames (.mu n b)
  | generic {ns : List Name} {b : Ty} (hb : DistinctNames b) : DistinctNames (.generic ns b)
  | var (x : Name) : DistinctNames (.var x)

theorem DistinctNames.nameless {t : Ty} (h : t.DistinctNames) (ctx : List Name) : (t.nameless ctx).DistinctNames := by
  induction h generalizing ctx with
  | prim p => exact .prim p
  | container _ ih => exact .container (ih ctx)
  | func _ _ ihps ihr =>
    rw [nameless_func]
    exact .func (List.forall_mem_map.2 fun p hp => ihps p hp ctx) (ihr ctx)
  | object hd _ ih =>
    rw [nameless_object]
    exact .object (by rwa [map_fst_map_snd]) (List.forall_mem_map.2 fun p hp => ih p hp ctx)
  | union hd hds _ ih =>
    rw [nameless_union]
    refine .union (by rwa [map_fst_map_snd]) (List.forall_mem_map.2 fun v hv => ?_)
      (List.forall_mem_map.2 fun v hv => List.forall_mem_map.2 fun p hp => ih v hv p hp ctx)
    rw [map_fst_map_snd]
    exact hds v hv
  | mu _ ih => exact .mu (ih (_ :: ctx))
  | generic _ ih => exact .generic (ih (_ ++ ctx))
  | var x =>
    rw [nameless_var, leaf]
    cases place ctx x <;> constructor

/-- Types are equal up to bound names when their nameless forms are equal up to the order of properties and variants.
So this is an equivalence of types without repeated names. -/
theorem alphaEquiv_iff_reordered {a b : Ty} (ha : a.DistinctNames) (hb : b.DistinctNames) :
    (a.alphaEquiv b = true ↔ a.bare.Reordered b.bare) ∧ a.alphaEquiv a = true ∧
      (a.alphaEquiv b = true → b.alphaEquiv a = true) ∧
      ∀ c : Ty, a.alphaEquiv b = true → b.alphaEquiv c = true → a.alphaEquiv c = true := by
  have hiff : ∀ {t u : Ty}, t.DistinctNames → u.DistinctNames → (t.alphaEquiv u = true ↔ t.bare.Reordered u.bare) :=
    fun ht hu => alphaEquiv_iff.trans (Nameless.alike_iff_reordered (ht.nameless []) (hu.nameless []))
  refine ⟨hiff ha hb, (hiff ha ha).2 (.refl _), fun hab => ?_, fun c hab hbc => ?_⟩
  · exact (hiff hb ha).2 ((hiff ha hb).1 hab).symm
  · exact alphaEquiv_iff.2 ((alphaEquiv_iff.1 hab).trans (alphaEquiv_iff.1 hbc))

/-- `<ns>(v: x) => (mu n. { ... })`. -/
def looped (ns : List Name) (x n : Name) (row : Row) : Ty :=
  .generic ns (.func [("v", .var x)] (.mu n (.object row)))

/-- With one name for both parameters and the recursive binder. -/
def loopedOnce : Ty :=
  looped ["X", "X"] "X" "X" [("p", .var "X"), ("q", .union [("a", [("m", .var "X"), ("n", .var "Z")]), ("b", [])])]

/-- `loopedOnce` in another order and with other binders. -/
def loopedApart : Ty :=
  looped ["A", "B"] "B" "C" [("q", .union [("b", []), ("a", [("n", .var "Z"), ("m", .var "C")])]), ("p", .var "C")]

/-- `loopedOnce` with its names changed around. -/
def loopedAcross : Ty :=
  looped ["X", "Y"] "Y" "Y" [("p", .var "Y"), ("q", .union [("a", [("n", .var "Z"), ("m", .var "Y")]), ("b", [])])]

/-- Neither one name for three binders nor the order of entries matters. -/
theorem alphaEquiv_iff_reordered_looped :
    (loopedOnce.DistinctNames ∧ loopedApart.DistinctNames) ∧
      loopedOnce.bare.Reordered loopedApart.bare ∧ loopedApart.alphaEquiv loopedOnce = true ∧
        loopedOnce.alphaEquiv loopedAcross = true := by
  have honce : loopedOnce.DistinctNames := by
    have hunion : (Ty.union [("a", [("m", .var "X"), ("n", .var "Z")]), ("b", [])]).DistinctNames :=
      .union (by decide) (by decide) (by simp [or_imp, forall_and, DistinctNames.var])
    refine .generic (.func (List.forall_mem_singleton.2 (.var _)) (.mu (.object (by decide) ?_)))
    exact List.forall_mem_cons.2 ⟨.var _, List.forall_mem_singleton.2 hunion⟩
  have hapart : loopedApart.DistinctNames := by
    have hunion : (Ty.union [("b", []), ("a", [("n", .var "Z"), ("m", .var "C")])]).DistinctNames :=
      .union (by decide) (by decide) (by simp [or_imp, forall_and, DistinctNames.var])
    refine .generic (.func (List.forall_mem_singleton.2 (.var _)) (.mu (.object (by decide) ?_)))
    exact List.forall_mem_cons.2 ⟨hunion, List.forall_mem_singleton.2 (.var _)⟩
  obtain ⟨hiff, -, hsymm, htrans⟩ := alphaEquiv_iff_reordered honce hapart
  have hyes : loopedOnce.alphaEquiv loopedApart = true := by cbv
  exact ⟨⟨honce, hapart⟩, hiff.1 hyes, hsymm hyes, htrans loopedAcross hyes (by cbv)⟩

end Ty

end MuTypes
