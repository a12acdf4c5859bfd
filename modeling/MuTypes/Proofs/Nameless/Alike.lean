import Mathlib.Data.List.Forall2
import MuTypes.Proofs.Nameless.WellFormed

/-!
# Types that differ in the order of their entries

`Nameless.Alike` is equality up to the order of properties and variants, in the form in which it is decided: each
entry of the first type has its like under the same name in the second, and the numbers of entries agree.  It is
reflexive and symmetric for well-formed types (`alike_refl`, `Alike.symm`) and transitive (`Alike.trans`), and replacing
leaves by leaves that are alike keeps it (`Alike.graft`).
-/

namespace MuTypes.Nameless

variable {α β : Type}

mutual

/-- Are the types equal up to the order of properties and variants? -/
def Alike : Nameless α → Nameless α → Prop
  | .prim p => fun u => u = .prim p
  | .container k e => fun u => ∃ e', u = .container k e' ∧ Alike e e'
  | .func ps r => fun u => ∃ qs s, u = .func qs s ∧ AlikeParams ps qs ∧ Alike r s
  | .object ps => fun u => ∃ qs, u = .object qs ∧ ps.length = qs.length ∧ AlikeRow ps qs
  | .union vs => fun u => ∃ ws, u = .union ws ∧ vs.length = ws.length ∧ AlikeVariants vs ws
  | .mu b => fun u => ∃ b', u = .mu b' ∧ Alike b b'
  | .generic n b => fun u => ∃ b', u = .generic n b' ∧ Alike b b'
  | .bound i => fun u => u = .bound i
  | .free x => fun u => u = .free x

/-- Parameters agree in number and, one by one, in name and type. -/
def AlikeParams : List (Name × Nameless α) → List (Name × Nameless α) → Prop
  | [] => fun qs => qs = []
  | (n, t) :: ps => fun qs => ∃ t' qs', qs = (n, t') :: qs' ∧ Alike t t' ∧ AlikeParams ps qs'

/-- Each entry of the first row has its like in the second. -/
def AlikeRow : List (Name × Nameless α) → List (Name × Nameless α) → Prop
  | [] => fun _ => True
  | (n, t) :: ps => fun qs => (∃ t', qs.lookup n = some t' ∧ Alike t t') ∧ AlikeRow ps qs

/-- Each variant of the first union has its like in the second. -/
def AlikeVariants :
    List (Name × List (Name × Nameless α)) → List (Name × List (Name × Nameless α)) → Prop
  | [] => fun _ => True
  | (l, ps) :: vs => fun ws =>
    (∃ qs, ws.lookup l = some qs ∧ ps.length = qs.length ∧ AlikeRow ps qs) ∧ AlikeVariants vs ws

end

/-! ### Entries -/

theorem alikeParams_iff {ps qs : List (Name × Nameless α)} :
    AlikeParams ps qs ↔ List.Forall₂ (fun p q => p.1 = q.1 ∧ Alike p.2 q.2) ps qs := by
  induction ps generalizing qs with
  | nil => simp [AlikeParams]
  | cons p ps ih =>
    rw [AlikeParams]
    constructor
    · rintro ⟨t', qs', rfl, ht, hps⟩
      exact .cons ⟨rfl, ht⟩ (ih.1 hps)
    · rintro (_ | ⟨⟨hn, ht⟩, hps⟩)
      exact ⟨_, _, by rw [hn], ht, ih.2 hps⟩

theorem alikeRow_iff {ps qs : List (Name × Nameless α)} :
    AlikeRow ps qs ↔ ∀ p ∈ ps, ∃ t', qs.lookup p.1 = some t' ∧ Alike p.2 t' := by
  induction ps with
  | nil => simp [AlikeRow]
  | cons p ps ih => simp [AlikeRow, ih]

theorem alikeVariants_iff {vs ws : List (Name × List (Name × Nameless α))} :
    AlikeVariants vs ws ↔
      ∀ v ∈ vs, ∃ qs, ws.lookup v.1 = some qs ∧ v.2.length = qs.length ∧ AlikeRow v.2 qs := by
  induction vs with
  | nil => simp [AlikeVariants]
  | cons v vs ih => simp [AlikeVariants, ih]

section Equations

variable {u : Nameless α}

theorem alike_func {ps : List (Name × Nameless α)} {r : Nameless α} :
    Alike (.func ps r) u ↔
      ∃ qs s, u = .func qs s ∧ List.Forall₂ (fun p q => p.1 = q.1 ∧ Alike p.2 q.2) ps qs ∧ Alike r s := by
  simp only [Alike, alikeParams_iff]

theorem alike_object {ps : List (Name × Nameless α)} :
    Alike (.object ps) u ↔
      ∃ qs, u = .object qs ∧ ps.length = qs.length ∧ ∀ p ∈ ps, ∃ t', qs.lookup p.1 = some t' ∧ Alike p.2 t' := by
  simp only [Alike, alikeRow_iff]

theorem alike_union {vs : List (Name × List (Name × Nameless α))} :
    Alike (.union vs) u ↔
      ∃ ws, u = .union ws ∧ vs.length = ws.length ∧ ∀ v ∈ vs, ∃ qs, ws.lookup v.1 = some qs ∧
        v.2.length = qs.length ∧ ∀ p ∈ v.2, ∃ t', qs.lookup p.1 = some t' ∧ Alike p.2 t' := by
  simp only [Alike, alikeVariants_iff, alikeRow_iff]

end Equations

/-! ### Laws -/

theorem alike_refl {t : Nameless α} (h : t.WellFormed) : Alike t t := by
  induction h with
  | prim p => exact rfl
  | container _ ih => exact ⟨_, rfl, ih⟩
  | func _ _ ihps ihr =>
    exact alike_func.2 ⟨_, _, rfl, List.forall₂_same.2 fun p hp => ⟨rfl, ihps p hp⟩, ihr⟩
  | object hd _ ih =>
    exact alike_object.2 ⟨_, rfl, rfl, fun p hp => ⟨_, lookup_of_mem hd hp, ih p hp⟩⟩
  | union hd hds _ ih =>
    exact alike_union.2 ⟨_, rfl, rfl, fun v hv => ⟨_, lookup_of_mem hd hv, rfl, fun p hp =>
      ⟨_, lookup_of_mem (hds v hv) hp, ih v hv p hp⟩⟩⟩
  | mu _ _ ih => exact ⟨_, rfl, ih⟩
  | generic _ ih => exact ⟨_, rfl, ih⟩
  | bound i => exact rfl
  | free x => exact rfl

theorem forall₂_converse {σ τ : Type} {R : σ → τ → Prop} {S : τ → σ → Prop} {l : List σ} {r : List τ}
    (h : List.Forall₂ R l r) (hs : ∀ a ∈ l, ∀ b ∈ r, R a b → S b a) : List.Forall₂ S r l := by
  induction h with
  | nil => exact .nil
  | @cons a b l r hab _ ih =>
    refine .cons (hs a List.mem_cons_self b List.mem_cons_self hab) (ih fun c hc d hd => ?_)
    exact hs c (List.mem_cons_of_mem a hc) d (List.mem_cons_of_mem b hd)

/-- For well-formed types it does not matter which of them comes first. -/
theorem Alike.symm {t u : Nameless α} (h : Alike t u) (ht : t.WellFormed) (hu : u.WellFormed) : Alike u t := by
  induction ht generalizing u with
  | prim p =>
    obtain rfl := h
    exact rfl
  | container _ ih =>
    obtain ⟨e', rfl, he⟩ := h
    cases hu with
    | container hu => exact ⟨_, rfl, ih he hu⟩
  | func _ _ ihps ihr =>
    obtain ⟨qs, s, rfl, hps, hr⟩ := alike_func.1 h
    cases hu with
    | func hqs hs =>
      refine alike_func.2 ⟨_, _, rfl, forall₂_converse hps fun p hp q hq hpq => ?_, ihr hr hs⟩
      exact ⟨hpq.1.symm, ihps p hp hpq.2 (hqs q hq)⟩
  | object hd _ ih =>
    obtain ⟨qs, rfl, hl, hps⟩ := alike_object.1 h
    cases hu with
    | object hd' hqs =>
      refine alike_object.2 ⟨_, rfl, hl.symm, fun q hq => ?_⟩
      obtain ⟨p, hp, hn, hpq⟩ := exists_entry hd hd' hl hps hq
      exact ⟨p.2, hn ▸ lookup_of_mem hd hp, ih p hp hpq (hqs q hq)⟩
  | union hd hds _ ih =>
    obtain ⟨ws, rfl, hl, hvs⟩ := alike_union.1 h
    cases hu with
    | union hd' hds' hws =>
      refine alike_union.2 ⟨_, rfl, hl.symm, fun w hw => ?_⟩
      obtain ⟨v, hv, hn, hlength, hps⟩ := exists_entry (P := fun ps qs : List (Name × Nameless _) =>
        ps.length = qs.length ∧ ∀ p ∈ ps, ∃ t', qs.lookup p.1 = some t' ∧ Alike p.2 t') hd hd' hl hvs hw
      refine ⟨v.2, hn ▸ lookup_of_mem hd hv, hlength.symm, fun q hq => ?_⟩
      obtain ⟨p, hp, hpn, hpq⟩ := exists_entry (hds v hv) (hds' w hw) hlength hps hq
      exact ⟨p.2, hpn ▸ lookup_of_mem (hds v hv) hp, ih v hv p hp hpq (hws w hw q hq)⟩
  | mu _ _ ih =>
    obtain ⟨b', rfl, hb⟩ := h
    cases hu with
    | mu _ hu => exact ⟨_, rfl, ih hb hu⟩
  | generic _ ih =>
    obtain ⟨b', rfl, hb⟩ := h
    cases hu with
    | generic hu => exact ⟨_, rfl, ih hb hu⟩
  | bound i =>
    obtain rfl := h
    exact rfl
  | free x =>
    obtain rfl := h
    exact rfl

theorem Alike.guarded {t u : Nameless α} (h : Alike t u) {d : Nat} (ht : t.Guarded d) : u.Guarded d := by
  induction t generalizing u d with
  | prim p => obtain rfl := h; exact ht
  | container k e => obtain ⟨_, rfl, _⟩ := h; exact ht
  | func ps r => obtain ⟨_, _, rfl, _⟩ := alike_func.1 h; exact ht
  | object ps => obtain ⟨_, rfl, _⟩ := alike_object.1 h; exact ht
  | union vs => obtain ⟨_, rfl, _⟩ := alike_union.1 h; exact ht
  | mu b ih =>
    obtain ⟨b', rfl, hb⟩ := h
    exact ih hb ht
  | generic n b => obtain ⟨_, rfl, _⟩ := h; exact ht
  | bound i => obtain rfl := h; exact ht
  | free x => obtain rfl := h; exact ht

/-- What is like a well-formed type is well-formed, and has no other labels. -/
theorem Alike.wellFormed {t u : Nameless α} (h : Alike t u) (ht : t.WellFormed) :
    u.WellFormed ∧ ∀ x, u.Has x → t.Has x := by
  induction ht generalizing u with
  | prim p =>
    obtain rfl := h
    exact ⟨.prim p, fun _ hx => hx⟩
  | container _ ih =>
    obtain ⟨e', rfl, he⟩ := h
    exact ⟨.container (ih he).1, (ih he).2⟩
  | func _ _ ihps ihr =>
    obtain ⟨qs, s, rfl, hps, hr⟩ := alike_func.1 h
    refine ⟨.func (fun q hq => ?_) (ihr hr).1, fun x hx => ?_⟩
    · obtain ⟨p, hp, hpq⟩ := exists_of_mem_right hps hq
      exact (ihps p hp hpq.2).1
    · rcases has_func.1 hx with ⟨q, hq, hx⟩ | hx
      · obtain ⟨p, hp, hpq⟩ := exists_of_mem_right hps hq
        exact has_func.2 (.inl ⟨p, hp, (ihps p hp hpq.2).2 x hx⟩)
      · exact has_func.2 (.inr ((ihr hr).2 x hx))
  | object hd _ ih =>
    obtain ⟨qs, rfl, hl, hps⟩ := alike_object.1 h
    have hd' := (perm_names_of_forall_lookup hd hl fun p hp => (hps p hp).imp fun _ h => h.1).nodup_iff.1 hd
    refine ⟨.object hd' fun q hq => ?_, fun x hx => ?_⟩
    · obtain ⟨p, hp, -, hpq⟩ := exists_entry hd hd' hl hps hq
      exact (ih p hp hpq).1
    · obtain ⟨q, hq, hx⟩ := has_object.1 hx
      obtain ⟨p, hp, -, hpq⟩ := exists_entry hd hd' hl hps hq
      exact has_object.2 ⟨p, hp, (ih p hp hpq).2 x hx⟩
  | @union vs hd hds _ ih =>
    obtain ⟨ws, rfl, hl, hvs⟩ := alike_union.1 h
    have hd' := (perm_names_of_forall_lookup hd hl fun v hv => (hvs v hv).imp fun _ h => h.1).nodup_iff.1 hd
    have hentry : ∀ w ∈ ws, ∃ v ∈ vs, v.2.length = w.2.length ∧
        ∀ p ∈ v.2, ∃ t', w.2.lookup p.1 = some t' ∧ Alike p.2 t' := by
      intro w hw
      obtain ⟨v, hv, -, hrow⟩ := exists_entry (P := fun ps qs : List (Name × Nameless _) =>
        ps.length = qs.length ∧ ∀ p ∈ ps, ∃ t', qs.lookup p.1 = some t' ∧ Alike p.2 t') hd hd' hl hvs hw
      exact ⟨v, hv, hrow⟩
    have hds' : ∀ w ∈ ws, (w.2.map Prod.fst).Nodup := by
      intro w hw
      obtain ⟨v, hv, hlength, hps⟩ := hentry w hw
      exact (perm_names_of_forall_lookup (hds v hv) hlength fun p hp => (hps p hp).imp fun _ h => h.1).nodup_iff.1
        (hds v hv)
    refine ⟨.union hd' hds' fun w hw q hq => ?_, fun x hx => ?_⟩
    · obtain ⟨v, hv, hlength, hps⟩ := hentry w hw
      obtain ⟨p, hp, -, hpq⟩ := exists_entry (hds v hv) (hds' w hw) hlength hps hq
      exact (ih v hv p hp hpq).1
    · obtain ⟨w, hw, q, hq, hx⟩ := has_union.1 hx
      obtain ⟨v, hv, hlength, hps⟩ := hentry w hw
      obtain ⟨p, hp, -, hpq⟩ := exists_entry (hds v hv) (hds' w hw) hlength hps hq
      exact has_union.2 ⟨v, hv, p, hp, (ih v hv p hp hpq).2 x hx⟩
  | mu hg _ ih =>
    have hguarded := h.guarded (t := .mu _) (d := 0) hg
    obtain ⟨b', rfl, hb⟩ := h
    exact ⟨.mu hguarded (ih hb).1, (ih hb).2⟩
  | generic _ ih =>
    obtain ⟨b', rfl, hb⟩ := h
    exact ⟨.generic (ih hb).1, (ih hb).2⟩
  | bound i =>
    obtain rfl := h
    exact ⟨.bound i, fun _ hx => hx⟩
  | free x =>
    obtain rfl := h
    exact ⟨.free x, fun _ hx => hx⟩

theorem forall₂_comp {ρ σ τ : Type} {R : ρ → σ → Prop} {S : σ → τ → Prop} {l : List ρ} {m : List σ}
    {r : List τ} (h : List.Forall₂ R l m) (h' : List.Forall₂ S m r) :
    List.Forall₂ (fun a c => ∃ b, R a b ∧ S b c) l r := by
  induction h generalizing r with
  | nil =>
    cases h'
    exact .nil
  | cons hab _ ih =>
    cases h' with
    | cons hbc h' => exact .cons ⟨_, hab, hbc⟩ (ih h')

theorem Alike.trans {t u v : Nameless α} (h : Alike t u) (h' : Alike u v) : Alike t v := by
  induction t generalizing u v with
  | prim p =>
    obtain rfl := h
    exact h'
  | container k e ih =>
    obtain ⟨e', rfl, he⟩ := h
    obtain ⟨e'', rfl, he'⟩ := h'
    exact ⟨_, rfl, ih he he'⟩
  | func ps r ihps ihr =>
    obtain ⟨qs, s, rfl, hps, hr⟩ := alike_func.1 h
    obtain ⟨qs', s', rfl, hps', hr'⟩ := alike_func.1 h'
    refine alike_func.2 ⟨_, _, rfl, ?_, ihr hr hr'⟩
    have hmem := (List.forall₂_and_left ps qs').2 ⟨fun p hp => hp, forall₂_comp hps hps'⟩
    refine hmem.imp fun p q' hpq => ?_
    obtain ⟨hp, q, hq, hq'⟩ := hpq
    exact ⟨hq.1.trans hq'.1, ihps p hp hq.2 hq'.2⟩
  | object ps ih =>
    obtain ⟨qs, rfl, hl, hps⟩ := alike_object.1 h
    obtain ⟨qs', rfl, hl', hqs⟩ := alike_object.1 h'
    refine alike_object.2 ⟨_, rfl, hl.trans hl', fun p hp => ?_⟩
    obtain ⟨t', ht', ha⟩ := hps p hp
    obtain ⟨t'', ht'', ha'⟩ := hqs _ (mem_of_lookup ht')
    exact ⟨t'', ht'', ih p hp ha ha'⟩
  | union vs ih =>
    obtain ⟨ws, rfl, hl, hvs⟩ := alike_union.1 h
    obtain ⟨ws', rfl, hl', hws⟩ := alike_union.1 h'
    refine alike_union.2 ⟨_, rfl, hl.trans hl', fun v hv => ?_⟩
    obtain ⟨qs, hqs, hlength, hps⟩ := hvs v hv
    obtain ⟨qs', hqs', hlength', hps'⟩ := hws _ (mem_of_lookup hqs)
    refine ⟨qs', hqs', hlength.trans hlength', fun p hp => ?_⟩
    obtain ⟨t', ht', ha⟩ := hps p hp
    obtain ⟨t'', ht'', ha'⟩ := hps' _ (mem_of_lookup ht')
    exact ⟨t'', ht'', ih v hv p hp ha ha'⟩
  | mu b ih =>
    obtain ⟨b', rfl, hb⟩ := h
    obtain ⟨b'', rfl, hb'⟩ := h'
    exact ⟨_, rfl, ih hb hb'⟩
  | generic n b ih =>
    obtain ⟨b', rfl, hb⟩ := h
    obtain ⟨b'', rfl, hb'⟩ := h'
    exact ⟨_, rfl, ih hb hb'⟩
  | bound i =>
    obtain rfl := h
    exact h'
  | free x =>
    obtain rfl := h
    exact h'

/-- Leaves that are alike can be put in. -/
theorem Alike.graft {f f' : Nat → Nat → Nameless β} {g g' : Nat → α → Nameless β} {t u : Nameless α} (h : Alike t u)
    (hf : ∀ d i, Alike (f d i) (f' d i)) (hg : ∀ d x, Alike (g d x) (g' d x)) :
    Alike (t.graft f g) (u.graft f' g') := by
  induction t generalizing u f f' g g' with
  | prim p =>
    obtain rfl := h
    exact rfl
  | container k e ih =>
    obtain ⟨e', rfl, he⟩ := h
    exact ⟨_, rfl, ih he hf hg⟩
  | func ps r ihps ihr =>
    obtain ⟨qs, s, rfl, hps, hr⟩ := alike_func.1 h
    rw [graft_func, graft_func, alike_func]
    refine ⟨_, _, rfl, ?_, ihr hr hf hg⟩
    rw [List.forall₂_map_left_iff, List.forall₂_map_right_iff]
    clear ihr hr h
    induction hps with
    | nil => exact .nil
    | @cons p q ps qs hpq _ ih =>
      refine .cons ⟨hpq.1, ihps p List.mem_cons_self hpq.2 hf hg⟩ (ih fun p' hp' => ihps p' ?_)
      exact List.mem_cons_of_mem p hp'
  | object ps ih =>
    obtain ⟨qs, rfl, hl, hps⟩ := alike_object.1 h
    rw [graft_object, graft_object, alike_object]
    refine ⟨_, rfl, by simpa using hl, List.forall_mem_map.2 fun p hp => ?_⟩
    obtain ⟨t', ht', ha⟩ := hps p hp
    exact ⟨_, lookup_map_of_lookup (fun t : Nameless α => t.graft f' g') ht', ih p hp ha hf hg⟩
  | union vs ih =>
    obtain ⟨ws, rfl, hl, hvs⟩ := alike_union.1 h
    rw [graft_union, graft_union, alike_union]
    refine ⟨_, rfl, by simpa using hl, List.forall_mem_map.2 fun v hv => ?_⟩
    obtain ⟨qs, hqs, hlen, hps⟩ := hvs v hv
    refine ⟨qs.map fun q => (q.1, q.2.graft f' g'), ?_, by simpa using hlen, List.forall_mem_map.2 fun p hp => ?_⟩
    · exact lookup_map_of_lookup (fun qs : List (Name × Nameless α) => qs.map fun q => (q.1, q.2.graft f' g')) hqs
    · obtain ⟨t', ht', ha⟩ := hps p hp
      exact ⟨_, lookup_map_of_lookup (fun t : Nameless α => t.graft f' g') ht', ih v hv p hp ha hf hg⟩
  | mu b ih =>
    obtain ⟨b', rfl, hb⟩ := h
    exact ⟨_, rfl, ih hb (fun d => hf (d + 1)) fun d => hg (d + 1)⟩
  | generic n b ih =>
    obtain ⟨b', rfl, hb⟩ := h
    exact ⟨_, rfl, ih hb (fun d => hf (d + n)) fun d => hg (d + n)⟩
  | bound i =>
    obtain rfl := h
    exact hf 0 i
  | free x =>
    obtain rfl := h
    exact hg 0 x

theorem Alike.relabel {t u : Nameless α} (h : Alike t u) (k : α → β) : Alike (t.relabel k) (u.relabel k) :=
  h.graft (fun _ _ => rfl) fun _ _ => rfl

theorem Alike.openAt {t u v w : Nameless α} (h : Alike t u) (hv : Alike v w) (m : Nat) :
    Alike (t.openAt m [v]) (u.openAt m [w]) := by
  refine h.graft (fun d i => ?_) fun _ _ => rfl
  unfold opened
  split
  · exact rfl
  · cases i - (d + m) with
    | zero => exact hv
    | succ j => exact rfl

theorem Alike.openAt_self {t u : Nameless α} (h : Alike t u) (m : Nat) {vs : List (Nameless α)}
    (hvs : ∀ v ∈ vs, v.WellFormed) : Alike (t.openAt m vs) (u.openAt m vs) := by
  refine h.graft (fun d i => ?_) fun _ _ => rfl
  rcases opened_mem_or m d i vs with hi | hi
  · rw [hi]
    exact rfl
  · exact alike_refl (hvs _ hi)

theorem Alike.muCount_eq {t u : Nameless α} (h : Alike t u) : t.muCount = u.muCount := by
  induction t generalizing u with
  | prim p => obtain rfl := h; rfl
  | container k e => obtain ⟨_, rfl, _⟩ := h; rfl
  | func ps r => obtain ⟨_, _, rfl, _⟩ := alike_func.1 h; rfl
  | object ps => obtain ⟨_, rfl, _⟩ := alike_object.1 h; rfl
  | union vs => obtain ⟨_, rfl, _⟩ := alike_union.1 h; rfl
  | mu b ih =>
    obtain ⟨b', rfl, hb⟩ := h
    exact congrArg (· + 1) (ih hb)
  | generic n b => obtain ⟨_, rfl, _⟩ := h; rfl
  | bound i => obtain rfl := h; rfl
  | free x => obtain rfl := h; rfl

theorem Alike.isMu_eq {t u : Nameless α} (h : Alike t u) : t.isMu = u.isMu := by
  have hcount := h.muCount_eq
  cases ht : t.isMu <;> cases hu : u.isMu <;>
    simp_all [← Bool.not_eq_false, isMu_eq_false_iff]

theorem Alike.unrollOnce {t u : Nameless α} (h : Alike t u) : Alike t.unrollOnce u.unrollOnce := by
  cases t with
  | mu b =>
    obtain ⟨b', rfl, hb⟩ := h
    exact hb.openAt (show Alike (.mu b) (.mu b') from ⟨b', rfl, hb⟩) 0
  | prim p => obtain rfl := h; exact rfl
  | container k e => obtain ⟨_, rfl, he⟩ := h; exact ⟨_, rfl, he⟩
  | func ps r =>
    obtain ⟨_, _, rfl, h'⟩ := alike_func.1 h
    exact h
  | object ps =>
    obtain ⟨_, rfl, h'⟩ := alike_object.1 h
    exact h
  | union vs =>
    obtain ⟨_, rfl, h'⟩ := alike_union.1 h
    exact h
  | generic n b => obtain ⟨_, rfl, hb⟩ := h; exact ⟨_, rfl, hb⟩
  | bound i => obtain rfl := h; exact rfl
  | free x => obtain rfl := h; exact rfl

theorem Alike.unroll {t u : Nameless α} (h : Alike t u) : Alike t.unroll u.unroll := by
  unfold Nameless.unroll
  rw [← h.muCount_eq]
  generalize t.muCount = k
  induction k generalizing t u with
  | zero => exact h
  | succ k ih => exact ih h.unrollOnce

end MuTypes.Nameless
