import Mathlib.Data.List.Perm.Subperm
import MuTypes.NameSupply

/-!
# Looking names up in lists

Rows, variants and environments are lists of named things.  In a list without repeated names a thing is found under
its name wherever it stands (`lookup_of_mem`).
-/

namespace MuTypes

variable {α β : Type} {ps : List (Name × α)} {n : Name} {t : α}

theorem mem_of_lookup (h : ps.lookup n = some t) : (n, t) ∈ ps := by
  obtain ⟨l, r, rfl, _⟩ := List.lookup_eq_some_iff.1 h
  simp

theorem lookup_eq_none_iff : ps.lookup n = none ↔ n ∉ ps.map Prod.fst := by
  rw [List.lookup_eq_none_iff]
  constructor
  · intro h hn
    obtain ⟨p, hp, rfl⟩ := List.mem_map.1 hn
    exact bne_iff_ne.1 (h p hp) rfl
  · intro h p hp
    exact bne_iff_ne.2 fun e => h (e ▸ List.mem_map_of_mem (f := Prod.fst) hp)

theorem lookup_of_mem (hd : (ps.map Prod.fst).Nodup) (h : (n, t) ∈ ps) : ps.lookup n = some t := by
  induction ps with
  | nil => simp at h
  | cons p ps ih =>
    rw [List.map_cons, List.nodup_cons] at hd
    rcases List.mem_cons.1 h with rfl | h
    · simp
    · have hne : n ≠ p.1 := fun e => hd.1 (e ▸ List.mem_map_of_mem (f := Prod.fst) h)
      rw [List.lookup_cons, beq_false_of_ne hne]
      exact ih hd.2 h

theorem lookup_map_snd (h : α → β) (ps : List (Name × α)) (n : Name) :
    (ps.map fun p => (p.1, h p.2)).lookup n = (ps.lookup n).map h := by
  induction ps with
  | nil => rfl
  | cons p ps ih =>
    rw [List.map_cons, List.lookup_cons, List.lookup_cons, ih]
    cases n == p.1 <;> rfl

theorem lookup_map_of_lookup (h : α → β) (hl : ps.lookup n = some t) :
    (ps.map fun p => (p.1, h p.2)).lookup n = some (h t) := by
  rw [lookup_map_snd, hl]
  rfl

theorem map_snd_map_snd {γ : Type} (h : α → β) (k : β → γ) (ps : List (Name × α)) :
    ((ps.map fun p => (p.1, h p.2)).map fun q => (q.1, k q.2)) = ps.map fun p => (p.1, k (h p.2)) :=
  List.map_map

theorem map_snd_congr {h k : α → β} {ps : List (Name × α)} (he : ∀ p ∈ ps, h p.2 = k p.2) :
    (ps.map fun p => (p.1, h p.2)) = ps.map fun p => (p.1, k p.2) :=
  List.map_congr_left fun p hp => by rw [he p hp]

theorem map_snd_eq_self {h : α → α} {ps : List (Name × α)} (he : ∀ p ∈ ps, h p.2 = p.2) :
    (ps.map fun p => (p.1, h p.2)) = ps := by
  rw [map_snd_congr (k := id) he]
  exact List.map_id ps

/-- Lists of the same length have the same names when one of them has no repeated names and all its names are found
in the other. -/
theorem perm_names_of_forall_lookup {qs : List (Name × β)} (hd : (ps.map Prod.fst).Nodup)
    (hl : ps.length = qs.length) (h : ∀ p ∈ ps, ∃ u, qs.lookup p.1 = some u) :
    (ps.map Prod.fst).Perm (qs.map Prod.fst) := by
  have hsub : ps.map Prod.fst ⊆ qs.map Prod.fst := by
    intro n hn
    obtain ⟨p, hp, rfl⟩ := List.mem_map.1 hn
    obtain ⟨u, hu⟩ := h p hp
    exact List.mem_map_of_mem (f := Prod.fst) (mem_of_lookup hu)
  exact (hd.subperm hsub).perm_of_length_le (by simp [hl])

theorem mem_names_of_forall_lookup {qs : List (Name × β)} (hd : (ps.map Prod.fst).Nodup)
    (hl : ps.length = qs.length) (h : ∀ p ∈ ps, ∃ u, qs.lookup p.1 = some u) {q : Name × β} (hq : q ∈ qs) :
    q.1 ∈ ps.map Prod.fst :=
  (perm_names_of_forall_lookup hd hl h).mem_iff.2 (List.mem_map_of_mem hq)

/-- Every entry of the second list comes from an entry of the first one. -/
theorem exists_entry {P : α → β → Prop} {ps' : List (Name × β)}
    (hd : (ps.map Prod.fst).Nodup) (hd' : (ps'.map Prod.fst).Nodup) (hl : ps.length = ps'.length)
    (h : ∀ p ∈ ps, ∃ t', ps'.lookup p.1 = some t' ∧ P p.2 t') {p' : Name × β} (hp' : p' ∈ ps') :
    ∃ p ∈ ps, p.1 = p'.1 ∧ P p.2 p'.2 := by
  have hmem := mem_names_of_forall_lookup hd hl (fun p hp => (h p hp).imp fun _ h => h.1) hp'
  obtain ⟨p, hp, he⟩ := List.mem_map.1 hmem
  obtain ⟨t', ht', hP⟩ := h p hp
  rw [he, lookup_of_mem hd' hp', Option.some.injEq] at ht'
  exact ⟨p, hp, he, ht' ▸ hP⟩

theorem exists_of_mem_right {R : α → β → Prop} {l : List α} {l' : List β} (h : List.Forall₂ R l l') {b : β}
    (hb : b ∈ l') : ∃ a ∈ l, R a b := by
  induction h with
  | nil => cases hb
  | cons ha _ ih =>
    rcases List.mem_cons.1 hb with rfl | hb
    · exact ⟨_, List.mem_cons_self, ha⟩
    · exact (ih hb).imp fun a ha => ⟨List.mem_cons_of_mem _ ha.1, ha.2⟩

/-- In lists with the same names, related things are found. -/
theorem rel_lookup (R : α → β → Prop) {qs : List (Name × β)}
    (h : List.Forall₂ (fun p q => q.1 = p.1 ∧ R p.2 q.2) ps qs) (n : Name) :
    Option.Rel R (ps.lookup n) (qs.lookup n) := by
  induction h with
  | nil => exact .none
  | @cons p q ps qs hpq _ ih =>
    rw [List.lookup_cons, List.lookup_cons, hpq.1]
    cases n == p.1
    · exact ih
    · exact .some hpq.2

theorem map_fst_map_snd (h : α → β) (ps : List (Name × α)) :
    (ps.map fun p => (p.1, h p.2)).map Prod.fst = ps.map Prod.fst := by
  simp

end MuTypes
