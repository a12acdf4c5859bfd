import MuTypes.Proofs.CaptureAvoidance
import MuTypes.Proofs.Comparison
import MuTypes.Proofs.Unroll

/-!
# Contractive types are those that can be unrolled

Unrolling a type ends just when the type is contractive, after one step for each leading recursive binder
(`Ty.unroll_ends_iff`).  The step replaces a variable by the type itself and may rename binders, so that the type grows.
But what counts is only what stands below the leading binders (`Ty.head`): a step leaves this as it is, and removes one
binder unless it is a variable of one of them (`Ty.unrollOnce_head`).

The same holds of substitution (`Ty.subst_head`), also when the supply is not ahead of what is put in.  For a variable
below the leading binders of that is its only free one (`Ty.eq_of_mentions_of_head`), and a binder that would capture it
gets another name.  So types that are contractive everywhere stay so when they are put into each other, unrolled and
taken apart (`Ty.subst_productive`, `Ty.Exposes`).
-/

namespace MuTypes.Ty

open NameSupply

/-! ### Heads -/

/-- What stands below leading recursive binders: a variable of one of them, another variable, or something else. -/
inductive Head where
  | own
  | free (x : Name)
  | solid
deriving DecidableEq

namespace Head

variable {h g : Head} {n x : Name}

/-- The head below one more binder. -/
def bind (n : Name) : Head → Head
  | .free x => if x = n then .own else .free x
  | h => h

/-- The head with another one for a variable. -/
def put (h : Head) (x : Name) (g : Head) : Head :=
  if h = .free x then g else h

theorem bind_eq_free_iff : h.bind n = .free x ↔ h = .free x ∧ x ≠ n := by
  cases h with
  | free y =>
    rw [bind]
    split <;> simp_all
    rintro rfl
    assumption
  | _ => simp [bind]

theorem bind_eq_own_iff : h.bind n = .own ↔ h = .own ∨ h = .free n := by
  cases h with
  | free y =>
    rw [bind]
    split <;> simp_all
  | _ => simp [bind]

theorem bind_of_ne (hn : h ≠ .free n) : h.bind n = h := by
  cases h with
  | free y => exact if_neg fun hy => hn (congrArg _ hy)
  | _ => rfl

theorem put_self (x : Name) (g : Head) : (Head.free x).put x g = g :=
  if_pos rfl

theorem put_of_ne {y : Name} (hy : y ≠ x) : (Head.free y).put x g = .free y :=
  if_neg fun h => hy (Head.free.inj h)

/-- A new name for a binder that captures nothing does not show. -/
theorem bind_rebound {b b' : Name} (hx : x ≠ b') (hg : g ≠ .free b') (hh : b' = b ∨ h ≠ .free b') :
    ((h.put b (.free b')).put x g).bind b' = (h.bind b).put x g := by
  cases h with
  | own => rfl
  | solid => rfl
  | free y =>
    by_cases hyb : y = b
    · have hbound : (Head.free b').bind b' = .own := if_pos rfl
      have hown : (Head.free b).bind b = .own := if_pos rfl
      rw [hyb, put_self, put_of_ne (Ne.symm hx), hbound, hown]
      rfl
    · have hy' : y ≠ b' := by
        rintro rfl
        exact hh.elim hyb fun hne => hne rfl
      have hfree : (Head.free y).bind b = .free y := if_neg hyb
      rw [put_of_ne hyb, hfree]
      by_cases hyx : y = x
      · rw [hyx, put_self]
        exact bind_of_ne hg
      · rw [put_of_ne hyx]
        exact if_neg hy'

end Head

/-- What stands below the leading recursive binders. -/
def head : Ty → Head
  | .mu n b => b.head.bind n
  | .var x => .free x
  | _ => .solid

variable {t r b : Ty} {n x : Name} {s : NameSupply}

theorem head_eq (t : Ty) :
    t.head = match t.muBody with
      | .var x => if x ∈ t.muNames then .own else .free x
      | _ => .solid := by
  induction t with
  | mu n b ih =>
    rw [head, ih, muBody, muNames]
    split
    · by_cases hx : ‹Name› ∈ b.muNames
      · rw [if_pos hx, if_pos (List.mem_cons_of_mem n hx)]
        rfl
      · rw [if_neg hx, Head.bind]
        simp only [List.mem_cons, hx, or_false]
    · rfl
  | _ => simp [head, muBody, muNames]

theorem isContractive_iff_head : t.isContractive = true ↔ t.head ≠ .own := by
  rw [head_eq, isContractive]
  cases t.muBody with
  | var x => by_cases hmem : x ∈ t.muNames <;> simp [hmem]
  | _ => simp

theorem mentions_of_head (h : t.head = .free x) : t.mentions x = true := by
  induction t with
  | mu n b ih =>
    obtain ⟨hb, hx⟩ := Head.bind_eq_free_iff.1 h
    exact (mentions_mu ..).2 ⟨hx.symm, ih hb⟩
  | var y =>
    cases h
    exact (mentions_var ..).2 rfl
  | _ => cases h

/-- A variable below the leading binders is the only free one. -/
theorem eq_of_mentions_of_head {y : Name} (h : t.head = .free x) (hy : t.mentions y = true) : y = x := by
  induction t with
  | mu n b ih => exact ih (Head.bind_eq_free_iff.1 h).1 ((mentions_mu ..).1 hy).2
  | var z =>
    cases h
    exact ((mentions_var ..).1 hy).symm
  | _ => cases h

theorem isMu_of_head_eq_own (h : t.head = .own) : t.isMu = true := by
  cases t <;> first | rfl | cases h

theorem isMu_eq_false_iff_muNames : t.isMu = false ↔ t.muNames.length = 0 := by
  cases t <;> simp [isMu, muNames]

/-! ### Substitution -/

theorem subst_ahead (x : Name) (hr : s.AheadOfTy r) (ht : s.AheadOfTy t) :
    s.Yields (subst x r t) fun t' s' => s'.AheadOfTy t' := by
  refine ⟨(subst_names x r t s).1, fun y hy => ?_⟩
  rcases (subst_names x r t s).2 y hy with hold | ⟨base, k, -, hk, rfl⟩
  · rcases List.mem_append.1 hold with hyt | hyr
    · exact (ht y hyt).mono (subst_names x r t s).1
    · exact (hr y hyr).mono (subst_names x r t s).1
  · exact aheadOf_numbered hk base

/-- The head and the number of leading binders of a type when another one is put for a variable. -/
structure PutHead (x : Name) (r t t' : Ty) : Prop where
  head : t'.head = t.head.put x r.head
  length : t'.muNames.length = t.muNames.length + if t.head = .free x then r.muNames.length else 0

/-- A binder of the body with its old name or a new one, which is not the only name that may be captured. -/
structure RebindsHead (captured : List Name) (b : Name) (body : Ty) (s : NameSupply) (b' : Name) (body' : Ty)
    (s' : NameSupply) : Prop where
  apart : ∀ x ∈ captured, (∀ c ∈ captured, c = x) → x ≠ b'
  old_or_drawn : b' = b ∨ ¬ s.AheadOf b'
  head : body'.head = body.head.put b (.free b')
  length : body'.muNames.length = body.muNames.length
  height : body'.height ≤ body.height
  ahead : s'.AheadOfTy body'

/-- Renaming puts the head of the new variable in, for types of height up to the bound. -/
private def RenamesHeadWithin (k : Nat) : Prop :=
  ∀ ⦃b b' : Name⦄ ⦃t : Ty⦄ ⦃s : NameSupply⦄, t.height ≤ k → s.AheadOfTy t →
    s.Yields (subst b (.var b') t) fun t' _ => PutHead b (.var b') t t'

private theorem aheadOfTy_var (hx : s.AheadOf x) : s.AheadOfTy (.var x) := by
  intro y hy
  rwa [List.mem_singleton.1 hy]

private theorem rebind_head {k : Nat} (hk : RenamesHeadWithin k) (captured : List Name) {body : Ty} {b : Name}
    (hh : body.height ≤ k) (hs : s.AheadOfTy body) (hb : s.AheadOf b) :
    s.Yields (rebind subst captured b body) fun q s' => RebindsHead captured b body s q.1 q.2 s' := by
  unfold rebind
  split
  · rename_i hmem
    refine Yields.draw (Q := fun b' s₁ => s ≤ s₁ ∧ ¬ s.AheadOf b' ∧ s₁.AheadOf b') ?_ |>.bind fun b' s₁ _ hdraw => ?_
    · exact ⟨Nat.le_succ _, fun h => h.ne_drawn b rfl, aheadOf_numbered (Nat.lt_succ_self _) b⟩
    obtain ⟨h₁, hnew, hb'⟩ := hdraw
    have hvar : s₁.AheadOfTy (.var b') := aheadOfTy_var hb'
    have hputs : s₁.Yields (subst b (.var b') body) fun t' _ => PutHead b (.var b') body t' := hk hh (hs.mono h₁)
    have hrenamed := hputs.and (subst_ahead b hvar (hs.mono h₁))
    refine (hrenamed.and_always (subst_var_height_le b b' body)).bind fun body' s₂ _ hbody' => .pure ?_
    obtain ⟨⟨hput, hahead⟩, hheight⟩ := hbody'
    have hapart : ∀ x ∈ captured, (∀ c ∈ captured, c = x) → x ≠ b' := by
      rintro x - honly rfl
      exact hnew (honly b hmem ▸ hb)
    refine ⟨hapart, Or.inr hnew, hput.head, ?_, hheight, hahead⟩
    have hlength : (Ty.var b').muNames.length = 0 := rfl
    rw [hput.length, hlength, ite_self, Nat.add_zero]
  · rename_i hnot
    have hapart : ∀ x ∈ captured, (∀ c ∈ captured, c = x) → x ≠ b := by
      rintro x hx - rfl
      exact hnot hx
    refine .pure ⟨hapart, Or.inl rfl, ?_, rfl, Nat.le_refl _, hs⟩
    rw [Head.put]
    split
    · assumption
    · rfl

/-- What is no variable and has no recursive binder in front stays so. -/
private theorem subst_solid (r : Ty) (x : Name) (hmu : t.isMu = false) (hvar : t.head = .solid) :
    Always (fun t' => t'.head = .solid ∧ t'.muNames = []) (subst x r t) := by
  cases t with
  | mu n b => cases hmu
  | var y => cases hvar
  | prim p => exact Always.pure ⟨rfl, rfl⟩
  | container k e =>
    rw [subst_container]
    exact Always.bind (P := fun _ => True) (fun _ => trivial) fun e' _ => Always.pure ⟨rfl, rfl⟩
  | func ps result =>
    rw [subst_func]
    refine Always.bind (P := fun _ => True) (fun _ => trivial) fun ps' _ => ?_
    exact Always.bind (P := fun _ => True) (fun _ => trivial) fun result' _ => Always.pure ⟨rfl, rfl⟩
  | object ps =>
    rw [subst_object]
    exact Always.bind (P := fun _ => True) (fun _ => trivial) fun ps' _ => Always.pure ⟨rfl, rfl⟩
  | union vs =>
    rw [subst_union]
    exact Always.bind (P := fun _ => True) (fun _ => trivial) fun vs' _ => Always.pure ⟨rfl, rfl⟩
  | generic ns b =>
    rw [subst_generic]
    split
    · refine Always.bind (P := fun _ => True) (fun _ => trivial) fun q _ => ?_
      exact Always.bind (P := fun _ => True) (fun _ => trivial) fun b' _ => Always.pure ⟨rfl, rfl⟩
    · exact Always.pure ⟨rfl, rfl⟩

private theorem PutHead.of_ne (hx : t.head ≠ .free x) : PutHead x r t t := by
  refine ⟨?_, ?_⟩
  · rw [Head.put, if_neg hx]
  · rw [if_neg hx, Nat.add_zero]

private theorem subst_head_of_le (k : Nat) (hk : t.height ≤ k) (ht : s.AheadOfTy t) :
    s.Yields (subst x r t) fun t' _ => PutHead x r t t' := by
  induction k generalizing x r t s with
  | zero => exact absurd t.height_pos (by omega)
  | succ k ih =>
    have hsolid : t.isMu = false → t.head = .solid → s.Yields (subst x r t) fun t' _ => PutHead x r t t' := by
      intro hmu hhead
      refine ((subst_names x r t s).and_always (subst_solid r x hmu hhead)).mono fun t' s' _ ht' => ?_
      obtain ⟨-, hhead', hnames⟩ := ht'
      have hne : t.head ≠ .free x := by
        rw [hhead]
        nofun
      refine ⟨?_, ?_⟩
      · rw [Head.put, if_neg hne, hhead, hhead']
      · rw [if_neg hne, hnames, isMu_eq_false_iff_muNames.1 hmu]
        rfl
    cases t with
    | mu b body =>
      simp only [height] at hk
      rw [subst_mu]
      split
      · rename_i hm
        have hx : s.AheadOf x := ht.of_mentions hm
        obtain ⟨hxb, -⟩ := (mentions_mu ..).1 hm
        have hbody : s.AheadOfTy body := fun y hy => ht y (mem_typeNames_mu.2 (Or.inr hy))
        have hb : s.AheadOf b := ht b (mem_typeNames_mu.2 (Or.inl rfl))
        have hrename : RenamesHeadWithin k := fun c c' u s' hu hs' => ih hu hs'
        refine (rebind_head hrename r.freeNames (by omega) hbody hb).bind fun q s₁ _ hq => ?_
        obtain ⟨b', body'⟩ := q
        refine (ih (Nat.le_trans hq.height (by omega)) hq.ahead).bind fun u s₂ _ hu => .pure ?_
        -- the binder keeps away from the variable, from the head of what is put in and from the body
        have hx' : x ≠ b' := by
          rintro rfl
          exact hq.old_or_drawn.elim (fun h => hxb h.symm) fun h => h hx
        have hr' : r.head ≠ .free b' := fun h =>
          hq.apart b' (mem_freeNames_iff.2 (mentions_of_head h))
            (fun c hc => eq_of_mentions_of_head h (mem_freeNames_iff.1 hc)) rfl
        have hbody' : b' = b ∨ body.head ≠ .free b' :=
          hq.old_or_drawn.imp_right fun h hhead => h (hbody.of_mentions (mentions_of_head hhead))
        have hfree : body'.head = .free x ↔ (Ty.mu b body).head = .free x := by
          rw [hq.head, head, Head.put]
          by_cases hb : body.head = .free b
          · rw [if_pos hb, hb]
            have hown : (Head.free b).bind b = .own := if_pos rfl
            rw [hown]
            exact iff_of_false (fun h => hx' (Head.free.inj h).symm) fun h => by cases h
          · rw [if_neg hb, Head.bind_of_ne hb]
        refine ⟨?_, ?_⟩
        · show u.head.bind b' = _
          rw [hu.head, hq.head]
          exact Head.bind_rebound hx' hr' hbody'
        · show u.muNames.length + 1 = body.muNames.length + 1 + _
          simp only [hu.length, hq.length, hfree]
          omega
      · rename_i hm
        exact .pure (.of_ne fun h => hm (mentions_of_head h))
    | var y =>
      rw [subst_var]
      split
      · rename_i hy
        have hhead : (Ty.var y).head = .free x := congrArg Head.free hy
        refine .pure ⟨?_, ?_⟩
        · rw [hhead, Head.put_self]
        · rw [if_pos hhead]
          exact (Nat.zero_add _).symm
      · rename_i hy
        exact .pure (.of_ne fun h => hy (Head.free.inj h))
    | _ => exact hsolid rfl rfl

/-- The head of the result is the head of the type with that of what is put in for the variable, and so is the number
of leading binders. -/
theorem subst_head (x : Name) (r : Ty) (ht : s.AheadOfTy t) :
    s.Yields (subst x r t) fun t' _ => PutHead x r t t' :=
  subst_head_of_le t.height (Nat.le_refl _) ht

/-! ### Unrolling -/

/-- A step of unrolling keeps the head, and removes one leading binder when this is none of their variables. -/
theorem unrollOnce_head (hs : s.AheadOfTy t) :
    s.Yields t.unrollOnce fun t' s' => s'.AheadOfTy t' ∧ t'.head = t.head ∧
      (t.isMu = true → t.head ≠ .own → t'.muNames.length + 1 = t.muNames.length) := by
  by_cases hmu : t.isMu = true
  · cases t with
    | mu n b =>
      have hb : s.AheadOfTy b := fun y hy => hs y (mem_typeNames_mu.2 (Or.inr hy))
      refine ((subst_head n (.mu n b) hb).and (subst_ahead n hs hb)).mono fun t' s' _ ht' => ?_
      obtain ⟨⟨hhead, hlength⟩, hahead⟩ := ht'
      refine ⟨hahead, ?_, fun _ hown => ?_⟩
      · rw [hhead, Head.put]
        split
        · rfl
        · exact (Head.bind_of_ne ‹_›).symm
      · have hne : b.head ≠ .free n := fun h => hown (Head.bind_eq_own_iff.2 (Or.inr h))
        rw [hlength, if_neg hne]
        rfl
    | _ => cases hmu
  · rw [unrollOnce_of_not_isMu (Bool.eq_false_of_not_eq_true hmu)]
    exact .pure ⟨hs, rfl, fun h => absurd h hmu⟩

/-- A type that is contractive is unrolled after as many steps as it has leading binders. -/
theorem unrollWithin_of_isContractive (hs : s.AheadOfTy t) (h : t.head ≠ .own) (k : Nat) :
    s.Yields (unrollWithin k t) fun o s' => ((∃ u, o = some u) ↔ t.muNames.length ≤ k) ∧
      ∀ u, o = some u → u.isMu = false ∧ s'.AheadOfTy u := by
  induction k generalizing t s with
  | zero =>
    rw [unrollWithin]
    cases hmu : t.isMu with
    | true =>
      refine .pure ⟨iff_of_false (by rintro ⟨u, ⟨⟩⟩) fun hle => ?_, by rintro u ⟨⟩⟩
      have hno := isMu_eq_false_iff_muNames.2 (Nat.le_zero.1 hle)
      rw [hmu] at hno
      cases hno
    | false =>
      have hlength := isMu_eq_false_iff_muNames.1 hmu
      refine .pure ⟨iff_of_true ⟨t, rfl⟩ (Nat.le_of_eq hlength), ?_⟩
      rintro u ⟨⟩
      exact ⟨hmu, hs⟩
  | succ k ih =>
    rw [unrollWithin]
    cases hmu : t.isMu with
    | true =>
      refine (unrollOnce_head hs).bind fun t' s' _ ht' => ?_
      obtain ⟨hs', hhead, hlength⟩ := ht'
      refine (ih hs' (hhead ▸ h)).mono fun o s'' _ ho => ⟨ho.1.trans ?_, ho.2⟩
      have hstep := hlength hmu h
      omega
    | false =>
      have hlength := isMu_eq_false_iff_muNames.1 hmu
      refine .pure ⟨iff_of_true ⟨t, rfl⟩ (by omega), ?_⟩
      rintro u ⟨⟩
      exact ⟨hmu, hs⟩

/-- Any other type stays recursive. -/
theorem unrollWithin_of_not_isContractive (hs : s.AheadOfTy t) (h : t.head = .own) (k : Nat) :
    s.Yields (unrollWithin k t) fun o _ => o = none := by
  induction k generalizing t s with
  | zero =>
    rw [unrollWithin, isMu_of_head_eq_own h]
    exact .pure rfl
  | succ k ih =>
    rw [unrollWithin, if_pos (isMu_of_head_eq_own h)]
    refine (unrollOnce_head hs).bind fun t' s' _ ht' => ?_
    obtain ⟨hs', hhead, -⟩ := ht'
    exact ih hs' (hhead.trans h)

/-- More steps than are needed are not made. -/
theorem unrollWithin_succ {k : Nat} {u : Ty} {s' : NameSupply} (h : (unrollWithin k t).run s = (some u, s')) :
    (unrollWithin (k + 1) t).run s = (some u, s') := by
  induction k generalizing t s with
  | zero =>
    unfold unrollWithin at h ⊢
    cases hmu : t.isMu <;> rw [hmu] at h
    · exact h
    · cases h
  | succ k ih =>
    unfold unrollWithin at h ⊢
    cases hmu : t.isMu <;> rw [hmu] at h
    · exact h
    · exact ih h

/-! ### Types that are contractive everywhere -/

/-- Every recursive type in the type is contractive. -/
inductive Productive : Ty → Prop where
  | prim (p : Prim) : Productive (.prim p)
  | container {k : Container} {e : Ty} (he : Productive e) : Productive (.container k e)
  | func {ps : Row} {r : Ty} (hps : ∀ p ∈ ps, Productive p.2) (hr : Productive r) : Productive (.func ps r)
  | object {ps : Row} (hps : ∀ p ∈ ps, Productive p.2) : Productive (.object ps)
  | union {vs : Variants} (hvs : ∀ v ∈ vs, ∀ p ∈ v.2, Productive p.2) : Productive (.union vs)
  | mu {n : Name} {b : Ty} (hc : (Ty.mu n b).isContractive = true) (hb : Productive b) : Productive (.mu n b)
  | generic {ns : List Name} {b : Ty} (hb : Productive b) : Productive (.generic ns b)
  | var (x : Name) : Productive (.var x)

theorem Productive.head_ne_own (h : t.Productive) : t.head ≠ .own := by
  cases h with
  | mu hc _ => exact isContractive_iff_head.1 hc
  | _ => nofun

/-- Renaming keeps types of height up to the bound contractive everywhere. -/
private def RenamesProductiveWithin (k : Nat) : Prop :=
  ∀ ⦃b b' : Name⦄ ⦃t : Ty⦄ ⦃s : NameSupply⦄, t.height ≤ k → s.AheadOfTy t → t.Productive →
    s.Yields (subst b (.var b') t) fun t' _ => t'.Productive

private theorem rebind_productive {k : Nat} (hk : RenamesProductiveWithin k) (captured : List Name)
    {body : Ty} (hh : body.height ≤ k) (hs : s.AheadOfTy body) (hbody : body.Productive) (b : Name) :
    s.Yields (rebind subst captured b body) fun q s' =>
      q.2.height ≤ body.height ∧ s'.AheadOfTy q.2 ∧ q.2.Productive := by
  unfold rebind
  split
  · refine Yields.draw (Q := fun b' s₁ => s ≤ s₁ ∧ s₁.AheadOf b') ?_ |>.bind fun b' s₁ _ hdraw => ?_
    · exact ⟨Nat.le_succ _, aheadOf_numbered (Nat.lt_succ_self _) b⟩
    obtain ⟨h₁, hb'⟩ := hdraw
    have hvar : s₁.AheadOfTy (.var b') := aheadOfTy_var hb'
    have hproductive : s₁.Yields (subst b (.var b') body) fun t' _ => t'.Productive := hk hh (hs.mono h₁) hbody
    have hrenamed := hproductive.and (subst_ahead b hvar (hs.mono h₁))
    refine (hrenamed.and_always (subst_var_height_le b b' body)).bind fun body' s₂ _ hbody' => .pure ?_
    exact ⟨hbody'.2, hbody'.1.2, hbody'.1.1⟩
  · exact .pure ⟨Nat.le_refl _, hs, hbody⟩

private theorem rebindAll_productive {k : Nat} (hk : RenamesProductiveWithin k) (captured : List Name)
    {body : Ty} (hh : body.height ≤ k) (hs : s.AheadOfTy body) (hbody : body.Productive) (bs : List Name) :
    s.Yields (rebindAll subst captured bs body) fun q s' =>
      q.2.height ≤ body.height ∧ s'.AheadOfTy q.2 ∧ q.2.Productive := by
  induction bs generalizing body s with
  | nil => exact .pure ⟨Nat.le_refl _, hs, hbody⟩
  | cons b bs ih =>
    refine (rebind_productive hk captured hh hs hbody b).bind fun q s₁ _ hq => ?_
    obtain ⟨hheight, hs₁, hbody₁⟩ := hq
    refine (ih (Nat.le_trans hheight hh) hs₁ hbody₁).bind fun q' s₂ _ hq' => .pure ?_
    exact ⟨Nat.le_trans hq'.1 hheight, hq'.2⟩

private theorem subst_productive_of_le (k : Nat) (hk : t.height ≤ k) (ht : s.AheadOfTy t) (hr' : r.Productive)
    (ht' : t.Productive) : s.Yields (subst x r t) fun u _ => u.Productive := by
  induction k generalizing x r t s with
  | zero => exact absurd t.height_pos (by omega)
  | succ k ih =>
    have hrename : RenamesProductiveWithin k := fun b b' u s' hu hs' hu' => ih hu hs' (.var b') hu'
    have hpart : ∀ {u : Ty}, u.height ≤ k → s.AheadOfTy u → u.Productive → ∀ s', s ≤ s' →
        s'.Yields (subst x r u) fun u' _ => u'.Productive := fun hu hs hu' s' h' =>
      ih hu (hs.mono h') hr' hu'
    have hlater : ∀ (u : Ty) (s s' : NameSupply), s ≤ s' → u.Productive → u.Productive := fun _ _ _ _ hu => hu
    cases ht' with
    | prim p => exact .pure (.prim p)
    | @container kind e he =>
      simp only [height] at hk
      rw [subst_container]
      exact (hpart (u := e) (by omega) ht he s (le_refl s)).bind fun e' _ _ he' => .pure (.container he')
    | @func ps result hps hresult =>
      simp only [height] at hk
      rw [subst_func]
      refine (mapRow_all (fun p hp => hpart ?_ ?_ (hps p hp)) hlater).bind fun qs s₁ h₁ hqs => ?_
      · exact Nat.le_trans (height_le_rowHeight hp) (by omega)
      · exact fun y hy => ht y (mem_typeNames_func.2 (Or.inl ⟨p, hp, hy⟩))
      refine (hpart (by omega) ?_ hresult s₁ h₁).bind fun u _ _ hu => .pure (.func hqs hu)
      exact fun y hy => ht y (mem_typeNames_func.2 (Or.inr hy))
    | @object ps hps =>
      simp only [height] at hk
      rw [subst_object]
      refine (mapRow_all (fun p hp => hpart ?_ ?_ (hps p hp)) hlater).bind fun qs _ _ hqs => .pure (.object hqs)
      · exact Nat.le_trans (height_le_rowHeight hp) (by omega)
      · exact fun y hy => ht y (mem_typeNames_object.2 ⟨p, hp, hy⟩)
    | @union vs hvs =>
      simp only [height] at hk
      rw [subst_union]
      refine (mapVariants_all (fun v hv p hp => hpart ?_ ?_ (hvs v hv p hp)) hlater).bind
        fun ws _ _ hws => .pure (.union hws)
      · exact Nat.le_trans (height_le_rowHeight hp) (Nat.le_trans (rowHeight_le_variantsHeight hv) (by omega))
      · exact fun y hy => ht y (mem_typeNames_union.2 ⟨v, hv, p, hp, hy⟩)
    | @mu b body hc hb =>
      have hbody : s.AheadOfTy body := fun y hy => ht y (mem_typeNames_mu.2 (Or.inr hy))
      have hinner : s.Yields (subst x r (.mu b body)) fun u _ => ∃ n u', u = .mu n u' ∧ u'.Productive := by
        simp only [height] at hk
        rw [subst_mu]
        split
        · refine (rebind_productive hrename r.freeNames (by omega) hbody hb b).bind fun q s₁ _ hq => ?_
          obtain ⟨hheight, hs₁, hbody₁⟩ := hq
          refine (ih (Nat.le_trans hheight (by omega)) hs₁ hr' hbody₁).bind fun u _ _ hu => .pure ?_
          exact ⟨_, u, rfl, hu⟩
        · exact .pure ⟨b, body, rfl, hb⟩
      refine ((subst_head x r ht).and hinner).mono fun u s' _ hu => ?_
      obtain ⟨hput, n, u', rfl, hu'⟩ := hu
      -- the head is that of a contractive type, of the one or of the other
      refine .mu (isContractive_iff_head.2 ?_) hu'
      rw [hput.head, Head.put]
      split
      · exact hr'.head_ne_own
      · exact isContractive_iff_head.1 hc
    | @generic bs body hb =>
      have hbody : s.AheadOfTy body := fun y hy => ht y (mem_typeNames_generic.2 (Or.inr hy))
      simp only [height] at hk
      rw [subst_generic]
      split
      · refine (rebindAll_productive hrename r.freeNames (by omega) hbody hb bs).bind fun q s₁ _ hq => ?_
        obtain ⟨hheight, hs₁, hbody₁⟩ := hq
        refine (ih (Nat.le_trans hheight (by omega)) hs₁ hr' hbody₁).bind fun u _ _ hu => .pure ?_
        exact .generic hu
      · exact .pure (.generic hb)
    | var y =>
      rw [subst_var]
      split
      · exact .pure hr'
      · exact .pure (.var y)

/-- Types that are contractive everywhere can be put into each other. -/
theorem subst_productive (x : Name) (ht : s.AheadOfTy t) (hr' : r.Productive) (ht' : t.Productive) :
    s.Yields (subst x r t) fun u _ => u.Productive :=
  subst_productive_of_le t.height (Nat.le_refl _) ht hr' ht'

/-! ### What unrolling and taking apart come to -/

/-- A type is unrolled by a step, or taken apart, whereupon more may be drawn. -/
inductive Exposes : Ty × NameSupply → Ty × NameSupply → Prop where
  | unroll (t : Ty) (s : NameSupply) : Exposes (t, s) (t.unrollOnce.run s)
  | part {t u : Ty} {ns : List Name} {s s' : NameSupply} (h : Part t ns u) (hs : s ≤ s') : Exposes (t, s) (u, s')
  | body {n : Name} {b : Ty} {s s' : NameSupply} (hs : s ≤ s') : Exposes (.mu n b, s) (b, s')

theorem unrollOnce_productive (hs : s.AheadOfTy t) (h : t.Productive) :
    s.Yields t.unrollOnce fun u _ => u.Productive := by
  cases h with
  | mu hc hb => exact subst_productive _ (fun y hy => hs y (mem_typeNames_mu.2 (Or.inr hy))) (.mu hc hb) hb
  | prim p => exact .pure (.prim p)
  | container he => exact .pure (.container he)
  | func hps hr => exact .pure (.func hps hr)
  | object hps => exact .pure (.object hps)
  | union hvs => exact .pure (.union hvs)
  | generic hb => exact .pure (.generic hb)
  | var x => exact .pure (.var x)

theorem Part.productive {u : Ty} {ns : List Name} (h : Part t ns u) (ht : t.Productive) : u.Productive := by
  cases h with
  | elem => cases ht; assumption
  | param hp =>
    cases ht with
    | func hps _ => exact hps _ hp
  | result => cases ht; assumption
  | property hp =>
    cases ht with
    | object hps => exact hps _ hp
  | variant hv hp =>
    cases ht with
    | union hvs => exact hvs _ hv _ hp
  | body => cases ht; assumption

/-- The supply stays ahead, and all recursive types stay contractive. -/
theorem Exposes.productive {p q : Ty × NameSupply} (h : Exposes p q) (hp : p.2.AheadOfTy p.1 ∧ p.1.Productive) :
    q.2.AheadOfTy q.1 ∧ q.1.Productive := by
  obtain ⟨hs, ht⟩ := hp
  cases h with
  | unroll t s => exact ⟨(unrollOnce_head hs).2.1, (unrollOnce_productive hs ht).2⟩
  | part h hle => exact ⟨fun y hy => (hs y (h.mem_typeNames hy)).mono hle, h.productive ht⟩
  | body hle =>
    cases ht with
    | mu _ hb => exact ⟨fun y hy => (hs y (mem_typeNames_mu.2 (Or.inr hy))).mono hle, hb⟩

theorem isContractive_iff_muBody : t.isContractive = true ↔ ∀ x ∈ t.muNames, t.muBody ≠ .var x := by
  rw [isContractive]
  cases t.muBody with
  | var y =>
    rw [decide_eq_true_iff]
    constructor
    · rintro hy x hx ⟨⟩
      exact hy hx
    · exact fun h hy => h y hy rfl
  | _ => exact iff_of_true rfl fun _ _ h => by cases h

/-- With at least as many steps as there are leading binders, unrolling always comes to the same type. -/
theorem unrollWithin_eq_unroll (hs : s.AheadOfTy t) (h : t.isContractive = true) {k : Nat} (hk : t.muNames.length ≤ k) :
    (unrollWithin k t).run s = t.unroll.run s := by
  obtain ⟨d, rfl⟩ := Nat.exists_eq_add_of_le hk
  induction d with
  | zero => rfl
  | succ d ih =>
    have hle : t.muNames.length ≤ t.muNames.length + d := Nat.le_add_right ..
    obtain ⟨u, hu⟩ := (unrollWithin_of_isContractive hs (isContractive_iff_head.1 h) _).2.1.2 hle
    have hrun := Prod.ext (y := (some u, _)) hu rfl
    rw [← ih hle, hrun]
    exact unrollWithin_succ hrun

/-- Unrolling ends just when the type is contractive, that is when no variable of a leading binder stands below the
leading binders.  Then it ends after as many steps as there are such binders, and with a type that has none.  Types in
which every recursive type is contractive stay so when one is substituted in the other, and when one is unrolled and
taken apart, so that whatever is met can be unrolled. -/
theorem unroll_ends_iff (hs : s.AheadOfTy t) :
    ((∃ k u, ((unrollWithin k t).run s).1 = some u) ↔ t.isContractive = true) ∧
    (t.isContractive = true ↔ ∀ x ∈ t.muNames, t.muBody ≠ .var x) ∧
    (t.isContractive = true → ∃ u s', u.isMu = false ∧
      ∀ k, (t.muNames.length ≤ k → (unrollWithin k t).run s = (some u, s')) ∧
        (k < t.muNames.length → ((unrollWithin k t).run s).1 = none)) ∧
    (t.Productive → ∀ x r, r.Productive → ((subst x r t).run s).1.Productive) ∧
    (t.Productive → ∀ q, Relation.ReflTransGen Exposes (t, s) q →
      q.1.Productive ∧ ∃ u, (q.1.unroll.run q.2).1 = some u) := by
  have hends : ∀ {t : Ty} {s : NameSupply}, s.AheadOfTy t → t.isContractive = true →
      ∃ u, (t.unroll.run s).1 = some u ∧ u.isMu = false := by
    intro t s hs h
    obtain ⟨-, hiff, hall⟩ := unrollWithin_of_isContractive hs (isContractive_iff_head.1 h) t.muNames.length
    obtain ⟨u, hu⟩ := hiff.2 (Nat.le_refl _)
    exact ⟨u, hu, (hall u hu).1⟩
  refine ⟨⟨?_, ?_⟩, isContractive_iff_muBody, ?_, ?_, ?_⟩
  · rintro ⟨k, u, hu⟩
    rw [isContractive_iff_head]
    intro hown
    rw [(unrollWithin_of_not_isContractive hs hown k).2] at hu
    cases hu
  · intro h
    obtain ⟨u, hu, -⟩ := hends hs h
    exact ⟨_, u, hu⟩
  · intro h
    obtain ⟨u, hu, hmu⟩ := hends hs h
    refine ⟨u, (t.unroll.run s).2, hmu, fun k => ⟨fun hk => ?_, fun hk => ?_⟩⟩
    · rw [unrollWithin_eq_unroll hs h hk]
      exact Prod.ext hu rfl
    · have hiff := (unrollWithin_of_isContractive hs (isContractive_iff_head.1 h) k).2.1
      exact Option.eq_none_iff_forall_ne_some.2 fun v hv => absurd (hiff.1 ⟨v, hv⟩) (Nat.not_le.2 hk)
  · intro h x r hr
    exact (subst_productive x hs hr h).2
  · intro h q hq
    have hkept : q.2.AheadOfTy q.1 ∧ q.1.Productive := by
      induction hq with
      | refl => exact ⟨hs, h⟩
      | tail _ hstep ih => exact hstep.productive ih
    obtain ⟨u, hu, -⟩ := hends hkept.1 (isContractive_iff_head.2 hkept.2.head_ne_own)
    exact ⟨hkept.2, u, hu⟩

/-- `mu X. mu Y. mu X. { a: X; b: Y; c: Z }` -/
private def layered : Ty :=
  .mu "X" (.mu "Y" (.mu "X" (.object [("a", .var "X"), ("b", .var "Y"), ("c", .var "Z")])))

/-- `mu W. { x: X; y: Y; w: W }` -/
private def crossing : Ty :=
  .mu "W" (.object [("x", .var "X"), ("y", .var "Y"), ("w", .var "W")])

/-- Three binders in front, two of them with the same name, take three steps.  What is put in for `Z` would be captured
by all of them. -/
theorem unroll_ends_iff_layered :
    layered.isContractive = true ∧
    (∃ u s', u.isMu = false ∧ (unrollWithin 3 layered).run {} = (some u, s') ∧
      ((unrollWithin 2 layered).run {}).1 = none) ∧
    ((subst "Z" crossing layered).run {}).1.Productive ∧
    ∃ u, ((layered.unrollOnce.run {}).1.unroll.run (layered.unrollOnce.run {}).2).1 = some u := by
  have hahead : AheadOfTy {} layered := aheadOfTy_of_at_sign_not_mem (by decide) _
  have hlayered : layered.Productive :=
    .mu (by decide) (.mu (by decide) (.mu (by decide) (.object (by simp [Productive.var]))))
  have hcrossing : crossing.Productive := .mu (by decide) (.object (by simp [Productive.var]))
  have hcontractive : layered.isContractive = true := by decide
  obtain ⟨-, -, hsteps, hsubst, hexposed⟩ := unroll_ends_iff hahead
  obtain ⟨u, s', hmu, hrun⟩ := hsteps hcontractive
  have hthree := (hrun 3).1 (by decide)
  have htwo := (hrun 2).2 (by decide)
  refine ⟨hcontractive, ⟨u, s', hmu, hthree, htwo⟩, hsubst hlayered "Z" crossing hcrossing, ?_⟩
  exact (hexposed hlayered _ (.single (.unroll layered {}))).2

end MuTypes.Ty
