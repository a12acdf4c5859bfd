import Mathlib
import MuTypes.Proofs.Renaming.Parallel

/-!
# Fresh names along a run

A run asks one supply for a name again and again.  Each name has the stem of its base and the number of its call
(`run_drawAll`).  The numbers tell the names of a run apart, whatever the bases are, and since the name of a base without
its number is all that is taken over, a base may well be an earlier result (`namesFor_fresh`).
-/

namespace MuTypes

/-! ### The parts of a drawn name -/

theorem at_sign_not_mem_toDigits (n : Nat) : '@' ∉ Nat.toDigits 10 n := by
  intro h
  have hdigit : '@'.isDigit = true := Nat.isDigit_of_mem_toDigits (by omega) (by omega) h
  exact absurd hdigit (by decide)

theorem count_at_sign_numbered (base : Name) (n : Nat) : (numbered base n).toList.count '@' = 1 := by
  have hstem : (stem base).toList.count '@' = 0 := List.count_eq_zero.2 (at_sign_not_mem_stem base)
  have hdigits : (Nat.toDigits 10 n).count '@' = 0 := List.count_eq_zero.2 (at_sign_not_mem_toDigits n)
  rw [toList_numbered, List.count_append, List.count_cons_self, hstem, hdigits]

namespace NameSupply

/-! ### Runs of calls -/

/-- The supply numbers the calls. -/
theorem run_drawAll (s : NameSupply) (bases : List Name) :
    (drawAll bases).run s =
      (bases.mapIdx fun i base => numbered base (s.next + i), ⟨s.next + bases.length⟩) := by
  induction bases generalizing s with
  | nil => rfl
  | cons base bases ih =>
    have hrest := ih ⟨s.next + 1⟩
    rw [drawAll] at hrest ⊢
    rw [List.mapM_cons, StateT.run_bind, draw_run, List.mapIdx_cons]
    show ((bases.mapM draw >>= fun ns => pure (numbered base s.next :: ns)).run ⟨s.next + 1⟩ : Id _) = _
    rw [StateT.run_bind, hrest]
    simp only [Nat.add_assoc, Nat.add_comm 1, List.length_cons]
    rfl

/-- The names that the supply gives when it is asked for one for each base, call after call. -/
def namesFor (s : NameSupply) (bases : List Name) : List Name :=
  ((drawAll bases).run s).1

theorem getElem?_namesFor {s : NameSupply} {bases : List Name} {i : Nat} :
    (s.namesFor bases)[i]? = bases[i]?.map fun base => numbered base (s.next + i) := by
  rw [namesFor, run_drawAll, List.getElem?_mapIdx]

theorem exists_of_mem_namesFor {s : NameSupply} {bases : List Name} {n : Name} (h : n ∈ s.namesFor bases) :
    ∃ base i, n = numbered base (s.next + i) := by
  obtain ⟨i, hi⟩ := List.mem_iff_getElem?.1 h
  rw [getElem?_namesFor] at hi
  obtain ⟨base, -, rfl⟩ := Option.map_eq_some_iff.1 hi
  exact ⟨base, i, rfl⟩

theorem namesFor_nodup (s : NameSupply) (bases : List Name) : (s.namesFor bases).Nodup := by
  refine List.pairwise_iff_getElem.2 fun i j hi hj hij heq => ?_
  have hentry : ∀ k (hk : k < (s.namesFor bases).length),
      ∃ base, (s.namesFor bases)[k] = numbered base (s.next + k) := by
    intro k hk
    obtain ⟨base, -, hn⟩ := Option.map_eq_some_iff.1 (getElem?_namesFor.symm.trans (List.getElem?_eq_getElem hk))
    exact ⟨base, hn.symm⟩
  obtain ⟨b, hb⟩ := hentry i hi
  obtain ⟨c, hc⟩ := hentry j hj
  have := number_eq_of_numbered_eq (hb.symm.trans (heq.trans hc))
  omega

theorem stem_of_namesFor {s : NameSupply} {bases : List Name} {i : Nat} {base n : Name} (hbase : bases[i]? = some base)
    (hn : (s.namesFor bases)[i]? = some n) : stem n = stem base := by
  rw [getElem?_namesFor, hbase, Option.map_some, Option.some.injEq] at hn
  rw [← hn, stem_numbered]

/-! ### Results as bases -/

/-- The name that call `i` gave is the base of call `j`. -/
def Feeds (s : NameSupply) (bases : List Name) (i j : Nat) : Prop :=
  ∃ n, (s.namesFor bases)[i]? = some n ∧ bases[j]? = some n

theorem stem_of_feeds {s : NameSupply} {bases : List Name} {i j : Nat} {base n : Name}
    (h : Relation.ReflTransGen (s.Feeds bases) i j) (hbase : bases[i]? = some base)
    (hn : (s.namesFor bases)[j]? = some n) : stem n = stem base := by
  induction h generalizing n with
  | refl => exact stem_of_namesFor hbase hn
  | tail _ hfeeds ih =>
    obtain ⟨m, hm, hmbase⟩ := hfeeds
    rw [stem_of_namesFor hmbase hn, ih hm]

/-- The names that one supply gives for any bases are distinct, each has one `@`, with the stem of its base before it,
and so none is a name without `@`.  When the bases are earlier results, the stem stays that of the first base. -/
theorem namesFor_fresh (s : NameSupply) (bases : List Name) :
    (s.namesFor bases).length = bases.length ∧ (s.namesFor bases).Nodup ∧
      (∀ n ∈ s.namesFor bases, n.toList.count '@' = 1) ∧ (∀ x : Name, '@' ∉ x.toList → x ∉ s.namesFor bases) ∧
      (∀ (i : Nat) base n, bases[i]? = some base → (s.namesFor bases)[i]? = some n → stem n = stem base) ∧
      ∀ (i j : Nat) base n, Relation.ReflTransGen (s.Feeds bases) i j → bases[i]? = some base →
        (s.namesFor bases)[j]? = some n → stem n = stem base := by
  have hone : ∀ n ∈ s.namesFor bases, n.toList.count '@' = 1 := by
    intro n hn
    obtain ⟨base, i, rfl⟩ := exists_of_mem_namesFor hn
    exact count_at_sign_numbered base (s.next + i)
  refine ⟨?_, s.namesFor_nodup bases, hone, fun x hx hmem => ?_, fun _ _ _ hbase hn => stem_of_namesFor hbase hn,
    fun _ _ _ _ hfeeds hbase hn => stem_of_feeds hfeeds hbase hn⟩
  · rw [namesFor, run_drawAll, List.length_mapIdx]
  · have := hone x hmem
    rw [List.count_eq_zero.2 hx] at this
    omega

/-- A run in which the first and the second name come back as bases, with an empty base between them. -/
theorem namesFor_fresh_fedBack :
    ({} : NameSupply).namesFor ["X", "X@1", "", "X@2"] = ["X@1", "X@2", "@3", "X@4"] ∧
      Relation.ReflTransGen (({} : NameSupply).Feeds ["X", "X@1", "", "X@2"]) 0 3 ∧ stem "X@4" = stem "X" := by
  have hrun : ({} : NameSupply).namesFor ["X", "X@1", "", "X@2"] = ["X@1", "X@2", "@3", "X@4"] := by cbv
  have hfeeds : Relation.ReflTransGen (({} : NameSupply).Feeds ["X", "X@1", "", "X@2"]) 0 3 :=
    .tail (.single (b := 1) ⟨"X@1", by rw [hrun]; rfl, rfl⟩) ⟨"X@2", by rw [hrun]; rfl, rfl⟩
  obtain ⟨-, -, -, -, -, hstem⟩ := namesFor_fresh {} ["X", "X@1", "", "X@2"]
  exact ⟨hrun, hfeeds, hstem 0 3 "X" "X@4" hfeeds rfl (by rw [hrun]; rfl)⟩

end NameSupply

end MuTypes
