import Relatedness.Cosine
import Relatedness.Proofs.Matrix.Contents

/-! What the join of two lists of entries adds up: the squares of each list, and the products of the
columns that both have, all of them in the order of the columns. -/

namespace Relatedness.CosineSums

/-- The columns that both lists have, with the weights of both. -/
def shared (as bs : List (FeatureId × Binary32)) : List (FeatureId × Binary32 × Binary32) :=
  as.filterMap fun a => (bs.lookup a.1).map fun w => (a.1, a.2, w)

variable {as bs : List (FeatureId × Binary32)} {c : FeatureId} {v w : Binary32}

theorem mem_shared_iff (hb : bs.Pairwise fun a b => a.1 < b.1) :
    (c, v, w) ∈ shared as bs ↔ (c, v) ∈ as ∧ (c, w) ∈ bs := by
  simp only [shared, List.mem_filterMap, Option.map_eq_some_iff, Ascending.lookup_eq_some_iff hb]
  constructor
  · rintro ⟨a, ha, u, hu, heq⟩
    cases heq
    exact ⟨ha, hu⟩
  · exact fun h => ⟨(c, v), h.1, w, h.2, rfl⟩

theorem pairwise_shared (ha : as.Pairwise fun a b => a.1 < b.1) :
    (shared as bs).Pairwise fun a b => a.1 < b.1 := by
  refine List.pairwise_filterMap.mpr (ha.imp ?_)
  intro a b hab t ht u hu
  obtain ⟨_, _, rfl⟩ := Option.map_eq_some_iff.mp ht
  obtain ⟨_, _, rfl⟩ := Option.map_eq_some_iff.mp hu
  exact hab

/-- The same columns are found from either side. -/
theorem shared_swap (ha : as.Pairwise fun a b => a.1 < b.1)
    (hb : bs.Pairwise fun a b => a.1 < b.1) :
    shared bs as = (shared as bs).map fun t => (t.1, t.2.2, t.2.1) := by
  refine Ascending.eq_of_mem_iff Prod.fst (pairwise_shared hb)
    (List.pairwise_map.mpr (pairwise_shared ha)) ?_
  rintro ⟨c, w, v⟩
  rw [mem_shared_iff ha, List.mem_map]
  constructor
  · exact fun h => ⟨(c, v, w), (mem_shared_iff hb).mpr h.symm, rfl⟩
  · rintro ⟨⟨c', v', w'⟩, ht, heq⟩
    cases heq
    exact ((mem_shared_iff hb).mp ht).symm

/-- A list has all columns of its own. -/
theorem shared_self (ha : as.Pairwise fun a b => a.1 < b.1) :
    shared as as = as.map fun a => (a.1, a.2, a.2) := by
  rw [← List.filterMap_eq_map]
  refine List.filterMap_congr fun a hmem => ?_
  rw [(Ascending.lookup_eq_some_iff ha).mpr hmem]
  rfl

/-! ## One step of the join -/

/-- A first column that is below all of the other list is not shared. -/
theorem shared_of_left {j : FeatureId} (hb : ((j, w) :: bs).Pairwise fun a b => a.1 < b.1)
    (h : c < j) : shared ((c, v) :: as) ((j, w) :: bs) = shared as ((j, w) :: bs) := by
  have hnone : ((j, w) :: bs).lookup c = none := by
    refine List.lookup_eq_none_iff.mpr fun e he => bne_iff_ne.mpr (UInt32.ne_of_lt ?_)
    rcases List.mem_cons.mp he with rfl | hmem
    · exact h
    · exact UInt32.lt_trans h (List.rel_of_pairwise_cons hb hmem)
  rw [shared, List.filterMap_cons, hnone]
  rfl

theorem shared_of_right {j : FeatureId} (ha : ((c, v) :: as).Pairwise fun a b => a.1 < b.1)
    (h : j < c) : shared ((c, v) :: as) ((j, w) :: bs) = shared ((c, v) :: as) bs := by
  refine List.filterMap_congr fun a hmem => ?_
  have hlt : j < a.1 := by
    rcases List.mem_cons.mp hmem with rfl | hmem
    · exact h
    · exact UInt32.lt_trans h (List.rel_of_pairwise_cons ha hmem)
  have hne : (a.1 == j) = false := by simpa using (UInt32.ne_of_lt hlt).symm
  rw [List.lookup_cons, hne]

theorem shared_of_both (ha : ((c, v) :: as).Pairwise fun a b => a.1 < b.1) :
    shared ((c, v) :: as) ((c, w) :: bs) = (c, v, w) :: shared as bs := by
  have hfirst : ((c, w) :: bs).lookup c = some w := by rw [List.lookup_cons, beq_self_eq_true]
  rw [shared, List.filterMap_cons, hfirst]
  refine congrArg ((c, v, w) :: ·) (List.filterMap_congr fun a hmem => ?_)
  have hne : (a.1 == c) = false := by
    simpa using (UInt32.ne_of_lt (List.rel_of_pairwise_cons ha hmem)).symm
  rw [List.lookup_cons, hne]

/-! ## The whole join -/

variable {S : Type} [Scalar S]

/-- Adds the squares of weights to a sum. -/
def addSquares (sum : S) (entries : List (FeatureId × Binary32)) : S :=
  entries.foldl (fun sum e => sum + square e.2) sum

/-- Adds the products of two weights each to a sum. -/
def addProducts (sum : S) (terms : List (FeatureId × Binary32 × Binary32)) : S :=
  terms.foldl (fun sum t => sum + Scalar.ofBinary32 t.2.1 * Scalar.ofBinary32 t.2.2) sum

theorem foldl_addLeft (s : CosineSums S) (as : List (FeatureId × Binary32)) :
    as.foldl (fun s a => s.addLeft a.2) s = { s with left := addSquares s.left as } := by
  induction as generalizing s with
  | nil => rfl
  | cons a rest ih => exact ih (s.addLeft a.2)

theorem foldl_addRight (s : CosineSums S) (bs : List (FeatureId × Binary32)) :
    bs.foldl (fun s b => s.addRight b.2) s = { s with right := addSquares s.right bs } := by
  induction bs generalizing s with
  | nil => rfl
  | cons b rest ih => exact ih (s.addRight b.2)

/-- What a join adds to three sums. -/
theorem join_eq (s : CosineSums S) (ha : as.Pairwise fun a b => a.1 < b.1)
    (hb : bs.Pairwise fun a b => a.1 < b.1) :
    s.join as bs = ⟨addSquares s.left as, addSquares s.right bs,
      addProducts s.common (shared as bs)⟩ := by
  fun_induction join s as bs with
  | case1 s bs => exact foldl_addRight s bs
  | case2 s as _ =>
    have hnone : shared as [] = [] := List.filterMap_eq_nil_iff.mpr fun _ _ => rfl
    rw [foldl_addLeft, hnone]
    rfl
  | case3 s i v as j w bs hlt ih =>
    rw [ih ha.tail hb, shared_of_left hb hlt]
    rfl
  | case4 s i v as j w bs _ hlt ih =>
    rw [ih ha hb.tail, shared_of_right ha hlt]
    rfl
  | case5 s i v as j w bs hle hge ih =>
    obtain rfl : i = j := UInt32.le_antisymm (UInt32.not_lt.mp hge) (UInt32.not_lt.mp hle)
    rw [ih ha.tail hb.tail, shared_of_both ha]
    rfl

end Relatedness.CosineSums
