import Relatedness.Proofs.Percentile.RealScore
import Relatedness.Proofs.Similarity.Scores

/-! Comparing two vectors or two rows. A join goes through both lists at once and a dot product
looks the entries of the smaller vector up in the larger one; both add the products of the columns
that the two have in the order of the columns. So the results are the same scalar and not only
close, if factors may be exchanged. The dot product begins at minus zero and the join at zero, which
is the same where adding a zero changes nothing. -/

namespace Relatedness

namespace CosineSums

variable {S : Type} [Scalar S] {as bs : List (FeatureId × Binary32)}

/-- The sum of scalars, from the first to the last. -/
def total (terms : List S) : S := terms.foldl (· + ·) 0

/-- The terms of two lists are the columns that both have, ascending, each with the weight it has
in the one list and in the other. -/
structure Common (as bs : List (FeatureId × Binary32))
    (terms : List (FeatureId × Binary32 × Binary32)) : Prop where
  ascending : terms.Pairwise fun t u => t.1 < u.1
  mem_iff : ∀ c v w, (c, v, w) ∈ terms ↔ (c, v) ∈ as ∧ (c, w) ∈ bs

/-- The sums over two lists of entries: of the squares of all entries of the one and of the other,
and of the products of the common columns. -/
structure SumsOver (as bs : List (FeatureId × Binary32)) (s : CosineSums S) : Prop where
  left : s.left = total (as.map fun e => Scalar.ofBinary32 e.2 * Scalar.ofBinary32 e.2)
  right : s.right = total (bs.map fun e => Scalar.ofBinary32 e.2 * Scalar.ofBinary32 e.2)
  common : ∃ terms, Common as bs terms ∧
    s.common = total (terms.map fun t => Scalar.ofBinary32 t.2.1 * Scalar.ofBinary32 t.2.2)

theorem common_shared (ha : as.Pairwise fun a b => a.1 < b.1)
    (hb : bs.Pairwise fun a b => a.1 < b.1) : Common as bs (shared as bs) :=
  ⟨pairwise_shared ha, fun _ _ _ => mem_shared_iff hb⟩

theorem shared_eq_nil (hb : bs.Pairwise fun a b => a.1 < b.1)
    (h : ∀ c v w, ¬((c, v) ∈ as ∧ (c, w) ∈ bs)) : shared as bs = [] :=
  List.eq_nil_iff_forall_not_mem.mpr fun t ht => h t.1 t.2.1 t.2.2 ((mem_shared_iff hb).mp ht)

theorem addSquares_zero (as : List (FeatureId × Binary32)) :
    (addSquares 0 as : S) =
      total (as.map fun e => Scalar.ofBinary32 e.2 * Scalar.ofBinary32 e.2) := by
  rw [total, List.foldl_map]
  rfl

theorem addProducts_eq (sum : S) (terms : List (FeatureId × Binary32 × Binary32)) :
    addProducts sum terms =
      (terms.map fun t => Scalar.ofBinary32 t.2.1 * Scalar.ofBinary32 t.2.2).foldl (· + ·) sum := by
  rw [List.foldl_map]
  rfl

/-- Once there is something to add, both zeros are forgotten. -/
theorem addProducts_of_neutral (zero_add : ∀ x : S, 0 + x = x) (neg_zero_add : ∀ x : S, -0 + x = x)
    {terms : List (FeatureId × Binary32 × Binary32)} (h : terms ≠ []) :
    (addProducts (-0) terms : S) = addProducts 0 terms := by
  obtain ⟨first, rest, rfl⟩ := List.exists_cons_of_ne_nil h
  rw [addProducts_eq, addProducts_eq, List.map_cons, List.foldl_cons, List.foldl_cons, zero_add,
    neg_zero_add]

/-- A join from zero finds the sums. -/
theorem sumsOver_join (ha : as.Pairwise fun a b => a.1 < b.1)
    (hb : bs.Pairwise fun a b => a.1 < b.1) : SumsOver as bs (zero.join as bs : CosineSums S) := by
  rw [join_eq zero ha hb]
  exact ⟨addSquares_zero as, addSquares_zero bs, shared as bs, common_shared ha hb,
    addProducts_eq 0 _⟩

/-! ## The other order -/

/-- The same sums, of the other list first. -/
def swap (s : CosineSums S) : CosineSums S := ⟨s.right, s.left, s.common⟩

theorem addProducts_swap (mul_comm : ∀ x y : S, x * y = y * x) (sum : S)
    (terms : List (FeatureId × Binary32 × Binary32)) :
    addProducts sum (terms.map fun t => (t.1, t.2.2, t.2.1)) = addProducts sum terms := by
  rw [addProducts, List.foldl_map]
  refine List.foldl_ext _ _ _ fun sum t _ => ?_
  rw [mul_comm]

theorem join_swap (mul_comm : ∀ x y : S, x * y = y * x)
    (ha : as.Pairwise fun a b => a.1 < b.1) (hb : bs.Pairwise fun a b => a.1 < b.1) :
    (zero.join bs as : CosineSums S) = (zero.join as bs).swap := by
  rw [join_eq zero hb ha, join_eq zero ha hb, shared_swap ha hb, addProducts_swap mul_comm]
  rfl

theorem cosine_swap (mul_comm : ∀ x y : S, x * y = y * x) (s : CosineSums S) :
    s.swap.cosine = s.cosine := by
  simp only [cosine, swap, mul_comm s.right s.left, Bool.or_comm (Scalar.isZero s.right)]

theorem cosine_join_comm (mul_comm : ∀ x y : S, x * y = y * x)
    (ha : as.Pairwise fun a b => a.1 < b.1) (hb : bs.Pairwise fun a b => a.1 < b.1) :
    (zero.join bs as : CosineSums S).cosine = (zero.join as bs).cosine := by
  rw [join_swap mul_comm ha hb, cosine_swap mul_comm]

/-- Without a common column nothing is added to the sum of products, which remains zero. -/
theorem cosine_join_of_apart (isZero_zero : Scalar.isZero (0 : S) = true)
    (ha : as.Pairwise fun a b => a.1 < b.1) (hb : bs.Pairwise fun a b => a.1 < b.1)
    (h : as = [] ∨ bs = [] ∨ ∀ c v w, ¬((c, v) ∈ as ∧ (c, w) ∈ bs)) :
    (zero.join as bs : CosineSums S).cosine = 0 := by
  have hnone : ∀ c v w, ¬((c, v) ∈ as ∧ (c, w) ∈ bs) := by
    rcases h with rfl | rfl | h
    · exact fun _ _ _ hboth => List.not_mem_nil hboth.1
    · exact fun _ _ _ hboth => List.not_mem_nil hboth.2
    · exact h
  rw [join_eq zero ha hb, shared_eq_nil hb hnone]
  have hcommon : Scalar.isZero (addProducts (zero : CosineSums S).common []) = true := isZero_zero
  rw [cosine, hcommon, Bool.or_true, if_pos rfl]

end CosineSums

namespace FeatureVector

variable {S : Type} [Scalar S]

/-- Looking the entries of one vector up in another finds the columns that both have. -/
theorem foldl_lookup (small large : FeatureVector) (sum : S) :
    small.entries.foldl (fun sum e =>
      match large.weights[e.1]? with
      | some u => sum + Scalar.ofBinary32 e.2 * Scalar.ofBinary32 u
      | none => sum) sum =
    CosineSums.addProducts sum (CosineSums.shared small.entries large.entries) := by
  rw [CosineSums.shared]
  induction small.entries generalizing sum with
  | nil => rfl
  | cons e rest ih =>
    rw [List.foldl_cons, ih, List.filterMap_cons, lookup_entries]
    cases large.weights[e.1]? <;> rfl

theorem dot_of_le {a b : FeatureVector} (h : a.size ≤ b.size) :
    (a.dot b : S) = CosineSums.addProducts (-0) (CosineSums.shared a.entries b.entries) := by
  rw [dot, if_pos h]
  exact foldl_lookup a b (-0 : S)

theorem dot_of_not_le {a b : FeatureVector} (h : ¬a.size ≤ b.size) :
    (a.dot b : S) = CosineSums.addProducts (-0) (CosineSums.shared b.entries a.entries) := by
  rw [dot, if_neg h]
  exact foldl_lookup b a (-0 : S)

/-- A dot product adds the products of the columns that both have, whichever vector is the larger
one. -/
theorem dot_eq_shared (mul_comm : ∀ x y : S, x * y = y * x) (a b : FeatureVector) :
    (a.dot b : S) = CosineSums.addProducts (-0) (CosineSums.shared a.entries b.entries) := by
  by_cases h : a.size ≤ b.size
  · exact dot_of_le h
  · rw [dot_of_not_le h, CosineSums.shared_swap a.pairwise_entries b.pairwise_entries,
      CosineSums.addProducts_swap mul_comm]

theorem common_join (a b : FeatureVector) :
    (CosineSums.zero.join a.entries b.entries : CosineSums S).common =
      CosineSums.addProducts 0 (CosineSums.shared a.entries b.entries) := by
  rw [CosineSums.join_eq _ a.pairwise_entries b.pairwise_entries]
  rfl

end FeatureVector

variable {S : Type} [Scalar S]

/-- What holds of comparing rows with each other and vectors with each other. -/
structure ComparisonsAgree (S : Type) [Scalar S] : Prop where
  rows_sums : ∀ a b : Row, CosineSums.SumsOver a.entries b.entries
    (CosineSums.zero.join a.entries b.entries : CosineSums S)
  vectors_sums : ∀ a b : FeatureVector, CosineSums.SumsOver a.entries b.entries
    (CosineSums.zero.join a.entries b.entries : CosineSums S)
  /-- The sum of a dot product begins at minus zero. -/
  dot_sum : ∀ a b : FeatureVector, ∃ terms, CosineSums.Common a.entries b.entries terms ∧
    (a.dot b : S) = (terms.map fun t =>
      Scalar.ofBinary32 t.2.1 * Scalar.ofBinary32 t.2.2).foldl (· + ·) (-0)
  dot_eq : (-0 : S) = 0 → ∀ a b : FeatureVector,
    (a.dot b : S) = (CosineSums.zero.join a.entries b.entries).common
  /-- Where the two zeros differ, but neither changes what it is added to. -/
  dot_eq_of_neutral : (∀ x : S, 0 + x = x) → (∀ x : S, -0 + x = x) → ∀ a b : FeatureVector,
    (∃ c v w, (c, v) ∈ a.entries ∧ (c, w) ∈ b.entries) →
      (a.dot b : S) = (CosineSums.zero.join a.entries b.entries).common
  dot_comm : ∀ a b : FeatureVector, (a.dot b : S) = b.dot a
  rows_comm : ∀ a b : Row, (a.cosine b : S) = b.cosine a
  vectors_comm : ∀ a b : FeatureVector, (a.cosine b : S) = b.cosine a
  vectors_eq_rows : ∀ (a b : FeatureVector) (i j : RowId),
    (a.cosine b : S) = (Row.ofVector i a).cosine (Row.ofVector j b)
  rows_zero : ∀ a b : Row,
    a.entries = [] ∨ b.entries = [] ∨
      (∀ c v w, ¬((c, v) ∈ a.entries ∧ (c, w) ∈ b.entries)) → (a.cosine b : S) = 0
  vectors_zero : ∀ a b : FeatureVector,
    a.entries = [] ∨ b.entries = [] ∨
      (∀ c v w, ¬((c, v) ∈ a.entries ∧ (c, w) ∈ b.entries)) → (a.cosine b : S) = 0

/-- The two zeros are one where neither changes a number that it is added to, one from the left and
the other from the right. -/
theorem neg_zero_of_neutral (zero_add : ∀ x : S, 0 + x = x)
    (add_neg_zero : ∀ x : S, x + -0 = x) : (-0 : S) = 0 :=
  (zero_add (-0)).symm.trans (add_neg_zero 0)

/-- All comparisons come down to the sums of one join, so they agree exactly, in either order of
the arguments. The two zeros that sums begin at make no difference where adding a zero makes none:
they are one, or the vectors have a column in common, so that there is something to add. -/
theorem comparisons_agree (mul_comm : ∀ x y : S, x * y = y * x)
    (isZero_zero : Scalar.isZero (0 : S) = true) : ComparisonsAgree S where
  rows_sums a b := CosineSums.sumsOver_join a.ascending b.ascending
  vectors_sums a b := CosineSums.sumsOver_join a.pairwise_entries b.pairwise_entries
  dot_sum a b := by
    rw [FeatureVector.dot_eq_shared mul_comm, CosineSums.addProducts_eq]
    exact ⟨_, CosineSums.common_shared a.pairwise_entries b.pairwise_entries, rfl⟩
  dot_eq neg_zero a b := by
    rw [FeatureVector.dot_eq_shared mul_comm, FeatureVector.common_join, neg_zero]
  dot_eq_of_neutral zero_add neg_zero_add a b hboth := by
    obtain ⟨c, v, w, hboth⟩ := hboth
    rw [FeatureVector.dot_eq_shared mul_comm, FeatureVector.common_join,
      CosineSums.addProducts_of_neutral zero_add neg_zero_add]
    exact List.ne_nil_of_mem ((CosineSums.mem_shared_iff b.pairwise_entries).mpr hboth)
  dot_comm a b := by
    rw [FeatureVector.dot_eq_shared mul_comm, FeatureVector.dot_eq_shared mul_comm b a,
      CosineSums.shared_swap b.pairwise_entries a.pairwise_entries,
      CosineSums.addProducts_swap mul_comm]
  rows_comm a b := CosineSums.cosine_join_comm mul_comm b.ascending a.ascending
  vectors_comm a b := CosineSums.cosine_join_comm mul_comm b.pairwise_entries a.pairwise_entries
  vectors_eq_rows _ _ _ _ := rfl
  rows_zero a b := CosineSums.cosine_join_of_apart isZero_zero a.ascending b.ascending
  vectors_zero a b :=
    CosineSums.cosine_join_of_apart isZero_zero a.pairwise_entries b.pairwise_entries

/-- Exact arithmetic is one meaning of the operations, and has one zero. -/
theorem comparisons_agree_exactly :
    ComparisonsAgree (RealScore id id) ∧ (-0 : RealScore id id) = 0 :=
  ⟨comparisons_agree (fun x y => RealScore.ext (mul_comm x.real y.real))
    ((RealScore.isZero_iff 0).mpr rfl),
    neg_zero_of_neutral (fun x => RealScore.ext (zero_add x.real)) fun x =>
      RealScore.ext ((congrArg (x.real + ·) neg_zero).trans (add_zero x.real))⟩

end Relatedness
