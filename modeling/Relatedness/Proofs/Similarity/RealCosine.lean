import Mathlib.Algebra.BigOperators.Fin
import Mathlib.Algebra.Order.BigOperators.Group.List
import Mathlib.Algebra.Order.BigOperators.Ring.Finset
import Relatedness.Proofs.Cosine
import Relatedness.Proofs.Percentile.RealScore
import Relatedness.Proofs.Ranking

/-! The cosine in exact arithmetic. It is the inner product of two lists of entries over their
lengths, which by the inequality of Cauchy and Schwarz lies between -1 and 1. So nothing is ever
clamped, and the sums that are zero need no case of their own. -/

namespace Relatedness

/-- A number that is not a zero has a value other than zero. -/
theorem Binary32.toReal_ne_zero {x : Binary32} (h : x.isZero = false) : x.toReal ≠ 0 := by
  have hmagnitude : x.magnitude ≠ 0 := by simpa [isZero] using h
  have hsize : (if x.magnitude / 2 ^ 23 = 0 then ((x.magnitude % 2 ^ 23 : Nat) : ℝ) * 2 ^ (-149 : ℤ)
      else (2 ^ 23 + ((x.magnitude % 2 ^ 23 : Nat) : ℝ)) *
        2 ^ (((x.magnitude / 2 ^ 23 : Nat) : ℤ) - 150)) ≠ 0 := by
    split
    · rename_i hexponent
      have hfraction : x.magnitude % 2 ^ 23 ≠ 0 := by omega
      exact mul_ne_zero (Nat.cast_ne_zero.mpr hfraction) (by positivity)
    · positivity
  rw [toReal]
  split
  · exact neg_ne_zero.mpr hsize
  · exact hsize

namespace RealScore

variable {up down : ℝ → ℝ}

/-- A score that clamping leaves as it is. -/
structure InUnit (x : RealScore up down) : Prop where
  abs_le : |x.real| ≤ 1
  clampUnit : Scalar.clampUnit x = x

theorem inUnit_of_abs_le {x : RealScore up down} (h : |x.real| ≤ 1) : x.InUnit := by
  refine ⟨h, ?_⟩
  obtain ⟨hlow, hhigh⟩ := abs_le.mp h
  have hbelow : ¬Scalar.less x (-1) = true := by simpa using hlow
  have habove : ¬Scalar.less 1 x = true := by simpa using hhigh
  rw [Scalar.clampUnit, if_neg hbelow, if_neg habove]

theorem ranked : Scalar.Ranked (RealScore up down) where
  asymm x y _ _ h := by
    rw [Bool.eq_false_iff, ne_eq, less_iff]
    exact ((less_iff x y).mp h).not_gt
  trans x y z _ _ _ hxy hyz := by
    rw [Bool.eq_false_iff, ne_eq, less_iff, not_lt] at hxy hyz ⊢
    exact hxy.trans hyz

end RealScore

namespace CosineSums

variable {as bs : List (FeatureId × Binary32)}

/-! ## Exact sums -/

/-- The square of the length of a list of entries. -/
noncomputable def energy (as : List (FeatureId × Binary32)) : ℝ :=
  (as.map fun a => a.2.toReal ^ 2).sum

noncomputable def innerProduct (as bs : List (FeatureId × Binary32)) : ℝ :=
  ((shared as bs).map fun t => t.2.1.toReal * t.2.2.toReal).sum

/-- What the cosine is in exact arithmetic, where a division by zero gives zero. -/
noncomputable def ratio (as bs : List (FeatureId × Binary32)) : ℝ :=
  innerProduct as bs / (√(energy as) * √(energy bs))

theorem energy_nonneg (as : List (FeatureId × Binary32)) : 0 ≤ energy as :=
  List.sum_nonneg (List.forall_mem_map.mpr fun _ _ => sq_nonneg _)

theorem energy_pos (h : as ≠ []) (hnonzero : ∀ a ∈ as, a.2.isZero = false) : 0 < energy as := by
  refine List.sum_pos _ (fun x hx => ?_) (by simpa using h)
  obtain ⟨a, ha, rfl⟩ := List.mem_map.mp hx
  have := Binary32.toReal_ne_zero (hnonzero a ha)
  positivity

theorem innerProduct_self (ha : as.Pairwise fun a b => a.1 < b.1) :
    innerProduct as as = energy as := by
  simp only [innerProduct, energy, shared_self ha, List.map_map, Function.comp_def, sq]

theorem sum_squares_shared_le (as bs : List (FeatureId × Binary32)) :
    ((shared as bs).map fun t => t.2.1.toReal ^ 2).sum ≤ energy as := by
  have hsub : ((shared as bs).map fun t => t.2.1.toReal ^ 2).Sublist
      (as.map fun a => a.2.toReal ^ 2) := by
    rw [shared, List.map_filterMap, ← List.filterMap_eq_map]
    induction as with
    | nil => exact .slnil
    | cons a rest ih =>
      rw [List.filterMap_cons, List.filterMap_cons]
      cases bs.lookup a.1 with
      | none => exact ih.cons _
      | some w => exact ih.cons_cons _
  exact hsub.sum_le_sum (List.forall_mem_map.mpr fun _ _ => sq_nonneg _)

/-- The inequality of Cauchy and Schwarz. Only the shared columns have products, and they have at
most the squares of all. -/
theorem innerProduct_sq_le (ha : as.Pairwise fun a b => a.1 < b.1)
    (hb : bs.Pairwise fun a b => a.1 < b.1) : innerProduct as bs ^ 2 ≤ energy as * energy bs := by
  let terms := shared as bs
  have hleft : (terms.map fun t => t.2.1.toReal ^ 2).sum ≤ energy as := sum_squares_shared_le as bs
  have hright : (terms.map fun t => t.2.2.toReal ^ 2).sum ≤ energy bs := by
    have h := sum_squares_shared_le bs as
    rwa [shared_swap ha hb, List.map_map] at h
  calc innerProduct as bs ^ 2
      ≤ (terms.map fun t => t.2.1.toReal ^ 2).sum * (terms.map fun t => t.2.2.toReal ^ 2).sum := by
        simp only [innerProduct, ← Fin.sum_univ_fun_getElem]
        exact Finset.sum_mul_sq_le_sq_mul_sq _ _ _
    _ ≤ energy as * energy bs :=
        mul_le_mul hleft hright (List.sum_nonneg (List.forall_mem_map.mpr fun _ _ => sq_nonneg _))
          (energy_nonneg as)

theorem abs_ratio_le_one (ha : as.Pairwise fun a b => a.1 < b.1)
    (hb : bs.Pairwise fun a b => a.1 < b.1) : |ratio as bs| ≤ 1 := by
  have hlengths : 0 ≤ √(energy as) * √(energy bs) := by positivity
  rw [ratio, abs_div, abs_of_nonneg hlengths]
  refine div_le_one_of_le₀ ?_ hlengths
  rw [← Real.sqrt_mul (energy_nonneg as)]
  exact Real.abs_le_sqrt (innerProduct_sq_le ha hb)

theorem ratio_self (ha : as.Pairwise fun a b => a.1 < b.1) (h : as ≠ [])
    (hnonzero : ∀ a ∈ as, a.2.isZero = false) : ratio as as = 1 := by
  have hpos := energy_pos h hnonzero
  rw [ratio, innerProduct_self ha, Real.mul_self_sqrt hpos.le, div_self hpos.ne']

/-! ## The joined sums -/

variable {up down : ℝ → ℝ}

@[simp] theorem real_addSquares (sum : RealScore up down) (as : List (FeatureId × Binary32)) :
    (addSquares sum as).real = sum.real + energy as := by
  unfold addSquares energy
  induction as generalizing sum with
  | nil => simp
  | cons a rest ih =>
    rw [List.foldl_cons, ih, List.map_cons, List.sum_cons, ← add_assoc]
    simp [square, sq]

@[simp] theorem real_addProducts (sum : RealScore up down)
    (terms : List (FeatureId × Binary32 × Binary32)) :
    (addProducts sum terms).real =
      sum.real + (terms.map fun t => t.2.1.toReal * t.2.2.toReal).sum := by
  unfold addProducts
  induction terms generalizing sum with
  | nil => simp
  | cons t rest ih =>
    rw [List.foldl_cons, ih, List.map_cons, List.sum_cons, ← add_assoc]
    simp

/-- What is clamped to give the cosine. -/
def quotient {S : Type} [Scalar S] (s : CosineSums S) : S := s.common / Scalar.sqrt (s.left * s.right)

theorem real_quotient_join (ha : as.Pairwise fun a b => a.1 < b.1)
    (hb : bs.Pairwise fun a b => a.1 < b.1) :
    ((zero : CosineSums (RealScore up down)).join as bs).quotient.real = ratio as bs := by
  rw [join_eq zero ha hb]
  simp [quotient, zero, ratio, innerProduct, Real.sqrt_mul (energy_nonneg as)]

theorem inUnit_quotient_join (ha : as.Pairwise fun a b => a.1 < b.1)
    (hb : bs.Pairwise fun a b => a.1 < b.1) :
    ((zero : CosineSums (RealScore up down)).join as bs).quotient.InUnit :=
  RealScore.inUnit_of_abs_le ((real_quotient_join ha hb).symm ▸ abs_ratio_le_one ha hb)

theorem cosine_join (ha : as.Pairwise fun a b => a.1 < b.1)
    (hb : bs.Pairwise fun a b => a.1 < b.1) :
    ((zero : CosineSums (RealScore up down)).join as bs).cosine = ⟨ratio as bs⟩ := by
  have hquotient : ((zero : CosineSums (RealScore up down)).join as bs).quotient.real = ratio as bs :=
    real_quotient_join ha hb
  have hunit : ((zero : CosineSums (RealScore up down)).join as bs).quotient.InUnit :=
    inUnit_quotient_join ha hb
  generalize (zero : CosineSums (RealScore up down)).join as bs = s at *
  rw [cosine]
  split
  · -- where a sum is zero, so is the quotient
    rename_i hzero
    simp only [Bool.or_eq_true, RealScore.isZero_iff] at hzero
    rw [← hquotient]
    ext
    rcases hzero with (h | h) | h <;> simp [quotient, h]
  · rw [show s.common / Scalar.sqrt (s.left * s.right) = s.quotient from rfl,
      hunit.clampUnit]
    exact RealScore.ext hquotient

end CosineSums

theorem Row.cosine_real {up down : ℝ → ℝ} (a b : Row) :
    (a.cosine b : RealScore up down) = ⟨CosineSums.ratio a.entries b.entries⟩ :=
  CosineSums.cosine_join a.ascending b.ascending

end Relatedness
