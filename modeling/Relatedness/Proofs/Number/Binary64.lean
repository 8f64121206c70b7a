import Mathlib.Data.Int.Order.Basic
import Mathlib.Data.Nat.Bitwise
import Relatedness.Scalar

/-! The order of the numbers and their neighbours. Both are read off the levels: a number that is
not NaN is told from the others by its level, up to the sign of zero, and the next one up is one
level higher, whichever way the bits have to be counted for that. -/

namespace Relatedness.Binary64

variable {x y : Binary64}

/-! ## Signs and magnitudes -/

theorem magnitude_lt (x : Binary64) : x.magnitude < 2 ^ 63 := Nat.mod_lt _ (by decide)

theorem toNat_bits (x : Binary64) :
    x.bits.toNat = x.magnitude + if x.isNegative then 2 ^ 63 else 0 := by
  have := x.bits.toNat_lt
  simp only [magnitude, isNegative, Nat.one_shiftLeft, decide_eq_true_eq]
  split <;> omega

theorem ext_iff : x = y ↔ x.isNegative = y.isNegative ∧ x.magnitude = y.magnitude := by
  refine ⟨fun h => h ▸ ⟨rfl, rfl⟩, fun ⟨hsign, hmagnitude⟩ => ?_⟩
  have hbits : x.bits.toNat = y.bits.toNat := by rw [toNat_bits, toNat_bits, hsign, hmagnitude]
  cases x
  cases y
  rw [mk.injEq]
  exact UInt64.toNat_inj.mp hbits

theorem level_of_toNat_bits {size : Nat} (negative : Bool) (hsize : size ≤ infiniteMagnitude)
    (h : x.bits.toNat = size + if negative then 2 ^ 63 else 0) :
    x.isNaN = false ∧ x.level = if negative then -(size : Int) else size := by
  have hlt : size < 2 ^ 63 := Nat.lt_of_le_of_lt hsize (by decide)
  have hparts : x.isNegative = negative ∧ x.magnitude = size := by
    rw [isNegative, magnitude, h, Nat.one_shiftLeft]
    cases negative with
    | false =>
      simp only [Bool.false_eq_true, if_false, decide_eq_false_iff_not]
      omega
    | true =>
      simp only [if_true, decide_eq_true_eq]
      omega
  rw [isNaN, level, hparts.1, hparts.2]
  exact ⟨decide_eq_false (by omega), rfl⟩

theorem toNat_bits_negate (x : Binary64) : x.negate.bits.toNat = x.bits.toNat ^^^ 2 ^ 63 :=
  UInt64.toNat_xor x.bits 0x8000000000000000

@[simp] theorem magnitude_negate (x : Binary64) : x.negate.magnitude = x.magnitude := by
  rw [magnitude, magnitude, toNat_bits_negate, Nat.one_shiftLeft, Nat.xor_mod_two_pow, Nat.mod_self,
    Nat.xor_zero]

@[simp] theorem isNegative_negate (x : Binary64) : x.negate.isNegative = !x.isNegative := by
  have hbound := x.bits.toNat_lt
  have hhigh : x.negate.bits.toNat / 2 ^ 63 = x.bits.toNat / 2 ^ 63 ^^^ 1 := by
    rw [toNat_bits_negate, Nat.xor_div_two_pow, Nat.div_self (by decide)]
  rw [isNegative, isNegative, Nat.one_shiftLeft, ← decide_not, decide_eq_decide]
  rcases show x.bits.toNat / 2 ^ 63 = 0 ∨ x.bits.toNat / 2 ^ 63 = 1 by omega with hzero | hone
  · rw [hzero, Nat.zero_xor] at hhigh
    omega
  · rw [hone, Nat.xor_self] at hhigh
    omega

@[simp] theorem isNaN_negate (x : Binary64) : x.negate.isNaN = x.isNaN := by
  rw [isNaN, magnitude_negate, isNaN]

@[simp] theorem level_negate (x : Binary64) : x.negate.level = -x.level := by
  rw [level, level, isNegative_negate, magnitude_negate]
  cases x.isNegative <;> simp

theorem natAbs_level (x : Binary64) : x.level.natAbs = x.magnitude := by
  rw [level]
  split <;> simp

/-- Besides zero, every level has one number. -/
theorem eq_of_level (hlevel : x.level = y.level) (hzero : x.level ≠ 0) : x = y := by
  have hmagnitude : x.magnitude = y.magnitude := by rw [← natAbs_level, ← natAbs_level, hlevel]
  refine ext_iff.mpr ⟨?_, hmagnitude⟩
  simp only [level] at hlevel hzero
  cases hx : x.isNegative <;> cases hy : y.isNegative <;>
    simp only [hx, hy, Bool.false_eq_true, if_false, if_true] at hlevel hzero ⊢ <;> omega

/-! ## Order -/

theorem isNaN_of_isFinite (h : x.isFinite = true) : x.isNaN = false := by
  rw [isFinite, decide_eq_true_eq] at h
  rw [isNaN, decide_eq_false_iff_not]
  omega

theorem isFinite_iff : x.isFinite = true ↔
    -(infiniteMagnitude : Int) < x.level ∧ x.level < infiniteMagnitude := by
  rw [isFinite, decide_eq_true_eq, ← natAbs_level]
  omega

theorem less_iff :
    less x y = true ↔ x.isNaN = false ∧ y.isNaN = false ∧ x.level < y.level := by
  simp [less, and_assoc]

theorem same_iff :
    same x y = true ↔ x.isNaN = false ∧ y.isNaN = false ∧ x.level = y.level := by
  simp [same, and_assoc]

theorem atMost_iff :
    Scalar.atMost x y = true ↔ x.isNaN = false ∧ y.isNaN = false ∧ x.level ≤ y.level := by
  change (less x y || same x y) = true ↔ _
  rw [Bool.or_eq_true, less_iff, same_iff, le_iff_lt_or_eq]
  tauto

theorem totalLe_iff : totalLe x y = true ↔ x.totalRank ≤ y.totalRank := decide_eq_true_iff

theorem totalLe_trans (x y z : Binary64) (hxy : totalLe x y = true) (hyz : totalLe y z = true) :
    totalLe x z = true := by
  rw [totalLe_iff] at hxy hyz ⊢
  exact hxy.trans hyz

theorem totalLe_total (x y : Binary64) : (totalLe x y || totalLe y x) = true := by
  rw [Bool.or_eq_true, totalLe_iff, totalLe_iff]
  exact Int.le_total _ _

/-- Numbers with other bits have other ranks: the ranks of the negative ones lie below zero. -/
theorem totalLe_antisymm (hxy : totalLe x y = true) (hyx : totalLe y x = true) : x = y := by
  have hrank : x.totalRank = y.totalRank :=
    Int.le_antisymm (totalLe_iff.mp hxy) (totalLe_iff.mp hyx)
  refine ext_iff.mpr ?_
  simp only [totalRank] at hrank
  cases hx : x.isNegative <;> cases hy : y.isNegative <;>
    simp only [hx, hy, Bool.false_eq_true, if_false, if_true, reduceCtorEq, true_and, false_and]
      at hrank ⊢ <;> omega

/-- The total order refines that of the numbers, in which the two zeros are one. -/
theorem level_le_of_totalLe (h : totalLe x y = true) : x.level ≤ y.level := by
  rw [totalLe_iff] at h
  simp only [totalRank] at h
  simp only [level]
  cases hx : x.isNegative <;> cases hy : y.isNegative <;>
    simp only [hx, hy, Bool.false_eq_true, if_false, if_true] at h ⊢ <;> omega

/-! ## Neighbours -/

/-- Going up means counting the bits up from a positive number and down from a negative one. -/
theorem nextUp_spec (hnan : x.isNaN = false) (h : x.level < infiniteMagnitude) :
    x.nextUp.isNaN = false ∧ x.nextUp.level = x.level + 1 := by
  have hbits := x.toNat_bits
  have hsize : x.magnitude ≤ infiniteMagnitude := by simpa [isNaN] using hnan
  have hpositive : less ⟨0⟩ x = true ↔ 0 < x.level := by
    rw [less_iff]
    exact ⟨fun h => h.2.2, fun h => ⟨rfl, hnan, h⟩⟩
  simp only [nextUp, hpositive]
  split
  · have hlevel : x.level = 0 := by rw [← Int.natAbs_eq_zero, natAbs_level, ‹x.magnitude = 0›]
    rw [hlevel]
    exact ⟨by decide, by decide⟩
  cases hsign : x.isNegative with
  | false =>
    have hlevel : x.level = x.magnitude := by rw [level, hsign]; rfl
    have hcount : (x.bits + 1).toNat = x.magnitude + 1 := by
      rw [hsign, if_neg Bool.false_ne_true, Nat.add_zero] at hbits
      have := x.magnitude_lt
      rw [UInt64.toNat_add, hbits]
      exact Nat.mod_eq_of_lt (show x.magnitude + 1 < 2 ^ 64 by omega)
    rw [if_pos (by omega), hlevel]
    have hroom : x.magnitude + 1 ≤ infiniteMagnitude := by omega
    exact level_of_toNat_bits (x := ⟨x.bits + 1⟩) false hroom hcount
  | true =>
    have hlevel : x.level = -x.magnitude := by rw [level, hsign]; rfl
    have hcount : (x.bits - 1).toNat = x.magnitude - 1 + 2 ^ 63 := by
      rw [hsign, if_pos rfl] at hbits
      have hone : (1 : UInt64) ≤ x.bits := by
        rw [UInt64.le_iff_toNat_le, hbits]
        exact Nat.le_add_left_of_le (by decide)
      rw [UInt64.toNat_sub_of_le _ _ hone, hbits]
      change x.magnitude + 2 ^ 63 - 1 = _
      omega
    rw [if_neg (by omega), hlevel]
    obtain ⟨hnan', hlevel'⟩ :=
      level_of_toNat_bits (x := ⟨x.bits - 1⟩) true (by omega) hcount
    exact ⟨hnan', hlevel'.trans (by rw [if_pos rfl]; omega)⟩

theorem nextDown_spec (hnan : x.isNaN = false) (h : -(infiniteMagnitude : Int) < x.level) :
    x.nextDown.isNaN = false ∧ x.nextDown.level = x.level - 1 := by
  obtain ⟨hnan', hlevel⟩ := nextUp_spec (x := x.negate) (by rwa [isNaN_negate])
    (by rw [level_negate]; omega)
  rw [nextDown, isNaN_negate, level_negate, hlevel, level_negate]
  exact ⟨hnan', by omega⟩

/-- No number lies between a finite one and the next one up. -/
theorem nextUp_least (h : x.isFinite = true) :
    less x x.nextUp = true ∧ ∀ y, less x y = true → Scalar.atMost x.nextUp y = true := by
  have hnan := isNaN_of_isFinite h
  obtain ⟨hnan', hlevel⟩ := nextUp_spec hnan (isFinite_iff.mp h).2
  refine ⟨less_iff.mpr ⟨hnan, hnan', by omega⟩, fun y hy => ?_⟩
  obtain ⟨_, hy, hlt⟩ := less_iff.mp hy
  exact atMost_iff.mpr ⟨hnan', hy, by omega⟩

theorem nextDown_greatest (h : x.isFinite = true) :
    less x.nextDown x = true ∧ ∀ y, less y x = true → Scalar.atMost y x.nextDown = true := by
  have hnan := isNaN_of_isFinite h
  obtain ⟨hnan', hlevel⟩ := nextDown_spec hnan (isFinite_iff.mp h).1
  refine ⟨less_iff.mpr ⟨hnan', hnan, by omega⟩, fun y hy => ?_⟩
  obtain ⟨hy, _, hlt⟩ := less_iff.mp hy
  exact atMost_iff.mpr ⟨hy, hnan', by omega⟩

/-- Up and down again leads back, from `-0` to the other zero. -/
theorem nextDown_nextUp (h : x.isFinite = true) :
    same x.nextUp.nextDown x = true ∧ (same x ⟨0⟩ = false → x.nextUp.nextDown = x) := by
  have hnan := isNaN_of_isFinite h
  obtain ⟨hlow, hhigh⟩ := isFinite_iff.mp h
  obtain ⟨hnan', hup⟩ := nextUp_spec hnan hhigh
  obtain ⟨hnan'', hdown⟩ := nextDown_spec hnan' (by omega)
  have hlevel : x.nextUp.nextDown.level = x.level := by omega
  refine ⟨same_iff.mpr ⟨hnan'', hnan, hlevel⟩, fun hzero => eq_of_level hlevel ?_⟩
  rw [hlevel]
  intro hlevel
  exact ne_true_of_eq_false hzero (same_iff.mpr ⟨hnan, rfl, hlevel⟩)

end Relatedness.Binary64
