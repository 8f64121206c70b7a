import Mathlib.Analysis.SpecialFunctions.Pow.Real
import Relatedness.Proofs.Percentile.Knots

/-! Scores as exact real numbers, and the curve in terms of them. Nothing is rounded; where the
scores next to a score stand is given by two functions, which only have to lead up and down. -/

namespace Relatedness

/-- The exact value of a number, which the bits of an infinity or a NaN do not have. -/
noncomputable def Binary32.toReal (x : Binary32) : ℝ :=
  let exponent : Nat := x.magnitude / 2 ^ 23
  let fraction : ℝ := (x.magnitude % 2 ^ 23 : Nat)
  let size : ℝ := if exponent = 0 then fraction * 2 ^ (-149 : ℤ)
    else (2 ^ 23 + fraction) * 2 ^ ((exponent : ℤ) - 150)
  if x.isNegative then -size else size

/-- A score that is a real number, with the next score up and the next score down. -/
@[ext] structure RealScore (up down : ℝ → ℝ) where
  real : ℝ

namespace RealScore

variable {up down : ℝ → ℝ}

open Classical in
noncomputable instance : Scale (RealScore up down) where
  zero := ⟨0⟩
  one := ⟨1⟩
  neg x := ⟨-x.real⟩
  add x y := ⟨x.real + y.real⟩
  sub x y := ⟨x.real - y.real⟩
  mul x y := ⟨x.real * y.real⟩
  div x y := ⟨x.real / y.real⟩
  ofBinary32 x := ⟨x.toReal⟩
  ofNat n := ⟨n⟩
  sqrt x := ⟨√x.real⟩
  same x y := decide (x.real = y.real)
  less x y := decide (x.real < y.real)
  isNaN _ := false
  nan := ⟨0⟩ -- no score asks for it
  isFinite _ := true
  totalLe x y := decide (x.real ≤ y.real)
  nextUp x := ⟨up x.real⟩
  nextDown x := ⟨down x.real⟩
  halfPower x := ⟨(1 / 2 : ℝ) ^ x.real⟩
  minPositive := ⟨2 ^ (-1022 : ℤ)⟩

variable (x y : RealScore up down)

@[simp] theorem real_zero : (0 : RealScore up down).real = 0 := rfl
@[simp] theorem real_one : (1 : RealScore up down).real = 1 := rfl
@[simp] theorem real_neg : (-x).real = -x.real := rfl
@[simp] theorem real_add : (x + y).real = x.real + y.real := rfl
@[simp] theorem real_sub : (x - y).real = x.real - y.real := rfl
@[simp] theorem real_mul : (x * y).real = x.real * y.real := rfl
@[simp] theorem real_div : (x / y).real = x.real / y.real := rfl
@[simp] theorem real_sqrt : (Scalar.sqrt x).real = √x.real := rfl
@[simp] theorem real_ofBinary32 (w : Binary32) :
    (Scalar.ofBinary32 w : RealScore up down).real = w.toReal := rfl
@[simp] theorem real_ofNat (n : Nat) : (Scalar.ofNat n : RealScore up down).real = n := rfl
@[simp] theorem real_nextUp : (Scale.nextUp x).real = up x.real := rfl
@[simp] theorem real_nextDown : (Scale.nextDown x).real = down x.real := rfl
@[simp] theorem real_halfPower : (Scale.halfPower x).real = (1 / 2 : ℝ) ^ x.real := rfl
@[simp] theorem real_minPositive :
    (Scale.minPositive : RealScore up down).real = 2 ^ (-1022 : ℤ) := rfl

@[simp] theorem isNaN_eq_false : Scalar.isNaN x = false := rfl
@[simp] theorem less_iff : Scalar.less x y = true ↔ x.real < y.real := decide_eq_true_iff
@[simp] theorem same_iff : Scalar.same x y = true ↔ x.real = y.real := decide_eq_true_iff
@[simp] theorem totalLe_iff : Scale.totalLe x y = true ↔ x.real ≤ y.real := decide_eq_true_iff

@[simp] theorem atMost_iff : Scalar.atMost x y = true ↔ x.real ≤ y.real := by
  rw [Scalar.atMost, Bool.or_eq_true, less_iff, same_iff, le_iff_lt_or_eq]

@[simp] theorem isPositive_iff : Scalar.isPositive x = true ↔ 0 < x.real := less_iff 0 x
@[simp] theorem isZero_iff : Scalar.isZero x = true ↔ x.real = 0 := same_iff x 0

@[simp] theorem real_lesser : (Scalar.lesser x y).real = min x.real y.real := by
  have hlesser : Scalar.lesser x y = if Scalar.less y x then y else x := rfl
  rw [hlesser]
  split
  · rename_i h
    rw [min_eq_right ((less_iff y x).mp h).le]
  · rename_i h
    rw [min_eq_left (not_lt.mp fun hlt => h ((less_iff y x).mpr hlt))]

@[simp] theorem real_greater : (Scalar.greater x y).real = max x.real y.real := by
  have hgreater : Scalar.greater x y = if Scalar.less x y then y else x := rfl
  rw [hgreater]
  split
  · rename_i h
    rw [max_eq_right ((less_iff x y).mp h).le]
  · rename_i h
    rw [max_eq_left (not_lt.mp fun hlt => h ((less_iff x y).mpr hlt))]

theorem orderedBy : Scale.OrderedBy (real : RealScore up down → ℝ) where
  less_iff := by simp
  same_iff := by simp

/-- There is always room for a step up. -/
theorem climbs (hup : ∀ z, z < up z) :
    Scale.Climbs (real : RealScore up down → ℝ) fun _ _ => True where
  isNaN _ := rfl
  up _ := ⟨hup _, trivial⟩
  fewer _ := trivial

end RealScore

namespace Curve

variable {up down : ℝ → ℝ}

/-- What holds of a curve of a sample: its knots ascend from the least value of the sample, and
not all of them lie below the greatest. -/
structure Rising (c : Curve (RealScore up down)) : Prop where
  nonempty : 0 < c.knots.size
  ascending : c.knots.toList.Pairwise fun a b => a.real < b.real
  low : c.knots[0].real = c.low.real
  high : c.high.real ≤ (c.knots[c.knots.size - 1]).real
  ordered : c.low.real ≤ c.high.real
  halfLife : 0 < c.halfLife.real

theorem Rising.ascends {c : Curve (RealScore up down)} (hc : c.Rising) :
    c.Ascends RealScore.real where
  nonempty := hc.nonempty
  isNaN _ _ := rfl
  ascending := hc.ascending
  low := RealScore.ext hc.low
  high := hc.high

/-- The curve of a sorted sample is rising. -/
theorem rising_of_sorted (hup : ∀ y, y < up y) {sample : List (RealScore up down)}
    (hsorted : sample.Pairwise fun a b => a.real ≤ b.real) {c : Curve (RealScore up down)}
    (h : ofSorted? sample = some c) : c.Rising := by
  have hascends := ascends_of_sorted RealScore.orderedBy (RealScore.climbs hup)
    (fun _ _ => trivial) h
  cases sample with
  | nil => cases h
  | cons x rest =>
    cases h
    refine ⟨hascends.nonempty, hascends.ascending, rfl, hascends.high, ?_, ?_⟩
    · rcases List.mem_cons.mp (List.getLast_mem (List.cons_ne_nil x rest)) with heq | hmem
      · rw [heq]
      · exact List.rel_of_pairwise_cons hsorted hmem
    · change 0 < (if Scalar.isPositive _ then _ else _ : RealScore up down).real
      split
      · rename_i hpos
        rw [RealScore.isPositive_iff] at hpos
        simpa using hpos
      · exact one_pos

end Curve
end Relatedness
