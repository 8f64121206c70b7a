import Relatedness.Proofs.Percentile.RealScore

/-! The curve of a sample of exact scores never falls and stays between 0 and 1. It has three
parts, below, within and above the sample, each of which rises and ends where the next one
begins. -/

namespace Relatedness.Curve

variable {up down : ℝ → ℝ} {c : Curve (RealScore up down)} {x y : RealScore up down} {i j : Nat}

/-- The height of a knot. -/
noncomputable def level (c : Curve (RealScore up down)) (i : Nat) : ℝ :=
  (i + 1) / (c.knots.size + 1)

@[simp] theorem real_height (i : Nat) : (c.height i).real = c.level i := by
  simp [height, level]

theorem level_pos (i : Nat) : 0 < c.level i := by
  unfold level
  positivity

theorem level_lt_one (h : i < c.knots.size) : c.level i < 1 := by
  have hi : (i : ℝ) < c.knots.size := by exact_mod_cast h
  unfold level
  rw [div_lt_one (by positivity)]
  linarith

theorem level_lt (h : i < j) : c.level i < c.level j := by
  have hij : (i : ℝ) < j := by exact_mod_cast h
  unfold level
  gcongr

theorem level_le (h : i ≤ j) : c.level i ≤ c.level j := by
  rcases h.lt_or_eq with h | rfl
  · exact (level_lt h).le
  · exact le_rfl

theorem level_zero : c.level 0 = 1 / (c.knots.size + 1) := by
  simp [level]

theorem level_last (h : 0 < c.knots.size) :
    c.level (c.knots.size - 1) = c.knots.size / (c.knots.size + 1) := by
  rw [level, Nat.cast_pred h, sub_add_cancel]

/-! ## Outside of the sample -/

theorem real_value_below (h : x.real < c.low.real) :
    (c.value x).real = max (min
      (c.level 0 * (1 / 2) ^ ((c.low.real - x.real) / c.halfLife.real)) (down (c.level 0)))
      (2 ^ (-1022 : ℤ)) := by
  unfold value
  simp only [(RealScore.less_iff x c.low).mpr h, if_true]
  simp [approach]

theorem real_value_above (hordered : c.low.real ≤ c.high.real) (h : c.high.real < x.real) :
    (c.value x).real = min (max
      (1 + (c.level (c.knots.size - 1) - 1) * (1 / 2) ^ ((x.real - c.high.real) / c.halfLife.real))
      (up (c.level (c.knots.size - 1)))) (down 1) := by
  have hlow : ¬Scalar.less x c.low = true := by
    rw [RealScore.less_iff]
    linarith
  have hsame : ¬Scalar.same x c.high = true := by
    rw [RealScore.same_iff]
    exact h.ne'
  unfold value
  simp only [hlow, hsame, (RealScore.atMost_iff c.high x).mpr h.le, if_true]
  simp [approach]

theorem real_value_high (hordered : c.low.real ≤ c.high.real) (h : x.real = c.high.real) :
    (c.value x).real = c.level (c.knots.size - 1) := by
  have hlow : ¬Scalar.less x c.low = true := by
    rw [RealScore.less_iff]
    linarith
  unfold value
  simp only [hlow, (RealScore.atMost_iff c.high x).mpr h.ge, (RealScore.same_iff x c.high).mpr h,
    if_true]
  simp

theorem halfPower_le {s t : ℝ} (h : s ≤ t) : (1 / 2 : ℝ) ^ t ≤ (1 / 2) ^ s :=
  Real.rpow_le_rpow_of_exponent_ge (by norm_num) (by norm_num) h

theorem value_below_mono (hhalf : 0 < c.halfLife.real) (hy : y.real < c.low.real)
    (h : x.real ≤ y.real) : (c.value x).real ≤ (c.value y).real := by
  rw [real_value_below (h.trans_lt hy), real_value_below hy]
  have hpower : (1 / 2 : ℝ) ^ ((c.low.real - x.real) / c.halfLife.real) ≤
      (1 / 2) ^ ((c.low.real - y.real) / c.halfLife.real) := halfPower_le (by gcongr)
  refine max_le_max_right _ (min_le_min_right _ ?_)
  exact mul_le_mul_of_nonneg_left hpower (level_pos 0).le

theorem value_above_mono (hhalf : 0 < c.halfLife.real) (hordered : c.low.real ≤ c.high.real)
    (hnonempty : 0 < c.knots.size) (hx : c.high.real < x.real) (h : x.real ≤ y.real) :
    (c.value x).real ≤ (c.value y).real := by
  rw [real_value_above hordered hx, real_value_above hordered (hx.trans_le h)]
  have hlevel := level_lt_one (c := c) (i := c.knots.size - 1) (by omega)
  have hpower : (1 / 2 : ℝ) ^ ((y.real - c.high.real) / c.halfLife.real) ≤
      (1 / 2) ^ ((x.real - c.high.real) / c.halfLife.real) := halfPower_le (by gcongr)
  refine min_le_min_right _ (max_le_max_right _ ?_)
  nlinarith

/-! ## Within the sample -/

/-- A score within the sample lies between two knots, and its value on the line between them. -/
theorem Rising.exists_bracket (hc : c.Rising) (hlow : c.low.real ≤ x.real)
    (hhigh : x.real < c.high.real) :
    ∃ (i : Nat) (h : i + 1 < c.knots.size), c.knots[i].real ≤ x.real ∧
      x.real < c.knots[i + 1].real ∧
      (c.value x).real = c.level i + (x.real - c.knots[i].real) /
        (c.knots[i + 1].real - c.knots[i].real) * (c.level (i + 1) - c.level i) := by
  obtain ⟨i, hi, _, hbefore, hbehind, hvalue⟩ := hc.ascends.exists_bracket RealScore.orderedBy
    ((RealScore.atMost_iff c.low x).mpr hlow) ((RealScore.less_iff x c.high).mpr hhigh)
  refine ⟨i, hi, (RealScore.atMost_iff _ _).mp hbefore, (RealScore.less_iff _ _).mp hbehind, ?_⟩
  rw [hvalue]
  simp

/-- Between two knots the value is between their heights. -/
theorem between_of_bracket {a b s t z : ℝ} (hab : a ≤ z) (hzb : z < b) (hst : s < t) :
    s ≤ s + (z - a) / (b - a) * (t - s) ∧ s + (z - a) / (b - a) * (t - s) < t := by
  have hwidth : 0 < b - a := by linarith
  have hpart : 0 ≤ (z - a) / (b - a) := div_nonneg (by linarith) hwidth.le
  have hpart' : (z - a) / (b - a) < 1 := (div_lt_one hwidth).mpr (by linarith)
  constructor
  · nlinarith
  · nlinarith

theorem Rising.value_within (hc : c.Rising) (hlow : c.low.real ≤ x.real)
    (hhigh : x.real < c.high.real) :
    c.level 0 ≤ (c.value x).real ∧ (c.value x).real < c.level (c.knots.size - 1) := by
  obtain ⟨i, hi, hbefore, hbehind, hvalue⟩ := hc.exists_bracket hlow hhigh
  obtain ⟨hge, hlt⟩ := between_of_bracket hbefore hbehind (level_lt (c := c) (Nat.lt_succ_self i))
  rw [hvalue]
  exact ⟨(level_le (Nat.zero_le i)).trans hge, hlt.trans_le (level_le (by omega))⟩

/-- Within the sample the value does not fall: on one line between two knots it rises, and a later
line begins where an earlier one has ended. -/
theorem Rising.value_within_mono (hc : c.Rising) (hlow : c.low.real ≤ x.real)
    (hhigh : y.real < c.high.real) (h : x.real ≤ y.real) :
    (c.value x).real ≤ (c.value y).real := by
  obtain ⟨i, hi, hbefore, hbehind, hvalue⟩ := hc.exists_bracket hlow (h.trans_lt hhigh)
  obtain ⟨j, hj, hbefore', hbehind', hvalue'⟩ := hc.exists_bracket (hlow.trans h) hhigh
  rw [hvalue, hvalue']
  rcases lt_trichotomy i j with hij | rfl | hji
  · have hupper := (between_of_bracket hbefore hbehind (level_lt (c := c) (Nat.lt_succ_self i))).2
    have hlower := (between_of_bracket hbefore' hbehind' (level_lt (c := c) (Nat.lt_succ_self j))).1
    exact (hupper.le.trans (level_le hij)).trans hlower
  · have hwidth : 0 < c.knots[i + 1].real - c.knots[i].real := by linarith
    have hrise : 0 ≤ c.level (i + 1) - c.level i := by
      linarith [level_lt (c := c) (Nat.lt_succ_self i)]
    gcongr
  · -- a later knot would stand before the earlier score
    have hknots := hc.ascends.place_le (Nat.succ_le_of_lt hji) (by omega)
    linarith

/-- Where the last knot has not been moved, the value of a knot is its height. -/
theorem Rising.value_knot (hc : c.Rising)
    (hlast : ∀ h : c.knots.size - 1 < c.knots.size, c.knots[c.knots.size - 1].real = c.high.real)
    (hi : i < c.knots.size) : (c.value c.knots[i]).real = c.level i := by
  have hhigh := hlast (by omega)
  rcases (Nat.le_sub_one_of_lt hi).lt_or_eq with hlt | rfl
  · have hbelow := hc.ascends.place_lt hlt (by omega)
    obtain ⟨j, hj, hbefore, hbehind, hvalue⟩ :=
      hc.exists_bracket (hc.low ▸ hc.ascends.place_le (Nat.zero_le i) hi) (hhigh ▸ hbelow)
    obtain rfl : j = i := by
      rcases lt_trichotomy j i with hji | heq | hij
      · exact absurd (hc.ascends.place_le (Nat.succ_le_of_lt hji) hi) (not_le.mpr hbehind)
      · exact heq
      · exact absurd hbefore (not_le.mpr (hc.ascends.place_lt hij (by omega)))
    rw [hvalue]
    simp
  · exact real_value_high hc.ordered hhigh

/-! ## All scores -/

/-- The steps next to the lowest and the highest knot leave room for the values outside. -/
structure Roomy (c : Curve (RealScore up down)) : Prop where
  below : ∀ z, down z < z
  above : ∀ z, z < up z
  low : 2 ^ (-1022 : ℤ) ≤ down (c.level 0)
  high : up (c.level (c.knots.size - 1)) ≤ down 1

theorem value_below (hroom : c.Roomy) (h : x.real < c.low.real) :
    0 < (c.value x).real ∧ (c.value x).real < c.level 0 := by
  rw [real_value_below h]
  constructor
  · exact lt_max_of_lt_right (by positivity)
  · refine (max_le (min_le_right _ _) hroom.low).trans_lt (hroom.below _)

theorem value_above (hroom : c.Roomy) (hordered : c.low.real ≤ c.high.real)
    (h : c.high.real < x.real) :
    c.level (c.knots.size - 1) < (c.value x).real ∧ (c.value x).real < 1 := by
  rw [real_value_above hordered h]
  constructor
  · exact (hroom.above _).trans_le (le_min (le_max_right _ _) hroom.high)
  · exact (min_le_right _ _).trans_lt (hroom.below 1)

/-- The three parts of the curve. -/
theorem Rising.value_cases (hc : c.Rising) (hroom : c.Roomy) (x : RealScore up down) :
    (x.real < c.low.real ∧ 0 < (c.value x).real ∧ (c.value x).real < c.level 0) ∨
      (c.low.real ≤ x.real ∧ x.real ≤ c.high.real ∧ c.level 0 ≤ (c.value x).real ∧
        (c.value x).real ≤ c.level (c.knots.size - 1)) ∨
      c.high.real < x.real ∧ c.level (c.knots.size - 1) < (c.value x).real ∧
        (c.value x).real < 1 := by
  rcases lt_or_ge x.real c.low.real with hlow | hlow
  · exact .inl ⟨hlow, value_below hroom hlow⟩
  rcases lt_trichotomy x.real c.high.real with hhigh | hhigh | hhigh
  · obtain ⟨hge, hlt⟩ := hc.value_within hlow hhigh
    exact .inr (.inl ⟨hlow, hhigh.le, hge, hlt.le⟩)
  · rw [real_value_high hc.ordered hhigh]
    exact .inr (.inl ⟨hlow, hhigh.le, level_le (Nat.zero_le _), le_rfl⟩)
  · exact .inr (.inr ⟨hhigh, value_above hroom hc.ordered hhigh⟩)

theorem Rising.value_pos_lt_one (hc : c.Rising) (hroom : c.Roomy) (x : RealScore up down) :
    0 < (c.value x).real ∧ (c.value x).real < 1 := by
  have hlast := level_lt_one (c := c) (i := c.knots.size - 1) (by have := hc.nonempty; omega)
  have hfirst := level_pos (c := c) 0
  have hmono : c.level 0 ≤ c.level (c.knots.size - 1) := level_le (Nat.zero_le _)
  rcases hc.value_cases hroom x with ⟨_, hpos, hlt⟩ | ⟨_, _, hge, hle⟩ | ⟨_, hgt, hlt⟩ <;>
    constructor <;> linarith

/-- The curve never falls. -/
theorem Rising.value_mono (hc : c.Rising) (hroom : c.Roomy) (h : x.real ≤ y.real) :
    (c.value x).real ≤ (c.value y).real := by
  have hlast : c.level 0 ≤ c.level (c.knots.size - 1) := level_le (Nat.zero_le _)
  have hordered := hc.ordered
  rcases hc.value_cases hroom x with ⟨hx, _, hbelow⟩ | ⟨hx, hx', hge, hle⟩ | ⟨hx, hgt, _⟩ <;>
    rcases hc.value_cases hroom y with ⟨hy, _, hbelow'⟩ | ⟨hy, hy', hge', hle'⟩ | ⟨hy, hgt', _⟩
  · exact value_below_mono hc.halfLife hy h
  · linarith
  · linarith
  · linarith
  · -- both scores are within the sample, where only the last value is reached at its end
    rcases hy'.lt_or_eq with hlt | heq
    · exact hc.value_within_mono hx hlt h
    · rwa [real_value_high hc.ordered heq]
  · linarith
  · linarith
  · linarith
  · exact value_above_mono hc.halfLife hc.ordered hc.nonempty hx h

end Relatedness.Curve
