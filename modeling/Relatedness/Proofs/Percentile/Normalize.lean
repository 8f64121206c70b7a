import Mathlib.Order.Bounds.Basic
import Relatedness.Proofs.Percentile.Monotone
import Relatedness.Proofs.Percentile.Runs

/-! Normalizing exact scores. The curve of every finished normalizer maps the scores to their
percentiles among the sample, whatever was observed, finished and reset before. -/

namespace Relatedness

/-- What a map of scores to `(0, 1)` keeps to, given the values of its sample. -/
structure IsPercentileMap (values : List ℝ) (f : ℝ → ℝ) : Prop where
  pos : ∀ x, 0 < f x
  lt_one : ∀ x, f x < 1
  monotone : Monotone f
  below : ∀ least, IsLeast {v | v ∈ values} least → ∀ x < least, f x < f least
  above : ∀ greatest, IsGreatest {v | v ∈ values} greatest →
    f greatest = values.length / (values.length + 1) ∧ ∀ x > greatest, f greatest < f x
  /-- The value with `i` values below it has the `i`-th height. -/
  rank : values.Nodup → ∀ v ∈ values,
    f v = ((values.countP fun w => w < v) + 1) / (values.length + 1)

theorem countP_lt_getElem {values : List ℝ} (hascending : values.Pairwise (· < ·)) {i : Nat}
    (hi : i < values.length) : values.countP (fun w => w < values[i]) = i := by
  have hrank := List.pairwise_iff_getElem.mp hascending
  have hbefore : (values.take i).countP (fun w => w < values[i]) = (values.take i).length := by
    refine List.countP_eq_length.mpr fun w hw => ?_
    obtain ⟨j, hj, rfl⟩ := List.mem_take_iff_getElem.mp hw
    exact decide_eq_true (hrank j i (by omega) hi (by omega))
  have hbehind : (values.drop i).countP (fun w => w < values[i]) = 0 := by
    refine List.countP_eq_zero.mpr fun w hw => ?_
    obtain ⟨j, hj, rfl⟩ := List.mem_drop_iff_getElem.mp hw
    simp only [decide_eq_true_eq, not_lt]
    rcases Nat.eq_zero_or_pos j with rfl | hpos
    · exact le_rfl
    · exact (hrank i (i + j) hi (by omega) (by omega)).le
  calc values.countP (fun w => w < values[i])
      = (values.take i ++ values.drop i).countP (fun w => w < values[i]) := by
        rw [List.take_append_drop]
    _ = i := by rw [List.countP_append, hbefore, hbehind, List.length_take]; omega

namespace Curve

variable {up down : ℝ → ℝ} {sample : List (RealScore up down)} {c : Curve (RealScore up down)}

theorem isLeast_low (hsorted : sample.Pairwise fun a b => a.real ≤ b.real)
    (h : ofSorted? sample = some c) : IsLeast {v | v ∈ sample.map (·.real)} c.low.real := by
  cases sample with
  | nil => cases h
  | cons x rest =>
    cases h
    refine ⟨List.mem_map_of_mem List.mem_cons_self, fun v hv => ?_⟩
    obtain ⟨w, hw, rfl⟩ := List.mem_map.mp hv
    rcases List.mem_cons.mp hw with rfl | hw
    · exact le_rfl
    · exact List.rel_of_pairwise_cons hsorted hw

theorem isGreatest_high (hsorted : sample.Pairwise fun a b => a.real ≤ b.real)
    (h : ofSorted? sample = some c) : IsGreatest {v | v ∈ sample.map (·.real)} c.high.real := by
  cases sample with
  | nil => cases h
  | cons x rest =>
    cases h
    refine ⟨List.mem_map_of_mem (List.getLast_mem (List.cons_ne_nil x rest)), fun v hv => ?_⟩
    obtain ⟨w, hw, rfl⟩ := List.mem_map.mp hv
    have hlast := List.dropLast_append_getLast (List.cons_ne_nil x rest)
    rw [← hlast] at hw hsorted
    rcases List.mem_append.mp hw with hw | hw
    · exact (List.pairwise_append.mp hsorted).2.2 w hw _ List.mem_cons_self
    · rw [List.mem_singleton.mp hw]

/-- The values of a curve whose sample has no value twice are the heights of its ranks. -/
theorem value_of_nodup (hup : ∀ z, z < up z) (hsorted : sample.Pairwise fun a b => a.real ≤ b.real)
    (h : ofSorted? sample = some c) (hnodup : (sample.map (·.real)).Nodup) {v : ℝ}
    (hv : v ∈ sample.map (·.real)) :
    (c.value ⟨v⟩).real =
      (((sample.map (·.real)).countP fun w => w < v) + 1) / (sample.length + 1) := by
  have hc := rising_of_sorted hup hsorted h
  have hascending : (sample.map (·.real)).Pairwise (· < ·) := by
    have hle : (sample.map (·.real)).Pairwise (· ≤ ·) := List.pairwise_map.mpr hsorted
    exact (hle.and hnodup).imp fun ⟨hle, hne⟩ => lt_of_le_of_ne hle hne
  have hknots : c.knots = sample.toArray := by
    rw [knots_of_sorted h, separate_of_pairwise (r := fun a b : RealScore up down => a.real < b.real)
      (fun {a b} hlt => ?_) (List.pairwise_map.mp hascending)]
    rw [Bool.eq_false_iff, ne_eq, RealScore.atMost_iff]
    exact not_le.mpr hlt
  have hsize := size_of_sorted h
  have hmem : ∀ i (hi : i < c.knots.size), c.knots[i].real ∈ sample.map (·.real) := by
    intro i hi
    simp only [hknots, List.getElem_toArray]
    exact List.mem_map_of_mem (List.getElem_mem _)
  have hlast : ∀ h : c.knots.size - 1 < c.knots.size,
      c.knots[c.knots.size - 1].real = c.high.real := fun hlt =>
    le_antisymm ((isGreatest_high hsorted h).2 (hmem _ hlt)) hc.high
  obtain ⟨i, hi, rfl⟩ := List.mem_iff_getElem.mp hv
  have hi' : i < c.knots.size := by rwa [hsize, ← List.length_map (f := (·.real))]
  have hknot : c.knots[i] = ⟨(sample.map (·.real))[i]⟩ := by
    simp [hknots]
  rw [countP_lt_getElem hascending hi, ← hknot, hc.value_knot hlast hi', level, hsize]

theorem isPercentileMap_of_sorted (hroom : c.Roomy)
    (hsorted : sample.Pairwise fun a b => a.real ≤ b.real) (h : ofSorted? sample = some c) :
    IsPercentileMap (sample.map (·.real)) fun x => (c.value ⟨x⟩).real := by
  have hc := rising_of_sorted hroom.above hsorted h
  have hsize := size_of_sorted h
  refine ⟨fun x => (hc.value_pos_lt_one hroom ⟨x⟩).1, fun x => (hc.value_pos_lt_one hroom ⟨x⟩).2,
    fun x y hxy => hc.value_mono hroom hxy, ?_, ?_, fun hnodup v hv => ?_⟩
  · intro least hleast x hx
    obtain rfl := hleast.unique (isLeast_low hsorted h)
    have hlow : c.level 0 ≤ (c.value c.low).real := by
      rcases hc.value_cases hroom c.low with ⟨hlt, _⟩ | ⟨_, _, hge, _⟩ | ⟨_, hgt, _⟩
      · exact absurd hlt (lt_irrefl _)
      · exact hge
      · exact (level_le (Nat.zero_le _)).trans hgt.le
    exact (value_below hroom hx).2.trans_le hlow
  · intro greatest hgreatest
    obtain rfl := hgreatest.unique (isGreatest_high hsorted h)
    have hhigh : (c.value ⟨c.high.real⟩).real = c.level (c.knots.size - 1) :=
      real_value_high hc.ordered rfl
    refine ⟨?_, fun x hx => ?_⟩
    · rw [hhigh, level_last hc.nonempty, List.length_map, hsize]
    · simp only [hhigh]
      exact (value_above hroom hc.ordered hx).1
  · rw [List.length_map]
    exact value_of_nodup hroom.above hsorted h hnodup hv

end Curve

namespace Normalizer

variable {G : Type} [SlotSource G]

/-- After any run, a finished normalizer maps the exact scores to their percentiles among its
sample, if the steps up and down leave room next to the lowest and the highest knot. -/
theorem normalize_isPercentileMap {up down : ℝ → ℝ} (hdown : ∀ z, down z < z)
    (hup : ∀ z, z < up z) {start n : Normalizer (RealScore up down) G} (hstart : start.curve = none)
    (operations : List (Operation (RealScore up down))) (hn : start.run operations = n)
    (hfinished : n.isFinished = true)
    (hlow : 2 ^ (-1022 : ℤ) ≤ down (1 / (n.reservoir.sample.size + 1)))
    (hhigh : up (n.reservoir.sample.size / (n.reservoir.sample.size + 1)) ≤ down 1) :
    0 < n.reservoir.sample.size ∧ ∃ f : ℝ → ℝ, (∀ x, n.normalize ⟨x⟩ = .ok ⟨f x⟩) ∧
      IsPercentileMap (n.reservoir.sample.toList.map (·.real)) f := by
  obtain ⟨c, hc⟩ := Option.isSome_iff_exists.mp hfinished
  obtain ⟨hcurve, values, hvalues⟩ := (hn ▸ (settled_of_curve_eq_none hstart).run operations) c hc
  have hsorted : n.reservoir.sample.toList.Pairwise fun a b => a.real ≤ b.real := by
    rw [hvalues]
    refine (List.pairwise_mergeSort ?_ ?_ values).imp fun h => (RealScore.totalLe_iff _ _).mp h
    · intro x y z hxy hyz
      rw [RealScore.totalLe_iff] at hxy hyz ⊢
      exact hxy.trans hyz
    · intro x y
      rw [Bool.or_eq_true, RealScore.totalLe_iff, RealScore.totalLe_iff]
      exact le_total x.real y.real
  have hsize : c.knots.size = n.reservoir.sample.size := by
    rw [Curve.size_of_sorted hcurve, Array.length_toList]
  have hpos := (Curve.rising_of_sorted hup hsorted hcurve).nonempty
  have hroom : c.Roomy := by
    refine ⟨hdown, hup, ?_, ?_⟩
    · rwa [Curve.level_zero, hsize]
    · rwa [Curve.level_last hpos, hsize]
  refine ⟨hsize ▸ hpos, fun x => (c.value ⟨x⟩).real, fun x => ?_,
    Curve.isPercentileMap_of_sorted hroom hsorted hcurve⟩
  unfold normalize finishedCurve
  rw [hc]
  rfl

theorem normalize_isPercentileMap_two_one :
    let start : Normalizer (RealScore (· + 2 ^ (-53 : ℤ)) (· - 2 ^ (-53 : ℤ))) Generator := new {}
    let n := start.run [.observe ⟨2⟩, .observe ⟨1⟩, .finish]
    n.isFinished = true ∧ n.reservoir.sample.size = 2 ∧
      ∃ f : ℝ → ℝ, (∀ x, n.normalize ⟨x⟩ = .ok ⟨f x⟩) ∧
        IsPercentileMap (n.reservoir.sample.toList.map (·.real)) f := by
  intro start n
  let observed := start.run [.observe ⟨2⟩, .observe ⟨1⟩]
  have hsample : observed.reservoir.sample = #[⟨2⟩, ⟨1⟩] := rfl
  have hrun : n = observed.apply .finish := rfl
  obtain ⟨hfinished, hsize⟩ : n.isFinished = true ∧ n.reservoir.sample.size = 2 := by
    rcases finish_cases observed with ⟨hempty, _⟩ | ⟨c, _, hfinish⟩
    · rw [hsample] at hempty
      cases hempty
    · rw [hrun, apply, hfinish]
      refine ⟨rfl, ?_⟩
      rw [List.size_toArray, List.length_mergeSort, hsample]
      rfl
  refine ⟨hfinished, hsize, (normalize_isPercentileMap (fun z => ?_) (fun z => ?_)
    (show start.curve = none from rfl) _ rfl hfinished ?_ ?_).2⟩
  · norm_num
  · norm_num
  · have htiny : (2 : ℝ) ^ (-1022 : ℤ) ≤ 2 ^ (-2 : ℤ) :=
      zpow_le_zpow_right₀ one_le_two (by decide)
    refine htiny.trans ?_
    rw [hsize]
    norm_num
  · rw [hsize]
    norm_num

end Normalizer
end Relatedness
