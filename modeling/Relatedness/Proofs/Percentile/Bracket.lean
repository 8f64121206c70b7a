import Relatedness.Proofs.Number.Binary64
import Relatedness.Proofs.Percentile.Knots

/-! The knots of a sample of doubles. Equal values and neighbours push each other up, past later
values and past the greatest, but one step at a time. So a sample that stays clear of infinity by
more steps than it has values gets knots that ascend, and every score within it falls between two
of them. -/

namespace Relatedness

open Scalar

namespace Binary64

theorem orderedBy_level : Scale.OrderedBy level where
  less_iff := less_iff
  same_iff := same_iff

/-- A finite number with more than a number of steps between it and infinity. -/
def HasRoom (steps : Nat) (x : Binary64) : Prop :=
  x.isFinite = true ∧ x.level + steps < infiniteMagnitude

theorem climbs_level : Scale.Climbs level HasRoom where
  isNaN h := isNaN_of_isFinite h.1
  up {n x} h := by
    obtain ⟨hfinite, hroom⟩ := h
    obtain ⟨hlow, hhigh⟩ := isFinite_iff.mp hfinite
    obtain ⟨_, hlevel⟩ := nextUp_spec (isNaN_of_isFinite hfinite) hhigh
    change x.level < x.nextUp.level ∧ HasRoom n x.nextUp
    rw [HasRoom, isFinite_iff, hlevel]
    push_cast at hroom
    omega
  fewer {n x} h := by
    have hroom := h.2
    refine ⟨h.1, ?_⟩
    push_cast at hroom
    omega

/-- Every value of a sorted sample has the room that the greatest one has. -/
theorem hasRoom_of_sorted {sample : List Binary64} (hne : sample ≠ []) {steps : Nat}
    (hfinite : ∀ x ∈ sample, x.isFinite = true)
    (hsorted : sample.Pairwise fun x y => totalLe x y = true)
    (hroom : (sample.getLast hne).level + steps < infiniteMagnitude) :
    ∀ x ∈ sample, HasRoom steps x := by
  intro x hx
  refine ⟨hfinite x hx, ?_⟩
  rw [← List.dropLast_append_getLast hne] at hx hsorted
  rcases List.mem_append.mp hx with hx | hx
  · have hle := (List.pairwise_append.mp hsorted).2.2 x hx _ List.mem_cons_self
    have := level_le_of_totalLe hle
    omega
  · rwa [List.mem_singleton.mp hx]

end Binary64

namespace Curve

open Binary64

theorem exists_of_ne_nil {S : Type} [Scale S] {sample : List S} (hne : sample ≠ []) :
    ∃ c, ofSorted? sample = some c := by
  cases sample with
  | nil => exact absurd rfl hne
  | cons x rest => exact ⟨_, rfl⟩

/-- The next number up is the least above a finite one, the next one down the greatest below it, and
up and down again leads back. So the knots of a sample ascend, and every score from its least value
on and below its greatest falls between two of them: the curve never takes the height of its first
or last knot there for want of a neighbour. -/
theorem interpolates_between_knots :
    (∀ x : Binary64, x.isFinite = true →
      (x.less x.nextUp = true ∧ ∀ y, x.less y = true → atMost x.nextUp y = true) ∧
      (x.nextDown.less x = true ∧ ∀ y : Binary64, y.less x = true → atMost y x.nextDown = true) ∧
      x.nextUp.nextDown.same x = true ∧ (x.same 0 = false → x.nextUp.nextDown = x)) ∧
    ∀ (sample : List Binary64) (hne : sample ≠ []),
      (∀ x ∈ sample, x.isFinite = true) →
      (sample.Pairwise fun x y => totalLe x y = true) →
      (sample.getLast hne).level + sample.length < infiniteMagnitude →
      ∃ c, ofSorted? sample = some c ∧ c.knots.size = sample.length ∧
        sample.head? = some c.low ∧ sample.getLast? = some c.high ∧
        (c.knots.toList.Pairwise fun a b => a.less b = true) ∧
        List.Forall₂ (fun x k => atMost x k = true) sample c.knots.toList ∧
        ∀ x, atMost c.low x = true → x.less c.high = true →
          1 ≤ c.knotsUpTo x ∧ c.knotsUpTo x ≤ sample.length - 1 ∧
          ∃ a b, c.knots[c.knotsUpTo x - 1]? = some a ∧ c.knots[c.knotsUpTo x]? = some b ∧
            atMost a x = true ∧ x.less b = true ∧ a.less b = true ∧
            c.value x = c.height (c.knotsUpTo x - 1) +
              (x - a) / (b - a) * (c.height (c.knotsUpTo x) - c.height (c.knotsUpTo x - 1)) := by
  refine ⟨fun x hx => ⟨nextUp_least hx, nextDown_greatest hx, nextDown_nextUp hx⟩, ?_⟩
  intro sample hne hfinite hsorted hroom
  have hroom := hasRoom_of_sorted hne hfinite hsorted hroom
  obtain ⟨c, hc⟩ := exists_of_ne_nil hne
  have hascends := ascends_of_sorted orderedBy_level climbs_level hroom hc
  have hless : ∀ {i j : Nat} (_ : i < j) (hj : j < c.knots.size),
      c.knots[i].less c.knots[j] = true := fun hij hj =>
    less_iff.mpr ⟨hascends.isNaN _ (hij.trans hj), hascends.isNaN _ hj, hascends.place_lt hij hj⟩
  obtain ⟨hlow, hhigh⟩ := ends_of_sorted hc
  refine ⟨c, hc, size_of_sorted hc, hlow, hhigh, ?_, ?_, ?_⟩
  · refine List.pairwise_iff_getElem.mpr fun i j hi hj hij => ?_
    rw [Array.getElem_toList, Array.getElem_toList]
    exact hless hij (Array.length_toList ▸ hj)
  · rw [knots_of_sorted hc]
    exact (separate_spec orderedBy_level climbs_level hroom).2
  · intro x hx hx'
    obtain ⟨i, hi, hcount, hbefore, hbehind, hvalue⟩ :=
      hascends.exists_bracket orderedBy_level hx hx'
    have hsize := size_of_sorted hc
    rw [hcount, Nat.add_sub_cancel]
    refine ⟨by omega, by omega, c.knots[i], c.knots[i + 1], ?_, ?_, hbefore, hbehind,
      hless (Nat.lt_succ_self i) hi, hvalue⟩
    · exact Array.getElem?_eq_getElem (by omega)
    · exact Array.getElem?_eq_getElem hi

/-- The number next below zero, both zeros, the number next above zero twice, and 1. -/
def aroundZero : List Binary64 :=
  [⟨0x8000000000000001⟩, ⟨0x8000000000000000⟩, ⟨0⟩, ⟨1⟩, ⟨1⟩, ⟨0x3ff0000000000000⟩]

/-- The second zero takes the place of the number next above it, and both of these move on. -/
theorem interpolates_between_knots_aroundZero :
    (∀ x ∈ aroundZero, x.isFinite = true) ∧
    (aroundZero.Pairwise fun x y => totalLe x y = true) ∧
    (aroundZero.getLast (List.cons_ne_nil _ _)).level + aroundZero.length < infiniteMagnitude ∧
    ∃ c, ofSorted? aroundZero = some c ∧ c.knots.size = 6 ∧ c.knotsUpTo ⟨1⟩ ≤ 5 ∧
      ∃ a b, c.knots[c.knotsUpTo ⟨1⟩ - 1]? = some a ∧ c.knots[c.knotsUpTo ⟨1⟩]? = some b ∧
        atMost a ⟨1⟩ = true ∧ Binary64.less ⟨1⟩ b = true ∧ a.less b = true := by
  have hfinite : ∀ x ∈ aroundZero, x.isFinite = true := by decide
  have hsorted : aroundZero.Pairwise fun x y => totalLe x y = true := by decide
  have hroom : (aroundZero.getLast (List.cons_ne_nil _ _)).level + aroundZero.length <
      infiniteMagnitude := by decide
  obtain ⟨c, hc, hsize, hlow, hhigh, _, _, hbracket⟩ :=
    interpolates_between_knots.2 aroundZero (List.cons_ne_nil _ _) hfinite hsorted hroom
  obtain ⟨_, hcount, a, b, ha, hb, hbefore, hbehind, hless, _⟩ := hbracket ⟨1⟩
    (Option.some.inj hlow ▸ by decide) (Option.some.inj hhigh ▸ by decide)
  exact ⟨hfinite, hsorted, hroom, c, hc, hsize, hcount, a, b, ha, hb, hbefore, hbehind, hless⟩

end Curve
end Relatedness
