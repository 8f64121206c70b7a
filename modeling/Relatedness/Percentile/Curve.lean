import Relatedness.Scalar

/-!
The curve that maps raw scores to `(0, 1)`. Between the least and the greatest sample value
it runs straight from knot to knot, the `i`-th of `n` knots standing at height
`(i + 1) / (n + 1)`; outside it approaches 0 and 1, halving the distance that is left every
quarter of the sample's range.
-/
namespace Relatedness

structure Curve (S : Type) where
  /-- Where the knots stand, strictly ascending. -/
  knots : Array S
  low : S
  high : S
  /-- The step outside the sample that halves the distance to the bound. -/
  halfLife : S

namespace Curve

variable {S : Type} [Scale S]

open Scalar Scale

/-- Moves each value that is not above the one before it just above that. -/
def separateFrom (previous : S) : List S → List S
  | [] => []
  | x :: rest =>
    let knot := if atMost x previous then nextUp previous else x
    knot :: separateFrom knot rest

def separate : List S → List S
  | [] => []
  | x :: rest => x :: separateFrom x rest

/-- The curve of a sorted sample, if it is not empty. -/
def ofSorted? : List S → Option (Curve S)
  | [] => none
  | x :: rest =>
    let high := (x :: rest).getLast (List.cons_ne_nil _ _)
    let range := high - x
    some {
      knots := (separate (x :: rest)).toArray
      low := x
      high
      halfLife := if isPositive range then range / ofNat 4 else 1 }

/-- The height of a knot. -/
def height (c : Curve S) (i : Nat) : S := (ofNat i + 1) / (ofNat c.knots.size + 1)

/-- Moves from `y` towards a bound, half of what is left at every half-life. -/
def approach (c : Curve S) (distance y bound : S) : S :=
  bound + (y - bound) * halfPower (distance / c.halfLife)

/-- Halves a range of knots, given its first and its size, until one is left. Where the knots
ascend, the search ends at the last that is not above `x`, if there is one. -/
def bisect (c : Curve S) (x : S) (base : Nat) (size : Nat) : Nat :=
  if size ≤ 1 then base
  else
    let half := size / 2
    let middle := base + half
    let base := if (c.knots[middle]?).any (atMost · x) then middle else base
    bisect c x base (size - half)
termination_by size

/-- The number of knots that are not above `x`. -/
def knotsUpTo (c : Curve S) (x : S) : Nat :=
  let last := c.bisect x 0 c.knots.size
  if (c.knots[last]?).any (atMost · x) then last + 1 else last

/-- The height between the two knots around `x`, the second of which is the `i`-th. -/
def interpolate (c : Curve S) (x : S) (i : Nat) : S :=
  match c.knots[i - 1]?, c.knots[i]? with
  | some x0, some x1 =>
    c.height (i - 1) + (x - x0) / (x1 - x0) * (c.height i - c.height (i - 1))
  | _, _ => c.height (i - 1)

/-- The height of the curve. Below the sample it stays below the first knot and above 0, and
above the sample above the last knot and below 1. -/
def value (c : Curve S) (x : S) : S :=
  let first := c.height 0
  let last := c.height (c.knots.size - 1)
  if less x c.low then
    greater (lesser (c.approach (c.low - x) first 0) (nextDown first)) minPositive
  else if atMost c.high x then
    if same x c.high then last
    else lesser (greater (c.approach (x - c.high) last 1) (nextUp last)) (nextDown 1)
  else
    match c.knotsUpTo x with
    | 0 => first
    | i + 1 => if i + 1 = c.knots.size then last else c.interpolate x (i + 1)

end Curve
end Relatedness
