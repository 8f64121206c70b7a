import Relatedness.Number.Binary64

/-!
What similarities and normalized scores are computed with. The definitions of this library
use these operations only, so what is proved of them for every `Scalar` holds for rounded
and for exact arithmetic alike. No law is assumed of the operations.
-/
namespace Relatedness

/-- Arithmetic and comparison of scores. `same` and `less` are numeric comparison, false on a NaN. -/
class Scalar (S : Type) extends Zero S, One S, Neg S, Add S, Sub S, Mul S, Div S where
  ofBinary32 : Binary32 → S
  ofNat : Nat → S
  sqrt : S → S
  same : S → S → Bool
  less : S → S → Bool
  isNaN : S → Bool

/-- A scalar whose values can be ranked in one total order and stepped through. -/
class Scale (S : Type) extends Scalar S where
  /-- A value that is not a number, where there is one. -/
  nan : S
  isFinite : S → Bool
  totalLe : S → S → Bool
  nextUp : S → S
  nextDown : S → S
  /-- One half to the power of the argument. -/
  halfPower : S → S
  /-- The smallest value that a normalized score may take. -/
  minPositive : S

namespace Scalar

variable {S : Type} [Scalar S]

def atMost (x y : S) : Bool := less x y || same x y

def isPositive (x : S) : Bool := less 0 x

def isZero (x : S) : Bool := same x 0

/-- The smaller of two values; a NaN gives way to the other. -/
def lesser (x y : S) : S := if isNaN x then y else if less y x then y else x

/-- The larger of two values; a NaN gives way to the other. -/
def greater (x y : S) : S := if isNaN x then y else if less x y then y else x

/-- Moves a value into `[-1, 1]`. -/
def clampUnit (x : S) : S := if less x (-1) then -1 else if less 1 x then 1 else x

/-- The Euclidean length of a vector with these weights. The sum begins at minus zero, which
leaves every value as it is when it is added, so no weights at all have the length minus zero. -/
def length (weights : List Binary32) : S :=
  sqrt (weights.foldl (fun sum w => sum + ofBinary32 w * ofBinary32 w) (-0))

end Scalar

instance : Scale Binary64 where
  ofBinary32 := Binary64.ofBinary32
  ofNat := Binary64.ofNat
  sqrt := Binary64.sqrt
  same := Binary64.same
  less := Binary64.less
  isNaN := Binary64.isNaN
  nan := Binary64.nan
  isFinite := Binary64.isFinite
  totalLe := Binary64.totalLe
  nextUp := Binary64.nextUp
  nextDown := Binary64.nextDown
  halfPower := Binary64.halfPower
  minPositive := Binary64.minPositive

end Relatedness
