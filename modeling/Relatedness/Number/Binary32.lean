/-!
Single-precision numbers as their 32 bits. Feature weights are stored in this form, so a
weight keeps its exact pattern from a file to a row and back, the payload of a NaN included.
-/
namespace Relatedness

structure Binary32 where
  bits : UInt32
deriving DecidableEq, Inhabited

namespace Binary32

/-- The bits below the sign bit. They order the numbers of one sign by size. -/
def magnitude (x : Binary32) : Nat := x.bits.toNat % (1 <<< 31)

def isNegative (x : Binary32) : Bool := 1 <<< 31 ≤ x.bits.toNat

def signBit (negative : Bool) : UInt32 := if negative then 0x80000000 else 0

/-- A zero of either sign. -/
def isZero (x : Binary32) : Bool := x.magnitude == 0

def isNaN (x : Binary32) : Bool := 0x7f800000 < x.magnitude

/-- The place of a number on the line, counted in representable steps from zero. -/
def level (x : Binary32) : Int := if x.isNegative then -x.magnitude else x.magnitude

/-- Numeric equality: the two zeros are equal and a NaN equals nothing. -/
def same (x y : Binary32) : Bool := !x.isNaN && !y.isNaN && x.level == y.level

instance : Zero Binary32 := ⟨⟨0⟩⟩

end Binary32
end Relatedness
