import Relatedness.Number.Binary32

/-!
Double-precision numbers as their 64 bits. Order, equality and neighbours are read off the
bits; sums, products, quotients, roots and powers are those of `Float`, correctly rounded. An
operation hands on a NaN that it is given, the first if there are two.
-/
namespace Relatedness

structure Binary64 where
  bits : UInt64
deriving DecidableEq, Inhabited

namespace Binary64

def ofFloat (x : Float) : Binary64 := ⟨x.toBits⟩

def toFloat (x : Binary64) : Float := Float.ofBits x.bits

/-- The bits below the sign bit. They order the numbers of one sign by size. -/
def magnitude (x : Binary64) : Nat := x.bits.toNat % (1 <<< 63)

def isNegative (x : Binary64) : Bool := 1 <<< 63 ≤ x.bits.toNat

def signBit (negative : Bool) : UInt64 := if negative then 0x8000000000000000 else 0

/-- The magnitude of infinity; a NaN lies above it. -/
def infiniteMagnitude : Nat := 0x7ff0000000000000

def isNaN (x : Binary64) : Bool := infiniteMagnitude < x.magnitude

def isFinite (x : Binary64) : Bool := x.magnitude < infiniteMagnitude

/-- The NaN that stands for all of them. -/
def nan : Binary64 := ⟨0x7ff8000000000000⟩

/-- The place of a number on the line, counted in representable steps from zero. -/
def level (x : Binary64) : Int := if x.isNegative then -x.magnitude else x.magnitude

/-- Numeric equality: the two zeros are equal and a NaN equals nothing. -/
def same (x y : Binary64) : Bool := !x.isNaN && !y.isNaN && x.level == y.level

/-- Numeric order, in which a NaN is below and above nothing. -/
def less (x y : Binary64) : Bool := !x.isNaN && !y.isNaN && x.level < y.level

/-- Place in the total order: negative NaNs, the numbers with `-0` just below `0`, positive NaNs. -/
def totalRank (x : Binary64) : Int := if x.isNegative then -x.magnitude - 1 else x.magnitude

def totalLe (x y : Binary64) : Bool := x.totalRank ≤ y.totalRank

/-- The next number up. -/
def nextUp (x : Binary64) : Binary64 :=
  if x.magnitude = 0 then ⟨1⟩
  else if less ⟨0⟩ x then ⟨x.bits + 1⟩
  else ⟨x.bits - 1⟩

def negate (x : Binary64) : Binary64 := ⟨x.bits ^^^ 0x8000000000000000⟩

/-- The next number down. -/
def nextDown (x : Binary64) : Binary64 := (nextUp x.negate).negate

/-- The smallest positive number with full precision. -/
def minPositive : Binary64 := ⟨0x0010000000000000⟩

/-- The nearest number to a natural number. -/
def ofNat (n : Nat) : Binary64 := ofFloat (Float.ofNat n)

/-- Widening is exact. A NaN keeps its sign and the leading bits of its payload. -/
def ofBinary32 (x : Binary32) : Binary64 :=
  if x.isNaN then
    let payload : Nat := (x.magnitude % (1 <<< 23)) <<< 29
    ⟨signBit x.isNegative ||| 0x7ff8000000000000 ||| UInt64.ofNat payload⟩
  else ofFloat (Float32.ofBits x.bits).toFloat

/-- The nearest single-precision number, ties to even, too large ones to infinity. -/
def toBinary32 (x : Binary64) : Binary32 :=
  if x.isNaN then
    let payload : Nat := (x.magnitude % (1 <<< 52)) >>> 29
    ⟨Binary32.signBit x.isNegative ||| 0x7fc00000 ||| UInt32.ofNat payload⟩
  else ⟨x.toFloat.toFloat32.toBits⟩

/-- A NaN marked as having passed through an operation. -/
def quiet (x : Binary64) : Binary64 := ⟨x.bits ||| 0x0008000000000000⟩

/-- What an operation without a result gives, such as zero divided by zero. -/
def undefined : Binary64 := ⟨0xfff8000000000000⟩

/-- The result of an operation on two numbers, given what it is where neither is a NaN. -/
def combine (x y : Binary64) (r : Float) : Binary64 :=
  if x.isNaN then x.quiet
  else if y.isNaN then y.quiet
  else if r.isNaN then undefined
  else ofFloat r

instance : Zero Binary64 := ⟨⟨0⟩⟩
instance : One Binary64 := ⟨⟨0x3ff0000000000000⟩⟩
instance : Neg Binary64 := ⟨negate⟩
instance : Add Binary64 := ⟨fun x y => combine x y (x.toFloat + y.toFloat)⟩
instance : Sub Binary64 := ⟨fun x y => combine x y (x.toFloat - y.toFloat)⟩
instance : Mul Binary64 := ⟨fun x y => combine x y (x.toFloat * y.toFloat)⟩
instance : Div Binary64 := ⟨fun x y => combine x y (x.toFloat / y.toFloat)⟩

def sqrt (x : Binary64) : Binary64 := combine x x x.toFloat.sqrt

/-- One half to the power of the argument. -/
def halfPower (t : Binary64) : Binary64 := ofFloat (Float.pow 0.5 t.toFloat)

end Binary64
end Relatedness
