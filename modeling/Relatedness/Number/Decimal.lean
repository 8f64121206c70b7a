import Relatedness.Number.Binary64

/-!
Decimal text of double-precision numbers. `shortest` finds the fewest digits that read back
as the number, by exact arithmetic on the interval of reals that round to it; the printers
below lay these digits out, and `fixed` rounds to a given number of places instead.
-/
namespace Relatedness

/-- The number `digits * 10 ^ exponent`. -/
structure Decimal where
  digits : Nat
  exponent : Int
deriving DecidableEq

namespace Decimal

/-- A positive number and the ends of the interval that rounds to it, over one denominator. -/
structure Interval where
  value : Nat
  low : Nat
  high : Nat
  denominator : Nat
  /-- Whether the ends round to the number too. -/
  closed : Bool

/-- The bit that a significand has in front of the bits that are stored. -/
def hidden : Nat := 1 <<< 52

/-- The significand and the power of two of a finite magnitude. -/
def significand (magnitude : Nat) : Nat × Int :=
  let fraction := magnitude % hidden
  let exponent : Nat := magnitude / hidden
  if exponent = 0 then (fraction, -1074) else (fraction + hidden, (exponent : Int) - 1075)

/-- Below a power of two the numbers lie twice as dense, so the lower end is half as far. -/
def Interval.ofMagnitude (magnitude : Nat) : Interval :=
  let (m, q) := significand magnitude
  let below := if m = hidden ∧ q ≠ -1074 then 1 else 2
  let up := 1 <<< q.toNat
  { value := 4 * m * up, low := (4 * m - below) * up, high := (4 * m + 2) * up
    denominator := 4 <<< (-q).toNat, closed := m % 2 == 0 }

/-- The point next to the value on the grid of multiples of `10 ^ exponent`, if one of its two
neighbours there lies in the interval. Of two the nearer is taken, and the upper on a tie. -/
def Interval.gridPoint? (i : Interval) (exponent : Int) : Option Nat :=
  let finer := Nat.pow 10 (-exponent).toNat
  let unit := i.denominator * Nat.pow 10 exponent.toNat
  let value := i.value * finer
  let floor := value / unit
  let within (a b : Nat) : Bool := a < b || (i.closed && a == b)
  let lower := within (i.low * finer) (floor * unit)
  let upper := within ((floor + 1) * unit) (i.high * finer)
  if lower && (!upper || 2 * (value - floor * unit) < unit) then some floor
  else if upper then some (floor + 1)
  else none

/-- Tries finer and finer grids from `exponent` down, and truncates where none has a point. -/
def Interval.search (i : Interval) : Nat → Int → Decimal
  | 0, exponent =>
    let unit := i.denominator * Nat.pow 10 exponent.toNat
    ⟨i.value * Nat.pow 10 (-exponent).toNat / unit, exponent⟩
  | fuel + 1, exponent => match i.gridPoint? exponent with
    | some digits => ⟨digits, exponent⟩
    | none => i.search fuel (exponent - 1)

/-- The number of leading zeros after the point of `value / denominator`. -/
def leadingZeros (denominator : Nat) : Nat → Nat → Nat
  | 0, _ => 0
  | fuel + 1, value =>
    if denominator ≤ value * 10 then 0 else leadingZeros denominator fuel (value * 10) + 1

/-- The power of ten of the first digit of the value. -/
def Interval.leadingExponent (i : Interval) : Int :=
  if i.denominator ≤ i.value then (toString (i.value / i.denominator)).length - 1
  else -(leadingZeros i.denominator 324 i.value : Int) - 1

/-- Zeros at the end of the digits go into the exponent. -/
def strip : Nat → Decimal → Decimal
  | 0, d => d
  | fuel + 1, d => if d.digits % 10 = 0 then strip fuel ⟨d.digits / 10, d.exponent + 1⟩ else d

/-- The shortest decimal that rounds to a positive finite magnitude; seventeen digits suffice. -/
def shortest (magnitude : Nat) : Decimal :=
  let i := Interval.ofMagnitude magnitude
  strip 17 (i.search 17 i.leadingExponent)

def zeros (n : Nat) : String := "".pushn '0' n

/-- Digits with a point before the last `places` of them. -/
def placePoint (digits : String) (places : Nat) : String :=
  if places = 0 then digits
  else
    let padded := zeros (places + 1 - digits.length) ++ digits
    let whole := padded.length - places
    String.ofList (padded.toList.take whole) ++ "." ++ String.ofList (padded.toList.drop whole)

/-- All digits written out, without an exponent. -/
def positional (d : Decimal) : String :=
  if 0 ≤ d.exponent then toString d.digits ++ zeros d.exponent.toNat
  else placePoint (toString d.digits) (-d.exponent).toNat

/-- One digit before the point and the power of ten behind an `e`. -/
def scientific (d : Decimal) : String :=
  let digits := toString d.digits
  placePoint digits (digits.length - 1) ++ "e" ++ toString (d.exponent + (digits.length - 1 : Nat))

/-- The quotient rounded to the nearest natural number, a half to the even one. -/
def roundDiv (n d : Nat) : Nat :=
  let q := n / d
  let r := n % d
  if 2 * r < d ∨ (2 * r = d ∧ q % 2 = 0) then q else q + 1

end Decimal

namespace Binary64

/-- A sign and the text of what stands behind it; texts of the values that are not finite. -/
def signed (x : Binary64) (text : String) : String :=
  if x.isNaN then "NaN"
  else (if x.isNegative then "-" else "") ++ (if x.isFinite then text else "inf")

/-- The shortest digits that read back, never with an exponent: `1`, `0.1`, `-0`. -/
def plainText (x : Binary64) : String :=
  x.signed (if x.magnitude = 0 then "0" else (Decimal.shortest x.magnitude).positional)

/-- The shortest digits with at least one place, and an exponent from `1e16` up and below `1e-4`. -/
def pointedText (x : Binary64) : String :=
  let d := Decimal.shortest x.magnitude
  let leading := d.exponent + ((toString d.digits).length - 1 : Nat)
  x.signed <|
    if x.magnitude = 0 then "0.0"
    else if leading < -4 ∨ 16 ≤ leading then d.scientific
    else if 0 ≤ d.exponent then d.positional ++ ".0"
    else d.positional

/-- Rounded to the given number of decimal places, a tie to the even digit. -/
def fixedText (places : Nat) (x : Binary64) : String :=
  let i := Decimal.Interval.ofMagnitude x.magnitude
  let scaled := Decimal.roundDiv (i.value * Nat.pow 10 places) i.denominator
  x.signed (Decimal.placePoint (toString scaled) places)

end Binary64
end Relatedness
