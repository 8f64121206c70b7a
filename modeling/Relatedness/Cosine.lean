import Relatedness.Matrix.Row

/-!
Cosine similarity of vectors and rows, by one join over their ascending columns. The sums are
taken in column order, so neither the order of the arguments nor their kind matters.
-/
namespace Relatedness

/-- The three sums that a cosine is the quotient of. -/
structure CosineSums (S : Type) where
  left : S
  right : S
  common : S

namespace CosineSums

variable {S : Type} [Scalar S]

def zero : CosineSums S := ⟨0, 0, 0⟩

def square (w : Binary32) : S := Scalar.ofBinary32 w * Scalar.ofBinary32 w

def addLeft (s : CosineSums S) (w : Binary32) : CosineSums S := { s with left := s.left + square w }

def addRight (s : CosineSums S) (w : Binary32) : CosineSums S :=
  { s with right := s.right + square w }

def addCommon (s : CosineSums S) (v w : Binary32) : CosineSums S :=
  { s.addLeft v |>.addRight w with common := s.common + Scalar.ofBinary32 v * Scalar.ofBinary32 w }

/-- Joins two lists of entries with ascending columns. -/
def join (s : CosineSums S) :
    List (FeatureId × Binary32) → List (FeatureId × Binary32) → CosineSums S
  | [], bs => bs.foldl (fun s b => s.addRight b.2) s
  | as, [] => as.foldl (fun s a => s.addLeft a.2) s
  | (i, v) :: as, (j, w) :: bs =>
    if i < j then join (s.addLeft v) as ((j, w) :: bs)
    else if j < i then join (s.addRight w) ((i, v) :: as) bs
    else join (s.addCommon v w) as bs
termination_by as bs => as.length + bs.length

/-- The cosine, zero where one of the sums is. -/
def cosine (s : CosineSums S) : S :=
  if Scalar.isZero s.left || Scalar.isZero s.right || Scalar.isZero s.common then 0
  else Scalar.clampUnit (s.common / Scalar.sqrt (s.left * s.right))

end CosineSums

variable {S : Type} [Scalar S]

def Row.cosine (a b : Row) : S := (CosineSums.zero.join a.entries b.entries).cosine

def FeatureVector.cosine (a b : FeatureVector) : S :=
  (CosineSums.zero.join a.entries b.entries).cosine

end Relatedness
