import Std.Data.TreeMap
import Relatedness.Scalar

/-!
Sparse vectors of weighted features. Only weights other than zero are stored. A vector lists its
entries in ascending order of their features, but holds them in an order of its own, which is the
one that its length is summed in: the last bits of a length may depend on it, and nothing else.
-/
namespace Relatedness

/-- Identifies a feature, that is a column of a matrix. -/
abbrev FeatureId := UInt32

/-- Identifies a row of a matrix. -/
abbrev RowId := UInt32

structure FeatureVector where
  weights : Std.TreeMap FeatureId Binary32
  nonzero : ∀ (id : FeatureId) (w : Binary32), weights[id]? = some w → w.isZero = false
  /-- The entries in the order that the vector holds them in, which may be any. Those that are
  filled below hold them ascending. -/
  held : List (FeatureId × Binary32) := weights.toList
  held_perm : held.Perm weights.toList := by exact .refl _

namespace FeatureVector

def empty : FeatureVector where
  weights := ∅
  nonzero := by simp

/-- Sets the weight of a feature. A zero weight removes it. -/
def set (v : FeatureVector) (id : FeatureId) (w : Binary32) : FeatureVector :=
  if h : w.isZero then {
    weights := v.weights.erase id
    nonzero := fun other u hu => v.nonzero other u <| by
      rw [Std.TreeMap.getElem?_erase] at hu
      split at hu
      · cases hu
      · exact hu }
  else {
    weights := v.weights.insert id w
    nonzero := fun other u hu => by
      rw [Std.TreeMap.getElem?_insert] at hu
      split at hu
      · cases hu; simpa using h
      · exact v.nonzero other u hu }

/-- The vector with these weights, of repeated features the last. -/
def ofEntries (entries : List (FeatureId × Binary32)) : FeatureVector :=
  entries.foldl (fun v (id, w) => v.set id w) empty

/-- The vector with the weights of a map that are not zero. -/
def ofWeights (weights : Std.TreeMap FeatureId Binary32) : FeatureVector where
  weights := weights.filter fun _ w => !w.isZero
  nonzero id w h := by
    rw [Std.TreeMap.getElem?_filter, Option.pfilter_eq_some_iff] at h
    simpa using h.2

def entries (v : FeatureVector) : List (FeatureId × Binary32) := v.weights.toList

def size (v : FeatureVector) : Nat := v.weights.size

def isEmpty (v : FeatureVector) : Bool := v.weights.isEmpty

def contains (v : FeatureVector) (id : FeatureId) : Bool := v.weights.contains id

/-- The weight of a feature, zero where the vector has none. -/
def weight (v : FeatureVector) (id : FeatureId) : Binary32 := v.weights[id]?.getD 0

/-- Whether two vectors have numerically equal weights; one with a NaN equals none. -/
def same (a b : FeatureVector) : Bool :=
  a.size == b.size && a.entries.all fun (id, w) => (b.weights[id]?).any w.same

section Products

variable {S : Type} [Scalar S]

/-- The sum of products over the common features, in their order, taken from the smaller vector.
As that of a length it begins at minus zero. -/
def dot (a b : FeatureVector) : S :=
  let (small, large) := if a.size ≤ b.size then (a, b) else (b, a)
  small.entries.foldl (fun sum (id, w) =>
    match large.weights[id]? with
    | some u => sum + Scalar.ofBinary32 w * Scalar.ofBinary32 u
    | none => sum) (-0)

/-- The length of a vector, the squares added in the order that it holds its entries in. -/
def norm (v : FeatureVector) : S := Scalar.length (v.held.map Prod.snd)

end Products

end FeatureVector
end Relatedness
