import Std.Data.TreeSet
import Relatedness.Codec.Header
import Relatedness.Disk.Replacement
import Relatedness.Matrix.Store

/-!
What a search needs to know of a matrix beforehand: the length of every row, the features that
the transpose has, and the width of the widest row. A summary carries the version tokens of
the stores it was made from; a saved one that does not match the stores is made anew.
-/
namespace Relatedness

structure Summary (S : Type) where
  forwardToken : UInt64
  transposeToken : UInt64
  forwardRows : Nat
  transposeRows : Nat
  norms : Std.TreeMap RowId S
  features : Std.TreeSet FeatureId
  maxWidth : Nat

namespace Summary

section Stores

variable {S σ : Type} [Scalar S] [MatrixStore σ]

/-- Reads both stores. They must hold equally many entries, as a matrix and its transpose do. -/
def build (forward transpose : σ) (fs : FileSystem) : Except Error (Summary S) := do
  let forwardToken ← MatrixStore.versionToken forward fs
  let transposeToken ← MatrixStore.versionToken transpose fs
  let rows ← (MatrixStore.rows forward fs).mapM id
  let entries := (rows.map Row.width).foldl (· + ·) 0
  let columns ← (MatrixStore.rows transpose fs).mapM id
  let transposed := (columns.map Row.width).foldl (· + ·) 0
  if entries ≠ transposed then
    throw (.unequalEntries (MatrixStore.path forward) entries (MatrixStore.path transpose) transposed)
  return {
    forwardToken, transposeToken
    forwardRows := MatrixStore.rowCount forward
    transposeRows := MatrixStore.rowCount transpose
    norms := rows.foldl (fun norms r => norms.insert r.id r.norm) ∅
    features := (MatrixStore.rowIds transpose).foldl (fun ids id => ids.insert id) ∅
    maxWidth := (rows.map Row.width).foldl max 0 }

/-- Whether the summary was made from these versions of the stores. -/
def isCurrent (s : Summary S) (forward transpose : σ) (fs : FileSystem) : Except Error Bool := do
  if (← MatrixStore.versionToken forward fs) ≠ s.forwardToken then return false
  if (← MatrixStore.versionToken transpose fs) ≠ s.transposeToken then return false
  return s.forwardRows == MatrixStore.rowCount forward
    && s.transposeRows == MatrixStore.rowCount transpose

def norm? (s : Summary S) (id : RowId) : Option S := s.norms[id]?

def hasFeature (s : Summary S) (id : FeatureId) : Bool := s.features.contains id

def size (s : Summary S) : Nat := s.norms.size

/-- Numeric equality in every part. -/
def same (a b : Summary S) : Bool :=
  a.forwardToken == b.forwardToken && a.transposeToken == b.transposeToken
    && a.forwardRows == b.forwardRows && a.transposeRows == b.transposeRows
    && a.norms.keys == b.norms.keys
    && (a.norms.values.zip b.norms.values).all (fun (x, y) => Scalar.same x y)
    && a.features.toList == b.features.toList && a.maxWidth == b.maxWidth

end Stores

def encode (s : Summary Binary64) : Bytes :=
  FileFormat.similarityCache.header
    ++ Bytes.word 8 s.forwardToken.toNat ++ Bytes.word 8 s.transposeToken.toNat
    ++ Bytes.word 8 s.forwardRows ++ Bytes.word 8 s.transposeRows
    ++ Bytes.word 8 s.norms.size
    ++ s.norms.toList.flatMap (fun (id, norm) =>
        Bytes.word 4 id.toNat ++ Bytes.word 8 norm.bits.toNat)
    ++ Bytes.word 8 s.features.size ++ s.features.toList.flatMap (Bytes.word 4 ·.toNat)
    ++ Bytes.word 8 s.maxWidth

/-- Ids may stand in any order; of repeated ones the last counts. -/
def decoder : Decoder (Summary Binary64) := do
  let forwardToken ← Decoder.word 8
  let transposeToken ← Decoder.word 8
  let forwardRows ← Decoder.word 8
  let transposeRows ← Decoder.word 8
  let norms ← Decoder.list do
    let id ← Decoder.word 4
    let norm ← Decoder.binary64
    return (UInt32.ofNat id, norm)
  let features ← Decoder.list (Decoder.word 4)
  let maxWidth ← Decoder.word 8
  return {
    forwardToken := UInt64.ofNat forwardToken
    transposeToken := UInt64.ofNat transposeToken
    forwardRows, transposeRows
    norms := norms.foldl (fun norms (id, norm) => norms.insert id norm) ∅
    features := features.foldl (fun ids id => ids.insert (UInt32.ofNat id)) ∅
    maxWidth }

/-- Saves a summary, in directories that are created where they are missing. -/
def save (s : Summary Binary64) (path : Path) : DiskM Unit := do
  DiskM.makeDirectories path.parent
  Replacement.replaceFile (path.withExtension "tmp") path s.encode false

def load (fs : FileSystem) (path : Path) : Except Error (Summary Binary64) := do
  FileFormat.similarityCache.load decoder path (← (fs.readFile path).mapError .io)

/-- The saved summary if it can be read and is current; otherwise a new one, which is saved. -/
def loadOrBuild {σ : Type} [MatrixStore σ] (path : Path) (forward transpose : σ) :
    Action (Summary Binary64) := do
  let fs ← Action.disk
  if fs.present path then
    match load fs path with
    | .ok saved =>
      if ← Action.ofExcept (saved.isCurrent forward transpose fs) then
        Action.log .info s!"reading matrix information from cache {path.text}"
        return saved
      Action.log .info s!"similarity cache {path.text} is stale"
    | .error cause =>
      Action.log .warn s!"discarding unreadable similarity cache {path.text}: {cause.message}"
  Action.log .info
    s!"building cached matrix information for {MatrixStore.rowCount forward} rows"
  let built ← Action.ofExcept (build forward transpose fs)
  Action.onDisk (built.save path)
  return built

end Summary
end Relatedness
