/-!
The file formats of this library. A file begins with four magic bytes and a version word.
-/
namespace Relatedness

inductive FileFormat where
  | matrix
  | similarityCache
  | normalizer
deriving DecidableEq

namespace FileFormat

def magic : FileFormat → List UInt8
  | matrix => [0x53, 0x50, 0x4d, 0x58]
  | similarityCache => [0x53, 0x49, 0x4d, 0x43]
  | normalizer => [0x50, 0x4e, 0x52, 0x4d]

/-- The version that is written, and the only one that is read. -/
def version : FileFormat → Nat := fun _ => 1

end FileFormat

/-- What is wrong with a file that is not in its format. -/
inductive FileFault where
  | shortHeader
  | wrongMagic (format : FileFormat)
  | wrongVersion (format : FileFormat) (found : Nat)
  | truncatedIndex (rows : Nat)
  | unsortedRows (row : UInt32)
  | payloadOutOfBounds (row : UInt32)
  | unsortedColumns (row : UInt32)
deriving DecidableEq

def FileFault.message : FileFault → String
  | .shortHeader => "file shorter than header"
  | .wrongMagic .matrix => "invalid magic bytes - not a matrix file"
  | .wrongMagic .similarityCache => "invalid magic bytes - not a similarity cache"
  | .wrongMagic .normalizer => "invalid magic bytes - not a normalizer file"
  | .wrongVersion format found =>
    let subject := match format with
      | .matrix => "unsupported version: "
      | .similarityCache => "unsupported cache version "
      | .normalizer => "unsupported normalizer version "
    s!"{subject}{found} (expected {format.version})"
  | .truncatedIndex rows => s!"truncated row index ({rows} rows)"
  | .unsortedRows row => s!"row ids not ascending at row {row}"
  | .payloadOutOfBounds row => s!"row {row} payload out of bounds"
  | .unsortedColumns row => s!"row {row} columns not strictly ascending"

end Relatedness
