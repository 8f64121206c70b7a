import Relatedness.Codec.Bytes
import Relatedness.Codec.Format
import Relatedness.Matrix.Row

/-!
The bytes of a matrix file: a header of magic, version and number of rows, an index entry of
id, offset and width for each row in ascending order, then for each row its columns and
behind them its values. All words are little-endian.
-/
namespace Relatedness.Matrix

def headerSize : Nat := 10

def indexEntrySize : Nat := 16

/-- Where the columns and values of a row stand in the file. -/
structure Extent where
  offset : Nat
  width : Nat

def payload (r : Row) : Bytes :=
  r.columns.flatMap (Bytes.word 4 ·.toNat) ++ r.values.flatMap (Bytes.word 4 ·.bits.toNat)

/-- The index of rows whose payloads stand one after the other from `offset` on. -/
def indexBytes : Nat → List Row → Bytes
  | _, [] => []
  | offset, r :: rest =>
    Bytes.word 4 r.id.toNat ++ Bytes.word 8 offset ++ Bytes.word 4 r.width
      ++ indexBytes (offset + 8 * r.width) rest

/-- The file that holds the given rows, whose ids ascend. -/
def encode (rows : List Row) : Bytes :=
  FileFormat.matrix.magic ++ Bytes.word 2 FileFormat.matrix.version ++ Bytes.word 4 rows.length
    ++ indexBytes (headerSize + indexEntrySize * rows.length) rows ++ rows.flatMap payload

/-- Reads as many index entries, given the end of the index and the size of the file. -/
def readEntries (indexEnd size : Nat) :
    Nat → Bytes → Option RowId → Std.TreeMap RowId Extent →
      Except FileFault (Std.TreeMap RowId Extent)
  | 0, _, _, index => .ok index
  | n + 1, bytes, previous?, index =>
    let id := UInt32.ofNat (bytes.wordAt 0 4)
    let offset := bytes.wordAt 4 8
    let width := bytes.wordAt 12 4
    if previous?.any (id ≤ ·) then .error (.unsortedRows id)
    else if offset < indexEnd ∨ size < offset + 8 * width then .error (.payloadOutOfBounds id)
    else readEntries indexEnd size n (bytes.drop indexEntrySize) (some id)
      (index.insert id ⟨offset, width⟩)

/-- Checks the header and reads the index. -/
def readIndex (bytes : Bytes) : Except FileFault (Std.TreeMap RowId Extent) := do
  let size := bytes.length
  if size < headerSize then throw .shortHeader
  if bytes.take 4 ≠ FileFormat.matrix.magic then throw (.wrongMagic .matrix)
  let version := bytes.wordAt 4 2
  if version ≠ FileFormat.matrix.version then throw (.wrongVersion .matrix version)
  let rows := bytes.wordAt 6 4
  let indexEnd := headerSize + indexEntrySize * rows
  if size < indexEnd then throw (.truncatedIndex rows)
  readEntries indexEnd size rows (bytes.drop headerSize) none ∅

/-- As many words of four bytes. -/
def words : Nat → Bytes → List UInt32
  | 0, _ => []
  | n + 1, bytes => UInt32.ofNat (bytes.wordAt 0 4) :: words n (bytes.drop 4)

/-- Reads the row at an extent, whose columns must strictly ascend. -/
def readRow (bytes : Bytes) (id : RowId) (extent : Extent) : Except FileFault Row :=
  let bytes := bytes.drop extent.offset
  let columns := words extent.width bytes
  let values := words extent.width (bytes.drop (4 * extent.width))
  let entries := columns.zip (values.map Binary32.mk)
  if h : Row.columnsAscend entries then .ok ⟨id, entries, Row.pairwise_of_columnsAscend h⟩
  else .error (.unsortedColumns id)

end Relatedness.Matrix
