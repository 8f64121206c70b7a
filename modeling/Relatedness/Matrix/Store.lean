import Relatedness.Matrix.Format
import Relatedness.Session
import Relatedness.Text.Quoted

/-!
Read access to a sparse matrix by row. An open matrix file keeps its index and decodes a row
when it is asked for, from what the file holds at that moment.
-/
namespace Relatedness

/-- A source of rows, which may depend on files. -/
class MatrixStore (σ : Type) where
  /-- Looks a row up. An absent row is none and no empty row. -/
  get : σ → FileSystem → RowId → Except Error (Option Row)
  /-- The ids of all rows, ascending. -/
  rowIds : σ → List RowId
  rowCount : σ → Nat := fun store => (rowIds store).length
  /-- All rows in the order of their ids. -/
  rows : σ → FileSystem → List (Except Error Row) := fun store fs =>
    (rowIds store).filterMap fun id => match get store fs id with
      | .ok none => none
      | .ok (some row) => some (.ok row)
      | .error cause => some (.error cause)
  /-- Tells versions of the store apart. -/
  versionToken : σ → FileSystem → Except Error UInt64
  path : σ → Path

/-- An open matrix file. -/
structure FileMatrix where
  path : Path
  file : Nat
  /-- The size of the file in bytes when it was opened. -/
  size : Nat
  index : Std.TreeMap RowId Matrix.Extent

namespace FileMatrix

/-- Opens a matrix file and reads its index. -/
def openFile (fs : FileSystem) (path : Path) : Except Error FileMatrix :=
  match fs.openFile path with
  | .error .isADirectory => .error (.io .notMappable)
  | .error cause => .error (.io cause)
  | .ok file =>
    let bytes := fs.content file
    match Matrix.readIndex bytes with
    | .error fault => .error (.corruptedFile path fault)
    | .ok index => .ok { path, file, size := bytes.length, index }

def rowIds (m : FileMatrix) : List RowId := m.index.keys

def contains (m : FileMatrix) (id : RowId) : Bool := m.index.contains id

/-- The file in one line. -/
def describe (m : FileMatrix) : String :=
  "SparseMatrix \x7b path: " ++ Text.quoted m.path.text
    ++ s!", rows: {m.index.size}, bytes: {m.size} \x7d"

def readRow (m : FileMatrix) (fs : FileSystem) (id : RowId) (extent : Matrix.Extent) :
    Except Error Row :=
  (Matrix.readRow (fs.content m.file) id extent).mapError (.corruptedFile m.path)

def get (m : FileMatrix) (fs : FileSystem) (id : RowId) : Except Error (Option Row) :=
  match m.index[id]? with
  | some extent => (m.readRow fs id extent).map some
  | none => .ok none

def rows (m : FileMatrix) (fs : FileSystem) : List (Except Error Row) :=
  m.index.toList.map fun (id, extent) => m.readRow fs id extent

instance : MatrixStore FileMatrix where
  get := get
  rowIds := rowIds
  rows := rows
  versionToken m fs := (fs.versionToken m.path).mapError .io
  path := FileMatrix.path

end FileMatrix
end Relatedness
