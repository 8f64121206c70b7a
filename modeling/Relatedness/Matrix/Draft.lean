import Relatedness.Disk.Replacement
import Relatedness.Matrix.Format

/-!
Rows that are to become a matrix file. They may come in any order; nothing reaches the disk
before the draft is saved.
-/
namespace Relatedness

structure MatrixDraft where
  path : Path
  rows : Std.TreeMap RowId Row

namespace MatrixDraft

def empty (path : Path) : MatrixDraft := ⟨path, ∅⟩

/-- Takes a row in. A second row with an id is reported, and it takes the place of the first. -/
def add (d : MatrixDraft) (r : Row) : Except Error Unit × MatrixDraft :=
  (if d.rows.contains r.id then .error (.duplicateRow r.id d.path) else .ok (),
    { d with rows := d.rows.insert r.id r })

/-- Takes rows in up to the first that is reported. -/
def addAll (d : MatrixDraft) : List Row → Except Error MatrixDraft
  | [] => .ok d
  | r :: rest => match d.add r with
    | (.ok (), d) => d.addAll rest
    | (.error cause, _) => .error cause

def size (d : MatrixDraft) : Nat := d.rows.size

/-- Writes the file beside its path and moves it there. -/
def save (d : MatrixDraft) : DiskM Unit :=
  Replacement.replaceFile (d.path.withExtension "spm.tmp") d.path (Matrix.encode d.rows.values) true

end MatrixDraft
end Relatedness
