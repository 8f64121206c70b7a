import Relatedness.Matrix.Row

/-!
Transposition: columns become rows, and the rows that use a column become its columns.
-/
namespace Relatedness.Matrix

/-- The entries of each used column, with the row that they stand in, in the order of the rows. -/
def columnEntries (rows : List Row) : Std.TreeMap FeatureId (Array (RowId × Binary32)) :=
  rows.foldl (fun columns r =>
    r.entries.foldl (fun columns (column, w) =>
      columns.alter column fun old? => some ((old?.getD #[]).push (r.id, w))) columns) ∅

/-- One row for each used column, in ascending order. Of rows with one id the last counts. -/
def transpose (rows : List Row) : List Row :=
  (columnEntries rows).toList.map fun (column, entries) => .ofEntries column entries.toList

/-- Transposes rows of which each may fail to arrive; the first that does decides. -/
def transposeAll {ε : Type} (rows : List (Except ε Row)) : Except ε (List Row) := do
  return transpose (← rows.mapM id)

end Relatedness.Matrix
