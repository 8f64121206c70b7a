import Relatedness.Matrix.Store
import Relatedness.Proofs.Ascending

/-! What a store shows, as the list of its rows. A store that holds rows answers every look-up
from them and never fails; two such lists are transposed when they have the same cells. -/

namespace Relatedness

/-- The store shows these rows at this state of the disk. -/
structure MatrixStore.Holds {σ : Type} [MatrixStore σ] (store : σ) (fs : FileSystem)
    (rows : List Row) : Prop where
  ascending : rows.Pairwise fun a b => a.id < b.id
  rowIds : MatrixStore.rowIds store = rows.map Row.id
  get : ∀ id, MatrixStore.get store fs id = .ok (rows.find? fun r => r.id == id)
  rows : MatrixStore.rows store fs = rows.map .ok

/-- Results that are all there are the list of what they hold. -/
theorem mapM_id_map_ok {ε α : Type} (l : List α) :
    (l.map (Except.ok (ε := ε))).mapM id = .ok l := by
  induction l with
  | nil => rfl
  | cons a rest ih =>
    rw [List.map_cons, List.mapM_cons, ih]
    rfl

/-- Of results some of which failed, the first failure decides. -/
theorem mapM_id_append_error {ε α : Type} (before : List α) (e : ε) (after : List (Except ε α)) :
    (before.map Except.ok ++ Except.error e :: after).mapM id = .error e := by
  induction before with
  | nil => rfl
  | cons a rest ih =>
    rw [List.map_cons, List.cons_append, List.mapM_cons, ih]
    rfl

namespace Matrix

/-- The value in a row and column. -/
def cell (rows : List Row) (id : RowId) (column : FeatureId) : Option Binary32 :=
  (rows.find? fun r => r.id == id).bind (·.get? column)

/-- Every cell of one list of rows stands in the other, with rows and columns exchanged. -/
def Transposed (rows columns : List Row) : Prop :=
  ∀ id column, cell rows id column = cell columns column id

end Matrix

namespace Row

theorem get?_eq_some_iff {r : Row} {column : FeatureId} {v : Binary32} :
    r.get? column = some v ↔ (column, v) ∈ r.entries :=
  Ascending.lookup_eq_some_iff r.ascending

theorem nodup_columns (r : Row) : r.columns.Nodup := Ascending.nodup_keys r.ascending

end Row

namespace Matrix

theorem cell_eq_some_iff {rows : List Row} (h : rows.Pairwise fun a b => a.id < b.id)
    {id : RowId} {column : FeatureId} {v : Binary32} :
    cell rows id column = some v ↔ ∃ r ∈ rows, r.id = id ∧ (column, v) ∈ r.entries := by
  unfold cell
  constructor
  · intro hc
    obtain ⟨r, hr, hv⟩ := Option.bind_eq_some_iff.mp hc
    obtain ⟨hmem, hid⟩ := (Ascending.find?_eq_some_iff h).mp hr
    exact ⟨r, hmem, hid, Row.get?_eq_some_iff.mp hv⟩
  · intro hboth
    obtain ⟨r, hmem, hid, hv⟩ := hboth
    rw [(Ascending.find?_eq_some_iff h).mpr ⟨hmem, hid⟩]
    exact Row.get?_eq_some_iff.mpr hv

end Matrix
end Relatedness
