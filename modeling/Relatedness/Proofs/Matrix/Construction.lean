import Relatedness.Proofs.FeatureVector
import Relatedness.Proofs.Matrix.Row

/-! The ways to make a row. Entries are sorted, the last of each column is kept and zeros are dropped
in the end; a vector takes entries in one by one and drops a feature as soon as a zero comes. Both
keep of each column the weight that came last, so they make the same row, and no row that is made
has a zero. -/

namespace Relatedness.Row

variable {r s : Row}

theorem eq_of_entries (hid : r.id = s.id) (h : r.entries = s.entries) : r = s := by
  cases r
  cases s
  cases hid
  cases h
  rfl

/-- A row is known from its id and from what it answers. -/
theorem eq_of_get? (hid : r.id = s.id) (h : ∀ c, r.get? c = s.get? c) : r = s := by
  refine eq_of_entries hid (Ascending.eq_of_mem_iff Prod.fst r.ascending s.ascending fun e => ?_)
  obtain ⟨c, v⟩ := e
  rw [← get?_eq_some_iff, ← get?_eq_some_iff, h]

theorem get?_ofVector (id : RowId) (v : FeatureVector) (c : FeatureId) :
    (ofVector id v).get? c = v.weights[c]? :=
  v.lookup_entries c

/-- Vectors with the same weights make the same row. -/
theorem ofVector_congr (id : RowId) {v u : FeatureVector}
    (h : ∀ c : FeatureId, v.weights[c]? = u.weights[c]?) : ofVector id v = ofVector id u :=
  eq_of_entries rfl (FeatureVector.entries_congr h)

/-! ## Rows without zeros -/

/-- No value of the row is zero. -/
def ZeroFree (r : Row) : Prop := ∀ v ∈ r.values, v.isZero = false

theorem ZeroFree.of_mem (h : r.ZeroFree) {e : FeatureId × Binary32} (he : e ∈ r.entries) :
    e.2.isZero = false :=
  h e.2 (List.mem_map_of_mem he)

theorem zeroFree_iff : r.ZeroFree ↔ ∀ e ∈ r.entries, e.2.isZero = false := by
  simp only [ZeroFree, values, List.forall_mem_map]

theorem zeroFree_ofEntries (id : RowId) (entries : List (FeatureId × Binary32)) :
    (ofEntries id entries).ZeroFree :=
  zeroFree_iff.mpr fun _ he => by simpa using (List.mem_filter.mp he).2

theorem zeroFree_ofVector (id : RowId) (v : FeatureVector) : (ofVector id v).ZeroFree :=
  zeroFree_iff.mpr fun e he => v.nonzero e.1 e.2 (FeatureVector.mem_entries_iff.mp he)

/-- The row that is made of the vector of a row. -/
def remade (r : Row) : Row := ofVector r.id r.toVector

theorem entries_remade (r : Row) : r.remade.entries = r.entries.filter fun e => !e.2.isZero :=
  FeatureVector.entries_ofEntries_filter r.ascending

theorem remade_of_zeroFree (h : r.ZeroFree) : r.remade = r := by
  refine eq_of_entries rfl ?_
  rw [entries_remade, List.filter_eq_self]
  exact fun e he => by simp [h.of_mem he]

/-- A row with a zero has a column that the row of its vector lacks. -/
theorem zeroFree_of_columns_remade (h : r.remade.columns = r.columns) : r.ZeroFree := by
  have hlength : (r.entries.filter fun e => !e.2.isZero).length = r.entries.length := by
    rw [← entries_remade]
    simpa only [columns, List.length_map] using congrArg List.length h
  refine zeroFree_iff.mpr fun e he => ?_
  simpa using List.length_filter_eq_length_iff.mp hlength e he

/-! ## One row, made in several ways -/

open FeatureVector in
theorem get?_ofEntries_eq_lastWeight? (id : RowId) (entries : List (FeatureId × Binary32))
    (c : FeatureId) :
    (ofEntries id entries).get? c = (lastWeight? entries c).filter (!·.isZero) := by
  rw [get?_ofEntries, lastWeight?_eq_getLast?]

theorem ofVector_ofEntries (id : RowId) (entries : List (FeatureId × Binary32)) :
    ofVector id (.ofEntries entries) = ofEntries id entries := by
  refine eq_of_get? rfl fun c => ?_
  rw [get?_ofVector, FeatureVector.getElem?_ofEntries, get?_ofEntries_eq_lastWeight?]

open FeatureVector in
theorem ofVector_ofWeights_lastWins (id : RowId) (entries : List (FeatureId × Binary32)) :
    ofVector id (.ofWeights (lastWins entries)) = ofEntries id entries := by
  rw [← ofVector_ofEntries]
  refine ofVector_congr id fun c => ?_
  rw [getElem?_ofWeights, getElem?_lastWins, getElem?_ofEntries]

/-- A row and a vector give the same weight to every column. -/
structure SameWeights (r : Row) (v : FeatureVector) : Prop where
  get? : ∀ c, r.get? c = v.weights[c]?
  contains : ∀ c, v.contains c = (r.get? c).isSome
  weight : ∀ c, v.weight c = (r.get? c).getD 0

theorem sameWeights_of_ofVector {v : FeatureVector} (h : ofVector r.id v = r) :
    r.SameWeights v := by
  have hget : ∀ c, r.get? c = v.weights[c]? := fun c => by rw [← get?_ofVector r.id, h]
  refine ⟨hget, fun c => ?_, fun c => ?_⟩
  · rw [hget, v.contains_eq_isSome]
  · rw [hget, FeatureVector.weight]

open FeatureVector in
/-- Of entries in any order, with columns that repeat, zeros of either sign and what is not a number,
the row is the same whether they are sorted or first taken into a vector, one by one or from a map in
which the last of each column stands. It has just the last weight of each column, unless that is
zero, answers as these vectors do, and is made again of its own vector. -/
theorem constructions_agree (id : RowId) (entries : List (FeatureId × Binary32)) :
    ofVector id (.ofEntries entries) = ofEntries id entries ∧
    ofVector id (.ofWeights (lastWins entries)) = ofEntries id entries ∧
    ofVector id (ofEntries id entries).toVector = ofEntries id entries ∧
    (ofEntries id entries).columns.Pairwise (· < ·) ∧
    (∀ c v, (c, v) ∈ (ofEntries id entries).entries ↔
      lastWeight? entries c = some v ∧ v.isZero = false) ∧
    (ofEntries id entries).SameWeights (.ofEntries entries) ∧
    (ofEntries id entries).SameWeights (.ofWeights (lastWins entries)) ∧
    (ofEntries id entries).SameWeights (ofEntries id entries).toVector := by
  have hvector := ofVector_ofEntries id entries
  have hweights := ofVector_ofWeights_lastWins id entries
  have hremade := remade_of_zeroFree (zeroFree_ofEntries id entries)
  refine ⟨hvector, hweights, hremade, List.pairwise_map.mpr (ofEntries id entries).ascending,
    fun c v => ?_, sameWeights_of_ofVector hvector, sameWeights_of_ofVector hweights,
    sameWeights_of_ofVector hremade⟩
  rw [← get?_eq_some_iff, get?_ofEntries_eq_lastWeight?, Option.filter_eq_some_iff,
    Bool.not_eq_true', lastWeight?]

/-- A zero in the middle of a column's entries counts for nothing, one at their end takes it out. -/
example : (ofEntries 1 [(2, ⟨0x3f800000⟩), (1, ⟨0x3f800000⟩), (2, 0), (1, ⟨0x80000000⟩),
    (2, ⟨0x40000000⟩)]).entries = [(2, ⟨0x40000000⟩)] := by cbv

end Relatedness.Row
