import Relatedness.Proofs.Matrix.Construction
import Relatedness.Proofs.Matrix.Transposition

/-! Transposition of rows without zeros, which may come in any order and share ids. The column of an
id gets the value of the last row with the id that has it. Among rows with ids of their own no cell
gives way to another, so the transpose has as many cells, and transposing it again gives the rows
back, in the order of their ids and without those that are empty. -/

namespace Relatedness.Matrix

variable {rows columns : List Row} {id : RowId} {c : FeatureId} {v : Binary32}

/-! ## Cells that stand for one another -/

/-- The value of a column in the last row with an id that has the column. -/
def lastCell (rows : List Row) (id : RowId) (c : FeatureId) : Option Binary32 :=
  ((rows.filter fun r => r.id == id).filterMap (·.get? c)).getLast?

theorem mem_of_lastCell (h : lastCell rows id c = some v) :
    ∃ r ∈ rows, r.id = id ∧ (c, v) ∈ r.entries := by
  obtain ⟨r, hr, hget⟩ := List.mem_filterMap.mp (List.mem_of_getLast? h)
  obtain ⟨hmem, hid⟩ := List.mem_filter.mp hr
  exact ⟨r, hmem, by simpa using hid, Row.get?_eq_some_iff.mp hget⟩

theorem exists_lastCell {r : Row} (hr : r ∈ rows) (hv : (c, v) ∈ r.entries) :
    ∃ u, lastCell rows r.id c = some u := by
  refine Option.isSome_iff_exists.mp (List.getLast?_isSome.mpr fun hnil => ?_)
  have hmem : v ∈ (rows.filter fun s => s.id == r.id).filterMap (·.get? c) :=
    List.mem_filterMap.mpr ⟨r, List.mem_filter.mpr ⟨hr, by simp⟩, Row.get?_eq_some_iff.mpr hv⟩
  rw [hnil] at hmem
  cases hmem

/-- Rows with ids of their own have one value in each cell. -/
theorem lastCell_eq_some_iff (hdistinct : rows.Pairwise fun a b => a.id ≠ b.id) :
    lastCell rows id c = some v ↔ ∃ r ∈ rows, r.id = id ∧ (c, v) ∈ r.entries := by
  refine ⟨mem_of_lastCell, ?_⟩
  rintro ⟨r, hr, rfl, hv⟩
  obtain ⟨u, hu⟩ := exists_lastCell hr hv
  obtain ⟨s, hs, hid, hmem⟩ := mem_of_lastCell hu
  obtain rfl := List.inj_on_of_nodup_map (List.pairwise_map.mpr hdistinct) hs hr hid
  rw [hu, ← Row.get?_eq_some_iff.mpr hv, Row.get?_eq_some_iff.mpr hmem]

theorem cell_transpose_of_zeroFree (h : ∀ r ∈ rows, r.ZeroFree) (c : FeatureId) (id : RowId) :
    cell (transpose rows) c id = lastCell rows id c := by
  rw [cell_transpose]
  cases hlast : lastCell rows id c with
  | none =>
    rw [lastCell] at hlast
    rw [hlast]
    rfl
  | some v =>
    obtain ⟨r, hr, _, hv⟩ := mem_of_lastCell hlast
    rw [lastCell] at hlast
    rw [hlast]
    simp [Option.filter, (h r hr).of_mem hv]

theorem zeroFree_of_mem_transpose {t : Row} (ht : t ∈ transpose rows) : t.ZeroFree := by
  rw [(mem_transpose_iff.mp ht).2]
  exact Row.zeroFree_ofEntries _ _

/-- A transposed row has entries. -/
theorem entries_ne_nil_of_mem_transpose (h : ∀ r ∈ rows, r.ZeroFree) {t : Row}
    (ht : t ∈ transpose rows) : t.entries ≠ [] := by
  obtain ⟨r, hr, v, hv⟩ := mem_map_id_transpose_iff.mp (List.mem_map_of_mem ht)
  obtain ⟨u, hu⟩ := exists_lastCell hr hv
  rw [← cell_transpose_of_zeroFree h] at hu
  obtain ⟨s, hs, hid, hmem⟩ := (cell_eq_some_iff (pairwise_transpose rows)).mp hu
  rw [Ascending.eq_of_key_eq (pairwise_transpose rows) ht hs hid.symm]
  exact List.ne_nil_of_mem hmem

/-! ## Lists with the same cells -/

theorem mem_of_cell_eq (hrows : rows.Pairwise fun a b => a.id < b.id)
    (hcolumns : columns.Pairwise fun a b => a.id < b.id)
    (h : ∀ id c, cell rows id c = cell columns id c) {r : Row} (hr : r ∈ rows)
    (hfilled : r.entries ≠ []) : r ∈ columns := by
  obtain ⟨⟨c, v⟩, he⟩ := List.exists_mem_of_ne_nil _ hfilled
  have hcell := (cell_eq_some_iff hrows).mpr ⟨r, hr, rfl, he⟩
  rw [h] at hcell
  obtain ⟨s, hs, hid, _⟩ := (cell_eq_some_iff hcolumns).mp hcell
  -- both are the only row of this id, so their answers are the cells
  have hsame : s = r := by
    refine Row.eq_of_get? hid fun c => ?_
    have hcells := h r.id c
    rw [cell, (Ascending.find?_eq_some_iff hrows).mpr ⟨hr, rfl⟩, cell,
      (Ascending.find?_eq_some_iff hcolumns).mpr ⟨hs, hid⟩] at hcells
    exact hcells.symm
  exact hsame ▸ hs

/-- Rows that have entries are known from their cells. -/
theorem eq_of_cell_eq (hrows : rows.Pairwise fun a b => a.id < b.id)
    (hcolumns : columns.Pairwise fun a b => a.id < b.id) (hfilled : ∀ r ∈ rows, r.entries ≠ [])
    (hfilled' : ∀ r ∈ columns, r.entries ≠ [])
    (h : ∀ id c, cell rows id c = cell columns id c) : rows = columns :=
  Ascending.eq_of_mem_iff Row.id hrows hcolumns fun r =>
    ⟨fun hr => mem_of_cell_eq hrows hcolumns h hr (hfilled r hr),
      fun hr => mem_of_cell_eq hcolumns hrows (fun id c => (h id c).symm) hr (hfilled' r hr)⟩

/-- A matrix and its transpose have equally many cells. -/
theorem sum_width_of_transposed (hrows : rows.Pairwise fun a b => a.id < b.id)
    (hcolumns : columns.Pairwise fun a b => a.id < b.id) (h : Transposed rows columns) :
    (rows.map Row.width).sum = (columns.map Row.width).sum := by
  have hperm : ((cells columns).map Prod.swap).Perm (cells rows) := by
    refine (List.perm_ext_iff_of_nodup ((nodup_cells hcolumns).map Prod.swap_injective)
      (nodup_cells hrows)).mpr fun p => ?_
    obtain ⟨id, c⟩ := p
    rw [mem_cells_iff hrows, h id c, ← mem_cells_iff hcolumns, List.mem_map]
    constructor
    · rintro ⟨⟨c', id'⟩, hmem, heq⟩
      cases heq
      exact hmem
    · exact fun hmem => ⟨(c, id), hmem, rfl⟩
  rw [← length_cells, ← length_cells, ← hperm.length_eq, List.length_map]

/-! ## Rows with ids of their own -/

def sortById (rows : List Row) : List Row := rows.mergeSort fun a b => a.id ≤ b.id

theorem perm_sortById (rows : List Row) : (sortById rows).Perm rows := List.mergeSort_perm rows _

theorem pairwise_sortById (h : rows.Pairwise fun a b => a.id ≠ b.id) :
    (sortById rows).Pairwise fun a b => a.id < b.id := by
  have hdistinct : (sortById rows).Pairwise fun a b => a.id ≠ b.id :=
    (perm_sortById rows).symm.pairwise h fun hne => hne.symm
  have hsorted := @List.pairwise_mergeSort _ (fun a b : Row => decide (a.id ≤ b.id))
    (fun a b c => by simpa using UInt32.le_trans) (fun a b => by simpa using UInt32.le_total ..)
    rows
  refine (hdistinct.and hsorted).imp fun {a b} hboth => ?_
  exact UInt32.lt_of_le_of_ne (by simpa using hboth.2) hboth.1

theorem cell_transpose_eq_some_iff (h : ∀ r ∈ rows, r.ZeroFree)
    (hdistinct : rows.Pairwise fun a b => a.id ≠ b.id) :
    cell (transpose rows) c id = some v ↔ ∃ r ∈ rows, r.id = id ∧ (c, v) ∈ r.entries := by
  rw [cell_transpose_of_zeroFree h, lastCell_eq_some_iff hdistinct]

theorem transposed_sortById (h : ∀ r ∈ rows, r.ZeroFree)
    (hdistinct : rows.Pairwise fun a b => a.id ≠ b.id) :
    Transposed (sortById rows) (transpose rows) := by
  intro id c
  ext v
  rw [cell_eq_some_iff (pairwise_sortById hdistinct), cell_transpose_eq_some_iff h hdistinct]
  simp only [(perm_sortById rows).mem_iff]

/-- Nothing is lost by transposition if no cell is zero. -/
theorem transposed_transpose (h : ∀ r ∈ rows, r.ZeroFree)
    (hasc : rows.Pairwise fun a b => a.id < b.id) : Transposed rows (transpose rows) := by
  intro id c
  ext v
  rw [cell_eq_some_iff hasc, cell_transpose_eq_some_iff h (Ascending.pairwise_ne hasc)]

theorem sum_width_transpose (h : ∀ r ∈ rows, r.ZeroFree)
    (hdistinct : rows.Pairwise fun a b => a.id ≠ b.id) :
    ((transpose rows).map Row.width).sum = (rows.map Row.width).sum := by
  rw [← ((perm_sortById rows).map Row.width).sum_nat]
  exact (sum_width_of_transposed (pairwise_sortById hdistinct) (pairwise_transpose rows)
    (transposed_sortById h hdistinct)).symm

/-- The rows that have entries come back. -/
theorem transpose_transpose (h : ∀ r ∈ rows, r.ZeroFree)
    (hdistinct : rows.Pairwise fun a b => a.id ≠ b.id) :
    transpose (transpose rows) = sortById (rows.filter (!·.isEmpty)) := by
  have hsorted := pairwise_sortById (hdistinct.filter (!·.isEmpty))
  have hmem : ∀ r, r ∈ sortById (rows.filter (!·.isEmpty)) ↔ r ∈ rows ∧ r.entries ≠ [] := by
    intro r
    rw [(perm_sortById _).mem_iff, List.mem_filter]
    simp [Row.isEmpty]
  refine eq_of_cell_eq (pairwise_transpose _) hsorted
    (fun r hr => entries_ne_nil_of_mem_transpose (fun _ => zeroFree_of_mem_transpose) hr)
    (fun r hr => ((hmem r).mp hr).2) fun id c => ?_
  ext v
  rw [← transposed_transpose (fun _ => zeroFree_of_mem_transpose) (pairwise_transpose rows),
    cell_transpose_eq_some_iff h hdistinct, cell_eq_some_iff hsorted]
  constructor
  · rintro ⟨r, hr, hid, hv⟩
    exact ⟨r, (hmem r).mpr ⟨hr, List.ne_nil_of_mem hv⟩, hid, hv⟩
  · rintro ⟨r, hr, hid, hv⟩
    exact ⟨r, ((hmem r).mp hr).1, hid, hv⟩

/-! ## The transpose -/

/-- What the columns of rows are. Of rows with one id the last that has a column gives its value. -/
structure Gathers (rows columns : List Row) : Prop where
  ascending : columns.Pairwise fun a b => a.id < b.id
  used : ∀ c, c ∈ columns.map Row.id ↔ ∃ r ∈ rows, c ∈ r.columns
  filled : ∀ t ∈ columns, t.isEmpty = false
  sorted : ∀ t ∈ columns, t.columns.Pairwise (· < ·)
  cells : ∀ c id, cell columns c id = lastCell rows id c

/-- Transposing rows without zeros keeps every cell that no later one stands for. If the rows have
ids of their own it keeps them all, and transposing again undoes it but for the order of the rows
and those that are empty. The first row that fails to arrive decides. -/
theorem transpose_undone (rows : List Row) (h : ∀ r ∈ rows, r.ZeroFree) :
    Gathers rows (transpose rows) ∧
    ((rows.Pairwise fun a b => a.id ≠ b.id) →
      ((transpose rows).map Row.width).sum = (rows.map Row.width).sum ∧
      transpose (transpose rows) = sortById (rows.filter (!·.isEmpty)) ∧
      (sortById (rows.filter (!·.isEmpty))).Pairwise fun a b => a.id < b.id) ∧
    transposeAll (rows.map (Except.ok (ε := Error))) = .ok (transpose rows) ∧
    ∀ (before : List Row) (e : Error) (after : List (Except Error Row)),
      transposeAll (before.map .ok ++ .error e :: after) = .error e := by
  refine ⟨⟨pairwise_transpose rows, fun c => ?_, fun t ht => ?_,
    fun t _ => List.pairwise_map.mpr t.ascending, cell_transpose_of_zeroFree h⟩,
    fun hdistinct => ⟨sum_width_transpose h hdistinct, transpose_transpose h hdistinct,
      pairwise_sortById (hdistinct.filter _)⟩, ?_, fun before e after => ?_⟩
  · rw [mem_map_id_transpose_iff]
    simp only [Row.columns, List.mem_map, Prod.exists, exists_and_right, exists_eq_right]
  · simpa [Row.isEmpty] using entries_ne_nil_of_mem_transpose h ht
  · rw [transposeAll, mapM_id_map_ok]
    rfl
  · rw [transposeAll, mapM_id_append_error]
    rfl

def rowOne : Row := ⟨1, [(2, ⟨0x3f800000⟩), (5, ⟨0x40000000⟩)], by decide⟩

def rowThree : Row := ⟨3, [(2, ⟨0x40400000⟩)], by decide⟩

theorem empty_ascends : ([] : List (FeatureId × Binary32)).Pairwise fun a b => a.1 < b.1 := .nil

/-- Rows in descending order, one of them empty. -/
def descendingRows : List Row := [rowThree, ⟨2, [], empty_ascends⟩, rowOne]

theorem transpose_undone_descending :
    (∀ r ∈ descendingRows, r.ZeroFree) ∧ (descendingRows.Pairwise fun a b => a.id ≠ b.id) ∧
      cell (transpose descendingRows) 2 3 = some ⟨0x40400000⟩ ∧
      ((transpose descendingRows).map Row.width).sum = 3 ∧
      transpose (transpose descendingRows) = [rowOne, rowThree] := by
  have hzero : ∀ r ∈ descendingRows, r.ZeroFree := by
    simp only [Row.zeroFree_iff]
    decide
  have hdistinct : descendingRows.Pairwise fun a b => a.id ≠ b.id := by decide
  obtain ⟨hgathers, hundone, _⟩ := transpose_undone descendingRows hzero
  obtain ⟨htotal, hagain, hsorted⟩ := hundone hdistinct
  refine ⟨hzero, hdistinct, ?_, ?_, ?_⟩
  · rw [hgathers.cells]
    decide
  · rw [htotal]
    decide
  · rw [hagain]
    refine Ascending.eq_of_mem_iff Row.id hsorted (by decide) fun r => ?_
    rw [(perm_sortById _).mem_iff]
    exact (List.Perm.swap rowOne rowThree []).mem_iff

end Relatedness.Matrix
