import Relatedness.Matrix.Transpose
import Relatedness.Proofs.Matrix.Row

/-! Transposition keeps the cells that are not zero. The cells of two lists of rows are counted
to tell whether one is the transpose of the other: if no cell of the second is foreign to the
first and both have equally many, none is missing. -/

namespace Relatedness.Matrix

/-! ## Gathering columns -/

/-- The entries of a column, in the order of the rows. -/
def columnOf (rows : List Row) (c : FeatureId) : List (RowId × Binary32) :=
  rows.filterMap fun r => (r.get? c).map (r.id, ·)

/-- Takes an entry into a column, which begins with it if there is none yet. -/
def push (column? : Option (Array (RowId × Binary32))) (e : RowId × Binary32) :
    Option (Array (RowId × Binary32)) :=
  some ((column?.getD #[]).push e)

theorem foldl_push_some (column : Array (RowId × Binary32)) (l : List (RowId × Binary32)) :
    l.foldl push (some column) = some (column ++ l.toArray) := by
  induction l generalizing column with
  | nil => simp
  | cons e rest ih =>
    rw [List.foldl_cons, push, Option.getD_some, ih]
    simp

theorem foldl_push_none (l : List (RowId × Binary32)) :
    l.foldl push none = if l = [] then none else some l.toArray := by
  cases l with
  | nil => rfl
  | cons e rest =>
    rw [List.foldl_cons, push, foldl_push_some]
    simp

theorem getElem?_pushRow (id : RowId) {entries : List (FeatureId × Binary32)}
    (h : entries.Pairwise fun a b => a.1 < b.1)
    (columns : Std.TreeMap FeatureId (Array (RowId × Binary32))) (c : FeatureId) :
    (entries.foldl (fun columns e => columns.alter e.1 fun old? => push old? (id, e.2)) columns)[c]? =
      ((entries.lookup c).map (id, ·)).toList.foldl push columns[c]? := by
  induction entries generalizing columns with
  | nil => rfl
  | cons e rest ih =>
    obtain ⟨column, w⟩ := e
    rw [List.foldl_cons, ih h.tail, Std.TreeMap.getElem?_alter, List.lookup_cons]
    by_cases heq : column = c
    · subst heq
      have hnone : rest.lookup column = none := by
        refine Option.eq_none_iff_forall_not_mem.mpr fun v hv => ?_
        have hmem := (Ascending.lookup_eq_some_iff h.tail).mp hv
        exact UInt32.lt_irrefl column (List.rel_of_pairwise_cons h hmem)
      simp [hnone]
    · have hne : (c == column) = false := by simpa using fun h => heq h.symm
      have hcmp : compare column c ≠ .eq := by simpa using heq
      simp [hne, hcmp]

theorem getElem?_columnEntries (rows : List Row) (c : FeatureId) :
    (columnEntries rows)[c]? =
      if columnOf rows c = [] then none else some (columnOf rows c).toArray := by
  have hfold : ∀ columns : Std.TreeMap FeatureId (Array (RowId × Binary32)),
      (rows.foldl (fun columns r => r.entries.foldl
        (fun columns e => columns.alter e.1 fun old? => push old? (r.id, e.2)) columns) columns)[c]? =
        (columnOf rows c).foldl push columns[c]? := by
    induction rows with
    | nil => exact fun _ => rfl
    | cons r rest ih =>
      intro columns
      have hcons : columnOf (r :: rest) c =
          ((r.entries.lookup c).map (r.id, ·)).toList ++ columnOf rest c := by
        unfold columnOf Row.get?
        rw [List.filterMap_cons]
        cases r.entries.lookup c <;> rfl
      rw [List.foldl_cons, ih, getElem?_pushRow r.id r.ascending, hcons, List.foldl_append]
  rw [← foldl_push_none]
  have hempty : (∅ : Std.TreeMap FeatureId (Array (RowId × Binary32)))[c]? = none := by simp
  rw [← hempty]
  exact hfold ∅

/-! ## The transpose -/

theorem mem_transpose_iff {rows : List Row} {t : Row} :
    t ∈ transpose rows ↔
      columnOf rows t.id ≠ [] ∧ t = .ofEntries t.id (columnOf rows t.id) := by
  simp only [transpose, List.mem_map, Prod.exists, Std.TreeMap.mem_toList_iff_getElem?_eq_some,
    getElem?_columnEntries]
  constructor
  · intro h
    obtain ⟨c, entries, hentries, rfl⟩ := h
    obtain ⟨hne, heq⟩ := Option.ite_none_left_eq_some.mp hentries
    cases heq
    exact ⟨hne, rfl⟩
  · intro h
    obtain ⟨hne, heq⟩ := h
    exact ⟨t.id, _, if_neg hne, heq.symm⟩

theorem map_id_transpose (rows : List Row) :
    (transpose rows).map Row.id = (columnEntries rows).keys := by
  rw [transpose, List.map_map, ← Std.TreeMap.map_fst_toList_eq_keys]
  rfl

theorem pairwise_transpose (rows : List Row) :
    (transpose rows).Pairwise fun a b => a.id < b.id := by
  refine List.pairwise_map.mp (?_ : ((transpose rows).map Row.id).Pairwise (· < ·))
  rw [map_id_transpose]
  exact (columnEntries rows).ordered_keys.imp compareOfLessAndEq_eq_lt.mp

theorem columnOf_ne_nil_iff {rows : List Row} {c : FeatureId} :
    columnOf rows c ≠ [] ↔ ∃ r ∈ rows, ∃ v, (c, v) ∈ r.entries := by
  rw [ne_eq, List.eq_nil_iff_forall_not_mem, not_forall_not]
  simp only [columnOf, List.mem_filterMap, Option.map_eq_some_iff, Row.get?_eq_some_iff]
  constructor
  · intro h
    obtain ⟨_, r, hr, v, hv, _⟩ := h
    exact ⟨r, hr, v, hv⟩
  · intro h
    obtain ⟨r, hr, v, hv⟩ := h
    exact ⟨_, r, hr, v, hv, rfl⟩

/-- There is a row for each column that is used, be it for zeros only. -/
theorem mem_map_id_transpose_iff {rows : List Row} {c : FeatureId} :
    c ∈ (transpose rows).map Row.id ↔ ∃ r ∈ rows, ∃ v, (c, v) ∈ r.entries := by
  rw [← columnOf_ne_nil_iff, List.mem_map]
  constructor
  · intro hboth
    obtain ⟨t, ht, rfl⟩ := hboth
    exact (mem_transpose_iff.mp ht).1
  · intro h
    exact ⟨.ofEntries c (columnOf rows c), mem_transpose_iff.mpr ⟨h, rfl⟩, rfl⟩

/-- The cell of a transpose is that of the last row with the id that has the column, unless it
is zero. -/
theorem cell_transpose (rows : List Row) (c : FeatureId) (id : RowId) :
    cell (transpose rows) c id =
      (((rows.filter fun r => r.id == id).filterMap (·.get? c)).getLast?).filter (!·.isZero) := by
  have hlast : (((columnOf rows c).filter fun e => e.1 == id).getLast?).map Prod.snd =
      ((rows.filter fun r => r.id == id).filterMap (·.get? c)).getLast? := by
    rw [← List.getLast?_map]
    congr 1
    unfold columnOf
    induction rows with
    | nil => rfl
    | cons r rest ih =>
      by_cases hid : r.id = id
      · rw [List.filter_cons_of_pos (by simpa using hid), List.filterMap_cons, List.filterMap_cons]
        cases r.get? c with
        | none => exact ih
        | some v =>
          simp only [Option.map_some]
          rw [List.filter_cons_of_pos (by simpa using hid), List.map_cons, ih]
      · rw [List.filter_cons_of_neg (by simpa using hid), List.filterMap_cons]
        cases r.get? c with
        | none => exact ih
        | some v =>
          simp only [Option.map_some]
          rw [List.filter_cons_of_neg (by simpa using hid), ih]
  rw [← hlast, cell]
  by_cases hne : columnOf rows c = []
  · have hnone : (transpose rows).find? (fun t => t.id == c) = none := by
      refine List.find?_eq_none.mpr fun t ht heq => ?_
      have hid : t.id = c := by simpa using heq
      exact (mem_transpose_iff.mp ht).1 (hid ▸ hne)
    simp [hnone, hne]
  · have hfound : (transpose rows).find? (fun t => t.id == c) =
        some (.ofEntries c (columnOf rows c)) :=
      (Ascending.find?_eq_some_iff (pairwise_transpose rows)).mpr
        ⟨mem_transpose_iff.mpr ⟨hne, rfl⟩, rfl⟩
    rw [hfound, Option.bind_some, Row.get?_ofEntries]

theorem filter_id_of_ascending {rows : List Row} (h : rows.Pairwise fun a b => a.id < b.id)
    (id : RowId) : (rows.filter fun r => r.id == id) = (rows.find? fun r => r.id == id).toList := by
  induction rows with
  | nil => rfl
  | cons r rest ih =>
    by_cases hid : r.id = id
    · have hrest : (rest.filter fun r => r.id == id) = [] := by
        refine List.filter_eq_nil_iff.mpr fun s hs => ?_
        have hlt := List.rel_of_pairwise_cons h hs
        rw [hid] at hlt
        simpa using fun heq : s.id = id => UInt32.lt_irrefl id (heq ▸ hlt)
      rw [List.filter_cons_of_pos (by simpa using hid), hrest, List.find?_cons]
      simp [hid]
    · have hne : (r.id == id) = false := by simpa using hid
      rw [List.filter_cons_of_neg (by simpa using hid), ih h.tail, List.find?_cons, hne]

/-- Where ids ascend, transposition exchanges rows and columns of the cells that are not zero. -/
theorem cell_transpose_of_ascending {rows : List Row} (h : rows.Pairwise fun a b => a.id < b.id)
    (c : FeatureId) (id : RowId) :
    cell (transpose rows) c id = (cell rows id c).filter (!·.isZero) := by
  rw [cell_transpose, filter_id_of_ascending h, cell]
  cases rows.find? fun r => r.id == id with
  | none => rfl
  | some r => cases hr : r.get? c <;> simp [hr]

/-! ## Counting cells -/

/-- The places of all cells. -/
def cells (rows : List Row) : List (RowId × FeatureId) :=
  rows.flatMap fun r => r.columns.map fun c => (r.id, c)

theorem length_cells (rows : List Row) : (cells rows).length = (rows.map Row.width).sum := by
  simp only [cells, List.length_flatMap, List.length_map, Row.columns]
  rfl

theorem mem_cells_iff {rows : List Row} (h : rows.Pairwise fun a b => a.id < b.id)
    {id : RowId} {c : FeatureId} : (id, c) ∈ cells rows ↔ ∃ v, cell rows id c = some v := by
  simp only [cell_eq_some_iff h, cells, List.mem_flatMap, List.mem_map, Row.columns, Prod.mk.injEq]
  constructor
  · intro hboth
    obtain ⟨r, hr, _, ⟨e, he, rfl⟩, rfl, rfl⟩ := hboth
    exact ⟨e.2, r, hr, rfl, he⟩
  · intro hboth
    obtain ⟨v, r, hr, rfl, hv⟩ := hboth
    exact ⟨r, hr, c, ⟨_, hv, rfl⟩, rfl, rfl⟩

theorem nodup_cells {rows : List Row} (h : rows.Pairwise fun a b => a.id < b.id) :
    (cells rows).Nodup := by
  refine List.nodup_flatMap.mpr ⟨fun r _ => ?_, h.imp fun hlt => ?_⟩
  · refine List.pairwise_map.mpr ?_
    refine List.pairwise_map.mpr (r.ascending.imp fun hlt heq => ?_)
    exact UInt32.lt_irrefl _ ((Prod.mk.inj heq).2 ▸ hlt)
  · intro p hp hq
    obtain ⟨_, _, rfl⟩ := List.mem_map.mp hp
    obtain ⟨_, _, heq⟩ := List.mem_map.mp hq
    exact UInt32.lt_irrefl _ ((Prod.mk.inj heq).1 ▸ hlt)

/-- If no cell of the columns is foreign to the rows, their places are among those of the rows. -/
theorem subperm_cells {rows columns : List Row}
    (hrows : rows.Pairwise fun a b => a.id < b.id)
    (hcolumns : columns.Pairwise fun a b => a.id < b.id)
    (hsub : ∀ c id v, cell columns c id = some v → cell rows id c = some v) :
    ((cells columns).map Prod.swap).Subperm (cells rows) := by
  refine List.subperm_of_subset ((nodup_cells hcolumns).map Prod.swap_injective) ?_
  intro p hp
  obtain ⟨⟨c, id⟩, hmem, rfl⟩ := List.mem_map.mp hp
  obtain ⟨v, hv⟩ := (mem_cells_iff hcolumns).mp hmem
  exact (mem_cells_iff hrows).mpr ⟨v, hsub c id v hv⟩

/-- A transpose has no more entries than the rows. -/
theorem sum_width_transpose_le {rows : List Row} (h : rows.Pairwise fun a b => a.id < b.id) :
    ((transpose rows).map Row.width).sum ≤ (rows.map Row.width).sum := by
  have hsub := subperm_cells h (pairwise_transpose rows) fun c id v hv => by
    rw [cell_transpose_of_ascending h] at hv
    exact (Option.filter_eq_some_iff.mp hv).1
  rw [← length_cells, ← length_cells, ← List.length_map Prod.swap]
  exact hsub.length_le

/-- If no cell of the columns is foreign to the rows, and there are equally many cells in both,
the columns are the rows transposed. -/
theorem transposed_of_sum_width {rows columns : List Row}
    (hrows : rows.Pairwise fun a b => a.id < b.id)
    (hcolumns : columns.Pairwise fun a b => a.id < b.id)
    (hsub : ∀ c id v, cell columns c id = some v → cell rows id c = some v)
    (hsum : (rows.map Row.width).sum = (columns.map Row.width).sum) : Transposed rows columns := by
  have hperm : ((cells columns).map Prod.swap).Perm (cells rows) := by
    refine (subperm_cells hrows hcolumns hsub).perm_of_length_le ?_
    rw [List.length_map, length_cells, length_cells, hsum]
  intro id c
  cases hcell : cell rows id c with
  | none =>
    cases hother : cell columns c id with
    | none => rfl
    | some v => exact absurd (hsub c id v hother) (by simp [hcell])
  | some v =>
    have hmem : (id, c) ∈ (cells columns).map Prod.swap :=
      hperm.mem_iff.mpr ((mem_cells_iff hrows).mpr ⟨v, hcell⟩)
    obtain ⟨⟨c', id'⟩, hmem', heq⟩ := List.mem_map.mp hmem
    cases heq
    obtain ⟨u, hu⟩ := (mem_cells_iff hcolumns).mp hmem'
    rw [hu, ← hcell, hsub _ _ u hu]

theorem transposed_of_no_cells {rows columns : List Row}
    (hrows : rows.Pairwise fun a b => a.id < b.id)
    (hcolumns : columns.Pairwise fun a b => a.id < b.id)
    (hzero : (rows.map Row.width).sum = 0 ∨ (columns.map Row.width).sum = 0)
    (hsum : (rows.map Row.width).sum = (columns.map Row.width).sum) : Transposed rows columns := by
  refine transposed_of_sum_width hrows hcolumns (fun c id v hv => ?_) hsum
  have hnil : cells columns = [] := by
    rw [← List.length_eq_zero_iff, length_cells]
    omega
  have hmem := (mem_cells_iff hcolumns).mpr ⟨v, hv⟩
  rw [hnil] at hmem
  cases hmem

end Relatedness.Matrix
