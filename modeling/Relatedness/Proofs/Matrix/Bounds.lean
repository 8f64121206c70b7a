import Relatedness.Proofs.Matrix.RoundTrip

/-! Reading a matrix file without leaving it. A second reading computes every position in words of
the machine and gives up where a position overflows or a read does not lie in the file. On a file of
any bytes it never gives up and comes to the same as the reading that checks nothing, because an
index is accepted only if it has checked once what is relied on at every later look-up. -/

namespace Relatedness.Matrix.Checked

/-! ## Readings that give up -/

/-- A number that the machine can hold. -/
def machine? (n : Nat) : Option Nat := if n < 2 ^ 64 then some n else none

def add? (a b : Nat) : Option Nat := machine? (a + b)

def mul? (a b : Nat) : Option Nat := machine? (a * b)

/-- So many bytes from a position on, all of which must be there. -/
def slice? (bytes : Bytes) (position n : Nat) : Option Bytes := do
  let stop ← add? position n
  if stop ≤ bytes.length then return (bytes.drop position).take n else none

def word? (bytes : Bytes) (position n : Nat) : Option Nat :=
  (slice? bytes position n).map Bytes.toNat

/-- The entry of the index with this number. -/
def rowAt? (bytes : Bytes) (number : Nat) : Option (RowId × Extent) := do
  let base ← add? headerSize (← mul? number indexEntrySize)
  let id ← word? bytes base 4
  let offset ← word? bytes (← add? base 4) 8
  let width ← word? bytes (← add? base 12) 4
  return (.ofNat id, ⟨offset, width⟩)

/-- Whether a payload lies behind the index and in the file. One whose end overflows does not. -/
def isWithin (indexEnd size : Nat) (extent : Extent) : Bool :=
  indexEnd ≤ extent.offset &&
    (do add? (← mul? extent.width 8) extent.offset : Option Nat).any (· ≤ size)

/-- As many entries of the index, from the one with this number on. -/
def entries? (bytes : Bytes) (indexEnd : Nat) :
    Nat → Nat → Option RowId → Option (Except FileFault (List (RowId × Extent)))
  | 0, _, _ => some (.ok [])
  | n + 1, number, previous? => do
    let (id, extent) ← rowAt? bytes number
    if previous?.any (id ≤ ·) then
      return .error (.unsortedRows id)
    else if !isWithin indexEnd bytes.length extent then
      return .error (.payloadOutOfBounds id)
    else
      return (← entries? bytes indexEnd n (number + 1) (some id)).map ((id, extent) :: ·)

/-- The index of a file, entry by entry. -/
def index? (bytes : Bytes) : Option (Except FileFault (List (RowId × Extent))) := do
  if bytes.length < headerSize then
    return .error .shortHeader
  else if (← slice? bytes 0 4) ≠ FileFormat.matrix.magic then
    return .error (.wrongMagic .matrix)
  else
    let version ← word? bytes 4 2
    if version ≠ FileFormat.matrix.version then
      return .error (.wrongVersion .matrix version)
    else
      let rows ← word? bytes 6 4
      let indexEnd? := do add? (← mul? rows indexEntrySize) headerSize
      match indexEnd?.filter (· ≤ bytes.length) with
      | none => return .error (.truncatedIndex rows)
      | some indexEnd => entries? bytes indexEnd rows 0 none

/-- As many words of four bytes, from a position on. -/
def words? (bytes : Bytes) (start n : Nat) : Option (List UInt32) :=
  (List.range n).mapM fun i => do
    return .ofNat (← word? bytes (← add? start (← mul? i 4)) 4)

/-- The columns and the values of the row at an extent. -/
def payload? (bytes : Bytes) (extent : Extent) : Option (List UInt32 × List Binary32) := do
  let valuesStart ← add? extent.offset (← mul? extent.width 4)
  let columns ← words? bytes extent.offset extent.width
  let values ← words? bytes valuesStart extent.width
  return (columns, values.map Binary32.mk)

/-- The row at an extent, whose columns must strictly ascend. -/
def row? (bytes : Bytes) (id : RowId) (extent : Extent) : Option (Except FileFault Row) := do
  let (columns, values) ← payload? bytes extent
  return if h : Row.columnsAscend (columns.zip values) then
    .ok ⟨id, columns.zip values, Row.pairwise_of_columnsAscend h⟩
  else .error (.unsortedColumns id)

/-- Looks a row up in a file with this index. -/
def get? (path : Path) (bytes : Bytes) (entries : List (RowId × Extent)) (id : RowId) :
    Option (Except Error (Option Row)) :=
  match entries.lookup id with
  | some extent =>
    (row? bytes id extent).map fun read => (read.mapError (.corruptedFile path)).map some
  | none => some (.ok none)

/-- All rows of a file with this index. -/
def rows? (path : Path) (bytes : Bytes) (entries : List (RowId × Extent)) :
    Option (List (Except Error Row)) :=
  entries.mapM fun e => (row? bytes e.1 e.2).map (·.mapError (.corruptedFile path))

/-! ## They do not give up -/

variable {bytes : Bytes} {indexEnd : Nat}

theorem wordAt_drop (bytes : Bytes) (start offset n : Nat) :
    Bytes.wordAt (bytes.drop start) offset n = bytes.wordAt (start + offset) n := by
  rw [Bytes.wordAt, Bytes.wordAt, List.drop_drop]

theorem mapM_eq_some_map {α β : Type} {f : α → Option β} {g : α → β} {l : List α}
    (h : ∀ a ∈ l, f a = some (g a)) : l.mapM f = some (l.map g) := by
  induction l with
  | nil => rfl
  | cons a rest ih =>
    rw [List.mapM_cons, h a List.mem_cons_self, ih fun b hb => h b (List.mem_cons_of_mem a hb)]
    rfl

theorem words_eq (n : Nat) (bytes : Bytes) :
    words n bytes = (List.range n).map fun i => UInt32.ofNat (bytes.wordAt (i * 4) 4) := by
  induction n generalizing bytes with
  | zero => rfl
  | succ n ih =>
    rw [words, ih, List.range_succ_eq_map, List.map_cons, List.map_map]
    congr 1
    refine List.map_congr_left fun i _ => ?_
    rw [wordAt_drop, Function.comp, Nat.succ_mul, Nat.add_comm]

theorem machine?_of_lt {n : Nat} (h : n < 2 ^ 64) : machine? n = some n := if_pos h

section Fits

variable (hsize : bytes.length < 2 ^ 64)
include hsize

theorem slice?_eq {position n : Nat} (h : position + n ≤ bytes.length) :
    slice? bytes position n = some ((bytes.drop position).take n) := by
  rw [slice?, add?, machine?_of_lt (by omega)]
  exact if_pos h

theorem word?_eq {position n : Nat} (h : position + n ≤ bytes.length) :
    word? bytes position n = some (bytes.wordAt position n) := by
  rw [word?, slice?_eq hsize h]
  rfl

theorem rowAt?_eq {number : Nat}
    (h : headerSize + indexEntrySize * (number + 1) ≤ bytes.length) :
    rowAt? bytes number = some (.ofNat (bytes.wordAt (headerSize + indexEntrySize * number) 4),
      ⟨bytes.wordAt (headerSize + indexEntrySize * number + 4) 8,
        bytes.wordAt (headerSize + indexEntrySize * number + 12) 4⟩) := by
  have hend : headerSize + indexEntrySize * number + 16 ≤ bytes.length := by
    unfold indexEntrySize at h ⊢
    omega
  rw [rowAt?, mul?, Nat.mul_comm, machine?_of_lt (by omega)]
  simp only [Option.bind_eq_bind, Option.bind_some]
  rw [add?, machine?_of_lt (by omega)]
  simp only [Option.bind_some]
  rw [word?_eq hsize (by omega), add?, machine?_of_lt (by omega), add?, machine?_of_lt (by omega)]
  simp only [Option.bind_some]
  rw [word?_eq hsize (by omega), word?_eq hsize (by omega)]
  rfl

theorem any_machine?_iff {n : Nat} :
    (machine? n).any (· ≤ bytes.length) = true ↔ n ≤ bytes.length := by
  unfold machine?
  split
  · simp
  · simp only [Option.any_none, Bool.false_eq_true, false_iff]
    omega

theorem isWithin_iff {extent : Extent} : isWithin indexEnd bytes.length extent = true ↔
    indexEnd ≤ extent.offset ∧ extent.offset + 8 * extent.width ≤ bytes.length := by
  have hend : (do add? (← mul? extent.width 8) extent.offset : Option Nat).any
      (· ≤ bytes.length) = true ↔ extent.offset + 8 * extent.width ≤ bytes.length := by
    by_cases hwidth : extent.width * 8 < 2 ^ 64
    · rw [mul?, machine?_of_lt hwidth]
      refine (any_machine?_iff hsize).trans ?_
      rw [Nat.add_comm, Nat.mul_comm]
    · rw [mul?, machine?, if_neg hwidth]
      simp only [Option.bind_eq_bind, Option.bind_none, Option.any_none, Bool.false_eq_true,
        false_iff]
      omega
  rw [isWithin, Bool.and_eq_true, hend, decide_eq_true_iff]

/-- Entries whose ids ascend from behind another one, and whose payloads lie behind the index and in
the file. -/
structure Accepted (bytes : Bytes) (indexEnd : Nat) (previous? : Option RowId)
    (entries : List (RowId × Extent)) : Prop where
  ascending : entries.Pairwise fun a b => a.1 < b.1
  above : ∀ e ∈ entries, ∀ id ∈ previous?, id < e.1
  within : ∀ e ∈ entries,
    indexEnd ≤ e.2.offset ∧ e.2.offset + 8 * e.2.width ≤ bytes.length

omit hsize in
theorem Accepted.cons {previous? : Option RowId} {e : RowId × Extent}
    {entries : List (RowId × Extent)} (h : Accepted bytes indexEnd (some e.1) entries)
    (habove : ∀ id ∈ previous?, id < e.1)
    (hwithin : indexEnd ≤ e.2.offset ∧ e.2.offset + 8 * e.2.width ≤ bytes.length) :
    Accepted bytes indexEnd previous? (e :: entries) where
  ascending := .cons (fun other hother => h.above other hother e.1 rfl) h.ascending
  above := by
    intro other hother id hid
    rcases List.mem_cons.mp hother with rfl | hother
    · exact habove id hid
    · exact UInt32.lt_trans (habove id hid) (h.above other hother e.1 rfl)
  within := List.forall_mem_cons.mpr ⟨hwithin, h.within⟩

/-- Reading the index does not give up where the index lies in the file, and what it accepts has
its payloads there. -/
theorem entries?_eq {n : Nat} (indexEnd number : Nat) (previous? : Option RowId)
    (h : headerSize + indexEntrySize * (number + n) ≤ bytes.length) :
    ∃ read, entries? bytes indexEnd n number previous? = some read ∧
      (∀ index, readEntries indexEnd bytes.length n
          (bytes.drop (headerSize + indexEntrySize * number)) previous? index =
        read.map fun entries => entries.foldl (fun index e => index.insert e.1 e.2) index) ∧
      ∀ entries, read = .ok entries → Accepted bytes indexEnd previous? entries := by
  induction n generalizing number previous? with
  | zero =>
    refine ⟨.ok [], rfl, fun _ => rfl, fun entries hentries => ?_⟩
    cases hentries
    exact ⟨.nil, by simp, by simp⟩
  | succ n ih =>
    have hthis : headerSize + indexEntrySize * (number + 1) ≤ bytes.length := by
      unfold indexEntrySize at h ⊢
      omega
    have hnext : headerSize + indexEntrySize * (number + 1 + n) ≤ bytes.length := by
      rw [Nat.add_assoc, Nat.add_comm 1 n]
      exact h
    have hdrop : (bytes.drop (headerSize + indexEntrySize * number)).drop indexEntrySize =
        bytes.drop (headerSize + indexEntrySize * (number + 1)) := by
      rw [List.drop_drop, Nat.mul_succ, Nat.add_assoc]
    simp only [readEntries, wordAt_drop, Nat.add_zero, hdrop]
    rw [entries?, rowAt?_eq hsize hthis]
    generalize UInt32.ofNat (bytes.wordAt (headerSize + indexEntrySize * number) 4) = id
    generalize bytes.wordAt (headerSize + indexEntrySize * number + 4) 8 = offset
    generalize bytes.wordAt (headerSize + indexEntrySize * number + 12) 4 = width
    simp only [Option.bind_eq_bind, Option.bind_some]
    by_cases hsorted : previous?.any (id ≤ ·) = true
    · simp only [hsorted, if_true]
      exact ⟨_, rfl, fun _ => rfl, fun _ hentries => by cases hentries⟩
    by_cases hwithin : isWithin indexEnd bytes.length ⟨offset, width⟩ = true
    · have hinside := (isWithin_iff hsize).mp hwithin
      obtain ⟨read, hread, hreads, haccepted⟩ := ih (number + 1) (some id) hnext
      simp only [hsorted, hwithin, hread, Bool.not_true, Bool.false_eq_true, if_false,
        Option.bind_some]
      refine ⟨_, rfl, fun index => ?_, fun entries hentries => ?_⟩
      · obtain ⟨hstart, hend⟩ : indexEnd ≤ offset ∧ offset + 8 * width ≤ bytes.length := hinside
        rw [if_neg (by omega), hreads]
        cases read <;> rfl
      · cases read with
        | error fault => cases hentries
        | ok rest =>
          cases hentries
          refine (haccepted rest rfl).cons (e := (id, ⟨offset, width⟩)) (fun other hother => ?_)
            hinside
          cases hother
          simpa using hsorted
    · have hinside := (isWithin_iff hsize).not.mp hwithin
      simp only at hinside
      simp only [hsorted, hwithin, Bool.not_false, Bool.false_eq_true, if_false, if_true]
      exact ⟨_, rfl, fun _ => if_pos (by omega), fun _ hentries => by cases hentries⟩

/-- Reading the index of a file of any bytes does not give up. -/
theorem index?_eq :
    ∃ read, index? bytes = some read ∧
      (readIndex bytes =
        read.map fun entries => entries.foldl (fun index e => index.insert e.1 e.2) ∅) ∧
      ∀ entries, read = .ok entries →
        Accepted bytes (headerSize + indexEntrySize * bytes.wordAt 6 4) none entries := by
  unfold index? readIndex
  by_cases hheader : bytes.length < headerSize
  · simp only [hheader, if_true]
    exact ⟨_, rfl, rfl, fun _ hentries => by cases hentries⟩
  have hlong : 10 ≤ bytes.length := Nat.not_lt.mp hheader
  simp only [hheader, if_false]
  rw [slice?_eq hsize (by omega), word?_eq hsize (by omega), word?_eq hsize (by omega)]
  simp only [List.drop_zero, Option.bind_eq_bind, Option.bind_some]
  by_cases hmagic : bytes.take 4 ≠ FileFormat.matrix.magic
  · rw [if_pos hmagic, if_pos hmagic]
    exact ⟨_, rfl, rfl, fun _ hentries => by cases hentries⟩
  rw [if_neg hmagic, if_neg hmagic]
  by_cases hversion : bytes.wordAt 4 2 ≠ FileFormat.matrix.version
  · rw [if_pos hversion, if_pos hversion]
    exact ⟨_, rfl, rfl, fun _ hentries => by cases hentries⟩
  rw [if_neg hversion, if_neg hversion]
  -- four bytes hold no number of rows whose index overflows
  have hrows := Bytes.wordAt_lt bytes 6 4
  generalize bytes.wordAt 6 4 = rows at *
  rw [mul?, machine?_of_lt (by unfold indexEntrySize; omega), Option.bind_some, add?,
    machine?_of_lt (by unfold indexEntrySize headerSize; omega), Nat.mul_comm, Nat.add_comm]
  by_cases hindex : bytes.length < headerSize + indexEntrySize * rows
  · rw [if_pos hindex, Option.filter_some, if_neg (by simpa using hindex)]
    exact ⟨_, rfl, rfl, fun _ hentries => by cases hentries⟩
  · rw [if_neg hindex, Option.filter_some, if_pos (by simpa using hindex)]
    obtain ⟨read, hread, hreads, haccepted⟩ := entries?_eq hsize
      (headerSize + indexEntrySize * rows) 0 none (by simpa using hindex)
    exact ⟨read, hread, hreads ∅, haccepted⟩

/-! ## Rows -/

theorem words?_eq {start n : Nat} (h : start + n * 4 ≤ bytes.length) :
    words? bytes start n = some (words n (bytes.drop start)) := by
  rw [words_eq]
  refine mapM_eq_some_map fun i hi => ?_
  have hlt := List.mem_range.mp hi
  rw [mul?, machine?_of_lt (by omega), Option.bind_eq_bind, Option.bind_some, add?,
    machine?_of_lt (by omega), Option.bind_some, word?_eq hsize (by omega), wordAt_drop]
  rfl

theorem payload?_eq {extent : Extent}
    (h : extent.offset + 8 * extent.width ≤ bytes.length) :
    payload? bytes extent = some (words extent.width (bytes.drop extent.offset),
      (words extent.width (bytes.drop (extent.offset + 4 * extent.width))).map Binary32.mk) := by
  rw [payload?, mul?, machine?_of_lt (by omega), Option.bind_eq_bind, Option.bind_some, add?,
    machine?_of_lt (by omega), Option.bind_some, Nat.mul_comm, words?_eq hsize (by omega),
    words?_eq hsize (by omega)]
  rfl

theorem row?_eq (id : RowId) {extent : Extent}
    (h : extent.offset + 8 * extent.width ≤ bytes.length) :
    row? bytes id extent = some (readRow bytes id extent) := by
  rw [row?, payload?_eq hsize h, readRow, List.drop_drop]
  rfl

end Fits

/-- A row is decoded to its columns and its values if these columns strictly ascend, and is
refused otherwise. -/
theorem readRow_cases (bytes : Bytes) (id : RowId) (extent : Extent) {columns : List UInt32}
    {values : List Binary32}
    (hcolumns : words extent.width (bytes.drop extent.offset) = columns)
    (hvalues : (words extent.width (bytes.drop (extent.offset + 4 * extent.width))).map
      Binary32.mk = values) :
    (columns.Pairwise (· < ·) ∧ ∃ r, readRow bytes id extent = .ok r ∧ r.id = id ∧
      r.columns = columns ∧ r.values = values) ∨
    (¬columns.Pairwise (· < ·) ∧ readRow bytes id extent = .error (.unsortedColumns id)) := by
  have hlength : columns.length = values.length := by
    rw [← hcolumns, ← hvalues, List.length_map, length_words, length_words]
  have hfst : (columns.zip values).map Prod.fst = columns := List.map_fst_zip hlength.le
  have hsnd : (columns.zip values).map Prod.snd = values := List.map_snd_zip hlength.ge
  have hasc : Row.columnsAscend (columns.zip values) = true ↔ columns.Pairwise (· < ·) := by
    have hmap : columns.Pairwise (· < ·) ↔
        (columns.zip values).Pairwise fun a b => a.1 < b.1 := by
      rw [← List.pairwise_map (f := Prod.fst), hfst]
    rw [hmap]
    exact ⟨Row.pairwise_of_columnsAscend, columnsAscend_of_pairwise⟩
  unfold readRow
  simp only [List.drop_drop, hcolumns, hvalues]
  by_cases hrow : Row.columnsAscend (columns.zip values) = true
  · rw [dif_pos hrow]
    exact .inl ⟨hasc.mp hrow, _, rfl, rfl, hfst, hsnd⟩
  · rw [dif_neg hrow]
    exact .inr ⟨hasc.not.mp hrow, rfl⟩

end Relatedness.Matrix.Checked

namespace Relatedness.FileMatrix

open Relatedness.Matrix

variable {m : FileMatrix} {bytes : Bytes} {entries : List (RowId × Extent)} {now : FileSystem}

/-- What is read of a file of these bytes, the index of which has these entries. Readings that give
up where a position overflows or leaves the file come to the same, so none of them gives up. -/
structure ReadsWithin (m : FileMatrix) (bytes : Bytes) (entries : List (RowId × Extent))
    (now : FileSystem) : Prop where
  get : ∀ id, Checked.get? m.path bytes entries id = some (m.get now id)
  rows : Checked.rows? m.path bytes entries = some (m.rows now)
  /-- All rows are what the look-ups of all ids find. -/
  rows_eq : (m.rows now).map (·.map some) = m.rowIds.map (m.get now)
  contains_iff : ∀ id, m.contains id = true ↔ id ∈ m.rowIds
  get_eq_none_iff : ∀ id, m.get now id = .ok none ↔ m.contains id = false
  /-- A row that is there is decoded to the columns and the values at its extent or, if these
  columns do not ascend, is an error of this row. -/
  decoded : ∀ id, m.contains id = true → ∃ extent columns values,
    entries.lookup id = some extent ∧ Checked.payload? bytes extent = some (columns, values) ∧
      columns.length = extent.width ∧ values.length = extent.width ∧
      if columns.Pairwise (· < ·) then
        ∃ r, m.get now id = .ok (some r) ∧ r.id = id ∧ r.columns = columns ∧ r.values = values
      else m.get now id = .error (.corruptedFile m.path (.unsortedColumns id))

theorem readRow_eq_get (hlist : m.index.toList = entries) {e : RowId × Extent} (he : e ∈ entries) :
    m.get now e.1 = (m.readRow now e.1 e.2).map some := by
  have hget : m.index[e.1]? = some e.2 := by
    rw [← Std.TreeMap.mem_toList_iff_getElem?_eq_some, hlist]
    exact he
  rw [FileMatrix.get, hget]

theorem readsWithin_of_accepted {indexEnd : Nat} (hsize : bytes.length < 2 ^ 64)
    (haccepted : Checked.Accepted bytes indexEnd none entries)
    (hindex : m.index = entries.foldl (fun index e => index.insert e.1 e.2) ∅)
    (hcontent : now.content m.file = bytes) : m.ReadsWithin bytes entries now := by
  have hasc := haccepted.ascending
  have hlist : m.index.toList = entries := by rw [hindex, Ascending.toList_foldl_insert hasc]
  have hlookup : ∀ id, m.index[id]? = entries.lookup id := by
    intro id
    rw [hindex, Ascending.getElem?_foldl_insert hasc]
    simp
  have hread : ∀ e ∈ entries, Checked.row? bytes e.1 e.2 = some (Matrix.readRow bytes e.1 e.2) :=
    fun e he => Checked.row?_eq hsize e.1 (haccepted.within e he).2
  have hcontains : ∀ id, m.contains id = (entries.lookup id).isSome := by
    intro id
    rw [contains, ← hlookup]
    exact Std.TreeMap.contains_eq_isSome_getElem?
  refine ⟨fun id => ?_, ?_, ?_, fun id => ?_, fun id => ?_, fun id hid => ?_⟩
  · rw [Checked.get?, FileMatrix.get, hlookup]
    cases hentry : entries.lookup id with
    | none => rfl
    | some extent =>
      have hmem := (Ascending.lookup_eq_some_iff hasc).mp hentry
      simp only [hread _ hmem, FileMatrix.readRow, hcontent]
      rfl
  · rw [Checked.rows?, FileMatrix.rows, hlist]
    refine Checked.mapM_eq_some_map fun e he => ?_
    change _ = some (m.readRow now e.1 e.2)
    rw [hread e he, FileMatrix.readRow, hcontent]
    rfl
  · rw [FileMatrix.rows, rowIds, ← Std.TreeMap.map_fst_toList_eq_keys, hlist, List.map_map,
      List.map_map]
    exact List.map_congr_left fun e he => (readRow_eq_get hlist he).symm
  · rw [contains, rowIds]
    exact Std.TreeMap.contains_iff_mem.trans Std.TreeMap.mem_keys.symm
  · rw [FileMatrix.get, hlookup, hcontains]
    cases entries.lookup id with
    | none => simp
    | some extent =>
      simp only [Option.isSome_some, Bool.true_eq_false, iff_false]
      cases m.readRow now id extent <;> simp [Except.map]
  · rw [hcontains] at hid
    obtain ⟨extent, hentry⟩ := Option.isSome_iff_exists.mp hid
    have hmem := (Ascending.lookup_eq_some_iff hasc).mp hentry
    have hget : m.get now id = (m.readRow now id extent).map some := readRow_eq_get hlist hmem
    rw [FileMatrix.readRow, hcontent] at hget
    refine ⟨extent, _, _, hentry, Checked.payload?_eq hsize (haccepted.within _ hmem).2,
      length_words _ _, by rw [List.length_map, length_words], ?_⟩
    rcases Checked.readRow_cases bytes id extent rfl rfl with
      ⟨hcolumns, r, hrow, hr⟩ | ⟨hcolumns, hrow⟩
    · rw [if_pos hcolumns]
      rw [hrow] at hget
      exact ⟨r, hget, hr⟩
    · rw [if_neg hcolumns]
      rw [hrow] at hget
      exact hget

/-- Opening a file of any bytes refuses it or accepts an index, in which the ids ascend. Neither
opening nor any later reading computes a position that overflows or reads what is not in the file,
and what is read is what stands there. -/
theorem openFile_safe {fs : FileSystem} {path : Path} {file : Nat}
    (hopen : fs.openFile path = .ok file) (hsize : (fs.content file).length < 2 ^ 64) :
    (∃ fault, Checked.index? (fs.content file) = some (.error fault) ∧
      openFile fs path = .error (.corruptedFile path fault)) ∨
    ∃ entries m, Checked.index? (fs.content file) = some (.ok entries) ∧
      openFile fs path = .ok m ∧ m.path = path ∧ m.rowIds = entries.map Prod.fst ∧
      m.rowIds.Pairwise (· < ·) ∧
      ∀ now : FileSystem, now.content file = fs.content file →
        m.ReadsWithin (fs.content file) entries now := by
  obtain ⟨read, hread, hindex, haccepted⟩ := Checked.index?_eq hsize
  unfold openFile
  simp only [hopen, hindex]
  cases read with
  | error fault => exact .inl ⟨fault, hread, rfl⟩
  | ok entries =>
    have hasc := (haccepted entries rfl).ascending
    refine .inr ⟨entries, _, hread, rfl, rfl, ?_, ?_, fun now hnow =>
      readsWithin_of_accepted hsize (haccepted entries rfl) rfl hnow⟩
    · rw [rowIds, ← Std.TreeMap.map_fst_toList_eq_keys, Ascending.toList_foldl_insert hasc]
    · rw [rowIds, ← Std.TreeMap.map_fst_toList_eq_keys, Ascending.toList_foldl_insert hasc]
      exact List.pairwise_map.mpr hasc

/-- A file of two rows, the columns of the first of which descend. -/
def descending : Bytes :=
  FileFormat.matrix.magic ++ Bytes.word 2 1 ++ Bytes.word 4 2
    ++ (Bytes.word 4 1 ++ Bytes.word 8 42 ++ Bytes.word 4 2)
    ++ (Bytes.word 4 4 ++ Bytes.word 8 58 ++ Bytes.word 4 1)
    ++ (Bytes.word 4 5 ++ Bytes.word 4 3 ++ Bytes.word 8 0) ++ (Bytes.word 4 7 ++ Bytes.word 4 0)

theorem openFile_safe_descending :
    ∃ (fs : FileSystem) (m : FileMatrix), fs.content 0 = descending ∧
      openFile fs ⟨false, ["m"]⟩ = .ok m ∧ m.rowIds = [1, 4] ∧
      m.get fs 1 = .error (.corruptedFile m.path (.unsortedColumns 1)) ∧
      (∃ r, m.get fs 4 = .ok (some r) ∧ r.id = 4 ∧ r.columns = [7] ∧ r.values = [⟨0⟩]) ∧
      m.get fs 2 = .ok none := by
  let fs : FileSystem := ⟨.directory [("m", .file 0)], #[⟨.ofBytes descending, 0⟩], 1⟩
  have hindex : Checked.index? descending = some (.ok [(1, ⟨42, 2⟩), (4, ⟨58, 1⟩)]) := rfl
  have hopen : fs.openFile ⟨false, ["m"]⟩ = .ok 0 := rfl
  have hfirst : Checked.payload? descending ⟨42, 2⟩ = some ([5, 3], [⟨0⟩, ⟨0⟩]) := rfl
  have hsecond : Checked.payload? descending ⟨58, 1⟩ = some ([7], [⟨0⟩]) := rfl
  rcases openFile_safe hopen (by decide) with
    ⟨fault, hfault, _⟩ | ⟨entries, m, hentries, hm, _, hids, _, hreads⟩
  · cases hindex.symm.trans hfault
  cases hindex.symm.trans hentries
  have hread := hreads fs rfl
  refine ⟨fs, m, rfl, hm, hids, ?_, ?_, ?_⟩
  · obtain ⟨_, columns, values, hextent, hpayload, _, _, hget⟩ :=
      hread.decoded 1 (by rw [hread.contains_iff, hids]; decide)
    cases hextent
    cases hfirst.symm.trans hpayload
    exact hget
  · obtain ⟨_, columns, values, hextent, hpayload, _, _, hget⟩ :=
      hread.decoded 4 (by rw [hread.contains_iff, hids]; decide)
    cases hextent
    cases hsecond.symm.trans hpayload
    exact hget
  · rw [hread.get_eq_none_iff, Bool.eq_false_iff, Ne, hread.contains_iff, hids]
    decide

end Relatedness.FileMatrix
