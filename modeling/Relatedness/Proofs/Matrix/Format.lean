import Relatedness.Proofs.Codec.Bytes
import Relatedness.Proofs.Matrix.Contents

/-! What is read from a file that holds encoded rows: the index lists the rows, and each row is
decoded as it was written. The number of rows and the width of a row are words of four bytes in
the file. As many rows, or as wide a row, as do not fit there are written as none, which
`stored` accounts for. -/

namespace Relatedness.Matrix

/-! ## The index -/

/-- The index entries of rows whose payloads stand one after the other from `offset` on. -/
def extents : Nat → List Row → List (RowId × Extent)
  | _, [] => []
  | offset, r :: rest =>
    (r.id, ⟨offset, r.width % 2 ^ 32⟩) :: extents (offset + 8 * r.width) rest

/-- The bytes that the payloads of rows take. -/
def payloadSize (rows : List Row) : Nat := (rows.map fun r => 8 * r.width).sum

theorem map_fst_extents (offset : Nat) (rows : List Row) :
    (extents offset rows).map Prod.fst = rows.map Row.id := by
  induction rows generalizing offset with
  | nil => rfl
  | cons r rest ih => simp [extents, ih]

theorem pairwise_extents {rows : List Row} (h : rows.Pairwise fun a b => a.id < b.id)
    (offset : Nat) : (extents offset rows).Pairwise fun a b => a.1 < b.1 := by
  refine List.pairwise_map.mp (?_ : ((extents offset rows).map Prod.fst).Pairwise (· < ·))
  rw [map_fst_extents]
  exact List.pairwise_map.mpr h

theorem length_flatMap_word {α : Type} (n : Nat) (f : α → Nat) (l : List α) :
    (l.flatMap fun a => Bytes.word n (f a)).length = n * l.length := by
  induction l with
  | nil => rfl
  | cons a rest ih =>
    rw [List.flatMap_cons, List.length_append, Bytes.length_word, ih, List.length_cons,
      Nat.mul_succ, Nat.add_comm]

theorem length_payload (r : Row) : (payload r).length = 8 * r.width := by
  unfold payload
  rw [List.length_append, length_flatMap_word, length_flatMap_word]
  simp only [Row.columns, Row.values, List.length_map, Row.width]
  omega

theorem length_flatMap_payload (rows : List Row) :
    (rows.flatMap payload).length = payloadSize rows := by
  induction rows with
  | nil => rfl
  | cons r rest ih =>
    rw [List.flatMap_cons, List.length_append, length_payload, ih]
    simp [payloadSize]

theorem length_indexBytes (offset : Nat) (rows : List Row) :
    (indexBytes offset rows).length = indexEntrySize * rows.length := by
  induction rows generalizing offset with
  | nil => rfl
  | cons r rest ih =>
    simp only [indexBytes, List.length_append, Bytes.length_word, ih, List.length_cons,
      indexEntrySize]
    omega

theorem length_encode (rows : List Row) :
    (encode rows).length = headerSize + indexEntrySize * rows.length + payloadSize rows := by
  simp only [encode, List.length_append, Bytes.length_word, length_indexBytes,
    length_flatMap_payload, FileFormat.magic, List.length_cons, List.length_nil, headerSize]

/-- How the first entry of a written index is read. -/
theorem readEntries_indexBytes_cons {indexEnd size offset : Nat} (h : offset < 2 ^ 64) (r : Row)
    (rest : List Row) (tail : Bytes) (previous? : Option RowId)
    (index : Std.TreeMap RowId Extent) :
    readEntries indexEnd size (r :: rest).length (indexBytes offset (r :: rest) ++ tail) previous?
        index =
      if previous?.any (r.id ≤ ·) then .error (.unsortedRows r.id)
      else if offset < indexEnd ∨ size < offset + 8 * (r.width % 2 ^ 32) then
        .error (.payloadOutOfBounds r.id)
      else readEntries indexEnd size rest.length (indexBytes (offset + 8 * r.width) rest ++ tail)
        (some r.id) (index.insert r.id ⟨offset, r.width % 2 ^ 32⟩) := by
  have hid : UInt32.ofNat (Bytes.wordAt (indexBytes offset (r :: rest) ++ tail) 0 4) = r.id := by
    simp only [indexBytes, List.append_assoc]
    rw [Bytes.wordAt_word_append_of_lt (by simpa using r.id.toNat_lt), UInt32.ofNat_toNat]
  have hoffset : Bytes.wordAt (indexBytes offset (r :: rest) ++ tail) 4 8 = offset := by
    simp only [indexBytes, List.append_assoc]
    rw [Bytes.wordAt_append (by simp), Bytes.length_word,
      Bytes.wordAt_word_append_of_lt (by rw [show (256 : Nat) ^ 8 = 2 ^ 64 from rfl]; omega)]
  have hwidth : Bytes.wordAt (indexBytes offset (r :: rest) ++ tail) 12 4 = r.width % 2 ^ 32 := by
    simp only [indexBytes, List.append_assoc]
    rw [Bytes.wordAt_append (by simp), Bytes.length_word, Bytes.wordAt_append (by simp),
      Bytes.length_word, Bytes.wordAt_word_append]
    rfl
  have hdrop : (indexBytes offset (r :: rest) ++ tail).drop indexEntrySize =
      indexBytes (offset + 8 * r.width) rest ++ tail := by
    have hlen : (Bytes.word 4 r.id.toNat ++ Bytes.word 8 offset ++ Bytes.word 4 r.width).length =
        indexEntrySize := by simp [indexEntrySize]
    rw [indexBytes, List.append_assoc, ← hlen, List.drop_left]
  rw [List.length_cons, readEntries]
  simp only [hid, hoffset, hwidth, hdrop]

theorem payloadSize_cons (r : Row) (rest : List Row) :
    payloadSize (r :: rest) = 8 * r.width + payloadSize rest := by
  simp [payloadSize]

/-- Reading the index that was written gives its entries, as long as the payloads lie in a file
whose size fits a word of eight bytes. -/
theorem readEntries_indexBytes {indexEnd size offset : Nat} {rows : List Row}
    {previous? : Option RowId}
    (hasc : rows.Pairwise fun a b => a.id < b.id)
    (hprevious : ∀ r ∈ rows, ∀ id ∈ previous?, id < r.id) (hstart : indexEnd ≤ offset)
    (hend : offset + payloadSize rows ≤ size) (hsize : size < 2 ^ 64) (tail : Bytes)
    (index : Std.TreeMap RowId Extent) :
    readEntries indexEnd size rows.length (indexBytes offset rows ++ tail) previous? index =
      .ok ((extents offset rows).foldl (fun index e => index.insert e.1 e.2) index) := by
  induction rows generalizing offset previous? index with
  | nil => rfl
  | cons r rest ih =>
    rw [payloadSize_cons] at hend
    have hnew : previous?.any (r.id ≤ ·) = false := by
      cases previous? with
      | none => rfl
      | some id =>
        have := hprevious r List.mem_cons_self id rfl
        simpa using this
    have hle : r.width % 2 ^ 32 ≤ r.width := Nat.mod_le _ _
    rw [readEntries_indexBytes_cons (by omega), hnew, if_neg (by decide), if_neg (by omega)]
    refine ih hasc.tail ?_ (by omega) (by omega) _
    rintro next hnext id ⟨⟩
    exact List.rel_of_pairwise_cons hasc hnext

/-- The index of a file that may have been cut off behind the header is read entry by entry, if
it is there as a whole. -/
theorem readIndex_take {rows : List Row} {size : Nat} (hheader : headerSize ≤ size)
    (hle : size ≤ (encode rows).length) :
    readIndex ((encode rows).take size) =
      if size < headerSize + indexEntrySize * (rows.length % 2 ^ 32) then
        .error (.truncatedIndex (rows.length % 2 ^ 32))
      else readEntries (headerSize + indexEntrySize * (rows.length % 2 ^ 32)) size
        (rows.length % 2 ^ 32) ((indexBytes (headerSize + indexEntrySize * rows.length) rows
          ++ rows.flatMap payload).take (size - headerSize)) none ∅ := by
  have hlength : ((encode rows).take size).length = size := by
    rw [List.length_take, Nat.min_eq_left hle]
  have hcount : Bytes.wordAt ((encode rows).take size) 6 4 = rows.length % 2 ^ 32 := by
    rw [Bytes.wordAt_take _ hheader]
    unfold encode
    simp only [List.append_assoc]
    rw [Bytes.wordAt_append (by decide)]
    simp only [FileFormat.magic, List.length_cons, List.length_nil]
    rw [Bytes.wordAt_append (by simp), Bytes.length_word, Bytes.wordAt_word_append]
    rfl
  have hversion : Bytes.wordAt ((encode rows).take size) 4 2 = FileFormat.matrix.version := by
    rw [Bytes.wordAt_take _ (by unfold headerSize at hheader; omega)]
    unfold encode
    simp only [List.append_assoc]
    rw [Bytes.wordAt_append (by decide)]
    simp only [FileFormat.magic, List.length_cons, List.length_nil]
    rw [Bytes.wordAt_word_append]
    rfl
  have hmagic : ((encode rows).take size).take 4 = FileFormat.matrix.magic := by
    rw [List.take_take, Nat.min_eq_left (by unfold headerSize at hheader; omega)]
    unfold encode
    simp only [List.append_assoc]
    exact List.take_left' rfl
  have hbody : ((encode rows).take size).drop headerSize =
      (indexBytes (headerSize + indexEntrySize * rows.length) rows
        ++ rows.flatMap payload).take (size - headerSize) := by
    have hwhole : (encode rows).drop headerSize =
        indexBytes (headerSize + indexEntrySize * rows.length) rows ++ rows.flatMap payload := by
      unfold encode
      rw [List.append_assoc (_ ++ _)]
      exact List.drop_left' (by simp [FileFormat.magic, headerSize])
    rw [List.drop_take, hwhole]
  unfold readIndex
  simp only [hcount, hversion, hmagic, hbody, hlength, bind, Except.bind, ne_eq, not_true_eq_false,
    if_false]
  rw [if_neg (by omega)]
  split <;> rfl

/-- The index that is read back from encoded rows. -/
def writtenIndex (rows : List Row) : List (RowId × Extent) :=
  if rows.length < 2 ^ 32 then extents (headerSize + indexEntrySize * rows.length) rows else []

theorem readIndex_encode {rows : List Row} (hasc : rows.Pairwise fun a b => a.id < b.id)
    (hsize : (encode rows).length < 2 ^ 64) :
    readIndex (encode rows) =
      .ok ((writtenIndex rows).foldl (fun index e => index.insert e.1 e.2) ∅) := by
  have hlength := length_encode rows
  have hle := Ascending.length_le hasc
  have hread := readIndex_take (by omega) (Nat.le_refl (encode rows).length)
  have hbody : (indexBytes (headerSize + indexEntrySize * rows.length) rows
      ++ rows.flatMap payload).length ≤ (encode rows).length - headerSize := by
    rw [hlength, List.length_append, length_indexBytes, length_flatMap_payload]
    omega
  rw [List.take_length, List.take_of_length_le hbody] at hread
  rw [hread]
  unfold writtenIndex
  by_cases hfits : rows.length < 2 ^ 32
  · rw [Nat.mod_eq_of_lt hfits, if_pos hfits, if_neg (by omega)]
    exact readEntries_indexBytes hasc (by simp) (Nat.le_refl _) (by omega) (by omega) _ _
  · rw [show rows.length = 2 ^ 32 by omega, Nat.mod_self, if_neg (by omega)]
    rfl

/-! ## The rows -/

theorem words_flatMap_word (l : List UInt32) (tail : Bytes) :
    words l.length ((l.flatMap fun w => Bytes.word 4 w.toNat) ++ tail) = l := by
  induction l with
  | nil => rfl
  | cons w rest ih =>
    have hhead : UInt32.ofNat (Bytes.wordAt
        (Bytes.word 4 w.toNat ++ ((rest.flatMap fun w => Bytes.word 4 w.toNat) ++ tail)) 0 4) = w := by
      rw [Bytes.wordAt_word_append_of_lt w.toNat_lt, UInt32.ofNat_toNat]
    rw [List.flatMap_cons, List.append_assoc, List.length_cons, words, hhead,
      List.drop_left' (Bytes.length_word ..), ih]

theorem columnsAscend_of_pairwise {l : List (FeatureId × Binary32)}
    (h : l.Pairwise fun a b => a.1 < b.1) : Row.columnsAscend l = true := by
  fun_induction Row.columnsAscend l with
  | case1 => rfl
  | case2 => rfl
  | case3 a b rest ih =>
    simpa [List.rel_of_pairwise_cons h List.mem_cons_self] using ih h.tail

/-- A row as it is read back: one that is too wide for a word of four bytes has lost its entries. -/
def clip (r : Row) : Row := if r.width < 2 ^ 32 then r else ⟨r.id, [], .nil⟩

@[simp] theorem id_clip (r : Row) : (clip r).id = r.id := by
  unfold clip
  split <;> rfl

theorem clip_of_lt {r : Row} (h : r.width < 2 ^ 32) : clip r = r := if_pos h

/-- The rows that are read back from a file of encoded rows. -/
def stored (rows : List Row) : List Row := if rows.length < 2 ^ 32 then rows.map clip else []

theorem stored_of_lt {rows : List Row} (hrows : rows.length < 2 ^ 32)
    (hwidths : ∀ r ∈ rows, r.width < 2 ^ 32) : stored rows = rows := by
  rw [stored, if_pos hrows]
  exact (List.map_congr_left fun r hr => clip_of_lt (hwidths r hr)).trans (List.map_id rows)

theorem pairwise_stored {rows : List Row} (h : rows.Pairwise fun a b => a.id < b.id) :
    (stored rows).Pairwise fun a b => a.id < b.id := by
  unfold stored
  split
  · exact List.pairwise_map.mpr (h.imp fun hlt => by simpa using hlt)
  · exact .nil

theorem readRow_payload {bytes : Bytes} {r : Row} {offset : Nat} {tail : Bytes}
    (h : bytes.drop offset = payload r ++ tail) :
    readRow bytes r.id ⟨offset, r.width % 2 ^ 32⟩ = .ok (clip r) := by
  have hwidth : r.width ≤ 2 ^ 32 := Ascending.length_le r.ascending
  unfold readRow
  simp only [h]
  by_cases hfits : r.width < 2 ^ 32
  · have hcolumns : words r.width (payload r ++ tail) = r.columns := by
      unfold payload
      rw [List.append_assoc, show r.width = r.columns.length by simp [Row.width, Row.columns]]
      exact words_flatMap_word ..
    have hvalues : words r.width ((payload r ++ tail).drop (4 * r.width)) =
        r.values.map Binary32.bits := by
      have hlen : (r.columns.flatMap fun c => Bytes.word 4 c.toNat).length = 4 * r.width := by
        rw [length_flatMap_word]
        simp [Row.width, Row.columns]
      have hbits : (r.values.flatMap fun v => Bytes.word 4 v.bits.toNat) =
          (r.values.map Binary32.bits).flatMap fun w => Bytes.word 4 w.toNat := by
        rw [List.flatMap_map]
      unfold payload
      rw [List.append_assoc, List.drop_left' hlen, hbits,
        show r.width = (r.values.map Binary32.bits).length by simp [Row.width, Row.values]]
      exact words_flatMap_word ..
    have hentries : r.columns.zip ((r.values.map Binary32.bits).map Binary32.mk) = r.entries := by
      simp only [Row.columns, Row.values, List.map_map]
      rw [List.zip_map']
      exact List.map_id r.entries
    simp only [Nat.mod_eq_of_lt hfits, hcolumns, hvalues, hentries]
    rw [dif_pos (columnsAscend_of_pairwise r.ascending), clip_of_lt hfits]
  · have hmod : r.width % 2 ^ 32 = 0 := by
      rw [show r.width = 2 ^ 32 by omega, Nat.mod_self]
    simp only [hmod, words, clip, if_neg hfits]
    rfl

/-- Each index entry leads to the row that it was written for. -/
theorem readRow_extents {bytes tail : Bytes} {rows : List Row} (before : Bytes)
    (h : bytes = before ++ (rows.flatMap payload ++ tail)) :
    List.Forall₂ (fun e r => e.1 = r.id ∧ readRow bytes e.1 e.2 = .ok (clip r))
      (extents before.length rows) rows := by
  induction rows generalizing before with
  | nil => exact .nil
  | cons r rest ih =>
    rw [List.flatMap_cons, List.append_assoc] at h
    have hdrop : bytes.drop before.length = payload r ++ (rest.flatMap payload ++ tail) := by
      rw [h, List.drop_left]
    have hrest := ih (before ++ payload r) (by rw [h, List.append_assoc])
    rw [List.length_append, length_payload] at hrest
    exact .cons ⟨rfl, readRow_payload hdrop⟩ hrest

end Relatedness.Matrix

namespace Relatedness.FileMatrix

open Relatedness.Matrix

variable {fs : FileSystem} {m : FileMatrix} {rows : List Row}

theorem openFile_eq_ok {path : Path} (h : openFile fs path = .ok m) :
    fs.openFile path = .ok m.file ∧ readIndex (fs.content m.file) = .ok m.index ∧
      m.size = (fs.content m.file).length := by
  unfold openFile at h
  split at h
  · cases h
  · cases h
  · rename_i file hfile
    cases hindex : readIndex (fs.content file) with
    | error fault =>
      simp only [hindex] at h
      cases h
    | ok index =>
      simp only [hindex] at h
      cases h
      exact ⟨hfile, hindex, rfl⟩

/-- Looking a row up by the index is looking it up in the rows that the index leads to. -/
theorem get_eq_find? {entries : List (RowId × Extent)}
    (hread : List.Forall₂ (fun e r => e.1 = r.id ∧ m.readRow fs e.1 e.2 = .ok r) entries rows)
    {id : RowId} (hlookup : m.index[id]? = entries.lookup id) :
    m.get fs id = .ok (rows.find? fun r => r.id == id) := by
  unfold get
  rw [hlookup]
  clear hlookup
  induction hread with
  | nil => rfl
  | @cons e r _ _ hhead _ ih =>
    obtain ⟨key, extent⟩ := e
    obtain ⟨rfl, hrow⟩ := hhead
    rw [List.lookup_cons, List.find?_cons]
    by_cases h : id = r.id
    · subst h
      simp [hrow, Except.map]
    · have hne : (id == r.id) = false := by simpa using h
      have hne' : (r.id == id) = false := by simpa using fun heq => h heq.symm
      simp only [hne, hne']
      exact ih

/-- The file holds these rows, and did so when it was opened. -/
structure Written (m : FileMatrix) (fs : FileSystem) (rows : List Row) : Prop where
  ascending : rows.Pairwise fun a b => a.id < b.id
  content : fs.content m.file = encode rows
  index : readIndex (encode rows) = .ok m.index
  size : m.size = (encode rows).length

/-- An open matrix file shows the rows that are written in it. Its size is a word of eight
bytes. -/
theorem Written.holds (h : m.Written fs rows) (hsize : m.size < 2 ^ 64) :
    MatrixStore.Holds m fs (stored rows) := by
  obtain ⟨hasc, hcontent, hindex, hlength⟩ := h
  rw [hlength] at hsize
  have hkeys : (writtenIndex rows).Pairwise fun a b => a.1 < b.1 := by
    unfold writtenIndex
    split
    · exact pairwise_extents hasc _
    · exact .nil
  have hmap : m.index = (writtenIndex rows).foldl (fun index e => index.insert e.1 e.2) ∅ := by
    rw [readIndex_encode hasc hsize] at hindex
    exact (Except.ok.inj hindex).symm
  have hlist : m.index.toList = writtenIndex rows := by
    rw [hmap, Ascending.toList_foldl_insert hkeys]
  -- entry by entry the index leads to the stored rows
  have hread : List.Forall₂ (fun e r => e.1 = r.id ∧ m.readRow fs e.1 e.2 = .ok r)
      (writtenIndex rows) (stored rows) := by
    unfold writtenIndex stored
    split
    · have hbytes : encode rows = (FileFormat.matrix.magic ++ Bytes.word 2 FileFormat.matrix.version
          ++ Bytes.word 4 rows.length
          ++ indexBytes (headerSize + indexEntrySize * rows.length) rows)
          ++ (rows.flatMap payload ++ []) := by
        rw [List.append_nil]
        rfl
      have hlen : (FileFormat.matrix.magic ++ Bytes.word 2 FileFormat.matrix.version
          ++ Bytes.word 4 rows.length
          ++ indexBytes (headerSize + indexEntrySize * rows.length) rows).length =
          headerSize + indexEntrySize * rows.length := by
        simp only [List.length_append, Bytes.length_word, length_indexBytes]
        rfl
      have hextents := readRow_extents _ hbytes
      rw [hlen] at hextents
      rw [List.forall₂_map_right_iff]
      refine hextents.imp ?_
      intro e r hread
      obtain ⟨hid, hrow⟩ := hread
      refine ⟨by rw [id_clip, hid], ?_⟩
      rw [readRow, hcontent, hrow]
      rfl
    · exact .nil
  have hids : (writtenIndex rows).map Prod.fst = (stored rows).map Row.id := by
    rw [← List.forall₂_eq_eq_eq, List.forall₂_map_left_iff, List.forall₂_map_right_iff]
    exact hread.imp fun _ _ h => h.1
  refine ⟨pairwise_stored hasc, ?_, fun id => ?_, ?_⟩
  · change m.index.keys = _
    rw [← Std.TreeMap.map_fst_toList_eq_keys, hlist, hids]
  · refine get_eq_find? hread ?_
    rw [hmap, Ascending.getElem?_foldl_insert hkeys]
    simp
  · change m.index.toList.map _ = _
    rw [hlist, ← List.forall₂_eq_eq_eq, List.forall₂_map_left_iff, List.forall₂_map_right_iff]
    exact hread.imp fun _ _ h => h.2

end Relatedness.FileMatrix
