import Relatedness.Proofs.Disk.Saved
import Relatedness.Proofs.Matrix.Pair

/-! The file of a matrix from both sides. Rows that are written are read back, and no file that
was cut off is taken for one; rows that are read from a file, be it one that was not written
here, are written to a file of the same rows, which is then always the same. -/

namespace Relatedness

namespace Matrix

/-! ## Files that are cut off -/

/-- An entry of the index leads out of a file that ends before its payloads do. -/
theorem readEntries_torn {indexEnd size offset : Nat} {rows : List Row}
    (hwidths : ∀ r ∈ rows, r.width < 2 ^ 32) (hstart : offset ≤ size)
    (hend : size < offset + payloadSize rows) (hsize : size < 2 ^ 64) (tail : Bytes)
    (previous? : Option RowId) (index : Std.TreeMap RowId Extent) :
    ∃ fault, readEntries indexEnd size rows.length (indexBytes offset rows ++ tail) previous?
      index = .error fault := by
  induction rows generalizing offset previous? index with
  | nil =>
    simp only [payloadSize, List.map_nil, List.sum_nil] at hend
    omega
  | cons r rest ih =>
    rw [payloadSize_cons] at hend
    rw [readEntries_indexBytes_cons (by omega), Nat.mod_eq_of_lt (hwidths r List.mem_cons_self)]
    split
    · exact ⟨_, rfl⟩
    split
    · exact ⟨_, rfl⟩
    · rename_i hbounds
      exact ih (fun s hs => hwidths s (List.mem_cons_of_mem r hs)) (by omega) (by omega) _ _

/-- No strict prefix of a file is a file. -/
theorem readIndex_torn {rows : List Row} (hcount : rows.length < 2 ^ 32)
    (hwidths : ∀ r ∈ rows, r.width < 2 ^ 32) (hsize : (encode rows).length < 2 ^ 64) {size : Nat}
    (h : size < (encode rows).length) :
    ∃ fault, readIndex ((encode rows).take size) = .error fault := by
  have hlength := length_encode rows
  by_cases hheader : size < headerSize
  · refine ⟨.shortHeader, ?_⟩
    unfold readIndex
    rw [List.length_take, Nat.min_eq_left h.le]
    simp only [if_pos hheader]
    rfl
  rw [readIndex_take (Nat.not_lt.mp hheader) h.le, Nat.mod_eq_of_lt hcount]
  split
  · exact ⟨_, rfl⟩
  -- the whole index is there, so what is missing is the end of a payload
  have hindex : (indexBytes (headerSize + indexEntrySize * rows.length) rows).length ≤
      size - headerSize := by
    rw [length_indexBytes]
    omega
  rw [List.take_append, List.take_of_length_le hindex]
  exact readEntries_torn hwidths (by omega) (by omega) (by omega) _ _ _

/-! ## What an accepted index holds -/

/-- Each entry that was read is a new row at most, with a width of four bytes. -/
theorem of_readEntries {indexEnd size n : Nat} {bytes : Bytes} {previous? : Option RowId}
    {index index' : Std.TreeMap RowId Extent}
    (h : readEntries indexEnd size n bytes previous? index = .ok index') :
    index'.size ≤ index.size + n ∧ ∀ (id : RowId) (extent : Extent), index'[id]? = some extent →
      index[id]? = some extent ∨ extent.width < 2 ^ 32 := by
  induction n generalizing bytes previous? index with
  | zero =>
    cases h
    exact ⟨Nat.le_refl _, fun _ _ => .inl⟩
  | succ n ih =>
    rw [readEntries] at h
    split at h
    · cases h
    split at h
    · cases h
    obtain ⟨hsize, hwidth⟩ := ih h
    refine ⟨hsize.trans ?_, fun id extent hget => ?_⟩
    · have hinsert := Std.TreeMap.size_insert_le (t := index)
        (k := UInt32.ofNat (bytes.wordAt 0 4)) (v := ⟨bytes.wordAt 4 8, bytes.wordAt 12 4⟩)
      omega
    · refine (hwidth id extent hget).elim (fun hold => ?_) .inr
      rw [Std.TreeMap.getElem?_insert] at hold
      split at hold
      · cases hold
        exact .inr (Bytes.wordAt_lt bytes 12 4)
      · exact .inl hold

theorem of_readIndex {bytes : Bytes} {index : Std.TreeMap RowId Extent}
    (h : readIndex bytes = .ok index) :
    index.size < 2 ^ 32 ∧
      ∀ (id : RowId) (extent : Extent), index[id]? = some extent → extent.width < 2 ^ 32 := by
  unfold readIndex at h
  simp only [bind, Except.bind, throw, throwThe, MonadExceptOf.throw] at h
  split at h
  · cases h
  split at h
  · cases h
  split at h
  · cases h
  split at h
  · cases h
  obtain ⟨hsize, hwidth⟩ := of_readEntries h
  have hcount := Bytes.wordAt_lt bytes 6 4
  refine ⟨?_, fun id extent hget => (hwidth id extent hget).resolve_left (by simp)⟩
  rw [Std.TreeMap.size_emptyc] at hsize
  omega

theorem length_words (n : Nat) (bytes : Bytes) : (words n bytes).length = n := by
  induction n generalizing bytes with
  | zero => rfl
  | succ n ih => rw [words, List.length_cons, ih]

/-- A decoded row has the id and the width that the index says. -/
theorem of_readRow {bytes : Bytes} {id : RowId} {extent : Extent} {r : Row}
    (h : readRow bytes id extent = .ok r) : r.id = id ∧ r.width = extent.width := by
  unfold readRow at h
  simp only at h
  split at h
  · cases h
    refine ⟨rfl, ?_⟩
    rw [Row.width, List.length_zip, List.length_map, length_words, length_words, Nat.min_self]
  · cases h

end Matrix

namespace Matrix

/-- The size of a file does not depend on the order of its rows. -/
theorem length_encode_of_perm {rows sorted : List Row} (h : sorted.Perm rows) :
    (encode sorted).length = (encode rows).length := by
  rw [length_encode, length_encode, h.length_eq, payloadSize, payloadSize,
    (h.map fun r => 8 * r.width).sum_nat]

end Matrix

namespace MatrixDraft

/-! ## Writing -/

/-- Rows of which no two have one id are taken in without a complaint. -/
theorem exists_addAll {rows : List Row} (h : rows.Pairwise fun a b => a.id ≠ b.id) {d : MatrixDraft}
    (hfresh : ∀ r ∈ rows, d.rows.contains r.id = false) : ∃ d', d.addAll rows = .ok d' := by
  induction rows generalizing d with
  | nil => exact ⟨d, rfl⟩
  | cons r rest ih =>
    have hnext : ∀ s ∈ rest, (d.rows.insert r.id r).contains s.id = false := by
      intro s hs
      rw [Std.TreeMap.contains_insert, hfresh s (List.mem_cons_of_mem r hs), Bool.or_false]
      simpa using List.rel_of_pairwise_cons h hs
    obtain ⟨d', hd'⟩ := ih h.tail (d := { d with rows := d.rows.insert r.id r }) hnext
    refine ⟨d', ?_⟩
    rw [addAll, add, hfresh r List.mem_cons_self]
    exact hd'

/-- A saved draft is opened as the file of its rows. -/
theorem opens_of_save {fs fs' : FileSystem} (hfs : fs.WellFormed) {d : MatrixDraft}
    (hasc : d.rows.values.Pairwise fun a b => a.id < b.id)
    (hsize : (Matrix.encode d.rows.values).length < 2 ^ 64) {u : Unit}
    (h : Succeeds d.save fs u fs') :
    fs'.readFile d.path = .ok (Matrix.encode d.rows.values) ∧
      ∃ m, FileMatrix.openFile fs' d.path = .ok m ∧ m.Written fs' d.rows.values := by
  have hread := Replacement.readFile_of_replaceFile hfs h
  obtain ⟨id, hopen, hcontent⟩ := FileSystem.readFile_eq_ok_iff.mp hread
  refine ⟨hread, ⟨d.path, id, (Matrix.encode d.rows.values).length, _⟩, ?_, hasc, hcontent,
    Matrix.readIndex_encode hasc hsize, rfl⟩
  unfold FileMatrix.openFile
  rw [hopen]
  simp only [hcontent, Matrix.readIndex_encode hasc hsize]

end MatrixDraft

namespace FileMatrix

variable {fs fs' : FileSystem} {m : FileMatrix} {rows : List Row}

/-- A file that was cut off is refused as corrupted. -/
theorem openFile_torn {path : Path} (hcount : rows.length < 2 ^ 32)
    (hwidths : ∀ r ∈ rows, r.width < 2 ^ 32) (hsize : (Matrix.encode rows).length < 2 ^ 64)
    {size : Nat} (h : size < (Matrix.encode rows).length)
    (hread : fs.readFile path = .ok ((Matrix.encode rows).take size)) :
    ∃ fault, openFile fs path = .error (.corruptedFile path fault) := by
  obtain ⟨id, hopen, hcontent⟩ := FileSystem.readFile_eq_ok_iff.mp hread
  obtain ⟨fault, hfault⟩ := Matrix.readIndex_torn hcount hwidths hsize h
  refine ⟨fault, ?_⟩
  unfold openFile
  rw [hopen]
  simp only [hcontent, hfault]

/-- The rows of an open file, if all of them can be decoded. -/
theorem of_rows {path : Path} (h : openFile fs path = .ok m) (hrows : m.rows fs' = rows.map .ok) :
    m.rowIds = rows.map Row.id ∧ (rows.Pairwise fun a b => a.id < b.id) ∧ rows.length < 2 ^ 32 ∧
      ∀ r ∈ rows, r.width < 2 ^ 32 := by
  obtain ⟨_, hindex, _⟩ := openFile_eq_ok h
  obtain ⟨hcount, hwidths⟩ := Matrix.of_readIndex hindex
  have hread : List.Forall₂ (fun e r => m.readRow fs' e.1 e.2 = .ok r) m.index.toList rows := by
    have heq : List.Forall₂ (· = ·) (m.rows fs') (rows.map .ok) := by
      rw [hrows, List.forall₂_eq_eq_eq]
    exact List.forall₂_map_right_iff.mp (List.forall₂_map_left_iff.mp heq)
  have hentry : List.Forall₂ (fun e r => e.1 = r.id ∧ r.width = e.2.width) m.index.toList rows := by
    refine hread.imp fun e r hrow => ?_
    unfold readRow at hrow
    cases hdecoded : Matrix.readRow (fs'.content m.file) e.1 e.2 with
    | error fault =>
      rw [hdecoded] at hrow
      cases hrow
    | ok s =>
      rw [hdecoded] at hrow
      cases hrow
      obtain ⟨hid, hwidth⟩ := Matrix.of_readRow hdecoded
      exact ⟨hid.symm, hwidth⟩
  have hids : m.rowIds = rows.map Row.id := by
    rw [rowIds, ← Std.TreeMap.map_fst_toList_eq_keys, ← List.forall₂_eq_eq_eq,
      List.forall₂_map_left_iff, List.forall₂_map_right_iff]
    exact hentry.imp fun _ _ h => h.1
  refine ⟨hids, ?_, ?_, fun r hr => ?_⟩
  · refine List.pairwise_map.mp (?_ : (rows.map Row.id).Pairwise (· < ·))
    rw [← hids]
    exact m.index.ordered_keys.imp compareOfLessAndEq_eq_lt.mp
  · rwa [← hentry.length_eq, Std.TreeMap.length_toList]
  · have hsame : rows.map Row.width = m.index.toList.map fun e => e.2.width := by
      rw [← List.forall₂_eq_eq_eq, List.forall₂_map_left_iff, List.forall₂_map_right_iff]
      exact hentry.flip.imp fun _ _ h => h.2
    obtain ⟨e, he, hwidth⟩ := List.mem_map.mp (hsame ▸ List.mem_map_of_mem hr)
    rw [← hwidth]
    exact hwidths e.1 e.2 (Std.TreeMap.mem_toList_iff_getElem?_eq_some.mp he)

/-! ## Both ways -/

/-- The open file shows these rows, in the order of their ids. -/
structure Recovers (m : FileMatrix) (fs : FileSystem) (rows : List Row) : Prop where
  sorted : ∃ sorted : List Row, sorted.Perm rows ∧ (sorted.Pairwise fun a b => a.id < b.id) ∧
    m.rowIds = sorted.map Row.id ∧ m.rows fs = sorted.map .ok
  get : ∀ r ∈ rows, m.get fs r.id = .ok (some r)
  absent : ∀ id, id ∉ rows.map Row.id → m.get fs id = .ok none
  contains : ∀ id, m.contains id = decide (id ∈ rows.map Row.id)

theorem recovers_of_holds {sorted : List Row} (h : MatrixStore.Holds m fs sorted)
    (hperm : sorted.Perm rows) : m.Recovers fs rows where
  sorted := ⟨sorted, hperm, h.ascending, h.rowIds, h.rows⟩
  get r hr := by
    have hget : m.get fs r.id = _ := h.get r.id
    rw [hget, (Ascending.find?_eq_some_iff h.ascending).mpr ⟨hperm.mem_iff.mpr hr, rfl⟩]
  absent id hid := by
    have hget : m.get fs id = _ := h.get id
    rw [hget, List.find?_eq_none.mpr fun r hr => ?_]
    simpa using fun heq : r.id = id =>
      hid (heq ▸ List.mem_map_of_mem (hperm.mem_iff.mp hr))
  contains id := by
    have hids : m.index.keys = sorted.map Row.id := h.rowIds
    rw [contains, Bool.eq_iff_iff, ← Std.TreeMap.mem_iff_contains, ← Std.TreeMap.mem_keys, hids,
      decide_eq_true_iff, (hperm.map Row.id).mem_iff]

/-- The rows of an open file, if all of them can be decoded, as the draft of another one. -/
def toDraft (m : FileMatrix) (fs : FileSystem) (target : Path) : Except Error MatrixDraft := do
  (MatrixDraft.empty target).addAll (← (m.rows fs).mapM id)

/-- The rows of a file can be drafted, and the draft is of just these rows. -/
theorem exists_toDraft (hrows : m.rows fs = rows.map .ok)
    (hasc : rows.Pairwise fun a b => a.id < b.id) (target : Path) :
    ∃ d, m.toDraft fs target = .ok d ∧ d.path = target ∧ d.rows.values = rows := by
  obtain ⟨d, hd⟩ := MatrixDraft.exists_addAll (d := .empty target)
    (hasc.imp fun {a b} hlt (heq : a.id = b.id) => UInt32.lt_irrefl b.id (heq ▸ hlt))
    fun r _ => by simp [MatrixDraft.empty]
  refine ⟨d, ?_, (MatrixDraft.values_of_addAll hd).1, MatrixDraft.values_of_addAll_ascending hd hasc⟩
  unfold toDraft
  rw [hrows, mapM_id_map_ok]
  exact hd

/-- Rows are written and read, both ways. Rows with ids of their own are taken in, and the file
that they are saved to shows them as long as its content is the same; no strict prefix of it is
accepted. From an accepted file of which all rows can be decoded they are written to a file of
the same rows, and from that one to the same bytes again. The size of a file is a word of eight
bytes. -/
theorem round_trip :
    (∀ (rows : List Row) (path : Path), (rows.Pairwise fun a b => a.id ≠ b.id) →
      rows.length < 2 ^ 32 → (∀ r ∈ rows, r.width < 2 ^ 32) →
      (Matrix.encode rows).length < 2 ^ 64 →
      ∃ d, (MatrixDraft.empty path).addAll rows = .ok d ∧
        ∀ fs fs', fs.WellFormed → Succeeds d.save fs () fs' →
          ∃ m, openFile fs' path = .ok m ∧
            (∀ now : FileSystem, now.content m.file = fs'.content m.file → m.Recovers now rows) ∧
            ∀ size < (fs'.content m.file).length, ∀ (torn : FileSystem) (other : Path),
              torn.readFile other = .ok ((fs'.content m.file).take size) →
                ∃ fault, openFile torn other = .error (.corruptedFile other fault)) ∧
    ∀ (fs : FileSystem) (path : Path) (m : FileMatrix) (rows : List Row),
      openFile fs path = .ok m → m.rows fs = rows.map .ok →
      (Matrix.encode rows).length < 2 ^ 64 →
      ∀ target, ∃ d, m.toDraft fs target = .ok d ∧
        ∀ before after, before.WellFormed → Succeeds d.save before () after →
          ∃ copy bytes, openFile after target = .ok copy ∧ copy.rowIds = m.rowIds ∧
            copy.rows after = m.rows fs ∧ after.readFile target = .ok bytes ∧
            ∀ other, ∃ again, copy.toDraft after other = .ok again ∧
              ∀ before' after', before'.WellFormed → Succeeds again.save before' () after' →
                after'.readFile other = .ok bytes := by
  constructor
  · intro rows path hdistinct hcount hwidths hsize
    obtain ⟨d, hd⟩ := MatrixDraft.exists_addAll (d := .empty path) hdistinct
      fun r _ => by simp [MatrixDraft.empty]
    obtain ⟨rfl, hperm, hasc⟩ := MatrixDraft.values_of_addAll hd
    refine ⟨d, hd, fun fs fs' hfs hsave => ?_⟩
    rw [← Matrix.length_encode_of_perm hperm] at hsize
    have hcount' : d.rows.values.length < 2 ^ 32 := hperm.length_eq ▸ hcount
    have hwidths' : ∀ r ∈ d.rows.values, r.width < 2 ^ 32 :=
      fun r hr => hwidths r (hperm.mem_iff.mp hr)
    obtain ⟨_, m, hopen, hwritten⟩ := MatrixDraft.opens_of_save hfs hasc hsize hsave
    refine ⟨m, hopen, fun now hnow => recovers_of_holds ?_ hperm,
      fun size hlt torn other hread => ?_⟩
    · have hcontent : now.content m.file = Matrix.encode d.rows.values :=
        hnow.trans hwritten.content
      have hholds := Written.holds { hwritten with content := hcontent }
        (hwritten.size ▸ hsize)
      rwa [Matrix.stored_of_lt hcount' hwidths'] at hholds
    · rw [hwritten.content] at hlt hread
      exact openFile_torn hcount' hwidths' hsize hlt hread
  · intro fs path m rows hopen hrows hsize target
    obtain ⟨hids, hasc, hcount, hwidths⟩ := of_rows hopen hrows
    obtain ⟨d, hd, rfl, hvalues⟩ := exists_toDraft hrows hasc target
    refine ⟨d, hd, fun before after hbefore hsave => ?_⟩
    subst hvalues
    obtain ⟨hread, copy, hcopy, hwritten⟩ := MatrixDraft.opens_of_save hbefore hasc hsize hsave
    have hholds := hwritten.holds (hwritten.size ▸ hsize)
    rw [Matrix.stored_of_lt hcount hwidths] at hholds
    have hcopied : copy.rows after = d.rows.values.map .ok := hholds.rows
    refine ⟨copy, _, hcopy, hholds.rowIds.trans hids.symm, hcopied.trans hrows.symm, hread,
      fun other => ?_⟩
    obtain ⟨again, hagain, rfl, hsame⟩ := exists_toDraft hcopied hasc other
    refine ⟨again, hagain, fun before' after' hbefore' hsave' => ?_⟩
    rw [← hsame] at hasc hsize ⊢
    exact (MatrixDraft.opens_of_save hbefore' hasc hsize hsave').1

/-- A row and an empty one in descending order. -/
def descendingRows : List Row := [.ofEntries 5 [(1, ⟨0x3f800000⟩)], .ofEntries 3 []]

/-- The rows are saved under one name, read, and saved under another one. -/
theorem round_trip_descending :
    ∃ d fs m copied after, (MatrixDraft.empty ⟨false, ["m.spm"]⟩).addAll descendingRows = .ok d ∧
      Succeeds d.save (.empty 0) () fs ∧ openFile fs ⟨false, ["m.spm"]⟩ = .ok m ∧
      m.Recovers fs descendingRows ∧ m.toDraft fs ⟨false, ["n.spm"]⟩ = .ok copied ∧
      Succeeds copied.save fs () after ∧ ∃ copy, openFile after ⟨false, ["n.spm"]⟩ = .ok copy ∧
        copy.rows after = m.rows fs := by
  obtain ⟨hwrite, hrewrite⟩ := round_trip
  have hsize : (Matrix.encode descendingRows).length < 2 ^ 64 := by decide +kernel
  obtain ⟨d, hd, hsaved⟩ := hwrite descendingRows ⟨false, ["m.spm"]⟩ (by decide) (by decide)
    (by decide +kernel) hsize
  have hcheck : ((MatrixDraft.empty ⟨false, ["m.spm"]⟩).addAll descendingRows).toOption.any
      (fun d => succeedsWith d.save (.empty 0) fun _ fs =>
        (openFile fs ⟨false, ["m.spm"]⟩).toOption.any fun m =>
          (m.toDraft fs ⟨false, ["n.spm"]⟩).toOption.any fun copied =>
            (outcome copied.save fs).1.isOk) = true := by decide +kernel
  rw [hd] at hcheck
  obtain ⟨_, fs, hsave, hcheck⟩ := exists_of_succeedsWith hcheck
  obtain ⟨m, hopen, hrecovers, _⟩ := hsaved _ _ (.empty 0) hsave
  obtain ⟨sorted, hperm, _, _, hrows⟩ := (hrecovers fs rfl).sorted
  obtain ⟨copied, hcopied, hagain⟩ := hrewrite fs _ m sorted hopen hrows
    (by rwa [Matrix.length_encode_of_perm hperm]) ⟨false, ["n.spm"]⟩
  rw [hopen, Except.toOption, Option.any_some, hcopied] at hcheck
  obtain ⟨_, hlast⟩ := exists_succeeds hcheck
  have hfs := (Replacement.replaceFile_spec (.empty 0) hsave).1
  obtain ⟨copy, _, hcopy, _, hsame, _⟩ := hagain _ _ hfs hlast
  exact ⟨d, fs, m, copied, _, hd, hsave, hopen, hrecovers fs rfl, hcopied, hlast, copy, hcopy,
    hsame⟩

end FileMatrix
end Relatedness
