import Relatedness.Proofs.Matrix.Bounds
import Relatedness.Proofs.Matrix.Construction
import Relatedness.Proofs.Matrix.Exact
import Relatedness.Proofs.Similarity.Mismatch

/-! Rows that were read from a file, and pairs that are built from them. A file may hold zeros, which
no constructor of a row lets in, and decoding leaves them in the row. A row with a zero is not what
its vector makes of it, and it has a cell that its transpose lacks, so a pair that is built from it
cannot be attached. Without zeros none of this happens. -/

namespace Relatedness

/-- Whether an error tells of settings or inputs that cannot be used. -/
def Error.isConfiguration : Error → Bool
  | .duplicateRow .. | .unequalEntries .. | .emptyBatches | .noDocuments _ | .noPhrases _ => true
  | _ => false

namespace Matrix

/-- Just the zeros of rows are lost by transposition. -/
theorem sum_width_transpose_iff {rows : List Row} (h : rows.Pairwise fun a b => a.id < b.id) :
    (rows.map Row.width).sum = ((transpose rows).map Row.width).sum ↔
      ∀ r ∈ rows, r.ZeroFree := by
  have hcolumns := pairwise_transpose rows
  constructor
  · intro hsum r hr
    have htransposed := transposed_of_sum_width h hcolumns (fun c id v hv => by
      rw [cell_transpose_of_ascending h] at hv
      exact (Option.filter_eq_some_iff.mp hv).1) hsum
    refine Row.zeroFree_iff.mpr fun e he => ?_
    have hcell := (cell_eq_some_iff h).mpr ⟨r, hr, rfl, he⟩
    have hother := hcell
    rw [htransposed, cell_transpose_of_ascending h, Option.filter_eq_some_iff] at hother
    simpa using hother.2
  · intro hzero
    exact sum_width_of_transposed h hcolumns (transposed_transpose hzero h)

end Matrix

namespace FileMatrix

variable {fs now : FileSystem} {path : Path} {m : FileMatrix} {id : RowId} {r : Row}

/-! ## Rows that are read -/

theorem readRow_eq_ok {extent : Matrix.Extent} (h : m.readRow now id extent = .ok r) :
    Matrix.readRow (now.content m.file) id extent = .ok r := by
  unfold readRow at h
  cases hrow : Matrix.readRow (now.content m.file) id extent with
  | error fault =>
    rw [hrow] at h
    cases h
  | ok s =>
    rw [hrow] at h
    cases h
    rfl

theorem get_eq_some_iff :
    m.get now id = .ok (some r) ↔
      ∃ extent, m.index[id]? = some extent ∧ m.readRow now id extent = .ok r := by
  unfold get
  cases m.index[id]? with
  | none => simp
  | some extent => cases h : m.readRow now id extent <;> simp [h, Except.map]

/-- The rows of an open file that can be decoded. -/
def readable (m : FileMatrix) (now : FileSystem) : List Row :=
  (m.rows now).filterMap Except.toOption

theorem readable_eq (m : FileMatrix) (now : FileSystem) :
    m.readable now = m.index.toList.filterMap fun e => (m.readRow now e.1 e.2).toOption := by
  rw [readable, rows, List.filterMap_map]
  rfl

theorem toOption_eq_some_iff {α : Type} {x : Except Error α} {a : α} :
    x.toOption = some a ↔ x = .ok a := by
  cases x <;> simp [Except.toOption]

theorem mem_readable_iff : r ∈ m.readable now ↔ m.get now r.id = .ok (some r) := by
  rw [readable_eq, List.mem_filterMap, get_eq_some_iff]
  constructor
  · rintro ⟨⟨id, extent⟩, hentry, h⟩
    have hrow := toOption_eq_some_iff.mp h
    rw [(Matrix.of_readRow (readRow_eq_ok hrow)).1]
    exact ⟨extent, Std.TreeMap.mem_toList_iff_getElem?_eq_some.mp hentry, hrow⟩
  · rintro ⟨extent, hindex, hrow⟩
    exact ⟨(r.id, extent), Std.TreeMap.mem_toList_iff_getElem?_eq_some.mpr hindex,
      toOption_eq_some_iff.mpr hrow⟩

theorem pairwise_readable : (m.readable now).Pairwise fun a b => a.id < b.id := by
  rw [readable_eq]
  refine List.pairwise_filterMap.mpr (m.index.ordered_keys_toList.imp fun hlt r hr s hs => ?_)
  rw [(Matrix.of_readRow (readRow_eq_ok (toOption_eq_some_iff.mp hr))).1,
    (Matrix.of_readRow (readRow_eq_ok (toOption_eq_some_iff.mp hs))).1]
  exact compareOfLessAndEq_eq_lt.mp hlt

theorem length_readable_lt (h : openFile fs path = .ok m) : (m.readable now).length < 2 ^ 32 := by
  obtain ⟨hcount, _⟩ := Matrix.of_readIndex (openFile_eq_ok h).2.1
  rw [readable_eq]
  refine (List.length_filterMap_le _ _).trans_lt ?_
  rwa [Std.TreeMap.length_toList]

/-- What holds of a row that was read. It is what the bytes at its extent say, also where these are
zeros, and only without zeros is it the row of its vector. -/
structure Yields (S : Type) [Scalar S] (m : FileMatrix) (now : FileSystem) (r : Row) : Prop where
  ascending : r.columns.Pairwise (· < ·)
  paired : r.columns.length = r.values.length
  stands : ∃ extent, m.index[r.id]? = some extent ∧
    r.columns = Matrix.words extent.width ((now.content m.file).drop extent.offset) ∧
    r.values = (Matrix.words extent.width
      ((now.content m.file).drop (extent.offset + 4 * extent.width))).map Binary32.mk
  remade_iff : r.remade.columns = r.columns ↔ r.ZeroFree
  remade : r.ZeroFree → r.remade.columns = r.columns ∧ r.remade.values = r.values ∧
    (r.remade.norm : S) = r.norm

theorem yields_of_get (S : Type) [Scalar S] (h : m.get now id = .ok (some r)) :
    r.id = id ∧ m.Yields S now r := by
  obtain ⟨extent, hindex, hread⟩ := get_eq_some_iff.mp h
  have hrow := readRow_eq_ok hread
  obtain ⟨rfl, _⟩ := Matrix.of_readRow hrow
  refine ⟨rfl, List.pairwise_map.mpr r.ascending, ?_, ⟨extent, hindex, ?_⟩, ?_, fun hzero => ?_⟩
  · rw [Row.columns, Row.values, List.length_map, List.length_map]
  · rcases Matrix.Checked.readRow_cases (now.content m.file) r.id extent rfl rfl with
      ⟨_, s, hs, _, hcolumns, hvalues⟩ | ⟨_, hfault⟩
    · cases hrow.symm.trans hs
      exact ⟨hcolumns, hvalues⟩
    · cases hrow.symm.trans hfault
  · exact ⟨Row.zeroFree_of_columns_remade, fun hzero => by rw [Row.remade_of_zeroFree hzero]⟩
  · rw [Row.remade_of_zeroFree hzero]
    exact ⟨rfl, rfl, rfl⟩

end FileMatrix

/-! ## Pairs of such rows -/

namespace MatrixPair

variable {s t : Session} {directory : Path} {rows : List Row} {pair : MatrixPair} {e : Error}

theorem isConfiguration_of_openFile {fs : FileSystem} {path : Path}
    (h : FileMatrix.openFile fs path = .error e) : e.isConfiguration = false := by
  unfold FileMatrix.openFile at h
  split at h
  · cases h
    rfl
  · cases h
    rfl
  · dsimp only at h
    split at h <;> cases h
    rfl

theorem isConfiguration_of_openDirectory {fs : FileSystem}
    (h : openDirectory fs directory = .error e) : e.isConfiguration = false := by
  unfold openDirectory at h
  cases hforward : FileMatrix.openFile fs (directory.child forwardName) with
  | error cause =>
    rw [hforward] at h
    cases h
    exact isConfiguration_of_openFile hforward
  | ok forward =>
    cases htranspose : FileMatrix.openFile fs (directory.child transposeName) with
    | error cause =>
      rw [hforward, htranspose] at h
      cases h
      exact isConfiguration_of_openFile htranspose
    | ok transpose =>
      rw [hforward, htranspose] at h
      cases h

/-- Rows with ids of their own are taken in by a new draft. -/
theorem not_refused {path : Path} (hdistinct : rows.Pairwise fun a b => a.id ≠ b.id) :
    (MatrixDraft.empty path).addAll rows ≠ .error e := by
  obtain ⟨d, hd⟩ := MatrixDraft.exists_addAll (d := .empty path) hdistinct
    fun r _ => by simp [MatrixDraft.empty]
  rw [hd]
  simp

theorem isConfiguration_of_write (hdistinct : rows.Pairwise fun a b => a.id ≠ b.id)
    (h : Fails (write directory rows) s e t) : e.isConfiguration = false := by
  have htransposed : ∀ rows : List Row, (Matrix.transpose rows).Pairwise fun a b => a.id ≠ b.id :=
    fun rows => Ascending.pairwise_ne (Matrix.pairwise_transpose rows)
  simp only [write, fails_bind, Action.fails_ofExcept, Action.succeeds_ofExcept, Action.fails_onDisk,
    Action.succeeds_onDisk] at h
  rcases h with ⟨hrefused, _⟩ | ⟨_, _, _, ⟨_, _, _, rfl, _⟩ | ⟨_, _, _, ⟨hrefused, _⟩ |
    ⟨_, _, _, _, _, _, rfl, _⟩⟩⟩
  · exact absurd hrefused (not_refused hdistinct)
  · rfl
  · exact absurd hrefused (not_refused (htransposed _))
  · rfl

/-- A pair of rows with ids of their own is not refused for the rows. -/
theorem isConfiguration_of_build (hdistinct : rows.Pairwise fun a b => a.id ≠ b.id)
    (h : Fails (build directory rows) s e t) : e.isConfiguration = false := by
  simp only [build, fails_bind, fails_tryCatch, fails_throw, Action.fails_onDisk, Action.fails_log,
    Action.fails_ofExcept, Action.fails_disk, DiskM.fails_attempt, exists_false, false_or,
    false_and] at h
  rcases h with ⟨_, _, _, rfl, _⟩ | ⟨_, _, _,
    ⟨_, _, hwrite, _, _, _, rfl, _⟩ | ⟨_, _, _,
      ⟨_, _, ⟨_, _, _, rfl, _⟩, _, _, _, rfl, _⟩ | ⟨_, _, _, _, _, _, _, _, _, hopen, _⟩⟩⟩
  · rfl
  · exact isConfiguration_of_write hdistinct hwrite
  · rfl
  · exact isConfiguration_of_openDirectory hopen

end MatrixPair

namespace Engine

variable {engine : Engine Binary64 FileMatrix} {forward transpose : FileMatrix} {cache : Path}
  {s t : Session} {rows columns : List Row} {e : Error}

theorem io_of_isCurrent {summary : Summary Binary64} {fs : FileSystem}
    (h : summary.isCurrent forward transpose fs = .error e) : ∃ cause, e = .io cause := by
  cases hforward : MatrixStore.versionToken forward fs with
  | error cause =>
    rw [Summary.isCurrent, hforward] at h
    cases h
    exact FileMatrix.io_of_versionToken hforward
  | ok token =>
    cases htranspose : MatrixStore.versionToken transpose fs with
    | error cause =>
      simp only [Summary.isCurrent, hforward, htranspose, bind, Except.bind] at h
      split at h
      · cases h
      · cases h
        exact FileMatrix.io_of_versionToken htranspose
    | ok token' =>
      simp only [Summary.isCurrent, hforward, htranspose, bind, Except.bind] at h
      split at h
      · cases h
      · split at h <;> cases h

/-- Files with equally many entries are attached unless the disk fails, whether or not a summary
was saved. -/
theorem io_of_attach_fails_of_files (hforward : MatrixStore.Holds forward s.disk rows)
    (htranspose : MatrixStore.Holds transpose s.disk columns)
    (hsum : (rows.map Row.width).sum = (columns.map Row.width).sum)
    (h : Fails (engine.attach forward transpose cache) s e t) : ∃ cause, e = .io cause := by
  have hcall := fails_attach.mp h
  rcases Summary.loadOrBuild_cases (engine.cachePath cache) forward transpose s with
    ⟨_, _, _, _, _, hsaved⟩ | ⟨_, _, _, hcurrent, hfails⟩ | ⟨_, u, hdisk, houtcome⟩
  · exact absurd hcall hsaved.not_fails
  · rw [(hcall.unique hfails).1]
    exact io_of_isCurrent hcurrent
  · rcases Summary.rebuild_fails (houtcome.symm.trans hcall) with
      ⟨hbuild, _⟩ | ⟨_, cause, _, hcause, _⟩
    · rcases Summary.error_of_build hforward htranspose hsum hbuild with herror | herror <;>
        exact FileMatrix.io_of_versionToken herror
    · exact ⟨cause, hcause⟩

end Engine

namespace FileMatrix

variable {fs : FileSystem} {path : Path} {m : FileMatrix}

theorem mem_rows_iff {now : FileSystem} {r : Row} :
    .ok r ∈ m.rows now ↔ m.get now r.id = .ok (some r) := by
  rw [← mem_readable_iff, readable, List.mem_filterMap]
  constructor
  · exact fun h => ⟨_, h, rfl⟩
  · rintro ⟨x, hx, h⟩
    rwa [toOption_eq_some_iff.mp h] at hx

theorem distinct_of_subperm {rows : List Row} {now : FileSystem}
    (h : rows.Subperm (m.readable now)) : rows.Pairwise fun a b => a.id ≠ b.id := by
  obtain ⟨sorted, hperm, hsub⟩ := h
  exact hperm.pairwise (Ascending.pairwise_ne (pairwise_readable.sublist hsub)) fun hne => hne.symm

/-- Every row that an accepted file yields, in whatever way, has ascending columns with one value
each. It is the row of its vector just if none of its values is zero. A pair of such rows is never
refused when it is built, and when it is attached it is refused for its entries just if a value of
them is zero, unless a saved summary is taken for current. -/
theorem rows_read (S : Type) [Scalar S] (hopen : openFile fs path = .ok m) (now : FileSystem) :
    (∀ id r, m.get now id = .ok (some r) → r.id = id ∧ m.Yields S now r) ∧
    (∀ r, .ok r ∈ m.rows now ↔ m.get now r.id = .ok (some r)) ∧
    ∀ (rows : List Row) (s : Session) (directory : Path), rows.Subperm (m.readable now) →
      s.disk.WellFormed → (∃ c, ∀ r ∈ rows, r.get? c = none) → (rows.map Row.width).sum < 2 ^ 60 →
      (∀ e t, Fails (MatrixPair.build directory rows) s e t → e.isConfiguration = false) ∧
      ∀ pair t, Succeeds (MatrixPair.build directory rows) s pair t →
        ∀ (engine : Engine Binary64 FileMatrix) (cache : Path),
          ((∀ r ∈ rows, r.ZeroFree) → ∀ u e v, pair.SameFiles t.disk u.disk →
            Fails (engine.attach pair.forward pair.transpose cache) u e v →
              e.isConfiguration = false) ∧
          (¬(∀ r ∈ rows, r.ZeroFree) →
            (∀ saved, Summary.load t.disk (engine.cachePath cache) = .ok saved →
              saved.isCurrent pair.forward pair.transpose t.disk ≠ .ok true) →
            ∃ e v, e.isConfiguration = true ∧ v.disk = t.disk ∧
              Fails (engine.attach pair.forward pair.transpose cache) t e v) := by
  refine ⟨fun id r h => yields_of_get S h, fun r => mem_rows_iff, ?_⟩
  intro rows s directory hrows hs hcolumn hentries
  refine ⟨fun e t h => MatrixPair.isConfiguration_of_build (distinct_of_subperm hrows) h, ?_⟩
  intro pair t hbuild engine cache
  obtain ⟨sorted, hperm, hasc, holds⟩ := MatrixPair.holds_of_build hs hbuild
    (MatrixPair.sized_of_build hs hbuild hentries)
  obtain ⟨hstored, hstored'⟩ := Matrix.stored_both hasc hperm
    (hrows.length_le.trans_lt (length_readable_lt hopen)) hcolumn
  rw [hstored, hstored'] at holds
  obtain ⟨hforward, htranspose⟩ := holds t.disk ⟨rfl, rfl⟩
  have hequal : (sorted.map Row.width).sum = ((Matrix.transpose sorted).map Row.width).sum ↔
      ∀ r ∈ rows, r.ZeroFree := by
    simp only [Matrix.sum_width_transpose_iff hasc, hperm.mem_iff]
  constructor
  · intro hzero u e v hsame hfails
    obtain ⟨hforward', htranspose'⟩ := holds u.disk hsame
    obtain ⟨cause, rfl⟩ :=
      Engine.io_of_attach_fails_of_files hforward' htranspose' (hequal.mpr hzero) hfails
    rfl
  · intro hzero hstale
    obtain ⟨v, hdisk, hfails⟩ := Engine.attach_fails
      ⟨hforward, htranspose, MatrixPair.exists_versionTokens hbuild, hstale⟩ (hequal.not.mpr hzero)
    exact ⟨_, v, rfl, hdisk, hfails⟩

/-- A file of one row with one value. -/
def holding (value : UInt32) : Bytes :=
  FileFormat.matrix.magic ++ Bytes.word 2 1 ++ Bytes.word 4 1
    ++ (Bytes.word 4 1 ++ Bytes.word 8 26 ++ Bytes.word 4 1)
    ++ (Bytes.word 4 5 ++ Bytes.word 4 value.toNat)

/-- A disk with just this file. -/
def holdingDisk (value : UInt32) : FileSystem :=
  ⟨.directory [("m.spm", .file 0)], #[⟨.ofBytes (holding value), 1⟩], 2⟩

/-- The row in such a file. -/
def heldRow (value : UInt32) : Row := ⟨1, [(5, ⟨value⟩)], by simp⟩

theorem wellFormed_holdingDisk (value : UInt32) : (holdingDisk value).WellFormed := by
  have hwrite : (FileSystem.empty 0).writeFile ⟨false, ["m.spm"]⟩ (holding value) =
    .ok (holdingDisk value) := by rfl
  exact (FileSystem.writeFile_spec (.empty 0) hwrite).1

theorem exists_get_held (value : UInt32)
    (hcheck : (match openFile (holdingDisk value) ⟨false, ["m.spm"]⟩ with
      | .ok m => match m.get (holdingDisk value) 1 with
        | .ok (some r) => decide (r.entries = (heldRow value).entries)
        | _ => false
      | .error _ => false) = true) :
    ∃ m, openFile (holdingDisk value) ⟨false, ["m.spm"]⟩ = .ok m ∧
      m.get (holdingDisk value) 1 = .ok (some (heldRow value)) := by
  cases hopen : openFile (holdingDisk value) ⟨false, ["m.spm"]⟩ with
  | error => simp [hopen] at hcheck
  | ok m =>
    simp only [hopen] at hcheck
    split at hcheck
    · rename_i r hget
      refine ⟨m, rfl, hget.trans ?_⟩
      rw [Row.eq_of_entries (yields_of_get Binary64 hget).1 (of_decide_eq_true hcheck)]
    · cases hcheck

/-- The one row of a file that holds a one. -/
theorem rows_read_one :
    ∃ m pair t, openFile (holdingDisk 0x3f800000) ⟨false, ["m.spm"]⟩ = .ok m ∧
      m.get (holdingDisk 0x3f800000) 1 = .ok (some (heldRow 0x3f800000)) ∧
      (heldRow 0x3f800000).remade.columns = (heldRow 0x3f800000).columns ∧
      Succeeds (MatrixPair.build ⟨false, ["m"]⟩ [heldRow 0x3f800000]) ⟨holdingDisk 0x3f800000, []⟩
        pair t ∧
      ∀ (engine : Engine Binary64 FileMatrix) cache e v,
        Fails (engine.attach pair.forward pair.transpose cache) t e v →
          e.isConfiguration = false := by
  obtain ⟨m, hopen, hget⟩ := exists_get_held 0x3f800000 (by decide +kernel)
  obtain ⟨pair, hbuild⟩ := exists_succeeds (s := ⟨holdingDisk 0x3f800000, []⟩)
    (x := MatrixPair.build ⟨false, ["m"]⟩ [heldRow 0x3f800000]) (by decide +kernel)
  obtain ⟨hyields, _, hpairs⟩ := rows_read Binary64 hopen (holdingDisk 0x3f800000)
  have hzero : (heldRow 0x3f800000).ZeroFree := Row.zeroFree_iff.mpr (by decide)
  obtain ⟨_, hattach⟩ := hpairs [heldRow 0x3f800000] ⟨holdingDisk 0x3f800000, []⟩ ⟨false, ["m"]⟩
    (List.singleton_subperm_iff.mpr (mem_readable_iff.mpr hget)) (wellFormed_holdingDisk _)
    ⟨0, by decide⟩ (by decide)
  exact ⟨m, pair, _, hopen, hget, (hyields 1 _ hget).2.remade_iff.mpr hzero, hbuild,
    fun engine cache e v hfails => (hattach pair _ hbuild engine cache).1
      (List.forall_mem_singleton.mpr hzero) _ e v ⟨rfl, rfl⟩ hfails⟩

/-- The one row of a file that holds a zero has a column that the row of its vector lacks, and a
pair that is built from it is refused for its entries. -/
theorem rows_read_zero :
    ∃ m pair t e u, openFile (holdingDisk 0) ⟨false, ["m.spm"]⟩ = .ok m ∧
      m.get (holdingDisk 0) 1 = .ok (some (heldRow 0)) ∧ (heldRow 0).values = [0] ∧
      (heldRow 0).remade.columns ≠ (heldRow 0).columns ∧
      Succeeds (MatrixPair.build ⟨false, ["m"]⟩ [heldRow 0]) ⟨holdingDisk 0, []⟩ pair t ∧
      Fails (Engine.filing.attach pair.forward pair.transpose ⟨false, ["c"]⟩) t e u ∧
      e.isConfiguration = true := by
  obtain ⟨m, hopen, hget⟩ := exists_get_held 0 (by decide +kernel)
  have hcheck : succeedsWith (MatrixPair.build ⟨false, ["m"]⟩ [heldRow 0]) ⟨holdingDisk 0, []⟩
      (fun pair t => failsWith (Summary.loadOrBuild ⟨false, ["c", "s"]⟩ pair.forward
        pair.transpose) t fun e _ => e.isConfiguration) = true := by decide +kernel
  have hcolumns : (heldRow 0).remade.columns ≠ (heldRow 0).columns := by
    rw [Row.columns, Row.entries_remade]
    decide
  obtain ⟨pair, t, hbuild, hattach⟩ := exists_of_succeedsWith hcheck
  obtain ⟨e, u, hcall, hrefused⟩ := exists_of_failsWith hattach
  exact ⟨m, pair, t, e, u, hopen, hget, rfl, hcolumns, hbuild,
    Engine.fails_attach.mpr (Engine.cachePath_filing ▸ hcall), hrefused⟩

end FileMatrix

end Relatedness
