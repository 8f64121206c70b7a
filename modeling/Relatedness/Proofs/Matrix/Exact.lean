import Relatedness.Proofs.Matrix.Building
import Relatedness.Proofs.Matrix.Involution
import Relatedness.Proofs.Similarity.Agreement

/-! A built pair is a matrix and its transpose, cell by cell, and a summary of it knows just the
rows that it was built from. -/

namespace Relatedness

namespace Row

/-- The row was made from entries or from a vector. -/
def Made (r : Row) : Prop :=
  (∃ entries, r = ofEntries r.id entries) ∨ ∃ v, r = ofVector r.id v

theorem Made.zeroFree {r : Row} (h : r.Made) : r.ZeroFree := by
  rcases h with ⟨entries, h⟩ | ⟨v, h⟩
  · exact h ▸ zeroFree_ofEntries r.id entries
  · exact h ▸ zeroFree_ofVector r.id v

end Row

namespace Matrix

variable {rows : List Row}

/-- If there are not too many rows to be counted in a file, and one column is not used, nothing
of the rows or of their transpose is lost in the files. -/
theorem stored_both {sorted : List Row} (h : sorted.Pairwise fun a b => a.id < b.id)
    (hperm : sorted.Perm rows) (hcount : rows.length < 2 ^ 32)
    (hcolumn : ∃ c, ∀ r ∈ rows, r.get? c = none) :
    stored sorted = sorted ∧ stored (transpose sorted) = transpose sorted := by
  obtain ⟨c, hfree⟩ := hcolumn
  have hc : ∀ r ∈ sorted, r.get? c = none := fun r hr => hfree r (hperm.mem_iff.mp hr)
  rw [← hperm.length_eq] at hcount
  have hunused : ∀ r ∈ sorted, c ∉ r.columns := by
    intro r hr hmem
    obtain ⟨e, he, rfl⟩ := List.mem_map.mp hmem
    cases (hc r hr).symm.trans (Row.get?_eq_some_iff.mpr he)
  constructor
  · exact stored_of_lt hcount fun r hr => Ascending.length_lt r.ascending (hunused r hr)
  refine stored_of_lt (Ascending.length_lt (pairwise_transpose sorted) (k := c) fun hmem => ?_)
    fun t ht => ?_
  · obtain ⟨r, hr, v, hv⟩ := mem_map_id_transpose_iff.mp hmem
    cases (hc r hr).symm.trans (Row.get?_eq_some_iff.mpr hv)
  · -- the columns of a transposed row are ids of rows
    have hsub : t.columns ⊆ sorted.map Row.id := by
      intro id hid
      obtain ⟨e, he, rfl⟩ := List.mem_map.mp hid
      have hcell := (cell_eq_some_iff (pairwise_transpose sorted)).mpr ⟨t, ht, rfl, he⟩
      rw [cell_transpose_of_ascending h, Option.filter_eq_some_iff] at hcell
      obtain ⟨r, hr, hrid, _⟩ := (cell_eq_some_iff h).mp hcell.1
      exact hrid ▸ List.mem_map_of_mem hr
    have hle := (List.subperm_of_subset t.nodup_columns hsub).length_le
    simp only [Row.columns, List.length_map] at hle
    exact hle.trans_lt hcount

end Matrix

namespace FileMatrix

theorem io_of_versionToken {fs : FileSystem} {m : FileMatrix} {e : Error}
    (h : MatrixStore.versionToken m fs = .error e) : ∃ cause, e = .io cause := by
  change (fs.versionToken m.path).mapError Error.io = .error e at h
  cases htoken : fs.versionToken m.path with
  | ok token =>
    rw [htoken] at h
    cases h
  | error cause =>
    rw [htoken] at h
    cases h
    exact ⟨cause, rfl⟩

/-- A file that was just opened can tell its version. -/
theorem exists_versionToken {fs : FileSystem} {path : Path} {m : FileMatrix}
    (h : openFile fs path = .ok m) : ∃ token, MatrixStore.versionToken m fs = .ok token := by
  have hpath : m.path = path := by
    unfold openFile at h
    split at h
    · cases h
    · cases h
    · dsimp only at h
      split at h <;> cases h
      rfl
  obtain ⟨hopen, _⟩ := openFile_eq_ok h
  change ∃ token, (fs.versionToken m.path).mapError Error.io = .ok token
  rw [hpath, FileSystem.versionToken_of_openFile hopen]
  exact ⟨_, rfl⟩

end FileMatrix

namespace MatrixPair

variable {s t : Session} {directory : Path} {rows : List Row} {pair : MatrixPair}

/-- The files show the rows and their transpose, cell by cell. -/
structure Exact (pair : MatrixPair) (fs : FileSystem) (rows : List Row) : Prop where
  given : ∀ r ∈ rows, pair.forward.get fs r.id = .ok (some r)
  readable : ∀ id, (∃ r?, pair.forward.get fs id = .ok r?) ∧ ∃ t?, pair.transpose.get fs id = .ok t?
  cells : ∀ id c v, (∃ r, pair.forward.get fs id = .ok (some r) ∧ r.get? c = some v) ↔
    ∃ t, pair.transpose.get fs c = .ok (some t) ∧ t.get? id = some v
  rowIds : pair.forward.rowIds.Pairwise (· < ·) ∧ pair.forward.rowIds.Perm (rows.map Row.id)
  columnIds : pair.transpose.rowIds.Pairwise (· < ·) ∧
    ∀ c, c ∈ pair.transpose.rowIds ↔ ∃ r ∈ rows, ∃ v, r.get? c = some v
  nonempty : ∀ c t, pair.transpose.get fs c = .ok (some t) → t.isEmpty = false

theorem exact_of_holds {fs : FileSystem} {sorted : List Row}
    (hforward : MatrixStore.Holds pair.forward fs sorted)
    (htranspose : MatrixStore.Holds pair.transpose fs (Matrix.transpose sorted))
    (hperm : sorted.Perm rows) (hzero : ∀ r ∈ sorted, r.ZeroFree) : pair.Exact fs rows := by
  have hasc := hforward.ascending
  have hget : ∀ id, pair.forward.get fs id = .ok (sorted.find? fun r => r.id == id) := hforward.get
  have hget' : ∀ c, pair.transpose.get fs c =
      .ok ((Matrix.transpose sorted).find? fun r => r.id == c) := htranspose.get
  have hids : pair.forward.rowIds = sorted.map Row.id := hforward.rowIds
  have hids' : pair.transpose.rowIds = (Matrix.transpose sorted).map Row.id := htranspose.rowIds
  -- what a store answers for a row and a column is a cell of the rows that it holds
  have hcell : ∀ {rows : List Row} {id c v},
      (∃ r, (.ok (rows.find? fun r => r.id == id) : Except Error (Option Row)) = .ok (some r) ∧
        r.get? c = some v) ↔ Matrix.cell rows id c = some v := by
    intro rows id c v
    simp only [Except.ok.injEq, Matrix.cell, Option.bind_eq_some_iff]
  refine ⟨fun r hr => ?_, fun id => ⟨⟨_, hget id⟩, _, hget' id⟩, fun id c v => ?_, ?_, ?_,
    fun c t ht => ?_⟩
  · rw [hget, (Ascending.find?_eq_some_iff hasc).mpr ⟨hperm.mem_iff.mpr hr, rfl⟩]
  · rw [hget, hget', hcell, hcell, Matrix.transposed_transpose hzero hasc]
  · rw [hids]
    exact ⟨List.pairwise_map.mpr hasc, hperm.map Row.id⟩
  · rw [hids']
    refine ⟨List.pairwise_map.mpr (Matrix.pairwise_transpose sorted), fun c => ?_⟩
    simp only [Matrix.mem_map_id_transpose_iff, Row.get?_eq_some_iff, hperm.mem_iff]
  · rw [hget', Except.ok.injEq] at ht
    have hmem := List.mem_of_find?_eq_some ht
    simpa [Row.isEmpty] using Matrix.entries_ne_nil_of_mem_transpose hzero hmem

theorem openDirectory_of_build (h : Succeeds (build directory rows) s pair t) :
    openDirectory t.disk directory = .ok pair := by
  simp only [build, succeeds_bind, Action.succeeds_onDisk, succeeds_tryCatch, succeeds_throw,
    and_false, exists_false, or_false, Action.succeeds_log, Action.succeeds_disk,
    Action.succeeds_ofExcept] at h
  obtain ⟨_, _, _, _, _, _, _, _, _, _, _, rfl, _, _, ⟨rfl, rfl⟩, hopen, rfl⟩ := h
  exact hopen

/-- Both files of a pair that was just built can tell their versions. -/
theorem exists_versionTokens (h : Succeeds (build directory rows) s pair t) :
    (∃ token, MatrixStore.versionToken pair.forward t.disk = .ok token) ∧
      ∃ token, MatrixStore.versionToken pair.transpose t.disk = .ok token := by
  have hopen := openDirectory_of_build h
  unfold openDirectory at hopen
  cases hforward : FileMatrix.openFile t.disk (directory.child forwardName) with
  | error e =>
    rw [hforward] at hopen
    cases hopen
  | ok forward =>
    cases htranspose : FileMatrix.openFile t.disk (directory.child transposeName) with
    | error e =>
      rw [hforward, htranspose] at hopen
      cases hopen
    | ok transpose =>
      rw [hforward, htranspose] at hopen
      cases hopen
      exact ⟨FileMatrix.exists_versionToken hforward, FileMatrix.exists_versionToken htranspose⟩

/-- The files of a built pair are not too large if the rows have not too many entries. -/
theorem sized_of_build (hs : s.disk.WellFormed) (h : Succeeds (build directory rows) s pair t)
    (hentries : (rows.map Row.width).sum < 2 ^ 60) : pair.Sized := by
  obtain ⟨_, sorted, hperm, hforward, htranspose⟩ := build_spec hs h
  have hasc := hforward.ascending
  rw [← (hperm.map Row.width).sum_eq] at hentries
  refine ⟨?_, ?_⟩
  · exact hforward.size ▸ Matrix.length_encode_lt hasc hentries
  · exact htranspose.size ▸ Matrix.length_encode_lt (Matrix.pairwise_transpose sorted)
      ((Matrix.sum_width_transpose_le hasc).trans_lt hentries)

/-- A pair of rows with ids of their own, made from entries or vectors, is built where there is
room for its directory. Whenever it is built, its files are exact transposes as long as their
contents are the same, and a summary of them fails only if a file cannot tell its version, which
both can at first; it covers just these rows.

The number of rows in a file is a word of four bytes, which cannot count as many rows or columns as
there are ids. Of more rows the files hold what such words tell, as of rows that are too wide. The
size of a file is a word of eight bytes, in which less than `2 ^ 60` entries always fit. -/
theorem build_exact (S : Type) [Scalar S] (hs : s.disk.WellFormed) (hmade : ∀ r ∈ rows, r.Made)
    (hdistinct : rows.Pairwise fun a b => a.id ≠ b.id) :
    (directory.Roomy s.disk → (rows.map Row.width).sum < 2 ^ 60 →
      ∃ pair t, Succeeds (build directory rows) s pair t) ∧
    ∀ pair t, Succeeds (build directory rows) s pair t →
      ((rows.map Row.width).sum < 2 ^ 60 → pair.Sized) ∧
      (pair.Sized →
        (∃ sorted : List Row, sorted.Perm rows ∧ (sorted.Pairwise fun a b => a.id < b.id) ∧
          ∀ fs, pair.SameFiles t.disk fs →
            MatrixStore.Holds pair.forward fs (Matrix.stored sorted) ∧
            MatrixStore.Holds pair.transpose fs (Matrix.stored (Matrix.transpose sorted))) ∧
        (rows.length < 2 ^ 32 → (∃ c, ∀ r ∈ rows, r.get? c = none) →
          (∀ fs, pair.SameFiles t.disk fs → pair.Exact fs rows ∧
            (∀ e, (Summary.build pair.forward pair.transpose fs : Except Error (Summary S)) =
              .error e → ∃ cause, e = .io cause) ∧
            ∀ summary : Summary S, Summary.build pair.forward pair.transpose fs = .ok summary →
              summary.Covers rows) ∧
          ∃ summary : Summary S,
            Summary.build pair.forward pair.transpose t.disk = .ok summary)) := by
  refine ⟨fun hroom hentries => exists_build hs hroom hdistinct hentries, fun pair t hbuild =>
    ⟨sized_of_build hs hbuild, fun hsized => ?_⟩⟩
  obtain ⟨sorted, hperm, hasc, holds⟩ := holds_of_build hs hbuild hsized
  refine ⟨⟨sorted, hperm, hasc, holds⟩, fun hcount hcolumn => ?_⟩
  obtain ⟨hstored, hstored'⟩ := Matrix.stored_both hasc hperm hcount hcolumn
  rw [hstored, hstored'] at holds
  have hzero : ∀ r ∈ sorted, r.ZeroFree := fun r hr => (hmade r (hperm.mem_iff.mp hr)).zeroFree
  have hequal := Matrix.sum_width_of_transposed hasc (Matrix.pairwise_transpose sorted)
    (Matrix.transposed_transpose hzero hasc)
  have hused : ∀ c, c ∈ (Matrix.transpose sorted).map Row.id ↔
      ∃ r ∈ sorted, ∃ v, r.get? c = some v := by
    simp only [Matrix.mem_map_id_transpose_iff, Row.get?_eq_some_iff, implies_true]
  refine ⟨fun fs hsame => ?_, ?_⟩
  · obtain ⟨hfirst, hsecond⟩ := holds fs hsame
    refine ⟨exact_of_holds hfirst hsecond hperm hzero, fun e he => ?_, fun summary hsummary => ?_⟩
    · rcases Summary.error_of_build hfirst hsecond hequal he with he | he <;>
        exact FileMatrix.io_of_versionToken he
    · exact (Summary.covers_of_build hfirst hsecond hused hsummary).of_perm hperm
  · obtain ⟨hfirst, hsecond⟩ := holds t.disk ⟨rfl, rfl⟩
    obtain ⟨⟨forwardToken, hforwardToken⟩, transposeToken, htransposeToken⟩ :=
      exists_versionTokens hbuild
    rw [Summary.build_eq hfirst hsecond hequal, hforwardToken, htransposeToken]
    exact ⟨_, rfl⟩

/-- Rows in descending order, one of them empty. -/
def madeRows : List Row :=
  [.ofVector 3 (.ofEntries [(7, ⟨0x3f000000⟩), (1, ⟨0x40000000⟩)]), .ofEntries 2 [(4, 0)],
    .ofEntries 1 [(1, ⟨0x3f800000⟩)]]

theorem build_exact_madeRows :
    ∃ pair t, Succeeds (build ⟨false, ["m"]⟩ madeRows) ⟨.empty 0, []⟩ pair t ∧
      pair.Exact t.disk madeRows ∧ ∃ summary : Summary Binary64,
        Summary.build pair.forward pair.transpose t.disk = .ok summary ∧
          summary.Covers madeRows := by
  have hmade : ∀ r ∈ madeRows, r.Made := by
    intro r hr
    simp only [madeRows, List.mem_cons, List.not_mem_nil, or_false] at hr
    rcases hr with rfl | rfl | rfl
    · exact .inr ⟨_, rfl⟩
    · exact .inl ⟨_, rfl⟩
    · exact .inl ⟨_, rfl⟩
  have hname : (⟨false, ["m"]⟩ : Path).fileName? = some "m" := by decide +kernel
  have hroom : (⟨false, ["m"]⟩ : Path).Roomy (.empty 0) := by
    have hsteady : (⟨false, ["m"]⟩ : Path).Steady (.empty 0) :=
      Path.steady_of_no_dots hname (by decide)
    refine ⟨⟨"m", by decide, by decide⟩, hsteady, rfl, ?_, ?_, ?_⟩ <;> exact fun _ h => by cases h
  have hentries : (madeRows.map Row.width).sum < 2 ^ 60 := by decide +kernel
  obtain ⟨hexists, hbuilt⟩ :=
    build_exact (s := ⟨.empty 0, []⟩) Binary64 (.empty 0) hmade (by decide)
  obtain ⟨pair, t, h⟩ := hexists hroom hentries
  obtain ⟨hsized, hholds⟩ := hbuilt pair t h
  obtain ⟨hexact, summary, hsummary⟩ :=
    (hholds (hsized hentries)).2 (by decide) ⟨0, by decide +kernel⟩
  obtain ⟨hcells, _, hcovers⟩ := hexact t.disk ⟨rfl, rfl⟩
  exact ⟨pair, t, h, hcells, summary, hsummary, hcovers summary hsummary⟩

end MatrixPair
end Relatedness
