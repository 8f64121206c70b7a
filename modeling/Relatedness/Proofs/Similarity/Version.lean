import Relatedness.Proofs.Similarity.Saved

/-! Which version of two stores a summary was made of. A summary is used as long as the two version
tokens and the two row counts in it are those of the stores; it is that of the stores then, if
versions that agree in those four numbers have the same contents. -/

namespace Relatedness

/-- A pair of stores at a state of the disk. -/
structure View (σ : Type) where
  forward : σ
  transpose : σ
  disk : FileSystem

namespace View

variable {σ : Type} [MatrixStore σ]

/-- The summary of the stores. -/
def build (v : View σ) : Except Error (Summary Binary64) :=
  Summary.build v.forward v.transpose v.disk

/-- The version tokens and the row counts are the same. -/
structure SameVersion (v w : View σ) : Prop where
  forwardToken : ∃ token, MatrixStore.versionToken v.forward v.disk = .ok token ∧
    MatrixStore.versionToken w.forward w.disk = .ok token
  transposeToken : ∃ token, MatrixStore.versionToken v.transpose v.disk = .ok token ∧
    MatrixStore.versionToken w.transpose w.disk = .ok token
  forwardRows : MatrixStore.rowCount v.forward = MatrixStore.rowCount w.forward
  transposeRows : MatrixStore.rowCount v.transpose = MatrixStore.rowCount w.transpose

/-- The stores show the same rows. -/
structure SameContents (v w : View σ) : Prop where
  forward : MatrixStore.rows v.forward v.disk = MatrixStore.rows w.forward w.disk
  transpose : MatrixStore.rows v.transpose v.disk = MatrixStore.rows w.transpose w.disk
  features : MatrixStore.rowIds v.transpose = MatrixStore.rowIds w.transpose

/-- The versions of these views tell their contents. Row counts are words of eight bytes. -/
structure Faithful (views : Set (View σ)) : Prop where
  contents : ∀ v ∈ views, ∀ w ∈ views, v.SameVersion w → v.SameContents w
  forwardRows : ∀ v ∈ views, MatrixStore.rowCount v.forward < 2 ^ 64
  transposeRows : ∀ v ∈ views, MatrixStore.rowCount v.transpose < 2 ^ 64

end View

namespace Summary

variable {σ : Type} [MatrixStore σ] {forward transpose : σ} {fs : FileSystem}

/-! ## What a summary is made of -/

/-- The tokens and counts of a summary are those of the stores, and its width is that of a row. -/
theorem fields_of_build {v : View σ} {s : Summary Binary64} (h : v.build = .ok s) :
    MatrixStore.versionToken v.forward v.disk = .ok s.forwardToken ∧
      MatrixStore.versionToken v.transpose v.disk = .ok s.transposeToken ∧
      s.forwardRows = MatrixStore.rowCount v.forward ∧
      s.transposeRows = MatrixStore.rowCount v.transpose ∧ s.maxWidth ≤ 2 ^ 32 := by
  obtain ⟨_, _, rows, _, hforward, htranspose, _, _, _, rfl⟩ := build_eq_ok_iff.mp h
  refine ⟨hforward, htranspose, rfl, rfl, ?_⟩
  obtain ⟨_, _, hzero | hmem⟩ := foldl_max 0 (rows.map Row.width)
  · simp only [hzero]
    exact Nat.zero_le _
  · obtain ⟨r, _, hwidth⟩ := List.mem_map.mp hmem
    simp only [← hwidth]
    exact Ascending.length_le r.ascending

theorem fits_of_build {views : Set (View σ)} (hviews : View.Faithful views) {v : View σ}
    (hv : v ∈ views) {s : Summary Binary64} (h : v.build = .ok s) : s.Fits := by
  obtain ⟨_, _, hforward, htranspose, hwidth⟩ := fields_of_build h
  exact ⟨hforward ▸ hviews.forwardRows v hv, htranspose ▸ hviews.transposeRows v hv, by omega⟩

/-- Stores with the same tokens, counts and contents have one summary. -/
theorem build_congr {v w : View σ} (hversion : v.SameVersion w) (hcontents : v.SameContents w)
    {s : Summary Binary64} (h : v.build = .ok s) : w.build = .ok s := by
  obtain ⟨_, _, rows, columns, hforward, htranspose, hrows, hcolumns, hsum, rfl⟩ :=
    build_eq_ok_iff.mp h
  obtain ⟨_, htoken, hforward'⟩ := hversion.forwardToken
  obtain ⟨_, htoken', htranspose'⟩ := hversion.transposeToken
  cases htoken.symm.trans hforward
  cases htoken'.symm.trans htranspose
  refine build_eq_ok_iff.mpr ⟨_, _, rows, columns, hforward', htranspose', ?_, ?_, hsum, ?_⟩
  · rw [← hcontents.forward, hrows]
  · rw [← hcontents.transpose, hcolumns]
  · rw [hversion.forwardRows, hversion.transposeRows, hcontents.features]

/-- A summary is current if its tokens and counts are those of the stores. -/
theorem isCurrent_eq_true_iff {s : Summary Binary64} :
    s.isCurrent forward transpose fs = .ok true ↔
      MatrixStore.versionToken forward fs = .ok s.forwardToken ∧
      MatrixStore.versionToken transpose fs = .ok s.transposeToken ∧
      s.forwardRows = MatrixStore.rowCount forward ∧
      s.transposeRows = MatrixStore.rowCount transpose := by
  constructor
  · intro h
    obtain ⟨forwardToken, hforward, h⟩ := bind_eq_ok_iff.mp h
    split at h
    · cases h
    obtain ⟨transposeToken, htranspose, h⟩ := bind_eq_ok_iff.mp h
    split at h
    · cases h
    simp_all [pure, Except.pure]
  · rintro ⟨hforward, htranspose, hrows, hcolumns⟩
    unfold isCurrent
    rw [hforward, htranspose]
    simp [bind, Except.bind, pure, Except.pure, hrows, hcolumns]

/-- What was made of a version is current as long as the tokens are those of that version. -/
theorem isCurrent_of_agrees {v : View σ} {saved built : Summary Binary64} (h : saved.Agrees built)
    (hbuilt : v.build = .ok built)
    (hforward : MatrixStore.versionToken v.forward fs = MatrixStore.versionToken v.forward v.disk)
    (htranspose : MatrixStore.versionToken v.transpose fs =
      MatrixStore.versionToken v.transpose v.disk) :
    saved.isCurrent v.forward v.transpose fs = .ok true := by
  obtain ⟨htoken, htoken', hrows, hcolumns, _⟩ := fields_of_build hbuilt
  refine isCurrent_eq_true_iff.mpr ⟨?_, ?_, ?_, ?_⟩
  · rw [hforward, htoken, h.forwardToken]
  · rw [htranspose, htoken', h.transposeToken]
  · rw [h.forwardRows, hrows]
  · rw [h.transposeRows, hcolumns]

/-- What was made of a version and is current tells that the version is the same. -/
theorem sameVersion_of_isCurrent {v w : View σ} {saved built : Summary Binary64}
    (h : saved.Agrees built) (hbuilt : v.build = .ok built)
    (hcurrent : saved.isCurrent w.forward w.transpose w.disk = .ok true) : v.SameVersion w := by
  obtain ⟨htoken, htoken', hrows, hcolumns, _⟩ := fields_of_build hbuilt
  obtain ⟨hforward, htranspose, hrows', hcolumns'⟩ := isCurrent_eq_true_iff.mp hcurrent
  rw [h.forwardToken] at hforward
  rw [h.transposeToken] at htranspose
  rw [h.forwardRows] at hrows'
  rw [h.transposeRows] at hcolumns'
  exact ⟨⟨_, htoken, hforward⟩, ⟨_, htoken', htranspose⟩, hrows.symm.trans hrows',
    hcolumns.symm.trans hcolumns'⟩

theorem load_eq_ok_iff {path : Path} {s : Summary Binary64} :
    load fs path = .ok s ↔ ∃ bytes, fs.readFile path = .ok bytes ∧
      FileFormat.similarityCache.load decoder path bytes = .ok s := by
  unfold load
  rw [bind_eq_ok_iff]
  cases fs.readFile path <;> simp [Except.mapError]

end Summary

end Relatedness
