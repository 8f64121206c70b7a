import Relatedness.Proofs.Similarity.Freshness
import Relatedness.Proofs.Similarity.RealSearch

/-! Stores that are not transposes of each other. Attaching two stores compares how many entries they
have. That tells them apart if all cells of one of them stand in the other, so that cells are missing
on one side only; a cell that stands in another place goes unnoticed, and is found by one way of
searching and not by the other. -/

namespace Relatedness

namespace Matrix

variable {rows columns : List Row}

/-- Every cell of one list of rows stands in the other, where there may be more. -/
def Within (rows columns : List Row) : Prop :=
  ∀ id c v, cell rows id c = some v → cell columns c id = some v

/-- With as many entries on both sides, no cell is missing if none is missing on one side. -/
theorem transposed_of_within (hrows : rows.Pairwise fun a b => a.id < b.id)
    (hcolumns : columns.Pairwise fun a b => a.id < b.id)
    (h : Within rows columns ∨ Within columns rows)
    (hsum : (rows.map Row.width).sum = (columns.map Row.width).sum) : Transposed rows columns := by
  rcases h with h | h
  · exact fun id c => (transposed_of_sum_width hcolumns hrows h hsum.symm c id).symm
  · exact transposed_of_sum_width hrows hcolumns h hsum

end Matrix

namespace Engine

variable {σ : Type} [MatrixStore σ] {engine engine' : Engine Binary64 σ} {forward transpose : σ}
  {directory : Path} {s t : Session} {rows columns : List Row}

/-- Two stores that hold rows and tell their versions, with no saved summary that is current. -/
structure Unattached (engine : Engine Binary64 σ) (forward transpose : σ) (directory : Path)
    (fs : FileSystem) (rows columns : List Row) : Prop where
  holdsForward : MatrixStore.Holds forward fs rows
  holdsTranspose : MatrixStore.Holds transpose fs columns
  tokens : (∃ token, MatrixStore.versionToken forward fs = .ok token) ∧
    ∃ token, MatrixStore.versionToken transpose fs = .ok token
  stale : ∀ saved, Summary.load fs (engine.cachePath directory) = .ok saved →
    saved.isCurrent forward transpose fs ≠ .ok true

/-- The error that tells of two stores with unequally many entries. -/
def unequal (forward transpose : σ) (rows columns : List Row) : Error :=
  .unequalEntries (MatrixStore.path forward) (rows.map Row.width).sum
    (MatrixStore.path transpose) (columns.map Row.width).sum

theorem attach_fails (h : Unattached engine forward transpose directory s.disk rows columns)
    (hsum : (rows.map Row.width).sum ≠ (columns.map Row.width).sum) :
    ∃ t, t.disk = s.disk ∧ Fails (engine.attach forward transpose directory) s
      (unequal forward transpose rows columns) t := by
  obtain ⟨u, hdisk, houtcome⟩ := Summary.outcome_loadOrBuild_of_stale h.tokens h.stale
  obtain ⟨t, hsame, hfails⟩ := Summary.fails_rebuild
    (Summary.build_eq_error h.holdsForward h.holdsTranspose h.tokens hsum)
    (engine.cachePath directory) u
  exact ⟨t, hsame.trans hdisk, fails_attach.mpr (houtcome.trans hfails)⟩

/-- With equally many entries, only saving the summary can fail. -/
theorem io_of_attach_fails (h : Unattached engine forward transpose directory s.disk rows columns)
    (hsum : (rows.map Row.width).sum = (columns.map Row.width).sum) {e : Error}
    (hfails : Fails (engine.attach forward transpose directory) s e t) : ∃ cause, e = .io cause := by
  obtain ⟨u, _, houtcome⟩ := Summary.outcome_loadOrBuild_of_stale h.tokens h.stale
  rcases Summary.rebuild_fails (houtcome.symm.trans (fails_attach.mp hfails)) with
    ⟨hbuild, _⟩ | ⟨_, cause, _, hcause, _⟩
  · obtain ⟨⟨_, htoken⟩, _, htoken'⟩ := h.tokens
    rcases Summary.error_of_build h.holdsForward h.holdsTranspose hsum hbuild with herror | herror
    · cases htoken.symm.trans herror
    · cases htoken'.symm.trans herror
  · exact ⟨cause, hcause⟩

theorem knows_of_attach (h : Unattached engine forward transpose directory s.disk rows columns)
    (hsucceeds : Succeeds (engine.attach forward transpose directory) s engine' t) :
    (rows.map Row.width).sum = (columns.map Row.width).sum ∧
      ∃ summary, engine'.attached = some ⟨forward, transpose, summary⟩ ∧
        ∀ fs, MatrixStore.Holds forward fs rows → MatrixStore.Holds transpose fs columns →
          Matrix.Transposed rows columns →
            Attached.Knows ⟨forward, transpose, summary⟩ fs rows columns := by
  obtain ⟨summary, hsummary, rfl⟩ := succeeds_attach.mp hsucceeds
  obtain ⟨hsum, hnorms, hfeatures⟩ := Summary.build_eq_ok h.holdsForward h.holdsTranspose
    (Summary.build_of_loadOrBuild h.stale hsummary)
  exact ⟨hsum, summary, rfl, fun fs hforward htranspose htransposed =>
    ⟨hforward, htranspose, htransposed, hnorms, hfeatures⟩⟩

/-- What attaching two stores checks. Stores with unequally many entries are refused, for this
reason, and no others are, whatever their cells are. If all cells of one store stand in the other,
this is to say that stores are refused which are not transposes of each other; of those attached all
strategies find the same hits, for as long as the stores hold the same. -/
theorem attach_checks_totals
    (h : Unattached engine forward transpose directory s.disk rows columns) :
    ((rows.map Row.width).sum ≠ (columns.map Row.width).sum →
      ∃ t, t.disk = s.disk ∧ Fails (engine.attach forward transpose directory) s
        (unequal forward transpose rows columns) t) ∧
    ((rows.map Row.width).sum = (columns.map Row.width).sum →
      ∀ e t, Fails (engine.attach forward transpose directory) s e t → ∃ cause, e = .io cause) ∧
    (Matrix.Within rows columns ∨ Matrix.Within columns rows →
      (¬Matrix.Transposed rows columns →
        ∃ t, t.disk = s.disk ∧ Fails (engine.attach forward transpose directory) s
          (unequal forward transpose rows columns) t) ∧
      ∀ engine' t, Succeeds (engine.attach forward transpose directory) s engine' t →
        Matrix.Transposed rows columns ∧
        ∀ fs, MatrixStore.Holds forward fs rows → MatrixStore.Holds transpose fs columns →
          ∀ query k candidates, ∃ hits, ∀ strategy,
            engine'.mostSimilarWith fs strategy query k candidates = .ok hits) := by
  have hfails := attach_fails h
  refine ⟨hfails, fun hsum _ _ => io_of_attach_fails h hsum, fun hwithin => ⟨fun hnot => ?_,
    fun engine' t hsucceeds => ?_⟩⟩
  · exact hfails fun hsum =>
      hnot (Matrix.transposed_of_within h.holdsForward.ascending h.holdsTranspose.ascending hwithin
        hsum)
  · obtain ⟨hsum, summary, hattached, hknows⟩ := knows_of_attach h hsucceeds
    have htransposed :=
      Matrix.transposed_of_within h.holdsForward.ascending h.holdsTranspose.ascending hwithin hsum
    exact ⟨htransposed, fun fs hforward htranspose query k candidates =>
      ⟨_, fun strategy => mostSimilarWith_eq hattached (hknows fs hforward htranspose htransposed)
        strategy query k candidates⟩⟩

end Engine

/-! ## Stores in memory -/

/-- A store in memory holds its rows if their ids ascend. -/
theorem MemoryMatrix.holds {m : MemoryMatrix} (h : m.held.Pairwise fun a b => a.id < b.id)
    (fs : FileSystem) : MatrixStore.Holds m fs m.held where
  ascending := h
  rowIds := rfl
  get _ := rfl
  rows := by
    have hrows : MatrixStore.rows m fs = (m.held.map Row.id).filterMap fun id =>
        (m.held.find? fun r => r.id == id).map .ok := by
      refine List.filterMap_congr fun id _ => ?_
      dsimp only
      cases m.held.find? fun r => r.id == id <;> rfl
    rw [hrows, List.filterMap_map, ← List.filterMap_eq_map]
    refine List.filterMap_congr fun r hr => ?_
    simp [(Ascending.find?_eq_some_iff h).mpr ⟨hr, rfl⟩]

namespace Engine

/-- An engine with a name for its saved summary. -/
def naming : Engine Binary64 MemoryMatrix := .new { cacheFileName := "s" }

theorem cachePath_naming : naming.cachePath ⟨false, ["c"]⟩ = ⟨false, ["c", "s"]⟩ :=
  cachePath_letter

/-- On an empty disk there is no saved summary. -/
theorem unattached_memory {forward transpose : MemoryMatrix}
    (hforward : forward.held.Pairwise fun a b => a.id < b.id)
    (htranspose : transpose.held.Pairwise fun a b => a.id < b.id) :
    Unattached naming forward transpose ⟨false, ["c"]⟩ blank.disk forward.held transpose.held where
  holdsForward := MemoryMatrix.holds hforward _
  holdsTranspose := MemoryMatrix.holds htranspose _
  tokens := ⟨⟨_, rfl⟩, _, rfl⟩
  stale saved hload := by
    have hempty : (FileSystem.empty 0).WellFormed := .empty 0
    obtain ⟨bytes, hread, hbytes⟩ := Summary.load_eq_ok_iff.mp hload
    exact absurd hbytes
      (Machine.unsaved_empty _ bytes saved (FileSystem.carries_of_readFile hempty hread))

/-- A row with two cells, of which the other store has one. -/
theorem attach_checks_totals_missing :
    let forward : MemoryMatrix :=
      ⟨[⟨1, [(10, ⟨0x3f800000⟩), (11, ⟨0x3f800000⟩)], by simp⟩], 1⟩
    let transpose : MemoryMatrix := ⟨[⟨10, [(1, ⟨0x3f800000⟩)], by simp⟩], 1⟩
    ∃ t, t.disk = blank.disk ∧ Fails (naming.attach forward transpose ⟨false, ["c"]⟩) blank
      (.unequalEntries ⟨false, ["memory"]⟩ 2 ⟨false, ["memory"]⟩ 1) t := by
  intro forward transpose
  have h : Unattached naming forward transpose ⟨false, ["c"]⟩ blank.disk forward.held
    transpose.held := unattached_memory (List.pairwise_singleton _ _) (List.pairwise_singleton _ _)
  have hwithin : Matrix.Within transpose.held forward.held := by
    intro c id v hcell
    obtain ⟨r, hr, rfl, hmem⟩ := (Matrix.cell_eq_some_iff (List.pairwise_singleton _ _)).mp hcell
    cases List.mem_singleton.mp hr
    cases List.mem_singleton.mp hmem
    rfl
  exact ((attach_checks_totals h).2.2 (.inr hwithin)).1 fun htransposed =>
    absurd (htransposed 1 11) (by decide)

/-- One cell, in row 1 and column 10. -/
def inTen : MemoryMatrix := ⟨[⟨1, [(10, ⟨0x3f800000⟩)], by simp⟩], 1⟩

/-- One cell, in row 11 and column 1. -/
def ofEleven : MemoryMatrix := ⟨[⟨11, [(1, ⟨0x3f800000⟩)], by simp⟩], 1⟩

/-- A cell that stands in the row of another column is not missed: the stores are attached, and in
exact arithmetic a direct scan for the row finds it, while the inverted index does not. -/
theorem attach_misses_cell :
    Unattached naming inTen ofEleven ⟨false, ["c"]⟩ blank.disk inTen.held ofEleven.held ∧
    Matrix.cell inTen.held 1 10 = some ⟨0x3f800000⟩ ∧ Matrix.cell ofEleven.held 10 1 = none ∧
    (∃ engine t, Succeeds (naming.attach inTen ofEleven ⟨false, ["c"]⟩) blank engine t) ∧
    ∃ summary : Summary (RealScore id id), Summary.build inTen ofEleven blank.disk = .ok summary ∧
      let stores : Attached (RealScore id id) MemoryMatrix := ⟨inTen, ofEleven, summary⟩
      let query : FeatureVector := inTen.held[0].toVector
      stores.directScan blank.disk query query.norm none = .ok [(1, 1)] ∧
        stores.invertedIndex blank.disk query query.norm none = .ok [] := by
  have hunattached : Unattached naming inTen ofEleven ⟨false, ["c"]⟩ blank.disk inTen.held
    ofEleven.held := unattached_memory (List.pairwise_singleton _ _) (List.pairwise_singleton _ _)
  have hok : (outcome (Summary.loadOrBuild ⟨false, ["c", "s"]⟩ inTen ofEleven) blank).1.isOk =
    true := by decide +kernel
  obtain ⟨binary, hcall⟩ := exists_succeeds hok
  rw [← cachePath_naming] at hcall
  obtain ⟨summary, hsummary⟩ := Summary.exists_build (T := RealScore id id)
    (Summary.build_of_loadOrBuild hunattached.stale hcall)
  have hnonzero : ∀ a ∈ inTen.held[0].entries, a.2.isZero = false := by decide
  have hquery : inTen.held[0].toVector.entries = inTen.held[0].entries :=
    FeatureVector.entries_ofEntries inTen.held[0].ascending hnonzero
  refine ⟨hunattached, rfl, rfl, ⟨_, _, succeeds_attach.mpr ⟨binary, hcall, rfl⟩⟩, summary, hsummary,
    ?_, ?_⟩
  · have hcommon : Attached.common inTen.held[0].toVector inTen.held[0] ≠ [] := by
      rw [Attached.common_ne_nil_iff, hquery]
      exact ⟨10, List.mem_cons_self, List.mem_cons_self⟩
    obtain ⟨_, hnorms, _⟩ :=
      Summary.build_eq_ok hunattached.holdsForward hunattached.holdsTranspose hsummary
    have hscored := Attached.scored_eq (a := ⟨inTen, ofEleven, summary⟩) hnorms
      (List.forall_mem_singleton.mpr hnonzero) inTen.held[0].toVector
    rw [Attached.directScan_eq hunattached.holdsForward]
    change Except.ok (Attached.scored _ _ _ inTen.held) = _
    rw [hscored]
    change Except.ok (List.filterMap _ [inTen.held[0]]) = _
    rw [List.filterMap_cons, if_neg hcommon, hquery, CosineSums.ratio_self
      inTen.held[0].ascending (List.cons_ne_nil _ _) hnonzero]
    rfl
  · have hforeign : summary.hasFeature 10 = false := by
      rw [Summary.hasFeature_of_build hsummary]
      rfl
    rw [Attached.invertedIndex, hquery]
    change (Attached.gather _ _ _ _ [(10, _)] >>= _) = _
    rw [Attached.gather, hforeign]
    rfl

end Engine

end Relatedness
