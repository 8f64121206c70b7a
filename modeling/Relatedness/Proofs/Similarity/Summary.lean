import Relatedness.Similarity.Summary
import Relatedness.Proofs.Matrix.Contents
import Relatedness.Proofs.Run

/-! What a summary that was made from two stores knows of them. -/

namespace Relatedness.Summary

variable {S : Type} [Scalar S]

theorem getElem?_norms {rows : List Row} (h : rows.Pairwise fun a b => a.id < b.id) (id : RowId) :
    (rows.foldl (fun norms r => norms.insert r.id r.norm) (∅ : Std.TreeMap RowId S))[id]? =
      (rows.find? fun r => r.id == id).map Row.norm := by
  have hmap : rows.foldl (fun norms r => norms.insert r.id r.norm) (∅ : Std.TreeMap RowId S) =
      (rows.map fun r => (r.id, (r.norm : S))).foldl (fun m e => m.insert e.1 e.2) ∅ := by
    rw [List.foldl_map]
  have hkeys : (rows.map fun r => (r.id, (r.norm : S))).Pairwise fun a b => a.1 < b.1 :=
    List.pairwise_map.mpr h
  rw [hmap, Ascending.getElem?_foldl_insert hkeys, Ascending.lookup_map]
  simp

theorem contains_foldl_insert (ids : List FeatureId) (set : Std.TreeSet FeatureId)
    (id : FeatureId) : (ids.foldl (fun ids id => ids.insert id) set).contains id =
      (decide (id ∈ ids) || set.contains id) := by
  induction ids generalizing set with
  | nil => simp
  | cons first rest ih =>
    rw [List.foldl_cons, ih, Std.TreeSet.contains_insert]
    by_cases h : id = first
    · simp [h]
    · have hcmp : (compare first id == .eq) = false := by simpa using fun heq => h heq.symm
      simp [h, hcmp]

/-- A summary is made where both stores tell their versions and show all their rows, and hold
equally many entries. -/
theorem build_eq_ok_iff {σ : Type} [MatrixStore σ] {forward transpose : σ} {fs : FileSystem}
    {summary : Summary S} :
    build forward transpose fs = .ok summary ↔ ∃ forwardToken transposeToken rows columns,
      MatrixStore.versionToken forward fs = .ok forwardToken ∧
      MatrixStore.versionToken transpose fs = .ok transposeToken ∧
      (MatrixStore.rows forward fs).mapM id = .ok rows ∧
      (MatrixStore.rows transpose fs).mapM id = .ok columns ∧
      (rows.map Row.width).sum = (columns.map Row.width).sum ∧
      summary = {
        forwardToken, transposeToken
        forwardRows := MatrixStore.rowCount forward
        transposeRows := MatrixStore.rowCount transpose
        norms := rows.foldl (fun norms r => norms.insert r.id r.norm) ∅
        features := (MatrixStore.rowIds transpose).foldl (fun ids id => ids.insert id) ∅
        maxWidth := (rows.map Row.width).foldl max 0 } := by
  simp only [build, bind_eq_ok_iff, List.sum_eq_foldl]
  refine exists_congr fun forwardToken => ?_
  constructor
  · rintro ⟨hforward, transposeToken, htranspose, rows, hrows, columns, hcolumns, h⟩
    split at h
    · obtain ⟨_, ⟨⟩, _⟩ := h
    · rename_i hsum
      cases h
      exact ⟨_, _, _, hforward, htranspose, hrows, hcolumns, not_not.mp hsum, rfl⟩
  · rintro ⟨transposeToken, rows, columns, hforward, htranspose, hrows, hcolumns, hsum, rfl⟩
    refine ⟨hforward, transposeToken, htranspose, rows, hrows, columns, hcolumns, ?_⟩
    rw [if_neg (not_not.mpr hsum)]
    rfl

/-- Whether a summary can be made does not depend on the arithmetic of its lengths. -/
theorem exists_build {σ T : Type} [MatrixStore σ] [Scalar T] {forward transpose : σ}
    {fs : FileSystem} {summary : Summary S} (h : build forward transpose fs = .ok summary) :
    ∃ other : Summary T, build forward transpose fs = .ok other := by
  obtain ⟨forwardToken, transposeToken, rows, columns, hforward, htranspose, hrows, hcolumns, hsum,
    _⟩ := build_eq_ok_iff.mp h
  exact ⟨_, build_eq_ok_iff.mpr ⟨forwardToken, transposeToken, rows, columns, hforward, htranspose,
    hrows, hcolumns, hsum, rfl⟩⟩

/-- The features of a summary are the row ids of the transpose. -/
theorem hasFeature_of_build {σ : Type} [MatrixStore σ] {forward transpose : σ} {fs : FileSystem}
    {summary : Summary S} (h : build forward transpose fs = .ok summary) (c : FeatureId) :
    summary.hasFeature c = decide (c ∈ MatrixStore.rowIds transpose) := by
  obtain ⟨_, _, _, _, _, _, _, _, _, rfl⟩ := build_eq_ok_iff.mp h
  exact (contains_foldl_insert (MatrixStore.rowIds transpose) ∅ c).trans (by simp)

/-- A summary is only made of stores with equally many entries. It has the length of each row
and each row id of the transpose. -/
theorem build_eq_ok {σ : Type} [MatrixStore σ] {forward transpose : σ} {fs : FileSystem}
    {rows columns : List Row} (hforward : MatrixStore.Holds forward fs rows)
    (htranspose : MatrixStore.Holds transpose fs columns) {summary : Summary S}
    (h : build forward transpose fs = .ok summary) :
    (rows.map Row.width).sum = (columns.map Row.width).sum ∧
      (∀ r ∈ rows, summary.norm? r.id = some r.norm) ∧ ∀ c ∈ columns, summary.hasFeature c.id := by
  have hfeature := hasFeature_of_build h
  obtain ⟨_, _, _, _, _, _, hrows, hcolumns, hsum, rfl⟩ := build_eq_ok_iff.mp h
  rw [hforward.rows, mapM_id_map_ok] at hrows
  rw [htranspose.rows, mapM_id_map_ok] at hcolumns
  cases hrows
  cases hcolumns
  refine ⟨hsum, fun r hr => ?_, fun c hc => ?_⟩
  · rw [norm?, getElem?_norms hforward.ascending,
      (Ascending.find?_eq_some_iff hforward.ascending).mpr ⟨hr, rfl⟩]
    rfl
  · rw [hfeature, htranspose.rowIds]
    exact decide_eq_true (List.mem_map_of_mem hc)

/-! ## What a summary knows -/

section Covers

variable {σ : Type} [MatrixStore σ] {forward transpose : σ} {fs : FileSystem}
  {rows columns : List Row}

/-- The summary knows just these rows. -/
structure Covers (s : Summary S) (rows : List Row) : Prop where
  norms : ∀ r ∈ rows, s.norm? r.id = some r.norm
  others : ∀ id, id ∉ rows.map Row.id → s.norm? id = none
  features : ∀ c, s.hasFeature c = true ↔ ∃ r ∈ rows, ∃ v, r.get? c = some v
  wide : ∀ r ∈ rows, r.width ≤ s.maxWidth
  widest : s.maxWidth = 0 ∨ ∃ r ∈ rows, r.width = s.maxWidth

theorem foldl_max (start : Nat) (l : List Nat) :
    start ≤ l.foldl max start ∧ (∀ n ∈ l, n ≤ l.foldl max start) ∧
      (l.foldl max start = start ∨ l.foldl max start ∈ l) := by
  induction l generalizing start with
  | nil => simp
  | cons first rest ih =>
    obtain ⟨hstart, hrest, hmax⟩ := ih (max start first)
    rw [List.foldl_cons]
    refine ⟨by omega, ?_, ?_⟩
    · intro n hn
      rcases List.mem_cons.mp hn with rfl | hn
      · omega
      · exact hrest n hn
    · rcases hmax with heq | hmem
      · rw [heq, List.mem_cons]
        omega
      · exact .inr (List.mem_cons_of_mem first hmem)

/-- A summary of stores with equally many entries fails only if a store cannot tell its
version. -/
theorem build_eq (hforward : MatrixStore.Holds forward fs rows)
    (htranspose : MatrixStore.Holds transpose fs columns)
    (hsum : (rows.map Row.width).sum = (columns.map Row.width).sum) :
    (build forward transpose fs : Except Error (Summary S)) = (do
      let forwardToken ← MatrixStore.versionToken forward fs
      let transposeToken ← MatrixStore.versionToken transpose fs
      return {
        forwardToken, transposeToken
        forwardRows := MatrixStore.rowCount forward
        transposeRows := MatrixStore.rowCount transpose
        norms := rows.foldl (fun norms r => norms.insert r.id r.norm) ∅
        features := (columns.map Row.id).foldl (fun ids id => ids.insert id) ∅
        maxWidth := (rows.map Row.width).foldl max 0 }) := by
  rw [List.sum_eq_foldl, List.sum_eq_foldl] at hsum
  unfold build
  rw [hforward.rows, htranspose.rows, mapM_id_map_ok, mapM_id_map_ok, htranspose.rowIds]
  cases MatrixStore.versionToken forward fs with
  | error e => rfl
  | ok forwardToken =>
    cases MatrixStore.versionToken transpose fs with
    | error e => rfl
    | ok transposeToken =>
      simp only [bind, Except.bind, hsum, ne_eq, not_true_eq_false, if_false]

/-- Stores with unequally many entries have no summary. -/
theorem build_eq_error (hforward : MatrixStore.Holds forward fs rows)
    (htranspose : MatrixStore.Holds transpose fs columns)
    (htokens : (∃ token, MatrixStore.versionToken forward fs = .ok token) ∧
      ∃ token, MatrixStore.versionToken transpose fs = .ok token)
    (hsum : (rows.map Row.width).sum ≠ (columns.map Row.width).sum) :
    (build forward transpose fs : Except Error (Summary S)) =
      .error (.unequalEntries (MatrixStore.path forward) (rows.map Row.width).sum
        (MatrixStore.path transpose) (columns.map Row.width).sum) := by
  obtain ⟨⟨token, htoken⟩, token', htoken'⟩ := htokens
  rw [List.sum_eq_foldl, List.sum_eq_foldl] at hsum ⊢
  unfold build
  rw [hforward.rows, htranspose.rows, mapM_id_map_ok, mapM_id_map_ok, htoken, htoken']
  simp only [bind, Except.bind]
  rw [if_pos hsum]
  rfl

theorem error_of_build (hforward : MatrixStore.Holds forward fs rows)
    (htranspose : MatrixStore.Holds transpose fs columns)
    (hsum : (rows.map Row.width).sum = (columns.map Row.width).sum) {e : Error}
    (h : (build forward transpose fs : Except Error (Summary S)) = .error e) :
    MatrixStore.versionToken forward fs = .error e ∨
      MatrixStore.versionToken transpose fs = .error e := by
  rw [build_eq hforward htranspose hsum] at h
  cases hforwardToken : MatrixStore.versionToken forward fs with
  | error e' =>
    rw [hforwardToken] at h
    cases h
    exact .inl rfl
  | ok forwardToken =>
    cases htransposeToken : MatrixStore.versionToken transpose fs with
    | error e' =>
      rw [hforwardToken, htransposeToken] at h
      cases h
      exact .inr rfl
    | ok transposeToken =>
      rw [hforwardToken, htransposeToken] at h
      cases h

/-- What a summary knows of the stores that it was made from. -/
theorem covers_of_build (hforward : MatrixStore.Holds forward fs rows)
    (htranspose : MatrixStore.Holds transpose fs columns)
    (hused : ∀ c, c ∈ columns.map Row.id ↔ ∃ r ∈ rows, ∃ v, r.get? c = some v) {s : Summary S}
    (h : build forward transpose fs = .ok s) : s.Covers rows := by
  have hfeature := hasFeature_of_build h
  obtain ⟨_, _, _, _, _, _, hrows, _, _, rfl⟩ := build_eq_ok_iff.mp h
  rw [hforward.rows, mapM_id_map_ok] at hrows
  cases hrows
  have hasc := hforward.ascending
  obtain ⟨_, hwide, hwidest⟩ := foldl_max 0 (rows.map Row.width)
  refine ⟨fun r hr => ?_, fun id hid => ?_, fun c => ?_, fun r hr => ?_, ?_⟩
  · rw [norm?, getElem?_norms hasc, (Ascending.find?_eq_some_iff hasc).mpr ⟨hr, rfl⟩]
    rfl
  · rw [norm?, getElem?_norms hasc, List.find?_eq_none.mpr fun r hr => ?_]
    · rfl
    · simpa using fun heq : r.id = id => hid (heq ▸ List.mem_map_of_mem hr)
  · rw [hfeature, htranspose.rowIds, ← hused, decide_eq_true_iff]
  · exact hwide _ (List.mem_map_of_mem hr)
  · exact hwidest.imp_right List.mem_map.mp

theorem Covers.of_perm {s : Summary S} {sorted : List Row} (h : s.Covers sorted)
    (hperm : sorted.Perm rows) : s.Covers rows where
  norms r hr := h.norms r (hperm.mem_iff.mpr hr)
  others id hid := h.others id fun hmem => hid ((hperm.map Row.id).mem_iff.mp hmem)
  features c := by simp only [h.features, hperm.mem_iff]
  wide r hr := h.wide r (hperm.mem_iff.mpr hr)
  widest := h.widest.imp_right fun ⟨r, hr, hwidth⟩ => ⟨r, hperm.mem_iff.mp hr, hwidth⟩

end Covers

/-! ## When the stores are read -/

section Saved

variable {σ : Type} [MatrixStore σ] {forward transpose : σ} {fs : FileSystem} {path : Path}
  {s t : Session} {summary : Summary Binary64} {e : Error}

/-- What a call does where no saved summary is current. -/
def rebuild (path : Path) (forward transpose : σ) (fs : FileSystem) :
    Action (Summary Binary64) := do
  Action.log .info
    s!"building cached matrix information for {MatrixStore.rowCount forward} rows"
  let built ← Action.ofExcept (build forward transpose fs)
  Action.onDisk (built.save path)
  return built

theorem present_of_readFile {bytes : Bytes} (h : fs.readFile path = .ok bytes) :
    fs.present path = true := by
  unfold FileSystem.readFile FileSystem.openFile at h
  unfold FileSystem.present
  cases hfind : fs.find path with
  | ok t => rfl
  | error e =>
    rw [hfind] at h
    cases h

theorem present_of_load (h : load fs path = .ok summary) : fs.present path = true := by
  unfold load at h
  cases hread : fs.readFile path with
  | ok bytes => exact present_of_readFile hread
  | error e =>
    rw [hread] at h
    cases h

/-- How a call goes on once it has looked for a saved summary. -/
theorem outcome_loadOrBuild (path : Path) (forward transpose : σ) (s : Session) :
    outcome (loadOrBuild path forward transpose) s = outcome
      (if s.disk.present path then
        match load s.disk path with
        | .ok saved => do
          if ← Action.ofExcept (saved.isCurrent forward transpose s.disk) then
            Action.log .info s!"reading matrix information from cache {path.text}"
            return saved
          else
            Action.log .info s!"similarity cache {path.text} is stale"
            rebuild path forward transpose s.disk
        | .error cause => do
          Action.log .warn
            s!"discarding unreadable similarity cache {path.text}: {cause.message}"
          rebuild path forward transpose s.disk
      else rebuild path forward transpose s.disk) s := rfl

/-- A call uses the saved summary if it can be loaded and is current, and fails if it cannot tell;
otherwise it reads the stores. -/
theorem loadOrBuild_cases (path : Path) (forward transpose : σ) (s : Session) :
    (∃ saved t, load s.disk path = .ok saved ∧
        saved.isCurrent forward transpose s.disk = .ok true ∧ t.disk = s.disk ∧
        Succeeds (loadOrBuild path forward transpose) s saved t) ∨
      (∃ saved e, load s.disk path = .ok saved ∧
        saved.isCurrent forward transpose s.disk = .error e ∧
        Fails (loadOrBuild path forward transpose) s e s) ∨
      (∀ saved, load s.disk path = .ok saved →
          saved.isCurrent forward transpose s.disk = .ok false) ∧
        ∃ u, u.disk = s.disk ∧ outcome (loadOrBuild path forward transpose) s =
          outcome (rebuild path forward transpose s.disk) u := by
  unfold Succeeds Fails
  rw [outcome_loadOrBuild]
  cases hload : load s.disk path with
  | error cause =>
    refine .inr (.inr ⟨(fun _ h => by cases h), ?_⟩)
    split
    · exact ⟨s.record .warn _, rfl, rfl⟩
    · exact ⟨s, rfl, rfl⟩
  | ok saved =>
    rw [if_pos (present_of_load hload)]
    simp only [Action.outcome_ofExcept_bind]
    cases hcurrent : saved.isCurrent forward transpose s.disk with
    | error e => exact .inr (.inl ⟨saved, e, rfl, hcurrent, rfl⟩)
    | ok current =>
      cases current with
      | true => exact .inl ⟨saved, s.record .info _, rfl, hcurrent, rfl, rfl⟩
      | false =>
        refine .inr (.inr ⟨fun other h => ?_, s.record .info _, rfl, rfl⟩)
        cases h
        exact hcurrent

theorem save_of_rebuild (h : Succeeds (rebuild path forward transpose fs) s summary t) :
    build forward transpose fs = .ok summary ∧ Succeeds (summary.save path) s.disk () t.disk := by
  simp only [rebuild, succeeds_bind, Action.succeeds_log, Action.succeeds_ofExcept,
    Action.succeeds_onDisk, succeeds_pure] at h
  obtain ⟨_, _, rfl, built, _, ⟨hbuilt, rfl⟩, _, _, ⟨_, hsave, rfl⟩, rfl, rfl⟩ := h
  exact ⟨hbuilt, hsave⟩

/-- Stores are not read, or their summary is not saved. -/
theorem rebuild_fails (h : Fails (rebuild path forward transpose fs) s e t) :
    ((build forward transpose fs : Except Error (Summary Binary64)) = .error e ∧ t.disk = s.disk) ∨
      ∃ built cause, build forward transpose fs = .ok built ∧ e = .io cause ∧
        Fails (built.save path) s.disk cause t.disk := by
  simp only [rebuild, fails_bind, Action.succeeds_log, Action.fails_log, Action.succeeds_ofExcept,
    Action.fails_ofExcept, Action.fails_onDisk, fails_pure, and_false, exists_false, or_false,
    false_or] at h
  rcases h with
    ⟨_, _, rfl, ⟨hbuild, rfl⟩ | ⟨built, _, ⟨hbuilt, rfl⟩, cause, _, hsave, rfl, rfl⟩⟩
  · exact .inl ⟨hbuild, rfl⟩
  · exact .inr ⟨built, cause, hbuilt, rfl, hsave⟩

theorem fails_rebuild
    (h : (build forward transpose fs : Except Error (Summary Binary64)) = .error e) (path : Path)
    (s : Session) :
    ∃ t, t.disk = s.disk ∧ Fails (rebuild path forward transpose fs) s e t := by
  rcases succeeds_or_fails (rebuild path forward transpose fs) s with
    ⟨summary, t, hrebuild⟩ | ⟨e', t, hrebuild⟩
  · cases h.symm.trans (save_of_rebuild hrebuild).1
  · rcases rebuild_fails hrebuild with ⟨hbuild, hsame⟩ | ⟨built, _, hbuild, _⟩ <;>
      cases h.symm.trans hbuild
    exact ⟨t, hsame, hrebuild⟩

/-- A call that succeeds gives the saved summary, which is current, and leaves the disk as it was,
or it gives the summary of the stores and saves it. -/
theorem loadOrBuild_succeeds (h : Succeeds (loadOrBuild path forward transpose) s summary t) :
    (load s.disk path = .ok summary ∧ summary.isCurrent forward transpose s.disk = .ok true ∧
        t.disk = s.disk) ∨
      (∀ saved, load s.disk path = .ok saved →
          saved.isCurrent forward transpose s.disk = .ok false) ∧
        build forward transpose s.disk = .ok summary ∧
        Succeeds (summary.save path) s.disk () t.disk := by
  rcases loadOrBuild_cases path forward transpose s with
    ⟨saved, u, hload, hcurrent, hdisk, h'⟩ | ⟨_, _, _, _, h'⟩ | ⟨hstale, u, hdisk, houtcome⟩
  · obtain ⟨rfl, rfl⟩ := h.unique h'
    exact .inl ⟨hload, hcurrent, hdisk⟩
  · exact absurd h' h.not_fails
  · obtain ⟨hbuilt, hsave⟩ := save_of_rebuild (houtcome.symm.trans h)
    exact .inr ⟨hstale, hbuilt, hdisk ▸ hsave⟩

/-- A call that fails leaves the disk as it was, unless a summary of the stores could not be
saved. -/
theorem loadOrBuild_fails (h : Fails (loadOrBuild path forward transpose) s e t) :
    t.disk = s.disk ∨ ∃ built cause, build forward transpose s.disk = .ok built ∧
      Fails (built.save path) s.disk cause t.disk := by
  rcases loadOrBuild_cases path forward transpose s with
    ⟨_, _, _, _, _, h'⟩ | ⟨_, _, _, _, h'⟩ | ⟨_, u, hdisk, houtcome⟩
  · exact absurd h h'.not_fails
  · exact .inl (by rw [(h.unique h').2])
  · rw [← hdisk]
    rcases rebuild_fails (houtcome.symm.trans h) with ⟨_, hsame⟩ | ⟨built, cause, hbuilt, _, hsave⟩
    · exact .inl hsame
    · exact .inr ⟨built, cause, hdisk ▸ hbuilt, hsave⟩

/-- Where a current summary can be loaded, a call gives it and leaves the disk as it was. -/
theorem exists_loadOrBuild (hload : load s.disk path = .ok summary)
    (hcurrent : summary.isCurrent forward transpose s.disk = .ok true) :
    ∃ t, Succeeds (loadOrBuild path forward transpose) s summary t ∧ t.disk = s.disk := by
  rcases loadOrBuild_cases path forward transpose s with
    ⟨_, t, hload', _, hdisk, h⟩ | ⟨_, _, hload', hcurrent', _⟩ | ⟨hstale, _⟩
  · cases hload.symm.trans hload'
    exact ⟨t, h, hdisk⟩
  · cases hload.symm.trans hload'
    cases hcurrent.symm.trans hcurrent'
  · cases hcurrent.symm.trans (hstale summary hload)

/-- Stores that tell their versions are read where no saved summary is current. -/
theorem outcome_loadOrBuild_of_stale
    (htokens : (∃ token, MatrixStore.versionToken forward s.disk = .ok token) ∧
      ∃ token, MatrixStore.versionToken transpose s.disk = .ok token)
    (hcache : ∀ saved, load s.disk path = .ok saved →
      saved.isCurrent forward transpose s.disk ≠ .ok true) :
    ∃ u, u.disk = s.disk ∧ outcome (loadOrBuild path forward transpose) s =
      outcome (rebuild path forward transpose s.disk) u := by
  obtain ⟨⟨token, htoken⟩, token', htoken'⟩ := htokens
  rcases loadOrBuild_cases path forward transpose s with
    ⟨saved, _, hload, hcurrent, _⟩ | ⟨saved, e, _, hcurrent, _⟩ | ⟨_, houtcome⟩
  · exact absurd hcurrent (hcache saved hload)
  · simp only [isCurrent, htoken, htoken', bind, Except.bind] at hcurrent
    split at hcurrent
    · cases hcurrent
    · split at hcurrent <;> cases hcurrent
  · exact houtcome

/-- Where no saved summary is current, the stores are read. -/
theorem build_of_loadOrBuild
    (hcache : ∀ saved, load s.disk path = .ok saved →
      saved.isCurrent forward transpose s.disk ≠ .ok true)
    (h : Succeeds (loadOrBuild path forward transpose) s summary t) :
    build forward transpose s.disk = .ok summary := by
  rcases loadOrBuild_succeeds h with ⟨hload, hcurrent, _⟩ | ⟨_, hbuilt, _⟩
  · exact absurd hcurrent (hcache summary hload)
  · exact hbuilt

end Saved

end Relatedness.Summary
