import Mathlib.Logic.Relation
import Relatedness.Proofs.Disk.Saving
import Relatedness.Proofs.Similarity.Version
import Relatedness.Similarity.Engine

/-! A saved summary is never stale. What can be loaded from its path at any moment of a run was made
of a version of the stores that occurred in the run; so where versions tell their contents, what is
used is what would be built. -/

namespace Relatedness

namespace Engine

variable {σ : Type} [MatrixStore σ] {engine engine' : Engine Binary64 σ} {forward transpose : σ}
  {directory : Path} {s t : Session} {e : Error}

/-- The path that an engine keeps its summary at. -/
def cachePath (engine : Engine Binary64 σ) (directory : Path) : Path :=
  directory.join (Path.ofText engine.config.cacheFileName)

omit [MatrixStore σ] in
/-- A name of one letter stands in the directory. -/
theorem cachePath_letter :
    (Engine.new { cacheFileName := "s" } : Engine Binary64 σ).cachePath ⟨false, ["c"]⟩ =
      ⟨false, ["c", "s"]⟩ := by
  have hpieces : "s".splitOn "/" = ["s"] := by
    rw [String.splitOn, String.splitOnAux, String.splitOnAux]
    decide +kernel
  have hname : Path.ofText "s" = ⟨false, ["s"]⟩ := by
    rw [Path.ofText, hpieces]
    rfl
  change Path.join _ (Path.ofText "s") = _
  rw [hname]
  rfl

/-- Attaching stores is one call for their summary. -/
theorem succeeds_attach : Succeeds (engine.attach forward transpose directory) s engine' t ↔
    ∃ summary, Succeeds (Summary.loadOrBuild (engine.cachePath directory) forward transpose) s
      summary t ∧ engine' = { engine with attached := some { forward, transpose, summary } } := by
  simp only [attach, cachePath, succeeds_bind, succeeds_pure]
  constructor
  · rintro ⟨summary, _, h, rfl, rfl⟩
    exact ⟨summary, h, rfl⟩
  · rintro ⟨summary, h, rfl⟩
    exact ⟨summary, t, h, rfl, rfl⟩

theorem fails_attach : Fails (engine.attach forward transpose directory) s e t ↔
    Fails (Summary.loadOrBuild (engine.cachePath directory) forward transpose) s e t := by
  simp only [attach, cachePath, fails_bind, fails_pure, and_false, exists_false, or_false]

end Engine

/-! ## Runs -/

/-- Two stores, an engine and the session they are used in. -/
structure Machine (σ : Type) where
  session : Session
  forward : σ
  transpose : σ
  engine : Engine Binary64 σ

namespace Machine

variable {σ : Type} [MatrixStore σ]

def view (m : Machine σ) : View σ := ⟨m.forward, m.transpose, m.session.disk⟩

/-- Calls for the summary at the path. -/
def call (m : Machine σ) (path : Path) : Machine σ :=
  { m with session := (outcome (Summary.loadOrBuild path m.forward m.transpose) m.session).2 }

/-- Attaches the stores to the engine, which stays as it is if that fails. -/
def attach (m : Machine σ) (directory : Path) : Machine σ :=
  match outcome (m.engine.attach m.forward m.transpose directory) m.session with
  | (.ok engine, session) => { m with session, engine }
  | (.error _, session) => { m with session }

/-- A step of a run in which only calls write to the path. The views are those that calls meet. -/
inductive Step (path : Path) (views : Set (View σ)) : Machine σ → Machine σ → Prop
  /-- The stores are written anew, by whatever means, and no file is put at the path. -/
  | rewrite {m : Machine σ} (session : Session) (forward transpose : σ)
      (wellFormed : session.disk.WellFormed)
      (kept : ∀ bytes, session.disk.Carries path bytes → m.session.disk.Carries path bytes) :
      Step path views m { m with session, forward, transpose }
  /-- Another engine has its turn. -/
  | switch {m : Machine σ} (engine : Engine Binary64 σ) : Step path views m { m with engine }
  | call {m : Machine σ} (met : m.view ∈ views) : Step path views m (m.call path)
  | attach {m : Machine σ} (directory : Path) (met : m.view ∈ views)
      (same : m.engine.cachePath directory = path) : Step path views m (m.attach directory)

/-- What can be loaded from the path was made of one of these views. -/
structure Sound (path : Path) (views : Set (View σ)) (fs : FileSystem) : Prop where
  wellFormed : fs.WellFormed
  made : ∀ bytes saved, fs.Carries path bytes →
    FileFormat.similarityCache.load Summary.decoder path bytes = .ok saved →
      ∃ v ∈ views, ∃ built, v.build = .ok built ∧ saved.Agrees built

variable {path directory : Path} {views : Set (View σ)} {start m m' : Machine σ} {s : Session}
  {summary : Summary Binary64} {engine : Engine Binary64 σ} {e : Error}

theorem call_of_succeeds
    (h : Succeeds (Summary.loadOrBuild path m.forward m.transpose) m.session summary s) :
    m.call path = { m with session := s } := by
  unfold call
  rw [show outcome _ _ = _ from h]

theorem call_of_fails
    (h : Fails (Summary.loadOrBuild path m.forward m.transpose) m.session e s) :
    m.call path = { m with session := s } := by
  unfold call
  rw [show outcome _ _ = _ from h]

theorem attach_of_succeeds
    (h : Succeeds (m.engine.attach m.forward m.transpose directory) m.session engine s) :
    m.attach directory = { m with session := s, engine } := by
  unfold attach
  rw [show outcome _ _ = _ from h]

theorem attach_of_fails
    (h : Fails (m.engine.attach m.forward m.transpose directory) m.session e s) :
    m.attach directory = { m with session := s } := by
  unfold attach
  rw [show outcome _ _ = _ from h]

/-- Attaching changes the session as a call does. -/
theorem session_attach (m : Machine σ) (directory : Path) :
    (m.attach directory).session = (m.call (m.engine.cachePath directory)).session := by
  rcases succeeds_or_fails (m.engine.attach m.forward m.transpose directory) m.session with
    ⟨engine, s, h⟩ | ⟨e, s, h⟩
  · obtain ⟨summary, hcall, _⟩ := Engine.succeeds_attach.mp h
    rw [attach_of_succeeds h, call_of_succeeds hcall]
  · rw [attach_of_fails h, call_of_fails (Engine.fails_attach.mp h)]

/-- The file at the place of the path, if there is one, cannot be loaded. -/
def Unsaved (path : Path) (fs : FileSystem) : Prop :=
  ∀ bytes saved, fs.Carries path bytes →
    FileFormat.similarityCache.load Summary.decoder path bytes ≠ .ok saved

theorem Unsaved.sound {fs : FileSystem} (h : Unsaved path fs) (hfs : fs.WellFormed) :
    Sound path views fs :=
  ⟨hfs, fun bytes saved hcarries hsaved => absurd hsaved (h bytes saved hcarries)⟩

/-- A call leaves what was made of a view, or puts there what is made of the one it meets. -/
theorem Sound.call (hviews : View.Faithful views) (h : Sound path views m.session.disk)
    (hmet : m.view ∈ views) : Sound path views (m.call path).session.disk := by
  rcases succeeds_or_fails (Summary.loadOrBuild path m.forward m.transpose) m.session with
    ⟨summary, s, hcall⟩ | ⟨e, s, hcall⟩
  · rw [call_of_succeeds hcall]
    rcases Summary.loadOrBuild_succeeds hcall with ⟨_, _, hsame⟩ | ⟨_, hbuilt, hsave⟩
    · rwa [hsame]
    obtain ⟨hwell, hread⟩ := Replacement.readFile_of_save h.wellFormed hsave
    obtain ⟨loaded, hload, hagrees⟩ :=
      Summary.exists_load_encode (Summary.fits_of_build hviews hmet hbuilt) path
    refine ⟨hwell, fun bytes saved hcarries hsaved => ⟨m.view, hmet, summary, hbuilt, ?_⟩⟩
    rw [hcarries.unique (FileSystem.carries_of_readFile hwell hread), hload] at hsaved
    cases hsaved
    exact hagrees
  · rw [call_of_fails hcall]
    rcases Summary.loadOrBuild_fails hcall with hsame | ⟨built, cause, _, hsave⟩
    · rwa [hsame]
    obtain ⟨hwell, hkept⟩ := Replacement.kept_of_save_fails h.wellFormed (by decide) hsave
    exact ⟨hwell, fun bytes saved hcarries hsaved =>
      h.made bytes saved ((hkept.carries bytes).mp hcarries) hsaved⟩

theorem Sound.step (hviews : View.Faithful views) (h : Sound path views m.session.disk)
    (hstep : Step path views m m') : Sound path views m'.session.disk := by
  cases hstep with
  | rewrite session forward transpose hwell hkept =>
    exact ⟨hwell, fun bytes saved hcarries => h.made bytes saved (hkept bytes hcarries)⟩
  | switch engine => exact h
  | call hmet => exact h.call hviews hmet
  | attach directory hmet hsame =>
    rw [session_attach, hsame]
    exact h.call hviews hmet

theorem Sound.run (hviews : View.Faithful views) (h : Sound path views start.session.disk)
    (hrun : Relation.ReflTransGen (Step path views) start m) : Sound path views m.session.disk := by
  induction hrun with
  | refl => exact h
  | tail _ hstep ih => exact ih.step hviews hstep

/-! ## What a call gives -/

/-- The summary is that of the stores, the file at the path loads to it, and as long as the stores
have not changed another call gives it from there. -/
structure Fresh (path : Path) (m : Machine σ) (summary : Summary Binary64) (s : Session) :
    Prop where
  built : ∃ built, m.view.build = .ok built ∧ summary.Agrees built
  saved : ∃ saved, Summary.load s.disk path = .ok saved ∧ saved.Agrees summary
  again : MatrixStore.versionToken m.forward s.disk =
      MatrixStore.versionToken m.forward m.session.disk →
    MatrixStore.versionToken m.transpose s.disk =
      MatrixStore.versionToken m.transpose m.session.disk →
    ∃ again t, Succeeds (Summary.loadOrBuild path m.forward m.transpose) s again t ∧
      again.Agrees summary ∧ t.disk = s.disk

/-- What is loaded and current was made of a version with the contents of the stores. -/
theorem Sound.built_of_load (hviews : View.Faithful views) (h : Sound path views m.session.disk)
    (hmet : m.view ∈ views) (hload : Summary.load m.session.disk path = .ok summary)
    (hcurrent : summary.isCurrent m.forward m.transpose m.session.disk = .ok true) :
    ∃ built, m.view.build = .ok built ∧ summary.Agrees built := by
  obtain ⟨bytes, hread, hbytes⟩ := Summary.load_eq_ok_iff.mp hload
  obtain ⟨v, hv, built, hbuilt, hagrees⟩ :=
    h.made bytes summary (FileSystem.carries_of_readFile h.wellFormed hread) hbytes
  have hversion : v.SameVersion m.view := Summary.sameVersion_of_isCurrent hagrees hbuilt hcurrent
  have hcontents := hviews.contents v hv m.view hmet hversion
  exact ⟨built, Summary.build_congr hversion hcontents hbuilt, hagrees⟩

theorem Sound.fresh (hviews : View.Faithful views) (h : Sound path views m.session.disk)
    (hmet : m.view ∈ views)
    (hcall : Succeeds (Summary.loadOrBuild path m.forward m.transpose) m.session summary s) :
    m.Fresh path summary s := by
  rcases Summary.loadOrBuild_succeeds hcall with ⟨hload, hcurrent, hsame⟩ | ⟨_, hbuilt, hsave⟩
  · have hbuilt := h.built_of_load hviews hmet hload hcurrent
    rw [← hsame] at hload hcurrent
    obtain ⟨t, hagain, hdisk⟩ := Summary.exists_loadOrBuild hload hcurrent
    exact ⟨hbuilt, ⟨summary, hload, .refl summary⟩,
      fun _ _ => ⟨summary, t, hagain, .refl summary, hdisk⟩⟩
  · obtain ⟨hwell, hread⟩ := Replacement.readFile_of_save h.wellFormed hsave
    obtain ⟨saved, hbytes, hagrees⟩ :=
      Summary.exists_load_encode (Summary.fits_of_build hviews hmet hbuilt) path
    have hload := Summary.load_eq_ok_iff.mpr ⟨_, hread, hbytes⟩
    refine ⟨⟨summary, hbuilt, .refl summary⟩, ⟨saved, hload, hagrees⟩, fun hsame hsame' => ?_⟩
    have hcurrent := Summary.isCurrent_of_agrees (v := m.view) hagrees hbuilt hsame hsame'
    obtain ⟨t, hagain, hdisk⟩ := Summary.exists_loadOrBuild hload hcurrent
    exact ⟨saved, t, hagain, hagrees, hdisk⟩

theorem Sound.kept (h : Sound path views m.session.disk)
    (hcall : Fails (Summary.loadOrBuild path m.forward m.transpose) m.session e s) :
    m.session.disk.Kept path s.disk := by
  rcases Summary.loadOrBuild_fails hcall with hsame | ⟨built, cause, _, hsave⟩
  · exact hsame ▸ .refl path m.session.disk
  · exact (Replacement.kept_of_save_fails h.wellFormed (by decide) hsave).2

/-- A saved summary is never stale. In a run in which versions tell their contents, nothing can be
loaded from the path at first and later only calls put files there, every call that succeeds gives
the summary of the stores and leaves it at the path; one that fails leaves what the path leads to,
and the engine. -/
theorem never_stale (hviews : View.Faithful views) (hstart : start.session.disk.WellFormed)
    (hunsaved : Unsaved path start.session.disk)
    (hrun : Relation.ReflTransGen (Step path views) start m) (hmet : m.view ∈ views) :
    (∀ summary s, Succeeds (Summary.loadOrBuild path m.forward m.transpose) m.session summary s →
      m.Fresh path summary s) ∧
    (∀ e s, Fails (Summary.loadOrBuild path m.forward m.transpose) m.session e s →
      m.session.disk.Kept path s.disk) ∧
    ∀ directory, m.engine.cachePath directory = path →
      (∀ engine s, Succeeds (m.engine.attach m.forward m.transpose directory) m.session engine s →
        ∃ summary, m.Fresh path summary s ∧ engine = { m.engine with
          attached := some { forward := m.forward, transpose := m.transpose, summary } }) ∧
      ∀ e s, Fails (m.engine.attach m.forward m.transpose directory) m.session e s →
        m.session.disk.Kept path s.disk ∧ (m.attach directory).engine = m.engine := by
  have hsound : Sound path views m.session.disk := (hunsaved.sound hstart).run hviews hrun
  refine ⟨fun _ _ h => hsound.fresh hviews hmet h, fun _ _ h => hsound.kept h, ?_⟩
  rintro directory rfl
  refine ⟨fun engine s h => ?_, fun e s h => ⟨hsound.kept (Engine.fails_attach.mp h), ?_⟩⟩
  · obtain ⟨summary, hcall, hengine⟩ := Engine.succeeds_attach.mp h
    exact ⟨summary, hsound.fresh hviews hmet hcall, hengine⟩
  · rw [attach_of_fails h]

end Machine

/-! ## Stores in memory -/

/-- A store that is kept in memory, with a version of its own. -/
structure MemoryMatrix where
  held : List Row
  version : UInt64

instance : MatrixStore MemoryMatrix where
  get m _ id := .ok (m.held.find? fun r => r.id == id)
  rowIds m := m.held.map Row.id
  versionToken m _ := .ok m.version
  path _ := ⟨false, ["memory"]⟩

namespace Machine

/-- A store with one cell and its transpose, on an empty disk. -/
def oneCell (version : UInt64) (value : Binary32) : Machine MemoryMatrix where
  session := ⟨.empty 0, []⟩
  forward := ⟨[.ofEntries 1 [(2, value)]], version⟩
  transpose := ⟨[.ofEntries 2 [(1, value)]], version⟩
  engine := .new {}

/-- Two versions of one cell, at any state of the disk. -/
def cellViews (value value' : Binary32) : Set (View MemoryMatrix) :=
  {v | (∃ fs, v = { (oneCell 1 value).view with disk := fs }) ∨
    ∃ fs, v = { (oneCell 2 value').view with disk := fs }}

theorem faithful_cellViews (value value' : Binary32) : View.Faithful (cellViews value value') := by
  have hne : (.ok 1 : Except Error UInt64) ≠ .ok 2 := fun h => absurd (Except.ok.inj h) (by decide)
  refine ⟨?_, ?_, ?_⟩
  · rintro v (⟨fs, rfl⟩ | ⟨fs, rfl⟩) w (⟨fs', rfl⟩ | ⟨fs', rfl⟩) hversion
    · exact ⟨rfl, rfl, rfl⟩
    · obtain ⟨token, h, h'⟩ := hversion.forwardToken
      exact absurd (h.trans h'.symm) hne
    · obtain ⟨token, h, h'⟩ := hversion.forwardToken
      exact absurd (h'.trans h.symm) hne
    · exact ⟨rfl, rfl, rfl⟩
  · rintro v (⟨fs, rfl⟩ | ⟨fs, rfl⟩) <;> exact (by decide : (1 : Nat) < 2 ^ 64)
  · rintro v (⟨fs, rfl⟩ | ⟨fs, rfl⟩) <;> exact (by decide : (1 : Nat) < 2 ^ 64)

/-- On the empty disk every path is unsaved. -/
theorem unsaved_empty (path : Path) : Unsaved path (.empty 0) := by
  rintro bytes saved ⟨_, id, hfile, _⟩
  exact absurd ((FileSystem.WellFormed.empty 0).allocated hfile) (Nat.not_lt_zero id)

/-- One cell whose summary has been saved, with another value written to it since. -/
def rewritten : Machine MemoryMatrix :=
  { oneCell 2 ⟨0x40a00000⟩ with session := ((oneCell 1 ⟨0x40400000⟩).call ⟨false, ["c"]⟩).session }

/-- The summary that was saved is stale, and the next call gives that of the new value. -/
theorem never_stale_rewritten :
    (Summary.load rewritten.session.disk ⟨false, ["c"]⟩).bind (fun saved =>
      saved.isCurrent rewritten.forward rewritten.transpose rewritten.session.disk) = .ok false ∧
    ∃ summary s, Succeeds (Summary.loadOrBuild ⟨false, ["c"]⟩ rewritten.forward
      rewritten.transpose) rewritten.session summary s ∧
        rewritten.Fresh ⟨false, ["c"]⟩ summary s := by
  have hviews := faithful_cellViews ⟨0x40400000⟩ ⟨0x40a00000⟩
  have hunsaved : Unsaved ⟨false, ["c"]⟩ (oneCell 1 ⟨0x40400000⟩).session.disk := unsaved_empty _
  have hwell : (oneCell 1 ⟨0x40400000⟩).session.disk.WellFormed := .empty 0
  have hmet : (oneCell 1 ⟨0x40400000⟩).view ∈ cellViews ⟨0x40400000⟩ ⟨0x40a00000⟩ := .inl ⟨_, rfl⟩
  have hrun : Relation.ReflTransGen (Step ⟨false, ["c"]⟩ (cellViews ⟨0x40400000⟩ ⟨0x40a00000⟩))
      (oneCell 1 ⟨0x40400000⟩) rewritten :=
    .tail (.single (.call hmet)) <| .rewrite _ _ _
      ((hunsaved.sound hwell).call hviews hmet).wellFormed fun _ h => h
  have hsucceeds : (outcome (Summary.loadOrBuild ⟨false, ["c"]⟩ rewritten.forward
    rewritten.transpose) rewritten.session).1.isOk = true := by decide +kernel
  obtain ⟨summary, hcall⟩ := exists_succeeds hsucceeds
  exact ⟨by decide +kernel, summary, _, hcall,
    (never_stale hviews hwell hunsaved hrun (.inr ⟨_, rfl⟩)).1 summary _ hcall⟩

end Machine

/-! ## Stores in files -/

/-- The file of a store is neither the one at the path nor the temporary one beside it. -/
structure FileMatrix.Apart (m : FileMatrix) (path : Path) (fs : FileSystem) : Prop where
  opens : ∃ id, fs.openFile m.path = .ok id
  target : m.path.place ≠ path.place
  temporary : m.path.place ≠ (path.withExtension "tmp").place

/-- A call does not change the version of such a store. -/
theorem FileMatrix.Apart.versionToken {σ : Type} [MatrixStore σ] {path : Path}
    {forward transpose : σ} {s t : Session} {summary : Summary Binary64} {m : FileMatrix}
    (hm : m.Apart path s.disk) (hs : s.disk.WellFormed)
    (h : Succeeds (Summary.loadOrBuild path forward transpose) s summary t) :
    MatrixStore.versionToken m t.disk = MatrixStore.versionToken m s.disk := by
  rcases Summary.loadOrBuild_succeeds h with ⟨_, _, hsame⟩ | ⟨_, _, hsave⟩
  · rw [hsame]
  · obtain ⟨id, hopen⟩ := hm.opens
    obtain ⟨hopen', hfile⟩ :=
      Replacement.openFile_of_save hs hsave hopen hm.target hm.temporary
    change (t.disk.versionToken m.path).mapError Error.io =
      (s.disk.versionToken m.path).mapError Error.io
    rw [FileSystem.versionToken_of_openFile hopen, FileSystem.versionToken_of_openFile hopen',
      hfile]

/-- So an immediate second call gives the summary of the first from the path. -/
theorem Machine.Fresh.second {path : Path} {m : Machine FileMatrix} {summary : Summary Binary64}
    {s : Session} (h : m.Fresh path summary s) (hm : m.session.disk.WellFormed)
    (hforward : m.forward.Apart path m.session.disk)
    (htranspose : m.transpose.Apart path m.session.disk)
    (hcall : Succeeds (Summary.loadOrBuild path m.forward m.transpose) m.session summary s) :
    ∃ again t, Succeeds (Summary.loadOrBuild path m.forward m.transpose) s again t ∧
      again.Agrees summary ∧ t.disk = s.disk :=
  h.again (hforward.versionToken hm hcall) (htranspose.versionToken hm hcall)

/-! ## Where a path interferes -/

namespace Machine

/-- A path that leads back out of directories which are not there yet. -/
def throughItself : Path := ⟨false, ["c", "x", "..", "..", "c"]⟩

/-- A call that fails can make a path that is not straight: nothing was there, and now a directory
is. -/
theorem present_throughItself :
    Unsaved throughItself (oneCell 1 ⟨0x40400000⟩).session.disk ∧
      ∃ e s, Fails (Summary.loadOrBuild throughItself (oneCell 1 ⟨0x40400000⟩).forward
          (oneCell 1 ⟨0x40400000⟩).transpose) (oneCell 1 ⟨0x40400000⟩).session e s ∧
        (oneCell 1 ⟨0x40400000⟩).session.disk.at? ["c"] = none ∧
        s.disk.at? ["c"] = some .directory ∧
        (oneCell 1 ⟨0x40400000⟩).session.disk.present throughItself = false ∧
        s.disk.present throughItself = true := by
  have hcheck : failsWith (Summary.loadOrBuild throughItself (oneCell 1 ⟨0x40400000⟩).forward
      (oneCell 1 ⟨0x40400000⟩).transpose) (oneCell 1 ⟨0x40400000⟩).session (fun _ s =>
        decide (s.disk.at? ["c"] = some .directory) && s.disk.present throughItself) = true := by
    decide +kernel
  obtain ⟨e, s, h, hends⟩ := exists_of_failsWith hcheck
  simp only [Bool.and_eq_true, decide_eq_true_eq] at hends
  exact ⟨unsaved_empty _, e, s, h, rfl, hends.1, by decide +kernel, hends.2⟩

/-- A path through a directory that is not there. -/
def throughGone : Path := ⟨false, ["gone", "..", "c"]⟩

/-- One cell, and at the place of that path the summary of a cell of another column, which was saved
when the stores had the same version. -/
def hidden : Machine MemoryMatrix where
  session := ((oneCell 1 ⟨0x40400000⟩).call ⟨false, ["c"]⟩).session
  forward := ⟨[.ofEntries 1 [(3, ⟨0x40400000⟩)]], 1⟩
  transpose := ⟨[.ofEntries 3 [(1, ⟨0x40400000⟩)]], 1⟩
  engine := .new {}

/-- The one version of these stores. -/
def hiddenViews : Set (View MemoryMatrix) := {v | ∃ fs, v = { hidden.view with disk := fs }}

theorem faithful_hiddenViews : View.Faithful hiddenViews := by
  refine ⟨?_, ?_, ?_⟩
  · rintro v ⟨fs, rfl⟩ w ⟨fs', rfl⟩ _
    exact ⟨rfl, rfl, rfl⟩
  · rintro v ⟨fs, rfl⟩
    exact (by decide : (1 : Nat) < 2 ^ 64)
  · rintro v ⟨fs, rfl⟩
    exact (by decide : (1 : Nat) < 2 ^ 64)

theorem wellFormed_hidden : hidden.session.disk.WellFormed :=
  (((unsaved_empty _).sound (.empty 0)).call (m := oneCell 1 ⟨0x40400000⟩)
    (faithful_cellViews ⟨0x40400000⟩ ⟨0x40400000⟩) (.inl ⟨_, rfl⟩)).wellFormed

/-- What the path does not show at first is found as soon as the directory is made, and taken for
the summary of the stores. -/
theorem stale_throughGone :
    View.Faithful hiddenViews ∧ hidden.session.disk.readFile throughGone = .error .notFound ∧
      ∃ disk, hidden.session.disk.makeDirectory ⟨false, ["gone"]⟩ = .ok disk ∧
        Step throughGone hiddenViews hidden
          { hidden with session := { hidden.session with disk } } ∧
        ∃ summary s built, Succeeds (Summary.loadOrBuild throughGone hidden.forward
            hidden.transpose) { hidden.session with disk } summary s ∧
          (View.mk hidden.forward hidden.transpose disk).build = .ok built ∧
          ¬summary.Agrees built := by
  cases hmake : hidden.session.disk.makeDirectory ⟨false, ["gone"]⟩ with
  | error e =>
    have hok : (hidden.session.disk.makeDirectory ⟨false, ["gone"]⟩).isOk = true := by
      decide +kernel
    rw [hmake] at hok
    cases hok
  | ok disk =>
    have hcheck : (hidden.session.disk.makeDirectory ⟨false, ["gone"]⟩).toOption.any (fun disk =>
        succeedsWith (Summary.loadOrBuild throughGone hidden.forward hidden.transpose)
          { hidden.session with disk } fun summary _ =>
            (View.mk hidden.forward hidden.transpose disk).build.toOption.any fun built =>
              !summary.hasFeature 3 && built.hasFeature 3) = true := by decide +kernel
    rw [hmake] at hcheck
    obtain ⟨summary, s, hcall, hdiffers⟩ := exists_of_succeedsWith hcheck
    obtain ⟨hdisk, _, hfiles, hat⟩ := FileSystem.makeDirectory_spec wellFormed_hidden hmake
    have hstep : Step throughGone hiddenViews hidden
        { hidden with session := { hidden.session with disk } } := by
      refine .rewrite _ _ _ hdisk fun bytes hcarries => ?_
      obtain ⟨hends, id, hfile, hcontent⟩ := hcarries
      rw [hat, if_neg (by decide +kernel)] at hfile
      exact ⟨hends, id, hfile, by rw [← hcontent, FileSystem.content, FileSystem.content, hfiles]⟩
    cases hbuilt : (View.mk hidden.forward hidden.transpose disk).build with
    | error e =>
      rw [hbuilt] at hdiffers
      cases hdiffers
    | ok built =>
      rw [hbuilt] at hdiffers
      simp only [Except.toOption, Option.any_some, Bool.and_eq_true, Bool.not_eq_true'] at hdiffers
      refine ⟨faithful_hiddenViews, by decide +kernel, disk, rfl, hstep, summary, s, built, hcall,
        hbuilt, fun hagrees => ?_⟩
      cases hdiffers.1.symm.trans ((hagrees.hasFeature_eq 3).trans hdiffers.2)

/-- The file of an empty matrix, which is opened as both stores. -/
def ownFile : Machine FileMatrix where
  session := ⟨⟨.directory [("f", .file 0)], #[⟨.ofBytes [83, 80, 77, 88, 1, 0, 0, 0, 0, 0], 1⟩], 2⟩, []⟩
  forward := ⟨⟨false, ["f"]⟩, 0, 10, ∅⟩
  transpose := ⟨⟨false, ["f"]⟩, 0, 10, ∅⟩
  engine := .new {}

/-- Where the path is that of a store, the summary is stale as soon as it is saved, and the next
call puts another file there. -/
theorem renewed_ownFile :
    Unsaved ⟨false, ["f"]⟩ ownFile.session.disk ∧
      ∃ summary s again t, Succeeds (Summary.loadOrBuild ⟨false, ["f"]⟩ ownFile.forward
          ownFile.transpose) ownFile.session summary s ∧
        Succeeds (Summary.loadOrBuild ⟨false, ["f"]⟩ ownFile.forward ownFile.transpose) s again t ∧
        s.disk.at? ["f"] = some (.file 1) ∧ t.disk.at? ["f"] = some (.file 2) := by
  have hunsaved : Unsaved ⟨false, ["f"]⟩ ownFile.session.disk := by
    rintro bytes saved ⟨_, id, hfile, rfl⟩ hload
    cases hfile
    have hfails : (FileFormat.similarityCache.load Summary.decoder ⟨false, ["f"]⟩
      (ownFile.session.disk.content 0)).isOk = false := by decide +kernel
    rw [hload] at hfails
    cases hfails
  have hfirst : (outcome (Summary.loadOrBuild ⟨false, ["f"]⟩ ownFile.forward ownFile.transpose)
    ownFile.session).1.isOk = true := by decide +kernel
  have hsecond : (outcome (Summary.loadOrBuild ⟨false, ["f"]⟩ ownFile.forward ownFile.transpose)
    (ownFile.call ⟨false, ["f"]⟩).session).1.isOk = true := by decide +kernel
  obtain ⟨summary, h⟩ := exists_succeeds hfirst
  obtain ⟨again, h'⟩ := exists_succeeds hsecond
  exact ⟨hunsaved, summary, _, again, _, h, h', by decide +kernel, by decide +kernel⟩

/-- Three paths that interfere: one that a failed call makes, one that hides a summary and one of a
store. -/
theorem never_stale_limits :
    (Unsaved throughItself (oneCell 1 ⟨0x40400000⟩).session.disk ∧
      ∃ e s, Fails (Summary.loadOrBuild throughItself (oneCell 1 ⟨0x40400000⟩).forward
          (oneCell 1 ⟨0x40400000⟩).transpose) (oneCell 1 ⟨0x40400000⟩).session e s ∧
        (oneCell 1 ⟨0x40400000⟩).session.disk.at? ["c"] = none ∧
        s.disk.at? ["c"] = some .directory ∧
        (oneCell 1 ⟨0x40400000⟩).session.disk.present throughItself = false ∧
        s.disk.present throughItself = true) ∧
    (View.Faithful hiddenViews ∧ hidden.session.disk.readFile throughGone = .error .notFound ∧
      ∃ disk, hidden.session.disk.makeDirectory ⟨false, ["gone"]⟩ = .ok disk ∧
        Step throughGone hiddenViews hidden
          { hidden with session := { hidden.session with disk } } ∧
        ∃ summary s built, Succeeds (Summary.loadOrBuild throughGone hidden.forward
            hidden.transpose) { hidden.session with disk } summary s ∧
          (View.mk hidden.forward hidden.transpose disk).build = .ok built ∧
          ¬summary.Agrees built) ∧
    Unsaved ⟨false, ["f"]⟩ ownFile.session.disk ∧
      ∃ summary s again t, Succeeds (Summary.loadOrBuild ⟨false, ["f"]⟩ ownFile.forward
          ownFile.transpose) ownFile.session summary s ∧
        Succeeds (Summary.loadOrBuild ⟨false, ["f"]⟩ ownFile.forward ownFile.transpose) s again t ∧
        s.disk.at? ["f"] = some (.file 1) ∧ t.disk.at? ["f"] = some (.file 2) :=
  ⟨present_throughItself, stale_throughGone, renewed_ownFile⟩

end Machine
end Relatedness
