import Mathlib.Algebra.BigOperators.Ring.List
import Relatedness.Proofs.Disk.Inside
import Relatedness.Proofs.Matrix.Pair

/-! Building a pair as a transaction: the directory becomes the pair of the given rows, or it is
as it was. -/

namespace Relatedness

open FileSystem Relatedness.Path

namespace FileMatrix

/-- A file of encoded rows can be opened. -/
theorem exists_openFile {fs : FileSystem} {path : Path} {id : Nat} {rows : List Row}
    (hopen : fs.openFile path = .ok id) (hcontent : fs.content id = Matrix.encode rows)
    (hasc : rows.Pairwise fun a b => a.id < b.id)
    (hsize : (Matrix.encode rows).length < 2 ^ 64) : ∃ m, openFile fs path = .ok m := by
  unfold openFile
  rw [hopen]
  simp only [hcontent, Matrix.readIndex_encode hasc hsize]
  exact ⟨_, rfl⟩

end FileMatrix

namespace Matrix

/-- As many entries as memory can hold fit into a file. -/
theorem length_encode_lt {rows : List Row} (hasc : rows.Pairwise fun a b => a.id < b.id)
    (hentries : (rows.map Row.width).sum < 2 ^ 60) : (encode rows).length < 2 ^ 64 := by
  have hcount := Ascending.length_le hasc
  have hpayload : payloadSize rows = 8 * (rows.map Row.width).sum := by
    rw [payloadSize, List.sum_map_mul_left]
  rw [length_encode, hpayload, headerSize, indexEntrySize]
  omega

end Matrix

namespace MatrixDraft

variable {base : FileSystem} {directory : Path} {d : MatrixDraft} {name temporary : String}

/-- Saving a draft is work inside of its directory, however far it comes. -/
theorem keeps_save (hnamed : Named name temporary) (hpath : d.path = directory.child name) :
    Keeps (base.Inside directory.place) d.save := by
  unfold save
  rw [hpath, Path.withExtension_child hnamed.isName hnamed.stem, hnamed.renamed]
  exact Replacement.keeps_replaceFile hnamed.isTemporary hnamed.isName _ true

end MatrixDraft

namespace MatrixPair

variable {s t : Session} {base fs : FileSystem} {directory : Path} {name : String} {rows : List Row}

/-- Writing a pair is work inside of the directory, also if a row is refused. -/
theorem keeps_write : Keeps (fun s : Session => base.Inside directory.place s.disk)
    (write directory rows) := by
  unfold write
  refine Action.keeps_ofExcept_bind fun forward hforward => ?_
  refine Keeps.bind (Action.keeps_onDisk
    (MatrixDraft.keeps_save named_forward (MatrixDraft.values_of_addAll hforward).1)) fun _ => ?_
  refine Action.keeps_ofExcept_bind fun backward hbackward => Action.keeps_onDisk ?_
  exact MatrixDraft.keeps_save named_transpose (MatrixDraft.values_of_addAll hbackward).1

/-- The directory holds the two files of these rows and nothing else. -/
structure Fills (directory : Path) (rows : List Row) (fs : FileSystem) : Prop where
  standing : fs.at? directory.place = some .directory
  files : ∃ sorted, sorted.Perm rows ∧ (sorted.Pairwise fun a b => a.id < b.id) ∧
    (∃ id, fs.at? (directory.place ++ [forwardName]) = some (.file id) ∧
      fs.content id = Matrix.encode sorted) ∧
    ∃ id, fs.at? (directory.place ++ [transposeName]) = some (.file id) ∧
      fs.content id = Matrix.encode (Matrix.transpose sorted)
  others : ∀ r, r ≠ [] → r ≠ [forwardName] → r ≠ [transposeName] →
    fs.at? (directory.place ++ r) = none

/-- A pair that was written into an empty directory fills it. -/
theorem fills_of_write (hs : s.disk.WellFormed)
    (hdir : s.disk.at? directory.place = some .directory)
    (hempty : ∀ r, r ≠ [] → s.disk.at? (directory.place ++ r) = none) {u : Unit}
    (h : Succeeds (write directory rows) s u t) : Fills directory rows t.disk := by
  have hkeeps : Keeps (fun t : Session => s.disk.Inside directory.place t.disk)
      (write directory rows) := keeps_write
  have hinside := hkeeps.succeeds h (.start hs hdir hempty)
  obtain ⟨_, sorted, hperm, hasc, hforward, htranspose, hothers⟩ := write_spec hs h
  refine ⟨hinside.directory.trans hdir, ⟨sorted, hperm, hasc, hforward, htranspose⟩, ?_⟩
  intro r hr hne hne'
  rcases hothers (directory.place ++ r) (by simpa using hne) (by simpa using hne') with
    hsame | hnone
  · rw [hsame, hempty r hr]
  · exact hnone

/-- What fills a directory fills the one that it is moved to. -/
theorem Fills.moved {target : Path} {fs' : FileSystem} (h : Fills directory rows fs)
    (hfiles : fs'.files = fs.files)
    (hat : ∀ r, fs'.at? (target.place ++ r) = fs.at? (directory.place ++ r)) :
    Fills target rows fs' := by
  have hcontent : ∀ id, fs'.content id = fs.content id := fun id => by
    rw [FileSystem.content, hfiles]
    rfl
  obtain ⟨sorted, hperm, hasc, ⟨id, hfile, hbytes⟩, id', hfile', hbytes'⟩ := h.files
  refine ⟨?_, ⟨sorted, hperm, hasc, ⟨id, by rw [hat, hfile], by rw [hcontent, hbytes]⟩, id',
    by rw [hat, hfile'], by rw [hcontent, hbytes']⟩, fun r hr hne hne' => ?_⟩
  · simpa [h.standing] using hat []
  · rw [hat, h.others r hr hne hne']

/-- A directory that is filled by a pair and that the path leads to can be opened. -/
theorem Fills.exists_openDirectory (h : Fills directory rows fs) (hfs : fs.WellFormed)
    (hreaches : fs.Reaches directory) (hentries : (rows.map Row.width).sum < 2 ^ 60) :
    ∃ pair, openDirectory fs directory = .ok pair := by
  obtain ⟨sorted, hperm, hasc, ⟨id, hfile, hcontent⟩, id', hfile', hcontent'⟩ := h.files
  have hsum : (sorted.map Row.width).sum < 2 ^ 60 := by
    rwa [(hperm.map Row.width).sum_eq]
  obtain ⟨forward, hforward⟩ := FileMatrix.exists_openFile
    ((hreaches.openFile_child_iff hfs named_forward.isName).mpr hfile) hcontent hasc
    (Matrix.length_encode_lt hasc hsum)
  obtain ⟨transpose, htranspose⟩ := FileMatrix.exists_openFile
    ((hreaches.openFile_child_iff hfs named_transpose.isName).mpr hfile') hcontent'
    (Matrix.pairwise_transpose sorted)
    (Matrix.length_encode_lt (Matrix.pairwise_transpose sorted)
      ((Matrix.sum_width_transpose_le hasc).trans_lt hsum))
  refine ⟨⟨forward, transpose⟩, ?_⟩
  unfold openDirectory
  rw [hforward, htranspose]
  rfl

/-- The directory is filled, and its siblings are gone. -/
structure Built (directory : Path) (rows : List Row) (fs fs' : FileSystem) : Prop where
  beside : directory.Beside fs fs'
  fills : Fills directory rows fs'
  staging : fs'.at? directory.staging.place = none
  retired : fs'.at? directory.retired.place = none

/-- The directory is as it was, and no staging directory is left. -/
structure Undone (directory : Path) (fs fs' : FileSystem) : Prop where
  beside : directory.Beside fs fs'
  same : SameWithin directory.place fs fs'
  staging : fs'.at? directory.staging.place ≠ some .directory

/-- What was staged can be thrown away as long as the directory is as it was. -/
theorem undone_of_discard (hname : directory.fileName? = some name)
    (hsteady : directory.Steady fs) (hbeside : directory.Beside fs s.disk)
    (hsame : SameWithin directory.place fs s.disk)
    (hstaging : s.disk.at? directory.staging.place = some .directory) :
    ∃ t, Succeeds (Action.onDisk (DiskM.attempt (Replacement.removeIfPresent directory.staging)))
      s () t ∧ Undone directory fs t.disk := by
  obtain ⟨fs', hdiscard, hbeside', hsame', hgone⟩ := Replacement.discard_staging hbeside.wellFormed
    hname (hsteady.of_beside hbeside) hstaging
  refine ⟨_, Action.succeeds_onDisk.mpr ⟨fs', hdiscard, rfl⟩, hbeside.trans hbeside',
    hsame.trans hsame', ?_⟩
  change fs'.at? directory.staging.place ≠ some .directory
  simp [hgone]

/-- The second half of a build: the staged pair takes the place of the directory. -/
def install (staging directory : Path) : Action MatrixPair := do
  tryCatch (Action.onDisk (Replacement.replaceDirectory staging directory)) fun cause => do
    Action.onDisk (DiskM.attempt (Replacement.removeIfPresent staging))
    throw cause
  Action.log .info s!"built matrix pair in {directory.text}"
  Action.ofExcept (openDirectory (← Action.disk) directory)

theorem build_eq (directory : Path) (rows : List Row) :
    build directory rows = (do
      let staging ← Action.onDisk (Replacement.freshStaging directory)
      tryCatch (write staging rows) fun cause => do
        Action.onDisk (DiskM.attempt (Replacement.removeIfPresent staging))
        throw cause
      install staging directory) := rfl

/-- Once the staged pair has taken the place of the directory, it is opened. -/
theorem install_of_replaced (hname : directory.fileName? = some name)
    (hsteady : directory.Steady fs) (hbeside : directory.Beside fs s.disk)
    (hfilled : Fills directory.staging rows s.disk)
    (hentries : (rows.map Row.width).sum < 2 ^ 60) {placed : FileSystem}
    (hreplace : Succeeds (Replacement.replaceDirectory directory.staging directory : DiskM Unit)
      s.disk () placed) :
    ∃ pair t, Succeeds (install directory.staging directory) s pair t ∧
      Built directory rows fs t.disk := by
  have hreplaced := Replacement.replaced_of_succeeds hbeside.wellFormed hname
    (hsteady.of_beside hbeside) hreplace
  have hfills := hfilled.moved hreplaced.files hreplaced.moved
  have hall := hbeside.trans hreplaced.beside
  obtain ⟨pair, hopen⟩ := hfills.exists_openDirectory hall.wellFormed
    ((hsteady.of_beside hall).reaches hname) hentries
  refine ⟨pair, ({ s with disk := placed } : Session).record .info
    s!"built matrix pair in {directory.text}", ?_, hall, hfills,
    by simpa using hreplaced.staging [], by simpa using hreplaced.retired []⟩
  simp only [install, succeeds_bind, succeeds_tryCatch, Action.succeeds_onDisk,
    Action.succeeds_log, Action.succeeds_disk, Action.succeeds_ofExcept]
  exact ⟨(), _, .inl ⟨placed, hreplace, rfl⟩, (), _, rfl, _, _, ⟨rfl, rfl⟩, hopen, rfl⟩

/-- A staged pair takes the place of the directory and is opened, or it is thrown away. -/
theorem install_cases (hname : directory.fileName? = some name) (hsteady : directory.Steady fs)
    (hbeside : directory.Beside fs s.disk) (hsame : SameWithin directory.place fs s.disk)
    (hfile : ∀ id, fs.at? directory.place ≠ some (.file id))
    (hfilled : Fills directory.staging rows s.disk)
    (hentries : (rows.map Row.width).sum < 2 ^ 60) :
    (∃ pair t, Succeeds (install directory.staging directory) s pair t ∧
        Built directory rows fs t.disk) ∨
      ∃ e t, Fails (install directory.staging directory) s e t ∧ Undone directory fs t.disk := by
  have hfile' : ∀ id, s.disk.at? directory.place ≠ some (.file id) := hsame.at?_eq ▸ hfile
  rcases Replacement.replaceDirectory_cases hbeside.wellFormed hname (hsteady.of_beside hbeside)
    hfile' with
    ⟨placed, hreplace, _⟩ | ⟨cause, kept, hreplace, hkept, hsame', hstaging⟩
  case inr =>
    obtain ⟨t, hdiscard, hundone⟩ := undone_of_discard (s := { s with disk := kept }) hname
      hsteady (hbeside.trans hkept) (hsame.trans hsame')
      (hstaging.at?_eq.trans hfilled.standing)
    refine .inr ⟨.io cause, t, fails_bind.mpr (.inl (fails_tryCatch.mpr
      ⟨.io cause, { s with disk := kept }, ?_, ?_⟩)), hundone⟩
    · exact Action.fails_onDisk.mpr ⟨cause, kept, hreplace, rfl, rfl⟩
    · exact fails_bind.mpr (.inr ⟨(), t, hdiscard, fails_throw.mpr ⟨rfl, rfl⟩⟩)
  exact .inl (install_of_replaced hname hsteady hbeside hfilled hentries hreplace)

/-- Rows that fill a directory have ids of their own. -/
theorem Fills.distinct (h : Fills directory rows fs) : rows.Pairwise fun a b => a.id ≠ b.id := by
  obtain ⟨sorted, hperm, hasc, _⟩ := h.files
  refine (hperm.pairwise_iff fun hne => hne.symm).mp (hasc.imp fun hlt heq => ?_)
  exact UInt32.lt_irrefl _ (heq ▸ hlt)

/-- A build ends in one of two ways. -/
theorem build_cases (hs : s.disk.WellFormed) (hname : directory.fileName? = some name)
    (hsteady : directory.Steady s.disk)
    (hfile : (rows.Pairwise fun a b => a.id ≠ b.id) →
      ∀ id, s.disk.at? directory.place ≠ some (.file id))
    (hentries : (rows.map Row.width).sum < 2 ^ 60) :
    (∃ pair t, Succeeds (build directory rows) s pair t ∧ Built directory rows s.disk t.disk) ∨
      ∃ e t, Fails (build directory rows) s e t ∧ Undone directory s.disk t.disk := by
  rw [build_eq]
  rcases Replacement.freshStaging_cases hs hname hsteady with
    ⟨staged, hfresh, hstaged⟩ | ⟨cause, fs, hfresh, hbeside, hsame, hnot⟩
  case inr =>
    refine .inr ⟨.io cause, { s with disk := fs }, fails_bind.mpr (.inl ?_), hbeside, hsame, hnot⟩
    exact Action.fails_onDisk.mpr ⟨cause, fs, hfresh, rfl, rfl⟩
  have hstart := Action.succeeds_onDisk.mpr ⟨staged, hfresh, rfl⟩
  have hinside : staged.Inside directory.staging.place staged :=
    .start hstaged.beside.wellFormed hstaged.staging hstaged.empty
  rcases succeeds_or_fails (write directory.staging rows) { s with disk := staged } with
    ⟨u, written, hwrite⟩ | ⟨e, stopped, hwrite⟩
  case inr =>
    have hwork := keeps_write.fails hwrite hinside
    obtain ⟨t, hdiscard, hundone⟩ := undone_of_discard hname hsteady
      (hstaged.beside.trans (beside_of_inside hwork))
      (hstaged.target.trans (sameWithin_of_inside hname hwork))
      (hwork.directory.trans hstaged.staging)
    refine .inr ⟨e, t, fails_bind.mpr (.inr ⟨_, _, hstart, fails_bind.mpr (.inl ?_)⟩), hundone⟩
    exact fails_tryCatch.mpr ⟨e, stopped, hwrite,
      fails_bind.mpr (.inr ⟨(), t, hdiscard, fails_throw.mpr ⟨rfl, rfl⟩⟩)⟩
  have hwork := keeps_write.succeeds hwrite hinside
  have hfilled : Fills directory.staging rows written.disk :=
    fills_of_write hstaged.beside.wellFormed hstaged.staging hstaged.empty hwrite
  rcases install_cases hname hsteady (hstaged.beside.trans (beside_of_inside hwork))
    (hstaged.target.trans (sameWithin_of_inside hname hwork)) (hfile hfilled.distinct)
    hfilled hentries with
    ⟨pair, t, hinstall, hbuilt⟩ | ⟨e, t, hinstall, hundone⟩
  · exact .inl ⟨pair, t, succeeds_bind.mpr ⟨_, _, hstart, succeeds_bind.mpr ⟨(), written,
      succeeds_tryCatch.mpr (.inl hwrite), hinstall⟩⟩, hbuilt⟩
  · exact .inr ⟨e, t, fails_bind.mpr (.inr ⟨_, _, hstart, fails_bind.mpr (.inr ⟨(), written,
      succeeds_tryCatch.mpr (.inl hwrite), hinstall⟩)⟩), hundone⟩

/-- A build is all or nothing. If it succeeds, the directory holds the pair of the rows and
nothing else, and its siblings are gone; if it fails, the directory is as it was, and no staging
directory is left. Either way nothing else is different but for new directories above it. Only
where rows that could be written are to replace a file, this does not hold. -/
theorem build_all_or_nothing (hs : s.disk.WellFormed) (hname : directory.fileName? = some name)
    (hsteady : directory.Steady s.disk)
    (hfile : (rows.Pairwise fun a b => a.id ≠ b.id) →
      ∀ id, s.disk.at? directory.place ≠ some (.file id))
    (hentries : (rows.map Row.width).sum < 2 ^ 60) :
    (∀ pair t, Succeeds (build directory rows) s pair t → Built directory rows s.disk t.disk) ∧
      ∀ e t, Fails (build directory rows) s e t → Undone directory s.disk t.disk := by
  rcases build_cases hs hname hsteady hfile hentries with
    ⟨pair, t, hbuild, hbuilt⟩ | ⟨e, t, hbuild, hundone⟩
  · refine ⟨fun _ _ h => ?_, fun _ _ h => absurd h hbuild.not_fails⟩
    rw [(h.unique hbuild).2]
    exact hbuilt
  · refine ⟨fun _ _ h => absurd hbuild h.not_fails, fun _ _ h => ?_⟩
    rw [(h.unique hbuild).2]
    exact hundone

def oneRow : List Row := [⟨1, [(2, ⟨0x3f000000⟩)], by simp⟩]

/-- A pair is built where nothing was, and the same row given twice does not change it. -/
theorem build_all_or_nothing_twice :
    ∃ pair t, Succeeds (build ⟨false, ["m"]⟩ oneRow) ⟨.empty 0, []⟩ pair t ∧
      Built ⟨false, ["m"]⟩ oneRow (.empty 0) t.disk ∧
      ∃ e u, Fails (build ⟨false, ["m"]⟩ (oneRow ++ oneRow)) t e u ∧
        Undone ⟨false, ["m"]⟩ t.disk u.disk := by
  have hname : (⟨false, ["m"]⟩ : Path).fileName? = some "m" := by decide +kernel
  have hsteady : ∀ fs, (⟨false, ["m"]⟩ : Path).Steady fs :=
    fun _ => steady_of_no_dots hname (by decide)
  have hcheck : succeedsWith (build ⟨false, ["m"]⟩ oneRow) ⟨.empty 0, []⟩ (fun _ t =>
      !(outcome (build ⟨false, ["m"]⟩ (oneRow ++ oneRow)) t).1.isOk) = true := by decide +kernel
  obtain ⟨pair, t, h, hagain⟩ := exists_of_succeedsWith hcheck
  have hbuilt := (build_all_or_nothing (.empty 0) hname (hsteady _) (fun _ id hat => by cases hat)
    (by decide)).1 pair t h
  rw [Bool.not_eq_true'] at hagain
  obtain ⟨e, hfails⟩ := exists_fails hagain
  refine ⟨pair, t, h, hbuilt, e, _, hfails, (build_all_or_nothing hbuilt.beside.wellFormed hname
    (hsteady _) (fun _ id hat => ?_) (by decide)).2 e _ hfails⟩
  cases hbuilt.fills.standing.symm.trans hat

/-- A file under the name of the directory. -/
def overFile : Session := ⟨⟨.directory [("m", .file 0)], #[⟨.ofBytes [0], 1⟩], 2⟩, []⟩

/-- Where a file stands, the build fails at its last step: the file has been moved aside and the
pair put in its place, and only a directory could now be removed. -/
theorem build_over_file :
    overFile.disk.WellFormed ∧ (⟨false, ["m"]⟩ : Path).Steady overFile.disk ∧
      ∃ e t, Fails (build ⟨false, ["m"]⟩ oneRow) overFile e t ∧
        overFile.disk.at? ["m"] = some (.file 0) ∧ t.disk.at? ["m"] = some .directory ∧
        t.disk.at? ["m.retired"] = some (.file 0) := by
  have hwrite : (FileSystem.empty 0).writeFile ⟨false, ["m"]⟩ [0] = .ok overFile.disk := by rfl
  have hcheck : failsWith (build ⟨false, ["m"]⟩ oneRow) overFile (fun _ t =>
      decide (t.disk.at? ["m"] = some .directory) &&
        decide (t.disk.at? ["m.retired"] = some (.file 0))) = true := by decide +kernel
  obtain ⟨e, t, h, hends⟩ := exists_of_failsWith hcheck
  simp only [Bool.and_eq_true, decide_eq_true_eq] at hends
  exact ⟨(writeFile_spec (.empty 0) hwrite).1,
    steady_of_no_dots (by decide +kernel : _ = some "m") (by decide), e, t, h, rfl, hends⟩

end MatrixPair
end Relatedness
