import Relatedness.Matrix.Draft
import Relatedness.Percentile.Normalizer
import Relatedness.Proofs.Disk.Saving
import Relatedness.Similarity.Summary

/-! How saving a file ends. A save that succeeds leaves the new file at the path and nothing at the
temporary name. One that fails leaves what stood at the path. A matrix takes its temporary file away
again, wherever it stops; a normalizer and a summary leave it behind if it could be written and not
be moved, which is so just where no file can stand at the path. -/

namespace Relatedness

/-! ## Directories that could not be made -/

namespace DiskM

open FileSystem

variable {fs fs' : FileSystem} {p : Path} {e : IoError}

theorem isDirectory_of_ensureDirectory_fails (h : Fails (ensureDirectory p) fs e fs') :
    fs'.isDirectory p = false := by
  simp only [ensureDirectory, fails_tryCatch, fails_change, fails_bind, fails_inspect,
    succeeds_inspect, fails_ite, fails_pure, fails_throw, and_false, false_or, reduceCtorEq,
    false_and] at h
  obtain ⟨_, _, _, found, _, ⟨hfound, rfl⟩, hnot, _, rfl⟩ := h
  rw [Except.ok.inj hfound]
  simpa using hnot

/-- Where the directories of a list could not be made, one of them is missing. -/
theorem isDirectory_of_ensureFirst_fails {paths : List Path}
    (h : Fails (ensureFirst paths) fs e fs') : ∃ q ∈ paths, fs'.isDirectory q = false := by
  induction paths generalizing fs e with
  | nil => exact absurd h fails_pure
  | cons p above ih =>
    simp only [ensureFirst, fails_tryCatch, fails_bind, fails_ite, fails_throw, succeeds_throw] at h
    obtain ⟨cause, mid, hfirst, ⟨_, habove | ⟨_, _, _, hagain⟩⟩ | ⟨_, ⟨_, rfl⟩ | ⟨_, _, hthrow, _⟩⟩⟩ :=
      h
    · obtain ⟨q, hq, hnot⟩ := ih habove
      exact ⟨q, List.mem_cons_of_mem p hq, hnot⟩
    · exact ⟨p, List.mem_cons_self, isDirectory_of_ensureDirectory_fails hagain⟩
    · exact ⟨p, List.mem_cons_self, isDirectory_of_ensureDirectory_fails hfirst⟩
    · exact hthrow.elim

end DiskM

namespace Path

variable {p : Path} {extension : String}

/-- The temporary file of a path stands in the same directory. -/
theorem parent_withExtension (hextension : 2 ≤ extension.length)
    (h : ∃ name, (p.withExtension extension).fileName? = some name) :
    (p.withExtension extension).parent = p.parent := by
  rcases withExtension_cases p hextension with hnone | ⟨name, renamed, _, hrenamed, heq⟩
  · obtain ⟨_, hsome⟩ := h
    cases hnone.symm.trans hsome
  · have hbody : dropIdleEnd ((dropIdleEnd p.pieces).dropLast ++ [renamed]) =
        (dropIdleEnd p.pieces).dropLast ++ [renamed] := by
      simp [dropIdleEnd, hrenamed.not_idle]
    rw [heq, parent, hbody, List.dropLast_concat]
    rfl

/-- A file can stand at the path: it ends in a name, which no directory has. -/
def TakesFile (p : Path) (fs : FileSystem) : Prop :=
  p.EndsInName ∧ fs.at? p.place ≠ some .directory

end Path

namespace FileSystem

open Relatedness.Path

variable {fs fs' : FileSystem} {p q : Path} {bytes : Bytes}

theorem exists_openFile_of_isFile (h : fs.isFile p = true) : ∃ id, fs.openFile p = .ok id := by
  unfold isFile at h
  unfold openFile
  cases hfind : fs.find p with
  | error e =>
    rw [hfind] at h
    cases h
  | ok t =>
    rw [hfind] at h
    cases t with
    | file id => exact ⟨id, rfl⟩
    | directory entries => cases h

theorem isFile_of_removeFile (hfs : fs.WellFormed) (h : fs.removeFile p = .ok fs') :
    fs'.isFile p = false := by
  obtain ⟨hfs', _, _, hat⟩ := removeFile_spec hfs h
  rw [← Bool.not_eq_true]
  intro hfile
  obtain ⟨id, hopen⟩ := exists_openFile_of_isFile hfile
  have hstands := at?_of_openFile hfs' hopen
  rw [hat, if_pos rfl] at hstands
  cases hstands

/-- Where a path can be followed, directories stand at all that is above it. -/
theorem isDirectory_of_mem_ancestors (hfs : fs.WellFormed) {location : Location}
    (h : fs.root.locate p = .ok location) (hq : q ∈ p.parent.ancestors) :
    fs.isDirectory q = true := by
  have hway := way_of_locate hfs h
  have hreaches : fs.Reaches q := fun _ a ha => hway a (way_subset_of_mem_ancestors hq ha)
  obtain ⟨entries, hfind⟩ := hreaches.find hfs (hway _ (mem_way_of_mem_ancestors hq))
  unfold isDirectory
  rw [hfind]
  rfl

end FileSystem

namespace Replacement

open FileSystem Relatedness.Path

variable {fs fs' mid : FileSystem} {p : Path} {content : Bytes} {extension : String} {e : IoError}
  {tidy : Bool}

/-! ## The temporary file -/

/-- Where the directories above a path could not be made, there is no temporary file. -/
theorem isFile_of_makeDirectories_fails (hfs : fs.WellFormed) (hextension : 2 ≤ extension.length)
    (h : Fails (DiskM.makeDirectories p.parent) fs e fs') :
    fs'.isFile (p.withExtension extension) = false := by
  have hfs' : fs'.WellFormed := by
    have hadds := (DiskM.makeDirectories_adds hfs p.parent).1
    rwa [show outcome (DiskM.makeDirectories p.parent) fs = _ from h] at hadds
  rw [← Bool.not_eq_true]
  intro hfile
  obtain ⟨id, hopen⟩ := exists_openFile_of_isFile hfile
  have hlocate := named_of_openFile hfs' hopen
  obtain ⟨q, hq, hnot⟩ := DiskM.isDirectory_of_ensureFirst_fails h
  rw [← parent_withExtension hextension (Tree.fileName?_of_locate hlocate rfl)] at hq
  cases (isDirectory_of_mem_ancestors hfs' hlocate hq).symm.trans hnot

/-- The temporary file can be moved to the path if a file can stand there. -/
theorem exists_move_of_takesFile (hfs : fs.WellFormed) (hextension : 2 ≤ extension.length)
    (hwrite : fs.writeFile (p.withExtension extension) content = .ok mid) (htakes : p.TakesFile fs) :
    ∃ fs', mid.move (p.withExtension extension) p = .ok fs' := by
  cases hmove : mid.move (p.withExtension extension) p with
  | ok fs' => exact ⟨fs', rfl⟩
  | error e =>
    obtain ⟨hend, hnot⟩ := htakes
    obtain ⟨name, renamed, hname, hne, hplace⟩ := name_ne_of_move_error hfs hextension hwrite hmove
    have hapart : Place.Apart (p.withExtension extension).place p.place := by
      rw [hplace, (place_of_fileName? hname).2]
      exact Place.apart_of_ne (hne hend).symm
    have htouched := touched_of_writeFile hfs hwrite
    obtain ⟨id, hopen, _⟩ := openFile_of_writeFile hfs hwrite
    have hstart := named_of_openFile htouched.wellFormed hopen
    have hway := way_of_locate htouched.wellFormed hstart
    rw [parent_withExtension hextension (Tree.fileName?_of_locate hstart rfl)] at hway
    obtain ⟨⟨last, hlast, hisName⟩, hslash⟩ := endsInName_iff.mp hend
    have hgoal := Tree.locate_of_way htouched.wellFormed.root hlast hisName hway
    rw [hslash] at hgoal
    have hfree : mid.at? p.place ≠ some .directory := by
      rwa [htouched.others]
      exact fun heq => hapart.2 (heq ▸ List.prefix_rfl)
    obtain ⟨fs', hok⟩ := exists_move_of_apart hstart hgoal hapart
      (at?_of_openFile htouched.wellFormed hopen) hfree
    cases hok.symm.trans hmove

/-- The temporary file is left just by a replacement that does not tidy up, where it can be written
and no file can stand at the path. -/
theorem isFile_of_replaceFile_fails (hfs : fs.WellFormed) (hextension : 2 ≤ extension.length)
    (h : Fails (replaceFile (p.withExtension extension) p content tidy) fs e fs') :
    fs'.isFile (p.withExtension extension) = true ↔
      tidy = false ∧ ¬p.TakesFile fs ∧
        ∃ mid, fs.writeFile (p.withExtension extension) content = .ok mid := by
  rcases replaceFile_stops hfs h with ⟨hwrite, rfl⟩ | ⟨mid, hwrite, hmove, hdone⟩
  · constructor
    · intro hfile
      obtain ⟨id, hopen⟩ := exists_openFile_of_isFile hfile
      obtain ⟨_, hok⟩ := exists_writeFile_of_openFile hfs hopen content
      cases hok.symm.trans hwrite
    · rintro ⟨_, _, _, hok⟩
      cases hok.symm.trans hwrite
  have htakes : ¬p.TakesFile fs := by
    intro htakes
    obtain ⟨_, hok⟩ := exists_move_of_takesFile hfs hextension hwrite htakes
    cases hok.symm.trans hmove
  rcases hdone with ⟨rfl, hremove⟩ | ⟨rfl, rfl⟩
  · rw [isFile_of_removeFile (touched_of_writeFile hfs hwrite).wellFormed hremove]
    simp
  · obtain ⟨id, hopen, _⟩ := openFile_of_writeFile hfs hwrite
    simp only [isFile_of_openFile hopen, htakes, not_false_eq_true, true_and, true_iff]
    exact ⟨_, hwrite⟩

theorem unchanged_of_replaceFile_fails (hfs : fs.WellFormed) (hextension : 2 ≤ extension.length)
    (h : Fails (replaceFile (p.withExtension extension) p content tidy) fs e fs') :
    fs.Unchanged p fs' := by
  rcases touched_of_replaceFile_fails hfs hextension h with rfl |
    ⟨name, renamed, hname, hne, htouched⟩
  · exact .refl p _
  · exact htouched.unchanged hfs hname hne

theorem present_of_replaceFile (hfs : fs.WellFormed) {temporary target : Path} {u : Unit}
    (h : Succeeds (replaceFile temporary target content tidy) fs u fs')
    (hne : temporary.place ≠ target.place) : fs'.present temporary = false := by
  obtain ⟨hfs', _, _, hgone, _⟩ := replaceFile_spec hfs h
  rw [← Bool.not_eq_true, present_iff hfs']
  exact fun hpresent => hpresent.2.1 (hgone hne)

end Replacement

/-! ## How a save ends -/

section Saves

open Replacement

variable {fs : FileSystem} {path : Path}

/-- After a save that fails, the same stands at the path, and a temporary file just if it is said to
be left. After one that succeeds, the path reads the content, and nothing is found under the temporary
name unless it leads to the same place. -/
structure Ends (save : DiskM Unit) (temporary target : Path) (content : Bytes) (left : Prop)
    (fs : FileSystem) : Prop where
  unchanged : ∀ e fs', Fails save fs e fs' → fs.Unchanged target fs'
  leftover : ∀ e fs', Fails save fs e fs' → (fs'.isFile temporary = true ↔ left)
  read : ∀ fs', Succeeds save fs () fs' → fs'.readFile target = .ok content
  gone : ∀ fs', Succeeds save fs () fs' → temporary.place ≠ target.place →
    fs'.present temporary = false

theorem ends_replaceFile (hfs : fs.WellFormed) (path : Path) {extension : String}
    (hextension : 2 ≤ extension.length) (content : Bytes) (tidy : Bool) :
    Ends (replaceFile (path.withExtension extension) path content tidy)
      (path.withExtension extension) path content
      (tidy = false ∧ ¬path.TakesFile fs ∧
        ∃ mid, fs.writeFile (path.withExtension extension) content = .ok mid) fs where
  unchanged _ _ h := unchanged_of_replaceFile_fails hfs hextension h
  leftover _ _ h := isFile_of_replaceFile_fails hfs hextension h
  read _ h := readFile_of_replaceFile hfs h
  gone _ h := present_of_replaceFile hfs h

theorem MatrixDraft.ends_save (hfs : fs.WellFormed) (d : MatrixDraft) :
    Ends d.save (d.path.withExtension "spm.tmp") d.path (Matrix.encode d.rows.values) False fs := by
  have hends := ends_replaceFile hfs d.path (by decide : 2 ≤ "spm.tmp".length)
    (Matrix.encode d.rows.values) true
  rw [save]
  simpa only [reduceCtorEq, false_and] using hends

theorem Normalizer.ends_save {G : Type} (hfs : fs.WellFormed) (n : Normalizer Binary64 G)
    (path : Path) : Ends (n.save path) (path.withExtension "tmp") path n.encode
      (¬path.TakesFile fs ∧ ∃ mid, fs.writeFile (path.withExtension "tmp") n.encode = .ok mid)
      fs := by
  have hends := ends_replaceFile hfs path (by decide : 2 ≤ "tmp".length) n.encode false
  rw [save]
  simpa only [true_and] using hends

/-- Where the directories above a path were made, saving goes on as the replacement of a file. -/
theorem Summary.ends_save_of_made (s : Summary Binary64) (hfs : fs.WellFormed)
    (hstraight : path.Straight fs) {made : FileSystem}
    (hmake : Succeeds (DiskM.makeDirectories path.parent) fs () made) :
    Ends (s.save path) (path.withExtension "tmp") path s.encode
      (¬path.TakesFile fs ∧ ∃ mid, made.writeFile (path.withExtension "tmp") s.encode = .ok mid)
      fs := by
  have hunchanged := DiskM.unchanged_makeDirectories hfs hstraight
  have hplace := DiskM.at?_of_makeDirectories_straight hfs hstraight
  rw [show outcome (DiskM.makeDirectories path.parent) fs = _ from hmake] at hunchanged hplace
  have hends := ends_replaceFile (DiskM.makeDirectories_spec hfs hmake).1 path
    (by decide : 2 ≤ "tmp".length) s.encode false
  have hfails : ∀ e fs', Fails (s.save path) fs e fs' →
      Fails (replaceFile (path.withExtension "tmp") path s.encode false) made e fs' := by
    intro e fs' h
    rcases fails_bind.mp h with h | ⟨_, mid, hmid, h⟩
    · exact absurd h hmake.not_fails
    · exact (hmake.unique hmid).2 ▸ h
  have hsucceeds : ∀ fs', Succeeds (s.save path) fs () fs' →
      Succeeds (replaceFile (path.withExtension "tmp") path s.encode false) made () fs' := by
    intro fs' h
    obtain ⟨_, mid, hmid, h⟩ := succeeds_bind.mp h
    exact (hmake.unique hmid).2 ▸ h
  refine ⟨fun e fs' h => hunchanged.trans (hends.unchanged e fs' (hfails e fs' h)),
    fun e fs' h => ?_, fun fs' h => hends.read fs' (hsucceeds fs' h),
    fun fs' h => hends.gone fs' (hsucceeds fs' h)⟩
  rw [hends.leftover e fs' (hfails e fs' h), Path.TakesFile, hplace]
  exact and_iff_right rfl

theorem Summary.ends_save (s : Summary Binary64) (hfs : fs.WellFormed)
    (hstraight : path.Straight fs) : Ends (s.save path) (path.withExtension "tmp") path s.encode
      (¬path.TakesFile fs ∧ ∃ made mid, Succeeds (DiskM.makeDirectories path.parent) fs () made ∧
        made.writeFile (path.withExtension "tmp") s.encode = .ok mid) fs := by
  rcases succeeds_or_fails (DiskM.makeDirectories path.parent) fs with ⟨_, made, hmake⟩ |
    ⟨cause, made, hmake⟩
  · obtain ⟨hunchanged, hleftover, hread, hgone⟩ := s.ends_save_of_made hfs hstraight hmake
    refine ⟨hunchanged, fun e fs' h => (hleftover e fs' h).trans (and_congr_right fun _ => ?_),
      hread, hgone⟩
    constructor
    · rintro ⟨mid, hwrite⟩
      exact ⟨made, mid, hmake, hwrite⟩
    · rintro ⟨_, mid, hmake', hwrite⟩
      exact ⟨mid, (hmake.unique hmake').2 ▸ hwrite⟩
  · have hnot : ∀ {fs'}, ¬Succeeds (DiskM.makeDirectories path.parent) fs () fs' :=
      fun h => h.not_fails hmake
    have hfails : ∀ {e fs'}, Fails (s.save path) fs e fs' → fs' = made := by
      intro e fs' h
      rcases fails_bind.mp h with h | ⟨_, _, h, _⟩
      · exact (h.unique hmake).2
      · exact absurd h hnot
    have hsaves : ∀ {fs'}, ¬Succeeds (s.save path) fs () fs' := by
      intro fs' h
      obtain ⟨_, _, h, _⟩ := succeeds_bind.mp h
      exact hnot h
    have hunchanged := DiskM.unchanged_makeDirectories hfs hstraight
    rw [show outcome (DiskM.makeDirectories path.parent) fs = _ from hmake] at hunchanged
    refine ⟨fun e fs' h => hfails h ▸ hunchanged, fun e fs' h => ?_,
      fun fs' h => absurd h hsaves, fun fs' h => absurd h hsaves⟩
    rw [hfails h, isFile_of_makeDirectories_fails hfs (by decide) hmake]
    constructor
    · intro h
      cases h
    · rintro ⟨_, _, _, h, _⟩
      exact absurd h hnot

/-- Whatever stands on the disk, a save that fails leaves the same at the path, and one that succeeds
leaves the new file there and nothing at the temporary name. A matrix that could not be saved leaves
no temporary file. A normalizer and a summary leave theirs just where it can be written, next to a
path where no file can stand. -/
theorem saves_end {G : Type} (hfs : fs.WellFormed) (d : MatrixDraft) (n : Normalizer Binary64 G)
    (s : Summary Binary64) (path : Path) :
    Ends d.save (d.path.withExtension "spm.tmp") d.path (Matrix.encode d.rows.values) False fs ∧
    Ends (n.save path) (path.withExtension "tmp") path n.encode
      (¬path.TakesFile fs ∧ ∃ mid, fs.writeFile (path.withExtension "tmp") n.encode = .ok mid) fs ∧
    (path.Straight fs → Ends (s.save path) (path.withExtension "tmp") path s.encode
      (¬path.TakesFile fs ∧ ∃ made mid, Succeeds (DiskM.makeDirectories path.parent) fs () made ∧
        made.writeFile (path.withExtension "tmp") s.encode = .ok mid) fs) :=
  ⟨d.ends_save hfs, n.ends_save hfs path, s.ends_save hfs⟩

end Saves

/-! ## A directory at the path -/

def occupiedPath : Path := ⟨false, ["n"]⟩

/-- A disk with a directory at this path. -/
def occupied : FileSystem := ⟨.directory [("n", .directory [])], #[], 0⟩

theorem wellFormed_occupied : occupied.WellFormed := by
  have hmake : (FileSystem.empty 0).makeDirectory occupiedPath = .ok occupied := by rfl
  exact (FileSystem.makeDirectory_spec (.empty 0) hmake).1

/-- The summary of no rows. -/
def emptySummary : Summary Binary64 := ⟨0, 0, 0, 0, ∅, ∅, 0⟩

def emptyNormalizer : Normalizer Binary64 Generator := .new {}

theorem saves_end_occupied :
    occupied.WellFormed ∧ occupiedPath.Straight occupied ∧
      (∃ e t, Fails (MatrixDraft.empty occupiedPath).save occupied e t ∧
        occupied.Unchanged occupiedPath t ∧ t.isFile ⟨false, ["n.spm.tmp"]⟩ = false) ∧
      (∃ e t, Fails (emptyNormalizer.save occupiedPath) occupied e t ∧
        occupied.Unchanged occupiedPath t ∧ t.isFile ⟨false, ["n.tmp"]⟩ = true) ∧
      ∃ e t, Fails (emptySummary.save occupiedPath) occupied e t ∧
        occupied.Unchanged occupiedPath t ∧ t.isFile ⟨false, ["n.tmp"]⟩ = true := by
  have hstraight : occupiedPath.Straight occupied :=
    Path.straight_of_no_dots wellFormed_occupied (by decide)
  have hnot : ¬occupiedPath.TakesFile occupied := fun htakes => htakes.2 (by decide +kernel)
  obtain ⟨hdraft, hnormalizer, hsummary⟩ := saves_end wellFormed_occupied
    (.empty occupiedPath) emptyNormalizer emptySummary occupiedPath
  obtain ⟨e₁, h₁⟩ := exists_fails (s := occupied) (x := (MatrixDraft.empty occupiedPath).save)
    (by decide +kernel)
  obtain ⟨e₂, h₂⟩ := exists_fails (s := occupied) (x := emptyNormalizer.save occupiedPath)
    (by decide +kernel)
  obtain ⟨e₃, h₃⟩ := exists_fails (s := occupied) (x := emptySummary.save occupiedPath)
    (by decide +kernel)
  have hmatrix : (MatrixDraft.empty occupiedPath).path.withExtension "spm.tmp" =
      ⟨false, ["n.spm.tmp"]⟩ := by decide +kernel
  have htemporary : occupiedPath.withExtension "tmp" = ⟨false, ["n.tmp"]⟩ := by decide +kernel
  have hlocate : occupied.root.locate occupiedPath = .ok ⟨["n"], true, false⟩ := by rfl
  have hmade := FileSystem.makeDirectories_of_locate wellFormed_occupied hlocate
  rw [hmatrix] at hdraft
  rw [htemporary] at hnormalizer hsummary
  refine ⟨wellFormed_occupied, hstraight, ⟨e₁, _, h₁, hdraft.unchanged _ _ h₁, ?_⟩,
    ⟨e₂, _, h₂, hnormalizer.unchanged _ _ h₂, ?_⟩,
    e₃, _, h₃, (hsummary hstraight).unchanged _ _ h₃, ?_⟩
  · rw [← Bool.not_eq_true, hdraft.leftover _ _ h₁]
    exact not_false
  · exact (hnormalizer.leftover _ _ h₂).mpr ⟨hnot, _, rfl⟩
  · exact ((hsummary hstraight).leftover _ _ h₃).mpr ⟨hnot, occupied, _, hmade, rfl⟩

/-- Where a directory stands at the path, a normalizer and a summary cannot be saved, and each leaves
its temporary file, which was not there before. -/
theorem save_leaves_temporary :
    occupied.WellFormed ∧ occupied.present ⟨false, ["n.tmp"]⟩ = false ∧
      (∃ e t, Fails (emptyNormalizer.save occupiedPath) occupied e t ∧
        t.isFile (occupiedPath.withExtension "tmp") = true) ∧
      ∃ e t, Fails (emptySummary.save occupiedPath) occupied e t ∧
        t.isFile (occupiedPath.withExtension "tmp") = true := by
  obtain ⟨e, hnormalizer⟩ := exists_fails (s := occupied) (x := emptyNormalizer.save occupiedPath)
    (by decide +kernel)
  obtain ⟨e', hsummary⟩ := exists_fails (s := occupied) (x := emptySummary.save occupiedPath)
    (by decide +kernel)
  exact ⟨wellFormed_occupied, by decide +kernel, ⟨e, _, hnormalizer, by decide +kernel⟩, e', _, hsummary,
    by decide +kernel⟩

end Relatedness
