import Relatedness.Proofs.Disk.Saved

/-! Saving a file under a path: the directories above it are made, the new content is written
under a temporary name beside it, and that file is moved to the path. A save that fails has at most
made directories and left the temporary file, so what the path leads to is as it was. -/

namespace Relatedness

namespace Path

variable {p : Path} {name : String}

/-! ## The temporary name -/

/-- The path ends in a name, without a slash or a dot behind it. Only such a path leads to a
file. -/
def EndsInName (p : Path) : Prop := ∃ name, p.pieces.getLast? = some name ∧ IsName name

theorem endsInName_iff :
    p.EndsInName ↔ (∃ name, p.steps.getLast? = some name ∧ IsName name) ∧ p.endsInSlash = false := by
  rcases List.eq_nil_or_concat p.pieces with hnil | ⟨front, last, hconcat⟩
  · simp [EndsInName, steps, endsInSlash, hnil]
  rw [List.concat_eq_append] at hconcat
  by_cases hlast : last = ""
  · simp [EndsInName, steps, endsInSlash, hconcat, hlast, IsName]
  · simp [EndsInName, steps, endsInSlash, hconcat, hlast]

theorem EndsInName.dropIdleEnd (h : p.EndsInName) : dropIdleEnd p.pieces = p.pieces := by
  obtain ⟨name, hlast, hname⟩ := h
  rw [← List.dropLast_append_getLast? name hlast]
  simp [Path.dropIdleEnd, hname.not_idle]

theorem EndsInName.getLast? (h : p.EndsInName) (hname : p.fileName? = some name) :
    p.pieces.getLast? = some name := by
  unfold fileName? at hname
  rw [h.dropIdleEnd] at hname
  split at hname
  · cases hname
  · exact hname

theorem fileName?_dots (absolute : Bool) (front : List String) :
    (⟨absolute, front ++ [".."]⟩ : Path).fileName? = none := by
  simp [fileName?, Path.dropIdleEnd, isIdle]

/-- With another extension a path has no file name at all, or it has another one in the same
directory. -/
theorem withExtension_cases (p : Path) {extension : String} (h : 2 ≤ extension.length) :
    (p.withExtension extension).fileName? = none ∨
      ∃ name renamed, p.fileName? = some name ∧ IsName renamed ∧ p.withExtension extension =
        { p with pieces := (dropIdleEnd p.pieces).dropLast ++ [renamed] } := by
  unfold withExtension
  cases hname : p.fileName? with
  | none => exact .inl hname
  | some name =>
    simp only
    split
    · exact .inl (fileName?_dots _ _)
    · exact .inr ⟨name, _, rfl, isName_append_suffix _ h, rfl⟩

theorem place_renamed (p : Path) {renamed : String} (h : IsName renamed) :
    ({ p with pieces := (dropIdleEnd p.pieces).dropLast ++ [renamed] } : Path).place =
      p.parent.place ++ [renamed] := by
  change ((dropIdleEnd p.pieces).dropLast ++ [renamed]).foldl advance [] = _
  rw [List.foldl_append, List.foldl_cons, List.foldl_nil, h.advance]
  congr 1
  exact (foldl_advance_dropIdleEnd _ []).symm

end Path

namespace FileSystem

open Relatedness.Tree Relatedness.Path

variable {fs fs' : FileSystem} {p : Path} {bytes : Bytes}

/-! ## What stands at a path -/

/-- What a path that can be followed ends in decides whether a directory has to stand there. -/
theorem endsInName_of_locate (hfs : fs.WellFormed) {location : Location}
    (h : fs.root.locate p = .ok location) (hslash : p.endsInSlash = false)
    (hnot : fs.at? p.place ≠ some .directory) : p.EndsInName := by
  obtain ⟨hplace, _, hnamed⟩ := locate_eq_ok hfs.root h
  cases hname : location.named with
  | true => exact endsInName_iff.mpr ⟨name_of_locate h hname, hslash⟩
  | false =>
    rw [hname, hplace] at hnamed
    exact absurd hnamed hnot

/-- Something is found where a path that can be followed leads to it, and does not ask for a
directory in place of a file. -/
theorem present_iff (hfs : fs.WellFormed) :
    fs.present p = true ↔ (∃ location, fs.root.locate p = .ok location) ∧
      fs.at? p.place ≠ none ∧ ∀ id, fs.at? p.place = some (.file id) → p.endsInSlash = false := by
  unfold present find
  cases hlocate : fs.root.locate p with
  | error e => simp [bind, Except.bind]
  | ok location =>
    obtain ⟨hplace, hslash, _⟩ := locate_eq_ok hfs.root hlocate
    simp only [bind, Except.bind, hplace, hslash]
    cases hfind : fs.root.find? p.place with
    | none => simp [at?, kind?_eq_none_iff.mpr hfind]
    | some t =>
      cases t with
      | directory entries =>
        simp [at?, kind?_eq_directory_iff.mpr ⟨entries, hfind⟩, Tree.isFile, pure, Except.pure]
      | file id =>
        cases hends : p.endsInSlash <;>
          simp [at?, kind?_eq_file_iff.mpr hfind, Tree.isFile, pure, Except.pure]

/-- The path leads to a file with these bytes, once the directories that it passes are there. -/
def Carries (fs : FileSystem) (p : Path) (bytes : Bytes) : Prop :=
  p.EndsInName ∧ ∃ id, fs.at? p.place = some (.file id) ∧ fs.content id = bytes

theorem carries_of_readFile (hfs : fs.WellFormed) (h : fs.readFile p = .ok bytes) :
    fs.Carries p bytes := by
  obtain ⟨id, hopen, hcontent⟩ := readFile_eq_ok_iff.mp h
  obtain ⟨⟨location, hlocate⟩, hslash, hfile⟩ := (openFile_eq_ok_iff hfs).mp hopen
  refine ⟨endsInName_of_locate hfs hlocate hslash ?_, id, hfile, hcontent⟩
  rw [hfile]
  simp

theorem Carries.unique {bytes' : Bytes} (h : fs.Carries p bytes) (h' : fs.Carries p bytes') :
    bytes = bytes' := by
  obtain ⟨_, id, hfile, rfl⟩ := h
  obtain ⟨_, id', hfile', rfl⟩ := h'
  cases hfile.symm.trans hfile'
  rfl

/-! ## Where a path passes -/

/-- A path that can be followed passes directories up to its parent. -/
theorem way_of_locate (hfs : fs.WellFormed) {location : Location}
    (h : fs.root.locate p = .ok location) : ∀ a ∈ p.parent.way, fs.at? a = some .directory := by
  intro a ha
  cases hlast : (dropIdleEnd p.pieces).getLast? with
  | none =>
    rw [way_parent_of_idle hlast, List.mem_singleton] at ha
    rw [ha, hfs.root]
  | some last =>
    obtain ⟨between, behind, hpieces, _, _⟩ := pieces_of_getLast? hlast
    have hstep : last ≠ "" := by
      rintro rfl
      exact absurd (not_idle_getLast_dropIdleEnd hlast) (by simp [isIdle])
    have hsteps : p.steps = (p.parent.pieces ++ between).filter (· ≠ "") ++
        last :: behind.filter (· ≠ "") := by
      rw [steps, hpieces, List.filter_append, List.filter_cons_of_pos (by simpa using hstep)]
    rcases locate_cases h with ⟨hnone, _⟩ | ⟨step, above, _, hwalk, _⟩
    · simp [hsteps] at hnone
    rw [hsteps, List.dropLast_append_of_ne_nil (List.cons_ne_nil _ _), walk_append] at hwalk
    cases hwalk' : fs.root.walk [] ((p.parent.pieces ++ between).filter (· ≠ "")) with
    | error e =>
      rw [hwalk'] at hwalk
      cases hwalk
    | ok there =>
      exact ((walk_eq_ok_iff hfs.root).mp hwalk').2 a (mem_passes_append.mpr (.inl ha))

/-- Where a path can be followed, the directories above it need not be made. -/
theorem makeDirectories_of_locate (hfs : fs.WellFormed) {location : Location}
    (h : fs.root.locate p = .ok location) :
    Succeeds (DiskM.makeDirectories p.parent) fs () fs := by
  have hway := way_of_locate hfs h
  exact DiskM.makeDirectories_of_reaches hfs (fun _ => hway) (hway _ (place_mem_way _))

end FileSystem

namespace Path

open FileSystem

variable {fs : FileSystem} {p : Path}

/-- On the way to the path nothing has to be made but directories above it. -/
def Straight (p : Path) (fs : FileSystem) : Prop :=
  ∀ a ∈ p.parent.way, fs.at? a = some .directory ∨ a <+: p.place ∧ a ≠ p.place

/-- A path without two dots is straight. -/
theorem straight_of_no_dots (hfs : fs.WellFormed) (h : ".." ∉ p.pieces) : p.Straight fs := by
  intro a ha
  have hbegins : a <+: p.parent.place :=
    prefix_of_mem_passes (fun hmem => h ((pieces_parent_begin p).subset hmem)) ha
  cases hname : p.fileName? with
  | some name =>
    refine .inr ?_
    rw [(place_of_fileName? hname).2]
    refine ⟨hbegins.trans (List.prefix_append _ _), ?_⟩
    rintro rfl
    have hle := hbegins.length_le
    rw [List.length_append, List.length_singleton] at hle
    omega
  | none =>
    have hidle : (dropIdleEnd p.pieces).getLast? = none := by
      cases hlast : (dropIdleEnd p.pieces).getLast? with
      | none => rfl
      | some last =>
        obtain ⟨between, behind, hpieces, _⟩ := pieces_of_getLast? hlast
        have hdots : last = ".." := by
          unfold fileName? at hname
          rw [hlast] at hname
          split at hname
          · exact Option.some.inj ‹_›
          · cases hname
        exact absurd (by simp [hpieces, hdots]) h
    rw [way_parent_of_idle hidle, List.mem_singleton] at ha
    rw [ha, hfs.root]
    exact .inl rfl

/-- A straight path can be followed to what stands at its place. -/
theorem Straight.exists_locate (hfs : fs.WellFormed) (h : p.Straight fs)
    (hthere : fs.at? p.place ≠ none) (hend : p.EndsInName ∨ fs.at? p.place = some .directory) :
    ∃ location, fs.root.locate p = .ok location := by
  obtain ⟨kind, hkind⟩ := Option.ne_none_iff_exists'.mp hthere
  have hway : ∀ a ∈ p.parent.way, fs.at? a = some .directory := by
    intro a ha
    rcases h a ha with hdir | ⟨⟨r, hr⟩, hne⟩
    · exact hdir
    · have hrest : r ≠ [] := by
        rintro rfl
        exact hne (by rw [← hr, List.append_nil])
      exact Tree.kind?_of_append (hr ▸ hkind) hrest
  rcases hend with hend | hdir
  · obtain ⟨name, hlast, hname⟩ := (endsInName_iff.mp hend).1
    exact ⟨_, Tree.locate_of_way hfs.root hlast hname hway⟩
  · have hwalk : fs.root.walk [] p.steps = .ok p.place := by
      refine (Tree.walk_steps_iff hfs.root).mpr ⟨rfl, fun a ha => ?_⟩
      rcases mem_way_iff.mp ha with ha | rfl
      · exact hway a ha
      · exact hdir
    obtain ⟨location, hlocate, _⟩ := Tree.locate_of_walk hfs.root hwalk
    exact ⟨location, hlocate⟩

end Path

/-! ## A save that fails -/

namespace FileSystem

open Relatedness.Tree Relatedness.Path

variable {fs fs' : FileSystem} {p : Path} {bytes : Bytes}

/-- Nothing is different but that a file may have come, gone or been written at a place. -/
structure Touched (a : Place) (fs fs' : FileSystem) : Prop where
  wellFormed : fs'.WellFormed
  before : fs.at? a ≠ some .directory
  after : fs'.at? a ≠ some .directory
  others : ∀ b, b ≠ a → fs'.at? b = fs.at? b
  files : ∀ b id, b ≠ a → fs.at? b = some (.file id) → fs'.files[id]? = fs.files[id]?

theorem Touched.symm (hfs : fs.WellFormed) {a : Place} (h : fs.Touched a fs') :
    fs'.Touched a fs where
  wellFormed := hfs
  before := h.after
  after := h.before
  others b hb := (h.others b hb).symm
  files b id hb hfile := (h.files b id hb (h.others b hb ▸ hfile)).symm

theorem Touched.directory {a b : Place} (h : fs.Touched a fs') (hdir : fs.at? b = some .directory) :
    fs'.at? b = some .directory := by
  rw [h.others b fun heq => h.before (heq ▸ hdir), hdir]

theorem touched_of_writeFile (hfs : fs.WellFormed) (h : fs.writeFile p bytes = .ok fs') :
    fs.Touched p.place fs' := by
  obtain ⟨hfs', _, id, _, hat, _⟩ := writeFile_spec hfs h
  have hafter : fs'.at? p.place ≠ some .directory := by
    rw [hat, if_pos rfl]
    simp
  refine ⟨hfs', fun hdir => hafter (directory_of_writeFile hfs h hdir), hafter,
    fun b hb => by rw [hat, if_neg hb], fun b id hb hfile => file_of_writeFile hfs h hfile hb⟩

theorem Touched.removeFile {mid : FileSystem} (h : fs.Touched p.place mid)
    (hremove : mid.removeFile p = .ok fs') : fs.Touched p.place fs' := by
  obtain ⟨hfs', hfiles, _, hat⟩ := removeFile_spec h.wellFormed hremove
  refine ⟨hfs', h.before, ?_, fun b hb => ?_, fun b id hb hfile => ?_⟩
  · rw [hat, if_pos rfl]
    simp
  · rw [hat, if_neg hb, h.others b hb]
  · rw [hfiles, h.files b id hb hfile]

/-- Only under a path with a file name is a file written. -/
theorem fileName?_of_writeFile (hfs : fs.WellFormed) (h : fs.writeFile p bytes = .ok fs') :
    ∃ name, p.fileName? = some name := by
  obtain ⟨⟨location, hlocate⟩, hslash⟩ := location_of_writeFile h
  have hend := endsInName_of_locate hfs hlocate hslash (touched_of_writeFile hfs h).before
  obtain ⟨name, hlast, hname⟩ := (endsInName_iff.mp hend).1
  exact ⟨name, fileName?_of_getLast?_steps hlast hname⟩

/-- What can be opened as a file can be written. -/
theorem exists_writeFile_of_openFile (hfs : fs.WellFormed) {id : Nat} (h : fs.openFile p = .ok id)
    (bytes : Bytes) : ∃ new, fs.writeFile p bytes = .ok new := by
  have hfile := kind?_eq_file_iff.mp (at?_of_openFile hfs h)
  unfold writeFile openOrCreate
  rw [named_of_openFile hfs h]
  simp only [bind, Except.bind, Bool.false_eq_true, if_false, hfile]
  exact ⟨_, rfl⟩

/-- What was written can be removed. -/
theorem exists_removeFile_of_writeFile (hfs : fs.WellFormed) (h : fs.writeFile p bytes = .ok fs') :
    ∃ last, fs'.removeFile p = .ok last := by
  obtain ⟨hfs', _⟩ := writeFile_spec hfs h
  obtain ⟨id, hopen, _⟩ := openFile_of_writeFile hfs h
  unfold removeFile
  rw [hopen, named_of_openFile hfs' hopen]
  exact ⟨_, rfl⟩

end FileSystem

namespace Replacement

open FileSystem Relatedness.Path

variable {fs fs' : FileSystem} {p : Path} {content : Bytes} {extension : String} {e : IoError}

/-- Where a replacement of a file stops if it fails: nothing was written, or the file that was
written could not be moved. -/
theorem replaceFile_stops (hfs : fs.WellFormed) {temporary target : Path} {tidy : Bool}
    (h : Fails (replaceFile temporary target content tidy) fs e fs') :
    fs.writeFile temporary content = .error e ∧ fs' = fs ∨
      ∃ mid, fs.writeFile temporary content = .ok mid ∧ mid.move temporary target = .error e ∧
        (tidy = true ∧ mid.removeFile temporary = .ok fs' ∨ tidy = false ∧ fs' = mid) := by
  simp only [replaceFile, fails_bind, fails_tryCatch, succeeds_tryCatch, DiskM.fails_change,
    DiskM.succeeds_change, DiskM.succeeds_attempt, DiskM.fails_attempt, fails_throw, succeeds_throw,
    succeeds_bind, fails_ite, and_false, exists_false, or_false, false_or] at h
  rcases h with ⟨_, _, ⟨hwrite, rfl⟩, _, last, hremove, rfl, rfl⟩ |
    ⟨_, mid, hwrite, _, _, ⟨hmove, rfl⟩, hdone⟩
  · rcases hremove with ⟨_, hremove⟩ | ⟨_, _, heq⟩
    · obtain ⟨id, hopen, _⟩ := bind_eq_ok_iff.mp hremove
      obtain ⟨_, hok⟩ := exists_writeFile_of_openFile hfs hopen content
      cases hok.symm.trans hwrite
    · exact .inl ⟨hwrite, heq⟩
  · refine .inr ⟨_, hwrite, ?_⟩
    rcases hdone with ⟨htidy, _, last, ⟨_, hremove⟩ | ⟨_, hnot, _⟩, rfl, rfl⟩ | ⟨htidy, rfl, rfl⟩
    · exact ⟨hmove, .inl ⟨htidy, hremove⟩⟩
    · obtain ⟨_, hok⟩ := exists_removeFile_of_writeFile hfs hwrite
      cases hok.symm.trans hnot
    · exact ⟨hmove, .inr ⟨by simpa using htidy, rfl⟩⟩

/-- A file that is written under the temporary name of a path stands beside it, unless the path
cannot lead to a file. -/
theorem name_ne_of_move_error (hfs : fs.WellFormed) (hextension : 2 ≤ extension.length)
    (hwrite : fs.writeFile (p.withExtension extension) content = .ok fs')
    (hmove : fs'.move (p.withExtension extension) p = .error e) :
    ∃ name renamed, p.fileName? = some name ∧ (p.EndsInName → name ≠ renamed) ∧
      (p.withExtension extension).place = p.parent.place ++ [renamed] := by
  rcases withExtension_cases p hextension with hnone | ⟨name, renamed, hname, hrenamed, heq⟩
  · obtain ⟨_, hsome⟩ := fileName?_of_writeFile hfs hwrite
    cases hnone.symm.trans hsome
  refine ⟨name, renamed, hname, fun hend => ?_, by rw [heq, place_renamed p hrenamed]⟩
  -- the temporary name is then the path itself, and moving the file changes nothing
  rintro rfl
  have hsame : p.withExtension extension = p := by
    rw [heq, hend.dropIdleEnd, List.dropLast_append_getLast? name (hend.getLast? hname)]
  obtain ⟨hfs', _⟩ := writeFile_spec hfs hwrite
  obtain ⟨id, hopen, _⟩ := openFile_of_writeFile hfs hwrite
  rw [hsame] at hopen hmove
  have hlocate := named_of_openFile hfs' hopen
  have hok := move_same hlocate hlocate (at?_of_openFile hfs' hopen)
  cases hok.symm.trans hmove

/-- Where a file cannot be replaced, nothing is different but at the temporary name. -/
theorem touched_of_replaceFile_fails (hfs : fs.WellFormed) (hextension : 2 ≤ extension.length)
    {tidy : Bool} (h : Fails (replaceFile (p.withExtension extension) p content tidy) fs e fs') :
    fs' = fs ∨ ∃ name renamed, p.fileName? = some name ∧ (p.EndsInName → name ≠ renamed) ∧
      fs.Touched (p.parent.place ++ [renamed]) fs' := by
  rcases replaceFile_stops hfs h with ⟨_, rfl⟩ | ⟨mid, hwrite, hmove, hdone⟩
  · exact .inl rfl
  · obtain ⟨name, renamed, hname, hne, hplace⟩ := name_ne_of_move_error hfs hextension hwrite hmove
    have htouched := touched_of_writeFile hfs hwrite
    refine .inr ⟨name, renamed, hname, hne, hplace ▸ ?_⟩
    rcases hdone with ⟨_, hremove⟩ | ⟨_, rfl⟩
    · exact htouched.removeFile hremove
    · exact htouched

end Replacement

namespace FileSystem

open Relatedness.Tree Relatedness.Path

variable {fs fs' fs₁ fs₂ fs₃ : FileSystem} {p : Path} {bytes : Bytes} {name renamed : String}

/-- What stands at the path and below it is the same, down to the times of the files. -/
structure Unchanged (p : Path) (fs fs' : FileSystem) : Prop where
  present : fs'.present p = fs.present p
  within : fs.present p = true → SameWithin p.place fs fs'
  files : fs.present p = true → ∀ r id, fs.at? (p.place ++ r) = some (.file id) →
    fs'.files[id]? = fs.files[id]?

theorem Unchanged.refl (p : Path) (fs : FileSystem) : fs.Unchanged p fs :=
  ⟨rfl, fun _ _ => rfl, fun _ _ _ _ => rfl⟩

theorem Unchanged.trans (h : Unchanged p fs₁ fs₂) (h' : Unchanged p fs₂ fs₃) :
    Unchanged p fs₁ fs₃ where
  present := h'.present.trans h.present
  within hpresent := (h.within hpresent).trans (h'.within (h.present.trans hpresent))
  files hpresent r id hfile := by
    have hfile' := (h.within hpresent r).trans hfile
    rw [h'.files (h.present.trans hpresent) r id hfile', h.files hpresent r id hfile]

/-- What a path leads to is as it was. Only a path that is not straight can come to show what it
did not show before. -/
structure Kept (p : Path) (fs fs' : FileSystem) : Prop where
  directories : ∀ a, fs.at? a = some .directory → fs'.at? a = some .directory
  carries : ∀ bytes, fs'.Carries p bytes ↔ fs.Carries p bytes
  present : fs.present p = true → fs'.present p = true ∧ SameWithin p.place fs fs' ∧
    ∀ r id, fs.at? (p.place ++ r) = some (.file id) → fs'.content id = fs.content id
  absent : p.Straight fs → fs.present p = false → fs'.present p = false

theorem Kept.refl (p : Path) (fs : FileSystem) : fs.Kept p fs :=
  ⟨fun _ h => h, fun _ => .rfl, fun h => ⟨h, fun _ => rfl, fun _ _ _ => rfl⟩, fun _ h => h⟩

theorem Kept.straight (h : Kept p fs₁ fs₂) (hstraight : p.Straight fs₁) : p.Straight fs₂ :=
  fun a ha => (hstraight a ha).imp_left (h.directories a)

theorem Kept.trans (h : Kept p fs₁ fs₂) (h' : Kept p fs₂ fs₃) : Kept p fs₁ fs₃ where
  directories a ha := h'.directories a (h.directories a ha)
  carries bytes := (h'.carries bytes).trans (h.carries bytes)
  present hpresent := by
    obtain ⟨hthere, hsame, hcontents⟩ := h.present hpresent
    obtain ⟨hthere', hsame', hcontents'⟩ := h'.present hthere
    refine ⟨hthere', hsame.trans hsame', fun r id hfile => ?_⟩
    rw [hcontents' r id (by rw [hsame r, hfile]), hcontents r id hfile]
  absent hstraight habsent := h'.absent (h.straight hstraight) (h.absent hstraight habsent)

/-- What is found at a path is a directory, or the path ends in a name. -/
theorem endsInName_of_present (hfs : fs.WellFormed) (h : fs.present p = true) :
    p.EndsInName ∨ fs.at? p.place = some .directory := by
  obtain ⟨⟨location, hlocate⟩, hthere, hslash⟩ := (present_iff hfs).mp h
  cases hat : fs.at? p.place with
  | none => exact absurd hat hthere
  | some kind =>
    cases kind with
    | directory => exact .inr rfl
    | file id => exact .inl (endsInName_of_locate hfs hlocate (hslash id hat) (by rw [hat]; simp))

/-- A straight path shows what stands at its place. -/
theorem present_of_at? (hfs : fs.WellFormed) (hfs' : fs'.WellFormed) (hstraight : p.Straight fs)
    (h : fs'.present p = true) (hat : fs.at? p.place = fs'.at? p.place) : fs.present p = true := by
  obtain ⟨_, hthere, hslash⟩ := (present_iff hfs').mp h
  have hend := endsInName_of_present hfs' h
  rw [← hat] at hthere hslash hend
  exact (present_iff hfs).mpr ⟨hstraight.exists_locate hfs hthere hend, hthere, hslash⟩

/-- What is found at a path is not at another name beside it, nor below that. -/
theorem Touched.outside (hfs : fs.WellFormed) (hname : p.fileName? = some name)
    (hne : p.EndsInName → name ≠ renamed) (h : fs.Touched (p.parent.place ++ [renamed]) fs')
    (hpresent : fs.present p = true) (r : Place) : p.place ++ r ≠ p.parent.place ++ [renamed] := by
  have hplace := (place_of_fileName? hname).2
  intro heq
  rcases List.eq_nil_or_concat r with rfl | ⟨front, last, rfl⟩
  · rw [List.append_nil] at heq
    rcases endsInName_of_present hfs hpresent with hend | hdir
    · rw [hplace] at heq
      exact hne hend (by simpa using heq)
    · exact h.before (heq ▸ hdir)
  · have hlength := congrArg List.length heq
    simp [hplace] at hlength

theorem Touched.present (hfs : fs.WellFormed) (hname : p.fileName? = some name)
    (hne : p.EndsInName → name ≠ renamed) (h : fs.Touched (p.parent.place ++ [renamed]) fs')
    (hpresent : fs.present p = true) : fs'.present p = true := by
  have hsame : fs'.at? p.place = fs.at? p.place := by
    rw [← List.append_nil p.place]
    exact h.others _ (h.outside hfs hname hne hpresent [])
  obtain ⟨⟨location, hlocate⟩, hthere⟩ := (present_iff hfs).mp hpresent
  refine (present_iff h.wellFormed).mpr ⟨⟨location, locate_mono (fun _ => h.directory) hlocate⟩, ?_⟩
  rwa [hsame]

/-- A file with another name beside the path makes no difference to what stands there. -/
theorem Touched.unchanged (hfs : fs.WellFormed) (hname : p.fileName? = some name)
    (hne : p.EndsInName → name ≠ renamed) (h : fs.Touched (p.parent.place ++ [renamed]) fs') :
    fs.Unchanged p fs' where
  present := Bool.eq_iff_iff.mpr
    ⟨(h.symm hfs).present h.wellFormed hname hne, h.present hfs hname hne⟩
  within hpresent r := h.others _ (h.outside hfs hname hne hpresent r)
  files hpresent r id hfile := h.files _ id (h.outside hfs hname hne hpresent r) hfile

/-- A file with another name beside the path leaves what the path leads to. -/
theorem Touched.kept (hfs : fs.WellFormed) (hname : p.fileName? = some name)
    (hne : p.EndsInName → name ≠ renamed)
    (h : fs.Touched (p.parent.place ++ [renamed]) fs') : fs.Kept p fs' := by
  have hunchanged := h.unchanged hfs hname hne
  have hother : p.EndsInName → p.place ≠ p.parent.place ++ [renamed] := by
    intro hend heq
    rw [(place_of_fileName? hname).2] at heq
    exact hne hend (by simpa using heq)
  have hcontent : ∀ {id}, fs'.files[id]? = fs.files[id]? → fs'.content id = fs.content id :=
    fun hfile => by rw [content, content, hfile]
  refine ⟨fun _ => h.directory, fun bytes => and_congr_right fun hend => ?_, fun hpresent => ?_,
    fun _ habsent => hunchanged.present.trans habsent⟩
  · rw [h.others _ (hother hend)]
    refine exists_congr fun id => and_congr_right fun hfile => ?_
    rw [hcontent (h.files _ id (hother hend) hfile)]
  · exact ⟨hunchanged.present.trans hpresent, hunchanged.within hpresent,
      fun r id hfile => hcontent (hunchanged.files hpresent r id hfile)⟩

end FileSystem

namespace DiskM

open FileSystem Relatedness.Path

variable {fs fs' : FileSystem} {p : Path}

/-- No directory is made at the end of a straight path. -/
theorem at?_of_makeDirectories_straight (hfs : fs.WellFormed) (h : p.Straight fs) :
    (outcome (makeDirectories p.parent) fs).2.at? p.place = fs.at? p.place := by
  obtain ⟨_, _, hat⟩ := makeDirectories_addsAt hfs p.parent
  rcases hat p.place with heq | ⟨⟨q, hq, hplace⟩, hnone, _⟩
  · exact heq
  · rcases h _ (hplace ▸ mem_way_of_mem_ancestors hq) with hdir | ⟨_, hne⟩
    · cases hnone.symm.trans hdir
    · exact absurd rfl hne

/-- Making the directories above a path leaves what the path leads to. -/
theorem kept_makeDirectories (hfs : fs.WellFormed) (p : Path) :
    fs.Kept p (outcome (makeDirectories p.parent) fs).2 := by
  obtain ⟨hfs', hfiles, hat⟩ := makeDirectories_addsAt hfs p.parent
  generalize hout : (outcome (makeDirectories p.parent) fs).2 = fs' at hfs' hfiles hat
  have hkeep : ∀ a, fs.at? a ≠ none → fs'.at? a = fs.at? a := by
    intro a ha
    rcases hat a with heq | ⟨_, hnone, _⟩
    · exact heq
    · exact absurd hnone ha
  have hfile : ∀ a id, fs'.at? a = some (.file id) → fs.at? a = some (.file id) := by
    intro a id ha
    rcases hat a with heq | ⟨_, _, hdir⟩
    · rwa [← heq]
    · cases ha.symm.trans hdir
  have hcontent : ∀ id, fs'.content id = fs.content id := fun id => by
    rw [content, content, hfiles]
  refine ⟨fun a ha => by rw [hkeep a (by rw [ha]; simp), ha],
    fun bytes => and_congr_right fun _ => exists_congr fun id => ?_, fun hpresent => ?_,
    fun hstraight habsent => ?_⟩
  · rw [hcontent]
    exact and_congr_left fun _ => ⟨hfile _ id, fun ha => by rw [hkeep _ (by rw [ha]; simp), ha]⟩
  · -- what is found needs no new directories
    obtain ⟨⟨_, hlocate⟩, _⟩ := (present_iff hfs).mp hpresent
    have hmade := makeDirectories_of_locate hfs hlocate
    rw [show outcome (makeDirectories p.parent) fs = _ from hmade] at hout
    exact hout ▸ ⟨hpresent, fun _ => rfl, fun _ _ _ => rfl⟩
  · cases hpresent : fs'.present p with
    | false => rfl
    | true =>
      have hsame := at?_of_makeDirectories_straight hfs hstraight
      rw [hout] at hsame
      have hthere := present_of_at? hfs hfs' hstraight hpresent hsame.symm
      exact absurd hthere (by rw [habsent]; simp)

/-- Making the directories above a straight path makes no difference to what stands there. -/
theorem unchanged_makeDirectories (hfs : fs.WellFormed) (h : p.Straight fs) :
    fs.Unchanged p (outcome (makeDirectories p.parent) fs).2 := by
  cases hpresent : fs.present p with
  | true =>
    obtain ⟨⟨_, hlocate⟩, _⟩ := (present_iff hfs).mp hpresent
    rw [show outcome (makeDirectories p.parent) fs = _ from makeDirectories_of_locate hfs hlocate]
    exact .refl p fs
  | false =>
    have habsent := (kept_makeDirectories hfs p).absent h hpresent
    refine ⟨habsent.trans hpresent.symm, fun hthere => ?_, fun hthere => ?_⟩ <;>
      cases hpresent.symm.trans hthere

end DiskM

namespace Replacement

open FileSystem Relatedness.Path

variable {fs fs' : FileSystem} {p : Path} {content : Bytes} {extension : String}

/-- A save that fails leaves what the path leads to. -/
theorem kept_of_save_fails (hfs : fs.WellFormed) (hextension : 2 ≤ extension.length) {e : IoError}
    (h : Fails (do
      DiskM.makeDirectories p.parent
      replaceFile (p.withExtension extension) p content false) fs e fs') :
    fs'.WellFormed ∧ fs.Kept p fs' := by
  have hmade := DiskM.kept_makeDirectories hfs p
  have hmid := (DiskM.makeDirectories_adds hfs p.parent).1
  rcases fails_bind.mp h with h | ⟨_, mid, hmake, h⟩
  · rw [show outcome (DiskM.makeDirectories p.parent) fs = _ from h] at hmade hmid
    exact ⟨hmid, hmade⟩
  · rw [show outcome (DiskM.makeDirectories p.parent) fs = _ from hmake] at hmade hmid
    rcases touched_of_replaceFile_fails hmid hextension h with rfl |
      ⟨name, renamed, hname, hne, htouched⟩
    · exact ⟨hmid, hmade⟩
    · exact ⟨htouched.wellFormed, hmade.trans (htouched.kept hmid hname hne)⟩

/-- A save that succeeds can be read through the path. -/
theorem readFile_of_save (hfs : fs.WellFormed) {u : Unit}
    (h : Succeeds (do
      DiskM.makeDirectories p.parent
      replaceFile (p.withExtension extension) p content false) fs u fs') :
    fs'.WellFormed ∧ fs'.readFile p = .ok content := by
  obtain ⟨_, mid, hmake, h⟩ := succeeds_bind.mp h
  obtain ⟨hmid, _⟩ := DiskM.makeDirectories_spec hfs hmake
  exact ⟨(replaceFile_spec hmid h).1, readFile_of_replaceFile hmid h⟩

/-- A save leaves the files that stand neither at the path nor at its temporary name. -/
theorem openFile_of_save (hfs : fs.WellFormed) {u : Unit}
    (h : Succeeds (do
      DiskM.makeDirectories p.parent
      replaceFile (p.withExtension extension) p content false) fs u fs')
    {q : Path} {id : Nat} (hopen : fs.openFile q = .ok id) (hne : q.place ≠ p.place)
    (htemporary : q.place ≠ (p.withExtension extension).place) :
    fs'.openFile q = .ok id ∧ fs'.files[id]? = fs.files[id]? := by
  obtain ⟨⟨location, hlocate⟩, hslash, hfile⟩ := (openFile_eq_ok_iff hfs).mp hopen
  obtain ⟨_, mid, hmake, hreplace⟩ := succeeds_bind.mp h
  obtain ⟨hmid, hfiles, hat⟩ := DiskM.makeDirectories_spec hfs hmake
  have hkeep : ∀ {a kind}, fs.at? a = some kind → mid.at? a = some kind := by
    intro a kind ha
    rcases hat a with heq | ⟨hnone, _⟩
    · rw [heq, ha]
    · cases ha.symm.trans hnone
  obtain ⟨hfs', _, _, _, hothers, _⟩ := replaceFile_spec hmid hreplace
  simp only [replaceFile, succeeds_bind, succeeds_tryCatch, DiskM.succeeds_change, succeeds_throw,
    succeeds_ite, exists_false, and_false, or_false] at hreplace
  obtain ⟨_, written, hwrite, hmove⟩ := hreplace
  obtain ⟨hwritten, _, source, _, hwrittenAt, _⟩ := writeFile_spec hmid hwrite
  have hsource : written.at? (p.withExtension extension).place = some (.file source) := by
    rw [hwrittenAt, if_pos rfl]
  have hthere : fs'.at? q.place = some (.file id) := by
    rw [hothers _ htemporary hne, hkeep hfile]
  refine ⟨(openFile_eq_ok_iff hfs').mpr
    ⟨⟨location, Tree.locate_mono (fun a ha => ?_) hlocate⟩, hslash, hthere⟩, ?_⟩
  · exact directory_of_move hwritten hmove hsource (directory_of_writeFile hmid hwrite (hkeep ha))
  · rw [(move_spec hwritten hmove).2.1, file_of_writeFile hmid hwrite (hkeep hfile) htemporary,
      hfiles]

end Replacement
end Relatedness
