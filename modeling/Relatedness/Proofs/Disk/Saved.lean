import Relatedness.Proofs.Disk.Transaction

/-! What a path reads after a file was saved under it. A file is read through a path that can be
followed to its place; saving one takes no directory away, so every path that could be followed
still can. -/

namespace Relatedness

namespace Tree

open Location

variable {root root' : Tree} {p : Path}

/-- Steps can still be followed where no directory is missing. -/
theorem walk_mono (h : ∀ a, root.kind? a = some .directory → root'.kind? a = some .directory)
    {here there : Place} {steps : List String} (hwalk : root.walk here steps = .ok there) :
    root'.walk here steps = .ok there := by
  induction steps generalizing here with
  | nil => exact hwalk
  | cons step rest ih =>
    rw [walk] at hwalk ⊢
    cases hdots : dots? here step with
    | some next =>
      rw [hdots] at hwalk
      exact ih hwalk
    | none =>
      rw [hdots] at hwalk
      simp only at hwalk ⊢
      split at hwalk
      · rename_i entries hfind
        obtain ⟨entries', hfind'⟩ :=
          kind?_eq_directory_iff.mp (h _ (kind?_eq_directory_iff.mpr ⟨entries, hfind⟩))
        rw [hfind']
        exact ih hwalk
      · cases hwalk
      · cases hwalk

theorem locate_mono (h : ∀ a, root.kind? a = some .directory → root'.kind? a = some .directory)
    {location : Location} (hlocate : root.locate p = .ok location) :
    root'.locate p = .ok location := by
  rcases locate_cases hlocate with ⟨hnone, rfl⟩ | ⟨step, above, hlast, hwalk, hlocation⟩
  · unfold locate
    rw [hnone]
    rfl
  · unfold locate
    rw [hlast, walk_mono h hwalk]
    simp only [bind, Except.bind]
    rcases hlocation with ⟨there, hdots, rfl⟩ | ⟨hdots, rfl⟩
    · rw [hdots]
      rfl
    · rw [hdots]
      rfl

end Tree

namespace FileSystem

open Relatedness.Tree Relatedness.Path

variable {fs fs' : FileSystem} {p q : Path} {id : Nat}

/-- A file is opened where a path that can be followed, and does not ask for a directory, leads
to it. -/
theorem openFile_eq_ok_iff (hfs : fs.WellFormed) :
    fs.openFile p = .ok id ↔ (∃ location, fs.root.locate p = .ok location) ∧
      p.endsInSlash = false ∧ fs.at? p.place = some (.file id) := by
  constructor
  · intro h
    have hfile := at?_of_openFile hfs h
    obtain ⟨t, hfind, h⟩ := bind_eq_ok_iff.mp h
    cases t with
    | directory entries => cases h
    | file other =>
      obtain ⟨location, hlocate, _⟩ := bind_eq_ok_iff.mp hfind
      exact ⟨⟨location, hlocate⟩, (find_eq_ok hfs hfind).2 rfl, hfile⟩
  · intro h
    obtain ⟨⟨location, hlocate⟩, hslash, hfile⟩ := h
    obtain ⟨hplace, hends, _⟩ := locate_eq_ok hfs.root hlocate
    unfold openFile find
    rw [hlocate]
    simp only [bind, Except.bind, hplace, hends, hslash, kind?_eq_file_iff.mp hfile]
    rfl

theorem readFile_eq_ok_iff {bytes : Bytes} :
    fs.readFile p = .ok bytes ↔ ∃ id, fs.openFile p = .ok id ∧ fs.content id = bytes := by
  simp only [readFile, bind_eq_ok_iff, pure, Except.pure, Except.ok.injEq]

/-- The bytes of a file may become any others while everything stays where it is. -/
theorem WellFormed.exists_readFile_eq (hfs : fs.WellFormed) {bytes : Bytes}
    (h : fs.readFile p = .ok bytes) (other : Bytes) : ∃ changed : FileSystem, changed.WellFormed ∧ changed.root = fs.root ∧
      changed.readFile p = .ok other := by
  obtain ⟨id, hopen, _⟩ := readFile_eq_ok_iff.mp h
  have hcontent := content_setContent_self (hfs.allocated (at?_of_openFile hfs hopen)) other
  exact ⟨fs.setContent id other, hfs.setContent id other, rfl,
    readFile_eq_ok_iff.mpr ⟨id, hopen, hcontent⟩⟩

theorem versionToken_of_openFile (h : fs.openFile p = .ok id) : fs.versionToken p =
    .ok (UInt64.ofNat ((fs.files[id]?.map File.modified).getD 0).toNat) := by
  obtain ⟨t, hfind, h⟩ := bind_eq_ok_iff.mp h
  cases t with
  | directory entries => cases h
  | file other =>
    cases h
    unfold versionToken modified
    rw [hfind]
    rfl

/-- A path that leads to a file ends in a name. -/
theorem named_of_openFile (hfs : fs.WellFormed) (h : fs.openFile p = .ok id) :
    fs.root.locate p = .ok ⟨p.place, true, false⟩ := by
  obtain ⟨⟨location, hlocate⟩, hslash, hfile⟩ := (openFile_eq_ok_iff hfs).mp h
  obtain ⟨hplace, hends, hnamed⟩ := locate_eq_ok hfs.root hlocate
  obtain ⟨place, named, slash⟩ := location
  simp only at hplace hends hnamed
  subst hplace
  cases named with
  | true => rw [hlocate, hends, hslash]
  | false => cases hfile.symm.trans hnamed

/-! ## Moving a file -/

/-- A file that is moved to where it stands stays. -/
theorem move_same {a : Place} (hp : fs.root.locate p = .ok ⟨a, true, false⟩)
    (hq : fs.root.locate q = .ok ⟨a, true, false⟩) (hfile : fs.at? a = some (.file id)) :
    fs.move p q = .ok fs := by
  unfold move
  rw [hp, hq]
  simp only [bind, Except.bind, Bool.and_self, if_true, kind?_eq_file_iff.mp hfile, Bool.or_self,
    Bool.and_false, Bool.false_eq_true, if_false]
  rfl

/-- A file can be moved to a place apart where no directory stands. -/
theorem exists_move_of_apart {start goal : Place}
    (hstart : fs.root.locate p = .ok ⟨start, true, false⟩)
    (hgoal : fs.root.locate q = .ok ⟨goal, true, false⟩) (hapart : Place.Apart start goal)
    (hsource : fs.at? start = some (.file id)) (hnot : fs.at? goal ≠ some .directory) :
    ∃ fs', fs.move p q = .ok fs' := by
  have hne : start ≠ goal := by
    rintro rfl
    exact hapart.1 List.prefix_rfl
  obtain ⟨hapart, hapart'⟩ := hapart
  rw [← List.isPrefixOf_iff_prefix] at hapart hapart'
  unfold move
  rw [hstart, hgoal]
  simp only [bind, Except.bind, Bool.and_self, if_true, kind?_eq_file_iff.mp hsource, Bool.or_self,
    Bool.and_false, Bool.false_eq_true, if_false, if_neg hne, if_neg hapart, if_neg hapart']
  cases hfind : fs.root.find? goal with
  | none => exact ⟨_, rfl⟩
  | some t =>
    cases t with
    | file other => exact ⟨_, rfl⟩
    | directory entries => exact absurd (kind?_eq_directory_iff.mpr ⟨entries, hfind⟩) hnot

/-- A file does not take the place of a directory. -/
theorem not_directory_of_move (hfs : fs.WellFormed) (h : fs.move p q = .ok fs')
    (hfile : fs.at? p.place = some (.file id)) : fs.at? q.place ≠ some .directory := by
  intro hdir
  obtain ⟨entries, hgoal⟩ := kind?_eq_directory_iff.mp hdir
  have hsource := kind?_eq_file_iff.mp hfile
  obtain ⟨start, goal, _, hstart, hgoal', hstartNamed, hgoalNamed, _⟩ := move_cases h
  have hp := (locate_eq_ok hfs.root hstart).1
  have hq := (locate_eq_ok hfs.root hgoal').1
  have hne : p.place ≠ q.place := by
    intro heq
    rw [heq, hdir] at hfile
    cases hfile
  unfold move at h
  rw [hstart, hgoal'] at h
  simp only [bind, Except.bind, hstartNamed, hgoalNamed, Bool.and_self, if_true, hp, hq, hsource,
    hgoal, if_neg hne] at h
  split at h
  · cases h
  split at h
  · cases h
  split at h
  · cases h
  · cases h

/-- A file is not moved under a path that asks for a directory. -/
theorem slash_of_move (hfs : fs.WellFormed) (h : fs.move p q = .ok fs')
    (hfile : fs.at? p.place = some (.file id)) : p.endsInSlash = false ∧ q.endsInSlash = false := by
  obtain ⟨start, goal, _, hstart, hgoal, hstartNamed, hgoalNamed, _⟩ := move_cases h
  obtain ⟨hp, hpslash, _⟩ := locate_eq_ok hfs.root hstart
  obtain ⟨_, hqslash, _⟩ := locate_eq_ok hfs.root hgoal
  unfold move at h
  rw [hstart, hgoal] at h
  simp only [bind, Except.bind, hstartNamed, hgoalNamed, Bool.and_self, if_true, hp,
    kind?_eq_file_iff.mp hfile, hpslash, hqslash] at h
  split at h
  · cases h
  · rename_i hslash
    simpa [Tree.isFile] using hslash

/-- Moving a file takes no directory away. -/
theorem directory_of_move (hfs : fs.WellFormed) (h : fs.move p q = .ok fs')
    (hfile : fs.at? p.place = some (.file id)) {a : Place} (ha : fs.at? a = some .directory) :
    fs'.at? a = some .directory := by
  have hnot := not_directory_of_move hfs h hfile
  obtain ⟨_, _, _, ⟨_, rfl⟩ | ⟨_, _, _, _, _, houtside⟩⟩ := move_spec hfs h
  · exact ha
  rw [houtside, ha]
  · intro hpre
    cases hfile.symm.trans (at?_of_begins ha hpre)
  · exact fun hpre => hnot (at?_of_begins ha hpre)

/-! ## Writing a file -/

theorem directory_of_writeFile (hfs : fs.WellFormed) {bytes : Bytes}
    (h : fs.writeFile p bytes = .ok fs') {a : Place} (ha : fs.at? a = some .directory) :
    fs'.at? a = some .directory := by
  obtain ⟨_, _, id, hid, hat, _⟩ := writeFile_spec hfs h
  rw [hat, if_neg, ha]
  rintro rfl
  obtain ⟨⟨_, mid⟩, hopen, _⟩ := bind_eq_ok_iff.mp h
  rcases openOrCreate_eq_ok hfs hopen with ⟨hfile, _⟩ | ⟨hnone, _⟩
  · cases ha.symm.trans hfile
  · cases ha.symm.trans hnone

/-- What is written has a path that can be followed and does not ask for a directory. -/
theorem location_of_writeFile {bytes : Bytes} (h : fs.writeFile p bytes = .ok fs') :
    (∃ location, fs.root.locate p = .ok location) ∧ p.endsInSlash = false := by
  unfold writeFile openOrCreate at h
  cases hlocate : fs.root.locate p with
  | error e =>
    rw [hlocate] at h
    cases h
  | ok location =>
    rw [hlocate] at h
    simp only [bind, Except.bind] at h
    refine ⟨⟨location, rfl⟩, ?_⟩
    have hslash : location.slash = p.endsInSlash := by
      rcases locate_cases hlocate with ⟨_, rfl⟩ | ⟨_, _, _, _, ⟨_, _, rfl⟩ | ⟨_, rfl⟩⟩ <;> rfl
    cases hends : p.endsInSlash with
    | false => rfl
    | true =>
      rw [hslash, hends] at h
      cases h

/-- The file at another place has not been touched. -/
theorem file_of_writeFile (hfs : fs.WellFormed) {bytes : Bytes}
    (h : fs.writeFile p bytes = .ok fs') {a : Place} (ha : fs.at? a = some (.file id))
    (hne : a ≠ p.place) : fs'.files[id]? = fs.files[id]? := by
  have hlt := hfs.allocated ha
  obtain ⟨⟨written, mid⟩, hopen, h⟩ := bind_eq_ok_iff.mp h
  cases h
  rcases openOrCreate_eq_ok hfs hopen with ⟨hat, rfl⟩ | ⟨_, rfl, _, hfiles⟩
  · refine Array.getElem?_setIfInBounds_ne ?_
    rintro rfl
    exact hne (hfs.distinct ha hat)
  · have hsame : mid.files[id]? = fs.files[id]? := by
      rw [hfiles, Array.getElem?_push, if_neg (by omega)]
    rw [← hsame]
    exact Array.getElem?_setIfInBounds_ne (by omega)

/-- A file that was written can be opened. -/
theorem openFile_of_writeFile (hfs : fs.WellFormed) {bytes : Bytes}
    (h : fs.writeFile p bytes = .ok fs') :
    ∃ id, fs'.openFile p = .ok id ∧ fs'.content id = bytes := by
  obtain ⟨hfs', _, id, _, hat, hcontent, _⟩ := writeFile_spec hfs h
  obtain ⟨⟨location, hlocate⟩, hslash⟩ := location_of_writeFile h
  refine ⟨id, (openFile_eq_ok_iff hfs').mpr ⟨⟨location, ?_⟩, hslash, by rw [hat, if_pos rfl]⟩,
    hcontent⟩
  exact locate_mono (fun _ ha => directory_of_writeFile hfs h ha) hlocate

end FileSystem

/-! ## Replacing a file -/

namespace Replacement

open FileSystem

variable {fs fs' : FileSystem} {temporary target : Path} {content : Bytes} {tidy : Bool}

/-- A replaced file can be read through the path that it was saved under. -/
theorem readFile_of_replaceFile (hfs : fs.WellFormed) {u : Unit}
    (h : Succeeds (replaceFile temporary target content tidy) fs u fs') :
    fs'.readFile target = .ok content := by
  obtain ⟨hfs', _, ⟨id, hfile, hcontent⟩, _⟩ := replaceFile_spec hfs h
  simp only [replaceFile, succeeds_bind, succeeds_tryCatch, DiskM.succeeds_change, succeeds_throw,
    succeeds_ite, exists_false, and_false, or_false] at h
  obtain ⟨_, mid, hwrite, hmove⟩ := h
  obtain ⟨hmid, _, source, _, hat, _⟩ := writeFile_spec hfs hwrite
  have hsource : mid.at? temporary.place = some (.file source) := by rw [hat, if_pos rfl]
  obtain ⟨_, hslash⟩ := slash_of_move hmid hmove hsource
  obtain ⟨_, goal, _, _, hgoal, _⟩ := move_cases hmove
  refine readFile_eq_ok_iff.mpr ⟨id, (openFile_eq_ok_iff hfs').mpr ⟨⟨goal, ?_⟩, hslash, hfile⟩,
    hcontent⟩
  exact Tree.locate_mono (fun _ ha => directory_of_move hmid hmove hsource ha) hgoal

end Replacement
end Relatedness
