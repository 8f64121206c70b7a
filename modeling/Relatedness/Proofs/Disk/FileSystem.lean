import Relatedness.Proofs.Disk.Path

/-! What the operations on files do when they succeed, place by place. A file system is seen
through `at?`, which says what stands at a place, and through the contents of its files. -/

namespace Relatedness.FileSystem

open Relatedness.Tree

/-- What stands at a place. -/
def at? (fs : FileSystem) (p : Place) : Option Kind := fs.root.kind? p

/-- The root is a directory, every file in the tree has been created, and no two places share
a file. -/
structure WellFormed (fs : FileSystem) : Prop where
  root : fs.at? [] = some .directory
  allocated : ∀ {p id}, fs.at? p = some (.file id) → id < fs.files.size
  distinct : ∀ {p q id}, fs.at? p = some (.file id) → fs.at? q = some (.file id) → p = q

theorem WellFormed.empty (clock : Nat) : (empty clock).WellFormed := by
  have hat : ∀ p, (FileSystem.empty clock).at? p = if p = [] then some .directory else none := by
    intro p
    cases p <;> rfl
  refine ⟨rfl, ?_, ?_⟩
  · intro p id h
    rw [hat] at h
    split at h <;> cases h
  · intro p q id h
    rw [hat] at h
    split at h <;> cases h

variable {fs fs' : FileSystem} {p q : Path}

/-! ## Looking -/

/-- A located path that leads to nothing leads to a name in a directory. -/
theorem above_of_locate (hfs : fs.WellFormed) {location : Location}
    (h : fs.root.locate p = .ok location) (hnone : fs.at? p.place = none) :
    ∃ above name, p.place = above ++ [name] ∧ fs.at? above = some .directory := by
  obtain ⟨hplace, _, hnamed⟩ := locate_eq_ok hfs.root h
  split at hnamed
  · rwa [hplace] at hnamed
  · rw [hplace] at hnamed
    exact absurd (hnone.symm.trans hnamed) (by simp)

theorem find_eq_ok (hfs : fs.WellFormed) {t : Tree} (h : fs.find p = .ok t) :
    fs.root.find? p.place = some t ∧ (t.isFile = true → p.endsInSlash = false) := by
  unfold find at h
  cases hloc : fs.root.locate p with
  | error e =>
    rw [hloc] at h
    cases h
  | ok location =>
    obtain ⟨hplace, hslash, _⟩ := locate_eq_ok hfs.root hloc
    rw [hloc] at h
    simp only [bind, Except.bind, hplace, hslash] at h
    cases hfind : fs.root.find? p.place with
    | none =>
      rw [hfind] at h
      cases h
    | some u =>
      rw [hfind] at h
      simp only at h
      by_cases hfile : (u.isFile && p.endsInSlash) = true
      · rw [if_pos hfile] at h
        cases h
      · rw [if_neg hfile] at h
        cases h
        refine ⟨rfl, fun hu => ?_⟩
        simpa [hu] using hfile

theorem isFile_of_openFile {id : Nat} (h : fs.openFile p = .ok id) : fs.isFile p = true := by
  unfold openFile at h
  unfold isFile
  cases hfind : fs.find p with
  | error cause =>
    rw [hfind] at h
    cases h
  | ok t =>
    rw [hfind] at h
    cases t with
    | file other => rfl
    | directory _ => cases h

theorem at?_of_openFile (hfs : fs.WellFormed) {id : Nat} (h : fs.openFile p = .ok id) :
    fs.at? p.place = some (.file id) := by
  unfold openFile at h
  cases hfind : fs.find p with
  | error e =>
    rw [hfind] at h
    cases h
  | ok t =>
    rw [hfind] at h
    cases t with
    | directory entries => cases h
    | file id' =>
      cases h
      exact kind?_eq_file_iff.mpr (find_eq_ok hfs hfind).1

theorem openFile_of_root_eq (h : fs'.root = fs.root) : fs'.openFile p = fs.openFile p := by
  unfold openFile find
  rw [h]

/-- A file found in a directory is opened for writing as it is, and the directory is there. -/
theorem of_openFile_child (hfs : fs.WellFormed) {name : String} (hname : Path.IsName name) {id : Nat}
    (h : fs.openFile (p.child name) = .ok id) :
    fs.isDirectory p = true ∧ (∃ e, fs.makeDirectory p = .error e) ∧
      fs.openOrCreate (p.child name) = .ok (id, fs) := by
  unfold openFile find at h
  rw [locate_child hname] at h
  cases hwalk : fs.root.walk [] p.steps with
  | error e =>
    rw [hwalk] at h
    cases h
  | ok above =>
    rw [hwalk] at h
    obtain ⟨location, hloc, hplace, hdir⟩ := locate_of_walk hfs.root hwalk
    obtain ⟨entries, hfind⟩ := kind?_eq_directory_iff.mp hdir
    have hfound : fs.find p = .ok (.directory entries) := by
      unfold find
      rw [hloc]
      simp only [bind, Except.bind, hplace, hfind]
      rfl
    refine ⟨?_, ⟨.alreadyExists, ?_⟩, ?_⟩
    · unfold isDirectory
      rw [hfound]
      rfl
    · unfold makeDirectory
      rw [hloc]
      simp only [bind, Except.bind, hplace, hfind]
      rfl
    · simp only [Except.map, bind, Except.bind] at h
      unfold openOrCreate
      rw [locate_child hname, hwalk]
      simp only [Except.map, bind, Except.bind]
      cases hfile : fs.root.find? (above ++ [name]) with
      | none =>
        rw [hfile] at h
        cases h
      | some t =>
        rw [hfile] at h
        cases t with
        | directory inner => cases h
        | file other =>
          cases h
          rfl

/-! ## Contents -/

@[simp] theorem at?_setContent (id : Nat) (bytes : Bytes) (a : Place) :
    (fs.setContent id bytes).at? a = fs.at? a := rfl

theorem content_setContent_self {id : Nat} (h : id < fs.files.size) (bytes : Bytes) :
    (fs.setContent id bytes).content id = bytes := by
  simp [setContent, hold, content, h]

theorem content_setContent_ne {id other : Nat} (h : other ≠ id) (bytes : Bytes) :
    (fs.setContent id bytes).content other = fs.content other := by
  simp [setContent, hold, content, Array.getElem?_setIfInBounds_ne (Ne.symm h)]

@[simp] theorem size_files_setContent (id : Nat) (bytes : Bytes) :
    (fs.setContent id bytes).files.size = fs.files.size := by
  simp [setContent, hold]

theorem WellFormed.setContent (hfs : fs.WellFormed) (id : Nat) (bytes : Bytes) :
    (fs.setContent id bytes).WellFormed where
  root := hfs.root
  allocated h := by
    rw [size_files_setContent]
    exact hfs.allocated h
  distinct := hfs.distinct

/-- A file that has not been created yet has no content. -/
theorem WellFormed.of_root_eq (hfs : fs.WellFormed) (hroot : fs'.root = fs.root)
    (hsize : fs'.files.size = fs.files.size) : fs'.WellFormed := by
  have hat : ∀ a, fs'.at? a = fs.at? a := fun a => by rw [at?, at?, hroot]
  refine ⟨by rw [hat, hfs.root], fun h => ?_, fun h h' => ?_⟩
  · rw [hsize]
    exact hfs.allocated (hat _ ▸ h)
  · exact hfs.distinct (hat _ ▸ h) (hat _ ▸ h')

theorem content_of_size_le {id : Nat} (h : fs.files.size ≤ id) : fs.content id = [] := by
  simp [content, Array.getElem?_eq_none h]

/-! ## Creating -/

/-- Opening a file for writing either finds it or creates the next file, empty, at a place
where nothing stood. -/
theorem openOrCreate_eq_ok (hfs : fs.WellFormed) {id : Nat} (h : fs.openOrCreate p = .ok (id, fs')) :
    (fs.at? p.place = some (.file id) ∧ fs' = fs) ∨
      (fs.at? p.place = none ∧ id = fs.files.size ∧
        (∀ a, fs'.at? a = if a = p.place then some (.file id) else fs.at? a) ∧
        fs'.files = fs.files.push ⟨.ofBytes [], fs.clock⟩) := by
  unfold openOrCreate at h
  cases hloc : fs.root.locate p with
  | error e =>
    rw [hloc] at h
    cases h
  | ok location =>
    obtain ⟨hplace, _, _⟩ := locate_eq_ok hfs.root hloc
    rw [hloc] at h
    simp only [bind, Except.bind, hplace] at h
    split at h
    · cases h
    · cases hfind : fs.root.find? p.place with
      | some t =>
        rw [hfind] at h
        cases t with
        | directory entries => cases h
        | file id' =>
          cases h
          exact .inl ⟨kind?_eq_file_iff.mpr hfind, rfl⟩
      | none =>
        rw [hfind] at h
        cases h
        have hnone : fs.at? p.place = none := kind?_eq_none_iff.mpr hfind
        obtain ⟨above, name, heq, habove⟩ := above_of_locate hfs hloc hnone
        refine .inr ⟨hnone, rfl, fun a => ?_, rfl⟩
        have hleaf : ∀ r, r ≠ [] → (Tree.file fs.files.size).kind? r = none :=
          fun r hr => kind?_append_eq_none (p := []) (by simp [kind?, kind]) hr
        rw [heq] at hnone ⊢
        exact kind?_put_leaf habove hnone hleaf a

theorem openOrCreate_wellFormed (hfs : fs.WellFormed) {id : Nat}
    (h : fs.openOrCreate p = .ok (id, fs')) : fs'.WellFormed := by
  rcases openOrCreate_eq_ok hfs h with ⟨_, rfl⟩ | ⟨hnone, rfl, hat, hfiles⟩
  · exact hfs
  · have hold : ∀ {a id}, fs'.at? a = some (.file id) →
        (a = p.place ∧ id = fs.files.size) ∨ (fs.at? a = some (.file id) ∧ id < fs.files.size) := by
      intro a id ha
      rw [hat] at ha
      split at ha
      · rename_i heq
        simp only [Option.some.injEq, Kind.file.injEq] at ha
        exact .inl ⟨heq, ha.symm⟩
      · exact .inr ⟨ha, hfs.allocated ha⟩
    refine ⟨?_, ?_, ?_⟩
    · rw [hat, if_neg ?_]
      · exact hfs.root
      · intro heq
        rw [← heq, hfs.root] at hnone
        cases hnone
    · intro a id ha
      rw [hfiles, Array.size_push]
      rcases hold ha with ⟨_, rfl⟩ | ⟨_, hlt⟩ <;> omega
    · intro a b id ha hb
      rcases hold ha with ⟨rfl, hida⟩ | ⟨ha', hlta⟩ <;> rcases hold hb with ⟨rfl, hidb⟩ | ⟨hb', hltb⟩
      · rfl
      · omega
      · omega
      · exact hfs.distinct ha' hb'

/-- An opened file stands at its place; everything else stands where it stood, with the content
that it had. -/
theorem openOrCreate_spec (hfs : fs.WellFormed) {id : Nat}
    (h : fs.openOrCreate p = .ok (id, fs')) :
    fs'.WellFormed ∧ (∀ a, fs'.at? a = if a = p.place then some (.file id) else fs.at? a) ∧
      (∀ other, fs'.content other = fs.content other) ∧ fs.files.size ≤ fs'.files.size ∧
      (fs.at? p.place = some (.file id) ∨ id = fs.files.size) := by
  refine ⟨openOrCreate_wellFormed hfs h, ?_⟩
  rcases openOrCreate_eq_ok hfs h with ⟨hat, rfl⟩ | ⟨_, rfl, hat, hfiles⟩
  · refine ⟨fun a => ?_, fun _ => rfl, Nat.le_refl _, .inl hat⟩
    split
    · rename_i heq
      rw [heq, hat]
    · rfl
  · refine ⟨hat, fun other => ?_, ?_, .inr rfl⟩
    · simp only [content, hfiles, Array.getElem?_push]
      split
      · rename_i heq
        simp [heq]
      · rfl
    · rw [hfiles, Array.size_push]
      omega

/-- What is known after a file was written. Only the file at the place has a new content. -/
theorem writeFile_spec (hfs : fs.WellFormed) {bytes : Bytes}
    (h : fs.writeFile p bytes = .ok fs') :
    fs'.WellFormed ∧ fs.files.size ≤ fs'.files.size ∧
      ∃ id, (fs.at? p.place = some (.file id) ∨ id = fs.files.size) ∧
        (∀ a, fs'.at? a = if a = p.place then some (.file id) else fs.at? a) ∧
        fs'.content id = bytes ∧ ∀ other, other ≠ id → fs'.content other = fs.content other := by
  unfold writeFile at h
  cases hopen : fs.openOrCreate p with
  | error e =>
    rw [hopen] at h
    cases h
  | ok r =>
    obtain ⟨id, mid⟩ := r
    rw [hopen] at h
    cases h
    obtain ⟨hmid, hat, hcontent, hsize, hid⟩ := openOrCreate_spec hfs hopen
    have hlt : id < mid.files.size := hmid.allocated (p := p.place) (by rw [hat, if_pos rfl])
    refine ⟨hmid.setContent id bytes, by simpa using hsize, id, hid, hat,
      content_setContent_self hlt bytes, fun other hne => ?_⟩
    rw [content_setContent_ne hne, hcontent]

theorem makeDirectory_spec (hfs : fs.WellFormed) (h : fs.makeDirectory p = .ok fs') :
    fs'.WellFormed ∧ fs.at? p.place = none ∧ fs'.files = fs.files ∧
      ∀ a, fs'.at? a = if a = p.place then some .directory else fs.at? a := by
  unfold makeDirectory at h
  cases hloc : fs.root.locate p with
  | error e =>
    rw [hloc] at h
    cases h
  | ok location =>
    obtain ⟨hplace, _, _⟩ := locate_eq_ok hfs.root hloc
    rw [hloc] at h
    simp only [bind, Except.bind, hplace] at h
    cases hfind : fs.root.find? p.place with
    | some t =>
      rw [hfind] at h
      cases h
    | none =>
      rw [hfind] at h
      cases h
      have hnone : fs.at? p.place = none := kind?_eq_none_iff.mpr hfind
      obtain ⟨above, name, heq, habove⟩ := above_of_locate hfs hloc hnone
      have hat : ∀ a, (fs.root.put p.place (.directory [])).kind? a =
          if a = p.place then some .directory else fs.at? a := by
        intro a
        have hleaf : ∀ r, r ≠ [] → (Tree.directory []).kind? r = none := by
          intro r hr
          obtain ⟨next, rest, rfl⟩ := List.exists_cons_of_ne_nil hr
          rfl
        rw [heq] at hnone ⊢
        exact kind?_put_leaf habove hnone hleaf a
      refine ⟨⟨?_, ?_, ?_⟩, hnone, rfl, hat⟩
      · change (fs.root.put p.place (.directory [])).kind? [] = _
        rw [hat]
        split
        · rfl
        · exact hfs.root
      · intro a id ha
        replace ha := (hat a).symm.trans ha
        split at ha
        · cases ha
        · exact hfs.allocated ha
      · intro a b id ha hb
        replace ha := (hat a).symm.trans ha
        replace hb := (hat b).symm.trans hb
        split at ha
        · cases ha
        · split at hb
          · cases hb
          · exact hfs.distinct ha hb

/-! ## Removing and moving -/

/-- Taking a tree out of the root keeps a file system well-formed. -/
theorem WellFormed.erase (hfs : fs.WellFormed) {a : Place} (ha : a ≠ []) :
    ({ fs with root := fs.root.erase a } : FileSystem).WellFormed := by
  have hsub : ∀ {b id}, (fs.root.erase a).kind? b = some (.file id) →
      fs.at? b = some (.file id) := by
    intro b id h
    by_cases hpre : a <+: b
    · obtain ⟨r, rfl⟩ := hpre
      rw [kind?_erase_append ha] at h
      cases h
    · rwa [kind?_erase_outside hpre] at h
  refine ⟨?_, fun h => hfs.allocated (hsub h), fun h h' => hfs.distinct (hsub h) (hsub h')⟩
  have hnot : ¬a <+: [] := fun h => ha (List.prefix_nil.mp h)
  exact (kind?_erase_outside hnot _).trans hfs.root

theorem removeFile_spec (hfs : fs.WellFormed) (h : fs.removeFile p = .ok fs') :
    fs'.WellFormed ∧ fs'.files = fs.files ∧ (∃ id, fs.at? p.place = some (.file id)) ∧
      ∀ a, fs'.at? a = if a = p.place then none else fs.at? a := by
  unfold removeFile at h
  cases hopen : fs.openFile p with
  | error e =>
    rw [hopen] at h
    cases h
  | ok id =>
    have hfile := at?_of_openFile hfs hopen
    cases hloc : fs.root.locate p with
    | error e =>
      rw [hopen, hloc] at h
      cases h
    | ok location =>
      obtain ⟨hplace, _, _⟩ := locate_eq_ok hfs.root hloc
      rw [hopen, hloc] at h
      simp only [bind, Except.bind, hplace] at h
      cases h
      have hne : p.place ≠ [] := by
        intro hnil
        rw [hnil, hfs.root] at hfile
        cases hfile
      exact ⟨hfs.erase hne, rfl, ⟨id, hfile⟩, kind?_erase_leaf hne
        (by rw [show fs.root.kind? p.place = _ from hfile]; simp)⟩

theorem removeTree_eq_ok (hfs : fs.WellFormed) (h : fs.removeTree p = .ok fs') :
    p.place ≠ [] ∧ fs.at? p.place = some .directory ∧
      fs' = { fs with root := fs.root.erase p.place } := by
  unfold removeTree at h
  cases hfind : fs.find p with
  | error e =>
    rw [hfind] at h
    cases h
  | ok t =>
    have hdir := (find_eq_ok hfs hfind).1
    rw [hfind] at h
    simp only [bind, Except.bind] at h
    cases t with
    | file id => cases h
    | directory entries =>
      simp only [Tree.isFile, Bool.false_eq_true, if_false] at h
      cases hloc : fs.root.locate p with
      | error e =>
        rw [hloc] at h
        cases h
      | ok location =>
        obtain ⟨hplace, _, hnamed⟩ := locate_eq_ok hfs.root hloc
        rw [hloc] at h
        simp only [hplace] at h
        by_cases hn : location.named = true
        · simp only [hn, if_true] at h hnamed
          cases h
          obtain ⟨above, name, heq, _⟩ := hnamed
          refine ⟨?_, kind?_eq_directory_iff.mpr ⟨entries, hdir⟩, rfl⟩
          rw [← hplace, heq]
          simp
        · simp only [hn] at h
          cases h

theorem removeTree_spec (hfs : fs.WellFormed) (h : fs.removeTree p = .ok fs') :
    fs'.WellFormed ∧ fs'.files = fs.files ∧ p.place ≠ [] ∧ fs.at? p.place = some .directory ∧
      (∀ r, fs'.at? (p.place ++ r) = none) ∧ ∀ a, ¬p.place <+: a → fs'.at? a = fs.at? a := by
  obtain ⟨hne, hdir, rfl⟩ := removeTree_eq_ok hfs h
  exact ⟨hfs.erase hne, rfl, hne, hdir, fun r => kind?_erase_append hne r _,
    fun a ha => kind?_erase_outside ha _⟩

/-- Both paths of a move end in names. Unless they lead to the same place, neither leads into the
other, and what stands at the target is nothing, a file or an empty directory. -/
theorem move_cases (h : fs.move p q = .ok fs') :
    ∃ start goal moved, fs.root.locate p = .ok start ∧ fs.root.locate q = .ok goal ∧
      start.named = true ∧ goal.named = true ∧ fs.root.find? start.place = some moved ∧
      (start.place = goal.place ∧ fs' = fs ∨
        ¬start.place <+: goal.place ∧ ¬goal.place <+: start.place ∧
        (∀ t, fs.root.find? goal.place = some t → (∃ id, t = .file id) ∨ t = .directory []) ∧
        fs' = { fs with root := (fs.root.erase start.place).put goal.place moved }) := by
  unfold move at h
  cases hstart : fs.root.locate p with
  | error e =>
    rw [hstart] at h
    cases h
  | ok start =>
  cases hgoal : fs.root.locate q with
  | error e =>
    rw [hstart, hgoal] at h
    cases h
  | ok goal =>
  rw [hstart, hgoal] at h
  simp only [bind, Except.bind] at h
  by_cases hnamed : (start.named && goal.named) = true
  case neg =>
    simp only [hnamed] at h
    cases h
  simp only [hnamed, if_true] at h
  simp only [Bool.and_eq_true] at hnamed
  cases hfind : fs.root.find? start.place with
  | none =>
    rw [hfind] at h
    cases h
  | some moved =>
  rw [hfind] at h
  refine ⟨start, goal, moved, rfl, rfl, hnamed.1, hnamed.2, hfind, ?_⟩
  simp only at h
  split at h
  · cases h
  split at h
  · rename_i heq
    cases h
    exact .inl ⟨heq, rfl⟩
  split at h
  · cases h
  split at h
  · cases h
  rename_i _ hbegins hbegins'
  rw [List.isPrefixOf_iff_prefix] at hbegins hbegins'
  refine .inr ⟨hbegins, hbegins', ?_⟩
  split at h
  · cases h
  · cases h
  · cases h
  · rename_i source _ _ _ hfile hdir hentries
    cases h
    refine ⟨fun t htarget => ?_, rfl⟩
    cases t with
    | file id => exact .inl ⟨id, rfl⟩
    | directory entries =>
      cases source with
      | file id => exact (hfile id entries rfl htarget).elim
      | directory inner =>
        cases entries with
        | nil => exact .inr rfl
        | cons e more => exact (hentries inner e more rfl htarget).elim

/-- A move takes the source out and puts it at the target, below which there is nothing. -/
theorem move_eq_ok (hfs : fs.WellFormed) (h : fs.move p q = .ok fs') :
    p.place ≠ [] ∧ (∃ above name, q.place = above ++ [name] ∧ fs.at? above = some .directory) ∧
      ∃ moved, fs.root.find? p.place = some moved ∧
        (p.place = q.place ∧ fs' = fs ∨ ¬p.place <+: q.place ∧ ¬q.place <+: p.place ∧
          (∀ r, r ≠ [] → fs.at? (q.place ++ r) = none) ∧
          fs' = { fs with root := (fs.root.erase p.place).put q.place moved }) := by
  obtain ⟨start, goal, moved, hstart, hgoal, hstartNamed, hgoalNamed, hfind, hcase⟩ := move_cases h
  obtain ⟨hp, _, hpnamed⟩ := locate_eq_ok hfs.root hstart
  obtain ⟨hq, _, hqnamed⟩ := locate_eq_ok hfs.root hgoal
  rw [if_pos hstartNamed, hp] at hpnamed
  rw [if_pos hgoalNamed, hq] at hqnamed
  rw [hp] at hfind
  rw [hp, hq] at hcase
  obtain ⟨aboveStart, nameStart, hstartEq, _⟩ := hpnamed
  refine ⟨by simp [hstartEq], hqnamed, moved, hfind, hcase.imp_right ?_⟩
  intro hcase
  obtain ⟨hbegins, hbegins', htarget, hfs'⟩ := hcase
  refine ⟨hbegins, hbegins', fun r hr => ?_, hfs'⟩
  obtain ⟨first, rest, rfl⟩ := List.exists_cons_of_ne_nil hr
  rw [at?, kind?_append]
  cases hbelow : fs.root.find? q.place with
  | none => rfl
  | some t => rcases htarget t hbelow with ⟨id, rfl⟩ | rfl <;> rfl

/-- Only paths that end in names are moved and moved to. -/
theorem fileName?_of_move (h : fs.move p q = .ok fs') :
    (∃ name, p.fileName? = some name) ∧ ∃ name, q.fileName? = some name := by
  obtain ⟨_, _, _, hstart, hgoal, hstartNamed, hgoalNamed, _⟩ := move_cases h
  exact ⟨fileName?_of_locate hstart hstartNamed, fileName?_of_locate hgoal hgoalNamed⟩

/-- A move makes what stood at the source stand at the target, and changes nothing outside of
the two. Below the target there was nothing. -/
theorem move_spec (hfs : fs.WellFormed) (h : fs.move p q = .ok fs') :
    fs'.WellFormed ∧ fs'.files = fs.files ∧ fs.at? p.place ≠ none ∧
      (p.place = q.place ∧ fs' = fs ∨ ¬p.place <+: q.place ∧ ¬q.place <+: p.place ∧
        (∀ r, r ≠ [] → fs.at? (q.place ++ r) = none) ∧
        (∀ r, fs'.at? (q.place ++ r) = fs.at? (p.place ++ r)) ∧
        (∀ r, fs'.at? (p.place ++ r) = none) ∧
        ∀ a, ¬p.place <+: a → ¬q.place <+: a → fs'.at? a = fs.at? a) := by
  obtain ⟨hpne, htarget, moved, hfind, hcase⟩ := move_eq_ok hfs h
  have hsource : fs.at? p.place ≠ none := by
    intro hnone
    rw [kind?_eq_none_iff.mp hnone] at hfind
    cases hfind
  rcases hcase with ⟨heq, rfl⟩ | ⟨hbegins, hbegins', hbelow, rfl⟩
  · exact ⟨hfs, rfl, hsource, .inl ⟨heq, rfl⟩⟩
  have hfiles : ∀ {a id}, ((fs.root.erase p.place).put q.place moved).kind? a = some (.file id) →
      (∃ r, a = q.place ++ r ∧ fs.at? (p.place ++ r) = some (.file id)) ∨
        (¬p.place <+: a ∧ fs.at? a = some (.file id)) :=
    fun ha => file_of_moved hpne hbegins hbegins' hfind htarget ha
  refine ⟨⟨?_, ?_, ?_⟩, rfl, hsource, .inr ⟨hbegins, hbegins', hbelow,
    kind?_moved_target hbegins hfind htarget, kind?_moved_source hpne hbegins hbegins',
    fun a hpa hqa => kind?_moved_outside hpa hqa⟩⟩
  · refine (kind?_moved_outside ?_ ?_).trans hfs.root
    · exact fun hpre => hpne (List.prefix_nil.mp hpre)
    · exact fun hpre => hbegins' ((List.prefix_nil.mp hpre) ▸ List.nil_prefix)
  · intro a id ha
    rcases hfiles ha with ⟨r, _, hr⟩ | ⟨_, hr⟩ <;> exact hfs.allocated hr
  · intro a b id ha hb
    rcases hfiles ha with ⟨r, rfl, hr⟩ | ⟨hpa, hr⟩ <;>
      rcases hfiles hb with ⟨u, rfl, hu⟩ | ⟨hpb, hu⟩
    · rw [List.append_cancel_left (hfs.distinct hr hu)]
    · exact absurd ⟨r, hfs.distinct hr hu⟩ hpb
    · exact absurd ⟨u, hfs.distinct hu hr⟩ hpa
    · exact hfs.distinct hr hu

end Relatedness.FileSystem
