import Relatedness.Proofs.Disk.Saving

/-! Replacing a file again. Once a file has been replaced, both its name and the temporary one can
be followed, no directory has the temporary name and a file has the other, and all this is left so
by whatever becomes of the bytes of files. So the file can be replaced again, by other bytes. -/

namespace Relatedness

namespace FileSystem

open Relatedness.Tree

variable {fs fs' : FileSystem} {p q : Path} {id : Nat}

theorem exists_writeFile_of_locate (hlocate : fs.root.locate p = .ok ⟨p.place, true, false⟩)
    (hnot : fs.at? p.place ≠ some .directory) (bytes : Bytes) :
    ∃ fs', fs.writeFile p bytes = .ok fs' := by
  unfold writeFile openOrCreate
  rw [hlocate]
  simp only [bind, Except.bind, Bool.false_eq_true, if_false]
  cases hfind : fs.root.find? p.place with
  | none => exact ⟨_, rfl⟩
  | some t =>
    cases t with
    | file id => exact ⟨_, rfl⟩
    | directory entries => exact absurd (kind?_eq_directory_iff.mpr ⟨entries, hfind⟩) hnot

/-- What stands below a place makes it a directory. -/
theorem not_prefix_of_files {a b : Place} {other : Nat} (ha : fs.at? a = some (.file id))
    (hb : fs.at? b = some (.file other)) (hne : a ≠ b) : ¬a <+: b := by
  rintro ⟨rest, rfl⟩
  have hrest : rest ≠ [] := by
    rintro rfl
    exact hne (List.append_nil a).symm
  cases ha.symm.trans (kind?_of_append hb hrest)

/-- A file can be moved onto another one. -/
theorem exists_move_onto_file {other : Nat}
    (hstart : fs.root.locate p = .ok ⟨p.place, true, false⟩)
    (hgoal : fs.root.locate q = .ok ⟨q.place, true, false⟩)
    (hsource : fs.at? p.place = some (.file id)) (htarget : fs.at? q.place = some (.file other)) :
    ∃ fs', fs.move p q = .ok fs' := by
  by_cases hsame : p.place = q.place
  · exact ⟨fs, move_same hstart (hsame ▸ hgoal) hsource⟩
  · refine exists_move_of_apart hstart hgoal ⟨?_, ?_⟩ hsource (by rw [htarget]; simp)
    · exact not_prefix_of_files hsource htarget hsame
    · exact not_prefix_of_files htarget hsource (Ne.symm hsame)

end FileSystem

namespace Replacement

open FileSystem Relatedness.Path

variable {fs fs' : FileSystem} {temporary target : Path} {content : Bytes} {tidy : Bool}

/-- The file at the target can be replaced. -/
structure Ready (temporary target : Path) (fs : FileSystem) : Prop where
  source : fs.root.locate temporary = .ok ⟨temporary.place, true, false⟩
  goal : fs.root.locate target = .ok ⟨target.place, true, false⟩
  free : fs.at? temporary.place ≠ some .directory
  standing : ∃ id, fs.at? target.place = some (.file id)

theorem Ready.of_root_eq (h : Ready temporary target fs) (hroot : fs'.root = fs.root) :
    Ready temporary target fs' where
  source := hroot ▸ h.source
  goal := hroot ▸ h.goal
  free := by
    rw [at?, hroot]
    exact h.free
  standing := by
    rw [at?, hroot]
    exact h.standing

theorem ready_of_replaceFile (hfs : fs.WellFormed) {u : Unit}
    (h : Succeeds (replaceFile temporary target content tidy) fs u fs') :
    Ready temporary target fs' := by
  obtain ⟨hfs', _, hstanding, hgone, _⟩ := replaceFile_spec hfs h
  obtain ⟨id, hopen, _⟩ := readFile_eq_ok_iff.mp (readFile_of_replaceFile hfs h)
  simp only [replaceFile, succeeds_bind, succeeds_tryCatch, DiskM.succeeds_change, succeeds_throw,
    succeeds_ite, exists_false, and_false, or_false] at h
  obtain ⟨_, mid, hwrite, hmove⟩ := h
  obtain ⟨hmid, _⟩ := writeFile_spec hfs hwrite
  obtain ⟨source, hsource, _⟩ := openFile_of_writeFile hfs hwrite
  have hfile := at?_of_openFile hmid hsource
  have htarget := named_of_openFile hfs' hopen
  refine ⟨Tree.locate_mono (fun _ ha => directory_of_move hmid hmove hfile ha)
    (named_of_openFile hmid hsource), htarget, ?_, hstanding.imp fun _ h => h.1⟩
  by_cases hsame : temporary.place = target.place
  · rw [hsame, at?_of_openFile hfs' hopen]
    simp
  · rw [hgone hsame]
    simp

theorem Ready.exists_replaceFile (hfs : fs.WellFormed) (h : Ready temporary target fs)
    (content : Bytes) (tidy : Bool) :
    ∃ fs', Succeeds (replaceFile temporary target content tidy) fs () fs' := by
  obtain ⟨id, hstanding⟩ := h.standing
  obtain ⟨mid, hwrite⟩ := exists_writeFile_of_locate h.source h.free content
  obtain ⟨hmid, _, source, _, hat, _⟩ := writeFile_spec hfs hwrite
  have hkeep : ∀ a, fs.root.kind? a = some .directory → mid.root.kind? a = some .directory :=
    fun _ ha => directory_of_writeFile hfs hwrite ha
  have hthere : ∃ other, mid.at? target.place = some (.file other) := by
    rw [hat]
    split
    · exact ⟨source, rfl⟩
    · exact ⟨id, hstanding⟩
  obtain ⟨other, hthere⟩ := hthere
  obtain ⟨fs', hmove⟩ := exists_move_onto_file (Tree.locate_mono hkeep h.source)
    (Tree.locate_mono hkeep h.goal) (by rw [hat, if_pos rfl]) hthere
  refine ⟨fs', succeeds_bind.mpr ⟨(), mid, succeeds_tryCatch.mpr (.inl ?_),
    succeeds_tryCatch.mpr (.inl ?_)⟩⟩
  · exact DiskM.succeeds_change.mpr hwrite
  · exact DiskM.succeeds_change.mpr hmove

/-- The directories above a file that can be replaced need not be made. -/
theorem Ready.exists_save (hfs : fs.WellFormed) (h : Ready temporary target fs) (content : Bytes)
    (tidy : Bool) : ∃ fs', Succeeds (do
      DiskM.makeDirectories target.parent
      replaceFile temporary target content tidy) fs () fs' := by
  obtain ⟨fs', hreplace⟩ := h.exists_replaceFile hfs content tidy
  exact ⟨fs', succeeds_bind.mpr ⟨(), fs, makeDirectories_of_locate hfs h.goal, hreplace⟩⟩

end Replacement

end Relatedness
