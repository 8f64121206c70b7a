import Relatedness.Proofs.Disk.Saved

/-! Where there is room for files and directories, they can be put there: writing, moving and
replacing succeed in a directory that stands, as long as nothing of the other sort has one of the
names that they use. -/

namespace Relatedness

namespace FileSystem

open Relatedness.Tree Relatedness.Path

variable {fs : FileSystem} {p : Path} {id : Nat}

/-- In a directory a file can be written under every name that no directory has. -/
theorem exists_writeFile_child (hfs : fs.WellFormed) (h : fs.Reaches p) {name : String}
    (hname : IsName name) (hdir : fs.at? p.place = some .directory)
    (hnot : fs.at? (p.place ++ [name]) ≠ some .directory) (bytes : Bytes) :
    ∃ fs', fs.writeFile (p.child name) bytes = .ok fs' := by
  unfold writeFile openOrCreate
  rw [h.locate_child hfs hname hdir]
  simp only [bind, Except.bind, Bool.false_eq_true, if_false]
  cases hfind : fs.root.find? (p.place ++ [name]) with
  | none => exact ⟨_, rfl⟩
  | some t =>
    cases t with
    | file id => exact ⟨_, rfl⟩
    | directory entries => exact absurd (kind?_eq_directory_iff.mpr ⟨entries, hfind⟩) hnot

/-- In a directory a file can be moved to every other name that no directory has. -/
theorem exists_move_child (hfs : fs.WellFormed) (h : fs.Reaches p) {name other : String}
    (hname : IsName name) (hother : IsName other) (hne : name ≠ other)
    (hfile : fs.at? (p.place ++ [name]) = some (.file id))
    (hnot : fs.at? (p.place ++ [other]) ≠ some .directory) :
    ∃ fs', fs.move (p.child name) (p.child other) = .ok fs' := by
  have hdir : fs.at? p.place = some .directory := kind?_of_append hfile (by simp)
  exact exists_move_of_apart (h.locate_child hfs hname hdir) (h.locate_child hfs hother hdir)
    (Place.apart_of_ne hne) hfile hnot

end FileSystem

namespace Replacement

open FileSystem Relatedness.Path

variable {fs : FileSystem} {p : Path} {name : String}

/-- In a directory a file can be replaced if no directory has its name or the temporary one. -/
theorem exists_replaceFile (hfs : fs.WellFormed) (h : fs.Reaches p) {other : String}
    (hname : IsName name) (hother : IsName other) (hne : name ≠ other)
    (hdir : fs.at? p.place = some .directory)
    (hnot : fs.at? (p.place ++ [name]) ≠ some .directory)
    (hnot' : fs.at? (p.place ++ [other]) ≠ some .directory) (content : Bytes) (tidy : Bool) :
    ∃ fs', Succeeds (replaceFile (p.child name) (p.child other) content tidy) fs () fs' := by
  obtain ⟨mid, hwrite⟩ := exists_writeFile_child hfs h hname hdir hnot content
  obtain ⟨hmid, _, id, _, hat, _⟩ := writeFile_spec hfs hwrite
  have hreaches : mid.Reaches p := fun _ a ha => directory_of_writeFile hfs hwrite (h hdir a ha)
  rw [place_child hname] at hat
  obtain ⟨fs', hmove⟩ := exists_move_child hmid hreaches hname hother hne
    (by rw [hat, if_pos rfl]) (by rwa [hat, if_neg (by simpa using hne.symm)])
  refine ⟨fs', succeeds_bind.mpr ⟨(), mid, succeeds_tryCatch.mpr (.inl ?_),
    succeeds_tryCatch.mpr (.inl ?_)⟩⟩
  · exact DiskM.succeeds_change.mpr hwrite
  · exact DiskM.succeeds_change.mpr hmove

end Replacement

/-- A directory can be put at the path: it ends in a name in a directory that stands, and no file
has its name or that of a sibling. -/
structure Path.Roomy (p : Path) (fs : FileSystem) : Prop where
  named : ∃ name, p.steps.getLast? = some name ∧ IsName name
  steady : p.Steady fs
  above : fs.at? p.parent.place = some .directory
  target : ∀ id, fs.at? p.place ≠ some (.file id)
  staging : ∀ id, fs.at? p.staging.place ≠ some (.file id)
  retired : ∀ id, fs.at? p.retired.place ≠ some (.file id)

namespace Replacement

open FileSystem Relatedness.Path

variable {fs : FileSystem} {p : Path}

/-- Where nothing stands at the path, the staged directory is just moved there. -/
theorem replaceDirectory_of_absent {cleared placed : FileSystem}
    (hclear : Succeeds (removeIfPresent p.retired : DiskM Unit) fs () cleared)
    (hnew : cleared.present p = false) (hmove : cleared.move p.staging p = .ok placed) :
    Succeeds (replaceDirectory p.staging p : DiskM Unit) fs () placed := by
  simp only [replaceDirectory, succeeds_bind, succeeds_tryCatch, move_eq, present_eq,
    DiskM.succeeds_change, DiskM.succeeds_inspect, succeeds_ite, succeeds_pure]
  exact ⟨(), cleared, hclear, false, cleared, ⟨by rw [hnew], rfl⟩, .inr ⟨Bool.false_ne_true, (),
    placed, .inl hmove, .inr ⟨Bool.false_ne_true, trivial, rfl⟩⟩⟩

/-- What stands at the path is moved aside and removed when the staged directory is there. -/
theorem replaceDirectory_of_present {cleared aside placed last : FileSystem}
    (hclear : Succeeds (removeIfPresent p.retired : DiskM Unit) fs () cleared)
    (hold : cleared.present p = true) (haside : cleared.move p p.retired = .ok aside)
    (hplaced : aside.move p.staging p = .ok placed)
    (hclean : Succeeds (removeIfPresent p.retired : DiskM Unit) placed () last) :
    Succeeds (replaceDirectory p.staging p : DiskM Unit) fs () last := by
  simp only [replaceDirectory, succeeds_bind, succeeds_tryCatch, move_eq, present_eq,
    DiskM.succeeds_change, DiskM.succeeds_inspect, succeeds_ite, succeeds_pure]
  exact ⟨(), cleared, hclear, true, cleared, ⟨by rw [hold], rfl⟩, .inl ⟨rfl, (), aside, haside, (),
    placed, .inl hplaced, .inl ⟨rfl, hclean⟩⟩⟩

/-- What was staged can be put where there is room for a directory. -/
theorem exists_replaceDirectory (hfs : fs.WellFormed) (hroom : p.Roomy fs)
    (hstaging : fs.at? p.staging.place = some .directory) :
    ∃ fs', Succeeds (replaceDirectory p.staging p : DiskM Unit) fs () fs' := by
  obtain ⟨⟨name, hlast, hlastName⟩, hsteady, habove, htarget, _, hretired⟩ := hroom
  have hname := fileName?_of_getLast?_steps hlast hlastName
  obtain ⟨_, hsr, htr⟩ := apart_siblings hname
  rcases clears_retired hfs hname hsteady with
    ⟨cleared, hclear, hcleared, hfiles, hgone, hkeep⟩ | ⟨_, _, _, hfile⟩
  case inr =>
    obtain ⟨id, hfile⟩ := hfile habove
    exact absurd hfile (hretired id)
  have hbeside : p.Beside fs cleared := .of_outside hcleared hfiles fun a ha => hkeep a ha.2.2
  have hsteady' := hsteady.of_beside hbeside
  have habove' := hbeside.above hname habove
  have hstaging' : cleared.at? p.staging.place = some .directory := by
    rw [hkeep _ hsr.2, hstaging]
  cases hat : cleared.at? p.place with
  | none =>
    obtain ⟨placed, hmove⟩ :=
      exists_move_staging hcleared hlast hlastName hsteady' habove' hstaging' hat
    have hnew : cleared.present p = false :=
      Bool.eq_false_iff.mpr fun h => at?_of_present hcleared h hat
    exact ⟨placed, replaceDirectory_of_absent hclear hnew hmove⟩
  | some k =>
  cases k with
  | file id => exact absurd ((hkeep _ htr.2).symm.trans hat) (htarget id)
  | directory =>
    obtain ⟨entries, hfind⟩ := (hsteady'.reaches hname).find hcleared hat
    have hold : cleared.present p = true := by
      unfold FileSystem.present
      rw [hfind]
    obtain ⟨aside, haside⟩ := exists_move_retired hcleared hlast hlastName hsteady' hat
      (by simpa using hgone [])
    have hretired := retired_of_move hcleared hname haside
    obtain ⟨placed, hplaced⟩ := exists_move_staging hretired.beside.wellFormed hlast hlastName
      (hsteady'.of_beside hretired.beside) (hretired.beside.above hname habove')
      (hretired.staging.at?_eq.trans hstaging') (by simpa using hretired.gone [])
    rcases succeeds_or_fails (removeIfPresent p.retired : DiskM Unit) placed with
      ⟨_, last, hclean⟩ | ⟨_, _, hfails⟩
    · exact ⟨last, replaceDirectory_of_present hclear hold haside hplaced hclean⟩
    · exact absurd hfails (hretired.clean_not_fails hname hsteady' hat hplaced)

end Replacement
end Relatedness
