import Relatedness.Proofs.Disk.Room
import Relatedness.Proofs.Matrix.RoundTrip
import Relatedness.Proofs.Matrix.Transaction

/-! Where there is room for the directory, a pair of rows with ids of their own is built. -/

namespace Relatedness

open FileSystem Relatedness.Path

namespace MatrixDraft

variable {fs : FileSystem} {directory : Path} {d : MatrixDraft} {name temporary : String}

/-- A draft can be saved in a directory in which no directory has one of its names. -/
theorem exists_save (hfs : fs.WellFormed) (hnamed : Named name temporary) (hne : temporary ≠ name)
    (hpath : d.path = directory.child name) (hreaches : fs.Reaches directory)
    (hdir : fs.at? directory.place = some .directory)
    (hname : fs.at? (directory.place ++ [name]) ≠ some .directory)
    (htemporary : fs.at? (directory.place ++ [temporary]) ≠ some .directory) :
    ∃ fs', Succeeds d.save fs () fs' := by
  unfold save
  rw [hpath, Path.withExtension_child hnamed.isName hnamed.stem, hnamed.renamed]
  exact Replacement.exists_replaceFile hfs hreaches hnamed.isTemporary hnamed.isName hne hdir
    htemporary hname _ true

end MatrixDraft

namespace MatrixPair

variable {s : Session} {directory : Path} {rows : List Row}

/-- A pair can be written into an empty directory. -/
theorem exists_write (hs : s.disk.WellFormed) (hreaches : s.disk.Reaches directory)
    (hdir : s.disk.at? directory.place = some .directory)
    (hempty : ∀ r, r ≠ [] → s.disk.at? (directory.place ++ r) = none)
    (hdistinct : rows.Pairwise fun a b => a.id ≠ b.id) :
    ∃ t, Succeeds (write directory rows) s () t := by
  obtain ⟨forward, hforward⟩ := MatrixDraft.exists_addAll
    (d := .empty (directory.child forwardName)) hdistinct fun r _ => by simp [MatrixDraft.empty]
  obtain ⟨hpath, _, hasc⟩ := MatrixDraft.values_of_addAll hforward
  have hnone : ∀ name, s.disk.at? (directory.place ++ [name]) = none := fun _ => hempty _ (by simp)
  obtain ⟨mid, hsave⟩ := MatrixDraft.exists_save hs named_forward (by decide) hpath hreaches hdir
    (by rw [hnone]; simp) (by rw [hnone]; simp)
  obtain ⟨hmid, _, _, _, hat, _⟩ := MatrixDraft.save_spec hs named_forward hpath hsave
  obtain ⟨backward, hbackward⟩ := MatrixDraft.exists_addAll
    (d := .empty (directory.child transposeName))
    ((Matrix.pairwise_transpose forward.rows.values).imp fun {a b} hlt (heq : a.id = b.id) =>
      UInt32.lt_irrefl b.id (heq ▸ hlt)) fun r _ => by simp [MatrixDraft.empty]
  obtain ⟨hpath', _, _⟩ := MatrixDraft.values_of_addAll hbackward
  -- the first file takes no directory away and stands in the way of no name of the second
  have hkeep : ∀ a, s.disk.at? a = some .directory → mid.at? a = some .directory := by
    intro a ha
    rw [hat a, ha]
    · rintro rfl
      cases (hnone _).symm.trans ha
    · rintro rfl
      cases (hnone _).symm.trans ha
  obtain ⟨last, hsave'⟩ := MatrixDraft.exists_save hmid named_transpose (by decide) hpath'
    (fun _ a ha => hkeep a (hreaches hdir a ha)) (hkeep _ hdir)
    (by rw [hat _ (by simp [transposeName]) (by simp [transposeName, forwardName]), hnone]; simp)
    (by rw [hat _ (by simp) (by simp [forwardName]), hnone]; simp)
  refine ⟨{ s with disk := last }, ?_⟩
  simp only [write, succeeds_bind, Action.succeeds_ofExcept, Action.succeeds_onDisk]
  exact ⟨forward, s, ⟨hforward, rfl⟩, (), _, ⟨mid, hsave, rfl⟩, backward, _, ⟨hbackward, rfl⟩, last,
    hsave', rfl⟩

/-- A pair can be built where there is room for its directory. -/
theorem exists_build (hs : s.disk.WellFormed) (hroom : directory.Roomy s.disk)
    (hdistinct : rows.Pairwise fun a b => a.id ≠ b.id)
    (hentries : (rows.map Row.width).sum < 2 ^ 60) :
    ∃ pair t, Succeeds (build directory rows) s pair t := by
  obtain ⟨⟨name, hlast, hlastName⟩, hsteady, habove, htarget, hstaging, hretired⟩ := hroom
  have hname := fileName?_of_getLast?_steps hlast hlastName
  obtain ⟨staged, hfresh, hstaged⟩ :=
    Replacement.freshStaging_of_directory hs hname hsteady habove hstaging
  have hretired' : ∀ id, staged.at? directory.retired.place ≠ some (.file id) := by
    intro id hfile
    obtain ⟨_, _, cleared, hclear, _, hadds⟩ := Replacement.freshStaging_spec hs hfresh
    obtain ⟨_, _, hkeep, _⟩ := Replacement.removeIfPresent_spec hs hclear
    rcases hadds directory.retired.place with hsame | ⟨_, hdir⟩
    · rw [hsame, hkeep _ (apart_siblings hname).2.1.1] at hfile
      exact hretired id hfile
    · cases hdir.symm.trans hfile
  have hsteady' := hsteady.of_beside hstaged.beside
  have hreaches : staged.Reaches directory.staging := by
    rw [Replacement.staging_eq_child hname]
    exact hsteady'.reaches_parent.child (isName_staging name)
  obtain ⟨written, hwrite⟩ := exists_write (s := { s with disk := staged })
    hstaged.beside.wellFormed hreaches hstaged.staging hstaged.empty hdistinct
  have hinside := keeps_write.succeeds hwrite
    (.start hstaged.beside.wellFormed hstaged.staging hstaged.empty :
      staged.Inside directory.staging.place staged)
  have hbeside := hstaged.beside.trans (beside_of_inside hinside)
  have hsame := hstaged.target.trans (sameWithin_of_inside hname hinside)
  have hroom' : directory.Roomy written.disk := by
    refine ⟨⟨name, hlast, hlastName⟩, hsteady.of_beside hbeside, ?_, ?_, ?_, ?_⟩
    · exact (beside_of_inside hinside).above hname hstaged.above
    · exact hsame.at?_eq ▸ htarget
    · rw [hinside.directory, hstaged.staging]
      simp
    · rw [hinside.outside _ (apart_siblings hname).2.1.1]
      exact hretired'
  obtain ⟨placed, hreplace⟩ := Replacement.exists_replaceDirectory hinside.wellFormed hroom'
    (hinside.directory.trans hstaged.staging)
  obtain ⟨pair, t, hinstall, _⟩ := install_of_replaced hname hsteady hbeside
    (fills_of_write hstaged.beside.wellFormed hstaged.staging hstaged.empty hwrite) hentries hreplace
  refine ⟨pair, t, ?_⟩
  rw [build_eq]
  exact succeeds_bind.mpr ⟨_, _, Action.succeeds_onDisk.mpr ⟨staged, hfresh, rfl⟩,
    succeeds_bind.mpr ⟨(), written, succeeds_tryCatch.mpr (.inl hwrite), hinstall⟩⟩

end MatrixPair
end Relatedness
