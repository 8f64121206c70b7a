import Relatedness.Proofs.Disk.Repeated
import Relatedness.Proofs.Similarity.Version

/-! What is left of a saved summary when its file is cut off. No strict beginning of the file can be
loaded, so a call that finds one reads the stores and saves their summary in its place. -/

namespace Relatedness.Summary

variable {σ : Type} [MatrixStore σ] {forward transpose : σ} {fs : FileSystem} {path : Path}
  {session : Session} {s built : Summary Binary64} {bytes piece rest : Bytes} {cause : Error}

/-! ## Loading -/

/-- A file that begins with a summary is loaded with all the fields of the summary. -/
theorem Writes.exists_load (hbytes : s.Writes bytes) (h : s.Fits)
    (hread : fs.readFile path = .ok (bytes ++ rest)) :
    ∃ loaded, load fs path = .ok loaded ∧ loaded.Agrees s := by
  obtain ⟨loaded, hagrees, hseals⟩ := hbytes.exists_seals h
  exact ⟨loaded, load_eq_ok_iff.mpr ⟨_, hread, hseals.load path rest⟩, hagrees⟩

/-- These bytes are a strict beginning of the file of the summary. -/
def Torn (s : Summary Binary64) (piece : Bytes) : Prop :=
  ∃ bytes, s.Writes bytes ∧ piece <+: bytes ∧ piece ≠ bytes

/-- A file that ends before the summary does is refused. -/
theorem Torn.load (hpiece : s.Torn piece) (h : s.Fits) (hread : fs.readFile path = .ok piece) :
    load fs path =
      .error (if piece.length < 6 then .io .unexpectedEnd else .decoding .unexpectedEnd) := by
  obtain ⟨bytes, hbytes, hbegins, hcut⟩ := hpiece
  obtain ⟨_, _, hseals⟩ := hbytes.exists_seals h
  unfold Summary.load
  rw [hread]
  exact hseals.torn path piece hbegins hcut

/-! ## Calls -/

/-- The session of a call that has found a file which it cannot load. -/
def discarding (session : Session) (path : Path) (cause : Error) : Session :=
  session.record .warn s!"discarding unreadable similarity cache {path.text}: {cause.message}"

/-- Where the file cannot be loaded, a call goes on as it does where there is none. -/
theorem outcome_loadOrBuild_of_error (hread : session.disk.readFile path = .ok bytes)
    (hload : load session.disk path = .error cause) :
    outcome (loadOrBuild path forward transpose) session =
      outcome (rebuild path forward transpose session.disk) (discarding session path cause) := by
  rw [outcome_loadOrBuild, if_pos (present_of_readFile hread), hload]
  rfl

/-- What is made of the stores is given and saved, if it can be. -/
theorem exists_rebuild (hbuilt : build forward transpose fs = .ok built) {fs' : FileSystem}
    (hsave : Succeeds (built.save path) session.disk () fs') :
    ∃ t, Succeeds (rebuild path forward transpose fs) session built t ∧ t.disk = fs' := by
  simp only [rebuild, succeeds_bind, Action.succeeds_log, Action.succeeds_ofExcept,
    Action.succeeds_onDisk, succeeds_pure]
  exact ⟨_, ⟨(), _, rfl, built, _, ⟨hbuilt, rfl⟩, (), _, ⟨fs', hsave, rfl⟩, rfl, rfl⟩, rfl⟩

/-- Where a summary has been saved and its file cannot be loaded any more, a call makes the summary
of the stores and puts it there. -/
theorem exists_loadOrBuild_of_error {saved : FileSystem} (hfs : fs.WellFormed)
    (hsave : Succeeds (s.save path) fs () saved) (hsession : session.disk.WellFormed)
    (hroot : session.disk.root = saved.root) (hread : session.disk.readFile path = .ok bytes)
    (hload : load session.disk path = .error cause)
    (hbuilt : build forward transpose session.disk = .ok built) :
    ∃ t, Succeeds (loadOrBuild path forward transpose) session built t ∧
      t.disk.readFile path = .ok built.encode := by
  obtain ⟨_, mid, hmake, hreplace⟩ := succeeds_bind.mp hsave
  obtain ⟨hmid, _⟩ := DiskM.makeDirectories_spec hfs hmake
  have hready : Replacement.Ready (path.withExtension "tmp") path session.disk :=
    (Replacement.ready_of_replaceFile hmid hreplace).of_root_eq hroot
  obtain ⟨fs', hagain⟩ := hready.exists_save hsession built.encode false
  have hbuiltSave : Succeeds (built.save path) (discarding session path cause).disk () fs' := hagain
  obtain ⟨t, hrebuild, hdisk⟩ := exists_rebuild hbuilt hbuiltSave
  refine ⟨t, ?_, ?_⟩
  · exact (outcome_loadOrBuild_of_error hread hload).trans hrebuild
  · rw [hdisk]
    exact (Replacement.readFile_of_save hsession hagain).2

end Relatedness.Summary
