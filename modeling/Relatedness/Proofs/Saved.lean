import Relatedness.Proofs.Percentile.Saved
import Relatedness.Proofs.Similarity.Freshness
import Relatedness.Proofs.Similarity.Torn

/-! What is saved comes back. A summary and a normalizer that were saved are loaded again as they
were, whatever follows them in their files, and a file that was cut off at any byte is refused. A
call that finds a summary cut off replaces it by one that it makes anew. -/

namespace Relatedness

/-- The file of the summary stands at the path. Where a file begins with one, it is loaded as the
summary, and where one was cut off, it is refused. -/
structure Summary.Sealed (s : Summary Binary64) (path : Path) (saved : FileSystem) : Prop where
  written : ∃ bytes, s.Writes bytes ∧ saved.readFile path = .ok bytes
  loaded : ∃ loaded, load saved path = .ok loaded ∧ loaded.Agrees s
  loads : ∀ fs bytes rest, s.Writes bytes → fs.readFile path = .ok (bytes ++ rest) →
    ∃ loaded, load fs path = .ok loaded ∧ loaded.Agrees s
  refuses : ∀ fs piece, s.Torn piece → fs.readFile path = .ok piece →
    ∃ cause, load fs path = .error cause
  /-- A call goes on as it does where there is no file, except that it says what it has found. -/
  discards : ∀ {σ : Type} [MatrixStore σ] (forward transpose : σ) (session : Session)
    (piece : Bytes), s.Torn piece → session.disk.readFile path = .ok piece →
      ∃ cause, outcome (loadOrBuild path forward transpose) session =
        outcome (rebuild path forward transpose session.disk) (discarding session path cause)
  /-- Where all files stand as the save left them, whatever they hold, the new summary is saved. -/
  rebuilds : ∀ {σ : Type} [MatrixStore σ] (forward transpose : σ) (session : Session)
    (piece : Bytes) (built : Summary Binary64), s.Torn piece →
      session.disk.readFile path = .ok piece → session.disk.WellFormed →
      session.disk.root = saved.root →
      build forward transpose session.disk = .ok built →
        ∃ t, Succeeds (loadOrBuild path forward transpose) session built t ∧
          t.disk.readFile path = .ok built.encode

theorem Summary.sealed_of_save {s : Summary Binary64} {path : Path} {fs saved : FileSystem}
    (h : s.Fits) (hfs : fs.WellFormed) (hsave : Succeeds (s.save path) fs () saved) :
    s.Sealed path saved where
  written := ⟨s.encode, s.writes_encode, (Replacement.readFile_of_save hfs hsave).2⟩
  loaded := by
    have hread := (Replacement.readFile_of_save hfs hsave).2
    rw [← List.append_nil s.encode] at hread
    exact s.writes_encode.exists_load h hread
  loads _ _ _ hbytes hread := hbytes.exists_load h hread
  refuses _ _ hpiece hread := ⟨_, hpiece.load h hread⟩
  discards _ _ _ _ hpiece hread := ⟨_, outcome_loadOrBuild_of_error hread (hpiece.load h hread)⟩
  rebuilds _ _ _ _ _ hpiece hread hsession hroot hbuilt :=
    exists_loadOrBuild_of_error hfs hsave hsession hroot hread (hpiece.load h hread) hbuilt

/-- The file of the normalizer stands at the path. Where a file begins with it, it is loaded as the
normalizer, and where it was cut off, it is refused. -/
structure Normalizer.Sealed {G : Type} [SlotSource G] (n : Normalizer Binary64 G) (path : Path)
    (saved : FileSystem) : Prop where
  written : saved.readFile path = .ok n.encode
  loaded : ∃ loaded : Normalizer Binary64 G, load saved path = .ok loaded ∧ loaded.Agrees n
  loads : ∀ fs rest, fs.readFile path = .ok (n.encode ++ rest) →
    ∃ loaded : Normalizer Binary64 G, load fs path = .ok loaded ∧ loaded.Agrees n
  refuses : ∀ fs piece, piece <+: n.encode → piece ≠ n.encode → fs.readFile path = .ok piece →
    ∃ cause, (load fs path : Except Error (Normalizer Binary64 G)) = .error cause

theorem Normalizer.sealed_of_save {G : Type} [SlotSource G] {config : NormalizerConfig}
    {total : Nat} {n : Normalizer Binary64 G} {path : Path} {fs saved : FileSystem}
    (h : n.Regular config total) (hfits : n.Fits) (hfs : fs.WellFormed)
    (hsave : Succeeds (n.save path) fs () saved) :
    n.Sealed path saved where
  written := Replacement.readFile_of_replaceFile hfs hsave
  loaded := ⟨_, h.load_of_save hfits hfs hsave, n.agrees_reseeded⟩
  loads _ _ hread := ⟨_, h.load hfits hread, n.agrees_reseeded⟩
  refuses _ _ hpiece hcut hread := ⟨_, h.load_torn hfits hpiece hcut hread⟩

/-- A summary that is saved, and a normalizer that is saved after whatever was done to it, are
loaded as they were, and their files are refused where they are cut off. -/
theorem saved_files_sealed {G : Type} [SlotSource G] :
    (∀ (s : Summary Binary64) (path : Path) (fs saved : FileSystem), s.Fits → fs.WellFormed →
      Succeeds (s.save path) fs () saved → s.Sealed path saved) ∧
    ∀ (config : NormalizerConfig) (operations : List (Normalizer.Operation Binary64))
      (path : Path) (fs saved : FileSystem) (n : Normalizer Binary64 G),
      n = (Normalizer.new config).run operations → n.Fits → fs.WellFormed →
        Succeeds (n.save path) fs () saved → n.Sealed path saved := by
  refine ⟨fun s path fs saved h hfs hsave => Summary.sealed_of_save h hfs hsave, ?_⟩
  rintro config operations path fs saved n rfl hfits hfs hsave
  exact Normalizer.sealed_of_save (Normalizer.regular_run config operations) hfits hfs hsave

/-- What a search needs to know of a row with one column. -/
def oneColumn : Summary Binary64 where
  forwardToken := 1
  transposeToken := 1
  forwardRows := 1
  transposeRows := 1
  norms := .ofList [((1 : RowId), Binary64.mk 0x4008000000000000)]
  features := .ofList [(2 : FeatureId)]
  maxWidth := 1

/-- A normalizer that was finished with two scores. -/
def twoScores : Normalizer Binary64 Generator :=
  (Normalizer.new {}).run [.observe ⟨0x4008000000000000⟩, .observe ⟨0x3ff0000000000000⟩, .finish]

/-- The file of a summary is cut off behind its ninth byte, and the next call makes it anew. -/
theorem saved_files_sealed_nineBytes :
    (∃ saved torn built t, Succeeds (oneColumn.save ⟨false, ["c"]⟩) (.empty 0) () saved ∧
      torn.root = saved.root ∧ torn.readFile ⟨false, ["c"]⟩ = .ok (oneColumn.encode.take 9) ∧
      Succeeds (Summary.loadOrBuild ⟨false, ["c"]⟩ (Machine.oneCell 1 ⟨0x40400000⟩).forward
        (Machine.oneCell 1 ⟨0x40400000⟩).transpose) ⟨torn, []⟩ built t ∧
      t.disk.readFile ⟨false, ["c"]⟩ = .ok built.encode) ∧
    ∃ saved loaded, Succeeds (twoScores.save ⟨false, ["n"]⟩) (.empty 0) () saved ∧
      Normalizer.load saved ⟨false, ["n"]⟩ = .ok loaded ∧ loaded.Agrees twoScores := by
  have hempty : (FileSystem.empty 0).WellFormed := .empty 0
  have hfits : oneColumn.Fits := ⟨by decide, by decide, by decide⟩
  have hfits' : twoScores.Fits := by
    have hregular : twoScores.Regular {} _ := Normalizer.regular_run _ _
    refine ⟨?_⟩
    rw [hregular.config]
    decide
  have hsaves : (outcome (oneColumn.save ⟨false, ["c"]⟩) (.empty 0)).1.isOk = true := by
    decide +kernel
  have hsaves' : (outcome (twoScores.save ⟨false, ["n"]⟩) (.empty 0)).1.isOk = true := by
    decide +kernel
  obtain ⟨⟨⟩, hsave⟩ := exists_succeeds hsaves
  obtain ⟨⟨⟩, hsave'⟩ := exists_succeeds hsaves'
  have hsealed := (saved_files_sealed (G := Generator)).1 oneColumn _ _ _ hfits hempty hsave
  have hsealed' := saved_files_sealed.2 {} _ _ _ _ twoScores rfl hfits' hempty hsave'
  refine ⟨?_, ?_⟩
  · obtain ⟨hsaved, hread⟩ := Replacement.readFile_of_save hempty hsave
    obtain ⟨torn, htorn, hroot, hcut⟩ := hsaved.exists_readFile_eq hread (oneColumn.encode.take 9)
    have hpiece : oneColumn.Torn (oneColumn.encode.take 9) :=
      ⟨_, oneColumn.writes_encode, List.take_prefix _ _, by decide +kernel⟩
    have hbuilds : (Machine.oneCell 1 ⟨0x40400000⟩).view.build.isOk = true := by decide +kernel
    cases hbuilt : (Machine.oneCell 1 ⟨0x40400000⟩).view.build with
    | error cause =>
      rw [hbuilt] at hbuilds
      cases hbuilds
    | ok built =>
      obtain ⟨t, hcall, hagain⟩ := hsealed.rebuilds (Machine.oneCell 1 ⟨0x40400000⟩).forward
        (Machine.oneCell 1 ⟨0x40400000⟩).transpose ⟨torn, []⟩ _ built hpiece hcut htorn hroot hbuilt
      exact ⟨_, torn, built, t, hsave, hroot, hcut, hcall, hagain⟩
  · obtain ⟨loaded, hload, hagrees⟩ := hsealed'.loaded
    exact ⟨_, loaded, hsave', hload, hagrees⟩

end Relatedness
