import Relatedness.Proofs.Disk.Transaction

/-! Work inside of one directory. Files are created, written, moved and removed under names of
the directory; however much of it succeeds, nothing outside of the directory is different, and
no file that was there before the work began. -/

namespace Relatedness

namespace FileSystem

open Relatedness.Path

/-- Nothing is different but what stands in the directory at a place, and every file there was
created since. -/
structure Inside (a : Place) (fs fs' : FileSystem) : Prop where
  wellFormed : fs'.WellFormed
  size : fs.files.size ≤ fs'.files.size
  files : ∀ id < fs.files.size, fs'.files[id]? = fs.files[id]?
  directory : fs'.at? a = fs.at? a
  outside : ∀ b, ¬a <+: b → fs'.at? b = fs.at? b
  fresh : ∀ r id, fs'.at? (a ++ r) = some (.file id) → fs.files.size ≤ id

variable {base fs fs' : FileSystem} {p : Path} {name other : String}

/-- Before the work begins there is no file in the directory. -/
theorem Inside.start {a : Place} (hfs : fs.WellFormed) (hdir : fs.at? a = some .directory)
    (hempty : ∀ r, r ≠ [] → fs.at? (a ++ r) = none) : fs.Inside a fs := by
  refine ⟨hfs, Nat.le_refl _, fun _ _ => rfl, rfl, fun _ _ => rfl, fun r id hfile => ?_⟩
  by_cases hr : r = []
  · rw [hr, List.append_nil, hdir] at hfile
    cases hfile
  · rw [hempty r hr] at hfile
    cases hfile

theorem Inside.setContent {a : Place} (h : base.Inside a fs) {id : Nat}
    (hid : base.files.size ≤ id) (bytes : Bytes) : base.Inside a (fs.setContent id bytes) where
  wellFormed := h.wellFormed.setContent id bytes
  size := by simpa using h.size
  files old hold := by
    rw [← h.files old hold]
    exact Array.getElem?_setIfInBounds_ne (by omega)
  directory := h.directory
  outside := h.outside
  fresh := h.fresh

theorem Inside.openOrCreate (h : base.Inside p.place fs) (hname : IsName name) {id : Nat}
    (hopen : fs.openOrCreate (p.child name) = .ok (id, fs')) :
    base.Inside p.place fs' ∧ base.files.size ≤ id := by
  have hfs' := openOrCreate_wellFormed h.wellFormed hopen
  have hplace := place_child hname p
  rcases openOrCreate_eq_ok h.wellFormed hopen with ⟨hfile, rfl⟩ | ⟨hnone, rfl, hat, hfiles⟩
  · exact ⟨h, h.fresh [name] id (hplace ▸ hfile)⟩
  have hsize := h.size
  have hnot : ∀ b, ¬p.place <+: b → b ≠ (p.child name).place := by
    rintro b hb rfl
    exact hb (hplace ▸ List.prefix_append _ _)
  refine ⟨⟨hfs', ?_, fun old hold => ?_, ?_, fun b hb => ?_, fun r id hfile => ?_⟩, hsize⟩
  · rw [hfiles, Array.size_push]
    omega
  · rw [hfiles, Array.getElem?_push_lt (by omega), ← h.files old hold,
      Array.getElem?_eq_getElem (by omega)]
  · rw [hat, if_neg (by simp [hplace]), h.directory]
  · rw [hat, if_neg (hnot b hb), h.outside b hb]
  · rw [hat] at hfile
    split at hfile
    · cases hfile
      exact hsize
    · exact h.fresh r id hfile

theorem Inside.writeFile (h : base.Inside p.place fs) (hname : IsName name) {bytes : Bytes}
    (hwrite : fs.writeFile (p.child name) bytes = .ok fs') : base.Inside p.place fs' := by
  unfold FileSystem.writeFile at hwrite
  cases hopen : fs.openOrCreate (p.child name) with
  | error e =>
    rw [hopen] at hwrite
    cases hwrite
  | ok r =>
    rw [hopen] at hwrite
    cases hwrite
    obtain ⟨hmid, hid⟩ := h.openOrCreate hname hopen
    exact hmid.setContent hid bytes

theorem Inside.removeFile (h : base.Inside p.place fs) (hname : IsName name)
    (hremove : fs.removeFile (p.child name) = .ok fs') : base.Inside p.place fs' := by
  obtain ⟨hfs', hfiles, _, hat⟩ := removeFile_spec h.wellFormed hremove
  rw [place_child hname] at hat
  refine ⟨hfs', hfiles ▸ h.size, fun old hold => ?_, ?_, fun b hb => ?_, fun r id hfile => ?_⟩
  · rw [hfiles, h.files old hold]
  · rw [hat, if_neg (by simp), h.directory]
  · rw [hat, if_neg ?_, h.outside b hb]
    rintro rfl
    exact hb (List.prefix_append _ _)
  · rw [hat] at hfile
    split at hfile
    · cases hfile
    · exact h.fresh r id hfile

theorem Inside.move (h : base.Inside p.place fs) (hname : IsName name) (hother : IsName other)
    (hmove : fs.move (p.child name) (p.child other) = .ok fs') : base.Inside p.place fs' := by
  obtain ⟨hfs', hfiles, _, hmoved⟩ := move_spec h.wellFormed hmove
  rw [place_child hname, place_child hother] at hmoved
  rcases hmoved with ⟨_, rfl⟩ | ⟨_, _, _, htarget, hsource, houtside⟩
  · exact h
  have hnot : ∀ {b} (step : String), ¬p.place <+: b → ¬p.place ++ [step] <+: b :=
    fun _ hb hpre => hb ((List.prefix_append _ _).trans hpre)
  have hlonger : ∀ step : String, ¬p.place ++ [step] <+: p.place := by
    intro step hpre
    have hle := hpre.length_le
    rw [List.length_append, List.length_singleton] at hle
    omega
  refine ⟨hfs', hfiles ▸ h.size, fun old hold => ?_, ?_, fun b hb => ?_, fun r id hfile => ?_⟩
  · rw [hfiles, h.files old hold]
  · rw [houtside _ (hlonger name) (hlonger other), h.directory]
  · rw [houtside b (hnot name hb) (hnot other hb), h.outside b hb]
  · by_cases htaken : p.place ++ [other] <+: p.place ++ r
    · obtain ⟨u, heq⟩ := htaken
      rw [← heq, htarget, List.append_assoc] at hfile
      exact h.fresh _ id hfile
    by_cases hleft : p.place ++ [name] <+: p.place ++ r
    · obtain ⟨u, heq⟩ := hleft
      rw [← heq, hsource] at hfile
      cases hfile
    · rw [houtside _ hleft htaken] at hfile
      exact h.fresh r id hfile

end FileSystem

namespace Path

variable {p : Path} {fs fs' : FileSystem}

/-- Work in the staging directory is beside the path, which stays as it was. -/
theorem beside_of_inside (h : fs.Inside p.staging.place fs') : p.Beside fs fs' :=
  ⟨h.wellFormed, h.size, h.files, fun a ha => .inl (h.outside a ha.2.1)⟩

theorem sameWithin_of_inside {name : String} (hname : p.fileName? = some name)
    (h : fs.Inside p.staging.place fs') : FileSystem.SameWithin p.place fs fs' :=
  fun r => h.outside _ ((apart_siblings hname).1.not_prefix_append r)

end Path

namespace Replacement

open FileSystem Relatedness.Path

variable {base : FileSystem} {p : Path} {name other : String}

/-- Replacing a file in a directory is work inside of it, however far it comes. -/
theorem keeps_replaceFile (hname : IsName name) (hother : IsName other) (content : Bytes)
    (tidy : Bool) : Keeps (base.Inside p.place)
      (replaceFile (p.child name) (p.child other) content tidy) := by
  have hdiscard : Keeps (base.Inside p.place)
      (DiskM.attempt (DiskM.change (·.removeFile (p.child name)))) :=
    DiskM.keeps_attempt (DiskM.keeps_change fun h hremove => h.removeFile hname hremove)
  refine Keeps.bind (Keeps.tryCatch (DiskM.keeps_change fun h hwrite => h.writeFile hname hwrite)
    fun _ => Keeps.bind hdiscard fun _ => Keeps.throw) fun _ => ?_
  refine Keeps.tryCatch (DiskM.keeps_change fun h hmove => h.move hname hother hmove)
    fun _ => Keeps.ite ?_ ?_
  · exact Keeps.bind hdiscard fun _ => Keeps.throw
  · exact Keeps.throw

end Replacement
end Relatedness
