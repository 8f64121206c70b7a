import Mathlib.Data.List.DropRight
import Relatedness.Proofs.Disk.Way

/-! Replacing a directory as a transaction. Whether it succeeds or fails, and at whichever step,
nothing but the directory, its two siblings and the directories above it is different afterwards;
if it fails, the directory is as it was. This holds on a disk on which the way to the directory
does not lead back through what is replaced. -/

namespace Relatedness

open FileSystem

/-- Below a place everything is as it was. -/
def FileSystem.SameWithin (a : Place) (fs fs' : FileSystem) : Prop :=
  ∀ r, fs'.at? (a ++ r) = fs.at? (a ++ r)

theorem FileSystem.SameWithin.trans {a : Place} {fs₁ fs₂ fs₃ : FileSystem}
    (h : SameWithin a fs₁ fs₂) (h' : SameWithin a fs₂ fs₃) : SameWithin a fs₁ fs₃ :=
  fun r => (h' r).trans (h r)

theorem FileSystem.SameWithin.at?_eq {a : Place} {fs fs' : FileSystem} (h : SameWithin a fs fs') :
    fs'.at? a = fs.at? a := by
  simpa using h []

namespace Path

variable {p : Path} {name : String} {fs fs' : FileSystem}

/-- Outside of the path and its siblings only directories above the path were made, and no file
that was there has another content. -/
structure Beside (p : Path) (fs fs' : FileSystem) : Prop where
  wellFormed : fs'.WellFormed
  size : fs.files.size ≤ fs'.files.size
  files : ∀ id < fs.files.size, fs'.files[id]? = fs.files[id]?
  outside : ∀ a, p.Outside a → fs'.at? a = fs.at? a ∨
    a <+: p.parent.place ∧ fs.at? a = none ∧ fs'.at? a = some .directory

theorem Beside.trans {fs₁ fs₂ fs₃ : FileSystem} (h : p.Beside fs₁ fs₂) (h' : p.Beside fs₂ fs₃) :
    p.Beside fs₁ fs₃ := by
  refine ⟨h'.wellFormed, h.size.trans h'.size, fun id hid => ?_, fun a ha => ?_⟩
  · rw [h'.files id (Nat.lt_of_lt_of_le hid h.size), h.files id hid]
  · rcases h'.outside a ha with heq | ⟨habove, hnone, hdir⟩
    · rw [heq]
      exact h.outside a ha
    · rcases h.outside a ha with heq | ⟨_, _, hdir'⟩
      · exact .inr ⟨habove, heq ▸ hnone, hdir⟩
      · cases hnone.symm.trans hdir'

/-- A change of places within the path and its siblings, without one of files. -/
theorem Beside.of_outside (hfs' : fs'.WellFormed) (hfiles : fs'.files = fs.files)
    (h : ∀ a, p.Outside a → fs'.at? a = fs.at? a) : p.Beside fs fs' :=
  ⟨hfs', by rw [hfiles], fun _ _ => by rw [hfiles], fun a ha => .inl (h a ha)⟩

theorem Steady.of_beside (h : p.Steady fs) (hbeside : p.Beside fs fs') : p.Steady fs' :=
  h.of_at? fun a ha hdir => by
    rcases hbeside.outside a ha with heq | ⟨_, _, hdir'⟩
    · rw [heq, hdir]
    · exact hdir'

/-- A place above the path is not within it or one of its siblings. -/
theorem outside_of_begins (hname : p.fileName? = some name) {a : Place}
    (h : a <+: p.parent.place) : p.Outside a := by
  have hlonger : ∀ other, ¬p.parent.place ++ [other] <+: a := by
    intro other hpre
    have hle := (hpre.trans h).length_le
    rw [List.length_append, List.length_singleton] at hle
    omega
  unfold Outside
  rw [(place_of_fileName? hname).2, place_staging hname, place_retired hname]
  exact ⟨hlonger _, hlonger _, hlonger _⟩

/-- The directory above the path stays. -/
theorem Beside.above (h : p.Beside fs fs') (hname : p.fileName? = some name)
    (hdir : fs.at? p.parent.place = some .directory) :
    fs'.at? p.parent.place = some .directory := by
  rcases h.outside _ (outside_of_begins hname List.prefix_rfl) with heq | ⟨_, _, hdir'⟩
  · rw [heq, hdir]
  · exact hdir'

/-- What stands nowhere on the way to the parent can only be made above the path. -/
theorem Steady.above_of_none (h : p.Steady fs) {a : Place} (ha : a ∈ p.parent.way)
    (hnone : fs.at? a = none) : a <+: p.parent.place := by
  rcases h a ha with hpre | ⟨_, hdir⟩
  · exact hpre
  · cases hnone.symm.trans hdir

theorem pieces_parent_begin (p : Path) : p.parent.pieces <+: p.pieces := by
  obtain ⟨idle, hidle, _⟩ := exists_idle_end p.pieces
  obtain ⟨idle', hidle', _⟩ := exists_idle_end (dropIdleEnd p.pieces).dropLast
  have hfirst : p.parent.pieces <+: (dropIdleEnd p.pieces).dropLast := ⟨idle', hidle'.symm⟩
  exact (hfirst.trans (List.dropLast_prefix _)).trans ⟨idle, hidle.symm⟩

theorem pieces_begin_of_mem_ancestors {q : Path} (h : q ∈ p.ancestors) : q.pieces <+: p.pieces := by
  induction p using ancestors.induct with
  | case1 p hempty =>
    rw [ancestors, if_pos hempty] at h
    cases h
  | case2 p hne ih =>
    rw [ancestors, if_neg hne] at h
    rcases List.mem_cons.mp h with rfl | h
    · exact List.prefix_rfl
    · exact (ih h).trans (pieces_parent_begin p)

theorem way_subset_of_mem_ancestors {q : Path} (h : q ∈ p.ancestors) : q.way ⊆ p.way := by
  obtain ⟨rest, hrest⟩ := pieces_begin_of_mem_ancestors h
  intro a ha
  rw [way, ← hrest]
  exact mem_passes_append.mpr (.inl ha)

theorem mem_way_of_mem_ancestors {q : Path} (h : q ∈ p.ancestors) : q.place ∈ p.way :=
  way_subset_of_mem_ancestors h (place_mem_way q)

/-- The parent of a sibling is that of the path. -/
theorem parent_staging (h : p.fileName? = some name) : p.staging.parent = p.parent := by
  have hparent : p.parent.pieces = dropIdleEnd (dropIdleEnd p.pieces).dropLast := rfl
  have hstem : p.parent.stemPieces = p.parent.pieces := by
    unfold stemPieces endsInSlash
    rw [if_neg]
    intro hslash
    have hidle := not_idle_getLast_dropIdleEnd (hparent ▸ of_decide_eq_true hslash)
    simp [isIdle] at hidle
  have hname := isName_staging name
  rw [staging, sibling_eq_child h, child_eq, hstem]
  have hbody : dropIdleEnd (p.parent.pieces ++ [name ++ "." ++ "staging"]) =
      p.parent.pieces ++ [name ++ "." ++ "staging"] := by
    simp [dropIdleEnd, hname.not_idle]
  have htwice : dropIdleEnd p.parent.pieces = p.parent.pieces := by
    rw [hparent]
    unfold dropIdleEnd
    rw [List.reverse_reverse, List.dropWhile_idempotent]
  rw [parent, hbody, List.dropLast_concat, htwice]

end Path

/-! ## Steps on one directory -/

namespace DiskM

open Relatedness.Path

variable {fs fs' : FileSystem} {p : Path} {name : String}

/-- Where a path leads to a directory, nothing is made. -/
theorem makeDirectories_of_reaches (hfs : fs.WellFormed) (h : fs.Reaches p)
    (hdir : fs.at? p.place = some .directory) : Succeeds (makeDirectories p) fs () fs := by
  obtain ⟨entries, hfind⟩ := h.find hfs hdir
  refine makeDirectories_of_isDirectory ?_ ?_
  · unfold FileSystem.isDirectory
    rw [hfind]
    rfl
  · cases hmake : fs.makeDirectory p with
    | error e => exact ⟨e, rfl⟩
    | ok fs' =>
      obtain ⟨_, hnone, _⟩ := makeDirectory_spec hfs hmake
      cases hnone.symm.trans hdir

theorem at?_of_ensureDirectory (hfs : fs.WellFormed) {u : Unit}
    (h : Succeeds (ensureDirectory p) fs u fs') : fs'.at? p.place = some .directory := by
  simp only [ensureDirectory, succeeds_tryCatch, succeeds_change, fails_change, succeeds_bind,
    succeeds_inspect, succeeds_ite, succeeds_pure, succeeds_throw, and_false, or_false] at h
  rcases h with hmake | ⟨_, _, ⟨_, rfl⟩, found, _, ⟨hfound, rfl⟩, hdir, _, rfl⟩
  · obtain ⟨_, _, _, hat⟩ := makeDirectory_spec hfs hmake
    rw [hat, if_pos rfl]
  · have hdir : fs'.isDirectory p = true := (Except.ok.inj hfound).trans hdir
    unfold FileSystem.isDirectory at hdir
    cases hfind : fs'.find p with
    | error e =>
      rw [hfind] at hdir
      cases hdir
    | ok t =>
      rw [hfind] at hdir
      cases t with
      | file id => cases hdir
      | directory entries =>
        exact Tree.kind?_eq_directory_iff.mpr ⟨entries, (find_eq_ok hfs hfind).1⟩

/-- A directory stands at a path for which all directories were made. -/
theorem at?_of_makeDirectories (hfs : fs.WellFormed) {u : Unit}
    (h : Succeeds (makeDirectories p) fs u fs') : fs'.at? p.place = some .directory := by
  unfold makeDirectories at h
  rw [ancestors] at h
  split at h
  · rename_i hempty
    rw [ensureFirst, succeeds_pure] at h
    rw [h.2, place, hempty]
    exact hfs.root
  · rw [ensureFirst, succeeds_tryCatch] at h
    rcases h with h | ⟨cause, mid, hfirst, h⟩
    · exact at?_of_ensureDirectory hfs h
    · have hkeeps : ∀ fs : FileSystem, Keeps (fun t => t.WellFormed ∧ fs.AddsAt (fun _ => True) t)
          (ensureDirectory p) := fun _ => keeps_ensureDirectory trivial
      have hkeeps' : ∀ fs : FileSystem, Keeps (fun t => t.WellFormed ∧ fs.AddsAt (fun _ => True) t)
          (ensureFirst p.parent.ancestors) := fun _ => keeps_ensureFirst fun _ _ => trivial
      have hmid := ((hkeeps fs).fails hfirst ⟨hfs, rfl, fun _ => .inl rfl⟩).1
      split at h
      · obtain ⟨_, last, hmore, h⟩ := succeeds_bind.mp h
        have hlast := ((hkeeps' mid).succeeds hmore ⟨hmid, rfl, fun _ => .inl rfl⟩).1
        exact at?_of_ensureDirectory hlast h
      · obtain ⟨_, _, hthrow, _⟩ := succeeds_bind.mp h
        exact absurd hthrow succeeds_throw

/-- A directory is made under a name where nothing stands. -/
theorem makeDirectories_child (hfs : fs.WellFormed) (h : fs.Reaches p) (hname : IsName name)
    (hdir : fs.at? p.place = some .directory) (hnone : fs.at? (p.place ++ [name]) = none) :
    ∃ fs', Succeeds (makeDirectories (p.child name)) fs () fs' ∧
      fs.makeDirectory (p.child name) = .ok fs' := by
  have hmake : fs.makeDirectory (p.child name) =
      .ok { fs with root := fs.root.put (p.place ++ [name]) (.directory []) } := by
    unfold FileSystem.makeDirectory
    rw [h.locate_child hfs hname hdir]
    simp only [bind, Except.bind, Tree.kind?_eq_none_iff.mp hnone]
    rfl
  refine ⟨_, ?_, hmake⟩
  unfold makeDirectories
  rw [ancestors, if_neg (by rw [child_eq]; simp), ensureFirst, succeeds_tryCatch, ensureDirectory,
    succeeds_tryCatch, succeeds_change]
  exact .inl (.inl hmake)

end DiskM

namespace Replacement

open Relatedness.Path

variable {fs fs' : FileSystem} {p : Path} {name : String}

/-- Removing what may stand at a path leaves nothing there, or it changes nothing as no directory
stands there. -/
def Clears (fs : FileSystem) (above p : Path) : Prop :=
  (∃ fs', Succeeds (removeIfPresent p : DiskM Unit) fs () fs' ∧ fs'.WellFormed ∧
    fs'.files = fs.files ∧ (∀ r, fs'.at? (p.place ++ r) = none) ∧
    ∀ a, ¬p.place <+: a → fs'.at? a = fs.at? a) ∨
  ∃ e, Fails (removeIfPresent p : DiskM Unit) fs e fs ∧ fs.at? p.place ≠ some .directory ∧
    (fs.at? above.place = some .directory → ∃ id, fs.at? p.place = some (.file id))

theorem clears_child (hfs : fs.WellFormed) (h : fs.Reaches p) (hname : IsName name) :
    Clears fs p (p.child name) := by
  unfold Clears
  rw [place_child hname]
  rcases succeeds_or_fails (removeIfPresent (p.child name) : DiskM Unit) fs with
    ⟨u, fs', hremove⟩ | ⟨e, fs', hremove⟩
  · obtain ⟨hfs', hfiles, hkeep, hcase⟩ := removeIfPresent_spec hfs hremove
    rw [place_child hname] at hkeep hcase
    refine .inl ⟨fs', hremove, hfs', hfiles, fun r => ?_, hkeep⟩
    rcases hcase with ⟨hmissing, rfl⟩ | ⟨_, hgone⟩
    · have hnone := h.at?_of_notFound hfs hname hmissing
      rcases List.eq_nil_or_concat r with rfl | ⟨_, _, rfl⟩
      · rwa [List.append_nil]
      · exact Tree.kind?_append_eq_none (by rw [show fs'.root.kind? _ = _ from hnone]; simp)
          (by simp)
    · exact hgone r
  · have hfails := hremove
    simp only [removeIfPresent, fails_tryCatch, removeTree_eq, DiskM.fails_change, fails_ite,
      fails_pure, fails_throw, and_false, false_or] at hremove
    obtain ⟨_, _, ⟨herror, rfl⟩, hcause, rfl, rfl⟩ := hremove
    refine .inr ⟨_, hfails, fun hdir => ?_, fun habove => ?_⟩
    · obtain ⟨_, hok⟩ := h.removeTree_child hfs hname hdir
      cases hok.symm.trans herror
    · cases hat : fs'.at? (p.place ++ [name]) with
      | some k =>
        cases k with
        | file id => exact ⟨id, rfl⟩
        | directory =>
          obtain ⟨_, hok⟩ := h.removeTree_child hfs hname hat
          cases hok.symm.trans herror
      | none =>
        unfold FileSystem.removeTree at herror
        rw [h.find_child hfs hname habove, Tree.kind?_eq_none_iff.mp hat] at herror
        cases herror
        exact absurd rfl hcause

/-! ## Preparing the staging directory -/

/-- The staging directory is there and empty, and the path is as it was. -/
structure Staged (p : Path) (fs fs' : FileSystem) : Prop where
  beside : p.Beside fs fs'
  target : SameWithin p.place fs fs'
  above : fs'.at? p.parent.place = some .directory
  staging : fs'.at? p.staging.place = some .directory
  empty : ∀ r, r ≠ [] → fs'.at? (p.staging.place ++ r) = none

/-- What may have been made on the way to the parent of a path. -/
theorem beside_of_addsAt (hname : p.fileName? = some name) (hsteady : p.Steady fs)
    (hfs' : fs'.WellFormed)
    (hadds : fs.AddsAt (fun a => ∃ q ∈ p.parent.ancestors, a = q.place) fs') :
    p.Beside fs fs' ∧ ∀ a, ¬p.Outside a → fs'.at? a = fs.at? a := by
  obtain ⟨hfiles, hat⟩ := hadds
  have habove : ∀ a, fs'.at? a = fs.at? a ∨
      a <+: p.parent.place ∧ fs.at? a = none ∧ fs'.at? a = some .directory := by
    intro a
    refine (hat a).imp_right fun ⟨⟨q, hq, heq⟩, hnone, hdir⟩ => ⟨?_, hnone, hdir⟩
    exact hsteady.above_of_none (heq ▸ mem_way_of_mem_ancestors hq) hnone
  refine ⟨⟨hfs', by rw [hfiles], fun _ _ => by rw [hfiles], fun a _ => habove a⟩, fun a ha => ?_⟩
  exact (habove a).resolve_right fun h => ha (outside_of_begins hname h.1)

/-- A place within the staging directory is none outside. -/
theorem not_outside_staging (p : Path) (r : Place) : ¬p.Outside (p.staging.place ++ r) :=
  fun h => h.2.1 (List.prefix_append _ _)

theorem not_outside_place (p : Path) (r : Place) : ¬p.Outside (p.place ++ r) :=
  fun h => h.1 (List.prefix_append _ _)

theorem staging_eq_child (hname : p.fileName? = some name) :
    p.staging = p.parent.child (name ++ "." ++ "staging") := sibling_eq_child hname "staging"

theorem retired_eq_child (hname : p.fileName? = some name) :
    p.retired = p.parent.child (name ++ "." ++ "retired") := sibling_eq_child hname "retired"

theorem clears_staging (hfs : fs.WellFormed) (hname : p.fileName? = some name)
    (hsteady : p.Steady fs) : Clears fs p.parent p.staging := by
  rw [staging_eq_child hname]
  exact clears_child hfs hsteady.reaches_parent (isName_staging name)

theorem clears_retired (hfs : fs.WellFormed) (hname : p.fileName? = some name)
    (hsteady : p.Steady fs) : Clears fs p.parent p.retired := by
  rw [retired_eq_child hname]
  exact clears_child hfs hsteady.reaches_parent (isName_retired name)

/-- The staging directory is prepared, or there is none. Nothing but the directories above the
path and what stood at the staging path is different. -/
theorem freshStaging_cases (hfs : fs.WellFormed) (hname : p.fileName? = some name)
    (hsteady : p.Steady fs) :
    (∃ fs', Succeeds (freshStaging p) fs p.staging fs' ∧ Staged p fs fs') ∨
    ∃ e fs', Fails (freshStaging p) fs e fs' ∧ p.Beside fs fs' ∧ SameWithin p.place fs fs' ∧
      fs'.at? p.staging.place ≠ some .directory := by
  obtain ⟨hst, _, _⟩ := apart_siblings hname
  rcases clears_staging hfs hname hsteady with
    ⟨cleared, hclear, hcleared, hfiles, hgone, hkeep⟩ | ⟨e, hfails, hnot, _⟩
  case inr =>
    refine .inr ⟨e, fs, fails_bind.mpr (.inl hfails), ?_, fun _ => rfl, hnot⟩
    exact .of_outside hfs rfl fun _ _ => rfl
  have hbeside : p.Beside fs cleared := .of_outside hcleared hfiles fun a ha => hkeep a ha.2.1
  have htarget : SameWithin p.place fs cleared := fun r => hkeep _ (hst.not_prefix_append r)
  have hsteady' := hsteady.of_beside hbeside
  have hgone' : cleared.at? p.staging.place = none := by simpa using hgone []
  have hadds := DiskM.makeDirectories_addsAt hcleared p.parent
  rcases succeeds_or_fails (DiskM.makeDirectories p.parent) cleared with
    ⟨u, mid, hmake⟩ | ⟨e, mid, hmake⟩
  case inr =>
    rw [show outcome (DiskM.makeDirectories p.parent) cleared = _ from hmake] at hadds
    obtain ⟨hmid, hsame⟩ := beside_of_addsAt hname hsteady' hadds.1 hadds.2
    refine .inr ⟨e, mid, ?_, hbeside.trans hmid,
      htarget.trans fun r => hsame _ (not_outside_place p r), ?_⟩
    · refine fails_bind.mpr (.inr ⟨(), cleared, hclear, fails_bind.mpr (.inl ?_)⟩)
      rw [parent_staging hname]
      exact hmake
    · have hnone := hsame _ (not_outside_staging p [])
      rw [List.append_nil, hgone'] at hnone
      rw [hnone]
      simp
  rw [show outcome (DiskM.makeDirectories p.parent) cleared = _ from hmake] at hadds
  obtain ⟨hmid, hsame⟩ := beside_of_addsAt hname hsteady' hadds.1 hadds.2
  have habove := DiskM.at?_of_makeDirectories hcleared hmake
  have hempty : ∀ r, mid.at? (p.staging.place ++ r) = none :=
    fun r => (hsame _ (not_outside_staging p r)).trans (hgone r)
  -- the parent stands and nothing stands at the staging path, so the directory is made at once
  obtain ⟨fs', hlast, hnew⟩ := DiskM.makeDirectories_child hmid.wellFormed
    (hsteady'.of_beside hmid).reaches_parent
    (isName_staging name) habove
    (by rw [← place_staging hname]; simpa using hempty [])
  rw [← staging_eq_child hname] at hlast hnew
  obtain ⟨hfs', _, hfiles', hat⟩ := makeDirectory_spec hmid.wellFormed hnew
  have hbeside' : p.Beside mid fs' := .of_outside hfs' hfiles' fun a ha => by
    rw [hat, if_neg]
    exact fun heq => ha.2.1 (heq ▸ List.prefix_rfl)
  refine .inl ⟨fs', ?_, (hbeside.trans hmid).trans hbeside', ?_, ?_, ?_, ?_⟩
  · refine succeeds_bind.mpr ⟨(), cleared, hclear, succeeds_bind.mpr ⟨u, mid, ?_,
      succeeds_bind.mpr ⟨(), fs', hlast, succeeds_pure.mpr ⟨rfl, rfl⟩⟩⟩⟩
    rw [parent_staging hname]
    exact hmake
  · refine (htarget.trans fun r => hsame _ (not_outside_place p r)).trans fun r => ?_
    rw [hat, if_neg]
    exact fun heq => hst.not_prefix_append r (heq ▸ List.prefix_rfl)
  · rw [hat, if_neg, habove]
    intro heq
    exact (outside_of_begins hname List.prefix_rfl).2.1 (heq ▸ List.prefix_rfl)
  · rw [hat, if_pos rfl]
  · intro r hr
    rw [hat, if_neg (by simpa using hr), hempty]

theorem staged_of_succeeds (hfs : fs.WellFormed) (hname : p.fileName? = some name)
    (hsteady : p.Steady fs) {staging : Path} (h : Succeeds (freshStaging p) fs staging fs') :
    Staged p fs fs' := by
  rcases freshStaging_cases hfs hname hsteady with ⟨_, hok, hstaged⟩ | ⟨_, _, hfails, _⟩
  · rw [(h.unique hok).2]
    exact hstaged
  · exact absurd hfails h.not_fails

/-- The staging directory can always be removed again. -/
theorem discard_staging (hfs : fs.WellFormed) (hname : p.fileName? = some name)
    (hsteady : p.Steady fs) (hdir : fs.at? p.staging.place = some .directory) :
    ∃ fs', Succeeds (DiskM.attempt (removeIfPresent p.staging)) fs () fs' ∧ p.Beside fs fs' ∧
      SameWithin p.place fs fs' ∧ fs'.at? p.staging.place = none := by
  rcases clears_staging hfs hname hsteady with
    ⟨fs', hremove, hfs', hfiles, hgone, hkeep⟩ | ⟨_, _, hnot, _⟩
  · refine ⟨fs', DiskM.succeeds_attempt.mpr (.inl ⟨(), hremove⟩),
      .of_outside hfs' hfiles fun a ha => hkeep a ha.2.1,
      fun r => hkeep _ ((apart_siblings hname).1.not_prefix_append r), by simpa using hgone []⟩
  · exact absurd hdir hnot

/-- In a directory the staging directory can be prepared, unless a file has its name. -/
theorem freshStaging_of_directory (hfs : fs.WellFormed) (hname : p.fileName? = some name)
    (hsteady : p.Steady fs) (hdir : fs.at? p.parent.place = some .directory)
    (hfile : ∀ id, fs.at? p.staging.place ≠ some (.file id)) :
    ∃ fs', Succeeds (freshStaging p) fs p.staging fs' ∧ Staged p fs fs' := by
  rcases freshStaging_cases hfs hname hsteady with hok | ⟨e, fs', hfails, _⟩
  · exact hok
  rcases clears_staging hfs hname hsteady with
    ⟨cleared, hclear, hcleared, hfiles, hgone, hkeep⟩ | ⟨_, _, _, hat⟩
  case inr =>
    obtain ⟨id, hat⟩ := hat hdir
    exact absurd hat (hfile id)
  have hsteady' := hsteady.of_beside (.of_outside hcleared hfiles fun a ha => hkeep a ha.2.1)
  have habove : cleared.at? p.parent.place = some .directory := by
    rw [hkeep _ (outside_of_begins hname List.prefix_rfl).2.1, hdir]
  have hmake := DiskM.makeDirectories_of_reaches hcleared hsteady'.reaches_parent habove
  obtain ⟨last, hlast, _⟩ := DiskM.makeDirectories_child hcleared hsteady'.reaches_parent
    (isName_staging name) habove
    (by rw [← place_staging hname]; simpa using hgone [])
  rw [← staging_eq_child hname] at hlast
  have hok : Succeeds (freshStaging p) fs p.staging last := by
    refine succeeds_bind.mpr ⟨(), cleared, hclear, succeeds_bind.mpr ⟨(), cleared, ?_,
      succeeds_bind.mpr ⟨(), last, hlast, succeeds_pure.mpr ⟨rfl, rfl⟩⟩⟩⟩
    rw [parent_staging hname]
    exact hmake
  exact absurd hfails hok.not_fails

/-! ## Putting the staging directory in place -/

/-- A directory can be moved beside itself to a name under which nothing stands. -/
theorem exists_move (hfs : fs.WellFormed) {q : Path} {start goal : Location}
    (hstart : fs.root.locate p = .ok start) (hgoal : fs.root.locate q = .ok goal)
    (hstartNamed : start.named = true) (hgoalNamed : goal.named = true)
    (hdir : fs.at? p.place = some .directory) (hnone : fs.at? q.place = none)
    (hapart : Place.Apart p.place q.place) : ∃ fs', fs.move p q = .ok fs' := by
  obtain ⟨entries, hfind⟩ := Tree.kind?_eq_directory_iff.mp hdir
  have hp := (Tree.locate_eq_ok hfs.root hstart).1
  have hq := (Tree.locate_eq_ok hfs.root hgoal).1
  have hne : p.place ≠ q.place := fun heq => hapart.1 (heq ▸ List.prefix_rfl)
  have hpq : ¬p.place.isPrefixOf q.place = true :=
    fun h => hapart.1 (List.isPrefixOf_iff_prefix.mp h)
  have hqp : ¬q.place.isPrefixOf p.place = true :=
    fun h => hapart.2 (List.isPrefixOf_iff_prefix.mp h)
  refine ⟨{ fs with
    root := (fs.root.erase p.place).put q.place (.directory entries) }, ?_⟩
  unfold move
  rw [hstart, hgoal]
  simp only [bind, Except.bind, hstartNamed, hgoalNamed, Bool.and_self, if_true, hp, hq, hfind,
    Tree.isFile, Bool.false_and, Bool.false_eq_true, if_false, if_neg hne, if_neg hpq, if_neg hqp,
    Tree.kind?_eq_none_iff.mp hnone]
  rfl

/-- A directory beside the path can be moved to it, if nothing stands there. -/
theorem exists_move_sibling (hfs : fs.WellFormed) (hlast : p.steps.getLast? = some name)
    (hname : IsName name) (hsteady : p.Steady fs) {suffix : String}
    (hsuffix : IsName (name ++ "." ++ suffix))
    (hapart : Place.Apart (p.sibling suffix).place p.place)
    (habove : fs.at? p.parent.place = some .directory)
    (hdir : fs.at? (p.sibling suffix).place = some .directory) (hnone : fs.at? p.place = none) :
    ∃ fs', fs.move (p.sibling suffix) p = .ok fs' := by
  have hfile := fileName?_of_getLast?_steps hlast hname
  have hreaches := hsteady.reaches_parent
  have hgoal := Tree.locate_of_way hfs.root hlast hname (hreaches habove)
  have hsource := hreaches.locate_child hfs hsuffix habove
  rw [← sibling_eq_child hfile] at hsource
  exact exists_move hfs hsource hgoal rfl rfl hdir hnone hapart

/-- A staged directory can be moved to the path, if nothing stands there. -/
theorem exists_move_staging (hfs : fs.WellFormed) (hlast : p.steps.getLast? = some name)
    (hname : IsName name) (hsteady : p.Steady fs)
    (habove : fs.at? p.parent.place = some .directory)
    (hstaging : fs.at? p.staging.place = some .directory) (hnone : fs.at? p.place = none) :
    ∃ fs', fs.move p.staging p = .ok fs' :=
  exists_move_sibling hfs hlast hname hsteady (isName_staging name)
    (apart_siblings (fileName?_of_getLast?_steps hlast hname)).1 habove hstaging hnone

/-- A retired directory can be moved back to the path, if nothing stands there. -/
theorem exists_move_back (hfs : fs.WellFormed) (hlast : p.steps.getLast? = some name)
    (hname : IsName name) (hsteady : p.Steady fs)
    (habove : fs.at? p.parent.place = some .directory)
    (hretired : fs.at? p.retired.place = some .directory) (hnone : fs.at? p.place = none) :
    ∃ fs', fs.move p.retired p = .ok fs' :=
  exists_move_sibling hfs hlast hname hsteady (isName_retired name)
    (apart_siblings (fileName?_of_getLast?_steps hlast hname)).2.2.symm habove hretired hnone

/-- A directory at the path can be moved aside, if nothing stands there. -/
theorem exists_move_retired (hfs : fs.WellFormed) (hlast : p.steps.getLast? = some name)
    (hname : IsName name) (hsteady : p.Steady fs) (hdir : fs.at? p.place = some .directory)
    (hnone : fs.at? p.retired.place = none) : ∃ fs', fs.move p p.retired = .ok fs' := by
  have hfile := fileName?_of_getLast?_steps hlast hname
  have hreaches := hsteady.reaches_parent
  have habove := at?_of_begins hdir ((place_of_fileName? hfile).2 ▸ List.prefix_append _ _)
  have hsource := Tree.locate_of_way hfs.root hlast hname (hreaches habove)
  have hgoal := hreaches.locate_child hfs (isName_retired name) habove
  rw [← retired_eq_child hfile] at hgoal
  exact exists_move hfs hsource hgoal rfl rfl hdir hnone (apart_siblings hfile).2.2

theorem at?_of_present (hfs : fs.WellFormed) (h : fs.present p = true) : fs.at? p.place ≠ none := by
  unfold FileSystem.present at h
  cases hfind : fs.find p with
  | error e =>
    rw [hfind] at h
    cases h
  | ok t =>
    intro hnone
    cases (find_eq_ok hfs hfind).1.symm.trans (Tree.kind?_eq_none_iff.mp hnone)

/-- The staging directory stands at the path now, and neither sibling is left. -/
structure Replaced (p : Path) (fs fs' : FileSystem) : Prop where
  beside : p.Beside fs fs'
  files : fs'.files = fs.files
  moved : ∀ r, fs'.at? (p.place ++ r) = fs.at? (p.staging.place ++ r)
  staging : ∀ r, fs'.at? (p.staging.place ++ r) = none
  retired : ∀ r, fs'.at? (p.retired.place ++ r) = none

/-- Where a replacement stops if it fails. -/
theorem replaceDirectory_stops {e : IoError}
    (h : Fails (replaceDirectory p.staging p : DiskM Unit) fs e fs') :
    Fails (removeIfPresent p.retired : DiskM Unit) fs e fs' ∨
    ∃ cleared, Succeeds (removeIfPresent p.retired : DiskM Unit) fs () cleared ∧
      (fs' = cleared ∨ cleared.present p = true ∧ ∃ aside, cleared.move p p.retired = .ok aside ∧
        ((aside.move p.retired p = .ok fs' ∨
            (∃ cause, aside.move p.retired p = .error cause) ∧ fs' = aside) ∨
          ∃ placed, aside.move p.staging p = .ok placed ∧
            Fails (removeIfPresent p.retired : DiskM Unit) placed e fs')) := by
  simp only [replaceDirectory, fails_bind, succeeds_bind, fails_tryCatch, succeeds_tryCatch,
    move_eq, present_eq, DiskM.succeeds_change, DiskM.fails_change, DiskM.succeeds_inspect,
    DiskM.fails_inspect, fails_ite, succeeds_ite, fails_pure, succeeds_pure, fails_throw,
    succeeds_throw, and_false, exists_false, or_false, false_or] at h
  rcases h with hclear | ⟨_, cleared, hclear, hrest⟩
  · exact .inl hclear
  refine .inr ⟨cleared, hclear, ?_⟩
  rcases hrest with ⟨hlook, _⟩ | ⟨found, _, ⟨hfound, rfl⟩, hrest⟩
  · cases hlook
  cases hfound
  rcases hrest with ⟨hold, hretire⟩ | ⟨hnew, hplace⟩
  case inr =>
    rcases hplace with ⟨_, _, ⟨_, rfl⟩, ⟨hold, _⟩ | ⟨_, _, rfl⟩⟩ | ⟨_, _, _, hold, _⟩
    · exact absurd hold hnew
    · exact .inl rfl
    · exact absurd hold hnew
  rcases hretire with ⟨_, rfl⟩ | ⟨_, aside, haside, hplace⟩
  · exact .inl rfl
  refine .inr ⟨hold, aside, haside, ?_⟩
  rcases hplace with ⟨_, _, ⟨_, rfl⟩, hback⟩ | ⟨_, placed, hmove, _, hclean⟩
  · rcases hback with ⟨_, _, _, hback | ⟨cause, _, ⟨hback, rfl⟩, _, rfl⟩, _, rfl⟩ | ⟨hnot, _⟩
    · exact .inl (.inl hback)
    · exact .inl (.inr ⟨⟨cause, hback⟩, rfl⟩)
    · exact absurd hold hnot
  · exact .inr ⟨placed, hmove, hclean⟩

/-- Nothing is left of the retired directory once it was removed. -/
theorem gone_of_removeIfPresent (hfs : fs.WellFormed) (hname : p.fileName? = some name)
    (hsteady : p.Steady fs) {u : Unit}
    (h : Succeeds (removeIfPresent p.retired : DiskM Unit) fs u fs') (r : Place) :
    fs'.at? (p.retired.place ++ r) = none := by
  rcases clears_retired hfs hname hsteady with ⟨_, hok, _, _, hgone, _⟩ | ⟨_, hfails, _⟩
  · rw [(h.unique hok).2, hgone]
  · exact absurd hfails h.not_fails

/-- A replacement that succeeds leaves nothing of the retired directory. -/
theorem replaced_of_succeeds (hfs : fs.WellFormed) (hname : p.fileName? = some name)
    (hsteady : p.Steady fs) {u : Unit}
    (h : Succeeds (replaceDirectory p.staging p : DiskM Unit) fs u fs') : Replaced p fs fs' := by
  obtain ⟨hst, hsr, htr⟩ := apart_siblings hname
  obtain ⟨hfs', hfiles, hmoved, hstaging, hkeep⟩ := replaceDirectory_spec hfs hst hsr htr h
  refine ⟨.of_outside hfs' hfiles fun a ha => hkeep a ha.2.1 ha.1 ha.2.2, hfiles, hmoved, hstaging,
    fun r => ?_⟩
  obtain ⟨cleared, hclear, hcase⟩ := replaceDirectory_moves h
  obtain ⟨hcleared, hfilesClear, hkeepClear, _⟩ := removeIfPresent_spec hfs hclear
  rcases hcase with ⟨_, hmove⟩ | ⟨_, aside, placed, hretire, hmove, hclean⟩
  · obtain ⟨_, _, _, _, hout⟩ := move_of_apart hcleared hst hmove
    rw [hout _ (hsr.not_prefix_append r) (htr.not_prefix_append r)]
    exact gone_of_removeIfPresent hfs hname hsteady hclear r
  · obtain ⟨haside, hfilesAside, _, _, hout⟩ := move_of_apart hcleared htr hretire
    obtain ⟨hplaced, hfilesPlaced, _, _, hout'⟩ := move_of_apart haside hst hmove
    have hbeside : p.Beside fs placed := by
      refine .of_outside hplaced ((hfilesPlaced.trans hfilesAside).trans hfilesClear) fun a ha => ?_
      rw [hout' a ha.2.1 ha.1, hout a ha.1 ha.2.2, hkeepClear a ha.2.2]
    exact gone_of_removeIfPresent hplaced hname (hsteady.of_beside hbeside) hclean r

/-- The directory at the path was moved aside, and nothing else is different. -/
structure Retired (p : Path) (fs aside : FileSystem) : Prop where
  beside : p.Beside fs aside
  files : aside.files = fs.files
  moved : ∀ r, aside.at? (p.retired.place ++ r) = fs.at? (p.place ++ r)
  gone : ∀ r, aside.at? (p.place ++ r) = none
  staging : SameWithin p.staging.place fs aside

theorem retired_of_move (hfs : fs.WellFormed) (hname : p.fileName? = some name)
    {aside : FileSystem} (h : fs.move p p.retired = .ok aside) : Retired p fs aside := by
  obtain ⟨hst, hsr, htr⟩ := apart_siblings hname
  obtain ⟨haside, hfiles, hmoved, hgone, hout⟩ := move_of_apart hfs htr h
  exact ⟨.of_outside haside hfiles fun a ha => hout a ha.1 ha.2.2, hfiles, hmoved, hgone,
    fun r => hout _ (hst.symm.not_prefix_append r) (hsr.symm.not_prefix_append r)⟩

/-- What was moved aside can be put back, and then everything is as it was. -/
theorem Retired.put_back (h : Retired p fs fs') (hsteady : p.Steady fs)
    (hlast : p.steps.getLast? = some name) (hlastName : IsName name)
    (hdir : fs.at? p.place = some .directory) :
    ∃ back, fs'.move p.retired p = .ok back ∧ p.Beside fs back ∧ back.files = fs.files ∧
      SameWithin p.place fs back ∧ SameWithin p.staging.place fs back := by
  have hname := fileName?_of_getLast?_steps hlast hlastName
  obtain ⟨hst, hsr, htr⟩ := apart_siblings hname
  have habove : fs.at? p.parent.place = some .directory :=
    at?_of_begins hdir ((place_of_fileName? hname).2 ▸ List.prefix_append _ _)
  obtain ⟨back, hback⟩ := exists_move_back h.beside.wellFormed hlast hlastName
    (hsteady.of_beside h.beside) (h.beside.above hname habove) (by simpa [hdir] using h.moved [])
    (by simpa using h.gone [])
  obtain ⟨hwell, hfiles, hmoved, _, hout⟩ := move_of_apart h.beside.wellFormed htr.symm hback
  have hbeside : p.Beside fs' back := .of_outside hwell hfiles fun a ha => hout a ha.2.2 ha.1
  refine ⟨back, hback, h.beside.trans hbeside, hfiles.trans h.files, fun r => ?_, fun r => ?_⟩
  · rw [hmoved, h.moved]
  · rw [hout _ (hsr.symm.not_prefix_append r) (hst.symm.not_prefix_append r), h.staging]

/-- What was moved aside can be removed once the staging directory is in its place. -/
theorem Retired.clean_not_fails (h : Retired p fs fs') (hname : p.fileName? = some name)
    (hsteady : p.Steady fs) (hdir : fs.at? p.place = some .directory) {placed : FileSystem}
    (hmove : fs'.move p.staging p = .ok placed) {e : IoError} {t : FileSystem} :
    ¬Fails (removeIfPresent p.retired : DiskM Unit) placed e t := by
  obtain ⟨hst, hsr, htr⟩ := apart_siblings hname
  obtain ⟨hplaced, hfiles, _, _, hout⟩ := move_of_apart h.beside.wellFormed hst hmove
  have hbeside : p.Beside fs' placed := .of_outside hplaced hfiles fun a ha => hout a ha.2.1 ha.1
  rcases clears_retired hplaced hname (hsteady.of_beside (h.beside.trans hbeside)) with
    ⟨_, hok, _⟩ | ⟨_, _, hnot, _⟩
  · exact hok.not_fails
  · refine absurd ?_ hnot
    rw [hout _ hsr.1 htr.1]
    simpa [hdir] using h.moved []

/-- A replacement that fails leaves the path and the staging directory as they were: what was moved
aside has been put back. -/
theorem unreplaced_of_fails (hfs : fs.WellFormed) (hname : p.fileName? = some name)
    (hsteady : p.Steady fs) (hfile : ∀ id, fs.at? p.place ≠ some (.file id)) {e : IoError}
    (h : Fails (replaceDirectory p.staging p : DiskM Unit) fs e fs') :
    p.Beside fs fs' ∧ fs'.files = fs.files ∧ SameWithin p.place fs fs' ∧
      SameWithin p.staging.place fs fs' := by
  obtain ⟨_, hsr, htr⟩ := apart_siblings hname
  rcases replaceDirectory_stops h with hclear | ⟨cleared, hclear, hstop⟩
  · rcases clears_retired hfs hname hsteady with ⟨_, hok, _⟩ | ⟨_, hfails, _⟩
    · exact absurd hclear hok.not_fails
    · rw [(hclear.unique hfails).2]
      exact ⟨.of_outside hfs rfl fun _ _ => rfl, rfl, fun _ => rfl, fun _ => rfl⟩
  obtain ⟨hcleared, hfiles, hkeep, _⟩ := removeIfPresent_spec hfs hclear
  have hbeside : p.Beside fs cleared := .of_outside hcleared hfiles fun a ha => hkeep a ha.2.2
  have htarget : SameWithin p.place fs cleared := fun r => hkeep _ (htr.symm.not_prefix_append r)
  have hstaging : SameWithin p.staging.place fs cleared :=
    fun r => hkeep _ (hsr.symm.not_prefix_append r)
  rcases hstop with rfl | ⟨hold, aside, haside, hplace⟩
  · exact ⟨hbeside, hfiles, htarget, hstaging⟩
  have hdir : cleared.at? p.place = some .directory := by
    cases hat : cleared.at? p.place with
    | none => exact absurd hat (at?_of_present hcleared hold)
    | some k =>
      cases k with
      | directory => rfl
      | file id => exact absurd (htarget.at?_eq.symm.trans hat) (hfile id)
  have hretired := retired_of_move hcleared hname haside
  have hsteady' := hsteady.of_beside hbeside
  rcases hplace with hback | ⟨placed, hmove, hclean⟩
  · obtain ⟨start, _, _, hstart, _, hstartNamed, _⟩ := move_cases haside
    obtain ⟨_, hlast, hlastName⟩ := Tree.name_of_locate hstart hstartNamed
    obtain ⟨back, hok, hbesideBack, hfilesBack, htargetBack, hstagingBack⟩ :=
      hretired.put_back hsteady' hlast hlastName hdir
    have heq : fs' = back := by
      rcases hback with hback | ⟨⟨_, hback⟩, _⟩ <;> cases hback.symm.trans hok
      rfl
    rw [heq]
    exact ⟨hbeside.trans hbesideBack, hfilesBack.trans hfiles, htarget.trans htargetBack,
      hstaging.trans hstagingBack⟩
  · exact absurd hclean (hretired.clean_not_fails hname hsteady' hdir hmove)

/-- The staging directory takes the place of the directory at the path, or everything but the
retired sibling is as it was. -/
theorem replaceDirectory_cases (hfs : fs.WellFormed) (hname : p.fileName? = some name)
    (hsteady : p.Steady fs) (hfile : ∀ id, fs.at? p.place ≠ some (.file id)) :
    (∃ fs', Succeeds (replaceDirectory p.staging p : DiskM Unit) fs () fs' ∧ Replaced p fs fs') ∨
    ∃ e fs', Fails (replaceDirectory p.staging p : DiskM Unit) fs e fs' ∧ p.Beside fs fs' ∧
      SameWithin p.place fs fs' ∧ SameWithin p.staging.place fs fs' := by
  rcases succeeds_or_fails (replaceDirectory p.staging p : DiskM Unit) fs with
    ⟨u, fs', h⟩ | ⟨e, fs', h⟩
  · exact .inl ⟨fs', h, replaced_of_succeeds hfs hname hsteady h⟩
  · obtain ⟨hbeside, _, hsame⟩ := unreplaced_of_fails hfs hname hsteady hfile h
    exact .inr ⟨e, fs', h, hbeside, hsame⟩

end Replacement
end Relatedness
