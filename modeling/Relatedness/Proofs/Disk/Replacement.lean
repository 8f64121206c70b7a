import Relatedness.Proofs.Disk.FileSystem
import Relatedness.Proofs.Run

/-! What the replacements leave on the disk when they succeed: a replaced file holds its new
content, a replaced directory is the one that was staged, and the other places are as they
were. -/

namespace Relatedness

open FileSystem

variable {fs fs' : FileSystem}

/-- Neither of two places is inside the other. -/
def Place.Apart (a b : Place) : Prop := ¬a <+: b ∧ ¬b <+: a

namespace Place

theorem Apart.symm {a b : Place} (h : Apart a b) : Apart b a := ⟨h.2, h.1⟩

theorem apart_of_ne {above : Place} {x y : String} (h : x ≠ y) :
    Apart (above ++ [x]) (above ++ [y]) := by
  constructor <;> intro hpre <;> rw [List.prefix_append_right_inj] at hpre <;>
    simp [List.cons_prefix_cons, h, h.symm] at hpre

/-- What is below one of two places that are apart is not below the other. -/
theorem Apart.not_prefix_append {a b : Place} (h : Apart a b) (r : Place) : ¬a <+: b ++ r := by
  intro hpre
  rcases List.prefix_or_prefix_of_prefix hpre (List.prefix_append b r) with hab | hba
  · exact h.1 hab
  · exact h.2 hba

end Place

/-! ## Keeping a property -/

namespace DiskM

theorem keeps_change {P : FileSystem → Prop} {f : FileSystem → Except IoError FileSystem}
    (h : ∀ {fs fs'}, P fs → f fs = .ok fs' → P fs') : Keeps P (change f) := by
  intro fs hfs
  rw [outcome_change]
  cases hf : f fs with
  | ok new => exact h hfs hf
  | error e => exact hfs

theorem keeps_inspect {P : FileSystem → Prop} {α : Type} {f : FileSystem → Except IoError α} :
    Keeps P (inspect f) :=
  fun _ hfs => hfs

theorem keeps_attempt {P : FileSystem → Prop} {α : Type} {x : DiskM α} (h : Keeps P x) :
    Keeps P (attempt x) :=
  h

end DiskM

/-! ## Making directories -/

/-- The only difference is that directories stand where nothing stood. -/
def FileSystem.AddsDirectories (fs fs' : FileSystem) : Prop :=
  fs'.files = fs.files ∧ ∀ a, fs'.at? a = fs.at? a ∨ fs.at? a = none ∧ fs'.at? a = some .directory

theorem FileSystem.AddsDirectories.trans {fs₁ fs₂ fs₃ : FileSystem} (h : fs₁.AddsDirectories fs₂)
    (h' : fs₂.AddsDirectories fs₃) : fs₁.AddsDirectories fs₃ := by
  refine ⟨h'.1.trans h.1, fun a => ?_⟩
  rcases h'.2 a with heq' | ⟨hnone', hdir'⟩
  · rw [heq']
    exact h.2 a
  · rcases h.2 a with heq | ⟨hnone, _⟩
    · exact .inr ⟨heq ▸ hnone', hdir'⟩
    · exact .inr ⟨hnone, hdir'⟩

/-- The only difference is that directories stand at some of these places, where nothing stood. -/
def FileSystem.AddsAt (places : Place → Prop) (fs fs' : FileSystem) : Prop :=
  fs'.files = fs.files ∧
    ∀ a, fs'.at? a = fs.at? a ∨ places a ∧ fs.at? a = none ∧ fs'.at? a = some .directory

namespace DiskM

theorem keeps_ensureDirectory {places : Place → Prop} {p : Path} (hp : places p.place) :
    Keeps (fun t => t.WellFormed ∧ fs.AddsAt places t) (ensureDirectory p) := by
  refine Keeps.tryCatch (keeps_change ?_) fun cause => ?_
  · intro t t' hadds hmake
    obtain ⟨ht, hfiles, hat⟩ := hadds
    obtain ⟨ht', hnone, hsame, hat'⟩ := makeDirectory_spec ht hmake
    refine ⟨ht', hsame.trans hfiles, fun a => ?_⟩
    rw [hat']
    split
    · rename_i heq
      subst heq
      refine .inr ⟨hp, ?_, rfl⟩
      rcases hat p.place with h | ⟨_, h, _⟩
      · rw [← h, hnone]
      · exact h
    · exact hat a
  · refine Keeps.bind keeps_inspect fun found => Keeps.ite ?_ ?_
    · exact Keeps.pure
    · exact Keeps.throw

theorem keeps_ensureFirst {places : Place → Prop} {paths : List Path}
    (hpaths : ∀ p ∈ paths, places p.place) :
    Keeps (fun t => t.WellFormed ∧ fs.AddsAt places t) (ensureFirst paths) := by
  induction paths with
  | nil => exact Keeps.pure
  | cons p above ih =>
    have hp := hpaths p List.mem_cons_self
    refine Keeps.tryCatch (keeps_ensureDirectory hp) fun cause => ?_
    have hrest : Keeps (fun t => t.WellFormed ∧ fs.AddsAt places t)
        (ensureFirst above >>= fun _ => ensureDirectory p) :=
      Keeps.bind (ih fun q hq => hpaths q (List.mem_cons_of_mem p hq)) fun _ =>
        keeps_ensureDirectory hp
    exact Keeps.ite hrest (Keeps.bind Keeps.throw fun _ => hrest)

/-- Whether all directories could be made or not, nothing but new directories at the places of
the path and its ancestors is different. -/
theorem makeDirectories_addsAt (hfs : fs.WellFormed) (p : Path) :
    (outcome (makeDirectories p) fs).2.WellFormed ∧
      fs.AddsAt (fun a => ∃ q ∈ p.ancestors, a = q.place) (outcome (makeDirectories p) fs).2 :=
  keeps_ensureFirst (fun q hq => ⟨q, hq, rfl⟩) fs ⟨hfs, rfl, fun _ => .inl rfl⟩

theorem makeDirectories_adds (hfs : fs.WellFormed) (p : Path) :
    (outcome (makeDirectories p) fs).2.WellFormed ∧
      fs.AddsDirectories (outcome (makeDirectories p) fs).2 := by
  obtain ⟨hfs', hfiles, hat⟩ := makeDirectories_addsAt hfs p
  exact ⟨hfs', hfiles, fun a => (hat a).imp_right And.right⟩

theorem makeDirectories_spec (hfs : fs.WellFormed) {p : Path} {u : Unit}
    (h : Succeeds (makeDirectories p) fs u fs') : fs'.WellFormed ∧ fs.AddsDirectories fs' := by
  have hadds := makeDirectories_adds hfs p
  rwa [show outcome (makeDirectories p) fs = _ from h] at hadds

/-- Where a directory stands, nothing is made. -/
theorem makeDirectories_of_isDirectory {p : Path} (hdir : fs.isDirectory p = true)
    (hmake : ∃ e, fs.makeDirectory p = .error e) : Succeeds (makeDirectories p) fs () fs := by
  obtain ⟨e, hmake⟩ := hmake
  have hensure : Succeeds (ensureDirectory p) fs () fs := by
    simp only [ensureDirectory, succeeds_tryCatch, succeeds_change, fails_change, succeeds_bind,
      succeeds_inspect, succeeds_ite, succeeds_pure]
    exact .inr ⟨e, fs, ⟨hmake, rfl⟩, true, fs, ⟨by rw [hdir], rfl⟩, .inl ⟨rfl, trivial, rfl⟩⟩
  unfold makeDirectories
  rw [Path.ancestors]
  split
  · exact succeeds_pure.mpr ⟨rfl, rfl⟩
  · rw [ensureFirst, succeeds_tryCatch]
    exact .inl hensure

end DiskM

namespace Replacement

/-! ## Files -/

/-- A replaced file has the new content at the target. Nothing is left at the temporary name,
and no other name and no other file is touched. -/
theorem replaceFile_spec (hfs : fs.WellFormed) {temporary target : Path} {content : Bytes}
    {tidy : Bool} {u : Unit} (h : Succeeds (replaceFile temporary target content tidy) fs u fs') :
    fs'.WellFormed ∧ fs.files.size ≤ fs'.files.size ∧
      (∃ id, fs'.at? target.place = some (.file id) ∧ fs'.content id = content) ∧
      (temporary.place ≠ target.place → fs'.at? temporary.place = none) ∧
      (∀ a, a ≠ temporary.place → a ≠ target.place → fs'.at? a = fs.at? a) ∧
      ∀ other, other < fs.files.size → fs.at? temporary.place ≠ some (.file other) →
        fs'.content other = fs.content other := by
  simp only [replaceFile, succeeds_bind, succeeds_tryCatch, DiskM.succeeds_change, succeeds_throw,
    succeeds_ite, exists_false, and_false, or_false] at h
  obtain ⟨_, mid, hwrite, hmove⟩ := h
  obtain ⟨hmid, hsize, id, hid, hat, hnew, hother⟩ := writeFile_spec hfs hwrite
  obtain ⟨hfs', hfiles, _, hmoved⟩ := move_spec hmid hmove
  have hcontent : ∀ other, fs'.content other = mid.content other := by
    intro other
    simp only [FileSystem.content, hfiles]
  have hkeep : ∀ other, other < fs.files.size → fs.at? temporary.place ≠ some (.file other) →
      fs'.content other = fs.content other := by
    intro other hlt hne
    rw [hcontent]
    refine hother other ?_
    intro hsame
    subst hsame
    rcases hid with hold | hfresh
    · exact hne hold
    · omega
  refine ⟨hfs', by rw [hfiles]; exact hsize, ?_⟩
  rcases hmoved with ⟨heq, rfl⟩ | ⟨hbegins, hbegins', hbelow, htarget, hsource, houtside⟩
  · refine ⟨⟨id, by rw [hat, if_pos heq.symm], by rw [hnew]⟩, fun hne => absurd heq hne, ?_, hkeep⟩
    intro a ha _
    rw [hat, if_neg ha]
  · have hfile : mid.at? temporary.place = some (.file id) := by rw [hat, if_pos rfl]
    refine ⟨⟨id, ?_, by rw [hcontent, hnew]⟩, fun _ => ?_, ?_, hkeep⟩
    · simpa [hfile] using htarget []
    · simpa using hsource []
    · intro a hat' hag
      by_cases hpt : temporary.place <+: a
      · obtain ⟨r, rfl⟩ := hpt
        have hr : r ≠ [] := by
          intro hsame
          subst hsame
          simp at hat'
        rw [hsource r]
        have hnone := Tree.kind?_append_eq_none (t := mid.root) (p := temporary.place)
          (by rw [show mid.root.kind? temporary.place = _ from hfile]; simp) hr
        have hmidAt : mid.at? (temporary.place ++ r) = none := hnone
        rw [hat, if_neg hat'] at hmidAt
        exact hmidAt.symm
      · by_cases hpg : target.place <+: a
        · obtain ⟨r, rfl⟩ := hpg
          have hr : r ≠ [] := by
            intro hsame
            subst hsame
            simp at hag
          have hmidAt := hbelow r hr
          rw [hat, if_neg hat'] at hmidAt
          rw [htarget r, hmidAt]
          exact Tree.kind?_append_eq_none (t := mid.root) (p := temporary.place)
            (by rw [show mid.root.kind? temporary.place = _ from hfile]; simp) hr
        · rw [houtside a hpt hpg, hat, if_neg hat']

/-! ## Directories -/

theorem removeTree_eq (p : Path) :
    (DirectorySteps.removeTree p : DiskM Unit) = DiskM.change (·.removeTree p) := rfl

theorem move_eq (p q : Path) :
    (DirectorySteps.move p q : DiskM Unit) = DiskM.change (·.move p q) := rfl

theorem present_eq (p : Path) :
    (DirectorySteps.present p : DiskM Bool) = DiskM.inspect fun fs => .ok (fs.present p) := rfl

theorem removeIfPresent_spec (hfs : fs.WellFormed) {p : Path} {u : Unit}
    (h : Succeeds (removeIfPresent p : DiskM Unit) fs u fs') :
    fs'.WellFormed ∧ fs'.files = fs.files ∧ (∀ a, ¬p.place <+: a → fs'.at? a = fs.at? a) ∧
      ((fs.removeTree p = .error .notFound ∧ fs' = fs) ∨
        fs.removeTree p = .ok fs' ∧ ∀ r, fs'.at? (p.place ++ r) = none) := by
  simp only [removeIfPresent, succeeds_tryCatch, removeTree_eq, DiskM.succeeds_change,
    DiskM.fails_change, succeeds_ite, succeeds_pure, succeeds_throw, and_false, or_false] at h
  rcases h with hok | ⟨e, t, ⟨herror, rfl⟩, rfl, -, rfl⟩
  · obtain ⟨hfs', hfiles, _, _, hgone, hkeep⟩ := removeTree_spec hfs hok
    exact ⟨hfs', hfiles, hkeep, .inr ⟨hok, hgone⟩⟩
  · exact ⟨hfs, rfl, fun _ _ => rfl, .inl ⟨herror, rfl⟩⟩

theorem eq_staging_of_freshStaging {target staging : Path}
    (h : Succeeds (freshStaging target) fs staging fs') : staging = target.staging := by
  simp only [freshStaging, succeeds_bind, succeeds_pure] at h
  obtain ⟨_, _, _, _, _, _, _, _, _, rfl, _⟩ := h
  rfl

/-- A staging directory is prepared by removing what stood there and adding directories. -/
theorem freshStaging_spec (hfs : fs.WellFormed) {target staging : Path}
    (h : Succeeds (freshStaging target) fs staging fs') :
    staging = target.staging ∧ fs'.WellFormed ∧
      ∃ cleared, Succeeds (removeIfPresent target.staging : DiskM Unit) fs () cleared ∧
        cleared.AddsDirectories fs' := by
  simp only [freshStaging, succeeds_bind, succeeds_pure] at h
  obtain ⟨_, cleared, hclear, _, mid, habove, _, _, hmake, rfl, rfl⟩ := h
  obtain ⟨hcleared, _⟩ := removeIfPresent_spec hfs hclear
  obtain ⟨hmid, hadds⟩ := DiskM.makeDirectories_spec hcleared habove
  obtain ⟨hfs', hadds'⟩ := DiskM.makeDirectories_spec hmid hmake
  exact ⟨rfl, hfs', cleared, hclear, hadds.trans hadds'⟩

/-- The moves of a replacement that succeeds. -/
theorem replaceDirectory_moves {staging target : Path} {u : Unit}
    (h : Succeeds (replaceDirectory staging target : DiskM Unit) fs u fs') :
    ∃ cleared, Succeeds (removeIfPresent target.retired : DiskM Unit) fs () cleared ∧
      (cleared.present target = false ∧ cleared.move staging target = .ok fs' ∨
        cleared.present target = true ∧ ∃ aside placed,
          cleared.move target target.retired = .ok aside ∧
          aside.move staging target = .ok placed ∧
          Succeeds (removeIfPresent target.retired : DiskM Unit) placed () fs') := by
  simp only [replaceDirectory, succeeds_bind, succeeds_tryCatch, move_eq, present_eq,
    DiskM.succeeds_change, DiskM.succeeds_inspect, succeeds_ite, succeeds_pure, succeeds_throw,
    and_false, exists_false, or_false] at h
  obtain ⟨_, cleared, hclear, found, _, ⟨hfound, rfl⟩, hrest⟩ := h
  cases hfound
  refine ⟨_, hclear, ?_⟩
  rcases hrest with ⟨hold, _, aside, haside, _, placed, hplaced, hdone⟩ |
    ⟨hnew, _, placed, hplaced, hdone⟩
  · rcases hdone with ⟨_, hdone⟩ | ⟨habsurd, _⟩
    · exact .inr ⟨hold, aside, placed, haside, hplaced, hdone⟩
    · exact absurd hold habsurd
  · rcases hdone with ⟨habsurd, _⟩ | ⟨_, _, rfl⟩
    · exact absurd habsurd hnew
    · exact .inl ⟨by simpa using hnew, hplaced⟩

/-- A move between places apart. -/
theorem move_of_apart (hfs : fs.WellFormed) {source target : Path}
    (hapart : Place.Apart source.place target.place) (h : fs.move source target = .ok fs') :
    fs'.WellFormed ∧ fs'.files = fs.files ∧
      (∀ r, fs'.at? (target.place ++ r) = fs.at? (source.place ++ r)) ∧
      (∀ r, fs'.at? (source.place ++ r) = none) ∧
      ∀ a, ¬source.place <+: a → ¬target.place <+: a → fs'.at? a = fs.at? a := by
  obtain ⟨hfs', hfiles, _, hmoved⟩ := move_spec hfs h
  rcases hmoved with ⟨heq, _⟩ | ⟨_, _, _, htarget, hsource, houtside⟩
  · exact absurd (heq ▸ List.prefix_rfl) hapart.1
  · exact ⟨hfs', hfiles, htarget, hsource, houtside⟩

/-- What is known of a directory that was replaced. The staged tree stands at the target, and
nothing is touched outside of the target, its staging and its retired sibling. -/
theorem replaceDirectory_spec (hfs : fs.WellFormed) {staging target : Path} {u : Unit}
    (hst : Place.Apart staging.place target.place)
    (hsr : Place.Apart staging.place target.retired.place)
    (htr : Place.Apart target.place target.retired.place)
    (h : Succeeds (replaceDirectory staging target : DiskM Unit) fs u fs') :
    fs'.WellFormed ∧ fs'.files = fs.files ∧
      (∀ r, fs'.at? (target.place ++ r) = fs.at? (staging.place ++ r)) ∧
      (∀ r, fs'.at? (staging.place ++ r) = none) ∧
      ∀ a, ¬staging.place <+: a → ¬target.place <+: a → ¬target.retired.place <+: a →
        fs'.at? a = fs.at? a := by
  obtain ⟨cleared, hclear, hcase⟩ := replaceDirectory_moves h
  obtain ⟨hcleared, hfiles, hkeep, _⟩ := removeIfPresent_spec hfs hclear
  rcases hcase with ⟨_, hmove⟩ | ⟨_, aside, placed, hretire, hmove, hclean⟩
  · obtain ⟨hfs', hsame, htarget, hsource, houtside⟩ := move_of_apart hcleared hst hmove
    refine ⟨hfs', hsame.trans hfiles, fun r => ?_, hsource, fun a hs ht hr => ?_⟩
    · rw [htarget, hkeep _ (hsr.symm.not_prefix_append r)]
    · rw [houtside a hs ht, hkeep a hr]
  · obtain ⟨haside, hsameAside, _, _, hout⟩ := move_of_apart hcleared htr hretire
    obtain ⟨hplaced, hsamePlaced, htarget, hsource, houtside⟩ := move_of_apart haside hst hmove
    obtain ⟨hfs', hsame, hclean, _⟩ := removeIfPresent_spec hplaced hclean
    refine ⟨hfs', (hsame.trans (hsamePlaced.trans hsameAside)).trans hfiles, fun r => ?_,
      fun r => ?_, fun a hs ht hr => ?_⟩
    · rw [hclean _ (htr.symm.not_prefix_append r), htarget,
        hout _ (hst.symm.not_prefix_append r) (hsr.symm.not_prefix_append r),
        hkeep _ (hsr.symm.not_prefix_append r)]
    · rw [hclean _ (hsr.symm.not_prefix_append r), hsource]
    · rw [hclean a hr, houtside a hs ht, hout a ht hr, hkeep a hr]

/-- Only a directory whose path ends in a name is ever replaced. -/
theorem fileName?_of_replaceDirectory {staging target : Path} {u : Unit}
    (h : Succeeds (replaceDirectory staging target : DiskM Unit) fs u fs') :
    ∃ name, target.fileName? = some name := by
  obtain ⟨cleared, _, hcase⟩ := replaceDirectory_moves h
  rcases hcase with ⟨_, hmove⟩ | ⟨_, aside, placed, _, hmove, _⟩
  · exact (fileName?_of_move hmove).2
  · exact (fileName?_of_move hmove).2

end Replacement

namespace Path

/-- The name of a sibling is a name, and another one for another suffix. -/
theorem isName_append_suffix (name : String) {suffix : String} (h : 2 ≤ suffix.length) :
    IsName (name ++ "." ++ suffix) := by
  have hlength : ∀ other : String, other.length ≤ 2 → name ++ "." ++ suffix ≠ other := by
    rintro other hother rfl
    rw [String.length_append, String.length_append, show ".".length = 1 from rfl] at hother
    omega
  exact ⟨hlength _ (by decide), hlength _ (by decide), hlength _ (by decide)⟩

theorem isName_staging (name : String) : IsName (name ++ "." ++ "staging") :=
  isName_append_suffix name (by decide)

theorem isName_retired (name : String) : IsName (name ++ "." ++ "retired") :=
  isName_append_suffix name (by decide)

variable {p : Path} {name : String}

theorem place_staging (h : p.fileName? = some name) :
    p.staging.place = p.parent.place ++ [name ++ "." ++ "staging"] :=
  place_sibling h (isName_staging name)

theorem place_retired (h : p.fileName? = some name) :
    p.retired.place = p.parent.place ++ [name ++ "." ++ "retired"] :=
  place_sibling h (isName_retired name)

/-- A path with a name, its staging and its retired sibling lead to three places apart. -/
theorem apart_siblings (h : p.fileName? = some name) :
    Place.Apart p.staging.place p.place ∧ Place.Apart p.staging.place p.retired.place ∧
      Place.Apart p.place p.retired.place := by
  have hlonger : ∀ suffix : String, name ≠ name ++ "." ++ suffix := by
    intro suffix heq
    have hlen := congrArg String.length heq
    rw [String.length_append, String.length_append, show ".".length = 1 from rfl] at hlen
    omega
  rw [place_staging h, place_retired h, (place_of_fileName? h).2]
  refine ⟨Place.apart_of_ne (hlonger _).symm, Place.apart_of_ne fun heq => ?_,
    Place.apart_of_ne (hlonger _)⟩
  exact absurd ((String.append_right_inj _).mp heq) (by decide)

end Path
end Relatedness
