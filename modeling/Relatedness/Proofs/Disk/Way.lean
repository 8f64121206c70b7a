import Mathlib.Data.List.TakeWhile
import Relatedness.Proofs.Disk.Replacement

/-! When a path can be followed. The pieces of a path pass places, and the path leads to its own
place if directories stand at all of them. For a path that does not climb back through places
which the replacement of a directory may change, it is enough that the place above it is a
directory, and it stays so whatever becomes of the directory and its siblings. -/

namespace Relatedness

namespace Path

/-- The places that pieces pass, from where they begin to where they end. -/
def passes (here : Place) : List String → List Place
  | [] => [here]
  | piece :: rest => here :: passes (advance here piece) rest

/-- The places on the way of a path. -/
def way (p : Path) : List Place := passes [] p.pieces

theorem mem_passes_start (here : Place) (pieces : List String) : here ∈ passes here pieces := by
  cases pieces <;> exact List.mem_cons_self

theorem mem_passes_append {a here : Place} {before after : List String} :
    a ∈ passes here (before ++ after) ↔
      a ∈ passes here before ∨ a ∈ passes (before.foldl advance here) after := by
  induction before generalizing here with
  | nil =>
    refine ⟨.inr, ?_⟩
    rintro (h | h)
    · rw [List.mem_singleton.mp h]
      exact mem_passes_start here after
    · exact h
  | cons piece rest ih =>
    rw [List.cons_append, passes, passes, List.mem_cons, List.mem_cons, ih, List.foldl_cons,
      or_assoc]

theorem mem_passes_idle {a here : Place} {pieces : List String}
    (h : ∀ piece ∈ pieces, isIdle piece = true) : a ∈ passes here pieces ↔ a = here := by
  induction pieces with
  | nil => exact List.mem_singleton
  | cons piece rest ih =>
    rw [passes, advance_idle (h piece List.mem_cons_self), List.mem_cons,
      ih fun other hmem => h other (List.mem_cons_of_mem piece hmem), or_self]

theorem foldl_advance_idle {here : Place} {pieces : List String}
    (h : ∀ piece ∈ pieces, isIdle piece = true) : pieces.foldl advance here = here := by
  induction pieces with
  | nil => rfl
  | cons piece rest ih =>
    rw [List.foldl_cons, advance_idle (h piece List.mem_cons_self)]
    exact ih fun other hmem => h other (List.mem_cons_of_mem piece hmem)

theorem mem_passes_end (here : Place) (pieces : List String) :
    pieces.foldl advance here ∈ passes here pieces := by
  induction pieces generalizing here with
  | nil => exact List.mem_cons_self
  | cons piece rest ih => exact List.mem_cons_of_mem here (ih _)

theorem place_mem_way (p : Path) : p.place ∈ p.way := mem_passes_end [] p.pieces

/-! ## The pieces of a path with a name -/

theorem exists_idle_end (pieces : List String) :
    ∃ idle, pieces = dropIdleEnd pieces ++ idle ∧ ∀ piece ∈ idle, isIdle piece = true := by
  refine ⟨(pieces.reverse.takeWhile isIdle).reverse, ?_, fun piece hmem => ?_⟩
  · rw [dropIdleEnd, ← List.reverse_append, List.takeWhile_append_dropWhile, List.reverse_reverse]
  · exact List.mem_takeWhile_imp (List.mem_reverse.mp hmem)

variable {p : Path} {name : String}

/-- A path is its parent, its last piece that counts for something, and what counts for nothing. -/
theorem pieces_of_getLast? {last : String} (h : (dropIdleEnd p.pieces).getLast? = some last) :
    ∃ between behind, p.pieces = p.parent.pieces ++ between ++ last :: behind ∧
      (∀ piece ∈ between, isIdle piece = true) ∧ ∀ piece ∈ behind, isIdle piece = true := by
  obtain ⟨behind, hbehind, hidle⟩ := exists_idle_end p.pieces
  obtain ⟨between, hbetween, hidle'⟩ := exists_idle_end (dropIdleEnd p.pieces).dropLast
  refine ⟨between, behind, ?_, hidle', hidle⟩
  calc p.pieces = (dropIdleEnd p.pieces).dropLast ++ [last] ++ behind := by
        rw [List.dropLast_append_getLast? last h]
        exact hbehind
    _ = dropIdleEnd (dropIdleEnd p.pieces).dropLast ++ between ++ [last] ++ behind := by
        rw [← hbetween]
    _ = p.parent.pieces ++ between ++ last :: behind := by
        rw [List.append_assoc _ [last], List.singleton_append]
        rfl

theorem pieces_of_fileName? (h : p.fileName? = some name) :
    ∃ between behind, p.pieces = p.parent.pieces ++ between ++ name :: behind ∧
      (∀ piece ∈ between, isIdle piece = true) ∧ ∀ piece ∈ behind, isIdle piece = true := by
  unfold fileName? at h
  split at h
  · cases h
  · exact pieces_of_getLast? h

/-- Pieces that count for nothing at the end lead no further. -/
theorem mem_passes_of_idle_end {a here : Place} {pieces idle : List String}
    (h : ∀ piece ∈ idle, isIdle piece = true) :
    a ∈ passes here (pieces ++ idle) ↔ a ∈ passes here pieces := by
  rw [mem_passes_append, mem_passes_idle h]
  exact ⟨fun hmem => hmem.elim id fun heq => heq ▸ mem_passes_end here pieces, .inl⟩

/-- The parent of a path whose pieces all count for nothing is where the path begins. -/
theorem way_parent_of_idle (h : (dropIdleEnd p.pieces).getLast? = none) : p.parent.way = [[]] := by
  have hparent : p.parent.pieces = [] := by
    unfold parent
    rw [List.getLast?_eq_none_iff.mp h]
    rfl
  rw [way, hparent, passes]

/-- On the way of a path are that of its parent and its own place. -/
theorem mem_way_iff {a : Place} : a ∈ p.way ↔ a ∈ p.parent.way ∨ a = p.place := by
  cases hlast : (dropIdleEnd p.pieces).getLast? with
  | none =>
    obtain ⟨idle, hpieces, hidle⟩ := exists_idle_end p.pieces
    rw [List.getLast?_eq_none_iff.mp hlast, List.nil_append] at hpieces
    rw [way_parent_of_idle hlast, way, place, hpieces, mem_passes_idle hidle,
      foldl_advance_idle hidle, List.mem_singleton, or_self]
  | some last =>
    obtain ⟨between, behind, hpieces, hbetween, hbehind⟩ := pieces_of_getLast? hlast
    have habove : (p.parent.pieces ++ between).foldl advance [] = p.parent.place := by
      rw [List.foldl_append, foldl_advance_idle hbetween]
      rfl
    have hplace : p.place = advance p.parent.place last := by
      rw [place, hpieces, List.foldl_append, habove, List.foldl_cons, foldl_advance_idle hbehind]
    have hparent : a ∈ passes [] (p.parent.pieces ++ between) ↔ a ∈ p.parent.way :=
      mem_passes_of_idle_end hbetween
    rw [way, hpieces, mem_passes_append, hparent, habove, passes, List.mem_cons,
      mem_passes_idle hbehind, hplace]
    refine ⟨fun hmem => hmem.elim .inl fun hmem => hmem.elim (fun heq => ?_) .inr,
      fun hmem => hmem.imp_right .inr⟩
    exact .inl (heq ▸ place_mem_way p.parent)

/-- On the way of a child are that of the directory and the child's own place. -/
theorem mem_way_child (hname : IsName name) {a : Place} :
    a ∈ (p.child name).way ↔ a ∈ p.way ∨ a = p.place ++ [name] := by
  have hstem : ∃ idle, p.pieces = p.stemPieces ++ idle ∧ ∀ piece ∈ idle, isIdle piece = true := by
    unfold stemPieces endsInSlash
    split
    · rename_i hslash
      have hlast : p.pieces.getLast? = some "" := by simpa using hslash
      exact ⟨[""], (List.dropLast_append_getLast? "" hlast).symm, by simp [isIdle]⟩
    · exact ⟨[], (List.append_nil _).symm, by simp⟩
  obtain ⟨idle, hpieces, hidle⟩ := hstem
  have hway : a ∈ p.way ↔ a ∈ passes [] p.stemPieces := by
    rw [way, hpieces, mem_passes_of_idle_end hidle]
  have hplace : p.stemPieces.foldl advance [] = p.place := by
    rw [place, hpieces, List.foldl_append, foldl_advance_idle hidle]
  rw [hway, way, child_eq, mem_passes_append, hplace, passes, passes, hname.advance,
    List.mem_cons, List.mem_singleton]
  refine ⟨fun hmem => hmem.elim .inl fun hmem => hmem.elim (fun heq => ?_) .inr,
    fun hmem => hmem.imp_right .inr⟩
  exact .inl (hway.mp (heq ▸ place_mem_way p))

/-- The path above a path is the one that its siblings are children of. -/
theorem sibling_eq_child (h : p.fileName? = some name) (suffix : String) :
    p.sibling suffix = p.parent.child (name ++ "." ++ suffix) := by
  unfold sibling withFileName
  rw [h]
  rfl

end Path

namespace Tree

open Location Relatedness.Path

/-- Steps can be followed if directories stand at all places that they pass. -/
theorem walk_eq_ok_iff {root : Tree} {here there : Place} {pieces : List String}
    (hhere : root.kind? here = some .directory) :
    root.walk here (pieces.filter (· ≠ "")) = .ok there ↔
      there = pieces.foldl advance here ∧
        ∀ a ∈ passes here pieces, root.kind? a = some .directory := by
  induction pieces generalizing here with
  | nil =>
    refine ⟨fun h => ?_, fun h => by rw [h.1]; rfl⟩
    cases h
    exact ⟨rfl, fun a ha => List.mem_singleton.mp ha ▸ hhere⟩
  | cons piece rest ih =>
    have hpass : ∀ {next}, advance here piece = next →
        ((∀ a ∈ passes here (piece :: rest), root.kind? a = some .directory) ↔
          ∀ a ∈ passes next rest, root.kind? a = some .directory) := by
      intro next hnext
      rw [passes, hnext]
      simp [hhere]
    by_cases hempty : piece = ""
    · rw [List.filter_cons_of_neg (by simpa using hempty), ih hhere, List.foldl_cons,
        advance_idle (by simp [hempty, isIdle]),
        hpass (advance_idle (by simp [hempty, isIdle]) here)]
    · rw [List.filter_cons_of_pos (by simpa using hempty), walk]
      split
      · rename_i next hdots
        rw [ih (kind?_of_dots? hhere hdots), List.foldl_cons, advance_of_dots? hdots,
          hpass (advance_of_dots? hdots)]
      · rename_i hdots
        have hname := (dots?_eq_none_iff hempty).mp hdots
        rw [List.foldl_cons, hname.advance, hpass (hname.advance here)]
        have hnot : root.kind? (here ++ [piece]) ≠ some .directory →
            ¬∀ a ∈ passes (here ++ [piece]) rest, root.kind? a = some .directory :=
          fun hne hall => hne (hall _ (mem_passes_start _ rest))
        split
        · rename_i entries hfind
          exact ih (kind?_eq_directory_iff.mpr ⟨entries, hfind⟩)
        · rename_i id hfind
          have hkind := kind?_eq_file_iff.mpr hfind
          simp [hnot (by rw [hkind]; simp)]
        · rename_i hfind
          have hkind := kind?_eq_none_iff.mpr hfind
          simp [hnot (by rw [hkind]; simp)]

variable {root : Tree} {p : Path}

/-- The steps of a path can be followed if directories stand at all places on its way. -/
theorem walk_steps_iff (hroot : root.kind? [] = some .directory) {there : Place} :
    root.walk [] p.steps = .ok there ↔
      there = p.place ∧ ∀ a ∈ p.way, root.kind? a = some .directory :=
  walk_eq_ok_iff hroot

/-- A path that ends in a name can be followed if its parent can. -/
theorem locate_of_way {name : String} (hroot : root.kind? [] = some .directory)
    (hlast : p.steps.getLast? = some name) (hname : IsName name)
    (hway : ∀ a ∈ p.parent.way, root.kind? a = some .directory) :
    root.locate p = .ok ⟨p.place, true, p.endsInSlash⟩ := by
  have hfile := fileName?_of_getLast?_steps hlast hname
  obtain ⟨between, behind, hpieces, hbetween, hbehind⟩ := pieces_of_fileName? hfile
  -- nothing but a dot could stand behind the name, and it would be the last step
  have hnone : behind.filter (· ≠ "") = [] := by
    rcases List.eq_nil_or_concat (behind.filter (· ≠ "")) with hnil | ⟨front, step, hconcat⟩
    · exact hnil
    rw [List.concat_eq_append] at hconcat
    have hsame : p.steps.getLast? = some step := by
      rw [steps, hpieces, List.filter_append, List.filter_cons_of_pos (by simpa using hname.1),
        hconcat, ← List.cons_append, ← List.append_assoc, List.getLast?_concat]
    obtain rfl : step = name := Option.some.inj (hsame.symm.trans hlast)
    have hstep : step ∈ behind.filter (· ≠ "") := by
      rw [hconcat]
      simp
    have hidle := hbehind step (List.mem_of_mem_filter hstep)
    rw [hname.not_idle] at hidle
    cases hidle
  have hsteps : p.steps = (p.parent.pieces ++ between).filter (· ≠ "") ++ [name] := by
    rw [steps, hpieces, List.filter_append, List.filter_cons_of_pos (by simpa using hname.1),
      hnone]
  have hplace : (p.parent.pieces ++ between).foldl advance [] = p.parent.place := by
    rw [List.foldl_append, foldl_advance_idle hbetween]
    rfl
  have hwalk : root.walk [] p.steps.dropLast = .ok p.parent.place := by
    rw [hsteps, List.dropLast_concat]
    refine (walk_eq_ok_iff hroot).mpr ⟨hplace.symm, fun a ha => hway a ?_⟩
    exact (mem_passes_of_idle_end hbetween).mp ha
  unfold locate
  rw [hlast]
  simp only [hwalk, bind, Except.bind, (dots?_eq_none_iff hname.1).mpr hname]
  rw [(place_of_fileName? hfile).2]
  rfl

end Tree

/-! ## Paths that lead where they should -/

namespace FileSystem

open Relatedness.Tree Relatedness.Path

variable {fs fs' : FileSystem} {p : Path} {name : String}

/-- If a directory stands at the place of the path, the path leads there. -/
def Reaches (fs : FileSystem) (p : Path) : Prop :=
  fs.at? p.place = some .directory → ∀ a ∈ p.way, fs.at? a = some .directory

/-- Above a directory there are directories. -/
theorem at?_of_begins {a b : Place} (h : fs.at? b = some .directory) (hpre : a <+: b) :
    fs.at? a = some .directory := by
  obtain ⟨r, rfl⟩ := hpre
  rcases List.eq_nil_or_concat r with rfl | ⟨_, _, rfl⟩
  · rwa [List.append_nil] at h
  · exact kind?_of_append h (by simp)

theorem Reaches.child (h : fs.Reaches p) (hname : IsName name) : fs.Reaches (p.child name) := by
  intro hdir a ha
  rw [place_child hname] at hdir
  rcases (mem_way_child hname).mp ha with ha | rfl
  · exact h (at?_of_begins hdir (List.prefix_append _ _)) a ha
  · exact hdir

theorem Reaches.walk (hfs : fs.WellFormed) (h : fs.Reaches p)
    (hdir : fs.at? p.place = some .directory) : fs.root.walk [] p.steps = .ok p.place :=
  (walk_steps_iff hfs.root).mpr ⟨rfl, h hdir⟩

theorem Reaches.find (hfs : fs.WellFormed) (h : fs.Reaches p)
    (hdir : fs.at? p.place = some .directory) :
    ∃ entries, fs.find p = .ok (.directory entries) := by
  obtain ⟨location, hloc, hplace, hthere⟩ := locate_of_walk hfs.root (h.walk hfs hdir)
  obtain ⟨entries, hfind⟩ := kind?_eq_directory_iff.mp hthere
  refine ⟨entries, ?_⟩
  unfold FileSystem.find
  rw [hloc]
  simp only [bind, Except.bind, hplace, hfind]
  rfl

theorem Reaches.locate_child (hfs : fs.WellFormed) (h : fs.Reaches p) (hname : IsName name)
    (hdir : fs.at? p.place = some .directory) :
    fs.root.locate (p.child name) = .ok ⟨p.place ++ [name], true, false⟩ := by
  rw [Tree.locate_child hname, h.walk hfs hdir]
  rfl

/-- What is found under a name in a directory is what stands there. -/
theorem Reaches.find_child (hfs : fs.WellFormed) (h : fs.Reaches p) (hname : IsName name)
    (hdir : fs.at? p.place = some .directory) :
    fs.find (p.child name) = match fs.root.find? (p.place ++ [name]) with
      | some t => .ok t
      | none => .error .notFound := by
  unfold FileSystem.find
  rw [h.locate_child hfs hname hdir]
  simp only [bind, Except.bind]
  cases fs.root.find? (p.place ++ [name]) with
  | none => rfl
  | some t => simp [pure, Except.pure]

theorem Reaches.openFile_child_iff (hfs : fs.WellFormed) (h : fs.Reaches p) (hname : IsName name)
    {id : Nat} : fs.openFile (p.child name) = .ok id ↔
      fs.at? (p.place ++ [name]) = some (.file id) := by
  constructor
  · intro hopen
    rw [← place_child hname]
    exact at?_of_openFile hfs hopen
  · intro hfile
    have hdir : fs.at? p.place = some .directory := kind?_of_append hfile (by simp)
    unfold openFile
    rw [h.find_child hfs hname hdir, kind?_eq_file_iff.mp hfile]
    rfl

/-- A directory in a directory can be removed. -/
theorem Reaches.removeTree_child (hfs : fs.WellFormed) (h : fs.Reaches p) (hname : IsName name)
    (hdir : fs.at? (p.place ++ [name]) = some .directory) :
    ∃ fs', fs.removeTree (p.child name) = .ok fs' := by
  have habove := at?_of_begins hdir (List.prefix_append _ _)
  obtain ⟨entries, hfind⟩ := kind?_eq_directory_iff.mp hdir
  refine ⟨{ fs with root := fs.root.erase (p.place ++ [name]) }, ?_⟩
  unfold removeTree
  rw [h.find_child hfs hname habove, hfind, h.locate_child hfs hname habove]
  rfl

/-- Where no directory can be removed because nothing was found, nothing stands. -/
theorem Reaches.at?_of_notFound (hfs : fs.WellFormed) (h : fs.Reaches p) (hname : IsName name)
    (hremove : fs.removeTree (p.child name) = .error .notFound) :
    fs.at? (p.place ++ [name]) = none := by
  cases hat : fs.at? (p.place ++ [name]) with
  | none => rfl
  | some k =>
    cases k with
    | directory =>
      obtain ⟨fs', hok⟩ := h.removeTree_child hfs hname hat
      cases hok.symm.trans hremove
    | file id =>
      have hdir : fs.at? p.place = some .directory := kind?_of_append hat (by simp)
      unfold removeTree at hremove
      rw [h.find_child hfs hname hdir, kind?_eq_file_iff.mp hat] at hremove
      cases hremove

end FileSystem

namespace Path

open FileSystem

variable {fs fs' : FileSystem} {p : Path} {name : String}

/-- A place that is not within a path or one of its siblings. -/
def Outside (p : Path) (a : Place) : Prop :=
  ¬p.place <+: a ∧ ¬p.staging.place <+: a ∧ ¬p.retired.place <+: a

/-- On the way to the directory above the path are places above the path, and directories that
are not within the path or its siblings. A path without two dots passes no others. -/
def Steady (p : Path) (fs : FileSystem) : Prop :=
  ∀ a ∈ p.parent.way, a <+: p.parent.place ∨ p.Outside a ∧ fs.at? a = some .directory

theorem prefix_of_mem_passes {pieces : List String} (h : ".." ∉ pieces) {a here : Place}
    (ha : a ∈ passes here pieces) : a <+: pieces.foldl advance here := by
  induction pieces generalizing a here with
  | nil => exact List.mem_singleton.mp ha ▸ List.prefix_rfl
  | cons piece rest ih =>
    have hrest : ".." ∉ rest := fun hmem => h (List.mem_cons_of_mem piece hmem)
    have hstep : here <+: advance here piece := by
      have hpiece : piece ≠ ".." := fun heq => h (heq ▸ List.mem_cons_self)
      unfold advance
      split
      · exact List.prefix_rfl
      · exact List.prefix_append _ _
    rcases List.mem_cons.mp ha with rfl | ha
    · exact hstep.trans (ih hrest (mem_passes_start _ rest))
    · exact ih hrest ha

theorem steady_of_no_dots (hname : p.fileName? = some name) (h : ".." ∉ p.pieces) :
    p.Steady fs := by
  intro a ha
  obtain ⟨between, behind, hpieces, _⟩ := pieces_of_fileName? hname
  refine .inl (prefix_of_mem_passes (fun hmem => h ?_) ha)
  rw [hpieces, List.append_assoc]
  exact List.mem_append_left _ hmem

theorem Steady.reaches_parent (h : p.Steady fs) : fs.Reaches p.parent := by
  intro hdir a ha
  rcases h a ha with hpre | ⟨_, hat⟩
  · exact at?_of_begins hdir hpre
  · exact hat

theorem Steady.reaches (h : p.Steady fs) (hname : p.fileName? = some name) : fs.Reaches p := by
  intro hdir a ha
  have hplace := (place_of_fileName? hname).2
  rcases mem_way_iff.mp ha with ha | rfl
  · exact h.reaches_parent (at?_of_begins hdir (hplace ▸ List.prefix_append _ _)) a ha
  · exact hdir

/-- A directory is found in what has been made of the places above the path, if all others are
as they were. -/
theorem Steady.of_at? (h : p.Steady fs)
    (hkeep : ∀ a, p.Outside a → fs.at? a = some .directory → fs'.at? a = some .directory) :
    p.Steady fs' :=
  fun a ha => (h a ha).imp_right fun ⟨hout, hat⟩ => ⟨hout, hkeep a hout hat⟩

end Path
end Relatedness
