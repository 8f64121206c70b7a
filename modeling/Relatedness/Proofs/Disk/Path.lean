import Relatedness.Disk.Replacement
import Relatedness.Proofs.Disk.Tree

/-! Where paths lead, told from their text alone. A path that can be followed leads to the place
that its pieces spell out, with two dots taking the last name away; so two paths whose pieces
differ in their last names only lead to neighbours, and the temporary names of this library do
not meet the names they stand in for. -/

namespace Relatedness

namespace Path

/-- The place after one more piece. -/
def advance (here : Place) (piece : String) : Place :=
  if isIdle piece then here else if piece = ".." then here.dropLast else here ++ [piece]

/-- The place that the pieces spell out. -/
def place (p : Path) : Place := p.pieces.foldl advance []

/-- A piece that is the name of an entry. -/
def IsName (piece : String) : Prop := piece ≠ "" ∧ piece ≠ "." ∧ piece ≠ ".."

instance (piece : String) : Decidable (IsName piece) := by
  unfold IsName
  infer_instance

theorem advance_idle {piece : String} (h : isIdle piece = true) (here : Place) :
    advance here piece = here := by
  simp [advance, h]

theorem IsName.not_idle {piece : String} (h : IsName piece) : isIdle piece = false := by
  simp [isIdle, h.1, h.2.1]

theorem IsName.advance {piece : String} (h : IsName piece) (here : Place) :
    Path.advance here piece = here ++ [piece] := by
  simp [Path.advance, h.not_idle, h.2.2]

theorem place_eq_steps (p : Path) : p.place = p.steps.foldl advance [] := by
  unfold place steps
  generalize ([] : Place) = here
  induction p.pieces generalizing here with
  | nil => rfl
  | cons piece rest ih =>
    by_cases h : piece = ""
    · subst h
      rw [List.filter_cons_of_neg (by simp), List.foldl_cons,
        show advance here "" = here from rfl]
      exact ih here
    · rw [List.filter_cons_of_pos (by simpa using h), List.foldl_cons, List.foldl_cons]
      exact ih _

/-! ## The end of a path -/

theorem foldl_advance_dropIdleEnd (pieces : List String) (here : Place) :
    (dropIdleEnd pieces).foldl advance here = pieces.foldl advance here := by
  induction pieces using List.reverseRecOn generalizing here with
  | nil => rfl
  | append_singleton pieces piece ih =>
    rw [List.foldl_append, List.foldl_cons, List.foldl_nil, ← ih here]
    unfold dropIdleEnd
    rw [List.reverse_append, List.reverse_singleton, List.singleton_append, List.dropWhile_cons]
    by_cases h : isIdle piece = true
    · rw [if_pos h, advance_idle h]
    · rw [if_neg h, List.reverse_cons, List.reverse_reverse, List.foldl_append]
      have hkeep : (pieces.reverse.dropWhile isIdle).reverse.foldl advance here =
          pieces.foldl advance here := ih here
      rw [hkeep]
      rfl

theorem not_idle_getLast_dropIdleEnd {pieces : List String} {piece : String}
    (h : (dropIdleEnd pieces).getLast? = some piece) : isIdle piece = false := by
  unfold dropIdleEnd at h
  rw [List.getLast?_reverse] at h
  have := List.head?_dropWhile_not isIdle pieces.reverse
  rw [h] at this
  simpa using this

/-- A path with a file name leads to that name in the directory above it. -/
theorem place_of_fileName? {p : Path} {name : String} (h : p.fileName? = some name) :
    IsName name ∧ p.place = p.parent.place ++ [name] := by
  have hlast : (dropIdleEnd p.pieces).getLast? = some name := by
    unfold fileName? at h
    split at h
    · cases h
    · exact h
  have hname : IsName name := by
    have hidle := not_idle_getLast_dropIdleEnd hlast
    simp only [isIdle, Bool.or_eq_false_iff, decide_eq_false_iff_not] at hidle
    refine ⟨hidle.1, hidle.2, ?_⟩
    intro heq
    subst heq
    unfold fileName? at h
    rw [hlast] at h
    simp at h
  refine ⟨hname, ?_⟩
  have hsplit := List.dropLast_append_getLast? name hlast
  calc p.place = (dropIdleEnd p.pieces).foldl advance [] :=
        (foldl_advance_dropIdleEnd p.pieces []).symm
    _ = advance ((dropIdleEnd p.pieces).dropLast.foldl advance []) name := by
        conv_lhs => rw [← hsplit]
        rw [List.foldl_append, List.foldl_cons, List.foldl_nil]
    _ = p.parent.place ++ [name] := by
        rw [hname.advance]
        unfold place parent
        rw [foldl_advance_dropIdleEnd]

/-- Of the steps of a path the last that is a name is the file name, if it comes last. -/
theorem fileName?_of_getLast?_steps {p : Path} {name : String} (h : p.steps.getLast? = some name)
    (hname : IsName name) : p.fileName? = some name := by
  have hlast : (dropIdleEnd p.pieces).getLast? = some name := by
    unfold steps at h
    generalize p.pieces = pieces at h ⊢
    induction pieces using List.reverseRecOn with
    | nil => simp at h
    | append_singleton pieces piece ih =>
      have hdrop : dropIdleEnd (pieces ++ [piece]) =
          if isIdle piece = true then dropIdleEnd pieces else pieces ++ [piece] := by
        unfold dropIdleEnd
        rw [List.reverse_append, List.reverse_singleton, List.singleton_append, List.dropWhile_cons]
        split <;> simp
      rw [hdrop]
      by_cases hempty : piece = ""
      · subst hempty
        simp only [List.filter_append, List.filter_cons] at h
        exact ih (by simpa using h)
      · have hlast : piece = name := by simpa [List.filter_append, hempty] using h
        subst hlast
        rw [if_neg (by simp [hname.not_idle])]
        simp
  unfold fileName?
  split
  · rename_i heq
    rw [hlast] at heq
    exact absurd (Option.some.inj heq) hname.2.2
  · exact hlast

/-! ## Children and siblings -/

/-- The pieces that a child's name comes behind. -/
def stemPieces (p : Path) : List String := if p.endsInSlash then p.pieces.dropLast else p.pieces

theorem child_eq (p : Path) (name : String) :
    p.child name = { p with pieces := p.stemPieces ++ [name] } := by
  simp [child, join, stemPieces]

theorem filter_stemPieces (p : Path) : p.stemPieces.filter (· ≠ "") = p.steps := by
  unfold stemPieces steps endsInSlash
  split
  · rename_i h
    have hlast : p.pieces.getLast? = some "" := by simpa using h
    conv_rhs => rw [← List.dropLast_append_getLast? "" hlast]
    simp
  · rfl

theorem steps_child {name : String} (h : name ≠ "") (p : Path) :
    (p.child name).steps = p.steps ++ [name] := by
  rw [child_eq]
  change (p.stemPieces ++ [name]).filter (· ≠ "") = _
  rw [List.filter_append, filter_stemPieces]
  simp [h]

theorem place_child {name : String} (h : IsName name) (p : Path) :
    (p.child name).place = p.place ++ [name] := by
  rw [place_eq_steps, steps_child h.1, List.foldl_append, ← place_eq_steps]
  exact h.advance _

theorem endsInSlash_child {name : String} (h : name ≠ "") (p : Path) :
    (p.child name).endsInSlash = false := by
  rw [child_eq]
  simp [endsInSlash, h]

theorem fileName?_child {name : String} (h : IsName name) (p : Path) :
    (p.child name).fileName? = some name := by
  rw [child_eq]
  simp only [fileName?, dropIdleEnd, List.reverse_append, List.reverse_singleton,
    List.singleton_append, List.dropWhile_cons, h.not_idle]
  simp [h.2.2]

theorem withExtension_child {name extension : String} (h : IsName name)
    (hstem : String.ofList (stem name.toList) ≠ ".") (p : Path) :
    (p.child name).withExtension extension =
      p.child (String.ofList (stem name.toList) ++ "." ++ extension) := by
  have hbody : dropIdleEnd (p.stemPieces ++ [name]) = p.stemPieces ++ [name] := by
    simp [dropIdleEnd, h.not_idle]
  unfold withExtension
  rw [fileName?_child h, child_eq, child_eq]
  simp [hbody, hstem]

/-- A sibling of a path with a file name stands beside it. -/
theorem place_sibling {p : Path} {name suffix : String} (h : p.fileName? = some name)
    (hs : IsName (name ++ "." ++ suffix)) :
    (p.sibling suffix).place = p.parent.place ++ [name ++ "." ++ suffix] := by
  unfold sibling withFileName
  rw [h]
  exact place_child hs p.parent

end Path

/-! ## Following a path -/

namespace Tree

open Location Relatedness.Path

theorem dots?_eq_none_iff {here : Place} {step : String} (h : step ≠ "") :
    dots? here step = none ↔ IsName step := by
  unfold dots? IsName
  by_cases h1 : step = "."
  · simp [h1]
  · by_cases h2 : step = ".."
    · simp [h2]
    · simp [h, h1, h2]

theorem advance_of_dots? {here there : Place} {step : String}
    (h : dots? here step = some there) : advance here step = there := by
  unfold dots? at h
  split at h
  · rename_i heq
    subst heq
    exact Option.some.inj h
  · rename_i hne
    rw [Option.ite_none_right_eq_some] at h
    obtain ⟨rfl, heq⟩ := h
    rw [← Option.some.inj heq]
    rfl

theorem kind?_dropLast {root : Tree} {here : Place} (h : root.kind? here = some .directory) :
    root.kind? here.dropLast = some .directory := by
  rcases List.eq_nil_or_concat here with rfl | ⟨above, name, rfl⟩
  · exact h
  · rw [List.concat_eq_append, List.dropLast_concat]
    rw [List.concat_eq_append] at h
    exact kind?_of_append h (by simp)

theorem kind?_of_dots? {root : Tree} {here there : Place} {step : String}
    (hhere : root.kind? here = some .directory) (h : dots? here step = some there) :
    root.kind? there = some .directory := by
  unfold dots? at h
  split at h
  · rwa [← Option.some.inj h]
  · rw [Option.ite_none_right_eq_some] at h
    rw [← Option.some.inj h.2]
    exact kind?_dropLast hhere

/-- Steps that can be followed lead to a directory, and to the place that they spell out. -/
theorem walk_eq_ok {root : Tree} {here there : Place} {steps : List String}
    (hsteps : "" ∉ steps) (hhere : root.kind? here = some .directory)
    (h : root.walk here steps = .ok there) :
    there = steps.foldl advance here ∧ root.kind? there = some .directory := by
  induction steps generalizing here with
  | nil =>
    cases h
    exact ⟨rfl, hhere⟩
  | cons step rest ih =>
    have hne : step ≠ "" := fun heq => hsteps (heq ▸ List.mem_cons_self)
    have hrest : "" ∉ rest := fun hmem => hsteps (List.mem_cons_of_mem _ hmem)
    rw [walk] at h
    split at h
    · rename_i next hdots
      rw [List.foldl_cons, advance_of_dots? hdots]
      exact ih hrest (kind?_of_dots? hhere hdots) h
    · rename_i hdots
      have hname := (dots?_eq_none_iff hne).mp hdots
      split at h
      · rename_i entries hfind
        rw [List.foldl_cons, hname.advance]
        exact ih hrest (kind?_eq_directory_iff.mpr ⟨entries, hfind⟩) h
      · cases h
      · cases h

/-- A path leads nowhere from the root, or its last step is taken from the directory that the
steps before it lead to. -/
theorem locate_cases {root : Tree} {p : Path} {location : Location}
    (h : root.locate p = .ok location) :
    (p.steps = [] ∧ location = ⟨[], false, p.endsInSlash⟩) ∨
    ∃ step above, p.steps.getLast? = some step ∧ root.walk [] p.steps.dropLast = .ok above ∧
      ((∃ there, dots? above step = some there ∧ location = ⟨there, false, p.endsInSlash⟩) ∨
        dots? above step = none ∧ location = ⟨above ++ [step], true, p.endsInSlash⟩) := by
  unfold locate at h
  cases hlast : p.steps.getLast? with
  | none =>
    rw [hlast] at h
    cases h
    exact .inl ⟨List.getLast?_eq_none_iff.mp hlast, rfl⟩
  | some step =>
    rw [hlast] at h
    cases hwalk : root.walk [] p.steps.dropLast with
    | error e =>
      rw [hwalk] at h
      cases h
    | ok above =>
      rw [hwalk] at h
      simp only [bind, Except.bind] at h
      refine .inr ⟨step, above, rfl, rfl, ?_⟩
      cases hdots : dots? above step with
      | some there =>
        rw [hdots] at h
        cases h
        exact .inl ⟨there, rfl, rfl⟩
      | none =>
        rw [hdots] at h
        cases h
        exact .inr ⟨rfl, rfl⟩

/-- What is known of a path that can be followed. -/
theorem locate_eq_ok {root : Tree} (hroot : root.kind? [] = some .directory) {p : Path}
    {location : Location} (h : root.locate p = .ok location) :
    location.place = p.place ∧ location.slash = p.endsInSlash ∧
      if location.named then
        ∃ above name, location.place = above ++ [name] ∧ root.kind? above = some .directory
      else root.kind? location.place = some .directory := by
  have hsteps : "" ∉ p.steps := by simp [steps]
  rcases locate_cases h with ⟨hnone, rfl⟩ | ⟨step, above, hlast, hwalk, hlocation⟩
  · refine ⟨?_, rfl, by simpa using hroot⟩
    rw [place_eq_steps, hnone]
    rfl
  · have hne : step ≠ "" := fun heq => hsteps (heq ▸ List.mem_of_getLast? hlast)
    have hsplit := List.dropLast_append_getLast? step hlast
    obtain ⟨habove, hdir⟩ :=
      walk_eq_ok (fun hmem => hsteps (List.mem_of_mem_dropLast hmem)) hroot hwalk
    have hplace : p.place = advance above step := by
      rw [place_eq_steps, ← hsplit, List.foldl_append, List.foldl_cons, List.foldl_nil, habove]
    rcases hlocation with ⟨there, hdots, rfl⟩ | ⟨hdots, rfl⟩
    · exact ⟨by rw [hplace, advance_of_dots? hdots], rfl, kind?_of_dots? hdir hdots⟩
    · have hname := (dots?_eq_none_iff hne).mp hdots
      exact ⟨by rw [hplace, hname.advance], rfl, above, step, rfl, hdir⟩

theorem walk_append (root : Tree) (here : Place) (steps more : List String) :
    root.walk here (steps ++ more) =
      (root.walk here steps).bind fun there => root.walk there more := by
  induction steps generalizing here with
  | nil => rfl
  | cons step rest ih =>
    rw [List.cons_append, walk, walk]
    split
    · exact ih _
    · split
      · exact ih _
      · rfl
      · rfl

/-- What a path to a child is located by. -/
theorem locate_child {root : Tree} {p : Path} {name : String} (hname : IsName name) :
    root.locate (p.child name) = (root.walk [] p.steps).map fun above =>
      ⟨above ++ [name], true, false⟩ := by
  have hsteps := steps_child hname.1 p
  unfold locate
  rw [hsteps, List.getLast?_concat, List.dropLast_concat, endsInSlash_child hname.1]
  simp only [(dots?_eq_none_iff hname.1).mpr hname]
  cases root.walk [] p.steps <;> rfl

/-- Steps that can be followed are those of a path to a directory. -/
theorem locate_of_walk {root : Tree} {p : Path} (hroot : root.kind? [] = some .directory)
    {there : Place} (h : root.walk [] p.steps = .ok there) :
    ∃ location, root.locate p = .ok location ∧ location.place = there ∧
      root.kind? there = some .directory := by
  have hsteps : "" ∉ p.steps := by simp [steps]
  obtain ⟨hthere, hdir⟩ := walk_eq_ok hsteps hroot h
  unfold locate
  cases hlast : p.steps.getLast? with
  | none =>
    rw [List.getLast?_eq_none_iff.mp hlast] at hthere
    exact ⟨_, rfl, hthere.symm, hdir⟩
  | some step =>
    have hne : step ≠ "" := fun heq => hsteps (heq ▸ List.mem_of_getLast? hlast)
    rw [← List.dropLast_append_getLast? step hlast, walk_append] at h
    cases habove : root.walk [] p.steps.dropLast with
    | error e =>
      rw [habove] at h
      cases h
    | ok above =>
      rw [habove] at h
      simp only [Except.bind, walk] at h
      simp only [bind, Except.bind]
      cases hdots : dots? above step with
      | some next =>
        rw [hdots] at h
        cases h
        exact ⟨_, rfl, rfl, hdir⟩
      | none =>
        rw [hdots] at h
        simp only at h
        split at h
        · cases h
          exact ⟨_, rfl, rfl, hdir⟩
        · cases h
        · cases h

/-- A path that is followed to a name ends in one. -/
theorem name_of_locate {root : Tree} {p : Path} {location : Location}
    (h : root.locate p = .ok location) (hnamed : location.named = true) :
    ∃ name, p.steps.getLast? = some name ∧ IsName name := by
  rcases locate_cases h with ⟨_, rfl⟩ | ⟨step, above, hlast, _, ⟨there, _, rfl⟩ | ⟨hdots, _⟩⟩
  · cases hnamed
  · cases hnamed
  · have hne : step ≠ "" := by
      have hmem : step ∈ p.steps := List.mem_of_getLast? hlast
      intro heq
      subst heq
      simp [steps] at hmem
    exact ⟨step, hlast, (dots?_eq_none_iff hne).mp hdots⟩

/-- A path that is followed to a name has that name. -/
theorem fileName?_of_locate {root : Tree} {p : Path} {location : Location}
    (h : root.locate p = .ok location) (hnamed : location.named = true) :
    ∃ name, p.fileName? = some name := by
  obtain ⟨name, hlast, hname⟩ := name_of_locate h hnamed
  exact ⟨name, fileName?_of_getLast?_steps hlast hname⟩

end Tree
end Relatedness
