import Mathlib.Data.List.Infix
import Relatedness.Disk.Tree

/-! What the operations on trees change. A tree is seen through `kind?`, which says of every
place what stands there: putting a tree at a place decides the places from there on and no
others, and erasing one leaves nothing from there on. -/

namespace Relatedness.Tree

/-- What stands at a place, without what is below it. -/
inductive Kind where
  | file (id : Nat)
  | directory
deriving DecidableEq

def kind : Tree → Kind
  | file id => .file id
  | directory _ => .directory

def kind? (p : Place) (t : Tree) : Option Kind := (t.find? p).map kind

/-! ## Looking up -/

@[simp] theorem find?_nil (t : Tree) : t.find? [] = some t := by
  cases t <;> rfl

@[simp] theorem find?_cons_file (name : String) (p : Place) (id : Nat) :
    (file id).find? (name :: p) = none := rfl

theorem find?_cons_directory (name : String) (p : Place) (entries : List (String × Tree)) :
    (directory entries).find? (name :: p) = (entries.lookup name).bind (find? p) := rfl

theorem find?_append (p q : Place) (t : Tree) :
    t.find? (p ++ q) = (t.find? p).bind (find? q) := by
  induction p generalizing t with
  | nil => simp
  | cons name p ih =>
    cases t with
    | file id => simp
    | directory entries =>
      rw [List.cons_append, find?_cons_directory, find?_cons_directory]
      cases entries.lookup name with
      | none => rfl
      | some u => exact ih u

theorem kind?_append (p q : Place) (t : Tree) :
    t.kind? (p ++ q) = (t.find? p).bind (kind? q) := by
  unfold kind?
  rw [find?_append]
  cases t.find? p <;> rfl

theorem kind?_eq_file_iff {p : Place} {t : Tree} {id : Nat} :
    t.kind? p = some (.file id) ↔ t.find? p = some (file id) := by
  unfold kind?
  cases h : t.find? p with
  | none => simp
  | some u => cases u <;> simp [kind]

theorem kind?_eq_directory_iff {p : Place} {t : Tree} :
    t.kind? p = some .directory ↔ ∃ entries, t.find? p = some (directory entries) := by
  unfold kind?
  cases h : t.find? p with
  | none => simp
  | some u => cases u <;> simp [kind]

theorem kind?_eq_none_iff {p : Place} {t : Tree} : t.kind? p = none ↔ t.find? p = none := by
  simp [kind?]

/-- Only a directory has something below it. -/
theorem kind?_of_append {p q : Place} {t : Tree} {k : Kind} (h : t.kind? (p ++ q) = some k)
    (hq : q ≠ []) : t.kind? p = some .directory := by
  rw [kind?_append] at h
  obtain ⟨u, hu, hk⟩ := Option.bind_eq_some_iff.mp h
  obtain ⟨name, rest, rfl⟩ := List.exists_cons_of_ne_nil hq
  cases u with
  | file id => simp [kind?] at hk
  | directory entries => exact kind?_eq_directory_iff.mpr ⟨entries, hu⟩

/-- Below a place that is no directory there is nothing. -/
theorem kind?_append_eq_none {p q : Place} {t : Tree} (h : t.kind? p ≠ some .directory)
    (hq : q ≠ []) : t.kind? (p ++ q) = none := by
  cases hk : t.kind? (p ++ q) with
  | none => rfl
  | some k => exact absurd (kind?_of_append hk hq) h

/-! ## Entries -/

theorem lookup_setEntry (name other : String) (t : Tree) (entries : List (String × Tree)) :
    (setEntry name t entries).lookup other =
      if other = name then some t else entries.lookup other := by
  induction entries with
  | nil =>
    simp only [setEntry, List.lookup_cons, List.lookup_nil]
    by_cases h : other = name
    · simp [h]
    · simp [h, beq_eq_false_iff_ne.mpr h]
  | cons e rest ih =>
    obtain ⟨first, u⟩ := e
    simp only [setEntry]
    by_cases hfirst : first = name
    · subst hfirst
      simp only [if_pos, List.lookup_cons]
      by_cases h : other = first
      · simp [h]
      · simp [h, beq_eq_false_iff_ne.mpr h]
    · simp only [if_neg hfirst, List.lookup_cons, ih]
      by_cases h : other = first
      · subst h
        simp [hfirst]
      · simp [beq_eq_false_iff_ne.mpr h]

theorem lookup_dropEntry (name other : String) (entries : List (String × Tree)) :
    (dropEntry name entries).lookup other =
      if other = name then none else entries.lookup other := by
  unfold dropEntry
  induction entries with
  | nil => simp
  | cons e rest ih =>
    obtain ⟨first, u⟩ := e
    by_cases hfirst : first = name
    · subst hfirst
      rw [List.filter_cons_of_neg (by simp), ih, List.lookup_cons]
      by_cases h : other = first
      · simp [h]
      · simp [h, beq_eq_false_iff_ne.mpr h]
    · rw [List.filter_cons_of_pos (by simpa using hfirst), List.lookup_cons, ih,
        List.lookup_cons]
      by_cases h : other = first
      · subst h
        simp [hfirst]
      · simp [beq_eq_false_iff_ne.mpr h]

/-! ## Putting and erasing -/

/-- From a place whose directory exists, what was put there is found. -/
theorem find?_put_append {above : Place} {name : String} {t : Tree}
    {entries : List (String × Tree)} (h : t.find? above = some (directory entries)) (new : Tree)
    (q : Place) : (put (above ++ [name]) t new).find? (above ++ name :: q) = new.find? q := by
  induction above generalizing t with
  | nil =>
    rw [find?_nil] at h
    cases Option.some.inj h
    simp [put, find?_cons_directory, lookup_setEntry]
  | cons first above ih =>
    cases t with
    | file id => simp at h
    | directory outer =>
      rw [find?_cons_directory] at h
      obtain ⟨u, hu, hfind⟩ := Option.bind_eq_some_iff.mp h
      obtain ⟨next, rest, hrest⟩ : ∃ next rest, above ++ [name] = next :: rest :=
        List.exists_cons_of_ne_nil (by simp)
      have ih := ih hfind
      rw [hrest] at ih
      simp only [List.cons_append, hrest, put, hu]
      rw [find?_cons_directory, lookup_setEntry, if_pos rfl]
      exact ih

theorem kind?_put_append {above : Place} {t : Tree} (h : t.kind? above = some .directory)
    (name : String) (new : Tree) (q : Place) :
    (put (above ++ [name]) t new).kind? (above ++ name :: q) = new.kind? q := by
  obtain ⟨entries, hfind⟩ := kind?_eq_directory_iff.mp h
  rw [kind?, find?_put_append hfind]
  rfl

theorem kind?_put_outside {p q : Place} (h : ¬p <+: q) (t new : Tree) :
    (put p t new).kind? q = t.kind? q := by
  fun_induction put p t new generalizing q with
  | case1 => exact absurd (List.nil_prefix) h
  | case2 => rfl
  | case3 name entries new =>
    cases q with
    | nil => rfl
    | cons first q =>
      have hne : first ≠ name := by
        intro hsame
        subst hsame
        exact h (by simp [List.cons_prefix_cons])
      simp [kind?, find?_cons_directory, lookup_setEntry, hne]
  | case4 name next rest entries new u hu ih =>
    cases q with
    | nil => rfl
    | cons first q =>
      simp only [kind?, find?_cons_directory, lookup_setEntry]
      split
      · rename_i heq
        subst heq
        have := ih (q := q) fun hp => h (List.cons_prefix_cons.mpr ⟨rfl, hp⟩)
        simpa [hu, kind?] using this
      · rfl
  | case5 => rfl

/-- A file or an empty directory decides its own place only. -/
theorem kind?_put_leaf {above : Place} {name : String} {t leaf : Tree}
    (habove : t.kind? above = some .directory) (hnone : t.kind? (above ++ [name]) = none)
    (hleaf : ∀ q, q ≠ [] → leaf.kind? q = none) (q : Place) :
    (put (above ++ [name]) t leaf).kind? q =
      if q = above ++ [name] then some leaf.kind else t.kind? q := by
  by_cases hpre : above ++ [name] <+: q
  · obtain ⟨r, rfl⟩ := hpre
    have hput := kind?_put_append habove name leaf r
    rw [List.append_assoc, List.singleton_append, hput]
    by_cases hr : r = []
    · simp [hr, kind?]
    · rw [if_neg (by simpa using hr), hleaf r hr]
      have := kind?_append_eq_none (t := t) (by rw [hnone]; simp) hr
      simpa using this.symm
  · rw [if_neg fun heq => hpre (by rw [heq])]
    exact kind?_put_outside hpre _ _

theorem kind?_erase_append {p : Place} (hp : p ≠ []) (q : Place) (t : Tree) :
    (erase p t).kind? (p ++ q) = none := by
  fun_induction erase p t with
  | case1 => exact absurd rfl hp
  | case2 name rest id => simp [kind?]
  | case3 name entries => simp [kind?, find?_cons_directory, lookup_dropEntry]
  | case4 name next rest entries u hu ih =>
    have := ih (by simp)
    simpa [kind?, find?_cons_directory, lookup_setEntry] using this
  | case5 name next rest entries hnone =>
    simp [kind?, find?_cons_directory, hnone]

theorem kind?_erase_outside {p q : Place} (h : ¬p <+: q) (t : Tree) :
    (erase p t).kind? q = t.kind? q := by
  fun_induction erase p t generalizing q with
  | case1 => rfl
  | case2 => rfl
  | case3 name entries =>
    cases q with
    | nil => rfl
    | cons first q =>
      have hne : first ≠ name := by
        intro hsame
        subst hsame
        exact h (by simp [List.cons_prefix_cons])
      simp [kind?, find?_cons_directory, lookup_dropEntry, hne]
  | case4 name next rest entries u hu ih =>
    cases q with
    | nil => rfl
    | cons first q =>
      simp only [kind?, find?_cons_directory, lookup_setEntry]
      split
      · rename_i heq
        subst heq
        have := ih (q := q) fun hp => h (List.cons_prefix_cons.mpr ⟨rfl, hp⟩)
        simpa [hu, kind?] using this
      · rfl
  | case5 => rfl

/-- Erasing a place below which there is nothing leaves the other places. -/
theorem kind?_erase_leaf {p : Place} {t : Tree} (hp : p ≠ []) (h : t.kind? p ≠ some .directory)
    (q : Place) : (erase p t).kind? q = if q = p then none else t.kind? q := by
  by_cases hpre : p <+: q
  · obtain ⟨r, rfl⟩ := hpre
    rw [kind?_erase_append hp]
    by_cases hr : r = []
    · simp [hr]
    · rw [if_neg (by simpa using hr), kind?_append_eq_none h hr]
  · rw [if_neg fun heq => hpre (by rw [heq])]
    exact kind?_erase_outside hpre t

section Moved

variable {root moved : Tree} {p q : Place}

/-! ## A tree that was taken out and put elsewhere -/

theorem kind?_moved_source (hp : p ≠ []) (hpq : ¬p <+: q) (hqp : ¬q <+: p) (r : Place) :
    ((root.erase p).put q moved).kind? (p ++ r) = none := by
  rw [kind?_put_outside, kind?_erase_append hp]
  intro hpre
  rcases List.prefix_or_prefix_of_prefix hpre (List.prefix_append p r) with h | h
  · exact hqp h
  · exact hpq h

theorem kind?_moved_target (hpq : ¬p <+: q) (hfind : root.find? p = some moved)
    (htarget : ∃ above name, q = above ++ [name] ∧ root.kind? above = some .directory) (r : Place) :
    ((root.erase p).put q moved).kind? (q ++ r) = root.kind? (p ++ r) := by
  obtain ⟨above, name, rfl, habove⟩ := htarget
  have hstill : (root.erase p).kind? above = some .directory := by
    rw [kind?_erase_outside fun hpre => hpq (hpre.trans (List.prefix_append _ _))]
    exact habove
  rw [List.append_assoc, List.singleton_append, kind?_put_append hstill, kind?_append, hfind]
  rfl

theorem kind?_moved_outside {a : Place} (hpa : ¬p <+: a) (hqa : ¬q <+: a) :
    ((root.erase p).put q moved).kind? a = root.kind? a := by
  rw [kind?_put_outside hqa, kind?_erase_outside hpa]

/-- A file stands where it stood, or was moved along. -/
theorem file_of_moved {a : Place} {id : Nat} (hp : p ≠ []) (hpq : ¬p <+: q) (hqp : ¬q <+: p)
    (hfind : root.find? p = some moved)
    (htarget : ∃ above name, q = above ++ [name] ∧ root.kind? above = some .directory)
    (ha : ((root.erase p).put q moved).kind? a = some (.file id)) :
    (∃ r, a = q ++ r ∧ root.kind? (p ++ r) = some (.file id)) ∨
      (¬p <+: a ∧ root.kind? a = some (.file id)) := by
  by_cases hqa : q <+: a
  · obtain ⟨r, rfl⟩ := hqa
    rw [kind?_moved_target hpq hfind htarget] at ha
    exact .inl ⟨r, rfl, ha⟩
  by_cases hpa : p <+: a
  · obtain ⟨r, rfl⟩ := hpa
    cases (kind?_moved_source hp hpq hqp r).symm.trans ha
  · rw [kind?_moved_outside hpa hqa] at ha
    exact .inr ⟨hpa, ha⟩

end Moved

end Relatedness.Tree
