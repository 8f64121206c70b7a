import Mathlib.Logic.Relation
import Relatedness.Proofs.Disk.Room

/-! Replacing a directory when it may be cut short. Any step may be refused by the system, a tree
is removed one entry after another, and the power may go at every moment. The old directory or
the new one stands under a known name all the same, and the new one is never lost. That a failed
replacement puts the old directory back needs a path that does not lead through it. -/

namespace Relatedness

open FileSystem

/-! ## Steps that may stop anywhere -/

/-- What an operation on directories may do on a disk: the moments at which it can be cut short,
and the ways in which it can end. -/
structure Course (α : Type) where
  during : FileSystem → FileSystem → Prop
  ends : FileSystem → Except IoError α → FileSystem → Prop

namespace FileSystem

/-- A file at or below a place is removed, or a directory with what is left in it. -/
def Loses (a : Place) (fs t : FileSystem) : Prop :=
  ∃ r, t = { fs with root := fs.root.erase (a ++ r) }

/-- What the removal of a tree has done at some moment. -/
def Crumbles (a : Place) : FileSystem → FileSystem → Prop := Relation.ReflTransGen (Loses a)

/-- The tree that stood at one place stands at another. -/
def Transfers (source goal : Place) (fs t : FileSystem) : Prop :=
  ∀ r, t.at? (goal ++ r) = fs.at? (source ++ r)

end FileSystem

namespace Course

instance : Monad Course where
  pure a := ⟨fun fs t => t = fs, fun fs r t => r = .ok a ∧ t = fs⟩
  bind x f :=
    { during := fun fs t => x.during fs t ∨ ∃ a u, x.ends fs (.ok a) u ∧ (f a).during u t
      ends := fun fs r t => (∃ a u, x.ends fs (.ok a) u ∧ (f a).ends u r t) ∨
        ∃ e, r = .error e ∧ x.ends fs (.error e) t }

instance : MonadExceptOf IoError Course where
  throw e := ⟨fun fs t => t = fs, fun fs r t => r = .error e ∧ t = fs⟩
  tryCatch x f :=
    { during := fun fs t => x.during fs t ∨ ∃ e u, x.ends fs (.error e) u ∧ (f e).during u t
      ends := fun fs r t => (∃ a, r = .ok a ∧ x.ends fs (.ok a) t) ∨
        ∃ e u, x.ends fs (.error e) u ∧ (f e).ends u r t }

/-- A look may miss what is there. A removal may stop halfway and a move may be refused, each
with any error, but a move is never seen halfway. -/
instance : DirectorySteps Course where
  present p :=
    { during := fun fs t => t = fs
      ends := fun fs r t => t = fs ∧ ∃ found, r = .ok found ∧ (found = true → fs.present p = true) }
  removeTree p :=
    { during := fun fs t => Crumbles p.place fs t
      ends := fun fs r t => r = .ok () ∧ fs.removeTree p = .ok t ∨
        ∃ e, r = .error e ∧ Crumbles p.place fs t }
  move p q :=
    { during := fun fs t => t = fs ∨ fs.move p q = .ok t
      ends := fun fs r t => r = .ok () ∧ fs.move p q = .ok t ∨ ∃ e, r = .error e ∧ t = fs }

/-- From this disk on every moment has one property, and every way to end the other. -/
structure Meets {α : Type} (x : Course α) (fs : FileSystem) (P : FileSystem → Prop)
    (Q : Except IoError α → FileSystem → Prop) : Prop where
  during : ∀ t, x.during fs t → P t
  ends : ∀ r t, x.ends fs r t → Q r t

section Meets

variable {α β : Type} {fs : FileSystem} {P : FileSystem → Prop}
  {Q : Except IoError β → FileSystem → Prop}

theorem Meets.pure {b : β} (hfs : P fs) (h : Q (.ok b) fs) :
    (pure b : Course β).Meets fs P Q := by
  refine ⟨fun t ht => ?_, fun r t hend => ?_⟩
  · obtain rfl : t = fs := ht
    exact hfs
  · obtain ⟨rfl, rfl⟩ : r = .ok b ∧ t = fs := hend
    exact h

theorem Meets.throw {e : IoError} (hfs : P fs) (h : Q (.error e) fs) :
    (throw e : Course β).Meets fs P Q := by
  refine ⟨fun t ht => ?_, fun r t hend => ?_⟩
  · obtain rfl : t = fs := ht
    exact hfs
  · obtain ⟨rfl, rfl⟩ : r = .error e ∧ t = fs := hend
    exact h

theorem Meets.bind {x : Course α} {f : α → Course β} {M : Except IoError α → FileSystem → Prop}
    (hx : x.Meets fs P M) (hf : ∀ a t, M (.ok a) t → (f a).Meets t P Q)
    (herror : ∀ e t, M (.error e) t → Q (.error e) t) :
    (x >>= f).Meets fs P Q := by
  refine ⟨fun t ht => ?_, fun r t hend => ?_⟩
  · rcases ht with ht | ⟨a, u, hu, ht⟩
    · exact hx.during t ht
    · exact (hf a u (hx.ends _ u hu)).during t ht
  · rcases hend with ⟨a, u, hu, hend⟩ | ⟨e, rfl, hend⟩
    · exact (hf a u (hx.ends _ u hu)).ends r t hend
    · exact herror e t (hx.ends _ t hend)

theorem Meets.tryCatch {x : Course β} {f : IoError → Course β}
    {M : Except IoError β → FileSystem → Prop} (hx : x.Meets fs P M)
    (hf : ∀ e t, M (.error e) t → (f e).Meets t P Q)
    (hok : ∀ b t, M (.ok b) t → Q (.ok b) t) :
    (tryCatch x f).Meets fs P Q := by
  refine ⟨fun t ht => ?_, fun r t hend => ?_⟩
  · rcases ht with ht | ⟨e, u, hu, ht⟩
    · exact hx.during t ht
    · exact (hf e u (hx.ends _ u hu)).during t ht
  · rcases hend with ⟨b, rfl, hend⟩ | ⟨e, u, hu, hend⟩
    · exact hok b t (hx.ends _ t hend)
    · exact (hf e u (hx.ends _ u hu)).ends r t hend

end Meets

/-- Among the ways in which a course may end is that of an operation that nothing disturbs. -/
def Allows {α : Type} (c : Course α) (x : DiskM α) : Prop :=
  ∀ fs, c.ends fs (outcome x fs).1 (outcome x fs).2

section Allows

variable {α β : Type}

theorem Allows.pure {a : α} : (pure a : Course α).Allows (pure a) := fun _ => ⟨rfl, rfl⟩

theorem Allows.throw {e : IoError} : (throw e : Course α).Allows (throw e) := fun _ => ⟨rfl, rfl⟩

theorem Allows.bind {c : Course α} {x : DiskM α} {f : α → Course β} {g : α → DiskM β}
    (hc : c.Allows x) (hf : ∀ a, (f a).Allows (g a)) : (c >>= f).Allows (x >>= g) := by
  intro fs
  have hend := hc fs
  rw [outcome_bind]
  cases hrun : outcome x fs with
  | mk r t =>
    rw [hrun] at hend
    cases r with
    | ok a => exact .inl ⟨a, t, hend, hf a t⟩
    | error e => exact .inr ⟨e, rfl, hend⟩

theorem Allows.tryCatch {c : Course α} {x : DiskM α} {f : IoError → Course α}
    {g : IoError → DiskM α} (hc : c.Allows x) (hf : ∀ e, (f e).Allows (g e)) :
    (tryCatch c f).Allows (tryCatch x g) := by
  intro fs
  have hend := hc fs
  rw [outcome_tryCatch]
  cases hrun : outcome x fs with
  | mk r t =>
    rw [hrun] at hend
    cases r with
    | ok a => exact .inl ⟨a, rfl, hend⟩
    | error e => exact .inr ⟨e, t, hend, hf e t⟩

theorem Allows.ite {p : Prop} [Decidable p] {c c' : Course α} {x x' : DiskM α}
    (hc : c.Allows x) (hc' : c'.Allows x') :
    (if p then c else c').Allows (if p then x else x') := by
  split
  · exact hc
  · exact hc'

end Allows
end Course

/-! ## The two generations -/

namespace Path

variable {p : Path} {name : String} {fs t u : FileSystem}

/-- No generation is lost: the old tree stands at the path or at its retired sibling, or the new
one does at the path, and the new one stands at the staging sibling or at the path. -/
structure Generations (p : Path) (fs t : FileSystem) : Prop where
  files : t.files = fs.files
  old : Transfers p.place p.place fs t ∨ Transfers p.place p.retired.place fs t ∨
    Transfers p.staging.place p.place fs t
  new : Transfers p.staging.place p.staging.place fs t ∨ Transfers p.staging.place p.place fs t

/-- The old tree stands at a place, and the new one is still being staged. -/
structure OldAt (p : Path) (a : Place) (fs t : FileSystem) : Prop where
  wellFormed : t.WellFormed
  files : t.files = fs.files
  old : Transfers p.place a fs t
  new : Transfers p.staging.place p.staging.place fs t

/-- The new tree stands at the path, and nothing is left where it was staged. -/
structure Placed (p : Path) (fs t : FileSystem) : Prop where
  wellFormed : t.WellFormed
  files : t.files = fs.files
  new : Transfers p.staging.place p.place fs t
  staging : ∀ r, t.at? (p.staging.place ++ r) = none

theorem OldAt.generations (h : p.OldAt p.place fs t) : p.Generations fs t :=
  ⟨h.files, .inl h.old, .inl h.new⟩

theorem OldAt.generations_retired (h : p.OldAt p.retired.place fs t) : p.Generations fs t :=
  ⟨h.files, .inr (.inl h.old), .inl h.new⟩

theorem Placed.generations (h : p.Placed fs t) : p.Generations fs t :=
  ⟨h.files, .inr (.inr h.new), .inr h.new⟩

/-- A replacement may end so: no generation is lost, and after a success the new one is in place. -/
structure Settled (p : Path) (fs : FileSystem) (r : Except IoError Unit) (t : FileSystem) :
    Prop where
  generations : p.Generations fs t
  placed : r = .ok () → p.Placed fs t

theorem Settled.stopped {e : IoError} (h : p.Generations fs t) : p.Settled fs (.error e) t :=
  ⟨h, fun hok => by cases hok⟩

theorem Settled.done {r : Except IoError Unit} (h : p.Placed fs t) : p.Settled fs r t :=
  ⟨h.generations, fun _ => h⟩

/-- A removal changes nothing outside of its tree. -/
theorem crumbles_spec {a : Place} (hcrumbles : Crumbles a t u) (ht : t.WellFormed) :
    u.WellFormed ∧ u.files = t.files ∧ ∀ b, ¬a <+: b → u.at? b = t.at? b := by
  induction hcrumbles with
  | refl => exact ⟨ht, rfl, fun _ _ => rfl⟩
  | tail _ hlast ih =>
    obtain ⟨hmid, hfiles, hout⟩ := ih
    obtain ⟨r, rfl⟩ := hlast
    refine ⟨?_, hfiles, fun b hb => ?_⟩
    · by_cases hempty : a ++ r = []
      · rwa [hempty]
      · exact hmid.erase hempty
    · have hkeep : ¬a ++ r <+: b := fun hpre => hb ((List.prefix_append a r).trans hpre)
      exact (Tree.kind?_erase_outside hkeep _).trans (hout b hb)

theorem crumbles_of_removeTree {q : Path} (ht : t.WellFormed) (h : t.removeTree q = .ok u) :
    Crumbles q.place t u := by
  obtain ⟨_, _, rfl⟩ := removeTree_eq_ok ht h
  exact .single ⟨[], by rw [List.append_nil]⟩

theorem OldAt.of_crumbles (hname : p.fileName? = some name) (h : p.OldAt p.place fs t)
    (hcrumbles : Crumbles p.retired.place t u) : p.OldAt p.place fs u := by
  obtain ⟨_, hsr, htr⟩ := apart_siblings hname
  obtain ⟨hu, hfiles, hout⟩ := crumbles_spec hcrumbles h.wellFormed
  refine ⟨hu, hfiles.trans h.files, fun r => ?_, fun r => ?_⟩
  · rw [hout _ (htr.symm.not_prefix_append r), h.old]
  · rw [hout _ (hsr.symm.not_prefix_append r), h.new]

theorem Placed.of_crumbles (hname : p.fileName? = some name) (h : p.Placed fs t)
    (hcrumbles : Crumbles p.retired.place t u) : p.Placed fs u := by
  obtain ⟨_, hsr, htr⟩ := apart_siblings hname
  obtain ⟨hu, hfiles, hout⟩ := crumbles_spec hcrumbles h.wellFormed
  refine ⟨hu, hfiles.trans h.files, fun r => ?_, fun r => ?_⟩
  · rw [hout _ (htr.symm.not_prefix_append r), h.new]
  · rw [hout _ (hsr.symm.not_prefix_append r), h.staging]

/-- The old tree goes from the path to its retired sibling or back. -/
theorem OldAt.moved {q q' : Path} (h : p.OldAt q.place fs t)
    (hmove : t.move q q' = .ok u) (hapart : Place.Apart q.place q'.place)
    (hq : Place.Apart q.place p.staging.place) (hq' : Place.Apart q'.place p.staging.place) :
    p.OldAt q'.place fs u := by
  obtain ⟨hu, hfiles, hmoved, _, hout⟩ := Replacement.move_of_apart h.wellFormed hapart hmove
  refine ⟨hu, hfiles.trans h.files, fun r => ?_, fun r => ?_⟩
  · rw [hmoved, h.old]
  · rw [hout _ (hq.not_prefix_append r) (hq'.not_prefix_append r), h.new]

/-- The new tree is put in place, wherever the old one is. -/
theorem OldAt.placed (hname : p.fileName? = some name) {a : Place} (h : p.OldAt a fs t)
    (hmove : t.move p.staging p = .ok u) : p.Placed fs u := by
  obtain ⟨hst, _, _⟩ := apart_siblings hname
  obtain ⟨hu, hfiles, hmoved, hgone, _⟩ := Replacement.move_of_apart h.wellFormed hst hmove
  exact ⟨hu, hfiles.trans h.files, fun r => by rw [hmoved, h.new], hgone⟩

end Path

namespace Replacement

open Relatedness.Path Course

variable {p : Path} {name : String} {fs t : FileSystem} {P : FileSystem → Prop}
  {Q : Except IoError Unit → FileSystem → Prop}

theorem meets_removeIfPresent {q : Path} {K : FileSystem → Prop} (ht : t.WellFormed)
    (h : ∀ u, Crumbles q.place t u → K u) (hkept : ∀ u, K u → P u) :
    (removeIfPresent q : Course Unit).Meets t P fun _ => K := by
  have hremove : (DirectorySteps.removeTree q : Course Unit).Meets t P fun _ => K := by
    refine ⟨fun u hu => hkept u (h u hu), fun r u hend => ?_⟩
    rcases hend with ⟨_, hok⟩ | ⟨_, _, hcrumbles⟩
    · exact h u (crumbles_of_removeTree ht hok)
    · exact h u hcrumbles
  refine hremove.tryCatch (fun e u hu => ?_) fun _ _ hu => hu
  split
  · exact .pure (hkept u hu) hu
  · exact .throw (hkept u hu) hu

theorem meets_move {q q' : Path} (ht : P t)
    (hmove : ∀ u, t.move q q' = .ok u → P u ∧ Q (.ok ()) u)
    (herror : ∀ e, Q (.error e) t) :
    (DirectorySteps.move q q' : Course Unit).Meets t P Q := by
  refine ⟨fun u hu => ?_, fun r u hend => ?_⟩
  · rcases hu with rfl | hok
    · exact ht
    · exact (hmove u hok).1
  · rcases hend with ⟨rfl, hok⟩ | ⟨e, rfl, rfl⟩
    · exact (hmove u hok).2
    · exact herror e

theorem meets_present {q : Path} {Q : Except IoError Bool → FileSystem → Prop} (ht : P t)
    (h : ∀ found, Q (.ok found) t) :
    (DirectorySteps.present q : Course Bool).Meets t P Q := by
  refine ⟨fun u hu => ?_, fun r u hend => ?_⟩
  · obtain rfl : u = t := hu
    exact ht
  · obtain ⟨rfl, found, rfl, _⟩ := hend
    exact h found

/-- Where the old tree was not moved aside, it stays until the new one replaces it. -/
theorem meets_place (hname : p.fileName? = some name) (h : p.OldAt p.place fs t) :
    (tryCatch (DirectorySteps.move p.staging p) throw : Course Unit).Meets t (p.Generations fs)
      (p.Settled fs) := by
  refine (meets_move h.generations (Q := p.Settled fs) (fun u hmove => ?_) fun _ =>
    .stopped h.generations).tryCatch (fun e u hu => ?_) fun _ _ hu => hu
  · have hplaced := h.placed hname hmove
    exact ⟨hplaced.generations, .done hplaced⟩
  · exact .throw hu.generations hu

/-- Whether the old tree can be put back or not, it stands at one of its two places. -/
theorem meets_putBack (hname : p.fileName? = some name) (h : p.OldAt p.retired.place fs t)
    (cause : IoError) :
    (do tryCatch (DirectorySteps.move p.retired p) fun _ => pure ()
        throw cause : Course Unit).Meets t (p.Generations fs) (p.Settled fs) := by
  obtain ⟨hst, hsr, htr⟩ := apart_siblings hname
  have hback : (DirectorySteps.move p.retired p : Course Unit).Meets t (p.Generations fs)
      fun _ => p.Generations fs := by
    refine meets_move h.generations_retired (fun u hmove => ?_) fun _ => h.generations_retired
    have hold := h.moved hmove htr.symm hsr.symm hst.symm
    exact ⟨hold.generations, hold.generations⟩
  have hcaught := hback.tryCatch (f := fun _ => pure ()) (Q := fun _ => p.Generations fs)
    (fun _ _ hu => .pure hu hu) fun _ _ hu => hu
  exact hcaught.bind (fun _ _ hu => .throw hu (.stopped hu)) fun _ _ hu => .stopped hu

/-- Once the old tree was moved aside, it waits there until the new one is in place. -/
theorem meets_swap (hname : p.fileName? = some name) (h : p.OldAt p.retired.place fs t) :
    (do tryCatch (DirectorySteps.move p.staging p) fun cause => do
          tryCatch (DirectorySteps.move p.retired p) fun _ => pure ()
          throw cause
        removeIfPresent p.retired : Course Unit).Meets t (p.Generations fs) (p.Settled fs) := by
  have hmove : (DirectorySteps.move p.staging p : Course Unit).Meets t (p.Generations fs)
      fun r u => match r with
        | .ok _ => p.Placed fs u
        | .error _ => p.OldAt p.retired.place fs u :=
    meets_move h.generations_retired
      (fun u hmove => ⟨(h.placed hname hmove).generations, h.placed hname hmove⟩) fun _ => h
  have hcaught := hmove.tryCatch (Q := p.Settled fs)
    (fun cause _ hu => meets_putBack hname hu cause) fun _ _ hu => .done hu
  refine hcaught.bind (fun _ u hu => ?_) fun _ _ hu => .stopped hu.generations
  have hclean := meets_removeIfPresent (q := p.retired) (K := p.Placed fs)
    (hu.placed rfl).wellFormed (fun _ hv => (hu.placed rfl).of_crumbles hname hv)
    fun _ hv => hv.generations
  exact ⟨hclean.during, fun r v hend => .done (hclean.ends r v hend)⟩

/-- Whatever a replacement does, no generation is lost; if it succeeds, the new tree is at the
path. -/
theorem meets_replaceDirectory (hfs : fs.WellFormed) (hname : p.fileName? = some name) :
    (replaceDirectory p.staging p : Course Unit).Meets fs (p.Generations fs) (p.Settled fs) := by
  obtain ⟨hst, hsr, htr⟩ := apart_siblings hname
  have hstart : p.OldAt p.place fs fs := ⟨hfs, rfl, fun _ => rfl, fun _ => rfl⟩
  unfold replaceDirectory
  refine (meets_removeIfPresent (K := p.OldAt p.place fs) hfs
    (fun _ hu => hstart.of_crumbles hname hu) fun _ hu => hu.generations).bind (fun _ t ht => ?_)
    fun _ _ hu => .stopped hu.generations
  refine (meets_present (Q := fun _ => p.OldAt p.place fs) ht.generations fun _ => ht).bind
    (fun found t ht => ?_) fun _ _ hu => .stopped hu.generations
  cases found with
  | false =>
    -- the old tree may have been missed; then it can only be replaced by a move onto it
    simp only [Bool.false_eq_true, if_false]
    exact (meets_place hname ht).bind (fun _ _ hu => .pure hu.generations hu)
      fun _ _ hu => .stopped hu.generations
  | true =>
    -- from here on it stands at the retired sibling until the new one is in place
    simp only [if_true]
    have haside : (DirectorySteps.move p p.retired : Course Unit).Meets t (p.Generations fs)
        fun r u => match r with
          | .ok _ => p.OldAt p.retired.place fs u
          | .error _ => p.Generations fs u := by
      refine meets_move ht.generations (fun u hmove => ?_) fun _ => ht.generations
      have hold := ht.moved hmove htr hst.symm hsr.symm
      exact ⟨hold.generations_retired, hold⟩
    exact haside.bind (fun _ _ hu => meets_swap hname hu) fun _ _ hu => .stopped hu

theorem allows_removeIfPresent (q : Path) :
    (removeIfPresent q : Course Unit).Allows (removeIfPresent q : DiskM Unit) := by
  refine Allows.tryCatch (fun fs => ?_) fun e => .ite .pure .throw
  rw [removeTree_eq, DiskM.outcome_change]
  cases hremove : fs.removeTree q with
  | ok t => exact .inl ⟨rfl, hremove⟩
  | error e => exact .inr ⟨e, rfl, .refl⟩

theorem allows_move (q q' : Path) :
    (DirectorySteps.move q q' : Course Unit).Allows (DirectorySteps.move q q' : DiskM Unit) := by
  intro fs
  rw [move_eq, DiskM.outcome_change]
  cases hmove : fs.move q q' with
  | ok t => exact .inl ⟨rfl, hmove⟩
  | error e => exact .inr ⟨e, rfl, rfl⟩

/-- What a replacement does when nothing disturbs it is one of its courses. -/
theorem allows_replaceDirectory (staging target : Path) :
    (replaceDirectory staging target : Course Unit).Allows
      (replaceDirectory staging target : DiskM Unit) := by
  have hlook : (DirectorySteps.present target : Course Bool).Allows
      (DirectorySteps.present target : DiskM Bool) := fun fs => ⟨rfl, _, rfl, id⟩
  unfold replaceDirectory
  refine (allows_removeIfPresent _).bind fun _ => hlook.bind fun found => ?_
  have hplace := allows_move staging target
  cases found with
  | false =>
    simp only [Bool.false_eq_true, if_false]
    exact (hplace.tryCatch fun _ => .throw).bind fun _ => .pure
  | true =>
    simp only [if_true]
    have hback := (allows_move target.retired target).tryCatch (f := fun _ => pure ())
      (g := fun _ => pure ()) fun _ => .pure
    exact (allows_move target target.retired).bind fun _ =>
      (hplace.tryCatch fun _ => hback.bind fun _ => .throw).bind fun _ => allows_removeIfPresent _

/-- A replacement loses no generation, wherever it is cut short and whichever of its steps are
refused. That is also where it ends undisturbed; and then, if the way to the path does not lead
through what is replaced, a failure leaves the old tree at the path, and a success the new one,
without either sibling. Where there is room for a directory, it succeeds. -/
theorem generations_kept (hfs : fs.WellFormed) (hname : p.fileName? = some name) :
    (∀ t, (replaceDirectory p.staging p : Course Unit).during fs t → p.Generations fs t) ∧
    (∀ r t, (replaceDirectory p.staging p : Course Unit).ends fs r t → p.Settled fs r t) ∧
    p.Settled fs (outcome (replaceDirectory p.staging p : DiskM Unit) fs).1
      (outcome (replaceDirectory p.staging p : DiskM Unit) fs).2 ∧
    (p.Steady fs → (∀ id, fs.at? p.place ≠ some (.file id)) →
      (∀ e t, Fails (replaceDirectory p.staging p : DiskM Unit) fs e t → p.OldAt p.place fs t) ∧
      ∀ t, Succeeds (replaceDirectory p.staging p : DiskM Unit) fs () t →
        p.Placed fs t ∧ ∀ r, t.at? (p.retired.place ++ r) = none) ∧
    (p.Roomy fs → fs.at? p.staging.place = some .directory →
      ∃ t, Succeeds (replaceDirectory p.staging p : DiskM Unit) fs () t) := by
  have hmeets := meets_replaceDirectory hfs hname
  have hends := hmeets.ends _ _ (allows_replaceDirectory p.staging p fs)
  refine ⟨hmeets.during, hmeets.ends, hends, fun hsteady hfile => ⟨fun e t h => ?_, fun t h => ?_⟩,
    exists_replaceDirectory hfs⟩
  · obtain ⟨hbeside, hfiles, hold, hnew⟩ := unreplaced_of_fails hfs hname hsteady hfile h
    exact ⟨hbeside.wellFormed, hfiles, hold, hnew⟩
  · rw [show outcome _ fs = _ from h] at hends
    exact ⟨hends.placed rfl, (replaced_of_succeeds hfs hname hsteady h).retired⟩

/-- A directory beside the one that is staged for it. -/
def twoTrees : FileSystem :=
  ⟨.directory [("m", .directory [("old", .file 0)]), ("m.staging", .directory [("new", .file 1)])],
    #[⟨.ofBytes [0], 1⟩, ⟨.ofBytes [1], 3⟩], 4⟩

theorem wellFormed_twoTrees : twoTrees.WellFormed := by
  have hdir := (makeDirectory_spec (p := ⟨false, ["m"]⟩) (.empty 0) rfl).1
  have hold := (writeFile_spec hdir (show writeFile _ ⟨false, ["m", "old"]⟩ [0] = .ok _ from rfl)).1
  have hstaging := (makeDirectory_spec (p := ⟨false, ["m.staging"]⟩) hold rfl).1
  exact (writeFile_spec hstaging
    (show writeFile _ ⟨false, ["m.staging", "new"]⟩ [1] = .ok twoTrees from rfl)).1

/-- The path of the directory, and one that leads to it through the directory itself. -/
def plain : Path := ⟨false, ["m"]⟩
def throughItself : Path := ⟨false, ["m", "..", "m"]⟩

/-- At the plain path the new tree takes the place of the old one. -/
theorem generations_kept_plain :
    ∃ t, Succeeds (replaceDirectory plain.staging plain : DiskM Unit) twoTrees () t ∧
      t.at? ["m", "new"] = some (.file 1) ∧ t.at? ["m.retired"] = none ∧
      ∀ u, (replaceDirectory plain.staging plain : Course Unit).during twoTrees u →
        plain.Generations twoTrees u := by
  have hname : plain.fileName? = some "m" := by decide +kernel
  have hsteady : plain.Steady twoTrees := steady_of_no_dots hname (by decide)
  obtain ⟨hduring, _, _, hreturns, hsucceeds⟩ := generations_kept wellFormed_twoTrees hname
  have hroom : plain.Roomy twoTrees := by
    refine ⟨⟨"m", by decide, by decide⟩, hsteady, rfl, ?_, ?_, ?_⟩ <;> exact fun _ h => by cases h
  obtain ⟨t, h⟩ := hsucceeds hroom rfl
  obtain ⟨hplaced, hretired⟩ := (hreturns hsteady fun _ hat => by cases hat).2 t h
  exact ⟨t, h, hplaced.new ["new"], hretired [], hduring⟩

/-- On the path through the directory nothing can be found once the directory was moved aside.
The replacement fails, the old tree cannot be put back, and this goes unnoticed. -/
theorem replaceDirectory_through_itself :
    twoTrees.WellFormed ∧ throughItself.fileName? = some "m" ∧
      twoTrees.at? throughItself.place = some .directory ∧
      twoTrees.at? throughItself.staging.place = some .directory ∧
      ∃ e t,
        Fails (replaceDirectory throughItself.staging throughItself : DiskM Unit) twoTrees e t ∧
        t.at? throughItself.place = none ∧ t.at? ["m.retired", "old"] = some (.file 0) := by
  have hcheck : failsWith (replaceDirectory throughItself.staging throughItself : DiskM Unit)
      twoTrees (fun _ t => decide (t.at? throughItself.place = none) &&
        decide (t.at? ["m.retired", "old"] = some (.file 0))) = true := by decide +kernel
  obtain ⟨e, t, h, hends⟩ := exists_of_failsWith hcheck
  rw [Bool.and_eq_true, decide_eq_true_iff, decide_eq_true_iff] at hends
  exact ⟨wellFormed_twoTrees, by decide +kernel, by decide +kernel, by decide +kernel, e, t, h,
    hends⟩

end Replacement
end Relatedness
