import Relatedness.Proofs.Disk.Replacement

/-! Directories without their files. Where a replacement puts directories does not depend on what
is in files, so whether it succeeds is known from the directories alone. -/

namespace Relatedness

namespace FileSystem

/-- The same directories with other files. -/
def withFiles (fs : FileSystem) (files : Array File) (clock : Nat) : FileSystem :=
  { fs with files, clock }

variable (fs : FileSystem) (files : Array File) (clock : Nat)

theorem find_withFiles (p : Path) : (fs.withFiles files clock).find p = fs.find p := rfl

theorem removeTree_withFiles (p : Path) :
    (fs.withFiles files clock).removeTree p =
      (fs.removeTree p).map (·.withFiles files clock) := by
  unfold removeTree
  rw [find_withFiles]
  cases fs.find p with
  | error cause => rfl
  | ok t =>
    change (if t.isFile = true then _ else _) = Except.map _ (if t.isFile = true then _ else _)
    split
    · rfl
    · change (fs.root.locate p >>= _) = Except.map _ (fs.root.locate p >>= _)
      cases fs.root.locate p with
      | error cause => rfl
      | ok location =>
        change (if _ then _ else _) = Except.map _ (if _ then _ else _)
        split <;> rfl

theorem move_withFiles (p q : Path) :
    (fs.withFiles files clock).move p q = (fs.move p q).map (·.withFiles files clock) := by
  unfold move
  change (fs.root.locate p >>= fun start => _) = Except.map _ (fs.root.locate p >>= fun start => _)
  cases fs.root.locate p with
  | error cause => rfl
  | ok start =>
    change (fs.root.locate q >>= fun start => _) = Except.map _ (fs.root.locate q >>= fun start => _)
    cases fs.root.locate q with
    | error cause => rfl
    | ok goal =>
      have hroot : (fs.withFiles files clock).root = fs.root := rfl
      simp only [hroot, bind, Except.bind, throw, throwThe, MonadExceptOf.throw, pure, Except.pure]
      split
      · cases fs.root.find? start.place with
        | none => rfl
        | some moved =>
          simp only
          split
          · rfl
          · split
            · rfl
            · split
              · rfl
              · split
                · rfl
                · split <;> rfl
      · rfl
end FileSystem

namespace DiskM

/-- The operation neither reads nor writes files. -/
def IgnoresFiles {α : Type} (x : DiskM α) : Prop :=
  ∀ fs files clock, outcome x (fs.withFiles files clock) =
    ((outcome x fs).1, (outcome x fs).2.withFiles files clock)

variable {α β : Type}

theorem IgnoresFiles.pure (a : α) : IgnoresFiles (pure a : DiskM α) := fun _ _ _ => rfl

theorem IgnoresFiles.throw (e : IoError) : IgnoresFiles (throw e : DiskM α) := fun _ _ _ => rfl

theorem IgnoresFiles.change {f : FileSystem → Except IoError FileSystem}
    (h : ∀ fs files clock, f (FileSystem.withFiles fs files clock) =
      (f fs).map (·.withFiles files clock)) : IgnoresFiles (change f) := by
  intro fs files clock
  rw [outcome_change, outcome_change, h]
  cases f fs <;> rfl

theorem IgnoresFiles.bind {x : DiskM α} {f : α → DiskM β} (hx : IgnoresFiles x)
    (hf : ∀ a, IgnoresFiles (f a)) : IgnoresFiles (x >>= f) := by
  intro fs files clock
  rw [outcome_bind, outcome_bind, hx]
  cases outcome x fs with
  | mk r t =>
    cases r with
    | ok a => exact hf a t files clock
    | error e => rfl

theorem IgnoresFiles.tryCatch {x : DiskM α} {f : IoError → DiskM α} (hx : IgnoresFiles x)
    (hf : ∀ e, IgnoresFiles (f e)) : IgnoresFiles (tryCatch x f) := by
  intro fs files clock
  rw [outcome_tryCatch, outcome_tryCatch, hx]
  cases outcome x fs with
  | mk r t =>
    cases r with
    | ok a => rfl
    | error e => exact hf e t files clock

theorem IgnoresFiles.ite {c : Prop} [Decidable c] {x y : DiskM α} (hx : IgnoresFiles x)
    (hy : IgnoresFiles y) : IgnoresFiles (if c then x else y) := by
  split
  · exact hx
  · exact hy

/-- What succeeds for some contents of files succeeds for any. -/
theorem IgnoresFiles.succeeds {x : DiskM α} (hx : IgnoresFiles x) {fs fs' : FileSystem} {a : α}
    (h : Succeeds x fs a fs') (files : Array File) (clock : Nat) :
    Succeeds x (fs.withFiles files clock) a (fs'.withFiles files clock) := by
  unfold Succeeds
  rw [hx, show outcome x fs = _ from h]

end DiskM

namespace Replacement

open DiskM

theorem ignoresFiles_removeIfPresent (p : Path) : IgnoresFiles (removeIfPresent p : DiskM Unit) :=
  .tryCatch (.change fun fs files clock => fs.removeTree_withFiles files clock p)
    fun _ => .ite (.pure ()) (.throw _)

theorem ignoresFiles_move (p q : Path) :
    IgnoresFiles (DirectorySteps.move p q : DiskM Unit) :=
  .change fun fs files clock => fs.move_withFiles files clock p q

/-- Which directory stands where does not depend on what is in files. -/
theorem ignoresFiles_replaceDirectory (staging target : Path) :
    IgnoresFiles (replaceDirectory staging target : DiskM Unit) := by
  refine .bind (ignoresFiles_removeIfPresent _) fun _ => .bind (fun _ _ _ => rfl) fun previous => ?_
  have hplace : IgnoresFiles (do
      tryCatch (DirectorySteps.move staging target) fun cause => do
        if previous then tryCatch (DirectorySteps.move target.retired target) fun _ => pure ()
        throw cause
      if previous then removeIfPresent target.retired : DiskM Unit) := by
    refine .bind (.tryCatch (ignoresFiles_move _ _) fun cause => ?_) fun _ =>
      .ite (ignoresFiles_removeIfPresent _) (.pure ())
    refine .ite (.bind (.tryCatch (ignoresFiles_move _ _) fun _ => .pure ()) fun _ => .throw cause)
      (.throw cause)
  exact .ite (.bind (ignoresFiles_move _ _) fun _ => hplace) hplace

end Replacement

end Relatedness
