import Relatedness.Disk.Directories

/-!
Replacing files and directories without ever showing a half-written one. The new content is
made beside the target and moved into its place in the end; a directory that is replaced is
first moved aside, so that the old or the new one stands under a known name at every moment.
-/
namespace Relatedness

/-- The steps that a replacement of directories is made of. -/
class DirectorySteps (m : Type → Type) where
  present : Path → m Bool
  removeTree : Path → m Unit
  move : Path → Path → m Unit

instance : DirectorySteps DiskM where
  present p := DiskM.inspect fun fs => .ok (fs.present p)
  removeTree p := DiskM.change (·.removeTree p)
  move source target := DiskM.change (·.move source target)

namespace Path

/-- Where a directory is built before it takes the place of the target. -/
def staging (target : Path) : Path := target.sibling "staging"

/-- Where the old directory waits while it is replaced. -/
def retired (target : Path) : Path := target.sibling "retired"

end Path

namespace Replacement

open DirectorySteps

section Steps

variable {m : Type → Type} [Monad m] [MonadExceptOf IoError m] [DirectorySteps m]

def removeIfPresent (p : Path) : m Unit :=
  tryCatch (removeTree p) fun cause => if cause = .notFound then pure () else throw cause

/-- Puts the directory at `staging` in place of the target. If that fails after the old one
was moved aside, the old one is put back. -/
def replaceDirectory (staging target : Path) : m Unit := do
  removeIfPresent target.retired
  let hadPrevious ← present target
  if hadPrevious then move target target.retired
  tryCatch (move staging target) fun cause => do
    if hadPrevious then tryCatch (move target.retired target) fun _ => pure ()
    throw cause
  if hadPrevious then removeIfPresent target.retired

end Steps

/-- Prepares an empty staging directory for the target and the directories above it. -/
def freshStaging (target : Path) : DiskM Path := do
  removeIfPresent target.staging
  DiskM.makeDirectories target.staging.parent
  DiskM.makeDirectories target.staging
  return target.staging

/-- Writes a file under a temporary name and moves it to the target. A temporary file that
could not be written is removed; one that could not be moved is removed if `tidy` says so. -/
def replaceFile (temporary target : Path) (content : Bytes) (tidy : Bool) : DiskM Unit := do
  let discard := DiskM.attempt (DiskM.change (·.removeFile temporary))
  tryCatch (DiskM.change (·.writeFile temporary content)) fun cause => do
    discard
    throw cause
  tryCatch (DiskM.change (·.move temporary target)) fun cause => do
    if tidy then discard
    throw cause

end Replacement
end Relatedness
