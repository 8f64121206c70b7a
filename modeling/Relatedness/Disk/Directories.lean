import Relatedness.Session

/-!
Making a directory together with those above it. What was made on the way stays, also when a
later one fails.
-/
namespace Relatedness

namespace DiskM

/-- Makes a directory unless there is one. -/
def ensureDirectory (p : Path) : DiskM Unit :=
  tryCatch (change (·.makeDirectory p)) fun cause => do
    unless ← inspect fun fs => .ok (fs.isDirectory p) do throw cause

/-- Makes the first directory of a list in which each is the parent of the one before it, and
for that those which are missing. -/
def ensureFirst : List Path → DiskM Unit
  | [] => pure ()
  | p :: above => tryCatch (ensureDirectory p) fun cause => do
    unless cause = .notFound do throw cause
    ensureFirst above
    ensureDirectory p

def makeDirectories (p : Path) : DiskM Unit := ensureFirst p.ancestors

end DiskM
end Relatedness
