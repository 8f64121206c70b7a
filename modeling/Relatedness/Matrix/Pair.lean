import Relatedness.Matrix.Draft
import Relatedness.Matrix.Store
import Relatedness.Matrix.Transpose

/-!
A matrix and its transpose in one directory. Both files are made together in a staging
directory, which then takes the place of the old one.
-/
namespace Relatedness

structure MatrixPair where
  /-- Rows to features. -/
  forward : FileMatrix
  /-- Features to the rows that have them. -/
  transpose : FileMatrix

namespace MatrixPair

def forwardName : String := "matrix.spm"

def transposeName : String := "matrix.transpose.spm"

def openDirectory (fs : FileSystem) (directory : Path) : Except Error MatrixPair := do
  let forward ← FileMatrix.openFile fs (directory.child forwardName)
  let transpose ← FileMatrix.openFile fs (directory.child transposeName)
  return { forward, transpose }

/-- Writes rows and their transpose into a directory. -/
def write (directory : Path) (rows : List Row) : Action Unit := do
  let forward ← Action.ofExcept ((MatrixDraft.empty (directory.child forwardName)).addAll rows)
  Action.onDisk forward.save
  let transpose ← Action.ofExcept <|
    (MatrixDraft.empty (directory.child transposeName)).addAll (Matrix.transpose forward.rows.values)
  Action.onDisk transpose.save

/-- Replaces the directory by the pair of these rows and opens it. The staging directory is
removed again if a row is refused or a later step on the disk fails. -/
def build (directory : Path) (rows : List Row) : Action MatrixPair := do
  let staging ← Action.onDisk (Replacement.freshStaging directory)
  let discard := Action.onDisk (DiskM.attempt (Replacement.removeIfPresent staging))
  tryCatch (write staging rows) fun cause => do
    discard
    throw cause
  tryCatch (Action.onDisk (Replacement.replaceDirectory staging directory)) fun cause => do
    discard
    throw cause
  Action.log .info s!"built matrix pair in {directory.text}"
  Action.ofExcept (openDirectory (← Action.disk) directory)

end MatrixPair
end Relatedness
