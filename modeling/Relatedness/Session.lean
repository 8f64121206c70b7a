import Relatedness.Disk.FileSystem
import Relatedness.Error

/-!
Where operations run: a file system and the records they log. Both outlive a failure.
-/
namespace Relatedness

inductive LogLevel where
  | error
  | warn
  | info
  | debug
deriving DecidableEq

structure LogRecord where
  level : LogLevel
  text : String
deriving DecidableEq

structure Session where
  disk : FileSystem
  /-- The latest record comes first. -/
  log : List LogRecord

/-- An operation on files. -/
abbrev DiskM := ExceptT IoError (StateM FileSystem)

/-- An operation of this library. -/
abbrev Action := ExceptT Error (StateM Session)

def Session.record (s : Session) (level : LogLevel) (text : String) : Session :=
  { s with log := ⟨level, text⟩ :: s.log }

namespace DiskM

/-- A change of the file system that happens wholly or not at all. -/
def change (f : FileSystem → Except IoError FileSystem) : DiskM Unit := ExceptT.mk fun fs =>
  match f fs with
  | .ok new => (.ok (), new)
  | .error cause => (.error cause, fs)

def inspect {α : Type} (f : FileSystem → Except IoError α) : DiskM α :=
  ExceptT.mk fun fs => (f fs, fs)

/-- Goes on whether the operation succeeds or not. -/
def attempt {α : Type} (x : DiskM α) : DiskM Unit := ExceptT.mk do
  let _ ← x.run
  return .ok ()

end DiskM

namespace Action

def ofExcept {α : Type} (r : Except Error α) : Action α := ExceptT.mk (pure r)

def disk : Action FileSystem := do return (← get).disk

/-- Runs an operation on the files of the session. -/
def onDisk {α : Type} (x : DiskM α) : Action α := ExceptT.mk fun s =>
  let (r, disk) := x.run.run s.disk
  (r.mapError Error.io, { s with disk })

def log (level : LogLevel) (text : String) : Action Unit := modify (·.record level text)

end Action
end Relatedness
