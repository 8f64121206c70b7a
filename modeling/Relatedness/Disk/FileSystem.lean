import Relatedness.Disk.Content
import Relatedness.Disk.Location

/-!
A file system in memory. An open file is known by its number, which no later file reuses, so
it can be read and written whatever happens to its name. Each operation either does the whole
of its work or fails and changes nothing.
-/
namespace Relatedness

structure File where
  content : Content
  /-- Nanoseconds since 1970, negative before. -/
  modified : Int

structure FileSystem where
  root : Tree
  /-- Every file ever created, by number. -/
  files : Array File
  /-- The time of the next change, in nanoseconds since 1970. -/
  clock : Nat

namespace FileSystem

def empty (clock : Nat) : FileSystem := ⟨.directory [], #[], clock⟩

/-- What stands at a path. A path that ends in a slash does not lead to a file. -/
def find (fs : FileSystem) (p : Path) : Except IoError Tree := do
  let location ← fs.root.locate p
  match fs.root.find? location.place with
  | some t => if t.isFile && location.slash then throw .notADirectory else return t
  | none => throw .notFound

def present (fs : FileSystem) (p : Path) : Bool :=
  match fs.find p with
  | .ok _ => true
  | .error _ => false

def isFile (fs : FileSystem) (p : Path) : Bool :=
  match fs.find p with
  | .ok t => t.isFile
  | .error _ => false

def isDirectory (fs : FileSystem) (p : Path) : Bool :=
  match fs.find p with
  | .ok t => t.isDirectory
  | .error _ => false

/-- Opens an existing file. -/
def openFile (fs : FileSystem) (p : Path) : Except IoError Nat := do
  match ← fs.find p with
  | .file id => return id
  | .directory _ => throw .isADirectory

/-- What a file holds. Its bytes are not made. -/
def held (fs : FileSystem) (id : Nat) : Content :=
  (fs.files[id]?.map File.content).getD (.ofBytes [])

def hold (fs : FileSystem) (id : Nat) (content : Content) : FileSystem :=
  { fs with files := fs.files.setIfInBounds id ⟨content, fs.clock⟩, clock := fs.clock + 1 }

def content (fs : FileSystem) (id : Nat) : Bytes :=
  (fs.files[id]?.map fun file => file.content.bytes).getD []

def setContent (fs : FileSystem) (id : Nat) (bytes : Bytes) : FileSystem :=
  fs.hold id (.ofBytes bytes)

@[simp] theorem bytes_held (fs : FileSystem) (id : Nat) : (fs.held id).bytes = fs.content id := by
  unfold held content
  cases fs.files[id]? <;> rfl

theorem held_eq (fs : FileSystem) (id : Nat) : fs.held id = .ofBytes (fs.content id) := by
  rw [← bytes_held, Content.ofBytes_bytes]

theorem hold_eq (fs : FileSystem) (id : Nat) (content : Content) :
    fs.hold id content = fs.setContent id content.bytes := by
  rw [setContent, Content.ofBytes_bytes]

/-- Opens a file, an empty one if there is none yet. No file can be made under a path that
ends in a slash. -/
def openOrCreate (fs : FileSystem) (p : Path) : Except IoError (Nat × FileSystem) := do
  let location ← fs.root.locate p
  if location.slash then throw .isADirectory
  match fs.root.find? location.place with
  | some (.file id) => return (id, fs)
  | some (.directory _) => throw .isADirectory
  | none =>
    let id := fs.files.size
    let files := fs.files.push ⟨.ofBytes [], fs.clock⟩
    return (id, ⟨fs.root.put location.place (.file id), files, fs.clock + 1⟩)

/-- Replaces the content of a file, which is created if there is none yet. -/
def writeFile (fs : FileSystem) (p : Path) (bytes : Bytes) : Except IoError FileSystem := do
  let (id, fs) ← fs.openOrCreate p
  return fs.setContent id bytes

def readFile (fs : FileSystem) (p : Path) : Except IoError Bytes := do
  return fs.content (← fs.openFile p)

/-- Creates a directory in one that exists. -/
def makeDirectory (fs : FileSystem) (p : Path) : Except IoError FileSystem := do
  let location ← fs.root.locate p
  match fs.root.find? location.place with
  | some _ => throw .alreadyExists
  | none => return { fs with root := fs.root.put location.place (.directory []) }

def removeFile (fs : FileSystem) (p : Path) : Except IoError FileSystem := do
  let _ ← fs.openFile p
  return { fs with root := fs.root.erase (← fs.root.locate p).place }

/-- Removes a directory with all that is in it. -/
def removeTree (fs : FileSystem) (p : Path) : Except IoError FileSystem := do
  if (← fs.find p).isFile then throw .notADirectory
  let location ← fs.root.locate p
  unless location.named do throw .invalidArgument
  return { fs with root := fs.root.erase location.place }

/-- Moves a file or directory. A file may take the place of a file, a directory that of an
empty directory. -/
def move (fs : FileSystem) (source target : Path) : Except IoError FileSystem := do
  let start ← fs.root.locate source
  let goal ← fs.root.locate target
  unless start.named && goal.named do throw .busy
  let some moved := fs.root.find? start.place | throw .notFound
  if moved.isFile && (start.slash || goal.slash) then throw .notADirectory
  if start.place = goal.place then return fs
  if start.place.isPrefixOf goal.place then throw .invalidArgument
  if goal.place.isPrefixOf start.place then throw .directoryNotEmpty
  match moved, fs.root.find? goal.place with
  | .file _, some (.directory _) => throw .isADirectory
  | .directory _, some (.file _) => throw .notADirectory
  | .directory _, some (.directory (_ :: _)) => throw .directoryNotEmpty
  | _, _ => return { fs with root := (fs.root.erase start.place).put goal.place moved }

/-- The time of the last change of a file. That of a directory is not kept and counts as now. -/
def modified (fs : FileSystem) (p : Path) : Except IoError Int := do
  match ← fs.find p with
  | .file id => return (fs.files[id]?.map File.modified).getD 0
  | .directory _ => return fs.clock

/-- Sets the time of the last change of a file. -/
def setModified (fs : FileSystem) (p : Path) (time : Int) : Except IoError FileSystem := do
  let id ← fs.openFile p
  return { fs with files := fs.files.modify id fun file => { file with modified := time } }

/-- The version token of a path: its time of change as an unsigned word, zero before 1970. -/
def versionToken (fs : FileSystem) (p : Path) : Except IoError UInt64 := do
  return UInt64.ofNat (← fs.modified p).toNat

/-- All that stands below a directory, each at its place from there. -/
def listing (fs : FileSystem) (p : Path) : Except IoError (List (Place × Tree)) := do
  return (← fs.find p).places []

end FileSystem
end Relatedness
