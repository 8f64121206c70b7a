import Std.Data.HashMap
import Relatedness.Disk.Directories
import Relatedness.KeyValue.Entry
import Relatedness.Text.Quoted

/-!
A durable store of values under text keys: a log to which entries are only appended, and an
index of where the latest entry of each key begins. Opening a store scans its log; what
stands behind the last complete entry is reported and, unless the store is opened read-only,
cut off.
-/
namespace Relatedness

namespace KeyValue

structure Options where
  syncOnWrite : Bool := false
  readOnly : Bool := false

def logName : String := "entries.log"

/-- Keys have at least one byte and at most this many. -/
def maxKeyLength : Nat := 65535

end KeyValue

open KeyValue in
structure KeyValueStore (V : Type) where
  directory : Path
  file : Nat
  index : Std.HashMap String Nat
  /-- Where the next entry goes. -/
  length : Nat
  options : Options

namespace KeyValueStore

open KeyValue

variable {V : Type} [Storable V]

/-- Whether a directory holds a store. -/
def isAt (fs : FileSystem) (directory : Path) : Bool := fs.isFile (directory.child logName)

/-- What is logged of a log that does not end with a complete entry. -/
def tailWarning (directory : Path) (found : Scan) : String :=
  match found.tail with
  | .complete => ""
  | .truncatedHeader =>
    s!"{directory.text}: truncated header at offset {found.stop}, discarding tail"
  | .invalidEntry =>
    s!"{directory.text}: invalid or truncated entry at offset {found.stop}, discarding tail"
  | .invalidKey =>
    s!"{directory.text}: invalid UTF-8 key at offset {found.stop}, discarding tail"

/-- Deals with the bytes behind the last complete entry of an open log. -/
def recover (directory : Path) (file size : Nat) (found : Scan) (readOnly : Bool) :
    Action Unit := do
  if found.stop < size then
    Action.log .warn (tailWarning directory found)
    let recovered := s!"{directory.text}: recovered {found.entries.length} entries, "
    if readOnly then
      Action.log .warn
        s!"{recovered}ignoring {size - found.stop} trailing bytes (read-only)"
    else
      Action.onDisk <| DiskM.change fun fs =>
        .ok (fs.hold file ((fs.held file).resize found.stop))
      Action.log .warn s!"{recovered}dropped {size - found.stop} trailing bytes"

/-- Opens the store in a directory. Unless it is read-only, directory and log are created
where they are missing. -/
def openWith (directory : Path) (options : Options) : Action (KeyValueStore V) := do
  let path := directory.child logName
  unless options.readOnly do
    Action.onDisk do
      DiskM.makeDirectories directory
      DiskM.change fun fs => (fs.openOrCreate path).map Prod.snd
  let file ← Action.onDisk (DiskM.inspect (·.openFile path))
  let log := (← Action.disk).held file
  let found := log.scan
  recover directory file log.size found options.readOnly
  return {
    directory, file, options
    index := found.entries.foldl (fun index (key, offset) => index.insert key offset) ∅
    length := found.stop }

def openReadOnly (directory : Path) : Action (KeyValueStore V) :=
  openWith directory { readOnly := true }

/-- Appends an entry, which from then on is the latest of its key. -/
def put (s : KeyValueStore V) (key : String) (value : V) : Action (KeyValueStore V) := do
  if s.options.readOnly then throw (.readOnly s.directory)
  if key.isEmpty then throw .emptyKey
  if maxKeyLength < key.utf8ByteSize then throw (.keyTooLong key.utf8ByteSize)
  Action.onDisk <| DiskM.change fun fs =>
    let entry := entryPieces (fs.clock / 1000) key value
    .ok (fs.hold s.file ((fs.held s.file).overwrite s.length entry))
  return { s with
    index := s.index.insert key s.length
    length := s.length + (Lengths.ofEntry key (Storable.size value)).total }

/-- Reads the entry at an offset of the log. -/
def readAt (log : Content) (offset : Nat) : Except Error (String × V) := do
  let some header := log.read? offset headerSize | throw (.io .unexpectedEnd)
  let lengths := Lengths.ofHeader header
  if !lengths.isValid then throw (.corruptedEntry offset)
  let some keyBytes := log.read? (offset + headerSize) lengths.key
    | throw (.io .unexpectedEnd)
  let some key := Bytes.toText? keyBytes | throw (.corruptedEntry offset)
  let some valueBytes := log.read? (offset + headerSize + lengths.key) lengths.value
    | throw (.io .unexpectedEnd)
  let value ← (Storable.decoder.decode valueBytes).mapError .decoding
  return (key, value)

/-- The latest value of a key, if there is one. -/
def get? (s : KeyValueStore V) (fs : FileSystem) (key : String) : Except Error (Option V) :=
  match s.index[key]? with
  | some offset => (readAt (fs.held s.file) offset).map (some ·.2)
  | none => .ok none

def contains (s : KeyValueStore V) (key : String) : Bool := s.index.contains key

/-- The number of keys. -/
def size (s : KeyValueStore V) : Nat := s.index.size

/-- All keys, in no particular order. -/
def keys (s : KeyValueStore V) : List String := s.index.keys

/-- The latest entry of every key, in the order of the log. -/
def entries (s : KeyValueStore V) (fs : FileSystem) : List (Except Error (String × V)) :=
  (s.index.values.mergeSort (· ≤ ·)).map (readAt (fs.held s.file))

/-- The store in one line. -/
def describe (s : KeyValueStore V) : String :=
  "KvStore \x7b dir: " ++ Text.quoted s.directory.text
    ++ s!", keys: {s.index.size}, file_len: {s.length} \x7d"

end KeyValueStore
end Relatedness
