import Relatedness.Codec.Decoder
import Relatedness.Disk.Content

/-!
The entries of a key-value log: a timestamp of eight bytes, the lengths of key and value in
two and four bytes, the key and the value. `scan` splits a log into its entries and finds
where the complete ones end. `Content.scan` finds the same in a file, of which it makes only
the headers and the keys.
-/
namespace Relatedness.KeyValue

def headerSize : Nat := 14

/-- Values of this length and more are not read back. -/
def valueLimit : Nat := 1 <<< 30

def encodeEntry (timestamp : Nat) (key : String) (value : Bytes) : Bytes :=
  Bytes.word 8 timestamp ++ Bytes.word 2 (Bytes.ofText key).length ++ Bytes.word 4 value.length
    ++ Bytes.ofText key ++ value

/-- An entry in two pieces. The value is in the second one and need not be made. -/
def entryPieces {V : Type} [Storable V] (timestamp : Nat) (key : String) (value : V) : Pieces :=
  [.ofBytes (Bytes.word 8 timestamp ++ Bytes.word 2 (Bytes.ofText key).length
      ++ Bytes.word 4 (Storable.size value) ++ Bytes.ofText key),
    ⟨Storable.size value, .mk fun _ => Storable.encode value, Storable.length_encode value⟩]

theorem bytes_entryPieces {V : Type} [Storable V] (timestamp : Nat) (key : String) (value : V) :
    (entryPieces timestamp key value).bytes =
      encodeEntry timestamp key (Storable.encode value) := by
  rw [encodeEntry, Storable.length_encode]
  rfl

/-- The two lengths in an entry header. -/
structure Lengths where
  key : Nat
  value : Nat

namespace Lengths

def ofHeader (bytes : Bytes) : Lengths := ⟨bytes.wordAt 8 2, bytes.wordAt 10 4⟩

/-- The lengths that stand in the header of an entry. Four bytes hold that of a value, of which
a greater one loses its upper part. -/
def ofEntry (key : String) (size : Nat) : Lengths := ⟨key.utf8ByteSize, size % (1 <<< 32)⟩

def isValid (l : Lengths) : Bool := 0 < l.key && l.value < valueLimit

/-- The length of the whole entry. -/
def total (l : Lengths) : Nat := headerSize + l.key + l.value

end Lengths

/-- How a log ends. -/
inductive Tail where
  /-- Behind a complete entry. -/
  | complete
  | truncatedHeader
  | invalidEntry
  | invalidKey
deriving DecidableEq

/-- What a scan finds: the key and offset of every complete entry, where they end, and how. -/
structure Scan where
  entries : List (String × Nat)
  stop : Nat
  tail : Tail

/-- Scans a log from an offset, given the bytes from there on. -/
def scanFrom (offset : Nat) (bytes : Bytes) : Scan :=
  match bytes.split? headerSize with
  | none => ⟨[], offset, if bytes.isEmpty then .complete else .truncatedHeader⟩
  | some (header, _) =>
    let lengths := Lengths.ofHeader header
    if lengths.isValid then
      match _h : bytes.split? lengths.total with
      | none => ⟨[], offset, .invalidEntry⟩
      | some (entry, rest) =>
        match Bytes.toText? ((entry.drop headerSize).take lengths.key) with
        | none => ⟨[], offset, .invalidKey⟩
        | some key =>
          let found := scanFrom (offset + lengths.total) rest
          { found with entries := (key, offset) :: found.entries }
    else ⟨[], offset, .invalidEntry⟩
termination_by bytes.length
decreasing_by
  obtain ⟨hlen, rfl⟩ := Bytes.length_of_split? _h
  simp only [Lengths.total, headerSize] at hlen
  simp only [List.length_append]
  omega

def scan (log : Bytes) : Scan := scanFrom 0 log

section Steps

variable {offset : Nat} {bytes header behind : Bytes} {lengths : Lengths}

theorem scanFrom_of_invalid (hheader : bytes.split? headerSize = some (header, behind))
    (hlengths : Lengths.ofHeader header = lengths) (hvalid : ¬lengths.isValid = true) :
    scanFrom offset bytes = ⟨[], offset, .invalidEntry⟩ := by
  rw [scanFrom, hheader]
  simp only [hlengths, hvalid]
  rfl

theorem scanFrom_of_short (hheader : bytes.split? headerSize = some (header, behind))
    (hlengths : Lengths.ofHeader header = lengths) (hvalid : lengths.isValid = true)
    (hshort : bytes.split? lengths.total = none) :
    scanFrom offset bytes = ⟨[], offset, .invalidEntry⟩ := by
  subst hlengths
  rw [scanFrom, hheader]
  simp only [hvalid, if_true]
  split
  · rfl
  · rename_i hentry
    cases hshort.symm.trans hentry

/-- What a scan does with an entry that is there in its whole length. -/
theorem scanFrom_of_split {entry rest : Bytes}
    (hheader : bytes.split? headerSize = some (header, behind))
    (hlengths : Lengths.ofHeader header = lengths) (hvalid : lengths.isValid = true)
    (hentry : bytes.split? lengths.total = some (entry, rest)) :
    scanFrom offset bytes =
      match Bytes.toText? ((entry.drop headerSize).take lengths.key) with
      | none => ⟨[], offset, .invalidKey⟩
      | some key =>
        let found := scanFrom (offset + lengths.total) rest
        { found with entries := (key, offset) :: found.entries } := by
  subst hlengths
  rw [scanFrom, hheader]
  simp only [hvalid, if_true]
  split
  · rename_i hnone
    cases hnone.symm.trans hentry
  · rename_i hsome
    cases hsome.symm.trans hentry
    rfl

end Steps

/-! ## Scanning a file -/

/-- Scans a log from an offset, given the pieces from there on. -/
def scanPieces (offset : Nat) (ps : Pieces) : Scan :=
  let header := (ps.front headerSize).bytes
  if header.length < headerSize then
    ⟨[], offset, if header.isEmpty then .complete else .truncatedHeader⟩
  else
    let lengths := Lengths.ofHeader header
    if lengths.isValid then
      if _h : ps.reach lengths.total then
        match Bytes.toText? ((ps.behind headerSize).front lengths.key).bytes with
        | none => ⟨[], offset, .invalidKey⟩
        | some key =>
          let found := scanPieces (offset + lengths.total) (ps.behind lengths.total)
          { found with entries := (key, offset) :: found.entries }
      else ⟨[], offset, .invalidEntry⟩
    else ⟨[], offset, .invalidEntry⟩
termination_by ps.bytes.length
decreasing_by
  have := Pieces.reach_iff.mp _h
  simp only [Lengths.total, headerSize] at this
  simp only [Pieces.bytes_behind, List.length_drop, Lengths.total, headerSize]
  omega

theorem scanPieces_eq (offset : Nat) (ps : Pieces) :
    scanPieces offset ps = scanFrom offset ps.bytes := by
  induction hn : ps.bytes.length using Nat.strongRecOn generalizing offset ps with
  | ind n ih =>
  rw [scanPieces, Pieces.bytes_front]
  by_cases hshort : (ps.bytes.take headerSize).length < headerSize
  · have hnone : ps.bytes.split? headerSize = none := if_neg (Nat.ne_of_lt hshort)
    have hempty : (ps.bytes.take headerSize).isEmpty = ps.bytes.isEmpty := by
      cases ps.bytes <;> rfl
    rw [scanFrom, hnone]
    simp only [hshort, hempty, if_true]
  have hheader : (ps.bytes.take headerSize).length = headerSize := by
    rw [List.length_take] at hshort ⊢
    omega
  have hsome : ps.bytes.split? headerSize =
      some (ps.bytes.take headerSize, ps.bytes.drop headerSize) := if_pos hheader
  simp only [hshort, if_false]
  generalize hlengths : Lengths.ofHeader (ps.bytes.take headerSize) = lengths
  split
  · rename_i hvalid
    split
    · rename_i hreach
      have htotal := Pieces.reach_iff.mp hreach
      have hkey : ((ps.bytes.take lengths.total).drop headerSize).take lengths.key =
          ((ps.behind headerSize).front lengths.key).bytes := by
        rw [Pieces.bytes_front, Pieces.bytes_behind, List.drop_take, List.take_take,
          Nat.min_eq_left (by simp only [Lengths.total]; omega)]
      have hrest := Pieces.bytes_behind lengths.total ps
      have hshorter : (ps.behind lengths.total).bytes.length < n := by
        rw [hrest, List.length_drop]
        simp only [Lengths.total, headerSize] at htotal ⊢
        omega
      rw [scanFrom_of_split hsome hlengths hvalid (if_pos (List.length_take_of_le htotal)), hkey,
        ih _ hshorter _ _ rfl, hrest]
    · rename_i hreach
      refine (scanFrom_of_short hsome hlengths hvalid (if_neg fun h => hreach ?_)).symm
      rw [Pieces.reach_iff, ← h, List.length_take]
      exact Nat.min_le_right _ _
  · rename_i hvalid
    exact (scanFrom_of_invalid hsome hlengths hvalid).symm

end Relatedness.KeyValue

namespace Relatedness

open KeyValue

/-- Scans a log in a file. -/
def Content.scan (log : Content) : Scan :=
  Quot.lift (scanPieces 0) (fun ps qs h => by rw [scanPieces_eq, scanPieces_eq, h]) log

theorem Content.scan_eq (log : Content) : log.scan = KeyValue.scan log.bytes := by
  induction log using Quot.ind with
  | mk ps => exact scanPieces_eq 0 ps

end Relatedness
