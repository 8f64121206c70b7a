import Relatedness.Number.Binary64
import Relatedness.Codec.Bytes

/-!
Reading the fixed-width encoding that saved values share: words are little-endian, a length
is a word of eight bytes before what it counts, and bytes after the value are ignored.
-/
namespace Relatedness

inductive DecodeError where
  | unexpectedEnd
  | invalidBool (byte : Nat)
  | invalidText
deriving DecidableEq

/-- Takes a value from the front of a byte string. -/
abbrev Decoder := StateT Bytes (Except DecodeError)

namespace Decoder

def bytes (n : Nat) : Decoder Bytes := fun input =>
  match input.split? n with
  | some (taken, rest) => .ok (taken, rest)
  | none => .error .unexpectedEnd

def word (n : Nat) : Decoder Nat := do return (← bytes n).toNat

def binary64 : Decoder Binary64 := do return ⟨UInt64.ofNat (← word 8)⟩

def bool : Decoder Bool := do
  match ← word 1 with
  | 0 => return false
  | 1 => return true
  | byte => throw (.invalidBool byte)

def text : Decoder String := do
  match (← bytes (← word 8)).toText? with
  | some text => return text
  | none => throw .invalidText

def times {α : Type} (item : Decoder α) : Nat → Decoder (List α)
  | 0 => return []
  | n + 1 => do
    let first ← item
    let rest ← times item n
    return first :: rest

/-- A length and as many items. -/
def list {α : Type} (item : Decoder α) : Decoder (List α) := do times item (← word 8)

/-- The value at the front of a byte string. -/
def decode {α : Type} (decoder : Decoder α) (input : Bytes) : Except DecodeError α :=
  (decoder.run input).map Prod.fst

end Decoder

/-- Values that can be written as bytes and read back. -/
class Storable (α : Type) where
  encode : α → Bytes
  /-- The number of bytes, which are not made for it. -/
  size : α → Nat
  length_encode : ∀ a, (encode a).length = size a
  decoder : Decoder α

instance : Storable Binary64 where
  encode x := Bytes.word 8 x.bits.toNat
  size _ := 8
  length_encode x := Bytes.length_word 8 x.bits.toNat
  decoder := Decoder.binary64

instance : Storable String where
  encode text := Bytes.word 8 (Bytes.ofText text).length ++ Bytes.ofText text
  size text := 8 + text.utf8ByteSize
  length_encode text := by rw [List.length_append, Bytes.length_word, Bytes.length_ofText]
  decoder := Decoder.text

end Relatedness
