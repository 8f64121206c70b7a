/-!
Byte strings and little-endian words. A word of `n` bytes holds a number modulo `256 ^ n`.
-/
namespace Relatedness

abbrev Bytes := List UInt8

namespace Bytes

/-- The lowest `n` base-256 digits of a number, lowest first. -/
def word : Nat → Nat → Bytes
  | 0, _ => []
  | n + 1, value => UInt8.ofNat value :: word n (value / 256)

/-- The number whose base-256 digits these are, lowest first. -/
def toNat : Bytes → Nat
  | [] => 0
  | b :: rest => b.toNat + 256 * toNat rest

/-- The word of `n` bytes that begins at an offset. -/
def wordAt (bytes : Bytes) (offset n : Nat) : Nat := toNat ((bytes.drop offset).take n)

@[simp] theorem length_word (n value : Nat) : (word n value).length = n := by
  induction n generalizing value with
  | zero => rfl
  | succ n ih => simp [word, ih]

/-- The first `n` bytes and what follows them, unless there are fewer. -/
def split? (n : Nat) (bytes : Bytes) : Option (Bytes × Bytes) :=
  let taken := bytes.take n
  if taken.length = n then some (taken, bytes.drop n) else none

theorem length_of_split? {n : Nat} {bytes a rest : Bytes} (h : split? n bytes = some (a, rest)) :
    a.length = n ∧ bytes = a ++ rest := by
  simp only [split?] at h
  split at h
  · rename_i hn
    cases h
    exact ⟨hn, (List.take_append_drop n bytes).symm⟩
  · cases h

theorem split?_append {a : Bytes} {n : Nat} (h : a.length = n) (rest : Bytes) :
    split? n (a ++ rest) = some (a, rest) := by
  subst h; simp [split?]

def ofText (text : String) : Bytes := text.toUTF8.data.toList

theorem length_ofText (text : String) : (ofText text).length = text.utf8ByteSize := by
  simp [ofText]

/-- The text with this UTF-8 encoding. -/
def toText? (bytes : Bytes) : Option String := String.fromUTF8? ⟨bytes.toArray⟩

/-- Writes bytes over those from `offset` on, after zeros where the string ends before it. -/
def overwrite (bytes : Bytes) (offset : Nat) (new : Bytes) : Bytes :=
  bytes.take offset ++ List.replicate (offset - bytes.length) 0 ++ new
    ++ bytes.drop (offset + new.length)

/-- Cuts a string off, or fills it up with zeros, at the given length. -/
def resize (bytes : Bytes) (length : Nat) : Bytes :=
  bytes.take length ++ List.replicate (length - bytes.length) 0

end Bytes
end Relatedness
