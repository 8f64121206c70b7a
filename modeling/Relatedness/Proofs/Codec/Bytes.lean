import Mathlib.Algebra.Ring.Nat
import Mathlib.Algebra.Order.Group.Nat
import Relatedness.Codec.Bytes

/-! Reading words where they were written: a word read at the length of what stands before it is
the number written there, as far as the word is wide enough. -/

namespace Relatedness.Bytes

theorem toNat_word (n value : Nat) : toNat (word n value) = value % 256 ^ n := by
  induction n generalizing value with
  | zero => simp [word, toNat, Nat.mod_one]
  | succ n ih =>
    rw [word, toNat, ih, UInt8.toNat_ofNat', show 256 ^ (n + 1) = 256 * 256 ^ n from Nat.pow_succ',
      Nat.mod_mul]

theorem wordAt_word_append (n value : Nat) (rest : Bytes) :
    (word n value ++ rest).wordAt 0 n = value % 256 ^ n := by
  rw [wordAt, List.drop_zero, List.take_left' (length_word n value), toNat_word]

theorem wordAt_append {before : Bytes} {offset : Nat} (h : before.length ≤ offset) (rest : Bytes)
    (n : Nat) : (before ++ rest).wordAt offset n = rest.wordAt (offset - before.length) n := by
  rw [wordAt, wordAt, List.drop_append, List.drop_eq_nil_of_le h, List.nil_append]

theorem wordAt_word_append_of_lt {n value : Nat} (h : value < 256 ^ n) (rest : Bytes) :
    (word n value ++ rest).wordAt 0 n = value := by
  rw [wordAt_word_append, Nat.mod_eq_of_lt h]

/-- A word that is not cut off is what it was. -/
theorem wordAt_take (bytes : Bytes) {offset n size : Nat} (h : offset + n ≤ size) :
    wordAt (bytes.take size) offset n = bytes.wordAt offset n := by
  rw [wordAt, wordAt, List.drop_take, List.take_take, Nat.min_eq_left (by omega)]

theorem toNat_lt (bytes : Bytes) : toNat bytes < 256 ^ bytes.length := by
  induction bytes with
  | nil => exact Nat.one_pos
  | cons b rest ih =>
    have := b.toNat_lt
    rw [List.length_cons, Nat.pow_succ, toNat]
    omega

theorem wordAt_lt (bytes : Bytes) (offset n : Nat) : bytes.wordAt offset n < 256 ^ n := by
  have hlt := toNat_lt ((bytes.drop offset).take n)
  have hle : ((bytes.drop offset).take n).length ≤ n := by
    rw [List.length_take]
    omega
  exact Nat.lt_of_lt_of_le hlt (Nat.pow_le_pow_right (by decide) hle)

/-- A byte string is the word of the number that it holds. -/
theorem word_toNat (bytes : Bytes) : word bytes.length (toNat bytes) = bytes := by
  induction bytes with
  | nil => rfl
  | cons b rest ih =>
    have hlow : UInt8.ofNat (b.toNat + 256 * toNat rest) = b := by
      apply UInt8.toNat_inj.mp
      have := b.toNat_lt
      rw [UInt8.toNat_ofNat']
      omega
    have hhigh : (b.toNat + 256 * toNat rest) / 256 = toNat rest := by
      have := b.toNat_lt
      omega
    rw [List.length_cons, word, toNat, hlow, hhigh, ih]

theorem word_wordAt {bytes : Bytes} {offset n : Nat} (h : offset + n ≤ bytes.length) :
    word n (bytes.wordAt offset n) = (bytes.drop offset).take n := by
  have hlength : ((bytes.drop offset).take n).length = n := by
    rw [List.length_take, List.length_drop]
    omega
  have hword := word_toNat ((bytes.drop offset).take n)
  rwa [hlength] at hword

theorem split?_eq_none {n : Nat} {bytes : Bytes} (h : bytes.length < n) :
    split? n bytes = none := by
  refine if_neg ?_
  rw [List.length_take]
  omega

theorem split?_drop {offset n : Nat} {bytes : Bytes} (h : offset + n ≤ bytes.length) :
    split? n (bytes.drop offset) =
      some ((bytes.drop offset).take n, bytes.drop (offset + n)) := by
  rw [← List.drop_drop]
  refine if_pos (List.length_take_of_le ?_)
  rw [List.length_drop]
  omega

/-! ## Text -/

theorem toText?_ofText (text : String) : toText? (ofText text) = some text := by
  unfold toText? ofText String.fromUTF8?
  have h : (⟨text.toUTF8.data.toList.toArray⟩ : ByteArray) = text.toByteArray := by simp
  rw [dif_pos (by rw [h]; exact text.isValidUTF8)]
  congr 1

theorem ofText_of_toText? {bytes : Bytes} {text : String} (h : toText? bytes = some text) :
    ofText text = bytes := by
  unfold toText? String.fromUTF8? at h
  split at h
  · cases h
    rfl
  · cases h

end Relatedness.Bytes
