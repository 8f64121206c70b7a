import Mathlib.Algebra.Ring.Parity
import Mathlib.Data.Nat.ModEq
import Mathlib.Data.Nat.Prime.Basic
import Relatedness.Phrase.Hash

/-! Hashes of phrases lose nothing of the hash that they go on from. Every step of a hash can be
undone, so two hashes that are extended by the same words stay apart if they were apart. What merges
phrases is never the words that they have in common at the end. -/

namespace Relatedness

namespace WordHash

/-- An odd factor has no divisor in common with the number of words, so it can be cancelled. -/
theorem mul_right_injective {k : UInt64} (hodd : Odd k.toNat) :
    Function.Injective fun h : UInt64 => h * k := by
  intro g h heq
  have hproducts : g.toNat * k.toNat ≡ h.toNat * k.toNat [MOD 2 ^ 64] := by
    have := congrArg UInt64.toNat heq
    rwa [UInt64.toNat_mul, UInt64.toNat_mul] at this
  have hcoprime : Nat.gcd (2 ^ 64) k.toNat = 1 := Nat.Coprime.pow_left 64 hodd.coprime_two_left
  have hwords : g.toNat ≡ h.toNat [MOD 2 ^ 64] := hproducts.cancel_right_of_coprime hcoprime
  rw [Nat.ModEq, Nat.mod_eq_of_lt g.toNat_lt, Nat.mod_eq_of_lt h.toNat_lt] at hwords
  exact UInt64.toNat_inj.mp hwords

theorem odd_multiplier : Odd multiplier.toNat := by decide

@[simp] theorem add_inj {g h x : UInt64} : add g x = add h x ↔ g = h := by
  unfold add
  rw [(mul_right_injective odd_multiplier).eq_iff]
  exact ⟨fun heq => by simpa using congrArg (· - x) heq, fun heq => by rw [heq]⟩

@[simp] theorem add_right_inj {h x y : UInt64} : add h x = add h y ↔ x = y := by
  unfold add
  rw [(mul_right_injective odd_multiplier).eq_iff]
  exact ⟨fun heq => by simpa using congrArg (h - ·) heq, fun heq => by rw [heq]⟩

/-- The upper 26 bits change places with the lower 38. -/
theorem toNat_finish (h : UInt64) :
    (finish h).toNat = h.toNat % 2 ^ 38 * 2 ^ 26 + h.toNat / 2 ^ 38 := by
  have hlow : (h <<< 26).toNat = 2 ^ 26 * (h.toNat % 2 ^ 38) := by
    rw [UInt64.toNat_shiftLeft, Nat.shiftLeft_eq]
    change h.toNat * 2 ^ 26 % 2 ^ 64 = _
    omega
  have hhigh : (h >>> 38).toNat = h.toNat / 2 ^ 38 := by
    rw [UInt64.toNat_shiftRight, Nat.shiftRight_eq_div_pow]
    rfl
  have hsmall : h.toNat / 2 ^ 38 < 2 ^ 26 := by
    have := h.toNat_lt
    omega
  rw [finish, UInt64.toNat_or, hlow, hhigh, ← Nat.two_pow_add_eq_or_of_lt hsmall, Nat.mul_comm]

theorem finish_injective : Function.Injective finish := by
  intro g h heq
  have hwords := congrArg UInt64.toNat heq
  rw [toNat_finish, toNat_finish] at hwords
  have hg := g.toNat_lt
  have hh := h.toNat_lt
  refine UInt64.toNat_inj.mp ?_
  omega

end WordHash

namespace Phrase

open WordHash

/-- A component can be taken off again. -/
@[simp] theorem fold_inj {p q : UInt64} {component : String} :
    fold p component = fold q component ↔ p = q := by
  unfold fold
  rw [finish_injective.eq_iff, add_inj, add_inj, add_right_inj]

theorem foldl_fold_inj {p q : UInt64} (words : List String) :
    words.foldl fold p = words.foldl fold q ↔ p = q := by
  induction words generalizing p q with
  | nil => rfl
  | cons word rest ih => rw [List.foldl_cons, List.foldl_cons, ih, fold_inj]

theorem hash_append (language : Language) (words more : List String) :
    hash language (words ++ more) = more.foldl fold (hash language words) :=
  List.foldl_append

/-- Words that are appended to two hashes never make them one. So two languages are as far apart in
every phrase as in the empty one, and phrases that end in the same words have one hash just if what
stands before these words has. -/
theorem extension_injective (p q : UInt64) (words : List String) (language language' : Language)
    (before before' : List String) :
    (words.foldl fold p = words.foldl fold q ↔ p = q) ∧
    (hash language words = hash language' words ↔ startHash language = startHash language') ∧
    (hash language (before ++ words) = hash language' (before' ++ words) ↔
      hash language before = hash language' before') ∧
    hash language (before ++ words) = words.foldl fold (hash language before) := by
  refine ⟨foldl_fold_inj words, foldl_fold_inj words, ?_, hash_append language before words⟩
  rw [hash_append, hash_append, foldl_fold_inj]

end Phrase
end Relatedness
