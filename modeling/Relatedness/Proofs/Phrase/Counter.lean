import Std.Data.HashMap.Lemmas
import Relatedness.Phrase.Counter

/-! What increments do to the counts. Tracking never changes while text is counted, and the
count of a tracked hash grows by the number of its increments, whatever came in between. -/

namespace Relatedness.PhraseCounter

variable (c : PhraseCounter) (h k : UInt64)

@[simp] theorem isTracked_empty : empty.isTracked k = false :=
  Std.HashMap.contains_empty

@[simp] theorem count_empty : empty.count k = 0 := by
  simp [count, empty]

@[simp] theorem isTracked_track : (c.track h).isTracked k = (h == k || c.isTracked k) :=
  Std.HashMap.contains_insertIfNew

@[simp] theorem count_track : (c.track h).count k = c.count k := by
  rw [count, count, track, Std.HashMap.getElem?_insertIfNew]
  split
  · rename_i hnew
    obtain ⟨heq, habsent⟩ := hnew
    have heq : h = k := by simpa using heq
    subst heq
    rw [Std.HashMap.getElem?_eq_none habsent]
    rfl
  · rfl

theorem count_of_not_tracked (hk : c.isTracked k = false) : c.count k = 0 := by
  have hnone : c.counts[k]? = none := Std.HashMap.getElem?_eq_none_of_contains_eq_false hk
  rw [count, hnone]
  rfl

@[simp] theorem isTracked_increment : (c.increment h).isTracked k = c.isTracked k :=
  Std.HashMap.contains_modify

theorem count_increment :
    (c.increment h).count k = c.count k + if c.isTracked k then [h].count k else 0 := by
  by_cases hk : c.isTracked k = true
  · have hsome : ∃ n, c.counts[k]? = some n := by
      rw [isTracked, Std.HashMap.contains_eq_isSome_getElem?] at hk
      exact Option.isSome_iff_exists.mp hk
    obtain ⟨n, hn⟩ := hsome
    rw [if_pos hk, count, count, increment, Std.HashMap.getElem?_modify, List.count_singleton]
    by_cases heq : h = k
    · subst heq
      simp [hn]
    · simp [heq]
  · rw [if_neg hk, count_of_not_tracked c k (by simpa using hk)]
    exact count_of_not_tracked _ k (by simpa using hk)

@[simp] theorem isTracked_incrementAll (hashes : List UInt64) :
    (c.incrementAll hashes).isTracked k = c.isTracked k := by
  induction hashes generalizing c with
  | nil => rfl
  | cons h rest ih =>
    change ((c.increment h).incrementAll rest).isTracked k = c.isTracked k
    rw [ih, isTracked_increment]

end Relatedness.PhraseCounter
