import Mathlib.Algebra.Ring.Nat
import Mathlib.Data.List.Induction
import Mathlib.Data.List.Infix
import Mathlib.Data.Set.Function
import Relatedness.Phrase.Occurrences
import Relatedness.Proofs.Phrase.Counter
import Relatedness.Proofs.Phrase.Hash

/-! What a scan finds in a sentence. All beginnings of an anchor phrase are subgrams, so the
scan that follows subgrams only gives up where no anchor phrase could go on, and it passes an
anchor phrase at exactly those starts where the phrase stands in the sentence. -/

namespace Relatedness

namespace Phrase

variable (language : Language)

theorem hash_append_singleton (words : List String) (word : String) :
    hash language (words ++ [word]) = fold (hash language words) word :=
  hash_append language words [word]

theorem mem_prefixHashesFrom {words : List String} {h k : UInt64} :
    k ∈ prefixHashesFrom h words ↔ ∃ u, u ≠ [] ∧ u <+: words ∧ u.foldl fold h = k := by
  induction words generalizing h with
  | nil =>
    simp only [prefixHashesFrom, List.not_mem_nil, List.prefix_nil, false_iff]
    intro hboth
    obtain ⟨u, hne, hu, _⟩ := hboth
    exact hne hu
  | cons word rest ih =>
    rw [prefixHashesFrom, List.mem_cons, ih]
    constructor
    · intro hcase
      rcases hcase with rfl | ⟨u, _, hu, rfl⟩
      · exact ⟨[word], by simp, by simp, rfl⟩
      · exact ⟨word :: u, by simp, List.cons_prefix_cons.mpr ⟨rfl, hu⟩, rfl⟩
    · intro hboth
      obtain ⟨u, hne, hu, rfl⟩ := hboth
      cases u with
      | nil => exact absurd rfl hne
      | cons first more =>
        obtain ⟨rfl, hmore⟩ := List.cons_prefix_cons.mp hu
        rcases List.eq_nil_or_concat more with rfl | ⟨_, _, hmore'⟩
        · exact .inl rfl
        · exact .inr ⟨more, by simp [hmore'], hmore, rfl⟩

theorem mem_prefixHashes {words : List String} {k : UInt64} :
    k ∈ prefixHashes language words ↔ ∃ u, u ≠ [] ∧ u <+: words ∧ hash language u = k :=
  mem_prefixHashesFrom

end Phrase

/-- The words of phrases, of those that have any. -/
def TextAnalysis.wordLists (t : TextAnalysis) (language : Language) (phrases : List String) :
    List (List String) :=
  (phrases.map (t.words language)).filter fun words => !words.isEmpty

theorem TextAnalysis.mem_wordLists {t : TextAnalysis} {language : Language}
    {phrases : List String} {w : List String} :
    w ∈ t.wordLists language phrases ↔ w ≠ [] ∧ ∃ phrase ∈ phrases, t.words language phrase = w := by
  rw [wordLists, List.mem_filter, List.mem_map, and_comm]
  simp

theorem TextAnalysis.wordLists_append_singleton (t : TextAnalysis) (language : Language)
    (phrases : List String) (phrase : String) :
    t.wordLists language (phrases ++ [phrase]) = t.wordLists language phrases ++
      if t.words language phrase = [] then [] else [t.words language phrase] := by
  rw [wordLists, wordLists, List.map_append, List.filter_append]
  by_cases h : t.words language phrase = [] <;> simp [h]

namespace AnchorPhrases

variable (a : AnchorPhrases) (t : TextAnalysis) (language : Language)

theorem isTracked_add (words : List String) (k : UInt64) :
    (a.add language words).counter.isTracked k = true ↔
      (words ≠ [] ∧ Phrase.hash language words = k) ∨ a.counter.isTracked k = true := by
  by_cases hwords : words = []
  · simp [add, hwords]
  · simp [add, hwords]

theorem count_add (words : List String) (k : UInt64) :
    (a.add language words).counter.count k = a.counter.count k := by
  by_cases hwords : words = []
  · simp [add, hwords]
  · simp [add, hwords]

theorem contains_foldl_insert (ids : Std.TreeSet UInt64) (hashes : List UInt64) (k : UInt64) :
    (hashes.foldl (fun ids h => ids.insert h) ids).contains k = true ↔
      k ∈ hashes ∨ ids.contains k = true := by
  induction hashes generalizing ids with
  | nil => simp
  | cons h rest ih =>
    rw [List.foldl_cons, ih, Std.TreeSet.contains_insert, List.mem_cons]
    by_cases heq : h = k
    · subst heq
      simp
    · simp [heq, Ne.symm heq]

theorem contains_add (words : List String) (k : UInt64) :
    (a.add language words).subgrams.contains k = true ↔
      (∃ u, u ≠ [] ∧ u <+: words ∧ Phrase.hash language u = k) ∨
        a.subgrams.contains k = true := by
  by_cases hwords : words = []
  · subst hwords
    simp [add]
  · rw [add, if_neg (by simpa using hwords), contains_foldl_insert, Phrase.mem_prefixHashes]

theorem ofPhrases_append_singleton (phrases : List String) (phrase : String) :
    ofPhrases t language (phrases ++ [phrase]) =
      (ofPhrases t language phrases).add language (t.words language phrase) := by
  rw [ofPhrases, List.foldl_append]
  rfl

/-- Exactly the anchor phrases are tracked. -/
theorem isTracked_ofPhrases (phrases : List String) (k : UInt64) :
    (ofPhrases t language phrases).counter.isTracked k = true ↔
      ∃ w ∈ t.wordLists language phrases, Phrase.hash language w = k := by
  induction phrases using List.reverseRecOn with
  | nil => simp [ofPhrases, empty, TextAnalysis.wordLists]
  | append_singleton phrases phrase ih =>
    rw [ofPhrases_append_singleton, isTracked_add, ih, t.wordLists_append_singleton]
    by_cases h : t.words language phrase = []
    · simp [h]
    · simp [h, or_and_right, exists_or, or_comm]

/-- Exactly the beginnings of anchor phrases are subgrams. -/
theorem contains_ofPhrases (phrases : List String) (k : UInt64) :
    (ofPhrases t language phrases).subgrams.contains k = true ↔
      ∃ w ∈ t.wordLists language phrases, ∃ u, u ≠ [] ∧ u <+: w ∧ Phrase.hash language u = k := by
  induction phrases using List.reverseRecOn with
  | nil => simp [ofPhrases, empty, TextAnalysis.wordLists]
  | append_singleton phrases phrase ih =>
    rw [ofPhrases_append_singleton, contains_add, ih, t.wordLists_append_singleton]
    by_cases h : t.words language phrase = []
    · simp [h]
    · simp [h, or_and_right, exists_or, or_comm]

/-- Counting starts from zero. -/
theorem count_ofPhrases (phrases : List String) (k : UInt64) :
    (ofPhrases t language phrases).counter.count k = 0 := by
  induction phrases using List.reverseRecOn with
  | nil => exact PhraseCounter.count_empty k
  | append_singleton phrases phrase ih => rw [ofPhrases_append_singleton, count_add, ih]

end AnchorPhrases

namespace Occurrences

/-- At how many starts of a sentence the words stand one after the other. -/
def inSentence (words sentence : List String) : Nat :=
  (List.range sentence.length).countP fun start => words <+: sentence.drop start

/-- At how many starts of any of the sentences the words stand. -/
def inSentences (words : List String) (sentences : List (List String)) : Nat :=
  (sentences.map (inSentence words)).sum

/-- The phrases whose hashes meet in a scan: beginnings of anchor phrases, and what stands in a
sentence. -/
def compared (anchors sentences : List (List String)) : Set (List String) :=
  {u | u ≠ [] ∧ ((∃ w ∈ anchors, u <+: w) ∨ ∃ sentence ∈ sentences, u <:+: sentence)}

/-- The phrases that meet in a scan, one by one. -/
def windows (anchors sentences : List (List String)) : List (List String) :=
  anchors.flatMap List.inits ++ sentences.flatMap fun sentence => sentence.tails.flatMap List.inits

theorem mem_windows_of_compared {anchors sentences : List (List String)} {u : List String}
    (h : u ∈ compared anchors sentences) : u ∈ windows anchors sentences := by
  rw [windows, List.mem_append, List.mem_flatMap, List.mem_flatMap]
  rcases h.2 with ⟨w, hw, hbegins⟩ | ⟨sentence, hmem, hinfix⟩
  · exact .inl ⟨w, hw, (List.mem_inits _ _).mpr hbegins⟩
  · obtain ⟨tail, hbegins, hsuffix⟩ := List.infix_iff_prefix_suffix.mp hinfix
    refine .inr ⟨sentence, hmem, List.mem_flatMap.mpr ⟨tail, ?_, (List.mem_inits _ _).mpr hbegins⟩⟩
    exact (List.mem_tails _ _).mpr hsuffix

/-- That no two phrases of a scan have one hash can be computed. -/
theorem injOn_of_windows {language : Language} {anchors sentences : List (List String)}
    (h : ∀ u ∈ windows anchors sentences, ∀ v ∈ windows anchors sentences,
      Phrase.hash language u = Phrase.hash language v → u = v) :
    Set.InjOn (Phrase.hash language) (compared anchors sentences) :=
  fun _ hu _ hv => h _ (mem_windows_of_compared hu) _ (mem_windows_of_compared hv)

theorem inSentence_cons (words : List String) (word : String) (rest : List String) :
    inSentence words (word :: rest) =
      (if words <+: word :: rest then 1 else 0) + inSentence words rest := by
  rw [inSentence, inSentence, List.length_cons, List.range_succ_eq_map, List.countP_cons,
    List.countP_map, Nat.add_comm]
  simp [Function.comp_def]

variable {subgrams : Std.TreeSet UInt64} {language : Language} {w : List String}

/-- The scan goes on while the words read so far begin the phrase, so it passes the phrase if
the phrase is still ahead, and it passes it once. -/
theorem count_follow
    (hsub : ∀ u, u ≠ [] → u <+: w → subgrams.contains (Phrase.hash language u) = true)
    (before after : List String)
    (hinj : ∀ u, u ≠ [] → u <+: before ++ after →
      Phrase.hash language u = Phrase.hash language w → u = w) :
    (follow subgrams (Phrase.hash language before) after).count (Phrase.hash language w) =
      if before.length < w.length ∧ w <+: before ++ after then 1 else 0 := by
  induction after generalizing before with
  | nil =>
    have hnot : ¬(before.length < w.length ∧ w <+: before ++ []) := by
      intro hboth
      obtain ⟨hlt, hw⟩ := hboth
      have := hw.length_le
      rw [List.append_nil] at this
      omega
    rw [if_neg hnot]
    rfl
  | cons word rest ih =>
    have hsplit : before ++ word :: rest = (before ++ [word]) ++ rest := by simp
    have hread : before ++ [word] <+: before ++ word :: rest := by
      rw [hsplit]
      exact List.prefix_append _ _
    rw [follow, ← Phrase.hash_append_singleton]
    split
    · rw [List.count_cons, ih _ (by rwa [← hsplit]), ← hsplit]
      by_cases heq : before ++ [word] = w
      · subst heq
        simp [hread]
      · have hhash : Phrase.hash language (before ++ [word]) ≠ Phrase.hash language w :=
          fun h => heq (hinj _ (by simp) hread h)
        have hlonger : (before.length < w.length ∧ w <+: before ++ word :: rest) ↔
            ((before ++ [word]).length < w.length ∧ w <+: before ++ word :: rest) := by
          constructor
          · intro hboth
            obtain ⟨hlt, hw⟩ := hboth
            refine ⟨?_, hw⟩
            have hne : (before ++ [word]).length ≠ w.length := fun hlen =>
              heq ((List.prefix_of_prefix_length_le hread hw hlen.le).eq_of_length hlen)
            simp only [List.length_append, List.length_singleton] at hne ⊢
            omega
          · intro hboth
            obtain ⟨hlt, hw⟩ := hboth
            simp only [List.length_append, List.length_singleton] at hlt
            exact ⟨by omega, hw⟩
        simp only [beq_iff_eq, hhash, if_false, Nat.add_zero, hlonger]
    · rename_i hstop
      rw [if_neg, List.count_nil]
      intro hboth
      obtain ⟨hlt, hw⟩ := hboth
      refine hstop (hsub _ (by simp) (List.prefix_of_prefix_length_le hread hw ?_))
      simp only [List.length_append, List.length_singleton]
      omega

/-- The scan of a sentence passes a phrase as often as the phrase stands there. -/
theorem count_ofSentence (hw : w ≠ [])
    (hsub : ∀ u, u ≠ [] → u <+: w → subgrams.contains (Phrase.hash language u) = true)
    {sentence : List String}
    (hinj : ∀ u, u ≠ [] → u <:+: sentence →
      Phrase.hash language u = Phrase.hash language w → u = w) :
    (ofSentence subgrams language sentence).count (Phrase.hash language w) =
      inSentence w sentence := by
  induction sentence with
  | nil => rfl
  | cons word rest ih =>
    have hrest := ih fun u hne hu => hinj u hne (hu.trans (List.suffix_cons word rest).isInfix)
    have hfollow := count_follow hsub [] (word :: rest) fun u hne hu => hinj u hne hu.isInfix
    rw [ofSentence, List.count_append, hrest, inSentence_cons]
    rw [List.length_nil, List.nil_append] at hfollow
    have hlength : 0 < w.length := List.length_pos_iff.mpr hw
    simp only [hlength, true_and] at hfollow
    rw [← hfollow]
    rfl

/-- The scan of all sentences counts an anchor phrase at every start where it stands, if no two
of the phrases that meet in the scan have one hash. -/
theorem count_flatMap_ofSentence (t : TextAnalysis) (phrases : List String)
    {sentences : List (List String)}
    (hdistinct : Set.InjOn (Phrase.hash language)
      (compared (t.wordLists language phrases) sentences))
    (hw : w ∈ t.wordLists language phrases) :
    (sentences.flatMap
      (ofSentence (AnchorPhrases.ofPhrases t language phrases).subgrams language)).count
        (Phrase.hash language w) = inSentences w sentences := by
  have hne : w ≠ [] := (TextAnalysis.mem_wordLists.mp hw).1
  rw [List.count_flatMap, inSentences]
  refine congrArg List.sum (List.map_congr_left fun sentence hmem => ?_)
  refine count_ofSentence hne (fun u hu hbegins => ?_) fun u hu hinfix heq => ?_
  · exact (AnchorPhrases.contains_ofPhrases t language phrases _).mpr ⟨w, hw, u, hu, hbegins, rfl⟩
  · exact hdistinct ⟨hu, .inr ⟨sentence, hmem, hinfix⟩⟩
      ⟨hne, .inl ⟨w, hw, List.prefix_rfl⟩⟩ heq

end Occurrences
end Relatedness
