import Mathlib.Data.List.Nodup
import Relatedness.LinkProbability.Estimate
import Relatedness.Proofs.Phrase.Occurrences

/-! Numbers of links. Texts that are cut into the same words are one phrase, whose links are
those of all of them, as far as their number fits a word; the phrases that are kept are these word
lists, each under its hash. -/

namespace Relatedness.LinkProbability.LinkCounts

variable (c : LinkCounts) (t : TextAnalysis) (language : Language)

theorem contains_add (words : List String) (links : UInt64) (k : UInt64) :
    (c.add language words links).totals.contains k = true ↔
      (words ≠ [] ∧ Phrase.hash language words = k) ∨ c.totals.contains k = true := by
  by_cases hwords : words = []
  · simp [add, hwords]
  · by_cases hold : c.totals.contains (Phrase.hash language words) = true
    · simp only [add, List.isEmpty_iff, hwords, if_false, hold, if_true,
        Std.HashMap.contains_modify, ne_eq, not_false_eq_true, true_and]
      constructor
      · exact .inr
      · intro hcase
        rcases hcase with rfl | h
        · exact hold
        · exact h
    · simp [add, hwords, hold]

theorem total_add (words : List String) (links : UInt64) (k : UInt64) :
    (c.add language words links).total k =
      c.total k + if words ≠ [] ∧ Phrase.hash language words = k then links else 0 := by
  by_cases hwords : words = []
  · simp [add, hwords]
  · by_cases hold : c.totals.contains (Phrase.hash language words) = true
    · simp only [add, List.isEmpty_iff, hwords, if_false, hold, if_true, total,
        Std.HashMap.getElem?_modify, ne_eq, not_false_eq_true, true_and]
      by_cases hk : Phrase.hash language words = k
      · subst hk
        rw [Std.HashMap.contains_eq_isSome_getElem?] at hold
        obtain ⟨n, hn⟩ := Option.isSome_iff_exists.mp hold
        simp [hn]
      · simp [hk]
    · simp only [add, List.isEmpty_iff, hwords, if_false, hold, Bool.false_eq_true, total,
        ne_eq, not_false_eq_true, true_and]
      rw [Std.HashMap.getElem?_insert]
      by_cases hk : Phrase.hash language words = k
      · subst hk
        rw [Std.HashMap.getElem?_eq_none_of_contains_eq_false (by simpa using hold)]
        simp
      · simp [hk]

/-- Every phrase that is kept stands under its hash, and every hash has a phrase. -/
structure Represents (c : LinkCounts) (language : Language) (lists : List (List String)) : Prop where
  phrases : ∀ {hash words}, (hash, words) ∈ c.phrases →
    words ∈ lists ∧ hash = Phrase.hash language words
  contains : ∀ {words}, words ∈ lists → c.totals.contains (Phrase.hash language words) = true
  exists_phrase : ∀ {hash}, c.totals.contains hash = true → ∃ words, (hash, words) ∈ c.phrases

theorem Represents.add {lists : List (List String)} (h : c.Represents language lists)
    (words : List String) (links : UInt64) :
    (c.add language words links).Represents language
      (lists ++ if words = [] then [] else [words]) := by
  by_cases hwords : words = []
  · simpa [LinkCounts.add, hwords] using h
  rw [if_neg hwords]
  have hkept : ∀ {p}, p ∈ c.phrases → p ∈ (c.add language words links).phrases := by
    intro p hp
    by_cases hold : c.totals.contains (Phrase.hash language words) = true
    · simpa [LinkCounts.add, hwords, hold] using hp
    · simp [LinkCounts.add, hwords, hold, hp]
  refine ⟨fun {hash v} hmem => ?_, fun {v} hmem => ?_, fun {hash} hmem => ?_⟩
  · by_cases hold : c.totals.contains (Phrase.hash language words) = true
    · obtain ⟨hlist, heq⟩ := h.phrases (by simpa [LinkCounts.add, hwords, hold] using hmem)
      exact ⟨List.mem_append_left _ hlist, heq⟩
    · have hcases : (hash, v) = (Phrase.hash language words, words) ∨ (hash, v) ∈ c.phrases := by
        simpa [LinkCounts.add, hwords, hold] using hmem
      rcases hcases with heq | hmem
      · cases heq
        exact ⟨List.mem_append_right _ List.mem_cons_self, rfl⟩
      · obtain ⟨hlist, heq⟩ := h.phrases hmem
        exact ⟨List.mem_append_left _ hlist, heq⟩
  · rw [contains_add]
    rcases List.mem_append.mp hmem with hmem | hmem
    · exact .inr (h.contains hmem)
    · exact .inl ⟨hwords, by rw [List.mem_singleton.mp hmem]⟩
  · rcases (contains_add c language words links hash).mp hmem with ⟨_, rfl⟩ | hold
    · by_cases hold : c.totals.contains (Phrase.hash language words) = true
      · obtain ⟨v, hv⟩ := h.exists_phrase hold
        exact ⟨v, hkept hv⟩
      · exact ⟨words, by simp [LinkCounts.add, hwords, hold]⟩
    · obtain ⟨v, hv⟩ := h.exists_phrase hold
      exact ⟨v, hkept hv⟩

/-- The counts of pairs before the phrases are put in order. -/
def collect (pairs : List (String × UInt64)) : LinkCounts :=
  pairs.foldl (fun c p => c.add language (t.words language p.1) p.2) ⟨∅, []⟩

theorem collect_append_singleton (pairs : List (String × UInt64)) (p : String × UInt64) :
    collect t language (pairs ++ [p]) =
      (collect t language pairs).add language (t.words language p.1) p.2 := by
  rw [collect, List.foldl_append]
  rfl

theorem represents_collect (pairs : List (String × UInt64)) :
    (collect t language pairs).Represents language (t.wordLists language (pairs.map Prod.fst)) := by
  induction pairs using List.reverseRecOn with
  | nil => exact ⟨by simp [collect], by simp [TextAnalysis.wordLists], by simp [collect]⟩
  | append_singleton pairs p ih =>
    rw [collect_append_singleton, List.map_append, List.map_singleton,
      t.wordLists_append_singleton]
    exact Represents.add _ _ ih _ _

theorem represents_ofPairs (pairs : List (String × UInt64)) :
    (ofPairs t language pairs).Represents language (t.wordLists language (pairs.map Prod.fst)) := by
  obtain ⟨hphrases, hcontains, hexists⟩ := represents_collect t language pairs
  refine ⟨fun hmem => hphrases (List.mem_reverse.mp hmem), hcontains, fun hmem => ?_⟩
  obtain ⟨words, hwords⟩ := hexists hmem
  exact ⟨words, List.mem_reverse.mpr hwords⟩

/-- No hash has two phrases. -/
theorem nodup_collect (pairs : List (String × UInt64)) :
    ((collect t language pairs).phrases.map Prod.fst).Nodup := by
  induction pairs using List.reverseRecOn with
  | nil => exact .nil
  | append_singleton pairs p ih =>
    have hrepresents := represents_collect t language pairs
    rw [collect_append_singleton]
    generalize collect t language pairs = c at ih hrepresents
    by_cases hwords : t.words language p.1 = []
    · simpa [add, hwords] using ih
    by_cases hold : c.totals.contains (Phrase.hash language (t.words language p.1)) = true
    · simpa [add, hwords, hold] using ih
    · have hnew : Phrase.hash language (t.words language p.1) ∉ c.phrases.map Prod.fst := by
        intro hmem
        obtain ⟨⟨hash, v⟩, hv, hhash⟩ := List.mem_map.mp hmem
        obtain ⟨hlist, rfl⟩ := hrepresents.phrases hv
        exact hold (hhash ▸ hrepresents.contains hlist)
      have hadd : (c.add language (t.words language p.1) p.2).phrases =
          (Phrase.hash language (t.words language p.1), t.words language p.1) :: c.phrases := by
        simp [add, hwords, hold]
      rw [hadd, List.map_cons]
      exact List.nodup_cons.mpr ⟨hnew, ih⟩

theorem nodup_ofPairs (pairs : List (String × UInt64)) :
    ((ofPairs t language pairs).phrases.map Prod.fst).Nodup := by
  change (((collect t language pairs).phrases.reverse).map Prod.fst).Nodup
  rw [List.map_reverse, List.nodup_reverse]
  exact nodup_collect t language pairs

/-- The phrases are kept under their hashes, so none is kept twice. -/
theorem nodup_words_ofPairs (pairs : List (String × UInt64)) :
    ((ofPairs t language pairs).phrases.map Prod.snd).Nodup := by
  have hhashes : ((ofPairs t language pairs).phrases.map Prod.snd).map (Phrase.hash language) =
      (ofPairs t language pairs).phrases.map Prod.fst := by
    rw [List.map_map]
    exact List.map_congr_left fun p hp => ((represents_ofPairs t language pairs).phrases hp).2.symm
  refine List.Nodup.of_map (Phrase.hash language) ?_
  rw [hhashes]
  exact nodup_ofPairs t language pairs

/-- What is summed up in words is the sum in numbers modulo the size of a word. -/
theorem toNat_total_collect (pairs : List (String × UInt64)) (k : UInt64) :
    ((collect t language pairs).total k).toNat = ((pairs.filter fun p => t.words language p.1 ≠ [] ∧
      Phrase.hash language (t.words language p.1) = k).map fun p => p.2.toNat).sum % 2 ^ 64 := by
  induction pairs using List.reverseRecOn with
  | nil => simp [collect, total]
  | append_singleton pairs p ih =>
    rw [collect_append_singleton, total_add, UInt64.toNat_add, ih, Nat.mod_add_mod,
      List.filter_append, List.map_append, List.sum_append]
    by_cases h : t.words language p.1 ≠ [] ∧ Phrase.hash language (t.words language p.1) = k
    · simp [h]
    · rw [if_neg h, List.filter_singleton]
      simp [h]

variable {t language} {pairs : List (String × UInt64)} {w : List String}

/-- Where no two word lists have one hash, links are counted by word lists. -/
theorem toNat_total_ofPairs
    (hdistinct : Set.InjOn (Phrase.hash language)
      {v | v ∈ t.wordLists language (pairs.map Prod.fst)})
    (hw : w ∈ t.wordLists language (pairs.map Prod.fst)) :
    ((ofPairs t language pairs).total (Phrase.hash language w)).toNat =
      ((pairs.filter fun p => t.words language p.1 = w).map fun p => p.2.toNat).sum % 2 ^ 64 := by
  have hne := (TextAnalysis.mem_wordLists.mp hw).1
  change ((collect t language pairs).total _).toNat = _
  rw [toNat_total_collect]
  refine congrArg (fun l : List (String × UInt64) => (l.map fun p => p.2.toNat).sum % 2 ^ 64) ?_
  refine List.filter_congr fun p hp => ?_
  rw [decide_eq_decide]
  constructor
  · intro h
    obtain ⟨hwords, heq⟩ := h
    refine hdistinct ?_ hw heq
    exact TextAnalysis.mem_wordLists.mpr ⟨hwords, p.1, List.mem_map_of_mem hp, rfl⟩
  · intro hsame
    subst hsame
    exact ⟨hne, rfl⟩

theorem mem_phrases_ofPairs
    (hdistinct : Set.InjOn (Phrase.hash language)
      {v | v ∈ t.wordLists language (pairs.map Prod.fst)})
    (hw : w ∈ t.wordLists language (pairs.map Prod.fst)) :
    (Phrase.hash language w, w) ∈ (ofPairs t language pairs).phrases := by
  have hrepresents := represents_ofPairs t language pairs
  obtain ⟨v, hv⟩ := hrepresents.exists_phrase (hrepresents.contains hw)
  obtain ⟨hlist, heq⟩ := hrepresents.phrases hv
  rwa [hdistinct hlist hw heq.symm] at hv

end Relatedness.LinkProbability.LinkCounts
