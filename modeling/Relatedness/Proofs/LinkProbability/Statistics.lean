import Mathlib.Data.Finset.Card
import Mathlib.Data.Finset.Dedup
import Mathlib.Data.Finset.Image
import Relatedness.Proofs.LinkProbability.Answers
import Relatedness.Proofs.LinkProbability.Stored

/-! What a build reports. Its numbers are the sizes of collections of hashes. Where no two phrases
have one hash they are the numbers of the phrases themselves, and where no two keys are one the
store has as many keys as were written, besides those that were left over in the staging
directory. -/

namespace Relatedness

open LinkProbability KeyValue

theorem size_eq_card_of_contains {α β : Type} [BEq α] [LawfulBEq α] [Hashable α] [DecidableEq α]
    {m : Std.HashMap α β} {keys : Finset α} (h : ∀ k, m.contains k = true ↔ k ∈ keys) :
    m.size = keys.card := by
  have hkeys : m.keys.toFinset = keys := by
    ext k
    rw [List.mem_toFinset, Std.HashMap.mem_keys, ← h, Std.HashMap.mem_iff_contains]
  rw [← hkeys, List.toFinset_card_of_nodup Std.HashMap.nodup_keys, Std.HashMap.length_keys]

theorem card_filter_toFinset_map {α β : Type} [DecidableEq β] {f : α → β} {l : List α}
    (hl : (l.map f).Nodup) (p : β → Prop) [DecidablePred p] :
    ((l.map f).toFinset.filter p).card = (l.filter fun a => p (f a)).length := by
  have hkept : (l.map f).toFinset.filter p = ((l.filter fun a => p (f a)).map f).toFinset := by
    ext b
    simp only [Finset.mem_filter, List.mem_toFinset, List.mem_map, List.mem_filter,
      decide_eq_true_eq]
    constructor
    · rintro ⟨⟨a, ha, rfl⟩, hp⟩
      exact ⟨a, ⟨ha, hp⟩, rfl⟩
    · rintro ⟨a, ⟨ha, hp⟩, rfl⟩
      exact ⟨⟨a, ha, rfl⟩, hp⟩
  rw [hkept, List.toFinset_card_of_nodup (hl.sublist (List.filter_sublist.map f)), List.length_map]

namespace KeyValueStore

variable {V : Type}

theorem mem_keys_iff {s : KeyValueStore V} {key : String} :
    key ∈ s.keys ↔ s.contains key = true :=
  Std.HashMap.mem_keys.trans Std.HashMap.mem_iff_contains

/-- A store has the keys that were put, and of an earlier store those that were not. -/
theorem Recalls.size [Storable V] {s old : KeyValueStore V} {fs before : FileSystem}
    {puts : List (String × V)} (h : s.Recalls fs puts old before) :
    s.size = (puts.map Prod.fst).toFinset.card +
      (old.keys.toFinset \ (puts.map Prod.fst).toFinset).card := by
  have hcontains : ∀ key, s.index.contains key = true ↔
      key ∈ (puts.map Prod.fst).toFinset ∪ old.keys.toFinset := by
    intro key
    rw [Finset.mem_union, List.mem_toFinset, List.mem_toFinset, mem_keys_iff]
    refine (Bool.eq_iff_iff.mp (h.contains key)).trans ?_
    rw [Bool.or_eq_true, History.isSome_latest_iff, List.any_eq_true]
    simp
  change s.index.size = _
  rw [size_eq_card_of_contains hcontains, Nat.add_comm, Finset.card_sdiff_add_card,
    Finset.union_comm]

end KeyValueStore

theorem nodup_toList (ids : Std.TreeSet UInt64) : ids.toList.Nodup :=
  Std.TreeSet.distinct_toList.imp fun hne heq => hne (by rw [heq]; exact Std.ReflCmp.compare_self)

namespace LinkProbability

namespace Sources

variable (src : Sources) (t : TextAnalysis) (language : Language)

/-- The beginnings of anchor phrases, of one word or more. -/
def beginnings : List (List String) :=
  ((t.wordLists language src.phrases).flatMap List.inits).filter fun words => !words.isEmpty

/-- The keys that are written for a language: those of its phrases with links, and those of the
beginnings of its anchor phrases. -/
def keys : Finset String :=
  (src.linked t language).toFinset.image (StoredKey.ofPhrase language) ∪
    (src.beginnings t language).toFinset.image fun words =>
      StoredKey.ofSubgram (Phrase.hash language words)

/-- The report of a language counts word lists: what is written in two ways counts once, and so does
what begins two phrases. -/
structure Accounts (stats : BuildStats) : Prop where
  named : stats.language = language
  anchors : stats.anchors = (t.wordLists language src.phrases).toFinset.card
  subgrams : stats.subgrams = (src.beginnings t language).toFinset.card
  documents : stats.documents = src.documents.length
  inserted : stats.inserted = (src.linked t language).toFinset.card
  misses : stats.misses =
    ((src.linked t language).toFinset.filter fun words => src.occurrences t language words = 0).card

variable {src t language} {counter : PhraseCounter} {scanned : Nat} {smoothing : Binary64}

theorem mem_beginnings {words : List String} : words ∈ src.beginnings t language ↔
    words ≠ [] ∧ ∃ w ∈ t.wordLists language src.phrases, words <+: w := by
  simp [beginnings, and_comm]

theorem mem_keys {key : String} : key ∈ src.keys t language ↔
    (∃ words ∈ src.linked t language, key = StoredKey.ofPhrase language words) ∨
      ∃ words ∈ src.beginnings t language,
        key = StoredKey.ofSubgram (Phrase.hash language words) := by
  simp [keys, eq_comm]

theorem contains_subgrams_iff {hash : UInt64} :
    (AnchorPhrases.ofPhrases t language src.phrases).subgrams.contains hash = true ↔
      ∃ words ∈ src.beginnings t language, Phrase.hash language words = hash := by
  rw [AnchorPhrases.contains_ofPhrases]
  constructor
  · rintro ⟨w, hw, words, hne, hbegins, hhash⟩
    exact ⟨words, mem_beginnings.mpr ⟨hne, w, hw, hbegins⟩, hhash⟩
  · rintro ⟨words, hwords, hhash⟩
    obtain ⟨hne, w, hw, hbegins⟩ := mem_beginnings.mp hwords
    exact ⟨w, hw, words, hne, hbegins, hhash⟩

theorem compared_of_mem_beginnings {words : List String} (h : words ∈ src.beginnings t language) :
    words ∈ Occurrences.compared (t.wordLists language src.phrases)
      (sentencesOf t language src.documents) := by
  obtain ⟨hne, hbegins⟩ := mem_beginnings.mp h
  exact ⟨hne, .inl hbegins⟩

theorem mem_beginnings_of_mem_wordLists {words : List String}
    (h : words ∈ t.wordLists language src.phrases) : words ∈ src.beginnings t language :=
  mem_beginnings.mpr ⟨(TextAnalysis.mem_wordLists.mp h).1, words, h, List.prefix_rfl⟩

/-! ## The report -/

section Report

variable (hdistinct : src.Distinct t language)
include hdistinct

theorem card_image_hash {lists : List (List String)}
    (h : ∀ words ∈ lists, words ∈ src.beginnings t language) :
    (lists.toFinset.image (Phrase.hash language)).card = lists.toFinset.card := by
  refine Finset.card_image_of_injOn (hdistinct.mono fun words hwords => ?_)
  exact .inl (compared_of_mem_beginnings (h words (List.mem_toFinset.mp hwords)))

theorem size_counter (hcounted : Counted t language src.phrases src.documents counter scanned) :
    counter.size = (t.wordLists language src.phrases).toFinset.card := by
  rw [← card_image_hash hdistinct fun _ => mem_beginnings_of_mem_wordLists]
  refine size_eq_card_of_contains fun k => (hcounted.tracked_iff k).trans ?_
  simp

theorem size_subgrams : (AnchorPhrases.ofPhrases t language src.phrases).subgrams.size =
    (src.beginnings t language).toFinset.card := by
  rw [← card_image_hash hdistinct fun _ => id, ← Std.TreeSet.length_toList,
    ← List.toFinset_card_of_nodup (nodup_toList _)]
  congr 1
  ext k
  rw [List.mem_toFinset, Std.TreeSet.mem_toList, ← Std.TreeSet.contains_iff_mem,
    contains_subgrams_iff]
  simp

theorem mem_words_ofPairs_iff {words : List String} :
    words ∈ (LinkCounts.ofPairs t language src.pairs).phrases.map Prod.snd ↔
      words ∈ src.linked t language := by
  constructor
  · intro h
    obtain ⟨p, hp, rfl⟩ := List.mem_map.mp h
    exact ((LinkCounts.represents_ofPairs t language src.pairs).phrases hp).1
  · intro h
    exact List.mem_map.mpr ⟨_, LinkCounts.mem_phrases_ofPairs (hdistinct.mono fun _ => .inr) h, rfl⟩

theorem toFinset_words_ofPairs :
    ((LinkCounts.ofPairs t language src.pairs).phrases.map Prod.snd).toFinset =
      (src.linked t language).toFinset := by
  ext words
  rw [List.mem_toFinset, List.mem_toFinset, mem_words_ofPairs_iff hdistinct]

theorem length_probabilities :
    (probabilities smoothing (LinkCounts.ofPairs t language src.pairs) counter).length =
      (src.linked t language).toFinset.card := by
  rw [← toFinset_words_ofPairs hdistinct,
    List.toFinset_card_of_nodup (LinkCounts.nodup_words_ofPairs t language src.pairs),
    probabilities, List.length_map, List.length_map]

/-- The hash of a phrase with links has been counted as often as the phrase occurs. -/
theorem length_misses (hcounted : Counted t language src.phrases src.documents counter scanned) :
    ((LinkCounts.ofPairs t language src.pairs).phrases.filter
      fun p => counter.count p.1 == 0).length =
      ((src.linked t language).toFinset.filter
        fun words => src.occurrences t language words = 0).card := by
  rw [← toFinset_words_ofPairs hdistinct,
    card_filter_toFinset_map (LinkCounts.nodup_words_ofPairs t language src.pairs)]
  refine congrArg List.length (List.filter_congr fun p hp => ?_)
  obtain ⟨hlinked, hhash⟩ := (LinkCounts.represents_ofPairs t language src.pairs).phrases hp
  rw [hhash, count_eq_occurrences hdistinct hcounted hlinked, beq_eq_decide]

theorem accounts_stats
    (hcounted : Counted t language src.phrases src.documents counter scanned) :
    src.Accounts t language (src.stats t language smoothing counter scanned) where
  named := rfl
  anchors := size_counter hdistinct hcounted
  subgrams := size_subgrams hdistinct
  documents := hcounted.scanned_eq
  inserted := length_probabilities hdistinct
  misses := length_misses hdistinct hcounted

end Report

/-! ## The keys -/

theorem length_puts : (src.puts t language smoothing counter).length =
    (src.stats t language smoothing counter scanned).inserted +
      (src.stats t language smoothing counter scanned).subgrams := by
  simp [puts, stats]

theorem keys_puts : (src.puts t language smoothing counter).map Prod.fst =
    ((LinkCounts.ofPairs t language src.pairs).phrases.map Prod.snd).map
        (StoredKey.ofPhrase language) ++
      (AnchorPhrases.ofPhrases t language src.phrases).subgrams.toList.map StoredKey.ofSubgram := by
  simp [puts, probabilities, Function.comp_def]

theorem mem_keys_puts_iff (hdistinct : src.Distinct t language) {key : String} :
    key ∈ (src.puts t language smoothing counter).map Prod.fst ↔ key ∈ src.keys t language := by
  rw [keys_puts, List.mem_append, mem_keys]
  refine or_congr ?_ ?_
  · simp only [List.mem_map (f := StoredKey.ofPhrase language), mem_words_ofPairs_iff hdistinct,
      eq_comm]
  · simp only [List.mem_map, Std.TreeSet.mem_toList, ← Std.TreeSet.contains_iff_mem,
      contains_subgrams_iff]
    constructor
    · rintro ⟨_, ⟨words, hwords, rfl⟩, rfl⟩
      exact ⟨words, hwords, rfl⟩
    · rintro ⟨words, hwords, rfl⟩
      exact ⟨_, ⟨words, hwords, rfl⟩, rfl⟩

/-- No key is written twice for one language. -/
theorem nodup_keys_puts (hkeys : ∀ w ∈ src.linked t language, StoredKey.Separable language w) :
    ((src.puts t language smoothing counter).map Prod.fst).Nodup := by
  have hwords : ∀ w ∈ (LinkCounts.ofPairs t language src.pairs).phrases.map Prod.snd,
      StoredKey.Separable language w := by
    intro w hw
    obtain ⟨p, hp, rfl⟩ := List.mem_map.mp hw
    exact hkeys _ ((LinkCounts.represents_ofPairs t language src.pairs).phrases hp).1
  rw [keys_puts]
  refine .append ?_ ?_ ?_
  · exact (LinkCounts.nodup_words_ofPairs t language src.pairs).map_on fun v hv w hw heq =>
      ((hwords v hv).inj (hwords w hw) heq).2
  · exact (nodup_toList _).map fun _ _ => StoredKey.ofSubgram_inj
  · rintro key hphrase hsubgram
    obtain ⟨w, hw, rfl⟩ := List.mem_map.mp hphrase
    obtain ⟨hash, _, heq⟩ := List.mem_map.mp hsubgram
    exact (hwords w hw).ofSubgram_ne hash heq

end Sources

theorem length_flatten_of_reported {config : LinkProbabilityConfig} {t : TextAnalysis}
    {corpus : Corpus} {anchors : AnchorSource} {languages : List Language}
    {reports : List (BuildStats × List (String × Binary64))}
    (h : List.Forall₂ (Reported config t corpus anchors) languages reports) :
    (reports.map Prod.snd).flatten.length =
      ((reports.map Prod.fst).map fun stats => stats.inserted + stats.subgrams).sum := by
  induction h with
  | nil => rfl
  | cons hfirst _ ih =>
    obtain ⟨src, counter, scanned, _, _, rfl⟩ := hfirst
    rw [List.map_cons, List.flatten_cons, List.length_append, ih]
    exact congrArg (· + _) Sources.length_puts

end LinkProbability

namespace Estimator

variable {e e' : Estimator} {corpus : Corpus} {anchors : AnchorSource} {workers : Workers}
  {stats : List BuildStats} {s s' : Session}

/-- The phrases that meet in a build, each with its language. -/
def involved (e : Estimator) (corpus : Corpus) (anchors : AnchorSource) :
    Set (Language × List String) :=
  {p | p.1 ∈ e.config.languages ∧ ∃ src, Sources.Of corpus anchors p.1 src ∧
    p.2 ∈ Occurrences.compared (e.analysis.wordLists p.1 src.phrases)
      (sentencesOf e.analysis p.1 src.documents) ∪ {words | words ∈ src.linked e.analysis p.1}}

/-- No language is built twice, and the phrases of all languages can be told apart both by their
keys and by their hashes. -/
structure Unmistakable (e : Estimator) (corpus : Corpus) (anchors : AnchorSource) : Prop where
  nodup : e.config.languages.Nodup
  codable : ∀ language ∈ e.config.languages, language.Codable
  spaceless : ∀ language text, ∀ word ∈ e.analysis.words language text, ' ' ∉ word.toList
  distinct : Set.InjOn (fun p : Language × List String => Phrase.hash p.1 p.2)
    (e.involved corpus anchors)

/-- A build of these sources writes this key. -/
def WritesKey (e : Estimator) (corpus : Corpus) (anchors : AnchorSource) (key : String) : Prop :=
  ∃ language ∈ e.config.languages, ∃ src, Sources.Of corpus anchors language src ∧
    key ∈ src.keys e.analysis language

namespace Unmistakable

variable (h : e.Unmistakable corpus anchors)
include h

theorem distinct_of {language : Language} (hlanguage : language ∈ e.config.languages)
    {src : Sources} (hof : Sources.Of corpus anchors language src) :
    src.Distinct e.analysis language := by
  intro u hu v hv heq
  exact congrArg Prod.snd (h.distinct (show (language, u) ∈ _ from ⟨hlanguage, src, hof, hu⟩)
    (show (language, v) ∈ _ from ⟨hlanguage, src, hof, hv⟩) heq)

theorem legible : Legible e.analysis corpus anchors e.config.languages :=
  .of_codable h.codable h.spaceless

/-- Two languages have no key in common: the keys of phrases tell the languages, and those of
beginnings have hashes that cover the language. -/
theorem disjoint_keys {language language' : Language} {src src' : Sources}
    (hlanguage : language ∈ e.config.languages) (hlanguage' : language' ∈ e.config.languages)
    (hof : Sources.Of corpus anchors language src)
    (hof' : Sources.Of corpus anchors language' src') (hne : language ≠ language') {key : String}
    (hkey : key ∈ src.keys e.analysis language) : key ∉ src'.keys e.analysis language' := by
  have hseparable := h.legible language hlanguage src hof
  have hseparable' := h.legible language' hlanguage' src' hof'
  intro hkey'
  rcases Sources.mem_keys.mp hkey with ⟨words, hwords, rfl⟩ | ⟨words, hwords, rfl⟩ <;>
    rcases Sources.mem_keys.mp hkey' with ⟨words', hwords', heq⟩ | ⟨words', hwords', heq⟩
  · exact hne ((hseparable words hwords).inj (hseparable' words' hwords') heq).1
  · exact (hseparable words hwords).ofSubgram_ne _ heq.symm
  · exact (hseparable' words' hwords').ofSubgram_ne _ heq
  · have hhash : Phrase.hash language words = Phrase.hash language' words' :=
      StoredKey.ofSubgram_inj heq
    have hmem : (language, words) ∈ e.involved corpus anchors :=
      ⟨hlanguage, src, hof, .inl (Sources.compared_of_mem_beginnings hwords)⟩
    have hmem' : (language', words') ∈ e.involved corpus anchors :=
      ⟨hlanguage', src', hof', .inl (Sources.compared_of_mem_beginnings hwords')⟩
    exact hne (congrArg Prod.fst (h.distinct hmem hmem' hhash))

variable {reports : List (BuildStats × List (String × Binary64))}

theorem accounts (hbatch : 1 ≤ e.config.batchSize)
    (hall : List.Forall₂ (Reported e.config e.analysis corpus anchors) e.config.languages reports) :
    List.Forall₂ (fun language stats => ∃ src, Sources.Of corpus anchors language src ∧
      src.Accounts e.analysis language stats) e.config.languages (reports.map Prod.fst) := by
  rw [List.forall₂_map_right_iff]
  refine (List.forall₂_and_left _ _).mpr ⟨fun _ => id, hall⟩ |>.imp ?_
  rintro language _ ⟨hlanguage, src, counter, scanned, hof, hscans, rfl⟩
  have hdistinct := h.distinct_of hlanguage hof
  exact ⟨src, hof, Sources.accounts_stats hdistinct
    (hscans.counted hbatch (hdistinct.mono fun _ => .inl))⟩

variable {putsOf : List (List (String × Binary64))}
  (hall : List.Forall₂ (Written e.config e.analysis corpus anchors) e.config.languages putsOf)
include hall

/-- No key is written twice, neither for one language nor for two. -/
theorem nodup_keys : (putsOf.flatten.map Prod.fst).Nodup := by
  have hlength := hall.length_eq
  have hputs : ∀ (i : Nat) (hi : i < putsOf.length), ∃ src,
      Sources.Of corpus anchors e.config.languages[i] src ∧ (putsOf[i].map Prod.fst).Nodup ∧
      ∀ key ∈ putsOf[i].map Prod.fst, key ∈ src.keys e.analysis e.config.languages[i] := by
    intro i hi
    have hlanguage : e.config.languages[i] ∈ e.config.languages := List.getElem_mem _
    obtain ⟨src, counter, _, hof, _, heq⟩ := hall.get (hlength ▸ hi) hi
    rw [List.get_eq_getElem] at heq hof
    rw [show putsOf[i] = _ from heq]
    exact ⟨src, hof, Sources.nodup_keys_puts (h.legible _ hlanguage src hof),
      fun key => (Sources.mem_keys_puts_iff (h.distinct_of hlanguage hof)).mp⟩
  rw [List.map_flatten, List.nodup_flatten]
  constructor
  · intro keys hkeys
    obtain ⟨i, hi, rfl⟩ := List.mem_iff_getElem.mp hkeys
    rw [List.length_map] at hi
    obtain ⟨_, _, hnodup, _⟩ := hputs i hi
    rwa [List.getElem_map]
  · refine List.pairwise_iff_getElem.mpr fun i j hi hj hij => ?_
    rw [List.length_map] at hi hj
    rw [List.getElem_map, List.getElem_map]
    obtain ⟨src, hof, _, hkeys⟩ := hputs i hi
    obtain ⟨src', hof', _, hkeys'⟩ := hputs j hj
    have hne : e.config.languages[i] ≠ e.config.languages[j] :=
      List.pairwise_iff_getElem.mp h.nodup i j _ _ hij
    exact fun key hkey hkey' => h.disjoint_keys (List.getElem_mem _) (List.getElem_mem _) hof hof'
      hne (hkeys key hkey) (hkeys' key hkey')

theorem mem_written_iff {key : String} :
    key ∈ putsOf.flatten.map Prod.fst ↔ e.WritesKey corpus anchors key := by
  rw [List.map_flatten, List.mem_flatten]
  constructor
  · rintro ⟨_, hkeys, hkey⟩
    obtain ⟨puts, hputs, rfl⟩ := List.mem_map.mp hkeys
    obtain ⟨language, hlanguage, src, _, _, hof, _, rfl⟩ := exists_of_mem_putsOf hall hputs
    exact ⟨language, hlanguage, src, hof,
      (Sources.mem_keys_puts_iff (h.distinct_of hlanguage hof)).mp hkey⟩
  · rintro ⟨language, hlanguage, src, hof, hkey⟩
    obtain ⟨puts, hputs, src', _, _, hof', _, rfl⟩ := exists_of_mem_languages hall hlanguage
    obtain rfl := hof.unique hof'
    exact ⟨_, List.mem_map_of_mem hputs,
      (Sources.mem_keys_puts_iff (h.distinct_of hlanguage hof)).mpr hkey⟩

end Unmistakable

theorem accounts_of_build (hs : s.disk.WellFormed) (hphrases : e.Unmistakable corpus anchors)
    (h : (e.build corpus anchors workers).run s = ((.ok stats, e'), s')) :
    List.Forall₂ (fun language stats => ∃ src, Sources.Of corpus anchors language src ∧
      src.Accounts e.analysis language stats) e.config.languages stats := by
  obtain ⟨_, _, _, _, _, _, _, ⟨hall, rfl⟩, _⟩ := build_reports hs h
  exact hphrases.accounts (one_le_batchSize (build_eq_ok h).1) hall

/-- The store has the keys that were written, and besides those that were left over. -/
theorem size_of_build (hs : s.disk.WellFormed) (hphrases : e.Unmistakable corpus anchors)
    (h : (e.build corpus anchors workers).run s = ((.ok stats, e'), s')) :
    ∃ store written, e'.store = some store ∧
      (∀ key, key ∈ written ↔ e.WritesKey corpus anchors key) ∧
      store.size = (stats.map fun stats => stats.inserted + stats.subgrams).sum +
        ((earlier s.disk e.config.path).keys.toFinset \ written).card := by
  obtain ⟨store, entries, new, reports, rfl, _, _, ⟨hall, rfl⟩, hleft, hnew, hshows⟩ :=
    build_reports hs h
  have hwritten : List.Forall₂ (Written e.config e.analysis corpus anchors) e.config.languages
      (reports.map Prod.snd) :=
    List.forall₂_map_right_iff.mpr (hall.imp fun _ _ => Reported.written)
  obtain ⟨rest, hearlier⟩ := earlier_shows hleft
  have hrecalls := hshows.recalls hearlier hnew fun p _ => decoded_encode p.2
  refine ⟨store, ((reports.map Prod.snd).flatten.map Prod.fst).toFinset, rfl, fun key => ?_, ?_⟩
  · rw [List.mem_toFinset, hphrases.mem_written_iff hwritten]
  · rw [hrecalls.size, List.toFinset_card_of_nodup (hphrases.nodup_keys hwritten), List.length_map,
      length_flatten_of_reported hall]

/-- That the phrases of a build can be told from each other can be computed. -/
theorem unmistakable_of_windows (srcOf : Language → Sources)
    (hof : ∀ language src, Sources.Of corpus anchors language src → src = srcOf language)
    (hnodup : e.config.languages.Nodup)
    (hcodable : ∀ language ∈ e.config.languages, language.Codable)
    (hspaceless : ∀ language text, ∀ word ∈ e.analysis.words language text, ' ' ∉ word.toList)
    (hwindows : ∀ language ∈ e.config.languages, ∀ language' ∈ e.config.languages,
      ∀ u ∈ (srcOf language).windows e.analysis language,
      ∀ v ∈ (srcOf language').windows e.analysis language',
        Phrase.hash language u = Phrase.hash language' v → language = language' ∧ u = v) :
    e.Unmistakable corpus anchors := by
  refine ⟨hnodup, hcodable, hspaceless, ?_⟩
  rintro ⟨language, u⟩ ⟨hlanguage, src, hsrc, hu⟩ ⟨language', v⟩ ⟨hlanguage', src', hsrc', hv⟩ heq
  have hu := Sources.mem_windows_of_involved hu
  have hv := Sources.mem_windows_of_involved hv
  rw [hof _ _ hsrc] at hu
  rw [hof _ _ hsrc'] at hv
  obtain ⟨rfl, rfl⟩ := hwindows language hlanguage language' hlanguage' u hu v hv heq
  rfl

/-- A report counts what the sources have, each word list once and in batches of any size, and the
numbers of phrases with links and of beginnings that it gives add up to the number of keys in the
store. More keys are there just if a store was left over in the staging directory with keys that
were not written. -/
theorem stats_of_build (hs : s.disk.WellFormed) (hphrases : e.Unmistakable corpus anchors)
    (h : (e.build corpus anchors workers).run s = ((.ok stats, e'), s')) :
    List.Forall₂ (fun language stats => ∃ src, Sources.Of corpus anchors language src ∧
      src.Accounts e.analysis language stats) e.config.languages stats ∧
    ∃ store written, e'.store = some store ∧
      (∀ key, key ∈ written ↔ e.WritesKey corpus anchors key) ∧
      store.size = (stats.map fun stats => stats.inserted + stats.subgrams).sum +
        ((earlier s.disk e.config.path).keys.toFinset \ written).card ∧
      (leftover? s.disk e.config.path = none →
        store.size = (stats.map fun stats => stats.inserted + stats.subgrams).sum) := by
  obtain ⟨store, written, hstore, hkeys, hsize⟩ := size_of_build hs hphrases h
  refine ⟨accounts_of_build hs hphrases h, store, written, hstore, hkeys, hsize, fun hnone => ?_⟩
  have hempty : (earlier s.disk e.config.path).keys.toFinset = ∅ := by
    refine Finset.eq_empty_of_forall_notMem fun key hkey => ?_
    rw [List.mem_toFinset, KeyValueStore.mem_keys_iff, contains_earlier_of_none hnone] at hkey
    cases hkey
  rw [hsize, hempty, Finset.empty_sdiff, Finset.card_empty, Nat.add_zero]

/-- Two languages with the same sources, in each of which a phrase of two words occurs and one of a
single word does not. -/
def bilingual : Estimator :=
  ⟨{ path := ⟨false, ["lp"]⟩, languages := [⟨"en"⟩, ⟨"de"⟩], batchSize := 1 }, cutAtSpaces, none,
    none⟩

def cities : Sources where
  phrases := ["new york", "york", "new  york"]
  documents := [.ok (.raw "new york"), .ok (.raw "new jersey")]
  pairs := [("new york", 3), ("oslo", 1), ("new  york", 2)]

def citiesCorpus : Corpus := ⟨bilingual.config.languages, fun _ => .ok cities.documents⟩

def citiesAnchors : AnchorSource :=
  ⟨bilingual.config.languages, fun _ => .ok cities.phrases, fun _ => .ok cities.pairs⟩

theorem stats_of_build_cities :
    (FileSystem.empty 0).WellFormed ∧ bilingual.Unmistakable citiesCorpus citiesAnchors ∧
    ∃ stats e' s' store, (bilingual.build citiesCorpus citiesAnchors).run ⟨.empty 0, []⟩ =
        ((.ok stats, e'), s') ∧
      stats.map (fun st => (st.anchors, st.subgrams, st.documents, st.inserted, st.misses)) =
        [(2, 3, 2, 2, 1), (2, 3, 2, 2, 1)] ∧
      e'.store = some store ∧ store.size = 10 := by
  have hof : ∀ language src, Sources.Of citiesCorpus citiesAnchors language src → src = cities :=
    fun language src hof => hof.unique ⟨rfl, rfl, rfl⟩
  have hcodes : ∀ language ∈ bilingual.config.languages,
      language.code ≠ "" ∧ ':' ∉ language.code.toList := by decide
  have hkeys : ∀ language ∈ bilingual.config.languages, ∀ w ∈ cities.linked cutAtSpaces language,
      (StoredKey.ofPhrase language w).utf8ByteSize ≤ maxKeyLength := by decide
  have hphrases : bilingual.Unmistakable citiesCorpus citiesAnchors :=
    unmistakable_of_windows (fun _ => cities) hof (by decide)
      (fun language hmem => ⟨(hcodes language hmem).1, (hcodes language hmem).2⟩)
      spaceless_cutAtSpaces (by decide +kernel)
  have hbuildable : ∀ language ∈ bilingual.config.languages,
      Buildable bilingual.analysis citiesCorpus citiesAnchors language := fun language hmem =>
    ⟨cities, ⟨rfl, rfl, rfl⟩, ⟨[.raw "new york", .raw "new jersey"], rfl⟩, hkeys language hmem⟩
  obtain ⟨stats, e', s', h⟩ : ∃ stats e' s', (bilingual.build citiesCorpus citiesAnchors).run
      ⟨.empty 0, []⟩ = ((.ok stats, e'), s') := build_succeeds rfl rfl hbuildable rehearse_lp
  obtain ⟨haccounts, store, _, hstore, _, _, hsize⟩ := stats_of_build (.empty 0) hphrases h
  have hcards : ∀ language ∈ bilingual.config.languages,
      (cutAtSpaces.wordLists language cities.phrases).toFinset.card = 2 ∧
      (cities.beginnings cutAtSpaces language).toFinset.card = 3 ∧
      (cities.linked cutAtSpaces language).toFinset.card = 2 ∧
      ((cities.linked cutAtSpaces language).toFinset.filter
        fun words => cities.occurrences cutAtSpaces language words = 0).card = 1 := by
    decide +kernel
  have hnumbers : ∀ language ∈ bilingual.config.languages, ∀ st,
      (∃ src, Sources.Of citiesCorpus citiesAnchors language src ∧
        src.Accounts cutAtSpaces language st) →
      (st.anchors, st.subgrams, st.documents, st.inserted, st.misses) = (2, 3, 2, 2, 1) := by
    rintro language hmem st ⟨src, hsrc, haccounts⟩
    obtain rfl := hof language src hsrc
    obtain ⟨hanchors, hsubgrams, hinserted, hmisses⟩ := hcards language hmem
    rw [haccounts.anchors, haccounts.subgrams, haccounts.documents, haccounts.inserted,
      haccounts.misses, hanchors, hsubgrams, hinserted, hmisses]
    rfl
  cases haccounts with
  | cons hen hrest =>
  cases hrest with
  | cons hde hnil =>
  cases hnil
  have hfirst := hnumbers ⟨"en"⟩ (by decide) _ hen
  have hsecond := hnumbers ⟨"de"⟩ (by decide) _ hde
  refine ⟨.empty 0, hphrases, _, e', s', store, h, ?_, hstore, ?_⟩
  · rw [List.map_cons, List.map_cons, hfirst, hsecond]
    rfl
  · simp only [Prod.mk.injEq] at hfirst hsecond
    rw [hsize (by rfl)]
    simp [hfirst, hsecond]

theorem keys_leftBehind : (earlier leftBehind.disk beyond).keys.toFinset = {"en:old"} := by
  obtain ⟨old, hleftover, hshows⟩ := leftover?_beyond
  ext key
  rw [earlier_of_some hleftover, List.mem_toFinset, KeyValueStore.mem_keys_iff,
    hshows.answersBy_assignments.contains, KeyValueStore.assignments, List.map_singleton,
    History.latest_singleton, Finset.mem_singleton]
  by_cases hkey : key = "en:old" <;> simp [hkey]

/-- One phrase with links is written, which begins itself, and yet the store has three keys: the
third one stood in the staging directory before. -/
theorem stats_of_build_beyond :
    leftBehind.disk.WellFormed ∧
    (english beyond).Unmistakable (englishCorpus newPhrase) (englishAnchors newPhrase) ∧
    ∃ stats e' s' store, ((english beyond).build (englishCorpus newPhrase)
        (englishAnchors newPhrase)).run leftBehind = ((.ok stats, e'), s') ∧
      e'.store = some store ∧ (stats.map fun stats => stats.inserted + stats.subgrams).sum = 2 ∧
      store.size = 3 := by
  have hof : ∀ language src, Sources.Of (englishCorpus newPhrase) (englishAnchors newPhrase)
      language src → src = newPhrase := fun language src hof => hof.unique ⟨rfl, rfl, rfl⟩
  have hphrases : (english beyond).Unmistakable (englishCorpus newPhrase)
      (englishAnchors newPhrase) :=
    unmistakable_of_windows (fun _ => newPhrase) hof (by decide) faithful_newPhrase.codable
      spaceless_cutAtSpaces (by decide +kernel)
  obtain ⟨stats, e', s', h⟩ := build_english_succeeds newPhrase beyond [] (s := leftBehind) rfl
    (by decide +kernel) (by decide +kernel)
  have haccounts := accounts_of_build wellFormed_leftBehind hphrases h
  obtain ⟨store, written, hstore, hwritten, hsize⟩ :=
    size_of_build wellFormed_leftBehind hphrases h
  have hsum : (stats.map fun stats => stats.inserted + stats.subgrams).sum = 2 := by
    cases haccounts with
    | cons hen hnil =>
    cases hnil
    obtain ⟨src, hsrc, haccounts⟩ := hen
    obtain rfl := hof _ src hsrc
    rw [List.map_singleton, List.sum_singleton, haccounts.inserted, haccounts.subgrams]
    decide +kernel
  have hold : "en:old" ∉ written := by
    rw [hwritten]
    rintro ⟨language, hlanguage, src, hsrc, hkey⟩
    rw [List.mem_singleton.mp hlanguage, hof language src hsrc] at hkey
    exact absurd hkey (by decide +kernel)
  refine ⟨wellFormed_leftBehind, hphrases, stats, e', s', store, h, hstore, hsum, ?_⟩
  rw [hsize, hsum, show (english beyond).config.path = beyond from rfl, keys_leftBehind,
    Finset.sdiff_eq_self_of_disjoint (Finset.disjoint_singleton_left.mpr hold),
    Finset.card_singleton]

end Estimator
end Relatedness
