import Relatedness.Proofs.KeyValue.Runs
import Relatedness.Proofs.LinkProbability.Key
import Relatedness.Proofs.LinkProbability.Links
import Relatedness.Proofs.LinkProbability.Scan

/-! What building one language writes. Under the key of a phrase that has links stands their
number over the number of its occurrences, smoothed, and under no other key of a phrase stands
anything. -/

namespace Relatedness.LinkProbability

/-- What the sources give for a language. -/
structure Sources where
  phrases : List String
  documents : List (Except Error Document)
  pairs : List (String × UInt64)

namespace Sources

/-- These are the answers of the sources to the requests for a language. -/
structure Of (corpus : Corpus) (anchors : AnchorSource) (language : Language) (src : Sources) :
    Prop where
  phrases : anchors.phrases language = .ok src.phrases
  documents : corpus.documents language = .ok src.documents
  pairs : anchors.phraseCounts language = .ok src.pairs

theorem Of.unique {corpus : Corpus} {anchors : AnchorSource} {language : Language}
    {src src' : Sources} (h : Of corpus anchors language src)
    (h' : Of corpus anchors language src') : src = src' := by
  obtain ⟨hphrases, hdocuments, hpairs⟩ := h
  cases src'
  rw [h'.phrases] at hphrases
  rw [h'.documents] at hdocuments
  rw [h'.pairs] at hpairs
  cases hphrases
  cases hdocuments
  cases hpairs
  rfl

variable (src : Sources) (t : TextAnalysis) (language : Language)

/-- The word lists of the texts that have links. -/
def linked : List (List String) := t.wordLists language (src.pairs.map Prod.fst)

/-- The number of links of a phrase: of all texts with links that are cut into its words. -/
def allLinks (words : List String) : Nat :=
  ((src.pairs.filter fun p => t.words language p.1 = words).map fun p => p.2.toNat).sum

/-- The number of links of a phrase as it is counted in a word of eight bytes. -/
def links (words : List String) : Nat := src.allLinks t language words % 2 ^ 64

/-- How often an anchor phrase occurs in the text, zero for any other phrase. -/
def occurrences (words : List String) : Nat :=
  if words ∈ t.wordLists language src.phrases then
    Occurrences.inSentences words (sentencesOf t language src.documents)
  else 0

/-- The link probability of a phrase, if it has links: their number over that of its occurrences,
to which the smoothing is added. -/
def estimate? (smoothing : Binary64) (words : List String) : Option Binary64 :=
  if words ∈ src.linked t language then
    some (.ofNat (src.links t language words) /
      (.ofNat (src.occurrences t language words) + smoothing))
  else none

/-- No two of the phrases that meet in the build have one hash. -/
def Distinct : Prop :=
  Set.InjOn (Phrase.hash language)
    (Occurrences.compared (t.wordLists language src.phrases)
      (sentencesOf t language src.documents) ∪ {words | words ∈ src.linked t language})

/-- The phrases that meet in the build, one by one. -/
def windows : List (List String) :=
  Occurrences.windows (t.wordLists language src.phrases ++ src.linked t language)
    (sentencesOf t language src.documents)

variable {src t language} in
theorem mem_windows_of_involved {words : List String}
    (h : words ∈ Occurrences.compared (t.wordLists language src.phrases)
      (sentencesOf t language src.documents) ∪ {words | words ∈ src.linked t language}) :
    words ∈ src.windows t language := by
  refine Occurrences.mem_windows_of_compared ?_
  rcases h with ⟨hne, h⟩ | h
  · refine ⟨hne, h.imp_left fun ⟨w, hw, hbegins⟩ => ⟨w, List.mem_append_left _ hw, hbegins⟩⟩
  · exact ⟨(TextAnalysis.mem_wordLists.mp h).1,
      .inl ⟨words, List.mem_append_right _ h, List.prefix_rfl⟩⟩

/-- That no two phrases of a build have one hash can be computed. -/
theorem distinct_of_windows
    (h : ∀ u ∈ src.windows t language, ∀ v ∈ src.windows t language,
      Phrase.hash language u = Phrase.hash language v → u = v) : src.Distinct t language :=
  fun u hu v hv => h u (mem_windows_of_involved hu) v (mem_windows_of_involved hv)

/-- What is written for a language whose phrases have these counts. -/
def puts (smoothing : Binary64) (counter : PhraseCounter) : List (String × Binary64) :=
  (probabilities smoothing (LinkCounts.ofPairs t language src.pairs) counter).map
      (fun p => (StoredKey.ofPhrase language p.1, p.2)) ++
    (AnchorPhrases.ofPhrases t language src.phrases).subgrams.toList.map
      fun hash => (StoredKey.ofSubgram hash, subgramSentinel)

/-- What is reported of a language whose phrases have these counts. -/
def stats (smoothing : Binary64) (counter : PhraseCounter) (scanned : Nat) : BuildStats where
  language := language
  anchors := counter.size
  subgrams := (AnchorPhrases.ofPhrases t language src.phrases).subgrams.size
  documents := scanned
  inserted := (probabilities smoothing (LinkCounts.ofPairs t language src.pairs) counter).length
  misses := ((LinkCounts.ofPairs t language src.pairs).phrases.filter
    fun p => counter.count p.1 == 0).length
  meanProbability :=
    mean ((probabilities smoothing (LinkCounts.ofPairs t language src.pairs) counter).map Prod.snd)

end Sources

theorem length_encode (x : Binary64) : (Storable.encode x).length < KeyValue.valueLimit :=
  (KeyValue.readable_binary64 x).length_lt

/-- What is written for a language: from its sources, with the counts of a scan of its
documents. -/
def Written (config : LinkProbabilityConfig) (t : TextAnalysis) (corpus : Corpus)
    (anchors : AnchorSource) (language : Language) (puts : List (String × Binary64)) : Prop :=
  ∃ src counter scanned, Sources.Of corpus anchors language src ∧
    Scans t config.batchSize language (AnchorPhrases.ofPhrases t language src.phrases).subgrams
      (AnchorPhrases.ofPhrases t language src.phrases).counter 0 src.documents counter scanned ∧
    puts = src.puts t language config.smoothing counter

/-- What is reported of a language together with what is written for it, both from its sources and
the counts of one scan. -/
def Reported (config : LinkProbabilityConfig) (t : TextAnalysis) (corpus : Corpus)
    (anchors : AnchorSource) (language : Language)
    (report : BuildStats × List (String × Binary64)) : Prop :=
  ∃ src counter scanned, Sources.Of corpus anchors language src ∧
    Scans t config.batchSize language (AnchorPhrases.ofPhrases t language src.phrases).subgrams
      (AnchorPhrases.ofPhrases t language src.phrases).counter 0 src.documents counter scanned ∧
    report = (src.stats t language config.smoothing counter scanned,
      src.puts t language config.smoothing counter)

theorem Reported.written {config : LinkProbabilityConfig} {t : TextAnalysis} {corpus : Corpus}
    {anchors : AnchorSource} {language : Language} {report : BuildStats × List (String × Binary64)}
    (h : Reported config t corpus anchors language report) :
    Written config t corpus anchors language report.2 := by
  obtain ⟨src, counter, scanned, hof, hscans, rfl⟩ := h
  exact ⟨src, counter, scanned, hof, hscans, rfl⟩

theorem buildLanguage_reports {config : LinkProbabilityConfig} {t : TextAnalysis}
    {corpus : Corpus} {anchors : AnchorSource} {store store' : KeyValueStore Binary64}
    {language : Language} {stats : BuildStats} {s s' : Session}
    (h : Succeeds (buildLanguage config t corpus anchors store language) s (stats, store') s') :
    ∃ puts, Reported config t corpus anchors language (stats, puts) ∧
      store.Writes s.disk puts store' s'.disk := by
  simp only [buildLanguage, succeeds_bind, Action.succeeds_ofExcept, Action.succeeds_log] at h
  obtain ⟨phrases, start, ⟨hphrases, rfl⟩, _, _, rfl, _, _, rfl, documents, _, ⟨hdocuments, rfl⟩,
    ⟨counter, scanned⟩, _, hscan, pairs, u, ⟨hpairs, rfl⟩, mid, v, hfirst, last, w, hsecond,
    hrest⟩ := h
  have hof : Sources.Of corpus anchors language ⟨phrases, documents, pairs⟩ :=
    ⟨hphrases, hdocuments, hpairs⟩
  have hend : stats = Sources.stats ⟨phrases, documents, pairs⟩ t language config.smoothing counter
      scanned ∧ store' = last ∧ s'.disk = w.disk := by
    split at hrest
    · simp only [succeeds_pure, Prod.mk.injEq] at hrest
      obtain ⟨⟨rfl, rfl⟩, rfl⟩ := hrest
      exact ⟨rfl, rfl, rfl⟩
    · simp only [succeeds_bind, Action.succeeds_log, succeeds_pure, Prod.mk.injEq] at hrest
      obtain ⟨_, _, rfl, ⟨rfl, rfl⟩, rfl⟩ := hrest
      exact ⟨rfl, rfl, rfl⟩
  obtain ⟨rfl, rfl, hdisk⟩ := hend
  have hscanned : u.disk = start.disk :=
    (keeps_scanBatches start.disk _ _ _).succeeds hscan (by simp only [Session.disk_record])
  have hphrasePuts := KeyValueStore.Writes.foldlM
    (probabilities config.smoothing (LinkCounts.ofPairs t language pairs) counter)
    (fun p => StoredKey.ofPhrase language p.1) Prod.snd (fun p _ => length_encode (Prod.snd p))
    hfirst
  have hsubgramPuts := KeyValueStore.Writes.foldlM
    (AnchorPhrases.ofPhrases t language phrases).subgrams.toList StoredKey.ofSubgram
    (fun _ => subgramSentinel) (fun _ _ => length_encode subgramSentinel) hsecond
  have hwrites := hphrasePuts.trans hsubgramPuts
  rw [hscanned, ← hdisk] at hwrites
  exact ⟨_, ⟨_, counter, scanned, hof, Scans.of_scanBatches hscan, rfl⟩, hwrites⟩

namespace Sources

variable {src : Sources} {t : TextAnalysis} {language : Language} {counter : PhraseCounter}

/-- The counts that a scan leaves are the numbers of occurrences, also of phrases that are no
anchor phrases. -/
theorem count_eq_occurrences {scanned : Nat} (hdistinct : src.Distinct t language)
    (hcounted : Counted t language src.phrases src.documents counter scanned) {w : List String}
    (hw : w ∈ src.linked t language) :
    counter.count (Phrase.hash language w) = src.occurrences t language w := by
  unfold occurrences
  split
  · rename_i hanchor
    exact hcounted.count_eq w hanchor
  · rename_i hanchor
    refine PhraseCounter.count_of_not_tracked _ _ (Bool.eq_false_iff.mpr fun htracked => ?_)
    obtain ⟨v, hv, heq⟩ := (hcounted.tracked_iff _).mp htracked
    have hcompared : v ∈ Occurrences.compared (t.wordLists language src.phrases)
        (sentencesOf t language src.documents) :=
      ⟨(TextAnalysis.mem_wordLists.mp hv).1, .inl ⟨v, hv, List.prefix_rfl⟩⟩
    exact hanchor (hdistinct (.inl hcompared) (.inr hw) heq ▸ hv)

/-- The phrases that are written are phrases with links. -/
theorem mem_probabilities {smoothing : Binary64} {w : List String} {p : Binary64}
    (h : (w, p) ∈ probabilities smoothing (LinkCounts.ofPairs t language src.pairs) counter) :
    w ∈ src.linked t language ∧
      p = probability smoothing
        ((LinkCounts.ofPairs t language src.pairs).total (Phrase.hash language w)).toNat
        (counter.count (Phrase.hash language w)) := by
  rw [probabilities, List.mem_map] at h
  obtain ⟨⟨hash, v⟩, hphrase, heq⟩ := h
  cases heq
  obtain ⟨hlist, rfl⟩ := (LinkCounts.represents_ofPairs t language src.pairs).phrases hphrase
  exact ⟨hlist, rfl⟩

/-- Where no two phrases have one hash, all phrases with links are written. -/
theorem mem_probabilities_iff (hdistinct : src.Distinct t language) {smoothing : Binary64}
    {w : List String} {p : Binary64} :
    (w, p) ∈ probabilities smoothing (LinkCounts.ofPairs t language src.pairs) counter ↔
      w ∈ src.linked t language ∧
        p = probability smoothing (src.links t language w)
          (counter.count (Phrase.hash language w)) := by
  have hlinked : Set.InjOn (Phrase.hash language)
      {v | v ∈ t.wordLists language (src.pairs.map Prod.fst)} := hdistinct.mono fun _ => .inr
  constructor
  · intro h
    obtain ⟨hlist, rfl⟩ := mem_probabilities h
    rw [LinkCounts.toNat_total_ofPairs hlinked hlist]
    exact ⟨hlist, rfl⟩
  · rintro ⟨hlist, rfl⟩
    refine List.mem_map.mpr ⟨_, LinkCounts.mem_phrases_ofPairs hlinked hlist, ?_⟩
    change (_, probability smoothing (LinkCounts.total _ _).toNat _) = _
    rw [LinkCounts.toNat_total_ofPairs hlinked hlist]
    rfl

/-- The keys of phrases are written with the values of these phrases, where the keys tell the
phrases. -/
theorem mem_puts_ofPhrase_iff (smoothing : Binary64) (counter : PhraseCounter)
    (hkeys : ∀ v ∈ src.linked t language, StoredKey.Separable language v) {language' : Language}
    {w : List String} (hw : StoredKey.Separable language' w) {p : Binary64} :
    (StoredKey.ofPhrase language' w, p) ∈ src.puts t language smoothing counter ↔
      language' = language ∧
        (w, p) ∈ probabilities smoothing (LinkCounts.ofPairs t language src.pairs) counter := by
  rw [puts, List.mem_append, List.mem_map, List.mem_map]
  constructor
  · rintro (⟨⟨v, q⟩, hmem, heq⟩ | ⟨hash, _, heq⟩)
    · obtain ⟨hkey, rfl⟩ := Prod.mk.inj heq
      obtain ⟨rfl, rfl⟩ := (hkeys v (mem_probabilities hmem).1).inj hw hkey
      exact ⟨rfl, hmem⟩
    · exact absurd (congrArg Prod.fst heq) (hw.ofSubgram_ne hash)
  · rintro ⟨rfl, hmem⟩
    exact .inl ⟨_, hmem, rfl⟩

/-- The keys of subgrams are written for the beginnings of anchor phrases. -/
theorem mem_puts_ofSubgram_iff (smoothing : Binary64) (counter : PhraseCounter)
    (hkeys : ∀ v ∈ src.linked t language, StoredKey.Separable language v) {hash : UInt64}
    {p : Binary64} :
    (StoredKey.ofSubgram hash, p) ∈ src.puts t language smoothing counter ↔
      (AnchorPhrases.ofPhrases t language src.phrases).subgrams.contains hash = true ∧
        p = subgramSentinel := by
  rw [puts, List.mem_append, List.mem_map, List.mem_map]
  constructor
  · rintro (⟨⟨v, q⟩, hmem, heq⟩ | ⟨other, hmem, heq⟩)
    · exact absurd (congrArg Prod.fst heq.symm)
        ((hkeys v (mem_probabilities hmem).1).ofSubgram_ne hash)
    · obtain ⟨hkey, rfl⟩ := Prod.mk.inj heq
      obtain rfl := StoredKey.ofSubgram_inj hkey
      exact ⟨Std.TreeSet.mem_toList.mp hmem, rfl⟩
  · rintro ⟨hmem, rfl⟩
    exact .inr ⟨hash, Std.TreeSet.mem_toList.mpr hmem, rfl⟩

/-- What a language writes under the key of a phrase with links. -/
theorem mem_puts_iff (smoothing : Binary64) (counter : PhraseCounter)
    (hdistinct : src.Distinct t language) (hlanguage : language.Codable)
    {language' : Language} (hlanguage' : language'.Codable)
    (hspace : ∀ text, ∀ word ∈ t.words language text, ' ' ∉ word.toList)
    {w : List String} (hne : w ≠ []) (hw : ∀ word ∈ w, ' ' ∉ word.toList) {p : Binary64} :
    (StoredKey.ofPhrase language' w, p) ∈ src.puts t language smoothing counter ↔
      language' = language ∧ w ∈ src.linked t language ∧
        p = probability smoothing (src.links t language w)
          (counter.count (Phrase.hash language w)) := by
  have hkeys : ∀ v ∈ src.linked t language, StoredKey.Separable language v := by
    intro v hv
    obtain ⟨hne, text, _, rfl⟩ := TextAnalysis.mem_wordLists.mp hv
    exact .of_codable hlanguage hne (hspace text)
  rw [mem_puts_ofPhrase_iff smoothing counter hkeys (.of_codable hlanguage' hne hw),
    mem_probabilities_iff hdistinct]

/-- Under the key of a phrase a language writes its link probability, and the keys of other
languages it leaves alone. -/
theorem latest_puts (smoothing : Binary64) {scanned : Nat} (hdistinct : src.Distinct t language)
    (hcounted : Counted t language src.phrases src.documents counter scanned)
    (hlanguage : language.Codable) {language' : Language} (hlanguage' : language'.Codable)
    (hspace : ∀ text, ∀ word ∈ t.words language text, ' ' ∉ word.toList)
    {w : List String} (hne : w ≠ []) (hw : ∀ word ∈ w, ' ' ∉ word.toList) :
    History.latest (src.puts t language smoothing counter) (StoredKey.ofPhrase language' w) =
      if language' = language then src.estimate? t language smoothing w else none := by
  have hputs := fun p => mem_puts_iff smoothing counter hdistinct hlanguage hlanguage' hspace hne hw
    (p := p)
  by_cases hwritten : language' = language ∧ w ∈ src.linked t language
  · obtain ⟨rfl, hlist⟩ := hwritten
    rw [if_pos rfl, estimate?, if_pos hlist,
      ← count_eq_occurrences hdistinct hcounted hlist]
    refine History.latest_eq_some ((hputs _).mpr ⟨rfl, hlist, rfl⟩) ?_
    rintro ⟨key, p⟩ hmem rfl
    exact ((hputs p).mp hmem).2.2
  · have hnone : (if language' = language then src.estimate? t language smoothing w else none) =
        none := by
      split
      · rename_i heq
        rw [estimate?, if_neg fun hlist => hwritten ⟨heq, hlist⟩]
      · rfl
    rw [hnone, History.latest_eq_none_iff]
    rintro ⟨key, p⟩ hmem rfl
    obtain ⟨heq, hlist, _⟩ := (hputs p).mp hmem
    exact hwritten ⟨heq, hlist⟩

end Sources

end Relatedness.LinkProbability
