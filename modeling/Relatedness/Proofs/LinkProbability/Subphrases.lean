import Relatedness.Proofs.LinkProbability.Answers
import Relatedness.Proofs.LinkProbability.Stored

/-! Beginnings of anchor phrases. Their hashes are stored phrase by phrase and word by word, and a
query hashes all words of a phrase at once. After a build exactly the beginnings of anchor phrases
and the phrases with links are found, unless other ones were left over in the staging directory. -/

namespace Relatedness

open LinkProbability KeyValue

namespace LinkProbability

namespace Sources

variable (src : Sources) (t : TextAnalysis) (language : Language)

/-- The words begin an anchor phrase, or are those of a text with links. -/
def Subphrase (words : List String) : Prop :=
  words ≠ [] ∧ ((∃ text ∈ src.phrases, words <+: t.words language text) ∨
    ∃ pair ∈ src.pairs, t.words language pair.1 = words)

instance (words : List String) : Decidable (src.Subphrase t language words) :=
  inferInstanceAs (Decidable (_ ∧ _))

variable {src t language} {words : List String}

theorem subphrase_iff : src.Subphrase t language words ↔
    (words ≠ [] ∧ ∃ w ∈ t.wordLists language src.phrases, words <+: w) ∨
      words ∈ src.linked t language := by
  unfold Subphrase linked
  rw [and_or_left]
  refine or_congr (and_congr_right fun hne => ?_) ?_
  · constructor
    · rintro ⟨text, htext, hbegins⟩
      have hwords : t.words language text ≠ [] := fun hnil =>
        hne (List.prefix_nil.mp (hnil ▸ hbegins))
      exact ⟨_, TextAnalysis.mem_wordLists.mpr ⟨hwords, text, htext, rfl⟩, hbegins⟩
    · rintro ⟨_, hlist, hbegins⟩
      obtain ⟨_, text, htext, rfl⟩ := TextAnalysis.mem_wordLists.mp hlist
      exact ⟨text, htext, hbegins⟩
  · simp [TextAnalysis.mem_wordLists]

theorem mem_windows_of_subphrase (h : src.Subphrase t language words) :
    words ∈ src.windows t language := by
  refine Occurrences.mem_windows_of_compared ⟨h.1, .inl ?_⟩
  rcases subphrase_iff.mp h with ⟨_, w, hw, hbegins⟩ | hlinked
  · exact ⟨w, List.mem_append_left _ hw, hbegins⟩
  · exact ⟨words, List.mem_append_right _ hlinked, List.prefix_rfl⟩

/-- Where the hash of the words is a subgram, a subphrase has it. -/
theorem exists_subphrase_of_contains {hash : UInt64}
    (h : (AnchorPhrases.ofPhrases t language src.phrases).subgrams.contains hash = true) :
    ∃ u, src.Subphrase t language u ∧ Phrase.hash language u = hash := by
  obtain ⟨w, hw, u, hne, hbegins, hhash⟩ := (AnchorPhrases.contains_ofPhrases _ _ _ _).mp h
  exact ⟨u, subphrase_iff.mpr (.inl ⟨hne, w, hw, hbegins⟩), hhash⟩

theorem contains_of_begins {text : String} (htext : text ∈ src.phrases) (hne : words ≠ [])
    (hbegins : words <+: t.words language text) :
    (AnchorPhrases.ofPhrases t language src.phrases).subgrams.contains
      (Phrase.hash language words) = true := by
  refine (AnchorPhrases.contains_ofPhrases _ _ _ _).mpr ⟨_, ?_, words, hne, hbegins, rfl⟩
  exact TextAnalysis.mem_wordLists.mpr
    ⟨fun hnil => hne (List.prefix_nil.mp (hnil ▸ hbegins)), text, htext, rfl⟩

end Sources

variable {config : LinkProbabilityConfig} {t : TextAnalysis} {corpus : Corpus}
  {anchors : AnchorSource} {languages : List Language} {language : Language} {words : List String}
  {putsOf : List (List (String × Binary64))}

/-- No subphrase of any language but this one of this language has its hash. -/
def Alone (t : TextAnalysis) (corpus : Corpus) (anchors : AnchorSource) (languages : List Language)
    (language : Language) (words : List String) : Prop :=
  ∀ language' ∈ languages, ∀ src, Sources.Of corpus anchors language' src →
    ∀ u, src.Subphrase t language' u → Phrase.hash language' u = Phrase.hash language words →
      language' = language ∧ u = words

/-- Whether one of the two keys of a phrase is written. -/
def writesSubphrase (puts : List (String × Binary64)) (language : Language)
    (words : List String) : Bool :=
  !words.isEmpty &&
    ((History.latest puts (StoredKey.ofSubgram (Phrase.hash language words))).isSome ||
      (History.latest puts (StoredKey.ofPhrase language words)).isSome)

/-- One of the keys of a phrase is written exactly if it is a subphrase of its language. -/
theorem writesSubphrase_iff (h : List.Forall₂ (Written config t corpus anchors) languages putsOf)
    (hlegible : Legible t corpus anchors languages)
    (hw : words ≠ [] → StoredKey.Separable language words)
    (halone : words ≠ [] → Alone t corpus anchors languages language words) :
    writesSubphrase putsOf.flatten language words = true ↔
      language ∈ languages ∧ ∃ src, Sources.Of corpus anchors language src ∧
        src.Subphrase t language words := by
  rw [writesSubphrase, Bool.and_eq_true, Bool.or_eq_true, Bool.not_eq_true',
    List.isEmpty_eq_false_iff, isSome_latest_ofSubgram h hlegible]
  constructor
  · rintro ⟨hne, ⟨language', hmem, src, hof, hcontains⟩ | hstored⟩
    · obtain ⟨u, hu, hhash⟩ := Sources.exists_subphrase_of_contains hcontains
      obtain ⟨rfl, rfl⟩ := halone hne language' hmem src hof u hu hhash
      exact ⟨hmem, src, hof, hu⟩
    · obtain ⟨hmem, src, hof, hphrase⟩ := (isSome_latest_ofPhrase h hlegible (hw hne)).mp hstored
      have hlinked := ((LinkCounts.represents_ofPairs t language src.pairs).phrases hphrase).1
      exact ⟨hmem, src, hof, Sources.subphrase_iff.mpr (.inr hlinked)⟩
  · rintro ⟨hmem, src, hof, hsubphrase⟩
    have hne := hsubphrase.1
    refine ⟨hne, ?_⟩
    rcases Sources.subphrase_iff.mp hsubphrase with ⟨_, w, hlist, hbegins⟩ | hlinked
    · obtain ⟨_, text, htext, rfl⟩ := TextAnalysis.mem_wordLists.mp hlist
      exact .inl ⟨language, hmem, src, hof, Sources.contains_of_begins htext hne hbegins⟩
    · -- of the texts with links that have one hash the first one is kept
      have hrepresents := LinkCounts.represents_ofPairs t language src.pairs
      obtain ⟨v, hv⟩ := hrepresents.exists_phrase (hrepresents.contains hlinked)
      obtain ⟨hlist, hhash⟩ := hrepresents.phrases hv
      obtain ⟨_, rfl⟩ := halone hne language hmem src hof v
        (Sources.subphrase_iff.mpr (.inr hlist)) hhash.symm
      exact .inr ((isSome_latest_ofPhrase h hlegible (hw hne)).mpr ⟨hmem, src, hof, hv⟩)

end LinkProbability

namespace Estimator

variable {e e' : Estimator} {corpus : Corpus} {anchors : AnchorSource} {workers : Workers}
  {stats : List BuildStats} {s s' : Session}

/-- Whether the store that is left over in the staging directory has one of the two keys of a
phrase. -/
def recallsSubphrase (e : Estimator) (fs : FileSystem) (language : Language)
    (words : List String) : Bool :=
  !words.isEmpty &&
    ((earlier fs e.config.path).contains (StoredKey.ofSubgram (Phrase.hash language words)) ||
      (earlier fs e.config.path).contains (StoredKey.ofPhrase language words))

/-- After a build a phrase is taken for a subphrase if one of its keys was written or left over. -/
theorem isSubphrase_after_build (hs : s.disk.WellFormed)
    (h : (e.build corpus anchors workers).run s = ((.ok stats, e'), s')) :
    ∃ putsOf, List.Forall₂ (Written e.config e.analysis corpus anchors) e.config.languages putsOf ∧
      ∀ language phrase normalize, e'.isSubphrase language phrase normalize =
        .ok (writesSubphrase putsOf.flatten language (e.analysis.clean language phrase normalize) ||
          e.recallsSubphrase s.disk language (e.analysis.clean language phrase normalize)) := by
  obtain ⟨store, entries, putsOf, rfl, _, hall, _, hrecalls⟩ := build_recalls hs h
  refine ⟨putsOf, hall, fun language phrase normalize => ?_⟩
  have hanalysis : Estimator.analysis { e.bare with store := some store } = e.analysis := rfl
  rw [isSubphrase_of_store rfl rfl, hanalysis, hrecalls.contains, hrecalls.contains]
  unfold writesSubphrase recallsSubphrase
  generalize e.analysis.clean language phrase normalize = words
  cases words with
  | nil => rfl
  | cons first rest =>
    have hregroup : ∀ a b c d : Bool, ((a || b) || (c || d)) = ((a || c) || (b || d)) := by decide
    rw [if_neg (List.cons_ne_nil first rest), List.isEmpty_cons, Bool.not_false, Bool.true_and,
      Bool.true_and, hregroup]

/-- After a build exactly those phrases are subphrases that begin an anchor phrase of their language
or are those of a text with links, and those that were left over in the staging directory. In a
language that was not built only the latter are. All beginnings of anchor phrases are found, whatever
else has their hashes. -/
theorem isSubphrase_of_build (hs : s.disk.WellFormed)
    (hcodes : ∀ language ∈ e.config.languages, language.Codable)
    (hspace : ∀ language text, ∀ word ∈ e.analysis.words language text, ' ' ∉ word.toList)
    (h : (e.build corpus anchors workers).run s = ((.ok stats, e'), s')) :
    (∀ language ∈ e.config.languages, ∃ src, Sources.Of corpus anchors language src ∧
      ∀ phrase normalize,
        let words := e.analysis.clean language phrase normalize
        ((words ≠ [] → Alone e.analysis corpus anchors e.config.languages language words) →
          e'.isSubphrase language phrase normalize =
            .ok (decide (src.Subphrase e.analysis language words) ||
              e.recallsSubphrase s.disk language words)) ∧
        ∀ text ∈ src.phrases, words ≠ [] → words <+: e.analysis.words language text →
          e'.isSubphrase language phrase normalize = .ok true) ∧
    (∀ language, language.Codable → language ∉ e.config.languages → ∀ phrase normalize,
      let words := e.analysis.clean language phrase normalize
      (words ≠ [] → Alone e.analysis corpus anchors e.config.languages language words) →
        e'.isSubphrase language phrase normalize =
          .ok (e.recallsSubphrase s.disk language words)) ∧
    (leftover? s.disk e.config.path = none →
      ∀ language words, e.recallsSubphrase s.disk language words = false) := by
  obtain ⟨putsOf, hall, hanswer⟩ := isSubphrase_after_build hs h
  have hlegible : Legible e.analysis corpus anchors e.config.languages := .of_codable hcodes hspace
  have hwritten : ∀ language, language.Codable → ∀ phrase normalize,
      let words := e.analysis.clean language phrase normalize
      (words ≠ [] → Alone e.analysis corpus anchors e.config.languages language words) →
        (writesSubphrase putsOf.flatten language words = true ↔
          language ∈ e.config.languages ∧ ∃ src, Sources.Of corpus anchors language src ∧
            src.Subphrase e.analysis language words) :=
    fun language hcode _ _ => writesSubphrase_iff hall hlegible
      fun hne => .of_codable hcode hne (hspace language _)
  refine ⟨fun language hmem => ?_, fun language hcode hnot phrase normalize => ?_,
    fun hnone language words => ?_⟩
  · obtain ⟨src, hof⟩ := exists_of_written hall hmem
    refine ⟨src, hof, fun phrase normalize => ⟨fun halone => ?_, fun text htext hne hbegins => ?_⟩⟩
    · rw [hanswer, show writesSubphrase _ _ _ = decide (src.Subphrase _ _ _) from ?_]
      rw [Bool.eq_iff_iff, hwritten language (hcodes language hmem) phrase normalize halone,
        decide_eq_true_iff]
      constructor
      · rintro ⟨_, src', hof', hsubphrase⟩
        rwa [hof.unique hof']
      · exact fun hsubphrase => ⟨hmem, src, hof, hsubphrase⟩
    · rw [hanswer, writesSubphrase, (isSome_latest_ofSubgram hall hlegible _).mpr
        ⟨language, hmem, src, hof, Sources.contains_of_begins htext hne hbegins⟩]
      simp [hne]
  · intro words halone
    rw [hanswer, Bool.eq_false_iff.mpr fun hstored => hnot
      ((hwritten language hcode phrase normalize halone).mp hstored).1, Bool.false_or]
  · unfold recallsSubphrase
    rw [contains_earlier_of_none hnone, contains_earlier_of_none hnone, Bool.or_false,
      Bool.and_false]

/-- That no subphrase has the hash of another phrase can be computed. -/
theorem alone_english {src : Sources} {language : Language} {words : List String}
    (h : ∀ u ∈ src.windows cutAtSpaces ⟨"en"⟩,
      Phrase.hash ⟨"en"⟩ u = Phrase.hash language words → ⟨"en"⟩ = language ∧ u = words) :
    Alone cutAtSpaces (englishCorpus src) (englishAnchors src) [⟨"en"⟩] language words := by
  intro language' hmem src' hof u hu
  obtain rfl := List.mem_singleton.mp hmem
  obtain rfl : src' = src := hof.unique ⟨rfl, rfl, rfl⟩
  exact h u (Sources.mem_windows_of_subphrase hu)

theorem isSubphrase_of_build_newYork :
    ∃ stats e' s', ((english ⟨false, ["lp"]⟩).build (englishCorpus newYork)
        (englishAnchors newYork)).run ⟨.empty 0, []⟩ = ((.ok stats, e'), s') ∧
      e'.isSubphrase ⟨"en"⟩ "new york" true = .ok true ∧
      e'.isSubphrase ⟨"en"⟩ "new" true = .ok true ∧
      e'.isSubphrase ⟨"en"⟩ "york" true = .ok false ∧
      e'.isSubphrase ⟨"de"⟩ "new" true = .ok false := by
  obtain ⟨stats, e', s', h⟩ := build_newYork_succeeds
  obtain ⟨hbuilt, hother, hleftover⟩ :=
    isSubphrase_of_build (.empty 0) faithful_newYork.codable faithful_newYork.spaceless h
  have hnone := hleftover (by rfl)
  obtain ⟨src, hof, hanswer⟩ := hbuilt ⟨"en"⟩ (by decide)
  obtain rfl : src = newYork := hof.unique ⟨rfl, rfl, rfl⟩
  refine ⟨stats, e', s', h, ?_, ?_, ?_, ?_⟩
  · rw [(hanswer "new york" true).1 fun _ => alone_english (by decide), hnone]
    exact congrArg Except.ok (by decide)
  · exact (hanswer "new" true).2 "new york" (by decide) (by decide) (by decide)
  · rw [(hanswer "york" true).1 fun _ => alone_english (by decide), hnone]
    exact congrArg Except.ok (by decide)
  · rw [hother ⟨"de"⟩ ⟨by decide, by decide⟩ (by decide) "new" true fun _ =>
      alone_english (by decide), hnone]

/-- What is left over from another build is taken for a subphrase although nothing begins with it
any more. -/
theorem isSubphrase_of_build_beyond :
    leftBehind.disk.WellFormed ∧
    (english beyond).Faithful (englishCorpus newPhrase) (englishAnchors newPhrase) ∧
    Alone cutAtSpaces (englishCorpus newPhrase) (englishAnchors newPhrase) [⟨"en"⟩] ⟨"en"⟩
      (cutAtSpaces.clean ⟨"en"⟩ "old" true) ∧
    ¬newPhrase.Subphrase cutAtSpaces ⟨"en"⟩ (cutAtSpaces.clean ⟨"en"⟩ "old" true) ∧
    ∃ stats e' s', ((english beyond).build (englishCorpus newPhrase)
        (englishAnchors newPhrase)).run leftBehind = ((.ok stats, e'), s') ∧
      e'.isSubphrase ⟨"en"⟩ "old" true = .ok true := by
  refine ⟨wellFormed_leftBehind, faithful_newPhrase, alone_english (by decide), by decide, ?_⟩
  obtain ⟨stats, e', s', h⟩ := build_english_succeeds newPhrase beyond [] (s := leftBehind) rfl
    (by decide) (by decide +kernel)
  refine ⟨stats, e', s', h, ?_⟩
  obtain ⟨putsOf, _, hanswer⟩ := isSubphrase_after_build wellFormed_leftBehind h
  obtain ⟨old, hleftover, hshows⟩ := leftover?_beyond
  have hcontains : old.contains "en:old" = true := by
    rw [hshows.answersBy_assignments.contains]
    rfl
  have hearlier : earlier leftBehind.disk (english beyond).config.path = old :=
    earlier_of_some hleftover
  have hwords : cutAtSpaces.clean ⟨"en"⟩ "old" true = ["old"] := by decide
  have hkey : StoredKey.ofPhrase ⟨"en"⟩ ["old"] = "en:old" := by decide
  rw [hanswer, recallsSubphrase, hearlier, show (english beyond).analysis = cutAtSpaces from rfl,
    hwords, hkey, hcontains, Bool.or_true, List.isEmpty_cons, Bool.not_false, Bool.and_true,
    Bool.or_true]

end Estimator
end Relatedness
