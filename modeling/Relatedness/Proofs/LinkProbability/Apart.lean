import Relatedness.Proofs.LinkProbability.Cached

/-! Keys that keep languages and phrases apart. Codes and words go into the keys as they are, so a
phrase is read back from its key where no word has a space, the code has no colon, and a phrase of
the language with the empty code does not look like a subgram; everywhere else it is not. Phrases
that are read back do not write over one another, nor does the copy take one for another. -/

namespace Relatedness

open LinkProbability KeyValue

namespace Estimator

variable {e e' : Estimator} {corpus : Corpus} {anchors : AnchorSource} {workers : Workers}
  {stats : List BuildStats} {s s' : Session}

/-- A build leaves a store in which each phrase is found with what was written for it. Unless
something untidy was left over, the copy agrees with it on the phrases that can be told from their
keys. -/
def KeepsApart (e e' : Estimator) (corpus : Corpus) (anchors : AnchorSource) (s s' : Session) :
    Prop :=
  ∃ store, e'.store = some store ∧
    (∀ language ∈ e.config.languages, ∃ src counter scanned,
      Sources.Of corpus anchors language src ∧
      Scans e.analysis e.config.batchSize language
        (AnchorPhrases.ofPhrases e.analysis language src.phrases).subgrams
        (AnchorPhrases.ofPhrases e.analysis language src.phrases).counter 0 src.documents
        counter scanned ∧
      ∀ words p, (words, p) ∈ probabilities e.config.smoothing
          (LinkCounts.ofPairs e.analysis language src.pairs) counter →
        store.get? s'.disk (StoredKey.ofPhrase language words) = .ok (some p)) ∧
    ((∀ old, leftover? s.disk e.config.path = some old → old.Tidy s.disk) →
      e'.AgreesWithCopy s' fun language words =>
        StoredKey.Separable language words ∧ store.Undisturbed s'.disk language words)

theorem keepsApart_of_build (hs : s.disk.WellFormed)
    (hlegible : Legible e.analysis corpus anchors e.config.languages)
    (h : (e.build corpus anchors workers).run s = ((.ok stats, e'), s')) :
    e.KeepsApart e' corpus anchors s s' := by
  obtain ⟨store, entries, putsOf, rfl, _, hall, hshows, hrecalls⟩ := build_recalls hs h
  refine ⟨store, rfl, fun language hmem => ?_, fun hleftover => ?_⟩
  · obtain ⟨src, counter, scanned, hof, hscans, hlatest⟩ :=
      latest_of_probabilities hall (one_le_batchSize (build_eq_ok h).1) hlegible hmem
    refine ⟨src, counter, scanned, hof, hscans, fun words p hp => ?_⟩
    rw [hrecalls.get, hlatest words p hp]
  · exact agreesWithCopy rfl rfl hshows
      (tidy_of_build hall hlegible hrecalls (tidy_earlier hleftover))

/-- A phrase can be told from its key exactly if it is read back from it, and every subgram is. Such
phrases have keys of their own, which are none of subgrams, the copy files each under its own hash,
and a build keeps them apart. -/
theorem keys_apart (language : Language) (words : List String) (hash : UInt64) :
    (StoredKey.parse (StoredKey.ofPhrase language words) = .phrase language words ↔
      StoredKey.Separable language words) ∧
    StoredKey.parse (StoredKey.ofSubgram hash) = .subgram hash ∧
    (∀ (c : ProbabilityCache) value (s : Session),
      Succeeds (c.add (StoredKey.ofSubgram hash) value) s
        { c with subgrams := c.subgrams.insert hash } s) ∧
    (StoredKey.Separable language words →
      StoredKey.ofPhrase language words ≠ StoredKey.ofSubgram hash ∧
      (∀ language' words', StoredKey.Separable language' words' →
        StoredKey.ofPhrase language words = StoredKey.ofPhrase language' words' →
          language = language' ∧ words = words') ∧
      ∀ (c : ProbabilityCache) value (s : Session),
        Succeeds (c.add (StoredKey.ofPhrase language words) value) s
          { c with probabilities := c.probabilities.insert (Phrase.hash language words) value }
          s) ∧
    ∀ (e e' : Estimator) corpus anchors (workers : Workers) stats (s s' : Session),
      s.disk.WellFormed →
      Legible e.analysis corpus anchors e.config.languages →
      (e.build corpus anchors workers).run s = ((.ok stats, e'), s') →
      e.KeepsApart e' corpus anchors s s' := by
  refine ⟨StoredKey.parse_eq_phrase_iff.trans (and_iff_right rfl), StoredKey.parse_ofSubgram hash,
    fun c value s => ProbabilityCache.succeeds_add_ofSubgram hash value, fun hw => ⟨?_, ?_, ?_⟩,
    fun e e' corpus anchors workers stats s s' hs hlegible h => keepsApart_of_build hs hlegible h⟩
  · exact (hw.ofSubgram_ne hash).symm
  · exact fun language' words' hw' => hw.inj hw'
  · exact fun c value s => ProbabilityCache.succeeds_add_ofPhrase hw value

theorem separable_newYork : StoredKey.Separable ⟨"en"⟩ ["new", "york"] :=
  ⟨by decide, by decide, by decide, by decide⟩

theorem keys_apart_newYork :
    StoredKey.parse "en:new york" = .phrase ⟨"en"⟩ ["new", "york"] ∧
    "en:new york" ≠ StoredKey.ofSubgram 5 ∧
    ∃ stats e' s' store cached t, ((english ⟨false, ["lp"]⟩).build (englishCorpus newYork)
        (englishAnchors newYork)).run ⟨.empty 0, []⟩ = ((.ok stats, e'), s') ∧
      e'.store = some store ∧
      store.get? s'.disk "en:new york" =
        .ok (some (LinkProbability.probability (.ofNat 3) 5 2)) ∧
      Succeeds (e'.useCache true) s' cached t ∧
      cached.probability t.disk ⟨"en"⟩ "new york" true =
        e'.probability s'.disk ⟨"en"⟩ "new york" true := by
  obtain ⟨hparse, _, _, hphrase, hbuilds⟩ := keys_apart ⟨"en"⟩ ["new", "york"] 5
  have hkey : StoredKey.ofPhrase ⟨"en"⟩ ["new", "york"] = "en:new york" := by decide
  have hread := hparse.mpr separable_newYork
  have hmarked := (hphrase separable_newYork).1
  rw [hkey] at hread hmarked
  refine ⟨hread, hmarked, ?_⟩
  obtain ⟨stats, e', s', h⟩ := build_newYork_succeeds
  have hfaithful := faithful_newYork
  have hnone : leftover? (FileSystem.empty 0) (english ⟨false, ["lp"]⟩).config.path = none := rfl
  obtain ⟨store, hstore, hstored, hagrees⟩ := hbuilds _ e' _ _ _ stats ⟨.empty 0, []⟩ s' (.empty 0)
    (.of_codable hfaithful.codable hfaithful.spaceless) h
  obtain ⟨src, counter, scanned, hof, hscans, hfound⟩ := hstored ⟨"en"⟩ (by decide)
  obtain rfl : src = newYork := hof.unique ⟨rfl, rfl, rfl⟩
  have hdistinct := hfaithful.distinct ⟨"en"⟩ (by decide) newYork hof
  have hlinked : ["new", "york"] ∈ newYork.linked cutAtSpaces ⟨"en"⟩ := by decide
  have hcount : counter.count (Phrase.hash ⟨"en"⟩ ["new", "york"]) = 2 := by
    rw [Sources.count_eq_occurrences hdistinct
      (hscans.counted (by decide) (hdistinct.mono fun _ => .inl)) hlinked]
    decide
  have hvalue := hfound _ _ ((Sources.mem_probabilities_iff hdistinct).mpr ⟨hlinked, rfl⟩)
  rw [hkey, hcount, show newYork.links (english ⟨false, ["lp"]⟩).analysis ⟨"en"⟩
    ["new", "york"] = 5 by decide] at hvalue
  obtain ⟨cached, t, hcached, _, _, hagree⟩ := hagrees fun old hold => by
    cases hnone.symm.trans hold
  have hwords : e'.analysis.clean ⟨"en"⟩ "new york" true = ["new", "york"] := by
    rw [analysis_of_build h]
    decide
  refine ⟨stats, e', s', store, cached, t, h, hstore, hvalue, hcached, ?_⟩
  refine (hagree ⟨"en"⟩ "new york" true fun _ => ?_).1
  rw [hwords]
  exact ⟨separable_newYork, undisturbed_newYork h hstore⟩

/-! ## Phrases with one key -/

/-- Text is one sentence and is cut at its commas. -/
def cutAtCommas : TextAnalysis where
  sentences _ text := [text]
  words _ text := ((Text.splitAll ',' text.toList).filter (· ≠ [])).map String.ofList
  normalize _ text := text

/-- A phrase of one word with a space in it, and one of the two words around the space. -/
def hotDogs : Sources := ⟨["hot dog", "hot,dog"], [], [("hot dog", 3), ("hot,dog", 6)]⟩

/-- An estimator of English that cuts at commas and was not built. -/
def commas : Estimator := { english ⟨false, ["lp"]⟩ with analysis := cutAtCommas }

theorem separable_hotDog : StoredKey.Separable ⟨"en"⟩ ["hot", "dog"] :=
  ⟨by decide, by decide, by decide, by decide⟩

theorem key_hotDogs : ∀ w ∈ hotDogs.linked cutAtCommas ⟨"en"⟩,
    StoredKey.ofPhrase ⟨"en"⟩ w = "en:hot dog" := by
  decide

theorem distinct_hotDogs : hotDogs.Distinct cutAtCommas ⟨"en"⟩ :=
  hotDogs.distinct_of_windows cutAtCommas _ (by decide)

/-- Under the key of both phrases a value of one of them is written, and no key of another phrase is
written. -/
theorem written_hotDogs {putsOf : List (List (String × Binary64))}
    (h : List.Forall₂ (Written commas.config cutAtCommas (englishCorpus hotDogs)
      (englishAnchors hotDogs)) [⟨"en"⟩] putsOf) :
    (∃ p, History.latest putsOf.flatten "en:hot dog" = some p ∧ p ≠ 0 ∧
      p.same subgramSentinel = false) ∧
    ∀ key p, (key, p) ∈ putsOf.flatten →
      key = "en:hot dog" ∨ ∃ hash, key = StoredKey.ofSubgram hash := by
  have hdistinct := distinct_hotDogs
  cases h with
  | cons hwritten hrest =>
  cases hrest
  obtain ⟨src, counter, scanned, hof, hscans, rfl⟩ := hwritten
  obtain rfl : src = hotDogs := hof.unique ⟨rfl, rfl, rfl⟩
  rw [List.flatten_singleton]
  have hvalues : ∀ w p, (w, p) ∈ probabilities commas.config.smoothing
      (LinkCounts.ofPairs cutAtCommas ⟨"en"⟩ hotDogs.pairs) counter →
      w ∈ hotDogs.linked cutAtCommas ⟨"en"⟩ ∧ p ≠ 0 ∧ p.same subgramSentinel = false := by
    intro w p hp
    obtain ⟨hlinked, rfl⟩ := (Sources.mem_probabilities_iff hdistinct).mp hp
    rw [Sources.count_eq_occurrences hdistinct
      (hscans.counted (by decide) (hdistinct.mono fun _ => .inl)) hlinked]
    have hall : ∀ w ∈ hotDogs.linked cutAtCommas ⟨"en"⟩,
        LinkProbability.probability (.ofNat 3) (hotDogs.links cutAtCommas ⟨"en"⟩ w)
          (hotDogs.occurrences cutAtCommas ⟨"en"⟩ w) ≠ 0 ∧
        (LinkProbability.probability (.ofNat 3) (hotDogs.links cutAtCommas ⟨"en"⟩ w)
          (hotDogs.occurrences cutAtCommas ⟨"en"⟩ w)).same subgramSentinel = false := by
      decide
    exact ⟨hlinked, hall w hlinked⟩
  have hputs : ∀ key p, (key, p) ∈
      hotDogs.puts cutAtCommas ⟨"en"⟩ commas.config.smoothing counter →
      (key = "en:hot dog" ∧ p ≠ 0 ∧ p.same subgramSentinel = false) ∨
        ∃ hash, key = StoredKey.ofSubgram hash := by
    intro key p hmem
    rw [Sources.puts, List.mem_append, List.mem_map, List.mem_map] at hmem
    rcases hmem with ⟨⟨w, q⟩, hq, heq⟩ | ⟨hash, _, heq⟩
    · obtain ⟨rfl, rfl⟩ := Prod.mk.inj heq
      obtain ⟨hlinked, hvalue⟩ := hvalues w q hq
      exact .inl ⟨key_hotDogs w hlinked, hvalue⟩
    · cases heq
      exact .inr ⟨hash, rfl⟩
  refine ⟨?_, fun key p hmem => (hputs key p hmem).imp_left And.left⟩
  have hsome : (History.latest (hotDogs.puts cutAtCommas ⟨"en"⟩ commas.config.smoothing counter)
      "en:hot dog").isSome = true := by
    have hlinked : ["hot", "dog"] ∈ hotDogs.linked cutAtCommas ⟨"en"⟩ := by decide
    rw [History.isSome_latest_iff, List.any_eq_true]
    refine ⟨_, List.mem_append_left _ (List.mem_map_of_mem
      ((Sources.mem_probabilities_iff hdistinct).mpr ⟨hlinked, rfl⟩)), ?_⟩
    exact beq_iff_eq.mpr (key_hotDogs _ hlinked)
  obtain ⟨p, hp⟩ := Option.isSome_iff_exists.mp hsome
  rcases hputs _ p (History.mem_of_latest hp) with ⟨_, hvalue⟩ | ⟨hash, heq⟩
  · exact ⟨p, hp, hvalue⟩
  · exact absurd heq.symm (separable_hotDog.ofSubgram_ne hash)

/-- A space in a word, or the empty code, makes the keys of two phrases or of a phrase and a subgram
the same. The two phrases are answered alike although their links differ, and the copy knows but one
of them. -/
theorem keys_apart_hotDogs :
    StoredKey.ofPhrase ⟨"en"⟩ ["hot dog"] = StoredKey.ofPhrase ⟨"en"⟩ ["hot", "dog"] ∧
    StoredKey.ofPhrase ⟨""⟩ ["s:5"] = StoredKey.ofSubgram 5 ∧
    ∃ stats e' s' p cached t, (commas.build (englishCorpus hotDogs)
        (englishAnchors hotDogs)).run ⟨.empty 0, []⟩ = ((.ok stats, e'), s') ∧
      hotDogs.estimate? cutAtCommas ⟨"en"⟩ (.ofNat 3) ["hot dog"] = some (.ofNat 1) ∧
      hotDogs.estimate? cutAtCommas ⟨"en"⟩ (.ofNat 3) ["hot", "dog"] = some (.ofNat 2) ∧
      e'.probability s'.disk ⟨"en"⟩ "hot dog" true = .ok p ∧
      e'.probability s'.disk ⟨"en"⟩ "hot,dog" true = .ok p ∧ p ≠ 0 ∧
      Succeeds (e'.useCache true) s' cached t ∧
      cached.probability t.disk ⟨"en"⟩ "hot dog" true = .ok 0 := by
  refine ⟨by decide, by decide, ?_⟩
  obtain ⟨stats, e', s', h⟩ : ∃ stats e' s', (commas.build (englishCorpus hotDogs)
      (englishAnchors hotDogs)).run ⟨.empty 0, []⟩ = ((.ok stats, e'), s') :=
    build_succeeds rfl rfl (fun language hmem => by
      rw [List.mem_singleton.mp hmem]
      exact ⟨hotDogs, ⟨rfl, rfl, rfl⟩, ⟨[], rfl⟩, by decide⟩) rehearse_lp
  have hnone : leftover? (FileSystem.empty 0) commas.config.path = none := rfl
  have hanalysis : e'.analysis = cutAtCommas := analysis_of_build h
  obtain ⟨store, entries, putsOf, rfl, _, hall, hshows, hrecalls⟩ := build_recalls (.empty 0) h
  obtain ⟨⟨p, hlatest, hne, hsame⟩, hputs⟩ := written_hotDogs hall
  have hvalue : store.get? s'.disk "en:hot dog" = .ok (some p) := by
    rw [hrecalls.get, hlatest]
  have hreads := hrecalls.reads fun key => ⟨none, get?_earlier_of_none hnone key⟩
  obtain ⟨listed, hlisted, hmem⟩ := hshows.exists_entries hreads
  obtain ⟨t, hcached, ht⟩ := exists_succeeds_useCache
    (e := { commas.bare with store := some store }) rfl hlisted
  -- the copy has one phrase, and it is the one that is read back from the key
  have hcopy : (ProbabilityCache.copy listed).probabilities[
      Phrase.hash ⟨"en"⟩ ["hot dog"]]? = none := by
    rw [ProbabilityCache.probabilities_copy, History.getElem?_toMap, History.latest_eq_none_iff]
    rintro ⟨hash, value⟩ hhashed rfl
    obtain ⟨language, words, hseparable, hhash, hentry⟩ :=
      ProbabilityCache.mem_hashed_iff.mp hhashed
    have hstored := (hmem _ _).mp hentry
    rw [hrecalls.get] at hstored
    cases hfound : History.latest putsOf.flatten (StoredKey.ofPhrase language words) with
    | none =>
      rw [hfound] at hstored
      cases hstored.symm.trans (get?_earlier_of_none hnone _)
    | some q =>
      rcases hputs _ q (History.mem_of_latest hfound) with hkey | ⟨other, hkey⟩
      · obtain ⟨rfl, rfl⟩ := hseparable.inj separable_hotDog
          (hkey.trans (by decide : _ = StoredKey.ofPhrase ⟨"en"⟩ ["hot", "dog"]))
        have hsame := distinct_hotDogs (.inr (by decide)) (.inr (by decide)) hhash
        exact absurd hsame (by decide)
      · exact absurd hkey.symm (hseparable.ofSubgram_ne other)
  have hanswer : ∀ phrase, cutAtCommas.clean ⟨"en"⟩ phrase true ≠ [] →
      StoredKey.ofPhrase ⟨"en"⟩ (cutAtCommas.clean ⟨"en"⟩ phrase true) = "en:hot dog" →
      Estimator.probability { commas.bare with store := some store } s'.disk ⟨"en"⟩ phrase true =
        .ok p := by
    intro phrase hwords hkey
    rw [probability_of_store rfl rfl, hanalysis, if_neg hwords, hkey, hvalue]
    exact congrArg Except.ok (answered_some hsame)
  refine ⟨stats, _, s', p, _, t, h, by decide, by decide,
    hanswer "hot dog" (by decide) (by decide),
    hanswer "hot,dog" (by decide) (by decide), hne, hcached, ?_⟩
  have hwords : cutAtCommas.clean ⟨"en"⟩ "hot dog" true = ["hot dog"] := by decide
  rw [probability_of_copy rfl rfl, hanalysis, hwords, if_neg (by simp), hcopy]
  rfl

end Estimator
end Relatedness
