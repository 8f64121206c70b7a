import Relatedness.Proofs.LinkProbability.Subphrases

/-! Queries with the copy in memory. After a build they are answered as they are without it, also by
an estimator that is opened later, unless what was left over in the staging directory cannot be read
or has keys that a build does not write. -/

namespace Relatedness

open LinkProbability KeyValue

namespace Estimator

variable {e e' : Estimator} {corpus : Corpus} {anchors : AnchorSource} {workers : Workers}
  {stats : List BuildStats} {s s' : Session}

theorem analysis_of_build (h : (e.build corpus anchors workers).run s = ((.ok stats, e'), s')) :
    e'.analysis = e.analysis := by
  obtain ⟨_, _, _, _, _, _, _, _, _, rfl⟩ := build_eq_ok h
  rfl

/-- A phrase is not disturbed after a build of faithful sources, if none of the phrases with links
has its hash and no phrases were left over. -/
theorem undisturbed_of_build (hs : s.disk.WellFormed) (hfaithful : e.Faithful corpus anchors)
    (hsentinel : e.NoSentinel corpus anchors)
    (hearlier : ∀ language words, StoredKey.Separable language words →
      (earlier s.disk e.config.path).contains (StoredKey.ofPhrase language words) = false)
    (h : (e.build corpus anchors workers).run s = ((.ok stats, e'), s'))
    {language : Language} (hlanguage : language.Codable) {words : List String} (hne : words ≠ [])
    (hspace : ∀ word ∈ words, ' ' ∉ word.toList)
    (hhash : ∀ language' ∈ e.config.languages, ∀ src, Sources.Of corpus anchors language' src →
      ∀ w ∈ src.linked e.analysis language', Phrase.hash language' w = Phrase.hash language words →
        language' = language ∧ w = words)
    {store : KeyValueStore Binary64} (hstore : e'.store = some store) :
    store.Undisturbed s'.disk language words := by
  obtain ⟨_, entries, putsOf, rfl, _, hall, hshows, hrecalls⟩ := build_recalls hs h
  obtain rfl := Option.some.inj hstore
  have hlegible : Legible e.analysis corpus anchors e.config.languages :=
    .of_codable hfaithful.codable hfaithful.spaceless
  refine ⟨fun language' words' hseparable hcontains heq => ?_, fun p hp => ?_⟩
  · rw [hrecalls.contains, hearlier language' words' hseparable, Bool.or_false,
      isSome_latest_ofPhrase hall hlegible hseparable] at hcontains
    obtain ⟨hmem, src, hof, hphrase⟩ := hcontains
    exact hhash language' hmem src hof words'
      ((LinkCounts.represents_ofPairs e.analysis language' src.pairs).phrases hphrase).1 heq
  · have hseparable := StoredKey.Separable.of_codable hlanguage hne hspace
    rw [hrecalls.get, KeyValueStore.get?_of_not_contains (hearlier language words hseparable)] at hp
    obtain ⟨expected, hexpected, hvalue⟩ : ∃ expected : Option Binary64,
        (language ∈ e.config.languages → ∀ src, Sources.Of corpus anchors language src →
          src.estimate? e.analysis language e.config.smoothing words = expected) ∧
        ∀ q, (if language ∈ e.config.languages then expected else none) = some q →
          q.same subgramSentinel = false := by
      by_cases hmem : language ∈ e.config.languages
      · obtain ⟨src, hof⟩ := exists_of_written hall hmem
        refine ⟨_, fun _ src' hof' => by rw [hof'.unique hof], fun q hq => ?_⟩
        rw [if_pos hmem] at hq
        exact hsentinel language hmem src hof words q hq
      · exact ⟨none, fun h => absurd h hmem, by simp [hmem]⟩
    rw [latest_written hall (one_le_batchSize (build_eq_ok h).1) hfaithful.codable
      hfaithful.spaceless hfaithful.distinct hlanguage hne hspace hexpected] at hp
    cases hq : if language ∈ e.config.languages then expected else none with
    | none =>
      rw [hq] at hp
      cases hp
    | some q =>
      rw [hq] at hp
      cases hp
      exact hvalue p hq

/-- After a build the copy can be turned on, and every phrase that no other stored phrase disturbs
is answered the same with it and without it. This needs that a store that was left over in the
staging directory is tidy, if there was one. -/
theorem agreesWithCopy_of_build (hs : s.disk.WellFormed)
    (hcodes : ∀ language ∈ e.config.languages, language.Codable)
    (hspace : ∀ language text, ∀ word ∈ e.analysis.words language text, ' ' ∉ word.toList)
    (hleftover : ∀ old, leftover? s.disk e.config.path = some old → old.Tidy s.disk)
    (h : (e.build corpus anchors workers).run s = ((.ok stats, e'), s')) :
    ∃ store, e'.store = some store ∧
      s'.disk.openFile (e.config.path.child logName) = .ok store.file ∧
      (e'.AgreesWithCopy s' fun language words =>
        language.Codable ∧ store.Undisturbed s'.disk language words) ∧
      ∀ (config : LinkProbabilityConfig) (later : Session) (file : Nat),
        config.path = e.config.path →
        later.disk.openFile (e.config.path.child logName) = .ok file →
        later.disk.content file = s'.disk.content store.file →
        ∃ reopened, Succeeds (openWith config e.analysis) later reopened later ∧
          reopened.AgreesWithCopy later fun language words =>
            language.Codable ∧ store.Undisturbed s'.disk language words := by
  obtain ⟨store, entries, putsOf, rfl, hopen, hall, hshows, hrecalls⟩ := build_recalls hs h
  have htidy : store.Tidy s'.disk :=
    tidy_of_build hall (.of_codable hcodes hspace) hrecalls (tidy_earlier hleftover)
  have hseparable : ∀ language phrase normalize, e.analysis.clean language phrase normalize ≠ [] →
      language.Codable → StoredKey.Separable language (e.analysis.clean language phrase normalize) :=
    fun language _ _ hne hcode => .of_codable hcode hne (hspace language _)
  refine ⟨store, rfl, hopen, ?_, fun config later file hpath hlater hcontent => ?_⟩
  · refine (agreesWithCopy rfl rfl hshows htidy).mono fun language phrase normalize hne hasked => ?_
    exact ⟨hseparable language phrase normalize hne hasked.1, hasked.2⟩
  · have hlog : later.disk.content file = logBytes entries := by
      rw [hcontent, hshows.content, List.append_nil]
    obtain ⟨reopened, hshows', hsucceeds⟩ := openWith_of_content hshows.fits
      (hpath ▸ hlater : later.disk.openFile (config.path.child logName) = .ok file) hlog e.analysis
    refine ⟨_, hsucceeds, ?_⟩
    refine (agreesWithCopy rfl rfl hshows' (htidy.of_shows hshows hshows')).mono
      fun language phrase normalize hne hasked => ?_
    exact ⟨hseparable language phrase normalize hne hasked.1, hasked.2.of_shows hshows hshows'⟩

/-- No phrase with links has the hash of the one that was built. -/
theorem undisturbed_newYork (h : ((english ⟨false, ["lp"]⟩).build (englishCorpus newYork)
      (englishAnchors newYork)).run ⟨.empty 0, []⟩ = ((.ok stats, e'), s'))
    {store : KeyValueStore Binary64} (hstore : e'.store = some store) :
    store.Undisturbed s'.disk ⟨"en"⟩ ["new", "york"] := by
  refine undisturbed_of_build (.empty 0) faithful_newYork noSentinel_newYork
    (fun _ _ _ => contains_earlier_of_none rfl _) h ⟨by decide, by decide⟩ (by decide) (by decide)
    (fun language hmem src hof => ?_) hstore
  obtain rfl := List.mem_singleton.mp hmem
  obtain rfl : src = newYork := hof.unique ⟨rfl, rfl, rfl⟩
  decide

theorem agreesWithCopy_of_build_newYork :
    ∃ stats e' s' store cached t, ((english ⟨false, ["lp"]⟩).build (englishCorpus newYork)
        (englishAnchors newYork)).run ⟨.empty 0, []⟩ = ((.ok stats, e'), s') ∧
      e'.store = some store ∧ store.Undisturbed s'.disk ⟨"en"⟩ ["new", "york"] ∧
      Succeeds (e'.useCache true) s' cached t ∧
      cached.probability t.disk ⟨"en"⟩ "new york" true =
        e'.probability s'.disk ⟨"en"⟩ "new york" true ∧
      cached.isSubphrase ⟨"en"⟩ "new york" true = e'.isSubphrase ⟨"en"⟩ "new york" true := by
  obtain ⟨stats, e', s', h⟩ := build_newYork_succeeds
  have hnone : leftover? (FileSystem.empty 0) (english ⟨false, ["lp"]⟩).config.path = none := rfl
  obtain ⟨store, hstore, _, ⟨cached, t, hcached, _, _, hagree⟩, _⟩ :=
    agreesWithCopy_of_build (.empty 0) faithful_newYork.codable faithful_newYork.spaceless
      (fun old hold => by cases hnone.symm.trans hold) h
  have hundisturbed := undisturbed_newYork h hstore
  have hwords : e'.analysis.clean ⟨"en"⟩ "new york" true = ["new", "york"] := by
    rw [analysis_of_build h]
    decide
  obtain ⟨hprobability, hsubphrase⟩ := hagree ⟨"en"⟩ "new york" true fun _ => by
    rw [hwords]
    exact ⟨⟨by decide, by decide⟩, hundisturbed⟩
  exact ⟨stats, e', s', store, cached, t, h, hstore, hundisturbed, hcached, hprobability,
    hsubphrase⟩

/-! ## A key that a build does not write -/

/-- The hash of `old` with a sign, behind the mark of subgrams. -/
def misspelledKey : String := ":s:+646435577673948973"

/-- A store in `lp.staging` in which this key was written. -/
def misspelled : Session :=
  (Machine.run ⟨false, ["lp.staging"]⟩ ⟨⟨.empty 0, []⟩, none⟩
    [.reopen {}, .put misspelledKey subgramSentinel, .close]).1.session

/-- The directory is not found on the way through a missing one, its log stands where that way leads
to, and a build can put its store there. -/
theorem misspelled_stands :
    (misspelled.disk.removeTree beyond.staging).map (fun _ => ()) = .error .notFound ∧
      misspelled.disk.at? (beyond.staging.child logName).place = some (.file 0) ∧
      misspelled.disk.content 0 =
        logBytes [⟨0, misspelledKey, Storable.encode subgramSentinel⟩] ∧
      (outcome (rehearse beyond) misspelled).1.isOk = true := by
  decide +kernel

theorem leftover?_misspelled : ∃ old : KeyValueStore Binary64,
    leftover? misspelled.disk beyond = some old ∧
      old.Shows misspelled.disk [⟨0, misspelledKey, Storable.encode subgramSentinel⟩] [] := by
  obtain ⟨hmissing, hat, hcontent, _⟩ := misspelled_stands
  refine leftover?_of_missing hmissing hat ?_ hcontent
  intro entry hentry
  rw [List.mem_singleton.mp hentry]
  exact ⟨by decide, by decide, by decide⟩

theorem parse_misspelledKey :
    StoredKey.parse misspelledKey = .subgram (Phrase.hash ⟨"en"⟩ ["old"]) := by
  decide

/-- No key of a phrase or a subgram is spelled so. -/
theorem ne_misspelledKey :
    (∀ hash, StoredKey.ofSubgram hash ≠ misspelledKey) ∧
      ∀ language words, StoredKey.Separable language words →
        StoredKey.ofPhrase language words ≠ misspelledKey := by
  refine ⟨fun hash heq => ?_, fun language words h heq => ?_⟩
  · have hparse := StoredKey.parse_ofSubgram hash
    rw [heq, parse_misspelledKey] at hparse
    rw [← StoredKey.subgram.inj hparse] at heq
    exact absurd heq (by decide)
  · have hparse := h.parse
    rw [heq, parse_misspelledKey] at hparse
    cases hparse

/-- What was left over has the one key, and its value can be read. -/
theorem earlier_misspelled :
    (∀ key, (earlier misspelled.disk beyond).contains key = (key == misspelledKey)) ∧
      ∀ key, ∃ found, (earlier misspelled.disk beyond).get? misspelled.disk key = .ok found := by
  obtain ⟨old, hleftover, hold⟩ := leftover?_misspelled
  have hlatest : ∀ key, History.latest (KeyValueStore.assignments
      [⟨0, misspelledKey, Storable.encode subgramSentinel⟩]) key =
        if key == misspelledKey then some (Storable.encode subgramSentinel) else none :=
    History.latest_singleton misspelledKey _
  rw [earlier_of_some hleftover]
  refine ⟨fun key => ?_, fun key => ?_⟩
  · rw [hold.answersBy_assignments.contains, hlatest]
    cases key == misspelledKey <;> rfl
  · rw [hold.get?_eq, hlatest]
    cases key == misspelledKey with
    | true => exact ⟨some subgramSentinel, congrArg (Except.map some) (decoded_encode _)⟩
    | false => exact ⟨none, rfl⟩

/-- The copy takes the key for that of a subgram, which the store does not find under it: the phrase
is the beginning of another one with the copy and is not without it. -/
theorem agreesWithCopy_of_build_misspelled :
    misspelled.disk.WellFormed ∧
    (english beyond).Faithful (englishCorpus newPhrase) (englishAnchors newPhrase) ∧
    (english beyond).NoSentinel (englishCorpus newPhrase) (englishAnchors newPhrase) ∧
    ∃ stats e' s' store cached t, ((english beyond).build (englishCorpus newPhrase)
        (englishAnchors newPhrase)).run misspelled = ((.ok stats, e'), s') ∧
      e'.store = some store ∧ store.Undisturbed s'.disk ⟨"en"⟩ ["old"] ∧
      Succeeds (e'.useCache true) s' cached t ∧
      e'.isSubphrase ⟨"en"⟩ "old" true = .ok false ∧
      cached.isSubphrase ⟨"en"⟩ "old" true = .ok true := by
  have hs : misspelled.disk.WellFormed := wellFormed_of_run _ _
  refine ⟨hs, faithful_newPhrase, noSentinel_newPhrase, ?_⟩
  obtain ⟨stats, e', s', h⟩ := build_english_succeeds newPhrase beyond [] (s := misspelled) rfl
    (by decide) misspelled_stands.2.2.2
  obtain ⟨hcontains, hreadsEarlier⟩ := earlier_misspelled
  have hearlier : ∀ language words, StoredKey.Separable language words →
      (earlier misspelled.disk beyond).contains (StoredKey.ofPhrase language words) = false :=
    fun language words hseparable => by
      rw [hcontains, beq_false_of_ne (ne_misspelledKey.2 language words hseparable)]
  have hanalysis : e'.analysis = cutAtSpaces := analysis_of_build h
  have hwords : cutAtSpaces.clean ⟨"en"⟩ "old" true = ["old"] := by decide
  have hold : StoredKey.Separable ⟨"en"⟩ ["old"] :=
    ⟨by decide, by decide, by decide, by decide⟩
  -- without the copy neither key of the phrase is found
  have hanswer : e'.isSubphrase ⟨"en"⟩ "old" true = .ok false := by
    obtain ⟨putsOf, hall, hanswer⟩ := isSubphrase_after_build hs h
    have hunwritten : writesSubphrase putsOf.flatten ⟨"en"⟩ ["old"] = false := by
      rw [Bool.eq_false_iff, Ne, writesSubphrase_iff hall
        (.of_codable faithful_newPhrase.codable faithful_newPhrase.spaceless) (fun _ => hold)
        fun _ => alone_english (by decide)]
      rintro ⟨_, src, hof, hsubphrase⟩
      obtain rfl : src = newPhrase := hof.unique ⟨rfl, rfl, rfl⟩
      exact absurd hsubphrase (by decide)
    rw [hanswer, show (english beyond).analysis = cutAtSpaces from rfl, hwords, hunwritten,
      recallsSubphrase, show (english beyond).config.path = beyond from rfl, hcontains,
      beq_false_of_ne (ne_misspelledKey.1 _), hearlier _ _ hold]
    rfl
  have hundisturbed : ∀ store, e'.store = some store → store.Undisturbed s'.disk ⟨"en"⟩ ["old"] :=
    fun store hstore => undisturbed_of_build hs faithful_newPhrase noSentinel_newPhrase hearlier h
      ⟨by decide, by decide⟩ hold.ne hold.space (fun language hmem src hof => by
        obtain rfl := List.mem_singleton.mp hmem
        obtain rfl : src = newPhrase := hof.unique ⟨rfl, rfl, rfl⟩
        decide) hstore
  -- the copy has the hash that is read from the key
  obtain ⟨store, entries, putsOf, rfl, _, _, hshows, hrecalls⟩ := build_recalls hs h
  have hreads := hrecalls.reads hreadsEarlier
  obtain ⟨listed, hlisted, hmem⟩ := hshows.exists_entries hreads
  obtain ⟨t, hcached, _⟩ := exists_succeeds_useCache
    (e := { (english beyond).bare with store := some store }) rfl hlisted
  refine ⟨stats, _, s', store, _, t, h, rfl, hundisturbed store rfl, hcached, hanswer, ?_⟩
  have hstored : store.contains misspelledKey = true := by
    rw [hrecalls.contains, show (english beyond).config.path = beyond from rfl, hcontains,
      beq_self_eq_true, Bool.or_true]
  obtain ⟨value, hvalue⟩ := (hshows.contains_iff hreads).mp hstored
  have hfound : (ProbabilityCache.copy listed).subgrams.contains (Phrase.hash ⟨"en"⟩ ["old"]) =
      true :=
    (ProbabilityCache.contains_subgrams_copy listed _).mpr
      ⟨_, (hmem _ _).mpr hvalue, parse_misspelledKey⟩
  rw [isSubphrase_of_copy rfl rfl, hanalysis, hwords, if_neg (by simp), hfound]
  rfl

end Estimator
end Relatedness
