import Relatedness.Proofs.KeyValue.Runs
import Relatedness.Proofs.LinkProbability.Success

/-! What an estimator answers once it has built: the link probability of every phrase that has
links, and nothing else but what a staging directory that was not found had held. -/

namespace Relatedness

open LinkProbability KeyValue

namespace Estimator

/-! ## Sources of one language -/

/-- Text is one sentence and is cut at its spaces. -/
def cutAtSpaces : TextAnalysis where
  sentences _ text := [text]
  words _ text := ((Text.splitAll ' ' text.toList).filter (· ≠ [])).map String.ofList
  normalize _ text := text

theorem spaceless_cutAtSpaces (language : Language) (text : String) :
    ∀ word ∈ cutAtSpaces.words language text, ' ' ∉ word.toList := by
  intro word hword
  obtain ⟨piece, hpiece, rfl⟩ := List.mem_map.mp hword
  rw [String.toList_ofList]
  exact Text.not_mem_of_mem_splitAll (List.mem_filter.mp hpiece).1

/-- An estimator of English that was not built. -/
def english (path : Path) : Estimator := ⟨{ path, languages := [⟨"en"⟩] }, cutAtSpaces, none, none⟩

/-- A corpus and anchors with these sources of English. -/
def englishCorpus (src : Sources) : Corpus := ⟨[⟨"en"⟩], fun _ => .ok src.documents⟩

def englishAnchors (src : Sources) : AnchorSource :=
  ⟨[⟨"en"⟩], fun _ => .ok src.phrases, fun _ => .ok src.pairs⟩

section English

variable (src : Sources) (path : Path)

/-- Hashes that do not collide can be told from one another by computing them. -/
theorem faithful_english
    (h : ∀ u ∈ src.windows cutAtSpaces ⟨"en"⟩, ∀ v ∈ src.windows cutAtSpaces ⟨"en"⟩,
      Phrase.hash ⟨"en"⟩ u = Phrase.hash ⟨"en"⟩ v → u = v) :
    (english path).Faithful (englishCorpus src) (englishAnchors src) := by
  refine ⟨fun language hmem => ?_, spaceless_cutAtSpaces, fun language hmem src' hof => ?_⟩
  · rw [List.mem_singleton.mp hmem]
    exact ⟨by decide, by decide⟩
  · have hsrc : src' = src := hof.unique ⟨rfl, rfl, rfl⟩
    rw [List.mem_singleton.mp hmem, hsrc]
    exact src.distinct_of_windows cutAtSpaces _ h

theorem noSentinel_english
    (h : ∀ w ∈ src.linked cutAtSpaces ⟨"en"⟩,
      (LinkProbability.probability (.ofNat 3) (src.links cutAtSpaces ⟨"en"⟩ w)
        (src.occurrences cutAtSpaces ⟨"en"⟩ w)).same subgramSentinel = false) :
    (english path).NoSentinel (englishCorpus src) (englishAnchors src) := by
  intro language hmem src' hof w p hp
  have hsrc : src' = src := hof.unique ⟨rfl, rfl, rfl⟩
  rw [List.mem_singleton.mp hmem, hsrc] at hp
  unfold Sources.estimate? at hp
  split at hp
  · rename_i hlinked
    cases hp
    exact h w hlinked
  · cases hp

theorem build_english_succeeds (contents : List Document) {s : Session}
    (hdocuments : src.documents = contents.map .ok)
    (hkeys : ∀ w ∈ src.linked cutAtSpaces ⟨"en"⟩,
      (StoredKey.ofPhrase ⟨"en"⟩ w).utf8ByteSize ≤ maxKeyLength)
    (hrehearse : (outcome (rehearse path) s).1.isOk = true) :
    ∃ stats e' s', ((english path).build (englishCorpus src) (englishAnchors src)).run s =
      ((.ok stats, e'), s') := by
  refine build_succeeds rfl rfl (fun language hmem => ?_) hrehearse
  rw [List.mem_singleton.mp hmem]
  exact ⟨src, ⟨rfl, rfl, rfl⟩, ⟨contents, hdocuments⟩, hkeys⟩

end English

/-! ## The answers -/

variable {e e' : Estimator} {corpus : Corpus} {anchors : AnchorSource} {workers : Workers}
  {stats : List BuildStats} {s s' : Session}

/-- After a build a phrase of a language that was built is answered with its link probability if
any text with links is cut into its words. Other phrases, and those of other languages, are
answered with what a store answers that was left over in the staging directory, and with zero if
there was none. An estimator that is opened where the log stands answers the same. The links that
the estimate is made of are all links of the phrase, counted in a word. -/
theorem probability_of_build (hs : s.disk.WellFormed) (hfaithful : e.Faithful corpus anchors)
    (hsentinel : e.NoSentinel corpus anchors)
    (h : (e.build corpus anchors workers).run s = ((.ok stats, e'), s')) :
    (∀ language ∈ e.config.languages, ∃ src, Sources.Of corpus anchors language src ∧
      ∀ phrase normalize, e'.probability s'.disk language phrase normalize =
        match src.estimate? e.analysis language e.config.smoothing
            (e.analysis.clean language phrase normalize) with
        | some p => .ok p
        | none => e.recalled s.disk language phrase normalize) ∧
    (∀ language, language.Codable → language ∉ e.config.languages → ∀ phrase normalize,
      e'.probability s'.disk language phrase normalize =
        e.recalled s.disk language phrase normalize) ∧
    (leftover? s.disk e.config.path = none → ∀ language phrase normalize,
      e.recalled s.disk language phrase normalize = .ok 0) ∧
    ∃ store, e'.store = some store ∧
      s'.disk.openFile (e.config.path.child logName) = .ok store.file ∧
      ∀ (config : LinkProbabilityConfig) (later : Session) (file : Nat),
        config.path = e.config.path →
        later.disk.openFile (e.config.path.child logName) = .ok file →
        later.disk.content file = s'.disk.content store.file →
        ∃ reopened, Succeeds (openWith config e.analysis) later reopened later ∧
          ∀ language phrase normalize, reopened.probability later.disk language phrase normalize =
            e'.probability s'.disk language phrase normalize := by
  refine ⟨fun language hmem => ?_, fun language hlanguage hnot phrase normalize => ?_,
    fun hnone language phrase normalize => ?_, probability_of_reopened hs h⟩
  · obtain ⟨_, _, _, putsOf, _, _, _, hall, _⟩ := build_shows hs h
    obtain ⟨src, hof⟩ := exists_of_written hall hmem
    refine ⟨src, hof, fun phrase normalize => ?_⟩
    have hexpected : language ∈ e.config.languages → ∀ src',
        Sources.Of corpus anchors language src' →
          src'.estimate? e.analysis language e.config.smoothing =
            src.estimate? e.analysis language e.config.smoothing :=
      fun _ src' hof' => by rw [hof'.unique hof]
    have hanswer := probability_after_build hs hfaithful hsentinel h
      (hfaithful.codable language hmem) hexpected phrase normalize
    rw [if_pos hmem] at hanswer
    exact hanswer
  · have hexpected : language ∈ e.config.languages → ∀ src, Sources.Of corpus anchors language src →
        src.estimate? e.analysis language e.config.smoothing = fun _ => none :=
      fun hmem => absurd hmem hnot
    have hanswer := probability_after_build hs hfaithful hsentinel h hlanguage hexpected phrase
      normalize
    rw [if_neg hnot] at hanswer
    exact hanswer
  · rw [recalled, hnone]

/-- One link more than a word can hold leaves the phrase without any. -/
example : let src : Sources := ⟨[], [], [("new york", 2 ^ 64 - 1), ("new  york", 1)]⟩
    src.allLinks cutAtSpaces ⟨"en"⟩ ["new", "york"] = 2 ^ 64 ∧
      src.links cutAtSpaces ⟨"en"⟩ ["new", "york"] = 0 := by decide +kernel

/-- A phrase of two words that stands twice in the text and has five links, three and two of them
with different spaces. -/
def newYork : Sources := ⟨["new york"], [.ok (.raw "new york new york")],
  [("new york", 3), ("new  york", 2)]⟩

theorem probability_of_build_newYork :
    ∃ stats e' s', ((english ⟨false, ["lp"]⟩).build (englishCorpus newYork)
        (englishAnchors newYork)).run ⟨.empty 0, []⟩ = ((.ok stats, e'), s') ∧
      e'.probability s'.disk ⟨"en"⟩ "new york" true =
        .ok (.ofNat 5 / (.ofNat 2 + .ofNat 3)) ∧
      e'.probability s'.disk ⟨"en"⟩ "york" true = .ok 0 ∧
      e'.probability s'.disk ⟨"de"⟩ "new york" true = .ok 0 := by
  obtain ⟨stats, e', s', h⟩ := build_english_succeeds newYork ⟨false, ["lp"]⟩
    [.raw "new york new york"] (s := ⟨.empty 0, []⟩) rfl (by decide +kernel) (by decide +kernel)
  obtain ⟨hbuilt, hother, hleftover, _⟩ := probability_of_build (.empty 0)
    (faithful_english _ _ (by decide +kernel)) (noSentinel_english _ _ (by decide +kernel)) h
  have hnone := hleftover (by rfl)
  obtain ⟨src, hof, hanswer⟩ := hbuilt ⟨"en"⟩ (by decide)
  obtain rfl : src = newYork := hof.unique ⟨rfl, rfl, rfl⟩
  refine ⟨stats, e', s', h, ?_, ?_, ?_⟩
  · rw [hanswer, show newYork.estimate? _ _ _ _ =
      some (.ofNat 5 / (.ofNat 2 + .ofNat 3)) by decide +kernel]
  · rw [hanswer, show newYork.estimate? _ _ _ _ = none by decide +kernel]
    exact hnone ⟨"en"⟩ "york" true
  · rw [hother ⟨"de"⟩ ⟨by decide, by decide⟩ (by decide)]
    exact hnone ⟨"de"⟩ "new york" true

theorem faithful_newYork :
    (english ⟨false, ["lp"]⟩).Faithful (englishCorpus newYork) (englishAnchors newYork) :=
  faithful_english _ _ (by decide)

theorem noSentinel_newYork :
    (english ⟨false, ["lp"]⟩).NoSentinel (englishCorpus newYork) (englishAnchors newYork) :=
  noSentinel_english _ _ (by decide)

/-- A build can put its store into a directory without any files. -/
theorem rehearse_lp : (outcome (rehearse ⟨false, ["lp"]⟩) ⟨.empty 0, []⟩).1.isOk = true := by
  decide +kernel

theorem build_newYork_succeeds : ∃ stats e' s', ((english ⟨false, ["lp"]⟩).build
    (englishCorpus newYork) (englishAnchors newYork)).run ⟨.empty 0, []⟩ = ((.ok stats, e'), s') :=
  build_english_succeeds newYork _ [.raw "new york new york"] rfl (by decide) rehearse_lp

/-! ## A staging directory that is not found -/

def half : Binary64 := .ofNat 1 / .ofNat 2

/-- A store in `lp.staging` in which one probability was written. -/
def leftBehind : Session :=
  (Machine.run ⟨false, ["lp.staging"]⟩ ⟨⟨.empty 0, []⟩, none⟩
    [.reopen {}, .put "en:old" half, .close]).1.session

theorem wellFormed_of_run (directory : Path) (commands : List (Command Binary64)) :
    (Machine.run directory ⟨⟨.empty 0, []⟩, none⟩ commands).1.session.disk.WellFormed := by
  have hstart : Machine.Holds directory (⟨⟨.empty 0, []⟩, none⟩ : Machine Binary64) [] :=
    .start (.empty 0) fun _ _ => FileSystem.content_of_size_le (Nat.zero_le _)
  obtain ⟨_, _, hlast⟩ := hstart.run commands fun _ value _ => length_encode value
  exact hlast.log.wellFormed

theorem wellFormed_leftBehind : leftBehind.disk.WellFormed := wellFormed_of_run _ _

/-- A path to `lp` through a directory that is not there. -/
def beyond : Path := ⟨false, ["gone", "..", "lp"]⟩

/-- A log that stands where a staging directory is not found is left over. -/
theorem leftover?_of_missing {fs : FileSystem} {target : Path} {id : Nat}
    {entries : List LogEntry}
    (hmissing : (fs.removeTree target.staging).map (fun _ => ()) = .error .notFound)
    (hat : fs.at? (target.staging.child logName).place = some (.file id))
    (hfits : ∀ entry ∈ entries, entry.Fits) (hcontent : fs.content id = logBytes entries) :
    ∃ store : KeyValueStore Binary64,
      leftover? fs target = some store ∧ store.Shows fs entries [] := by
  have hremove : fs.removeTree target.staging = .error .notFound := by
    cases hremove : fs.removeTree target.staging with
    | ok fs' =>
      rw [hremove] at hmissing
      cases hmissing
    | error cause =>
      rw [hremove] at hmissing
      cases hmissing
      rfl
  refine ⟨.ofScan target.staging {} id (scan (fs.content id)), ?_, ?_⟩
  · unfold leftover?
    rw [hremove, hat]
  · rw [hcontent]
    exact KeyValueStore.shows_ofScan hfits hcontent

/-- The directory `lp.staging` is not found through one that is missing, but its log stands where
the staging directory is made together with the missing one. -/
theorem leftover?_beyond : ∃ store : KeyValueStore Binary64,
    leftover? leftBehind.disk beyond = some store ∧
      store.Shows leftBehind.disk [⟨0, "en:old", Storable.encode half⟩] [] := by
  have hat : leftBehind.disk.at? (beyond.staging.child logName).place = some (.file 0) := by
    decide +kernel
  refine leftover?_of_missing (by decide +kernel) hat ?_ (by decide +kernel)
  intro entry hentry
  rw [List.mem_singleton.mp hentry]
  exact ⟨by decide +kernel, by decide +kernel, by decide +kernel⟩

theorem recalled_beyond :
    (english beyond).recalled leftBehind.disk ⟨"en"⟩ "old" true = .ok half := by
  obtain ⟨store, hleftover, hshows⟩ := leftover?_beyond
  have hwords : cutAtSpaces.clean ⟨"en"⟩ "old" true = ["old"] := by decide
  have hkey : StoredKey.ofPhrase ⟨"en"⟩ ["old"] = "en:old" := by decide
  have hvalue : store.get? leftBehind.disk "en:old" = .ok (some half) := by
    rw [hshows.get?_eq]
    change (KeyValueStore.decoded (Storable.encode half)).map some = _
    rw [decoded_encode]
    rfl
  unfold recalled
  rw [show (english beyond).config.path = beyond from rfl, hleftover]
  simp only
  rw [probability_of_store rfl rfl, show (english beyond).analysis = cutAtSpaces from rfl, hwords,
    hkey, hvalue, if_neg (by simp)]
  exact congrArg Except.ok (answered_some (by decide))

def newPhrase : Sources := ⟨["new"], [], [("new", 3)]⟩

theorem faithful_newPhrase :
    (english beyond).Faithful (englishCorpus newPhrase) (englishAnchors newPhrase) :=
  faithful_english _ _ (by decide)

theorem noSentinel_newPhrase :
    (english beyond).NoSentinel (englishCorpus newPhrase) (englishAnchors newPhrase) :=
  noSentinel_english _ _ (by decide)

/-- The staging directory can hold what was never built: the phrase has no link, and yet the
build answers it with the probability that stood there before. -/
theorem probability_of_build_beyond :
    leftBehind.disk.WellFormed ∧
    (english beyond).Faithful (englishCorpus newPhrase) (englishAnchors newPhrase) ∧
    (english beyond).NoSentinel (englishCorpus newPhrase) (englishAnchors newPhrase) ∧
    newPhrase.estimate? cutAtSpaces ⟨"en"⟩ (.ofNat 3) (cutAtSpaces.clean ⟨"en"⟩ "old" true) = none ∧
    ∃ stats e' s', ((english beyond).build (englishCorpus newPhrase)
        (englishAnchors newPhrase)).run leftBehind = ((.ok stats, e'), s') ∧
      e'.probability s'.disk ⟨"en"⟩ "old" true = .ok half ∧ half ≠ 0 := by
  have hfaithful := faithful_english newPhrase beyond (by decide +kernel)
  have hsentinel := noSentinel_english newPhrase beyond (by decide +kernel)
  have hnone : newPhrase.estimate? cutAtSpaces ⟨"en"⟩ (.ofNat 3)
      (cutAtSpaces.clean ⟨"en"⟩ "old" true) = none := by decide +kernel
  refine ⟨wellFormed_leftBehind, hfaithful, hsentinel, hnone, ?_⟩
  obtain ⟨stats, e', s', h⟩ := build_english_succeeds newPhrase beyond [] (s := leftBehind) rfl
    (by decide +kernel) (by decide +kernel)
  refine ⟨stats, e', s', h, ?_, by decide +kernel⟩
  have hexpected : ⟨"en"⟩ ∈ (english beyond).config.languages → ∀ src,
      Sources.Of (englishCorpus newPhrase) (englishAnchors newPhrase) ⟨"en"⟩ src →
      src.estimate? cutAtSpaces ⟨"en"⟩ (.ofNat 3) =
        newPhrase.estimate? cutAtSpaces ⟨"en"⟩ (.ofNat 3) :=
    fun _ src hof => by
      obtain rfl : src = newPhrase := hof.unique ⟨rfl, rfl, rfl⟩
      rfl
  rw [probability_after_build wellFormed_leftBehind hfaithful hsentinel h
    (hfaithful.codable _ (by decide)) hexpected, if_pos (by decide),
    show (english beyond).analysis = cutAtSpaces from rfl, hnone]
  exact recalled_beyond

end Estimator
end Relatedness
