import Relatedness.Proofs.LinkProbability.Build

/-! Queries after a build. Every phrase is answered with the link probability that its sources
give it, and a phrase without one from what was left over in the staging directory: zero, unless
a log still stood there. -/

namespace Relatedness

open LinkProbability KeyValue

theorem decoded_encode (x : Binary64) : KeyValueStore.decoded (Storable.encode x) = .ok x :=
  (readable_binary64 x).decoded_encode

namespace Estimator

variable {e e' : Estimator} {fs fs' : FileSystem}

/-- What a query answers from the value under the key of a phrase. -/
def answered (stored? : Option Binary64) : Binary64 :=
  (stored?.filter fun p => !p.same subgramSentinel).getD 0

theorem answered_some {p : Binary64} (h : p.same subgramSentinel = false) :
    answered (some p) = p := by
  simp [answered, Option.filter, h]

theorem probability_of_store {store : KeyValueStore Binary64} (hstore : e.store = some store)
    (hcache : e.cache = none) (language : Language) (phrase : String) (normalize : Bool) :
    e.probability fs language phrase normalize =
      if e.analysis.clean language phrase normalize = [] then .ok 0
      else (store.get? fs (StoredKey.ofPhrase language
        (e.analysis.clean language phrase normalize))).map answered := by
  unfold probability openStore
  rw [hstore, hcache]
  by_cases hwords : e.analysis.clean language phrase normalize = []
  · simp only [hwords, if_true]
    rfl
  · simp only [List.isEmpty_iff, hwords, if_false]
    change (store.get? fs _ >>= fun stored? => Except.ok (answered stored?)) = _
    cases store.get? fs
      (StoredKey.ofPhrase language (e.analysis.clean language phrase normalize)) <;> rfl

/-- What the store that is left over in the staging directory answers. -/
def recalled (e : Estimator) (fs : FileSystem) (language : Language) (phrase : String)
    (normalize : Bool) : Except Error Binary64 :=
  match leftover? fs e.config.path with
  | some store =>
    { e with store := some store, cache := none }.probability fs language phrase normalize
  | none => .ok 0

/-- A store that shows what was left over and behind it what was written answers a query from
what was written, and otherwise from what was left over. -/
theorem probability_of_shows {store : KeyValueStore Binary64} {entries new : List LogEntry}
    {puts : List (String × Binary64)} (hleft : LeftOver fs e.config.path entries)
    (hshows : store.Shows fs' (entries ++ new) [])
    (hnew : KeyValueStore.assignments new = puts.map fun p => (p.1, Storable.encode p.2))
    (language : Language) (phrase : String) (normalize : Bool) :
    { e with store := some store, cache := none }.probability fs' language phrase normalize =
      if e.analysis.clean language phrase normalize = [] then .ok 0
      else match History.latest puts (StoredKey.ofPhrase language
          (e.analysis.clean language phrase normalize)) with
        | some p => .ok (answered (some p))
        | none => e.recalled fs language phrase normalize := by
  rw [probability_of_store rfl rfl]
  simp only
  by_cases hwords : e.analysis.clean language phrase normalize = []
  · rw [if_pos hwords, if_pos hwords]
  rw [if_neg hwords, if_neg hwords]
  generalize hkey : StoredKey.ofPhrase language
    (e.analysis.clean language phrase normalize) = key
  have hlatest : History.latest (KeyValueStore.assignments (entries ++ new)) key =
      ((History.latest puts key).map Storable.encode).or
        (History.latest (KeyValueStore.assignments entries) key) := by
    rw [KeyValueStore.assignments, List.map_append, History.latest_append,
      ← KeyValueStore.assignments, hnew, History.latest_map]
    rfl
  rw [hshows.get?_eq, hlatest]
  cases hput : History.latest puts key with
  | some p =>
    simp only [Option.map_some, Option.some_or, decoded_encode]
    rfl
  | none =>
    simp only [Option.map_none, Option.none_or]
    unfold LeftOver at hleft
    unfold recalled
    cases hold : leftover? fs e.config.path with
    | none =>
      rw [hold] at hleft
      subst hleft
      rfl
    | some old =>
      rw [hold] at hleft
      obtain ⟨rest, hleft⟩ := hleft
      simp only
      rw [probability_of_store rfl rfl, if_neg hwords, hkey, hleft.get?_eq]

/-- The link probabilities of the languages that were built, and of no others, were written. -/
theorem latest_written {config : LinkProbabilityConfig} {t : TextAnalysis} {corpus : Corpus}
    {anchors : AnchorSource} {languages : List Language}
    {putsOf : List (List (String × Binary64))}
    (hwritten : List.Forall₂ (Written config t corpus anchors) languages putsOf)
    (hbatch : 1 ≤ config.batchSize) (hcodes : ∀ language ∈ languages, language.Codable)
    (hspace : ∀ language text, ∀ word ∈ t.words language text, ' ' ∉ word.toList)
    (hdistinct : ∀ language ∈ languages, ∀ src, Sources.Of corpus anchors language src →
      src.Distinct t language)
    {language : Language} (hlanguage : language.Codable) {w : List String} (hne : w ≠ [])
    (hw : ∀ word ∈ w, ' ' ∉ word.toList) {expected : Option Binary64}
    (hexpected : language ∈ languages → ∀ src, Sources.Of corpus anchors language src →
      src.estimate? t language config.smoothing w = expected) :
    History.latest putsOf.flatten (StoredKey.ofPhrase language w) =
      if language ∈ languages then expected else none := by
  induction hwritten with
  | nil => rfl
  | @cons first puts rest putsRest hfirst _ ih =>
    obtain ⟨src, counter, scanned, hof, hscans, rfl⟩ := hfirst
    have hsrc := hdistinct first List.mem_cons_self src hof
    have hcounted := hscans.counted hbatch (hsrc.mono fun _ => .inl)
    have hputs := Sources.latest_puts config.smoothing hsrc hcounted
      (hcodes first List.mem_cons_self) hlanguage (hspace first) hne hw
    rw [List.flatten_cons, History.latest_append, hputs,
      ih (fun l hl => hcodes l (List.mem_cons_of_mem _ hl))
        (fun l hl => hdistinct l (List.mem_cons_of_mem _ hl))
        fun hl => hexpected (List.mem_cons_of_mem _ hl)]
    by_cases hsame : language = first
    · subst hsame
      rw [if_pos rfl, if_pos List.mem_cons_self, hexpected List.mem_cons_self src hof]
      split <;> cases expected <;> rfl
    · have hmem : language ∈ first :: rest ↔ language ∈ rest := by
        rw [List.mem_cons]
        exact or_iff_right hsame
      rw [if_neg hsame, Option.or_none, if_congr hmem rfl rfl]

theorem one_le_batchSize {corpus : Corpus} {anchors : AnchorSource}
    (h : e.checkSources corpus anchors = .ok ()) : 1 ≤ e.config.batchSize := by
  unfold checkSources at h
  split at h
  · cases h
  · omega

/-- Every language that was built has its sources. -/
theorem exists_of_written {config : LinkProbabilityConfig} {t : TextAnalysis} {corpus : Corpus}
    {anchors : AnchorSource} {languages : List Language}
    {putsOf : List (List (String × Binary64))}
    (hwritten : List.Forall₂ (Written config t corpus anchors) languages putsOf)
    {language : Language} (hmem : language ∈ languages) :
    ∃ src, Sources.Of corpus anchors language src := by
  induction hwritten with
  | nil => cases hmem
  | cons hfirst _ ih =>
    rcases List.mem_cons.mp hmem with rfl | hmem
    · obtain ⟨src, _, _, hof, _⟩ := hfirst
      exact ⟨src, hof⟩
    · exact ih hmem

theorem recalled_of_nil {language : Language} {phrase : String} {normalize : Bool}
    (h : e.analysis.clean language phrase normalize = []) :
    e.recalled fs language phrase normalize = .ok 0 := by
  unfold recalled
  split
  · rw [probability_of_store rfl rfl, if_pos h]
  · rfl

section Builds

variable {corpus : Corpus} {anchors : AnchorSource} {workers : Workers} {stats : List BuildStats}
  {s s' : Session}

/-- The phrases of all languages can be told apart by their keys, and those of each language by
their hashes. -/
structure Faithful (e : Estimator) (corpus : Corpus) (anchors : AnchorSource) : Prop where
  codable : ∀ language ∈ e.config.languages, language.Codable
  spaceless : ∀ language text, ∀ word ∈ e.analysis.words language text, ' ' ∉ word.toList
  distinct : ∀ language ∈ e.config.languages, ∀ src, Sources.Of corpus anchors language src →
    src.Distinct e.analysis language

/-- No link probability that a build computes is the value of subgrams. -/
def NoSentinel (e : Estimator) (corpus : Corpus) (anchors : AnchorSource) : Prop :=
  ∀ language ∈ e.config.languages, ∀ src, Sources.Of corpus anchors language src → ∀ words p,
    src.estimate? e.analysis language e.config.smoothing words = some p →
      p.same subgramSentinel = false

/-- After a build a phrase that a built language gives a link probability has it, and any other
one is answered from what was left over. -/
theorem probability_after_build (hs : s.disk.WellFormed) (hfaithful : e.Faithful corpus anchors)
    (hsentinel : e.NoSentinel corpus anchors)
    (h : (e.build corpus anchors workers).run s = ((.ok stats, e'), s'))
    {language : Language} (hlanguage : language.Codable) {expected : List String → Option Binary64}
    (hexpected : language ∈ e.config.languages → ∀ src, Sources.Of corpus anchors language src →
      src.estimate? e.analysis language e.config.smoothing = expected)
    (phrase : String) (normalize : Bool) :
    e'.probability s'.disk language phrase normalize =
      match if language ∈ e.config.languages then
        expected (e.analysis.clean language phrase normalize) else none with
      | some p => .ok p
      | none => e.recalled s.disk language phrase normalize := by
  obtain ⟨store, entries, new, putsOf, rfl, _, _, hall, hleft, hnew, hshows⟩ := build_shows hs h
  have hbatch := one_le_batchSize (build_eq_ok h).1
  change { e with store := some store, cache := none }.probability _ _ _ _ = _
  rw [probability_of_shows hleft hshows hnew]
  by_cases hwords : e.analysis.clean language phrase normalize = []
  · rw [if_pos hwords, recalled_of_nil hwords]
    by_cases hmem : language ∈ e.config.languages
    · obtain ⟨src, hof⟩ := exists_of_written hall hmem
      have hnone : expected [] = none := by
        rw [← hexpected hmem src hof]
        exact if_neg fun hlinked => (TextAnalysis.mem_wordLists.mp hlinked).1 rfl
      rw [if_pos hmem, hwords, hnone]
    · rw [if_neg hmem]
  · rw [if_neg hwords, latest_written hall hbatch hfaithful.codable hfaithful.spaceless
      hfaithful.distinct hlanguage hwords (hfaithful.spaceless language _)
      fun hmem src hof => congrFun (hexpected hmem src hof) _]
    by_cases hmem : language ∈ e.config.languages
    · rw [if_pos hmem]
      cases hp : expected (e.analysis.clean language phrase normalize) with
      | none => rfl
      | some p =>
        obtain ⟨src, hof⟩ := exists_of_written hall hmem
        rw [← hexpected hmem src hof] at hp
        have hsame := hsentinel language hmem src hof _ p hp
        exact congrArg Except.ok (answered_some hsame)
    · rw [if_neg hmem]

/-- An estimator that is opened where a log stands has a store that shows its entries. -/
theorem openWith_of_content {entries : List LogEntry} (hfits : ∀ entry ∈ entries, entry.Fits)
    {config : LinkProbabilityConfig} {later : Session} {file : Nat}
    (hfile : later.disk.openFile (config.path.child logName) = .ok file)
    (hlog : later.disk.content file = logBytes entries) (analysis : TextAnalysis) :
    ∃ store : KeyValueStore Binary64, store.Shows later.disk entries [] ∧
      Succeeds (openWith config analysis) later ⟨config, analysis, some store, none⟩ later := by
  have hscan := KeyValueStore.succeeds_scanLog (V := Binary64) { readOnly := true } hfits hfile hlog
  have hshows : (KeyValueStore.ofScan config.path { readOnly := true } file
      (scan (logBytes entries)) : KeyValueStore Binary64).Shows later.disk entries [] :=
    KeyValueStore.shows_ofScan hfits hlog
  refine ⟨_, hshows, ?_⟩
  have hat : KeyValueStore.isAt later.disk config.path = true :=
    FileSystem.isFile_of_openFile hfile
  simp only [openWith, succeeds_bind, Action.succeeds_disk, succeeds_ite, succeeds_pure]
  refine ⟨later.disk, later, ⟨rfl, rfl⟩, .inl ⟨hat, _, later, ?_, rfl, rfl⟩⟩
  unfold KeyValueStore.openReadOnly
  rw [KeyValueStore.openWith_eq, if_pos rfl]
  exact hscan

/-- An estimator that is opened where the log of a build stands answers like the one that built
it. -/
theorem probability_of_reopened (hs : s.disk.WellFormed)
    (h : (e.build corpus anchors workers).run s = ((.ok stats, e'), s')) :
    ∃ store, e'.store = some store ∧
      s'.disk.openFile (e.config.path.child logName) = .ok store.file ∧
      ∀ (config : LinkProbabilityConfig) (later : Session) (file : Nat),
        config.path = e.config.path →
        later.disk.openFile (e.config.path.child logName) = .ok file →
        later.disk.content file = s'.disk.content store.file →
        ∃ reopened, Succeeds (openWith config e.analysis) later reopened later ∧
          ∀ language phrase normalize, reopened.probability later.disk language phrase normalize =
            e'.probability s'.disk language phrase normalize := by
  obtain ⟨store, entries, new, putsOf, rfl, _, hopen, _, _, _, hshows⟩ := build_shows hs h
  refine ⟨store, rfl, hopen, fun config later file hpath hlater hcontent => ?_⟩
  have hlog : later.disk.content file = logBytes (entries ++ new) := by
    rw [hcontent, hshows.content, List.append_nil]
  obtain ⟨reopened, hshows', hsucceeds⟩ := openWith_of_content hshows.fits
    (hpath ▸ hlater : later.disk.openFile (config.path.child logName) = .ok file) hlog e.analysis
  refine ⟨_, hsucceeds, fun language phrase normalize => ?_⟩
  rw [probability_of_store rfl rfl, probability_of_store rfl rfl, hshows.get?_congr hshows']
  rfl

end Builds

end Estimator
end Relatedness
