import Relatedness.Proofs.KeyValue.Limits
import Relatedness.Proofs.LinkProbability.Copy

/-! What the store of a build holds. Under each key stands what was written for the languages, and
under a key that was not written what a store holds that was left over in the staging directory. The
keys that are written tell phrases and subgrams apart. -/

namespace Relatedness

open LinkProbability KeyValue

namespace LinkProbability

variable {config : LinkProbabilityConfig} {t : TextAnalysis} {corpus : Corpus}
  {anchors : AnchorSource} {languages : List Language} {language : Language}
  {puts : List (String × Binary64)} {putsOf : List (List (String × Binary64))}

theorem exists_of_mem_languages (h : List.Forall₂ (Written config t corpus anchors) languages putsOf)
    (hmem : language ∈ languages) :
    ∃ puts ∈ putsOf, Written config t corpus anchors language puts := by
  induction h with
  | nil => cases hmem
  | cons hfirst _ ih =>
    rcases List.mem_cons.mp hmem with rfl | hmem
    · exact ⟨_, List.mem_cons_self, hfirst⟩
    · obtain ⟨puts, hputs, hwritten⟩ := ih hmem
      exact ⟨puts, List.mem_cons_of_mem _ hputs, hwritten⟩

theorem exists_of_mem_putsOf (h : List.Forall₂ (Written config t corpus anchors) languages putsOf)
    (hmem : puts ∈ putsOf) :
    ∃ language ∈ languages, Written config t corpus anchors language puts := by
  induction h with
  | nil => cases hmem
  | cons hfirst _ ih =>
    rcases List.mem_cons.mp hmem with rfl | hmem
    · exact ⟨_, List.mem_cons_self, hfirst⟩
    · obtain ⟨language, hlanguage, hwritten⟩ := ih hmem
      exact ⟨language, List.mem_cons_of_mem _ hlanguage, hwritten⟩

/-- The keys of all phrases that are written tell these phrases. -/
def Legible (t : TextAnalysis) (corpus : Corpus) (anchors : AnchorSource)
    (languages : List Language) : Prop :=
  ∀ language ∈ languages, ∀ src, Sources.Of corpus anchors language src →
    ∀ w ∈ src.linked t language, StoredKey.Separable language w

theorem Legible.of_codable (hcodes : ∀ language ∈ languages, language.Codable)
    (hspace : ∀ language text, ∀ word ∈ t.words language text, ' ' ∉ word.toList) :
    Legible t corpus anchors languages := by
  intro language hlanguage src _ w hw
  obtain ⟨hne, text, _, rfl⟩ := TextAnalysis.mem_wordLists.mp hw
  exact .of_codable (hcodes language hlanguage) hne (hspace language text)

/-- Every key that is written is one of a phrase with links or of a subgram. -/
theorem key_of_written (h : List.Forall₂ (Written config t corpus anchors) languages putsOf)
    (hlegible : Legible t corpus anchors languages) {key : String} {p : Binary64}
    (hmem : (key, p) ∈ putsOf.flatten) :
    (∃ hash, key = StoredKey.ofSubgram hash) ∨
      ∃ language words, key = StoredKey.ofPhrase language words ∧
        StoredKey.Separable language words := by
  obtain ⟨puts, hputs, hmem⟩ := List.mem_flatten.mp hmem
  obtain ⟨language, hlanguage, src, counter, _, hof, _, rfl⟩ := exists_of_mem_putsOf h hputs
  rw [Sources.puts, List.mem_append, List.mem_map, List.mem_map] at hmem
  rcases hmem with ⟨⟨w, q⟩, hw, heq⟩ | ⟨hash, _, heq⟩
  · cases heq
    exact .inr ⟨language, w, rfl,
      hlegible language hlanguage src hof w (Sources.mem_probabilities hw).1⟩
  · cases heq
    exact .inl ⟨hash, rfl⟩

/-- Under the key of a subgram something is written if some language has an anchor phrase with a
beginning of this hash. -/
theorem isSome_latest_ofSubgram (h : List.Forall₂ (Written config t corpus anchors) languages putsOf)
    (hlegible : Legible t corpus anchors languages) (hash : UInt64) :
    (History.latest putsOf.flatten (StoredKey.ofSubgram hash)).isSome = true ↔
      ∃ language ∈ languages, ∃ src, Sources.Of corpus anchors language src ∧
        (AnchorPhrases.ofPhrases t language src.phrases).subgrams.contains hash = true := by
  rw [History.isSome_latest_iff, List.any_eq_true]
  simp only [beq_iff_eq]
  constructor
  · rintro ⟨⟨key, p⟩, hmem, rfl⟩
    obtain ⟨puts, hputs, hmem⟩ := List.mem_flatten.mp hmem
    obtain ⟨language, hlanguage, src, counter, _, hof, _, rfl⟩ := exists_of_mem_putsOf h hputs
    exact ⟨language, hlanguage, src, hof, ((Sources.mem_puts_ofSubgram_iff _ _
      (hlegible language hlanguage src hof)).mp hmem).1⟩
  · rintro ⟨language, hlanguage, src, hof, hcontains⟩
    obtain ⟨puts, hputs, src', counter, _, hof', _, rfl⟩ := exists_of_mem_languages h hlanguage
    obtain rfl := hof.unique hof'
    exact ⟨_, List.mem_flatten.mpr ⟨_, hputs, (Sources.mem_puts_ofSubgram_iff _ _
      (hlegible language hlanguage src hof)).mpr ⟨hcontains, rfl⟩⟩, rfl⟩

/-- Under the key of a phrase something is written if the phrase is among those of its language
whose probabilities are written. -/
theorem isSome_latest_ofPhrase (h : List.Forall₂ (Written config t corpus anchors) languages putsOf)
    (hlegible : Legible t corpus anchors languages) {w : List String}
    (hw : StoredKey.Separable language w) :
    (History.latest putsOf.flatten (StoredKey.ofPhrase language w)).isSome = true ↔
      language ∈ languages ∧ ∃ src, Sources.Of corpus anchors language src ∧
        (Phrase.hash language w, w) ∈ (LinkCounts.ofPairs t language src.pairs).phrases := by
  rw [History.isSome_latest_iff, List.any_eq_true]
  simp only [beq_iff_eq]
  constructor
  · rintro ⟨⟨key, p⟩, hmem, rfl⟩
    obtain ⟨puts, hputs, hmem⟩ := List.mem_flatten.mp hmem
    obtain ⟨language', hlanguage, src, counter, _, hof, _, rfl⟩ := exists_of_mem_putsOf h hputs
    obtain ⟨rfl, hmem⟩ := (Sources.mem_puts_ofPhrase_iff _ _
      (hlegible language' hlanguage src hof) hw).mp hmem
    obtain ⟨⟨hash, v⟩, hphrase, heq⟩ := List.mem_map.mp hmem
    cases heq
    obtain ⟨_, rfl⟩ := (LinkCounts.represents_ofPairs t language src.pairs).phrases hphrase
    exact ⟨hlanguage, src, hof, hphrase⟩
  · rintro ⟨hlanguage, src, hof, hphrase⟩
    obtain ⟨puts, hputs, src', counter, _, hof', _, rfl⟩ := exists_of_mem_languages h hlanguage
    obtain rfl := hof.unique hof'
    exact ⟨_, List.mem_flatten.mpr ⟨_, hputs, (Sources.mem_puts_ofPhrase_iff _ _
      (hlegible language hlanguage src hof) hw).mpr
        ⟨rfl, List.mem_map.mpr ⟨_, hphrase, rfl⟩⟩⟩, rfl⟩

/-- What is written for a phrase is not written over, neither for another phrase nor for another
language. -/
theorem latest_of_probabilities
    (h : List.Forall₂ (Written config t corpus anchors) languages putsOf)
    (hbatch : 0 < config.batchSize) (hlegible : Legible t corpus anchors languages)
    (hlanguage : language ∈ languages) :
    ∃ src counter scanned, Sources.Of corpus anchors language src ∧
      Scans t config.batchSize language (AnchorPhrases.ofPhrases t language src.phrases).subgrams
        (AnchorPhrases.ofPhrases t language src.phrases).counter 0 src.documents counter scanned ∧
      ∀ w p, (w, p) ∈ probabilities config.smoothing (LinkCounts.ofPairs t language src.pairs)
        counter → History.latest putsOf.flatten (StoredKey.ofPhrase language w) = some p := by
  obtain ⟨puts, hputs, src, counter, scanned, hof, hscans, rfl⟩ :=
    exists_of_mem_languages h hlanguage
  have hkeys := hlegible language hlanguage src hof
  refine ⟨src, counter, scanned, hof, hscans, fun w p hp => ?_⟩
  obtain ⟨hlinked, hvalue⟩ := Sources.mem_probabilities hp
  have hw := hkeys w hlinked
  refine History.latest_eq_some (List.mem_flatten.mpr
    ⟨_, hputs, (Sources.mem_puts_ofPhrase_iff _ _ hkeys hw).mpr ⟨rfl, hp⟩⟩) ?_
  rintro ⟨key, q⟩ hmem rfl
  obtain ⟨puts', hputs', hmem⟩ := List.mem_flatten.mp hmem
  obtain ⟨language', hlanguage', src', counter', _, hof', hscans', rfl⟩ :=
    exists_of_mem_putsOf h hputs'
  obtain ⟨rfl, hq⟩ := (Sources.mem_puts_ofPhrase_iff _ _
    (hlegible language' hlanguage' src' hof') hw).mp hmem
  -- a language that is listed twice is written from the same sources each time
  obtain rfl := hof.unique hof'
  rw [hvalue, (Sources.mem_probabilities hq).2, hscans.count_unique hbatch hscans']

end LinkProbability

namespace Estimator

variable {e e' : Estimator} {corpus : Corpus} {anchors : AnchorSource} {workers : Workers}
  {stats : List BuildStats} {s s' : Session}

/-- The store that is left over in the staging directory, one without entries if there is none. -/
def earlier (fs : FileSystem) (target : Path) : KeyValueStore Binary64 :=
  (leftover? fs target).getD ⟨target.staging, 0, ∅, 0, {}⟩

theorem earlier_of_some {fs : FileSystem} {target : Path} {old : KeyValueStore Binary64}
    (h : leftover? fs target = some old) : earlier fs target = old := by
  rw [earlier, h]
  rfl

theorem earlier_shows {fs : FileSystem} {target : Path} {entries : List LogEntry}
    (h : LeftOver fs target entries) : ∃ rest, (earlier fs target).Shows fs entries rest := by
  unfold LeftOver at h
  cases hleft : leftover? fs target with
  | some store =>
    rw [hleft] at h
    rwa [earlier_of_some hleft]
  | none =>
    rw [hleft] at h
    subst h
    rw [earlier, hleft]
    exact ⟨fs.content 0, by simp, rfl, rfl, rfl⟩

section Nothing

variable {fs : FileSystem} {target : Path} (h : leftover? fs target = none)
include h

theorem earlier_shows_nothing : ∃ rest, (earlier fs target).Shows fs [] rest := by
  refine earlier_shows ?_
  unfold LeftOver
  rw [h]

theorem contains_earlier_of_none (key : String) : (earlier fs target).contains key = false := by
  obtain ⟨_, hshows⟩ := earlier_shows_nothing h
  exact hshows.answersBy_assignments.contains key

theorem get?_earlier_of_none (key : String) : (earlier fs target).get? fs key = .ok none := by
  obtain ⟨_, hshows⟩ := earlier_shows_nothing h
  exact hshows.get?_eq key

end Nothing

/-- The store of a build has what was written, and all else as it was left over. -/
theorem build_recalls (hs : s.disk.WellFormed)
    (h : (e.build corpus anchors workers).run s = ((.ok stats, e'), s')) :
    ∃ store entries putsOf, e' = { e.bare with store := some store } ∧
      s'.disk.openFile (e.config.path.child logName) = .ok store.file ∧
      List.Forall₂ (Written e.config e.analysis corpus anchors) e.config.languages putsOf ∧
      store.Shows s'.disk entries [] ∧
      store.Recalls s'.disk putsOf.flatten (earlier s.disk e.config.path) s.disk := by
  obtain ⟨store, entries, new, putsOf, he, _, hopen, hall, hleft, hnew, hshows⟩ := build_shows hs h
  obtain ⟨rest, hearlier⟩ := earlier_shows hleft
  exact ⟨store, entries ++ new, putsOf, he, hopen, hall, hshows,
    hshows.recalls hearlier hnew fun p _ => decoded_encode p.2⟩

/-- If what was left over is tidy, so is the store of a build. -/
theorem tidy_of_build {store : KeyValueStore Binary64}
    {putsOf : List (List (String × Binary64))} {fs : FileSystem} {old : KeyValueStore Binary64}
    {before : FileSystem} {languages : List Language} {config : LinkProbabilityConfig}
    {t : TextAnalysis} (hall : List.Forall₂ (Written config t corpus anchors) languages putsOf)
    (hlegible : Legible t corpus anchors languages)
    (hrecalls : store.Recalls fs putsOf.flatten old before) (hold : old.Tidy before) :
    store.Tidy fs := by
  refine ⟨hrecalls.reads hold.reads, fun key hash hcontains hparse => ?_⟩
  rw [hrecalls.contains, Bool.or_eq_true] at hcontains
  rcases hcontains with hwritten | hcontains
  · obtain ⟨p, hp⟩ := Option.isSome_iff_exists.mp hwritten
    rcases key_of_written hall hlegible (History.mem_of_latest hp) with
      ⟨other, rfl⟩ | ⟨language, words, rfl, hseparable⟩
    · rw [StoredKey.parse_ofSubgram] at hparse
      rw [StoredKey.subgram.inj hparse]
    · rw [hseparable.parse] at hparse
      cases hparse
  · exact hold.spelled key hash hcontains hparse

theorem tidy_earlier {fs : FileSystem} {target : Path}
    (h : ∀ old, leftover? fs target = some old → old.Tidy fs) : (earlier fs target).Tidy fs := by
  cases hleft : leftover? fs target with
  | some old =>
    rw [earlier_of_some hleft]
    exact h old hleft
  | none =>
    refine ⟨fun key => ⟨none, get?_earlier_of_none hleft key⟩, fun key hash hcontains => ?_⟩
    · rw [contains_earlier_of_none hleft] at hcontains
      cases hcontains

end Estimator
end Relatedness
