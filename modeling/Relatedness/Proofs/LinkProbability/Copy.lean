import Relatedness.Proofs.LinkProbability.Queries

/-! The copy of a store in memory. It is made by reading every key back, and files the values of
phrases under their hashes. It answers as the store does where the keys that were read are spelled
as the queries spell them and no two phrases have one hash. -/

namespace Relatedness

open LinkProbability KeyValue

/-! ## Entries that are taken in -/

namespace ProbabilityCache

/-- The copy with an entry taken in. -/
def taken (c : ProbabilityCache) (entry : String × Binary64) : ProbabilityCache :=
  match StoredKey.parse entry.1 with
  | .subgram hash => { c with subgrams := c.subgrams.insert hash }
  | .phrase language words =>
    { c with probabilities := c.probabilities.insert (Phrase.hash language words) entry.2 }
  | .malformedSubgram => c
  | .malformedPhrase => c

/-- The copy of a store with these entries. -/
def copy (entries : List (String × Binary64)) : ProbabilityCache := entries.foldl taken empty

variable {c : ProbabilityCache} {s : Session} {entries : List (String × Binary64)}

/-- A phrase that can be told from its key is filed under its hash. -/
theorem succeeds_add_ofPhrase {language : Language} {words : List String}
    (h : StoredKey.Separable language words) (value : Binary64) :
    Succeeds (c.add (StoredKey.ofPhrase language words) value) s
      { c with probabilities := c.probabilities.insert (Phrase.hash language words) value } s := by
  unfold add
  rw [h.parse]
  exact succeeds_pure.mpr ⟨rfl, rfl⟩

theorem succeeds_add_ofSubgram (hash : UInt64) (value : Binary64) :
    Succeeds (c.add (StoredKey.ofSubgram hash) value) s
      { c with subgrams := c.subgrams.insert hash } s := by
  unfold add
  rw [StoredKey.parse_ofSubgram]
  exact succeeds_pure.mpr ⟨rfl, rfl⟩

/-- No entry stops a copy; one with a key that cannot be read is left out. -/
theorem exists_succeeds_add (c : ProbabilityCache) (entry : String × Binary64) (s : Session) :
    ∃ t, Succeeds (c.add entry.1 entry.2) s (c.taken entry) t ∧ t.disk = s.disk := by
  unfold add taken
  cases StoredKey.parse entry.1 with
  | subgram hash => exact ⟨s, succeeds_pure.mpr ⟨rfl, rfl⟩, rfl⟩
  | phrase language words => exact ⟨s, succeeds_pure.mpr ⟨rfl, rfl⟩, rfl⟩
  | malformedSubgram =>
    exact ⟨_, succeeds_bind.mpr ⟨(), _, Action.succeeds_log.mpr rfl, succeeds_pure.mpr ⟨rfl, rfl⟩⟩,
      Session.disk_record _ _ _⟩
  | malformedPhrase =>
    exact ⟨_, succeeds_bind.mpr ⟨(), _, Action.succeeds_log.mpr rfl, succeeds_pure.mpr ⟨rfl, rfl⟩⟩,
      Session.disk_record _ _ _⟩

theorem exists_succeeds_addAll (c : ProbabilityCache) (entries : List (String × Binary64))
    (s : Session) :
    ∃ t, Succeeds (c.addAll (entries.map .ok)) s (entries.foldl taken c) t ∧ t.disk = s.disk := by
  induction entries generalizing c s with
  | nil => exact ⟨s, succeeds_pure.mpr ⟨rfl, rfl⟩, rfl⟩
  | cons entry rest ih =>
    obtain ⟨mid, hadd, hmid⟩ := exists_succeeds_add c entry s
    obtain ⟨t, hrest, ht⟩ := ih (c.taken entry) mid
    refine ⟨t, ?_, ht.trans hmid⟩
    exact succeeds_bind.mpr ⟨entry, s, Action.succeeds_ofExcept.mpr ⟨rfl, rfl⟩,
      succeeds_bind.mpr ⟨_, mid, hadd, hrest⟩⟩

/-! ## What is found in a copy -/

/-- The values of the phrases, under their hashes. -/
def hashed (entries : List (String × Binary64)) : List (UInt64 × Binary64) :=
  entries.filterMap fun entry => match StoredKey.parse entry.1 with
    | .phrase language words => some (Phrase.hash language words, entry.2)
    | _ => none

theorem mem_hashed_iff {hash : UInt64} {value : Binary64} :
    (hash, value) ∈ hashed entries ↔ ∃ language words, StoredKey.Separable language words ∧
      Phrase.hash language words = hash ∧ (StoredKey.ofPhrase language words, value) ∈ entries := by
  rw [hashed, List.mem_filterMap]
  constructor
  · rintro ⟨⟨key, v⟩, hmem, heq⟩
    split at heq
    · rename_i language words hparse
      cases heq
      obtain ⟨rfl, hseparable⟩ := StoredKey.parse_eq_phrase_iff.mp hparse
      exact ⟨language, words, hseparable, rfl, hmem⟩
    · cases heq
  · rintro ⟨language, words, hseparable, rfl, hmem⟩
    refine ⟨_, hmem, ?_⟩
    simp only [hseparable.parse]

theorem probabilities_copy (entries : List (String × Binary64)) :
    (copy entries).probabilities = History.toMap (hashed entries) := by
  induction entries using List.reverseRecOn with
  | nil => rfl
  | append_singleton entries entry ih =>
    rw [copy, List.foldl_append, hashed, List.filterMap_append, ← hashed]
    change ((copy entries).taken entry).probabilities = _
    unfold taken
    rw [List.filterMap_cons, List.filterMap_nil]
    cases StoredKey.parse entry.1 with
    | phrase language words =>
      simp only [ih]
      exact (History.toMap_append_singleton _ _ _).symm
    | subgram hash => simpa using ih
    | malformedSubgram => simpa using ih
    | malformedPhrase => simpa using ih

theorem contains_subgrams_copy (entries : List (String × Binary64)) (hash : UInt64) :
    (copy entries).subgrams.contains hash = true ↔
      ∃ entry ∈ entries, StoredKey.parse entry.1 = .subgram hash := by
  induction entries using List.reverseRecOn with
  | nil => simp [copy, empty]
  | append_singleton entries entry ih =>
    rw [copy, List.foldl_append]
    change ((copy entries).taken entry).subgrams.contains hash = true ↔ _
    unfold taken
    simp only [List.mem_append, List.mem_singleton, or_and_right, exists_or, exists_eq_left, ← ih]
    cases StoredKey.parse entry.1 with
    | subgram other => simp [Std.HashSet.contains_insert, or_comm]
    | phrase language words => simp
    | malformedSubgram => simp
    | malformedPhrase => simp

end ProbabilityCache

/-! ## A copy of a store -/

namespace KeyValueStore

/-- Every value can be read, and what is read as the key of a subgram is spelled as such. -/
structure Tidy (store : KeyValueStore Binary64) (fs : FileSystem) : Prop where
  reads : ∀ key, ∃ found, store.get? fs key = .ok found
  spelled : ∀ key hash, store.contains key = true → StoredKey.parse key = .subgram hash →
    key = StoredKey.ofSubgram hash

/-- No other phrase that is stored has the hash of this one, and this one is not stored with the
value of subgrams. -/
structure Undisturbed (store : KeyValueStore Binary64) (fs : FileSystem) (language : Language)
    (words : List String) : Prop where
  hash : ∀ language' words', StoredKey.Separable language' words' →
    store.contains (StoredKey.ofPhrase language' words') = true →
      Phrase.hash language' words' = Phrase.hash language words →
        language' = language ∧ words' = words
  value : ∀ p, store.get? fs (StoredKey.ofPhrase language words) = .ok (some p) →
    p.same subgramSentinel = false

variable {store other : KeyValueStore Binary64} {fs fs' : FileSystem} {entries : List LogEntry}
  {tail tail' : Bytes}

theorem Tidy.of_shows (htidy : store.Tidy fs) (h : store.Shows fs entries tail)
    (h' : other.Shows fs' entries tail') : other.Tidy fs' := by
  refine ⟨fun key => ?_, fun key hash hcontains => ?_⟩
  · rw [h.get?_congr h']
    exact htidy.reads key
  · rw [h.contains_congr h'] at hcontains
    exact htidy.spelled key hash hcontains

theorem Undisturbed.of_shows {language : Language} {words : List String}
    (hundisturbed : store.Undisturbed fs language words) (h : store.Shows fs entries tail)
    (h' : other.Shows fs' entries tail') : other.Undisturbed fs' language words := by
  refine ⟨fun language' words' hseparable hcontains => ?_, fun p hp => ?_⟩
  · rw [h.contains_congr h'] at hcontains
    exact hundisturbed.hash language' words' hseparable hcontains
  · rw [h.get?_congr h'] at hp
    exact hundisturbed.value p hp

end KeyValueStore

namespace ProbabilityCache

variable {store : KeyValueStore Binary64} {fs : FileSystem} {entries : List LogEntry}
  {tail : Bytes} {listed : List (String × Binary64)}

/-- What the copy has under the hash of a phrase is what the store has under its key. -/
theorem get?_eq_copy (hmem : ∀ key value,
      (key, value) ∈ listed ↔ store.get? fs key = .ok (some value))
    (h : store.Shows fs entries tail) (htidy : store.Tidy fs) {language : Language}
    {words : List String} (hseparable : StoredKey.Separable language words)
    (hundisturbed : store.Undisturbed fs language words) :
    store.get? fs (StoredKey.ofPhrase language words) =
      .ok (copy listed).probabilities[Phrase.hash language words]? := by
  rw [probabilities_copy, History.getElem?_toMap]
  have hsame : ∀ {value}, (Phrase.hash language words, value) ∈ hashed listed →
      store.get? fs (StoredKey.ofPhrase language words) = .ok (some value) := by
    intro value hvalue
    obtain ⟨language', words', hseparable', hhash, hentry⟩ := mem_hashed_iff.mp hvalue
    have hget := (hmem _ _).mp hentry
    have hstored := (h.contains_iff htidy.reads).mpr ⟨value, hget⟩
    obtain ⟨rfl, rfl⟩ := hundisturbed.hash language' words' hseparable' hstored hhash
    exact hget
  obtain ⟨found, hfound⟩ := htidy.reads (StoredKey.ofPhrase language words)
  rw [hfound]
  cases found with
  | some value =>
    have hvalue : (Phrase.hash language words, value) ∈ hashed listed :=
      mem_hashed_iff.mpr ⟨language, words, hseparable, rfl, (hmem _ _).mpr hfound⟩
    rw [History.latest_eq_some hvalue fun other hother heq => ?_]
    obtain ⟨hash, value'⟩ := other
    obtain rfl : hash = Phrase.hash language words := heq
    have hget := hsame hother
    rw [hfound] at hget
    cases hget
    rfl
  | none =>
    rw [History.latest_eq_none_iff.mpr]
    rintro ⟨hash, value⟩ hother rfl
    have hget := hsame hother
    rw [hfound] at hget
    cases hget

theorem contains_subgrams_eq (hmem : ∀ key value,
      (key, value) ∈ listed ↔ store.get? fs key = .ok (some value))
    (h : store.Shows fs entries tail) (htidy : store.Tidy fs) (hash : UInt64) :
    (copy listed).subgrams.contains hash = store.contains (StoredKey.ofSubgram hash) := by
  rw [Bool.eq_iff_iff, contains_subgrams_copy, h.contains_iff htidy.reads]
  constructor
  · rintro ⟨⟨key, value⟩, hentry, hparse⟩
    have hget := (hmem _ _).mp hentry
    have hstored := (h.contains_iff htidy.reads).mpr ⟨value, hget⟩
    obtain rfl := htidy.spelled key hash hstored hparse
    exact ⟨value, hget⟩
  · rintro ⟨value, hget⟩
    exact ⟨_, (hmem _ _).mpr hget, StoredKey.parse_ofSubgram hash⟩

end ProbabilityCache

namespace Estimator

variable {e : Estimator} {store : KeyValueStore Binary64} {s : Session} {entries : List LogEntry}
  {tail : Bytes} {language : Language} {phrase : String} {normalize : Bool}

theorem isSubphrase_eq (hstore : e.store = some store) :
    e.isSubphrase language phrase normalize =
      if e.analysis.clean language phrase normalize = [] then .ok false
      else
        let hash := Phrase.hash language (e.analysis.clean language phrase normalize)
        match e.cache with
        | some cache => .ok (cache.subgrams.contains hash || cache.probabilities.contains hash)
        | none => .ok (store.contains (StoredKey.ofSubgram hash) ||
            store.contains (StoredKey.ofPhrase language
              (e.analysis.clean language phrase normalize))) := by
  unfold isSubphrase openStore
  rw [hstore]
  by_cases hwords : e.analysis.clean language phrase normalize = []
  · simp only [hwords, if_true]
    rfl
  · simp only [List.isEmpty_iff, hwords, if_false]
    rfl

theorem isSubphrase_of_store (hstore : e.store = some store) (hcache : e.cache = none) :
    e.isSubphrase language phrase normalize =
      if e.analysis.clean language phrase normalize = [] then .ok false
      else .ok (store.contains (StoredKey.ofSubgram
          (Phrase.hash language (e.analysis.clean language phrase normalize))) ||
        store.contains (StoredKey.ofPhrase language
          (e.analysis.clean language phrase normalize))) := by
  rw [isSubphrase_eq hstore, hcache]

theorem isSubphrase_of_copy {cache : ProbabilityCache} (hstore : e.store = some store)
    (hcache : e.cache = some cache) :
    e.isSubphrase language phrase normalize =
      if e.analysis.clean language phrase normalize = [] then .ok false
      else .ok (cache.subgrams.contains
          (Phrase.hash language (e.analysis.clean language phrase normalize)) ||
        cache.probabilities.contains
          (Phrase.hash language (e.analysis.clean language phrase normalize))) := by
  rw [isSubphrase_eq hstore, hcache]

theorem probability_of_copy {cache : ProbabilityCache} {fs : FileSystem}
    (hstore : e.store = some store) (hcache : e.cache = some cache) :
    e.probability fs language phrase normalize =
      if e.analysis.clean language phrase normalize = [] then .ok 0
      else .ok (cache.probabilities[Phrase.hash language
        (e.analysis.clean language phrase normalize)]?.getD 0) := by
  unfold probability openStore
  rw [hstore, hcache]
  by_cases hwords : e.analysis.clean language phrase normalize = []
  · simp only [hwords, if_true]
    rfl
  · simp only [List.isEmpty_iff, hwords, if_false]
    rfl

theorem exists_succeeds_useCache (hstore : e.store = some store)
    {listed : List (String × Binary64)} (hlisted : store.entries s.disk = listed.map .ok) :
    ∃ t, Succeeds (e.useCache true) s
      { e with cache := some (ProbabilityCache.copy listed) } t ∧ t.disk = s.disk := by
  have hopen : e.openStore = .ok store := by
    unfold openStore
    rw [hstore]
  let started := s.record .info s!"building link probability cache from {store.directory.text}"
  obtain ⟨t, hall, ht⟩ := ProbabilityCache.exists_succeeds_addAll .empty listed started
  have hdisk : started.disk = s.disk := Session.disk_record _ _ _
  rw [← hlisted, ← hdisk] at hall
  unfold useCache
  rw [if_pos rfl, hopen]
  exact ⟨_, succeeds_bind.mpr ⟨store, s, Action.succeeds_ofExcept.mpr ⟨rfl, rfl⟩,
    succeeds_bind.mpr ⟨(), started, Action.succeeds_log.mpr rfl,
      succeeds_bind.mpr ⟨started.disk, started, Action.succeeds_disk.mpr ⟨rfl, rfl⟩,
        succeeds_bind.mpr ⟨_, t, hall, succeeds_bind.mpr ⟨(), _, Action.succeeds_log.mpr rfl,
          succeeds_pure.mpr ⟨rfl, rfl⟩⟩⟩⟩⟩⟩,
    (Session.disk_record t _ _).trans (ht.trans hdisk)⟩

/-- The copy can be turned on, and then these phrases, and those without words, are answered as they
are without it. Turning it off leaves the estimator as it was. -/
def AgreesWithCopy (e : Estimator) (s : Session) (asked : Language → List String → Prop) : Prop :=
  ∃ cached t, Succeeds (e.useCache true) s cached t ∧ t.disk = s.disk ∧
    Succeeds (cached.useCache false) t e t ∧
    ∀ language phrase normalize,
      (e.analysis.clean language phrase normalize ≠ [] →
        asked language (e.analysis.clean language phrase normalize)) →
      cached.probability t.disk language phrase normalize =
          e.probability s.disk language phrase normalize ∧
        cached.isSubphrase language phrase normalize = e.isSubphrase language phrase normalize

theorem AgreesWithCopy.mono {asked asked' : Language → List String → Prop}
    (h : e.AgreesWithCopy s asked)
    (himp : ∀ language phrase normalize,
      e.analysis.clean language phrase normalize ≠ [] →
        asked' language (e.analysis.clean language phrase normalize) →
        asked language (e.analysis.clean language phrase normalize)) :
    e.AgreesWithCopy s asked' := by
  obtain ⟨cached, t, hon, ht, hoff, hagree⟩ := h
  exact ⟨cached, t, hon, ht, hoff, fun language phrase normalize hasked =>
    hagree language phrase normalize fun hne => himp language phrase normalize hne (hasked hne)⟩

theorem agreesWithCopy (hstore : e.store = some store) (hcache : e.cache = none)
    (h : store.Shows s.disk entries tail) (htidy : store.Tidy s.disk) :
    e.AgreesWithCopy s fun language words =>
      StoredKey.Separable language words ∧ store.Undisturbed s.disk language words := by
  obtain ⟨listed, hlisted, hmem⟩ := h.exists_entries htidy.reads
  obtain ⟨t, hcached, ht⟩ := exists_succeeds_useCache hstore hlisted
  refine ⟨_, t, hcached, ht, ?_, fun language phrase normalize hquery => ?_⟩
  · unfold useCache
    rw [if_neg (by simp)]
    refine succeeds_pure.mpr ⟨?_, rfl⟩
    rw [← hcache]
  rw [probability_of_copy (e := { e with cache := some (.copy listed) }) hstore rfl,
    isSubphrase_of_copy (e := { e with cache := some (.copy listed) }) hstore rfl,
    probability_of_store hstore hcache, isSubphrase_of_store hstore hcache]
  generalize e.analysis.clean language phrase normalize = words at hquery
  by_cases hwords : words = []
  · simp only [hwords, if_true, and_self]
  obtain ⟨hseparable, hundisturbed⟩ := hquery hwords
  have hget := ProbabilityCache.get?_eq_copy hmem h htidy hseparable hundisturbed
  have hsubgram := ProbabilityCache.contains_subgrams_eq hmem h htidy (Phrase.hash language words)
  have hphrase : (ProbabilityCache.copy listed).probabilities.contains
      (Phrase.hash language words) = store.contains (StoredKey.ofPhrase language words) := by
    rw [Bool.eq_iff_iff, h.contains_iff htidy.reads, hget, Std.HashMap.contains_eq_isSome_getElem?,
      Option.isSome_iff_exists]
    simp
  rw [if_neg hwords, if_neg hwords, if_neg hwords, if_neg hwords, hsubgram, hphrase]
  refine ⟨?_, rfl⟩
  rw [hget]
  have hvalue := hundisturbed.value
  rw [hget] at hvalue
  cases hfound : (ProbabilityCache.copy listed).probabilities[Phrase.hash language words]? with
  | none => rfl
  | some p => exact congrArg Except.ok (answered_some (hvalue p (by rw [hfound]))).symm

end Estimator
end Relatedness
