import Relatedness.Proofs.Disk.Directories
import Relatedness.Proofs.LinkProbability.Queries

/-! When a build succeeds: the directories can be prepared and replaced, which does not depend on
what is written into files, all sources are there, and no key is too long. -/

namespace Relatedness

open LinkProbability KeyValue

namespace KeyValueStore

variable {V : Type} [Storable V] {s : KeyValueStore V}

theorem foldlM_put_not_fails {α : Type} (items : List α) (keyOf : α → String) (valueOf : α → V)
    (hwritable : s.options.readOnly = false)
    (hkeys : ∀ a ∈ items, 0 < (keyOf a).utf8ByteSize ∧ (keyOf a).utf8ByteSize ≤ maxKeyLength)
    {t t' : Session} {e : Error} :
    ¬Fails (items.foldlM (fun s a => KeyValueStore.put s (keyOf a) (valueOf a)) s) t e t' := by
  induction items generalizing s t with
  | nil => simp
  | cons a rest ih =>
    obtain ⟨hpos, hle⟩ := hkeys a List.mem_cons_self
    have hput := put_succeeds hwritable hpos hle (valueOf a) t
    rw [List.foldlM_cons, fails_bind]
    intro h
    rcases h with hfails | ⟨mid, u, hsucceeds, hfails⟩
    · exact hput.not_fails hfails
    · obtain ⟨rfl, rfl⟩ := hput.unique hsucceeds
      exact ih (s := s.appended (keyOf a) (valueOf a)) hwritable
        (fun b hb => hkeys b (List.mem_cons_of_mem _ hb)) hfails

end KeyValueStore

namespace StoredKey

theorem utf8ByteSize_ofList_le (chars : List Char) :
    (String.ofList chars).utf8ByteSize ≤ 4 * chars.length := by
  induction chars with
  | nil => exact Nat.le_refl 0
  | cons c rest ih =>
    have := c.utf8Size_le_four
    rw [String.ofList_cons, String.utf8ByteSize_append, String.utf8ByteSize_singleton,
      List.length_cons]
    omega

/-- The key of a subgram is never too long. -/
theorem utf8ByteSize_ofSubgram (hash : UInt64) :
    0 < (ofSubgram hash).utf8ByteSize ∧ (ofSubgram hash).utf8ByteSize ≤ maxKeyLength := by
  have hlength : (toString hash.toNat).length ≤ 20 :=
    (Nat.length_repr_le_iff (by decide)).mpr (Nat.lt_of_lt_of_le hash.toNat_lt (by decide))
  have hdigits := utf8ByteSize_ofList_le (toString hash.toNat).toList
  rw [String.ofList_toList, String.length_toList] at hdigits
  have hsize : (ofSubgram hash).utf8ByteSize = 3 + (toString hash.toNat).utf8ByteSize := by
    rw [ofSubgram, String.utf8ByteSize_append]
    rfl
  unfold maxKeyLength
  omega

theorem utf8ByteSize_ofPhrase_pos (language : Language) (words : List String) :
    0 < (ofPhrase language words).utf8ByteSize := by
  have hcolon : ":".utf8ByteSize = 1 := rfl
  rw [ofPhrase, String.utf8ByteSize_append, String.utf8ByteSize_append, hcolon]
  omega

end StoredKey

namespace LinkProbability

/-- The sources of a language are there, and its phrases have keys. -/
def Buildable (t : TextAnalysis) (corpus : Corpus) (anchors : AnchorSource)
    (language : Language) : Prop :=
  ∃ src, Sources.Of corpus anchors language src ∧
    (∃ contents : List Document, src.documents = contents.map .ok) ∧
    ∀ w ∈ src.linked t language, (StoredKey.ofPhrase language w).utf8ByteSize ≤ maxKeyLength

variable {config : LinkProbabilityConfig} {t : TextAnalysis} {corpus : Corpus}
  {anchors : AnchorSource}

/-- No step of building a language fails. -/
theorem buildLanguage_not_fails {language : Language} (h : Buildable t corpus anchors language)
    {store : KeyValueStore Binary64} (hwritable : store.options.readOnly = false)
    {s s' : Session} {e : Error} :
    ¬Fails (buildLanguage config t corpus anchors store language) s e s' := by
  obtain ⟨src, ⟨hphrases, hdocuments, hpairs⟩, ⟨contents, hcontents⟩, hkeys⟩ := h
  have hphraseKeys : ∀ counter, ∀ p ∈ probabilities config.smoothing
      (LinkCounts.ofPairs t language src.pairs) counter,
      0 < (StoredKey.ofPhrase language (Prod.fst p)).utf8ByteSize ∧
        (StoredKey.ofPhrase language (Prod.fst p)).utf8ByteSize ≤ maxKeyLength := by
    intro counter p hp
    refine ⟨StoredKey.utf8ByteSize_ofPhrase_pos _ _, ?_⟩
    rw [probabilities, List.mem_map] at hp
    obtain ⟨⟨hash, w⟩, hmem, rfl⟩ := hp
    exact hkeys w ((LinkCounts.represents_ofPairs t language src.pairs).phrases hmem).1
  intro h
  simp only [buildLanguage, fails_bind, Action.fails_ofExcept, Action.succeeds_ofExcept,
    Action.fails_log, Action.succeeds_log, hphrases, hdocuments, hpairs, reduceCtorEq, false_and,
    false_or, Except.ok.injEq] at h
  obtain ⟨_, _, ⟨rfl, rfl⟩, _, _, rfl, _, _, rfl, _, _, ⟨rfl, rfl⟩, h⟩ := h
  rcases h with hfails | ⟨⟨counter, scanned⟩, u, _, _, v, ⟨rfl, rfl⟩, h⟩
  · rw [hcontents] at hfails
    obtain ⟨_, _, _, hscan⟩ := scanBatches_succeeds contents _
    exact hscan.not_fails hfails
  rcases h with hfails | ⟨mid, w, hfirst, h⟩
  · exact KeyValueStore.foldlM_put_not_fails
      (probabilities config.smoothing (LinkCounts.ofPairs t language src.pairs) counter)
      (fun p => StoredKey.ofPhrase language p.1) Prod.snd hwritable (hphraseKeys counter) hfails
  have hmid := KeyValueStore.Writes.foldlM
    (probabilities config.smoothing (LinkCounts.ofPairs t language src.pairs) counter)
    (fun p => StoredKey.ofPhrase language p.1) Prod.snd (fun p _ => length_encode (Prod.snd p))
    hfirst
  rcases h with hfails | ⟨last, w, _, hfails⟩
  · have hwritable' : mid.options.readOnly = false := by rw [hmid.options, hwritable]
    exact KeyValueStore.foldlM_put_not_fails
      (AnchorPhrases.ofPhrases t language src.phrases).subgrams.toList StoredKey.ofSubgram
      (fun _ => subgramSentinel) hwritable'
      (fun hash _ => StoredKey.utf8ByteSize_ofSubgram hash) hfails
  · split at hfails
    · exact fails_pure hfails
    · simp only [fails_bind, Action.fails_log, fails_pure, and_false, exists_false,
        or_self] at hfails

theorem foldlM_buildLanguage_not_fails {languages : List Language}
    (h : ∀ language ∈ languages, Buildable t corpus anchors language)
    {store : KeyValueStore Binary64} (hwritable : store.options.readOnly = false)
    {before : List BuildStats} {s s' : Session} {e : Error} :
    ¬Fails (languages.foldlM (fun (r : List BuildStats × KeyValueStore Binary64) language =>
      buildLanguage config t corpus anchors r.2 language >>= fun next =>
        pure (r.1 ++ [next.1], next.2)) (before, store)) s e s' := by
  induction languages generalizing before store s with
  | nil => simp
  | cons language rest ih =>
    rw [List.foldlM_cons]
    intro hfails
    simp only [fails_bind, succeeds_bind, succeeds_pure, fails_pure, and_false, exists_false,
      or_false] at hfails
    rcases hfails with hfails | ⟨_, u, ⟨⟨next, mid⟩, _, hlanguage, rfl, rfl⟩, hfails⟩
    · exact buildLanguage_not_fails (h language List.mem_cons_self) hwritable hfails
    · obtain ⟨_, _, hwrites⟩ := buildLanguage_reports hlanguage
      exact ih (fun l hl => h l (List.mem_cons_of_mem _ hl)) (hwrites.options.symm ▸ hwritable)
        hfails

end LinkProbability

namespace Estimator

variable {e : Estimator} {corpus : Corpus} {anchors : AnchorSource} {workers : Workers}
  {s : Session}

/-- The steps of a build with its directories, in which nothing is written. -/
def rehearse (path : Path) : Action (KeyValueStore Binary64) := do
  let staging ← Action.onDisk (Replacement.freshStaging path)
  let _ ← (KeyValueStore.openWith staging {} : Action (KeyValueStore Binary64))
  Action.onDisk (Replacement.replaceDirectory staging path)
  KeyValueStore.openReadOnly path

theorem rehearse_succeeds {path : Path} {store : KeyValueStore Binary64} {u : Session}
    (h : Succeeds (rehearse path) s store u) :
    ∃ fresh opened t replaced file,
      Succeeds (Replacement.freshStaging path) s.disk path.staging fresh ∧
      Succeeds (KeyValueStore.openWith path.staging {} : Action (KeyValueStore Binary64))
        { s with disk := fresh } opened t ∧
      Succeeds (Replacement.replaceDirectory path.staging path : DiskM Unit) t.disk () replaced ∧
      replaced.openFile (path.child logName) = .ok file := by
  simp only [rehearse, succeeds_bind, Action.succeeds_onDisk] at h
  obtain ⟨staging, _, ⟨fresh, hfresh, rfl⟩, opened, t, hopened, _, _, ⟨replaced, hreplace, rfl⟩,
    hopen⟩ := h
  obtain rfl := Replacement.eq_staging_of_freshStaging hfresh
  unfold KeyValueStore.openReadOnly at hopen
  rw [KeyValueStore.openWith_eq, if_pos rfl] at hopen
  obtain ⟨_, file, hfile, _⟩ := KeyValueStore.scanLog_readOnly rfl hopen
  exact ⟨fresh, opened, t, replaced, file, hfresh, hopened, hreplace, hfile⟩

/-- A build succeeds if its sources are there and one that writes nothing would succeed. -/
theorem build_succeeds (hcheck : e.checkSources corpus anchors = .ok ())
    (hworkers : workers e.config.threads = .ok ())
    (hlanguages : ∀ language ∈ e.config.languages,
      Buildable e.analysis corpus anchors language)
    (hrehearse : (outcome (rehearse e.config.path) s).1.isOk = true) :
    ∃ stats e' s', (e.build corpus anchors workers).run s = ((.ok stats, e'), s') := by
  obtain ⟨_, hstore⟩ := exists_succeeds hrehearse
  obtain ⟨fresh, opened, t, replaced, file, hfresh, hopened, hreplace, hlog⟩ :=
    rehearse_succeeds hstore
  have hwritable : opened.options.readOnly = false := by
    rw [KeyValueStore.options_of_openWith hopened]
  rcases succeeds_or_fails (e.bare.buildInto e.config.path.staging corpus anchors)
    { s with disk := fresh } with ⟨stats, staged, hinto⟩ | ⟨cause, u, hfails⟩
  · obtain ⟨opened', t', store, putsOf, hopened', _, hwrites⟩ := buildInto_reports hinto
    obtain ⟨rfl, rfl⟩ := hopened.unique hopened'
    -- what was written is in files, so the directories are still those that were prepared
    have hstaged : staged.disk = t.disk.withFiles staged.disk.files staged.disk.clock := by
      rw [FileSystem.withFiles, ← hwrites.root]
    have hmoved : Succeeds
        (Replacement.replaceDirectory e.config.path.staging e.config.path : DiskM Unit)
        staged.disk () (replaced.withFiles staged.disk.files staged.disk.clock) := by
      rw [hstaged]
      exact (Replacement.ignoresFiles_replaceDirectory _ _).succeeds hreplace _ _
    have hsteps : Succeeds (do
        let stats ← e.bare.buildInto e.config.path.staging corpus anchors
        Action.onDisk (Replacement.replaceDirectory e.config.path.staging e.config.path)
        return stats) { s with disk := fresh } stats
        ⟨replaced.withFiles staged.disk.files staged.disk.clock, staged.log⟩ :=
      succeeds_bind.mpr ⟨stats, staged, hinto, succeeds_bind.mpr
        ⟨(), _, Action.succeeds_onDisk.mpr ⟨_, hmoved, rfl⟩, succeeds_pure.mpr ⟨rfl, rfl⟩⟩⟩
    have hstaging : Succeeds (Action.onDisk (Replacement.freshStaging e.config.path)) s
        e.config.path.staging { s with disk := fresh } :=
      Action.succeeds_onDisk.mpr ⟨fresh, hfresh, rfl⟩
    rcases succeeds_or_fails
      (KeyValueStore.openReadOnly e.config.path : Action (KeyValueStore Binary64))
      ⟨replaced.withFiles staged.disk.files staged.disk.clock, staged.log⟩ with
      ⟨store, s', hopen⟩ | ⟨cause, u, hfails⟩
    · refine ⟨stats, { e.bare with store := some store }, s', ?_⟩
      unfold build
      rw [prepare_eq_ok_iff.mpr ⟨hcheck, hworkers⟩]
      exact hstaging.run_bind.trans (hsteps.run_bind.trans hopen.run_bind)
    · unfold KeyValueStore.openReadOnly at hfails
      rw [KeyValueStore.openWith_eq, if_pos rfl] at hfails
      refine absurd hfails ?_
      apply KeyValueStore.scanLog_readOnly_not_fails rfl
      exact hlog
  · simp only [buildInto, fails_bind] at hfails
    rcases hfails with hfails | ⟨opened', u', hopened', hfails | ⟨_, _, _, hfails⟩⟩
    · exact absurd hfails hopened.not_fails
    · obtain ⟨rfl, rfl⟩ := hopened.unique hopened'
      exact absurd hfails (foldlM_buildLanguage_not_fails hlanguages hwritable)
    · exact absurd hfails fails_pure

end Estimator

end Relatedness
