import Mathlib.Logic.Relation
import Relatedness.LinkProbability.Estimate
import Relatedness.Proofs.Phrase.Occurrences
import Relatedness.Proofs.Run

/-! Counting phrases with several workers. Within a batch every document has a worker, and the
increments of the workers come in any order; the next batch starts when all of them are done.
No order and no batch size changes the counts: they are those of a naive count, which looks for
every phrase at every start of every sentence. -/

namespace Relatedness.LinkProbability

/-- A batch at work: what each worker has still to count, and the counts that they share. -/
structure Batch where
  pending : List (List UInt64)
  counter : PhraseCounter

namespace Batch

/-- A batch of documents before any worker has counted anything. -/
def ofDocuments (t : TextAnalysis) (subgrams : Std.TreeSet UInt64) (language : Language)
    (documents : List Document) (counter : PhraseCounter) : Batch :=
  ⟨documents.map (Occurrences.ofDocument t subgrams language), counter⟩

/-- One of the workers, whichever it is, counts the next hash that it has passed. -/
inductive Step : Batch → Batch → Prop
  | increment (before after : List (List UInt64)) (h : UInt64) (rest : List UInt64)
      (counter : PhraseCounter) :
    Step ⟨before ++ (h :: rest) :: after, counter⟩ ⟨before ++ rest :: after, counter.increment h⟩

/-- All workers are done. -/
def Finished (b : Batch) : Prop := ∀ hashes ∈ b.pending, hashes = []

/-- What a hash is going to be counted to. -/
def expected (b : Batch) (k : UInt64) : Nat :=
  b.counter.count k + if b.counter.isTracked k then b.pending.flatten.count k else 0

variable {b b' : Batch}

theorem Step.isTracked (h : Step b b') (k : UInt64) :
    b'.counter.isTracked k = b.counter.isTracked k := by
  obtain ⟨before, after, hash, rest, counter⟩ := h
  exact counter.isTracked_increment hash k

theorem Step.expected (h : Step b b') (k : UInt64) : b'.expected k = b.expected k := by
  have htracked := h.isTracked k
  obtain ⟨before, after, hash, rest, counter⟩ := h
  simp only [Batch.expected, htracked, PhraseCounter.count_increment]
  by_cases hk : counter.isTracked k = true
  · simp only [hk, if_true, List.flatten_append, List.flatten_cons, List.count_append,
      List.count_cons, List.count_nil]
    omega
  · simp only [hk, Bool.false_eq_true, if_false, Nat.add_zero]

theorem isTracked_of_run (h : Relation.ReflTransGen Step b b') (k : UInt64) :
    b'.counter.isTracked k = b.counter.isTracked k := by
  induction h with
  | refl => rfl
  | tail _ hstep ih => rw [hstep.isTracked, ih]

theorem expected_of_run (h : Relation.ReflTransGen Step b b') (k : UInt64) :
    b'.expected k = b.expected k := by
  induction h with
  | refl => rfl
  | tail _ hstep ih => rw [hstep.expected, ih]

/-- When all workers are done, every tracked hash has been counted as often as it was passed. -/
theorem count_of_finished (h : Relation.ReflTransGen Step b b') (hdone : b'.Finished)
    (k : UInt64) : b'.counter.count k = b.expected k := by
  rw [← expected_of_run h k, expected, List.flatten_eq_nil_iff.mpr hdone]
  simp

/-- The schedule in which the workers take turns in order, each until it is done. -/
theorem run_in_order (pending done : List (List UInt64)) (counter : PhraseCounter)
    (hdone : ∀ hashes ∈ done, hashes = []) :
    ∃ last, Relation.ReflTransGen Step ⟨done ++ pending, counter⟩
      ⟨last, pending.foldl PhraseCounter.incrementAll counter⟩ ∧ ∀ hashes ∈ last, hashes = [] := by
  induction pending generalizing done counter with
  | nil => exact ⟨done, by simpa using .refl, hdone⟩
  | cons hashes rest ih =>
    have hworker : Relation.ReflTransGen Step ⟨done ++ hashes :: rest, counter⟩
        ⟨done ++ [] :: rest, counter.incrementAll hashes⟩ := by
      induction hashes generalizing counter with
      | nil => exact .refl
      | cons h more ih' => exact .head (.increment done rest h more counter) (ih' _)
    obtain ⟨last, hrun, hlast⟩ := ih (done ++ [[]]) (counter.incrementAll hashes) (by
      intro hashes hmem
      rcases List.mem_append.mp hmem with hmem | hmem
      · exact hdone hashes hmem
      · exact List.mem_singleton.mp hmem)
    rw [List.append_assoc] at hrun
    exact ⟨last, hworker.trans hrun, hlast⟩

end Batch

/-- Batch after batch, each under some schedule of its workers. Every document of a batch has
to be there before its workers start. -/
inductive Scans (t : TextAnalysis) (batchSize : Nat) (language : Language)
    (subgrams : Std.TreeSet UInt64) :
    PhraseCounter → Nat → List (Except Error Document) → PhraseCounter → Nat → Prop
  | done {counter scanned documents} (hempty : documents.take batchSize = []) :
    Scans t batchSize language subgrams counter scanned documents counter scanned
  | batch {counter scanned documents} {batch : List Document} {last : Batch} {counter' scanned'}
      (hbatch : documents.take batchSize = batch.map .ok) (hne : batch ≠ [])
      (hrun : Relation.ReflTransGen Batch.Step
        (Batch.ofDocuments t subgrams language batch counter) last)
      (hdone : last.Finished)
      (hrest : Scans t batchSize language subgrams last.counter (scanned + batch.length)
        (documents.drop batchSize) counter' scanned') :
    Scans t batchSize language subgrams counter scanned documents counter' scanned'

variable {t : TextAnalysis} {batchSize : Nat} {language : Language}
  {subgrams : Std.TreeSet UInt64} {counter counter' : PhraseCounter} {scanned scanned' : Nat}
  {documents : List (Except Error Document)}

/-- After a scan all documents were there, and each hash that is tracked has been counted as
often as any document passes it. -/
theorem Scans.counts (hsize : 0 < batchSize)
    (h : Scans t batchSize language subgrams counter scanned documents counter' scanned') :
    ∃ contents : List Document, documents = contents.map .ok ∧
      scanned' = scanned + contents.length ∧
      ∀ k, counter'.isTracked k = counter.isTracked k ∧
        counter'.count k = counter.count k + if counter.isTracked k then
          (contents.flatMap (Occurrences.ofDocument t subgrams language)).count k else 0 := by
  induction h with
  | @done counter scanned documents hempty =>
    have hnil : documents = [] := by
      rcases List.take_eq_nil_iff.mp hempty with h | h
      · omega
      · exact h
    subst hnil
    exact ⟨[], rfl, rfl, fun k => ⟨rfl, by simp⟩⟩
  | @batch counter scanned documents batch last counter' scanned' hbatch _ hrun hdone _ ih =>
    obtain ⟨contents, hcontents, hscanned, hcounts⟩ := ih
    refine ⟨batch ++ contents, ?_, ?_, fun k => ?_⟩
    · rw [List.map_append, ← hbatch, ← hcontents, List.take_append_drop]
    · rw [hscanned, List.length_append, Nat.add_assoc]
    · obtain ⟨htracked, hcount⟩ := hcounts k
      have hlast : last.counter.isTracked k = counter.isTracked k := Batch.isTracked_of_run hrun k
      have hbatchCount : last.counter.count k = counter.count k + if counter.isTracked k then
          (batch.flatMap (Occurrences.ofDocument t subgrams language)).count k else 0 :=
        Batch.count_of_finished hrun hdone k
      refine ⟨htracked.trans hlast, ?_⟩
      rw [hcount, hlast, hbatchCount, List.flatMap_append, List.count_append]
      split <;> omega

/-- All scans of the same documents count the same. -/
theorem Scans.count_unique {last : PhraseCounter} {total : Nat} (hsize : 0 < batchSize)
    (h : Scans t batchSize language subgrams counter scanned documents counter' scanned')
    (h' : Scans t batchSize language subgrams counter scanned documents last total) (k : UInt64) :
    counter'.count k = last.count k := by
  obtain ⟨contents, rfl, _, hcounts⟩ := h.counts hsize
  obtain ⟨contents', hsame, _, hcounts'⟩ := h'.counts hsize
  obtain rfl : contents = contents' :=
    List.map_injective_iff.mpr (fun _ _ => Except.ok.inj) hsame
  rw [(hcounts k).2, (hcounts' k).2]

theorem eq_map_ok_of_mapM {α : Type} {results : List (Except Error α)} {values : List α}
    (h : results.mapM id = .ok values) : results = values.map .ok := by
  induction results generalizing values with
  | nil =>
    cases h
    rfl
  | cons result rest ih =>
    rw [List.mapM_cons] at h
    cases result with
    | error cause => cases h
    | ok value =>
      cases hrest : rest.mapM id with
      | error cause =>
        rw [hrest] at h
        cases h
      | ok more =>
        rw [hrest] at h
        cases h
        rw [List.map_cons, ih hrest]

/-- Scanning only logs. -/
theorem keeps_scanBatches (fs : FileSystem) (counter : PhraseCounter) (scanned : Nat)
    (documents : List (Except Error Document)) : Keeps (fun s : Session => s.disk = fs)
      (scanBatches t batchSize language subgrams counter scanned documents) := by
  induction hn : documents.length using Nat.strongRecOn generalizing documents counter scanned with
  | ind n ih =>
    rw [scanBatches]
    split
    · exact Keeps.pure
    · rename_i first more htake
      refine Keeps.bind (fun s hs => hs) fun batch => Keeps.bind (fun s hs => hs) fun _ => ?_
      refine ih _ ?_ _ _ _ rfl
      have hlength := congrArg List.length htake
      simp only [List.length_take, List.length_cons] at hlength
      rw [List.length_drop]
      omega

theorem mapM_map_ok {α : Type} (values : List α) :
    (values.map (.ok : α → Except Error α)).mapM id = .ok values := by
  induction values with
  | nil => rfl
  | cons value rest ih =>
    rw [List.map_cons, List.mapM_cons, ih]
    rfl

/-- Scanning in the order of the documents is one of the schedules. -/
theorem Scans.of_scanBatches {s s' : Session}
    (h : Succeeds (scanBatches t batchSize language subgrams counter scanned documents) s
      (counter', scanned') s') :
    Scans t batchSize language subgrams counter scanned documents counter' scanned' := by
  induction hn : documents.length using Nat.strongRecOn generalizing documents counter scanned s with
  | ind n ih =>
    rw [scanBatches] at h
    split at h
    · rename_i hempty
      simp only [succeeds_pure, Prod.mk.injEq] at h
      obtain ⟨⟨rfl, rfl⟩, _⟩ := h
      exact .done hempty
    · rename_i first more htake
      simp only [succeeds_bind, Action.succeeds_ofExcept, Action.succeeds_log] at h
      obtain ⟨batch, _, ⟨hmapM, _⟩, _, _, _, hrest⟩ := h
      have hbatch := eq_map_ok_of_mapM hmapM
      have hne : batch ≠ [] := by
        intro heq
        subst heq
        cases hbatch
      obtain ⟨last, hrun, hlast⟩ := Batch.run_in_order
        (batch.map (Occurrences.ofDocument t subgrams language)) [] counter (by simp)
      rw [List.foldl_map] at hrun
      refine .batch (htake.trans hbatch) hne hrun hlast (ih _ ?_ hrest rfl)
      have hlength := congrArg List.length htake
      simp only [List.length_take, List.length_cons] at hlength
      rw [List.length_drop]
      omega

/-- If all documents are there, the scan succeeds. -/
theorem scanBatches_succeeds (contents : List Document) (s : Session) :
    ∃ counter' scanned' s', Succeeds (scanBatches t batchSize language subgrams counter scanned
      (contents.map .ok)) s (counter', scanned') s' := by
  induction hn : contents.length using Nat.strongRecOn generalizing contents counter scanned s with
  | ind n ih =>
    rw [scanBatches]
    split
    · exact ⟨counter, scanned, s, by simp⟩
    · rename_i first more htake
      have hbatch : (first :: more).mapM id = .ok (contents.take batchSize) := by
        rw [← htake, ← List.map_take]
        exact mapM_map_ok _
      rw [hbatch]
      simp only [succeeds_bind, Action.succeeds_ofExcept, Action.succeeds_log, Except.ok.injEq]
      have hlength := congrArg List.length htake
      simp only [List.length_take, List.length_map, List.length_cons] at hlength
      rw [← List.map_drop]
      obtain ⟨counter', scanned', s', hrest⟩ := ih (contents.drop batchSize).length
        (by rw [List.length_drop]; omega) (contents.drop batchSize) _ rfl
      exact ⟨counter', scanned', s', _, _, ⟨rfl, rfl⟩, (), _, rfl, hrest⟩

/-- How a document is cleaned. A text is cut into sentences, and each of them normalized and cut into
words. Of a document that comes as words those of each sentence are put together again, with spaces
between them, and the sentence is normalized and cut like any other. -/
def cleaned (t : TextAnalysis) (language : Language) : Document → List (List String)
  | .raw text => (t.sentences language text).map fun sentence =>
      t.words language (t.normalize language sentence)
  | .tokenized sentences => sentences.map fun words =>
      t.words language (t.normalize language (" ".intercalate words))

theorem sentences_eq_cleaned (document : Document) :
    document.sentences t language = cleaned t language document := by
  cases document <;> rfl

/-- The cleaned sentences of all documents that are there. -/
def sentencesOf (t : TextAnalysis) (language : Language)
    (documents : List (Except Error Document)) : List (List String) :=
  documents.flatMap fun
    | .ok document => cleaned t language document
    | .error _ => []

theorem flatMap_ofDocument (contents : List Document) :
    contents.flatMap (Occurrences.ofDocument t subgrams language) =
      (sentencesOf t language (contents.map .ok)).flatMap
        (Occurrences.ofSentence subgrams language) := by
  rw [sentencesOf, List.flatMap_map, List.flatMap_assoc]
  refine List.flatMap_congr fun document _ => ?_
  rw [Occurrences.ofDocument, sentences_eq_cleaned]

/-- The counts of a scan are those of a naive count, which looks for each anchor phrase at every
start of every sentence. -/
structure Counted (t : TextAnalysis) (language : Language) (phrases : List String)
    (documents : List (Except Error Document)) (counter : PhraseCounter) (scanned : Nat) :
    Prop where
  all_there : ∃ contents : List Document, documents = contents.map .ok
  scanned_eq : scanned = documents.length
  tracked_iff : ∀ k, counter.isTracked k = true ↔
    ∃ w ∈ t.wordLists language phrases, Phrase.hash language w = k
  count_eq : ∀ w ∈ t.wordLists language phrases, counter.count (Phrase.hash language w) =
    Occurrences.inSentences w (sentencesOf t language documents)
  /-- Phrases that only begin anchor phrases, or only occur in the text, have no count. -/
  others : ∀ u ∈ Occurrences.compared (t.wordLists language phrases)
      (sentencesOf t language documents), u ∉ t.wordLists language phrases →
    counter.isTracked (Phrase.hash language u) = false ∧
      counter.count (Phrase.hash language u) = 0

/-- No schedule and no batch size shows in the counts. -/
theorem Scans.counted {phrases : List String} (hsize : 1 ≤ batchSize)
    (hdistinct : Set.InjOn (Phrase.hash language)
      (Occurrences.compared (t.wordLists language phrases) (sentencesOf t language documents)))
    (h : Scans t batchSize language (AnchorPhrases.ofPhrases t language phrases).subgrams
      (AnchorPhrases.ofPhrases t language phrases).counter 0 documents counter scanned) :
    Counted t language phrases documents counter scanned := by
  obtain ⟨contents, hcontents, hscanned, hcounts⟩ := h.counts hsize
  have htracked : ∀ k, counter.isTracked k = true ↔
      ∃ w ∈ t.wordLists language phrases, Phrase.hash language w = k := by
    intro k
    rw [(hcounts k).1, AnchorPhrases.isTracked_ofPhrases]
  have hothers : ∀ u ∈ Occurrences.compared (t.wordLists language phrases)
      (sentencesOf t language documents), u ∉ t.wordLists language phrases →
      counter.isTracked (Phrase.hash language u) = false := by
    intro u hu hnot
    rw [Bool.eq_false_iff]
    intro hk
    obtain ⟨w, hw, heq⟩ := (htracked _).mp hk
    have hne : w ≠ [] := (TextAnalysis.mem_wordLists.mp hw).1
    exact hnot (hdistinct ⟨hne, .inl ⟨w, hw, List.prefix_rfl⟩⟩ hu heq ▸ hw)
  refine ⟨⟨contents, hcontents⟩, ?_, htracked, ?_, ?_⟩
  · rw [hscanned, hcontents, List.length_map, Nat.zero_add]
  · intro w hw
    have hk := (AnchorPhrases.isTracked_ofPhrases t language phrases _).mpr ⟨w, hw, rfl⟩
    rw [(hcounts _).2, AnchorPhrases.count_ofPhrases, if_pos hk, Nat.zero_add,
      flatMap_ofDocument, ← hcontents]
    exact Occurrences.count_flatMap_ofSentence t phrases hdistinct hw
  · intro u hu hnot
    exact ⟨hothers u hu hnot, PhraseCounter.count_of_not_tracked _ _ (hothers u hu hnot)⟩

/-- A scan by any number of workers, in batches of any size and under any schedule, counts what
a naive count does. The scan that takes the documents in their order is such a scan, and it
succeeds if all documents are there. -/
theorem counted_of_scan (t : TextAnalysis) (language : Language) (phrases : List String)
    (documents : List (Except Error Document)) (batchSize : Nat) (hsize : 1 ≤ batchSize)
    (hdistinct : Set.InjOn (Phrase.hash language)
      (Occurrences.compared (t.wordLists language phrases) (sentencesOf t language documents))) :
    let found := AnchorPhrases.ofPhrases t language phrases
    (∀ counter scanned,
      Scans t batchSize language found.subgrams found.counter 0 documents counter scanned →
        Counted t language phrases documents counter scanned) ∧
    (∀ counter scanned s s',
      Succeeds (scanBatches t batchSize language found.subgrams found.counter 0 documents) s
        (counter, scanned) s' →
      Scans t batchSize language found.subgrams found.counter 0 documents counter scanned) ∧
    ∀ contents : List Document, documents = contents.map .ok → ∀ s, ∃ counter scanned s',
      Succeeds (scanBatches t batchSize language found.subgrams found.counter 0 documents) s
        (counter, scanned) s' := by
  refine ⟨fun counter scanned h => h.counted hsize hdistinct,
    fun counter scanned s s' h => .of_scanBatches h, ?_⟩
  rintro contents rfl s
  exact scanBatches_succeeds contents s

/-- Two documents in batches of one: the phrase of two words stands in both of them, once in the
first and twice, overlapping, in the second, which comes as words. -/
theorem counted_of_scan_twoDocuments :
    let t : TextAnalysis :=
      ⟨fun _ text => [text], fun _ text => text.toList.map Char.toString, fun _ text => text⟩
    let found := AnchorPhrases.ofPhrases t ⟨"en"⟩ ["b", "aa"]
    ∃ counter scanned s',
      Succeeds (scanBatches t 1 ⟨"en"⟩ found.subgrams found.counter 0
        [.ok (.raw "baa"), .ok (.tokenized [["aaa", "b"]])]) ⟨.empty 0, []⟩ (counter, scanned) s' ∧
      scanned = 2 ∧ counter.count (Phrase.hash ⟨"en"⟩ ["a", "a"]) = 3 ∧
      counter.count (Phrase.hash ⟨"en"⟩ ["a"]) = 0 := by
  intro t found
  obtain ⟨hcounted, hscans, hsucceeds⟩ := counted_of_scan t ⟨"en"⟩ ["b", "aa"]
    [.ok (.raw "baa"), .ok (.tokenized [["aaa", "b"]])] 1 (by decide)
    (Occurrences.injOn_of_windows (by decide +kernel))
  obtain ⟨counter, scanned, s', h⟩ :=
    hsucceeds [.raw "baa", .tokenized [["aaa", "b"]]] rfl ⟨.empty 0, []⟩
  have hcounts := hcounted counter scanned (hscans counter scanned _ s' h)
  refine ⟨counter, scanned, s', h, hcounts.scanned_eq, ?_, ?_⟩
  · exact (hcounts.count_eq ["a", "a"] (by decide +kernel)).trans (by decide +kernel)
  · exact (hcounts.others ["a"] ⟨by decide, .inl ⟨["a", "a"], by decide +kernel, ⟨["a"], rfl⟩⟩⟩
      (by decide +kernel)).2

end Relatedness.LinkProbability
