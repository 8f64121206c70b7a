import Relatedness.KeyValue.Store
import Relatedness.LinkProbability.Key
import Relatedness.Number.Decimal
import Relatedness.Phrase.Occurrences

/-!
Estimating the link probabilities of one language: the number of links that have a phrase as
their anchor, over the number of times that the phrase occurs in the text plus a constant.
-/
namespace Relatedness

structure LinkProbabilityConfig where
  /-- The directory of the probability store. -/
  path : Path := Path.ofText "link-probability"
  languages : List Language := []
  /-- Added to the number of occurrences before dividing. -/
  smoothing : Binary64 := .ofNat 3
  /-- How many documents are scanned at a time. -/
  batchSize : Nat := 100
  /-- How many workers scan them; none for as many as the machine has. -/
  threads : Option Nat := none

/-- What building the probabilities of a language did. -/
structure BuildStats where
  language : Language
  /-- Distinct anchor phrases. -/
  anchors : Nat
  /-- Distinct beginnings of anchor phrases. -/
  subgrams : Nat
  /-- Documents scanned. -/
  documents : Nat
  /-- Probabilities written. -/
  inserted : Nat
  /-- Phrases that do not occur in the text. -/
  misses : Nat
  /-- The mean of the written probabilities, zero if there are none. -/
  meanProbability : Binary64

namespace LinkProbability

/-- The value stored under subgram keys. It is no probability. -/
def subgramSentinel : Binary64 := -1

/-- Numbers of links by phrase hash, and the phrases with their hashes. A number that outgrows its
word begins at zero again. -/
structure LinkCounts where
  totals : Std.HashMap UInt64 UInt64
  phrases : List (UInt64 × List String)

namespace LinkCounts

/-- Adds the links of a phrase to those of the phrases with the same words. -/
def add (c : LinkCounts) (language : Language) (words : List String) (links : UInt64) :
    LinkCounts :=
  let hash := Phrase.hash language words
  if words.isEmpty then c
  else if c.totals.contains hash then { c with totals := c.totals.modify hash (· + links) }
  else ⟨c.totals.insert hash links, (hash, words) :: c.phrases⟩

/-- The phrases come in the order of their first pairs. -/
def ofPairs (t : TextAnalysis) (language : Language) (counts : List (String × UInt64)) :
    LinkCounts :=
  let c := counts.foldl
    (fun (c : LinkCounts) (phrase, links) => c.add language (t.words language phrase) links) ⟨∅, []⟩
  { c with phrases := c.phrases.reverse }

def total (c : LinkCounts) (hash : UInt64) : UInt64 := c.totals[hash]?.getD 0

end LinkCounts

/-- The smoothed quotient of links and occurrences. -/
def probability (smoothing : Binary64) (links occurrences : Nat) : Binary64 :=
  .ofNat links / (.ofNat occurrences + smoothing)

/-- Counts the phrases in documents, a batch at a time, from the counts and the number of
documents so far. A batch with a document that fails is not counted. -/
def scanBatches (t : TextAnalysis) (batchSize : Nat) (language : Language)
    (subgrams : Std.TreeSet UInt64) (counter : PhraseCounter) (scanned : Nat)
    (documents : List (Except Error Document)) : Action (PhraseCounter × Nat) :=
  match _h : documents.take batchSize with
  | [] => return (counter, scanned)
  | first :: more => do
    let batch ← Action.ofExcept ((first :: more).mapM id)
    let counter := batch.foldl
      (fun c d => c.incrementAll (Occurrences.ofDocument t subgrams language d)) counter
    let scanned := scanned + batch.length
    Action.log .debug s!"scanned {scanned} documents for language {language.code}"
    scanBatches t batchSize language subgrams counter scanned (documents.drop batchSize)
termination_by documents.length
decreasing_by
  have := congrArg List.length _h
  simp only [List.length_take, List.length_cons] at this
  simp only [List.length_drop]
  omega

/-- The probabilities of the phrases of a language, in the order of the phrases. -/
def probabilities (smoothing : Binary64) (counts : LinkCounts) (counter : PhraseCounter) :
    List (List String × Binary64) :=
  counts.phrases.map fun (hash, words) =>
    (words, probability smoothing (counts.total hash).toNat (counter.count hash))

def mean (values : List Binary64) : Binary64 :=
  if values.isEmpty then 0 else values.foldl (· + ·) 0 / .ofNat values.length

/-- Writes the probabilities and subgrams of a language into a store. -/
def buildLanguage (config : LinkProbabilityConfig) (t : TextAnalysis) (corpus : Corpus)
    (anchors : AnchorSource) (store : KeyValueStore Binary64) (language : Language) :
    Action (BuildStats × KeyValueStore Binary64) := do
  let found := AnchorPhrases.ofPhrases t language (← Action.ofExcept (anchors.phrases language))
  Action.log .info
    (s!"found {found.counter.size} unique anchor texts and {found.subgrams.size} subgrams "
      ++ s!"for language {language.code}")
  Action.log .info s!"building link probabilities for language {language.code}"
  let documents ← Action.ofExcept (corpus.documents language)
  let (counter, scanned) ←
    scanBatches t config.batchSize language found.subgrams found.counter 0 documents
  let pairs ← Action.ofExcept (anchors.phraseCounts language)
  let counts := LinkCounts.ofPairs t language pairs
  let written := probabilities config.smoothing counts counter
  let store ← written.foldlM
    (fun s (words, p) => s.put (StoredKey.ofPhrase language words) p) store
  let store ← found.subgrams.toList.foldlM
    (fun s h => s.put (StoredKey.ofSubgram h) subgramSentinel) store
  let misses := (counts.phrases.filter fun (hash, _) => counter.count hash == 0).length
  let meanProbability := mean (written.map Prod.snd)
  unless written.isEmpty do
    Action.log .info
      (s!"inserted link probabilities for {written.length} anchors with mean probability "
        ++ s!"{meanProbability.fixedText 4} and {misses} misses")
  return ({
    language, misses, meanProbability
    anchors := counter.size
    subgrams := found.subgrams.size
    documents := scanned
    inserted := written.length }, store)

end LinkProbability
end Relatedness
