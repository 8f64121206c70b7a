import Std.Data.TreeSet
import Relatedness.Phrase.Counter
import Relatedness.Phrase.Hash
import Relatedness.Phrase.Source

/-!
Counting anchor phrases in text. From every position of a sentence the scan follows the words
as long as they begin some anchor phrase, and counts each tracked phrase that it passes.
-/
namespace Relatedness

/-- The phrases that a scan looks for. -/
structure AnchorPhrases where
  /-- The hashes of all beginnings of phrases. -/
  subgrams : Std.TreeSet UInt64
  /-- The phrases themselves. -/
  counter : PhraseCounter

namespace AnchorPhrases

def empty : AnchorPhrases := ⟨∅, .empty⟩

/-- Adds a phrase. One without words is no phrase. -/
def add (a : AnchorPhrases) (language : Language) (words : List String) : AnchorPhrases :=
  if words.isEmpty then a
  else
    { subgrams := (Phrase.prefixHashes language words).foldl (fun ids h => ids.insert h) a.subgrams
      counter := a.counter.track (Phrase.hash language words) }

def ofPhrases (t : TextAnalysis) (language : Language) (phrases : List String) : AnchorPhrases :=
  phrases.foldl (fun a phrase => a.add language (t.words language phrase)) empty

end AnchorPhrases

namespace Occurrences

/-- Extends a hash by words as long as the result is a subgram. -/
def follow (subgrams : Std.TreeSet UInt64) (h : UInt64) : List String → List UInt64
  | [] => []
  | word :: rest =>
    let next := Phrase.fold h word
    if subgrams.contains next then next :: follow subgrams next rest else []

/-- The hashes passed from every position of a sentence. -/
def ofSentence (subgrams : Std.TreeSet UInt64) (language : Language) : List String → List UInt64
  | [] => []
  | word :: rest =>
    follow subgrams (Phrase.startHash language) (word :: rest) ++ ofSentence subgrams language rest

def ofDocument (t : TextAnalysis) (subgrams : Std.TreeSet UInt64) (language : Language)
    (document : Document) : List UInt64 :=
  (document.sentences t language).flatMap (ofSentence subgrams language)

end Occurrences
end Relatedness
