import Relatedness.Error

/-!
What link probabilities are estimated from: text, the anchor phrases of links, and the
analysis that cuts both into words.
-/
namespace Relatedness

/-- How text is cut into sentences and words and brought to one form. -/
structure TextAnalysis where
  sentences : Language → String → List String
  words : Language → String → List String
  normalize : Language → String → String

/-- The words of a text, which is first normalized if asked for. -/
def TextAnalysis.clean (t : TextAnalysis) (language : Language) (text : String)
    (normalize : Bool) : List String :=
  t.words language (if normalize then t.normalize language text else text)

inductive Document where
  | raw (text : String)
  | tokenized (sentences : List (List String))

/-- The cleaned sentences of a document. -/
def Document.sentences (t : TextAnalysis) (language : Language) : Document → List (List String)
  | raw text => (t.sentences language text).map (t.clean language · true)
  | tokenized sentences => sentences.map fun words => t.clean language (" ".intercalate words) true

/-- Documents by language. A request may fail, and so may each document. -/
structure Corpus where
  languages : List Language
  documents : Language → Except Error (List (Except Error Document))

/-- Anchor phrases by language, and how often each is a link. -/
structure AnchorSource where
  languages : List Language
  phrases : Language → Except Error (List String)
  phraseCounts : Language → Except Error (List (String × UInt64))

/-- Numbers of links that are given as natural numbers are taken as words. -/
instance coeCounts : Coe (List (String × Nat)) (List (String × UInt64)) where
  coe counts := counts.map fun (phrase, links) => (phrase, UInt64.ofNat links)

end Relatedness
