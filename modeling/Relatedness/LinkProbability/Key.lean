import Relatedness.Phrase.Language
import Relatedness.Text.Split

/-!
The keys that link probabilities are stored under. A phrase has its language before a colon
and its words behind it; a beginning of phrases has its hash behind `:s:`.
-/
namespace Relatedness

/-- What a key of the store stands for. -/
inductive StoredKey where
  | subgram (hash : UInt64)
  | phrase (language : Language) (words : List String)
  | malformedSubgram
  | malformedPhrase
deriving DecidableEq

namespace StoredKey

def ofPhrase (language : Language) (words : List String) : String :=
  language.code ++ ":" ++ " ".intercalate words

def ofSubgram (hash : UInt64) : String := ":s:" ++ toString hash.toNat

/-- Reads a key back. -/
def parse (key : String) : StoredKey :=
  match key.toList with
  | ':' :: 's' :: ':' :: digits =>
    match Text.parseWord digits with
    | some hash => subgram hash
    | none => malformedSubgram
  | chars =>
    match Text.splitFirst ':' chars with
    | some (code, words) =>
      phrase ⟨String.ofList code⟩ ((Text.splitAll ' ' words).map String.ofList)
    | none => malformedPhrase

end StoredKey
end Relatedness
