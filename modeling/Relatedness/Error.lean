import Relatedness.Codec.Decoder
import Relatedness.Codec.Format
import Relatedness.Disk.IoError
import Relatedness.Disk.Path
import Relatedness.Phrase.Language

/-!
Why an operation of this library fails. Absent rows, empty vectors and unknown phrases are
no errors: they have values such as a similarity of zero.
-/
namespace Relatedness

inductive Error where
  | io (cause : IoError)
  | decoding (cause : DecodeError)
  | normalizerNotFinished
  | storesNotAttached
  | probabilitiesNotBuilt (path : Path)
  | corruptedEntry (offset : Nat)
  | corruptedFile (path : Path) (fault : FileFault)
  /-- Rows that do not come from a file of this library turned out to be unusable. -/
  | corruptedSource (text : String)
  | duplicateRow (id : UInt32) (path : Path)
  /-- A store and what should be its transpose hold different numbers of entries. -/
  | unequalEntries (forward : Path) (entries : Nat) (transpose : Path) (transposed : Nat)
  | emptyBatches
  | noDocuments (language : Language)
  | noPhrases (language : Language)
  | emptyKey
  | keyTooLong (length : Nat)
  | readOnly (path : Path)
  | emptySample
  /-- The workers of a build could not be started. -/
  | threadPool (cause : String)
deriving DecidableEq

def DecodeError.message : DecodeError → String
  | .unexpectedEnd => "io error: failed to fill whole buffer"
  | .invalidBool byte => s!"invalid u8 while decoding bool, expected 0 or 1, found {byte}"
  | .invalidText => "string is not valid utf8"

def Error.message : Error → String
  | .io cause => "IO error: " ++ cause.message
  | .decoding cause => "Serialization error: " ++ cause.message
  | .normalizerNotFinished => "Not built: percentile normalizer observations not finished"
  | .storesNotAttached => "Not built: no matrix stores attached"
  | .probabilitiesNotBuilt path =>
    s!"Not built: link probabilities at {path.text} have not been built; call build()"
  | .corruptedEntry offset => s!"Corrupted entry at offset {offset}"
  | .corruptedFile path fault => s!"Corrupted file: {path.text}: {fault.message}"
  | .corruptedSource text => "Corrupted file: " ++ text
  | .duplicateRow id path =>
    s!"Configuration error: duplicate row id {id} written to {path.text}"
  | .unequalEntries forward entries transpose transposed =>
    s!"Configuration error: {forward.text} has {entries} entries but its transpose "
      ++ s!"{transpose.text} has {transposed}"
  | .emptyBatches => "Configuration error: link probability batch_size must be positive"
  | .noDocuments language =>
    s!"Configuration error: corpus has no documents for language {language.code}"
  | .noPhrases language =>
    s!"Configuration error: anchor source has no phrases for language {language.code}"
  | .emptyKey => "Empty key is not allowed"
  | .keyTooLong length => s!"Key too long: {length} bytes (max 65535)"
  | .readOnly path => "Store is read-only: " ++ path.text
  | .emptySample => "Sample is empty"
  | .threadPool cause => "Thread pool error: " ++ cause

end Relatedness
