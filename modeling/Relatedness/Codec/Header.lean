import Relatedness.Error

/-!
The header of saved caches and normalizers, and the value behind it.
-/
namespace Relatedness.FileFormat

def header (format : FileFormat) : Bytes := format.magic ++ Bytes.word 2 format.version

/-- Checks the header of a file and reads the value behind it. A header that is cut off is a
file that ends too early; a value that is cut off cannot be decoded. -/
def load {α : Type} (format : FileFormat) (decoder : Decoder α) (path : Path) (bytes : Bytes) :
    Except Error α := do
  let some (magic, rest) := bytes.split? 4 | throw (.io .unexpectedEnd)
  if magic ≠ format.magic then throw (.corruptedFile path (.wrongMagic format))
  let some (version, body) := rest.split? 2 | throw (.io .unexpectedEnd)
  if version.toNat ≠ format.version then
    throw (.corruptedFile path (.wrongVersion format version.toNat))
  (decoder.decode body).mapError .decoding

end Relatedness.FileFormat
