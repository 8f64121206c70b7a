import Relatedness.Codec.Header
import Relatedness.Disk.Replacement
import Relatedness.Number.Decimal
import Relatedness.Percentile.Curve
import Relatedness.Percentile.Generator

/-!
Percentile normalization: raw scores are observed first and then mapped to `(0, 1)` by their
rank among the observed ones. Observing more scores reopens the sample.
-/
namespace Relatedness

structure NormalizerConfig where
  /-- The largest number of scores that are kept. -/
  maxSampleSize : Nat := 10000
  /-- What the source of the reservoir's slots starts from. -/
  seed : UInt64 := 0x5eed

structure Normalizer (S G : Type) where
  config : NormalizerConfig
  reservoir : Reservoir S
  /-- Where the reservoir draws its slots from. -/
  slots : G
  /-- Present once the observations are finished. -/
  curve : Option (Curve S)

namespace Normalizer

section Observing

variable {S G : Type} [Scale S] [SlotSource G]

def new (config : NormalizerConfig) : Normalizer S G where
  config
  reservoir := .empty
  slots := SlotSource.ofSeed config.seed
  curve := none

def isFinished (n : Normalizer S G) : Bool := n.curve.isSome

/-- Takes a score in. NaNs and infinities are ignored. -/
def observe (n : Normalizer S G) (x : S) : Normalizer S G :=
  if Scale.isFinite x then
    let (reservoir, slots) := n.reservoir.observe n.config.maxSampleSize n.slots x
    { n with reservoir, slots, curve := none }
  else n

/-- Sorts the sample and makes the curve. -/
def finish (n : Normalizer S G) : Except Error (Normalizer S G) :=
  let sorted := n.reservoir.sample.toList.mergeSort Scale.totalLe
  match Curve.ofSorted? sorted with
  | some curve => .ok { n with
      reservoir := { n.reservoir with sample := sorted.toArray }
      curve := some curve }
  | none => .error .emptySample

/-- Forgets all observations. -/
def reset (n : Normalizer S G) : Normalizer S G := new n.config

def finishedCurve (n : Normalizer S G) : Except Error (Curve S) :=
  match n.curve with
  | some curve => .ok curve
  | none => .error .normalizerNotFinished

/-- The normalized score, in `(0, 1)`. Every NaN is answered with the same one. -/
def normalize (n : Normalizer S G) (x : S) : Except Error S :=
  n.finishedCurve.map fun curve => if Scalar.isNaN x then Scale.nan else curve.value x

/-- The smallest and the largest score of the sample. -/
def range (n : Normalizer S G) : Except Error (S × S) :=
  n.finishedCurve.map fun curve => (curve.low, curve.high)

/-- The scores of the sample at 0, 5, ..., 100 percent of its ranks. -/
def percentiles (n : Normalizer S G) : Except Error (List (Nat × S)) :=
  n.finishedCurve.map fun _ =>
    let size := n.reservoir.sample.size
    (List.range 21).filterMap fun i =>
      let percent := 5 * i
      (n.reservoir.sample[min (percent * size / 100) (size - 1)]?).map (percent, ·)

end Observing

variable {G : Type}

/-- The percentiles in one line. -/
def dump (n : Normalizer Binary64 G) : Except Error String := do
  let points := (← n.percentiles).map fun (percent, x) => s!"{percent}%: " ++ x.plainText
  return "percentile normalizer: " ++ ", ".intercalate points

def encode (n : Normalizer Binary64 G) : Bytes :=
  FileFormat.normalizer.header
    ++ Bytes.word 8 n.config.maxSampleSize ++ Bytes.word 8 n.config.seed.toNat
    ++ Bytes.word 8 n.reservoir.observed ++ Bytes.word 1 n.isFinished.toNat
    ++ Bytes.word 8 n.reservoir.sample.size
    ++ n.reservoir.sample.toList.flatMap (Bytes.word 8 ·.bits.toNat)

/-- What is saved of a normalizer: all but its curve and the state of its source of slots. -/
structure Saved where
  config : NormalizerConfig
  reservoir : Reservoir Binary64
  finished : Bool

def Saved.decoder : Decoder Saved := do
  let maxSampleSize ← Decoder.word 8
  let seed ← Decoder.word 8
  let observed ← Decoder.word 8
  let finished ← Decoder.bool
  let sample ← Decoder.list Decoder.binary64
  return {
    config := { maxSampleSize, seed := UInt64.ofNat seed }
    reservoir := { sample := sample.toArray, count := UInt64.ofNat observed }
    finished }

/-- The normalizer that was saved. Its source of slots starts anew from the seed. -/
def Saved.restore [SlotSource G] (s : Saved) : Except Error (Normalizer Binary64 G) :=
  let n := { (new s.config : Normalizer Binary64 G) with reservoir := s.reservoir }
  if s.finished then n.finish else .ok n

def save (n : Normalizer Binary64 G) (path : Path) : DiskM Unit :=
  Replacement.replaceFile (path.withExtension "tmp") path n.encode false

def load [SlotSource G] (fs : FileSystem) (path : Path) : Except Error (Normalizer Binary64 G) := do
  let saved ← FileFormat.normalizer.load Saved.decoder path (← (fs.readFile path).mapError .io)
  saved.restore

end Normalizer
end Relatedness
