import Relatedness.Proofs.Codec.Decoder
import Relatedness.Proofs.Disk.Saved
import Relatedness.Proofs.Number.Binary64
import Relatedness.Proofs.Percentile.Sample

/-! Saving a normalizer and loading it again. The curve is not written. It is made again from the
sample, which a finished normalizer keeps sorted, so it comes out as it was. The source of slots is
not written either, and starts anew. -/

namespace Relatedness

namespace Binary64

/-- A sorted sample has the order of its numbers, whatever order they came in. -/
theorem mergeSort_eq_of_perm {values values' : List Binary64} (h : values.Perm values') :
    values.mergeSort totalLe = values'.mergeSort totalLe := by
  have hperm : (values.mergeSort totalLe).Perm (values'.mergeSort totalLe) :=
    (List.mergeSort_perm values _).trans (h.trans (List.mergeSort_perm values' _).symm)
  exact hperm.eq_of_pairwise (fun _ _ _ _ => totalLe_antisymm)
    (List.pairwise_mergeSort totalLe_trans totalLe_total values)
    (List.pairwise_mergeSort totalLe_trans totalLe_total values')

/-- A sorted sample stays in its order when it is sorted again. -/
theorem mergeSort_mergeSort (values : List Binary64) :
    (values.mergeSort totalLe).mergeSort totalLe = values.mergeSort totalLe :=
  mergeSort_eq_of_perm (List.mergeSort_perm values _)

end Binary64

namespace Normalizer

/-! ## What comes back -/

section Asking

variable {S G : Type} [Scale S] [SlotSource G]

/-- Nothing that is asked of two normalizers tells them apart. -/
structure Agrees (n m : Normalizer S G) : Prop where
  config : n.config = m.config
  observed : n.reservoir.observed = m.reservoir.observed
  sample : n.reservoir.sample = m.reservoir.sample
  finished : n.isFinished = m.isFinished
  normalize : ∀ x, n.normalize x = m.normalize x
  range : n.range = m.range
  percentiles : n.percentiles = m.percentiles

/-- The same normalizer with a source of slots that starts anew. -/
def reseeded (n : Normalizer S G) : Normalizer S G :=
  { n with slots := SlotSource.ofSeed n.config.seed }

/-- Where the slots come from is not asked. -/
theorem agrees_reseeded (n : Normalizer S G) : n.reseeded.Agrees n where
  config := rfl
  observed := rfl
  sample := rfl
  finished := rfl
  normalize _ := rfl
  range := rfl
  percentiles := rfl

end Asking

variable {G : Type} {config : NormalizerConfig} {total : Nat} {n : Normalizer Binary64 G}
  {fs fs' : FileSystem} {path : Path}

def saved (n : Normalizer Binary64 G) : Saved := ⟨n.config, n.reservoir, n.isFinished⟩

theorem Regular.restore [SlotSource G] (h : n.Regular config total) :
    n.saved.restore = .ok n.reseeded := by
  unfold Saved.restore saved
  cases hcurve : n.curve with
  | none =>
    simp only [isFinished, hcurve, Option.isSome_none, Bool.false_eq_true, if_false, reseeded, new]
  | some c =>
    obtain ⟨hc, values, hvalues⟩ := h.settled c hcurve
    have hsorted : n.reservoir.sample.toList.mergeSort Scale.totalLe =
        n.reservoir.sample.toList := by
      rw [hvalues]
      exact Binary64.mergeSort_mergeSort values
    simp only [isFinished, hcurve, Option.isSome_some, if_true, Normalizer.finish, hsorted, hc,
      reseeded, new]

/-- Without a score beyond the largest number that is kept, no slot was drawn. -/
theorem Regular.reseeded_eq [SlotSource G] (h : n.Regular config total)
    (hoverflow : overflow n.config total = 0) : n.reseeded = n := by
  have hslots := h.slots
  rw [Drawn, hoverflow] at hslots
  unfold reseeded
  rw [show SlotSource.ofSeed n.config.seed = n.slots from hslots.symm]

/-! ## The file -/

/-- The numbers of a normalizer are written in words of eight bytes. -/
structure Fits (n : Normalizer Binary64 G) : Prop where
  maxSampleSize : n.config.maxSampleSize < 2 ^ 64

open Decoder

theorem takes_sample {sample : Array Binary64} (h : sample.size < 2 ^ 64) :
    Takes (list binary64)
      (Bytes.word 8 sample.size ++ sample.toList.flatMap (Bytes.word 8 ·.bits.toNat))
      sample.toList := by
  have hlist := takes_list (f := fun x => x) h fun x (_ : x ∈ sample.toList) => takes_binary64 x
  rwa [List.map_id'] at hlist

theorem seals_encode (h : n.Fits) (hsize : n.reservoir.sample.size < 2 ^ 64) :
    FileFormat.normalizer.Seals Saved.decoder n.encode n.saved := by
  have hencode : n.encode = FileFormat.normalizer.header ++
      (Bytes.word 8 n.config.maxSampleSize ++ (Bytes.word 8 n.config.seed.toNat ++
      (Bytes.word 8 n.reservoir.observed ++ (Bytes.word 1 n.isFinished.toNat ++
      (Bytes.word 8 n.reservoir.sample.size ++
        n.reservoir.sample.toList.flatMap (Bytes.word 8 ·.bits.toNat)))))) := by
    simp only [encode, List.append_assoc]
  have hsaved : n.saved = {
      config := { n.config with seed := UInt64.ofNat n.config.seed.toNat }
      reservoir := {
        sample := n.reservoir.sample.toList.toArray
        count := UInt64.ofNat n.reservoir.observed }
      finished := n.isFinished } := by
    rw [Reservoir.observed, UInt64.ofNat_toNat, UInt64.ofNat_toNat]
    rfl
  rw [hencode, hsaved]
  refine FileFormat.seals_header .normalizer ?_
  refine (takes_word h.maxSampleSize).bind ?_
  refine (takes_word n.config.seed.toNat_lt).bind ?_
  refine (takes_word n.reservoir.count.toNat_lt).bind ?_
  exact (takes_bool n.isFinished).bind (takes_sample hsize).map

variable [SlotSource G]

theorem Regular.seals (h : n.Regular config total) (hfits : n.Fits) :
    FileFormat.normalizer.Seals Saved.decoder n.encode n.saved := by
  have hsize := h.stocked.size
  have hmax := hfits.maxSampleSize
  exact seals_encode hfits (by omega)

/-- A file that begins with what was saved is loaded. -/
theorem Regular.load (h : n.Regular config total) (hfits : n.Fits) {rest : Bytes}
    (hread : fs.readFile path = .ok (n.encode ++ rest)) : load fs path = .ok n.reseeded := by
  unfold Normalizer.load
  rw [hread]
  simp only [Except.mapError, bind, Except.bind, (h.seals hfits).load]
  exact h.restore

theorem Regular.load_of_save (h : n.Regular config total) (hfits : n.Fits) (hfs : fs.WellFormed)
    (hsave : Succeeds (n.save path) fs () fs') : Normalizer.load fs' path = .ok n.reseeded := by
  have hread := Replacement.readFile_of_replaceFile hfs hsave
  rw [← List.append_nil n.encode] at hread
  exact h.load hfits hread

/-- A file that ends before what was saved is refused. -/
theorem Regular.load_torn (h : n.Regular config total) (hfits : n.Fits) {piece : Bytes}
    (hpiece : piece <+: n.encode) (hcut : piece ≠ n.encode)
    (hread : fs.readFile path = .ok piece) :
    (Normalizer.load fs path : Except Error (Normalizer Binary64 G)) =
      .error (if piece.length < 6 then .io .unexpectedEnd else .decoding .unexpectedEnd) := by
  unfold Normalizer.load
  rw [hread]
  simp only [Except.mapError, bind, Except.bind, (h.seals hfits).torn path piece hpiece hcut]

end Normalizer

end Relatedness
