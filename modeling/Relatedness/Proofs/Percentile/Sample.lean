import Relatedness.Proofs.Percentile.Runs

/-! The sample of a normalizer, whatever was done to it. It has as many scores as were taken in, up
to the largest number that is kept, and a slot has been drawn for each score beyond that number. So
how many scores there are does not depend on where the slots come from. The normalizer itself counts
them in a word of eight bytes. -/

namespace Relatedness

/-- A source of slots after so many were drawn, the first of them for a reservoir that had taken in
as many values as it keeps. Of how many slots each is drawn is the count of the reservoir. -/
def SlotSource.after {G : Type} [SlotSource G] (g : G) (capacity : Nat) : Nat → G
  | 0 => g
  | drawn + 1 => (draw (after g capacity drawn) (UInt64.ofNat (capacity + drawn + 1)).toNat).2

namespace Reservoir

variable {S G : Type} {r : Reservoir S} {capacity total : Nat}

/-- What a reservoir is that so many values were offered to: it has counted them in its word, and
has kept every one until it was full. -/
structure Stocked (r : Reservoir S) (capacity total : Nat) : Prop where
  count : r.count = UInt64.ofNat total
  size : r.sample.size = min total capacity

theorem stocked_empty (capacity : Nat) : (empty : Reservoir S).Stocked capacity 0 where
  count := rfl
  size := (Nat.zero_min capacity).symm

theorem Stocked.count_add_one (h : r.Stocked capacity total) :
    r.count + 1 = UInt64.ofNat (total + 1) := by
  rw [h.count, UInt64.ofNat_add]
  rfl

theorem Stocked.isFull_iff (h : r.Stocked capacity total) :
    r.isFull capacity = true ↔ 0 < capacity ∧ capacity ≤ total := by
  have hsize := h.size
  simp only [isFull, Bool.and_eq_true, decide_eq_true_eq]
  omega

theorem size_offer (r : Reservoir S) (capacity : Nat) (x : S) (slot : Nat) :
    (r.offer capacity x slot).sample.size =
      if r.sample.size < capacity then r.sample.size + 1 else r.sample.size := by
  unfold offer
  split
  · exact Array.size_push x
  · split
    · exact Array.size_setIfInBounds
    · rfl

theorem Stocked.offer (h : r.Stocked capacity total) (x : S) (slot : Nat) :
    (r.offer capacity x slot).Stocked capacity (total + 1) where
  count := h.count_add_one
  size := by
    have hsize := h.size
    rw [size_offer]
    split <;> omega

/-- A value is offered with the slot that was drawn for it, or with none, which leaves the source of
slots as it was. -/
theorem observe_cases [SlotSource G] (r : Reservoir S) (capacity : Nat) (g : G) (x : S) :
    ∃ slot g', r.observe capacity g x = (r.offer capacity x slot, g') ∧
      ((r.isFull capacity = false ∧ g' = g) ∨
        r.isFull capacity = true ∧ (slot, g') = SlotSource.draw g (r.count + 1).toNat) := by
  unfold observe
  cases hfull : r.isFull capacity with
  | false => exact ⟨0, g, rfl, .inl ⟨rfl, rfl⟩⟩
  | true => exact ⟨_, _, rfl, .inr ⟨rfl, rfl⟩⟩

end Reservoir

namespace Normalizer

variable {S G : Type} [Scale S] {n : Normalizer S G} {config : NormalizerConfig} {total : Nat}

/-- How many of so many scores came when the sample was full. -/
def overflow (config : NormalizerConfig) (total : Nat) : Nat :=
  if config.maxSampleSize = 0 then 0 else total - config.maxSampleSize

theorem overflow_of_le (h : total ≤ config.maxSampleSize) : overflow config total = 0 := by
  unfold overflow
  split
  · rfl
  · exact Nat.sub_eq_zero_of_le h

/-- How many scores have been taken in since the last reset, if it were so many before this
operation. -/
def Operation.tally (total : Nat) : Operation S → Nat
  | .observe x => if Scale.isFinite x then total + 1 else total
  | .finish => total
  | .reset => 0

/-- The number of scores that operations have taken in since the last reset. -/
def tally (operations : List (Operation S)) : Nat := operations.foldl Operation.tally 0

variable [SlotSource G]

/-! ## Operations -/

/-- What is not a finite number is left out. Another score is offered to the reservoir, with the
slot that was drawn for it if one was needed, and reopens the sample. -/
theorem apply_observe_cases (n : Normalizer S G) (x : S) :
    (Scale.isFinite x = false ∧ n.apply (.observe x) = n) ∨
      Scale.isFinite x = true ∧ ∃ slot g, n.apply (.observe x) = { n with
          reservoir := n.reservoir.offer n.config.maxSampleSize x slot
          slots := g
          curve := none } ∧
        ((n.reservoir.isFull n.config.maxSampleSize = false ∧ g = n.slots) ∨
          n.reservoir.isFull n.config.maxSampleSize = true ∧
            (slot, g) = SlotSource.draw n.slots (n.reservoir.count + 1).toNat) := by
  have hobserve : n.apply (.observe x) = if Scale.isFinite x then { n with
      reservoir := (n.reservoir.observe n.config.maxSampleSize n.slots x).1
      slots := (n.reservoir.observe n.config.maxSampleSize n.slots x).2
      curve := none } else n := rfl
  rw [hobserve]
  cases hfinite : Scale.isFinite x with
  | false => exact .inl ⟨rfl, rfl⟩
  | true =>
    obtain ⟨slot, g, heq, hslots⟩ :=
      n.reservoir.observe_cases n.config.maxSampleSize n.slots x
    rw [if_pos rfl, heq]
    exact .inr ⟨rfl, slot, g, rfl, hslots⟩

/-- A normalizer is finished if it has a sample, which is sorted then; otherwise it stays as it
is. -/
theorem apply_finish_cases (n : Normalizer S G) :
    (n.reservoir.sample = #[] ∧ n.apply .finish = n) ∨
      n.reservoir.sample ≠ #[] ∧ ∃ c, n.apply .finish = { n with
        reservoir := { n.reservoir with
          sample := (n.reservoir.sample.toList.mergeSort Scale.totalLe).toArray }
        curve := some c } := by
  unfold apply
  rcases finish_cases n with ⟨hempty, h⟩ | ⟨c, hc, h⟩
  · exact .inl ⟨hempty, by rw [h]⟩
  · refine .inr ⟨fun hempty => ?_, c, by rw [h]⟩
    rw [hempty, List.mergeSort_nil] at hc
    cases hc

theorem size_mergeSort (sample : Array S) :
    (sample.toList.mergeSort Scale.totalLe).toArray.size = sample.size := by
  rw [List.size_toArray, List.length_mergeSort, Array.length_toList]

/-- The source of slots has given one for each score since the sample has been full. Before that it
was as given. -/
def Drawn (n : Normalizer S G) (g : G) (total : Nat) : Prop :=
  n.slots = SlotSource.after g n.config.maxSampleSize (overflow n.config total)

theorem Drawn.observe {g : G} (h : n.Drawn g total)
    (hstocked : n.reservoir.Stocked n.config.maxSampleSize total) (x : S) :
    (n.apply (.observe x)).Drawn g ((Operation.observe x).tally total) := by
  rcases apply_observe_cases n x with ⟨hnot, heq⟩ | ⟨hfinite, slot, g', heq, hslots⟩ <;> rw [heq]
  · rwa [Operation.tally, if_neg (by simp [hnot])]
  have hfull := hstocked.isFull_iff
  rw [Operation.tally, if_pos hfinite]
  simp only [Drawn, overflow] at h ⊢
  rcases hslots with ⟨hroom, rfl⟩ | ⟨hnone, hdraw⟩
  · -- no score has had to give way yet
    rw [hroom] at hfull
    simp only [Bool.false_eq_true, false_iff] at hfull
    rw [h]
    congr 1
    split <;> omega
  · obtain ⟨hpos, hle⟩ := hfull.mp hnone
    rw [if_neg (Nat.ne_of_gt hpos)] at h ⊢
    rw [Nat.sub_add_comm hle, SlotSource.after, ← h, Nat.add_sub_cancel' hle,
      ← hstocked.count_add_one, ← hdraw]

/-! ## Runs -/

/-- What holds of a normalizer that was used in whatever way since it was new, and has taken in so
many scores since the last reset. -/
structure Regular (config : NormalizerConfig) (total : Nat) (n : Normalizer S G) : Prop where
  config : n.config = config
  settled : n.Settled
  stocked : n.reservoir.Stocked n.config.maxSampleSize total
  slots : n.Drawn (SlotSource.ofSeed n.config.seed) total

theorem regular_new (config : NormalizerConfig) :
    (new config : Normalizer S G).Regular config 0 where
  config := rfl
  settled := settled_of_curve_eq_none rfl
  stocked := Reservoir.stocked_empty _
  slots := by
    rw [Drawn, overflow_of_le (Nat.zero_le _)]
    rfl

theorem Regular.observe (h : n.Regular config total) (x : S) :
    (n.apply (.observe x)).Regular config ((Operation.observe x).tally total) := by
  have hdrawn := Drawn.observe h.slots h.stocked x
  rcases apply_observe_cases n x with ⟨hnot, heq⟩ | ⟨hfinite, slot, g, heq, _⟩ <;>
    rw [heq] at hdrawn ⊢
  · rw [Operation.tally, if_neg (by simp [hnot])]
    exact h
  · rw [Operation.tally, if_pos hfinite] at hdrawn ⊢
    exact ⟨h.config, settled_of_curve_eq_none rfl, h.stocked.offer x slot, hdrawn⟩

theorem Regular.finish (h : n.Regular config total) : (n.apply .finish).Regular config total := by
  have hsettled := h.settled.apply .finish
  rcases apply_finish_cases n with ⟨_, heq⟩ | ⟨_, c, heq⟩ <;> rw [heq] at hsettled ⊢
  · exact h
  · exact ⟨h.config, hsettled, ⟨h.stocked.count, (size_mergeSort _).trans h.stocked.size⟩, h.slots⟩

theorem Regular.apply (h : n.Regular config total) (operation : Operation S) :
    (n.apply operation).Regular config (operation.tally total) := by
  cases operation with
  | observe x => exact h.observe x
  | finish => exact h.finish
  | reset => exact h.config ▸ regular_new n.config

theorem Regular.run (h : n.Regular config total) (operations : List (Operation S)) :
    (n.run operations).Regular config (operations.foldl Operation.tally total) := by
  induction operations generalizing n total with
  | nil => exact h
  | cons operation rest ih => exact ih (h.apply operation)

theorem regular_run (config : NormalizerConfig) (operations : List (Operation S)) :
    ((new config : Normalizer S G).run operations).Regular config (tally operations) :=
  (regular_new config).run operations

end Normalizer

end Relatedness
