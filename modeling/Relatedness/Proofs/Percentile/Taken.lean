import Mathlib.Data.List.Induction
import Mathlib.Data.List.Perm.Subperm
import Relatedness.Proofs.Percentile.Sample

/-! What a normalizer keeps of the scores that it takes in, as long as it is not reset. The sample is
a part of these scores, none kept more often than it was given, and all of them while there are no
more than are kept. Which part it is depends on the slots that were drawn and on nothing else of
their source. -/

namespace Relatedness

/-- The slot that a source gives for the first value beyond the capacity, for the second and so on. -/
def SlotSource.slot {G : Type} [SlotSource G] (g : G) (capacity drawn : Nat) : Nat :=
  (draw (after g capacity drawn) (UInt64.ofNat (capacity + drawn + 1)).toNat).1

namespace Reservoir

variable {S : Type} {r : Reservoir S} {capacity : Nat}

/-- A slot does not count where none is needed. -/
theorem offer_of_room (h : r.isFull capacity = false) (x : S) (slot slot' : Nat) :
    r.offer capacity x slot = r.offer capacity x slot' := by
  unfold isFull at h
  simp only [Bool.and_eq_false_iff, decide_eq_false_iff_not] at h
  unfold offer
  by_cases hroom : r.sample.size < capacity
  · simp only [hroom, if_true]
  · have hzero : capacity = 0 := by omega
    simp only [hzero, Nat.not_lt_zero, if_false]

/-- An offered value joins the sample, takes the place of another or leaves it as it is. -/
theorem subperm_offer (r : Reservoir S) (capacity : Nat) (x : S) (slot : Nat) :
    (r.offer capacity x slot).sample.toList.Subperm (x :: r.sample.toList) := by
  unfold offer
  dsimp only
  split
  · rw [Array.toList_push]
    exact (List.perm_append_singleton x _).subperm
  split
  · rw [Array.toList_setIfInBounds]
    by_cases hslot : slot < r.sample.toList.length
    · refine (List.set_perm_cons_eraseIdx hslot x).subperm.trans ?_
      exact ((List.eraseIdx_sublist _ slot).cons_cons x).subperm
    · rw [List.set_eq_of_length_le (Nat.not_lt.mp hslot)]
      exact (List.sublist_cons_self x _).subperm
  · exact (List.sublist_cons_self x _).subperm

end Reservoir

namespace Normalizer

variable {S G G' : Type} [Scale S] [SlotSource G] [SlotSource G'] {config : NormalizerConfig}
  {n : Normalizer S G} {g : G} {total : Nat} {scores : List S} {operations : List (Operation S)}

/-- The score that an operation takes in. -/
def Operation.taken? : Operation S → Option S
  | .observe x => if Scale.isFinite x then some x else none
  | .finish => none
  | .reset => none

/-- The scores that operations take in, in their order. -/
def taken (operations : List (Operation S)) : List S := operations.filterMap Operation.taken?

theorem taken_append (operations later : List (Operation S)) :
    taken (operations ++ later) = taken operations ++ taken later := List.filterMap_append

theorem taken_observe {x : S} (h : Scale.isFinite x = true) : taken [.observe x] = [x] := by
  have hx : (Operation.observe x).taken? = some x := if_pos h
  rw [taken, List.filterMap_cons_some hx, List.filterMap_nil]

theorem taken_observe_of_not_finite {x : S} (h : Scale.isFinite x = false) :
    taken [.observe x] = [] := by
  have hx : (Operation.observe x).taken? = none := if_neg (by simp [h])
  rw [taken, List.filterMap_cons_none hx, List.filterMap_nil]

theorem taken_cons (operation : Operation S) (rest : List (Operation S)) :
    taken (operation :: rest) = operation.taken?.toList ++ taken rest := by
  unfold taken
  rw [List.filterMap_cons]
  cases operation.taken? <;> rfl

theorem tally_eq_add {operation : Operation S} (hreset : operation ≠ .reset) (total : Nat) :
    operation.tally total = total + operation.taken?.toList.length := by
  cases operation with
  | observe x =>
    simp only [Operation.tally, Operation.taken?]
    split <;> rfl
  | finish => rfl
  | reset => exact absurd rfl hreset

/-- Without a reset, as many scores are taken in as there are. -/
theorem foldl_tally_eq_add (hreset : .reset ∉ operations) (total : Nat) :
    operations.foldl Operation.tally total = total + (taken operations).length := by
  induction operations generalizing total with
  | nil => rfl
  | cons operation rest ih =>
    obtain ⟨hfirst, hrest⟩ := not_or.mp (List.mem_cons.not.mp hreset)
    rw [List.foldl_cons, ih hrest, tally_eq_add (Ne.symm hfirst), taken_cons, List.length_append,
      Nat.add_assoc]

/-- A normalizer that has taken nothing in, with a source of slots in whatever state. -/
def fresh (config : NormalizerConfig) (g : G) : Normalizer S G :=
  { (new config : Normalizer S G) with slots := g }

theorem run_append (n : Normalizer S G) (operations later : List (Operation S)) :
    n.run (operations ++ later) = (n.run operations).run later := List.foldl_append

theorem reservoir_observe (hdrawn : n.Drawn g total)
    (hstocked : n.reservoir.Stocked n.config.maxSampleSize total) {x : S}
    (hfinite : Scale.isFinite x = true) :
    (n.apply (.observe x)).reservoir = n.reservoir.offer n.config.maxSampleSize x
      (SlotSource.slot g n.config.maxSampleSize (overflow n.config total)) := by
  rcases apply_observe_cases n x with ⟨hnot, _⟩ | ⟨_, slot, g', heq, hslots⟩
  · cases hfinite.symm.trans hnot
  rw [heq]
  rcases hslots with ⟨hroom, _⟩ | ⟨hfull, hdraw⟩
  · exact Reservoir.offer_of_room hroom x _ _
  · obtain ⟨hpos, hle⟩ := hstocked.isFull_iff.mp hfull
    have hoverflow : overflow n.config total = total - n.config.maxSampleSize :=
      if_neg (Nat.ne_of_gt hpos)
    rw [SlotSource.slot, ← hdrawn, hoverflow, Nat.add_sub_cancel' hle, ← hstocked.count_add_one,
      ← hdraw]

theorem apply_observe_of_not_finite (n : Normalizer S G) {x : S} (h : Scale.isFinite x = false) :
    n.apply (.observe x) = n := by
  rcases apply_observe_cases n x with ⟨_, heq⟩ | ⟨hfinite, _⟩
  · exact heq
  · cases h.symm.trans hfinite

/-- Finishing sorts the sample, if there is one. -/
theorem reservoir_finish (n : Normalizer S G) : (n.apply .finish).reservoir = { n.reservoir with
    sample := (n.reservoir.sample.toList.mergeSort Scale.totalLe).toArray } := by
  rcases apply_finish_cases n with ⟨hempty, heq⟩ | ⟨_, c, heq⟩ <;> rw [heq]
  rw [hempty, List.mergeSort_nil, ← hempty]

/-! ## Runs without a reset -/

/-- What holds of a normalizer that has taken in these scores. -/
structure Took (config : NormalizerConfig) (g : G) (scores : List S) (n : Normalizer S G) : Prop where
  config : n.config = config
  stocked : n.reservoir.Stocked n.config.maxSampleSize scores.length
  drawn : n.Drawn g scores.length
  kept : n.reservoir.sample.toList.Subperm scores

omit [Scale S] in
theorem took_fresh (config : NormalizerConfig) (g : G) :
    (fresh config g : Normalizer S G).Took config g [] where
  config := rfl
  stocked := Reservoir.stocked_empty _
  drawn := by
    rw [Drawn, List.length_nil, overflow_of_le (Nat.zero_le _)]
    rfl
  kept := List.Subperm.refl []

theorem Took.observe (h : n.Took config g scores) (x : S) :
    (n.apply (.observe x)).Took config g (scores ++ (Operation.observe x).taken?.toList) := by
  have hdrawn := h.drawn.observe h.stocked x
  rw [tally_eq_add (by simp), ← List.length_append] at hdrawn
  rcases apply_observe_cases n x with ⟨hnot, heq⟩ | ⟨hfinite, slot, g', heq, _⟩ <;>
    rw [heq] at hdrawn ⊢
  · rw [Operation.taken?, if_neg (by simp [hnot]), Option.toList_none, List.append_nil]
    exact h
  · rw [Operation.taken?, if_pos hfinite, Option.toList_some] at hdrawn ⊢
    refine ⟨h.config, ?_, hdrawn, ?_⟩
    · rw [List.length_append, List.length_singleton]
      exact h.stocked.offer x slot
    · refine (n.reservoir.subperm_offer _ x slot).trans ?_
      exact ((List.subperm_cons x).mpr h.kept).trans (List.perm_append_singleton x scores).symm.subperm

theorem Took.finish (h : n.Took config g scores) : (n.apply .finish).Took config g scores := by
  rcases apply_finish_cases n with ⟨_, heq⟩ | ⟨_, c, heq⟩ <;> rw [heq]
  · exact h
  · refine ⟨h.config, ⟨h.stocked.count, (size_mergeSort _).trans h.stocked.size⟩, h.drawn, ?_⟩
    rw [List.toList_toArray]
    exact (List.mergeSort_perm _ _).subperm.trans h.kept

theorem Took.run (h : n.Took config g scores) (hreset : .reset ∉ operations) :
    (n.run operations).Took config g (scores ++ taken operations) := by
  induction operations generalizing n scores with
  | nil => exact (List.append_nil scores).symm ▸ h
  | cons operation rest ih =>
    have hrest : .reset ∉ rest := fun hmem => hreset (List.mem_cons_of_mem _ hmem)
    rw [taken_cons, ← List.append_assoc]
    refine ih ?_ hrest
    cases operation with
    | observe x => exact h.observe x
    | finish => exact (List.append_nil scores).symm ▸ h.finish
    | reset => exact absurd List.mem_cons_self hreset

theorem took_run (config : NormalizerConfig) (g : G) (hreset : .reset ∉ operations) :
    ((fresh config g : Normalizer S G).run operations).Took config g (taken operations) :=
  (took_fresh config g).run hreset

omit [Scale S] in
/-- All scores are kept while there are no more of them than that. -/
theorem Took.perm (h : n.Took config g scores) (hfew : scores.length ≤ config.maxSampleSize) :
    n.reservoir.sample.toList.Perm scores := by
  refine h.kept.perm_of_length_le ?_
  have hsize := h.stocked.size
  rw [h.config, Nat.min_eq_left hfew] at hsize
  exact Nat.le_of_eq (Array.length_toList.trans hsize).symm

/-- Of the source of slots, a run shows the slots that are drawn and nothing else. -/
theorem reservoir_run_congr (config : NormalizerConfig) (g : G) (g' : G') (hreset : .reset ∉ operations)
    (hslots : ∀ i < (taken operations).length - config.maxSampleSize,
      SlotSource.slot g config.maxSampleSize i = SlotSource.slot g' config.maxSampleSize i) :
    ((fresh config g : Normalizer S G).run operations).reservoir =
      ((fresh config g' : Normalizer S G').run operations).reservoir := by
  induction operations using List.reverseRecOn with
  | nil => rfl
  | append_singleton earlier operation ih =>
    have hearlier : .reset ∉ earlier := fun hmem => hreset (List.mem_append_left _ hmem)
    rw [taken_append, List.length_append] at hslots
    have hsame := ih hearlier fun i hi => hslots i (by omega)
    have hleft := took_run (S := S) config g hearlier
    have hright := took_run (S := S) config g' hearlier
    rw [run_append, run_append]
    generalize (fresh config g : Normalizer S G).run earlier = n at *
    generalize (fresh config g' : Normalizer S G').run earlier = m at *
    change (n.apply operation).reservoir = (m.apply operation).reservoir
    cases operation with
    | finish => rw [reservoir_finish, reservoir_finish, hsame]
    | reset => exact absurd (List.mem_append_right _ List.mem_cons_self) hreset
    | observe x =>
      cases hfinite : Scale.isFinite x with
      | false =>
        rw [apply_observe_of_not_finite n hfinite, apply_observe_of_not_finite m hfinite, hsame]
      | true =>
        rw [reservoir_observe hleft.drawn hleft.stocked hfinite,
          reservoir_observe hright.drawn hright.stocked hfinite, hsame, hleft.config, hright.config]
        cases hfull : m.reservoir.isFull config.maxSampleSize with
        | false => exact Reservoir.offer_of_room hfull x _ _
        | true =>
          have hstocked := hright.stocked
          rw [hright.config] at hstocked
          obtain ⟨hpos, hle⟩ := hstocked.isFull_iff.mp hfull
          rw [taken_observe hfinite, List.length_singleton] at hslots
          rw [overflow, if_neg (Nat.ne_of_gt hpos), hslots _ (by omega)]

end Normalizer

end Relatedness
