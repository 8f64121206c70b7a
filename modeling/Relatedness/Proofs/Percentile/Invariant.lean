import Mathlib.Data.List.DropRight
import Relatedness.Proofs.Percentile.Knots
import Relatedness.Proofs.Percentile.Saved
import Relatedness.Proofs.Percentile.Taken

/-! What a normalizer is after any run: how many scores it has seen and which of them it holds, where
the slots that were drawn let it write, when it is finished, and what it tells of its sample then. A
reset leaves nothing of what was before it, so all of this depends on the operations behind the last
one. -/

namespace Relatedness

namespace Reservoir

variable {S : Type} {r : Reservoir S} {capacity : Nat}

/-- What a score that comes does to a sample of limited size: it joins the others, takes the place of
one that is there, or is passed over. -/
inductive Admits (capacity : Nat) (sample : Array S) (x : S) (slot : Nat) : Array S → Prop
  | joined (hroom : sample.size < capacity) : Admits capacity sample x slot (sample.push x)
  | replaced (hfull : capacity ≤ sample.size) (hslot : slot < capacity) (h : slot < sample.size) :
      Admits capacity sample x slot (sample.set slot x h)
  | passed (hfull : capacity ≤ sample.size) (hslot : capacity ≤ slot) :
      Admits capacity sample x slot sample

/-- Whatever slot is given, nothing is written outside the sample. -/
theorem admits_offer (r : Reservoir S) (capacity : Nat) (x : S) (slot : Nat) :
    Admits capacity r.sample x slot (r.offer capacity x slot).sample := by
  unfold offer
  dsimp only
  split
  · exact .joined ‹_›
  have hfull : capacity ≤ r.sample.size := Nat.not_lt.mp ‹_›
  split
  · have hslot : slot < r.sample.size := Nat.lt_of_lt_of_le ‹_› hfull
    rw [Array.setIfInBounds, dif_pos hslot]
    exact .replaced hfull ‹_› hslot
  · exact .passed hfull (Nat.not_lt.mp ‹_›)

end Reservoir

namespace Binary64

variable {x y : Binary64}

/-- The first number is at most the second, and also comes first where a sample is sorted, which has
the two zeros apart. -/
def Before (x y : Binary64) : Prop := Scalar.atMost x y = true ∧ totalLe x y = true

/-- Among finite numbers, the order in which a sample is sorted is that of the numbers. -/
theorem before_of_totalLe (hx : x.isFinite = true) (hy : y.isFinite = true)
    (h : totalLe x y = true) : x.Before y :=
  ⟨atMost_iff.mpr ⟨isNaN_of_isFinite hx, isNaN_of_isFinite hy, level_le_of_totalLe h⟩, h⟩

theorem Before.refl (h : x.isFinite = true) : x.Before x :=
  before_of_totalLe h h (totalLe_iff.mpr le_rfl)

end Binary64

namespace Normalizer

section Runs

variable {S G : Type} [Scale S] [SlotSource G] {config : NormalizerConfig} {n : Normalizer S G}
  {operation : Operation S} {operations : List (Operation S)}

/-! ## Since the last reset -/

def Operation.isReset : Operation S → Bool
  | .reset => true
  | _ => false

/-- The operations behind the last reset, all of them if there was none. -/
def sinceReset (operations : List (Operation S)) : List (Operation S) :=
  operations.rtakeWhile (!·.isReset)

omit [Scale S] in
theorem reset_notMem_sinceReset (operations : List (Operation S)) :
    .reset ∉ sinceReset operations := by
  intro hmem
  have hreset := List.mem_rtakeWhile_imp (p := fun operation : Operation S => !operation.isReset) hmem
  cases hreset

/-- What is taken in since the last reset is counted by the operations behind it. -/
theorem tally_eq_length (operations : List (Operation S)) :
    tally operations = (taken (sinceReset operations)).length := by
  induction operations using List.reverseRecOn with
  | nil => rfl
  | append_singleton earlier operation ih =>
    rw [tally, List.foldl_append]
    change operation.tally (tally earlier) = _
    cases hreset : operation.isReset with
    | false =>
      have hne : operation ≠ .reset := by
        rintro rfl
        cases hreset
      rw [sinceReset, List.rtakeWhile_concat_pos _ _ _ (by simp [hreset]), taken_append, taken_cons,
        List.length_append, List.length_append, tally_eq_add hne, ih]
      rfl
    | true =>
      rw [sinceReset, List.rtakeWhile_concat_neg _ _ _ (by simp [hreset])]
      cases operation with
      | reset => rfl
      | observe x => cases hreset
      | finish => cases hreset

/-- A reset leaves nothing of what was before it. -/
theorem run_sinceReset (config : NormalizerConfig) (operations : List (Operation S)) :
    (new config : Normalizer S G).run (sinceReset operations) = (new config).run operations := by
  induction operations using List.reverseRecOn with
  | nil => rfl
  | append_singleton earlier operation ih =>
    cases hreset : operation.isReset with
    | false =>
      rw [sinceReset, List.rtakeWhile_concat_pos _ _ _ (by simp [hreset]), run_append, run_append]
      exact congrArg (·.run [operation]) ih
    | true =>
      rw [sinceReset, List.rtakeWhile_concat_neg _ _ _ (by simp [hreset]), run_append]
      cases operation with
      | reset =>
        have hconfig := ((regular_new (S := S) (G := G) config).run earlier).config
        change new config = new ((new config : Normalizer S G).run earlier).config
        rw [hconfig]
      | observe x => cases hreset
      | finish => cases hreset

theorem took_sinceReset (config : NormalizerConfig) (operations : List (Operation S)) :
    ((new config : Normalizer S G).run operations).Took config (SlotSource.ofSeed config.seed)
      (taken (sinceReset operations)) := by
  rw [← run_sinceReset]
  exact took_run config _ (reset_notMem_sinceReset operations)

theorem isFinite_of_mem_taken {x : S} (h : x ∈ taken operations) : Scale.isFinite x = true := by
  obtain ⟨operation, _, hx⟩ := List.mem_filterMap.mp h
  cases operation with
  | observe y =>
    rw [Operation.taken?, Option.ite_none_right_eq_some] at hx
    obtain ⟨hfinite, heq⟩ := hx
    exact Option.some.inj heq ▸ hfinite
  | finish => cases hx
  | reset => cases hx

theorem admits_observe (n : Normalizer S G) {x : S} (hfinite : Scale.isFinite x = true) :
    Reservoir.Admits n.config.maxSampleSize n.reservoir.sample x
      (SlotSource.draw n.slots (n.reservoir.count + 1).toNat).1 (n.observe x).reservoir.sample := by
  change Reservoir.Admits _ _ _ _ (n.apply (.observe x)).reservoir.sample
  rcases apply_observe_cases n x with ⟨hnot, _⟩ | ⟨_, slot, g, heq, hslots⟩
  · cases hfinite.symm.trans hnot
  rw [heq]
  rcases hslots with ⟨hroom, _⟩ | ⟨_, hdraw⟩
  · rw [Reservoir.offer_of_room hroom x slot]
    exact n.reservoir.admits_offer _ x _
  · rw [← hdraw]
    exact n.reservoir.admits_offer _ x slot

/-! ## Finishing -/

omit [SlotSource G] in
theorem finish_eq_error_iff {e : Error} :
    n.finish = .error e ↔ e = .emptySample ∧ n.reservoir.sample = #[] := by
  rcases finish_cases n with ⟨hempty, h⟩ | ⟨c, hc, h⟩ <;> rw [h]
  · simp [hempty, eq_comm]
  · simp only [reduceCtorEq, false_iff, not_and]
    intro _ hempty
    rw [hempty, List.mergeSort_nil] at hc
    cases hc

/-- Whether an operation takes back that a normalizer is finished. -/
def Operation.reopens : Operation S → Bool
  | .observe x => Scale.isFinite x
  | .finish => false
  | .reset => true

/-- The normalizer is finished at some point of the run and nothing reopens it after that. -/
def Finishes (n : Normalizer S G) (operations : List (Operation S)) : Prop :=
  ∃ earlier later, operations = earlier ++ .finish :: later ∧
    (∃ finished, (n.run earlier).finish = .ok finished) ∧
    ∀ operation ∈ later, operation.reopens = false

theorem finishes_append_singleton : n.Finishes (operations ++ [operation]) ↔
    (operation = .finish ∧ ∃ finished, (n.run operations).finish = .ok finished) ∨
      operation.reopens = false ∧ n.Finishes operations := by
  constructor
  · rintro ⟨earlier, later, heq, hfinish, hlater⟩
    rcases List.eq_nil_or_concat later with rfl | ⟨rest, last, rfl⟩
    · obtain ⟨rfl, hlast⟩ := List.append_inj' heq rfl
      exact .inl ⟨List.singleton_inj.mp hlast, hfinish⟩
    · rw [List.concat_eq_append, ← List.cons_append, ← List.append_assoc] at heq
      obtain ⟨rfl, hlast⟩ := List.append_inj' heq rfl
      rw [List.concat_eq_append, List.forall_mem_append] at hlater
      exact .inr ⟨List.singleton_inj.mp hlast ▸ hlater.2 last List.mem_cons_self,
        earlier, rest, rfl, hfinish, hlater.1⟩
  · rintro (⟨rfl, hfinish⟩ | ⟨hkeeps, earlier, later, rfl, hfinish, hlater⟩)
    · exact ⟨operations, [], rfl, hfinish, List.forall_mem_nil _⟩
    · refine ⟨earlier, later ++ [operation], List.append_assoc .., hfinish, ?_⟩
      exact List.forall_mem_append.mpr ⟨hlater, List.forall_mem_singleton.mpr hkeeps⟩

theorem isFinished_apply : (n.apply operation).isFinished = true ↔
    (operation = .finish ∧ ∃ finished, n.finish = .ok finished) ∨
      operation.reopens = false ∧ n.isFinished = true := by
  cases operation with
  | observe x =>
    rcases apply_observe_cases n x with ⟨hfinite, heq⟩ | ⟨hfinite, slot, g, heq, _⟩ <;> rw [heq] <;>
      simp [Operation.reopens, hfinite, isFinished]
  | finish =>
    rcases finish_cases n with ⟨_, h⟩ | ⟨c, _, h⟩ <;>
      simp [apply, h, Operation.reopens, isFinished]
  | reset => simp [apply, reset, new, Operation.reopens, isFinished]

theorem isFinished_run (h : n.isFinished = false) (operations : List (Operation S)) :
    (n.run operations).isFinished = true ↔ n.Finishes operations := by
  induction operations using List.reverseRecOn with
  | nil =>
    constructor
    · intro hfinished
      cases h.symm.trans hfinished
    · rintro ⟨earlier, later, heq, _⟩
      cases (List.append_eq_nil_iff.mp heq.symm).2
  | append_singleton earlier operation ih =>
    rw [finishes_append_singleton, ← ih, run_append]
    exact isFinished_apply

end Runs

/-! ## What a finished normalizer tells -/

section Telling

variable {G : Type} {n : Normalizer Binary64 G}

/-- The sample comes in the order of its numbers. -/
theorem before_of_le {sample : Array Binary64} (hsorted : sample.toList.Pairwise Binary64.Before)
    (hfinite : ∀ x ∈ sample, x.isFinite = true) {i j : Nat} (hij : i ≤ j) (hj : j < sample.size) :
    sample[i].Before sample[j] := by
  rcases Nat.eq_or_lt_of_le hij with rfl | hlt
  · exact .refl (hfinite _ (Array.getElem_mem hj))
  · exact List.pairwise_iff_getElem.mp hsorted i j (Nat.lt_trans hlt hj) hj hlt

/-- The place in a sample of the given size that is told for a multiple of five percent. -/
def rank (size i : Nat) : Nat := min (5 * i * size / 100) (size - 1)

theorem rank_lt {size : Nat} (h : 0 < size) (i : Nat) : rank size i < size := by
  unfold rank
  omega

theorem rank_mono (size : Nat) {i j : Nat} (h : i ≤ j) : rank size i ≤ rank size j := by
  have hle : 5 * i * size / 100 ≤ 5 * j * size / 100 := by gcongr
  unfold rank
  omega

theorem rank_zero (size : Nat) : rank size 0 = 0 := by
  unfold rank
  omega

theorem rank_last (size : Nat) : rank size 20 = size - 1 := by
  unfold rank
  omega

theorem percentiles_eq {c : Curve Binary64} (hcurve : n.curve = some c)
    (hsize : 0 < n.reservoir.sample.size) : n.percentiles = .ok ((List.range 21).map fun i =>
      (5 * i, getElem n.reservoir.sample (rank n.reservoir.sample.size i) (rank_lt hsize i))) := by
  unfold percentiles finishedCurve
  rw [hcurve, ← List.filterMap_eq_map]
  refine congrArg Except.ok (List.filterMap_congr fun i _ => ?_)
  change (n.reservoir.sample[rank n.reservoir.sample.size i]?).map (5 * i, ·) = _
  rw [Array.getElem?_eq_getElem (rank_lt hsize i)]
  rfl

/-- What is told of a sample: its ends, and 21 of its scores from one end to the other. -/
structure Tells (n : Normalizer Binary64 G) (low high : Binary64)
    (points : List (Nat × Binary64)) : Prop where
  range : n.range = .ok (low, high)
  percentiles : n.percentiles = .ok points
  ends : low ∈ n.reservoir.sample ∧ high ∈ n.reservoir.sample
  between : ∀ x ∈ n.reservoir.sample, low.Before x ∧ x.Before high
  percents : points.map Prod.fst = (List.range 21).map (5 * ·)
  sampled : ∀ point ∈ points, point.2 ∈ n.reservoir.sample
  ascending : (points.map Prod.snd).Pairwise Binary64.Before
  first : points.head? = some (0, low)
  last : points.getLast? = some (100, high)

theorem exists_tells (hsettled : n.Settled)
    (hfinite : ∀ x ∈ n.reservoir.sample, x.isFinite = true) (h : n.isFinished = true) :
    ∃ low high points, n.Tells low high points := by
  obtain ⟨c, hcurve⟩ := Option.isSome_iff_exists.mp h
  obtain ⟨hc, values, hvalues⟩ := hsettled c hcurve
  have hsorted : n.reservoir.sample.toList.Pairwise Binary64.Before := by
    have htotal : n.reservoir.sample.toList.Pairwise fun x y => Binary64.totalLe x y = true :=
      hvalues ▸ List.pairwise_mergeSort Binary64.totalLe_trans Binary64.totalLe_total values
    refine htotal.imp_of_mem fun hx hy hle => Binary64.before_of_totalLe ?_ ?_ hle
    · exact hfinite _ (Array.mem_toList_iff.mp hx)
    · exact hfinite _ (Array.mem_toList_iff.mp hy)
  obtain ⟨hlow, hhigh⟩ := Curve.ends_of_sorted hc
  have hsize : 0 < n.reservoir.sample.size := by
    rw [← Array.length_toList]
    exact List.length_pos_of_mem (List.mem_of_head? hlow)
  have hfirst : n.reservoir.sample[0] = c.low := by
    rw [List.head?_eq_getElem?, Array.getElem?_toList, Array.getElem?_eq_getElem hsize] at hlow
    exact Option.some.inj hlow
  have hlast : n.reservoir.sample[n.reservoir.sample.size - 1] = c.high := by
    rw [List.getLast?_eq_getElem?, Array.getElem?_toList, Array.length_toList,
      Array.getElem?_eq_getElem (Nat.sub_one_lt_of_lt hsize)] at hhigh
    exact Option.some.inj hhigh
  have hrange : n.range = .ok (c.low, c.high) := by
    rw [range, finishedCurve, hcurve]
    rfl
  refine ⟨c.low, c.high, _, hrange, percentiles_eq hcurve hsize, ⟨?_, ?_⟩, fun x hx => ?_, ?_, ?_,
    ?_, ?_, ?_⟩
  · exact hfirst ▸ Array.getElem_mem _
  · exact hlast ▸ Array.getElem_mem _
  · obtain ⟨i, hi, rfl⟩ := Array.mem_iff_getElem.mp hx
    rw [← hfirst, ← hlast]
    exact ⟨before_of_le hsorted hfinite (Nat.zero_le i) hi,
      before_of_le hsorted hfinite (Nat.le_sub_one_of_lt hi) _⟩
  · rw [List.map_map]
    rfl
  · exact List.forall_mem_map.mpr fun i _ => Array.getElem_mem _
  · rw [List.map_map]
    refine List.pairwise_map.mpr (List.pairwise_lt_range.imp fun hij => ?_)
    exact before_of_le hsorted hfinite (rank_mono _ (Nat.le_of_lt hij)) _
  · rw [← hfirst]
    simp only [List.range_succ_eq_map, List.map_cons, List.head?_cons, rank_zero, Nat.mul_zero]
  · rw [← hlast]
    simp only [List.range_succ, List.map_append, List.map_cons, List.map_nil,
      List.getLast?_concat, rank_last, Nat.reduceMul]

end Telling

/-! ## After any run -/

/-- What holds of a new normalizer with this configuration after these operations. -/
structure Consistent {G : Type} [SlotSource G] (config : NormalizerConfig)
    (operations : List (Operation Binary64)) (n : Normalizer Binary64 G) : Prop where
  observed : n.reservoir.observed = (taken (sinceReset operations)).length % 2 ^ 64
  size : n.reservoir.sample.size = min config.maxSampleSize (taken (sinceReset operations)).length
  kept : n.reservoir.sample.toList.Subperm (taken (sinceReset operations))
  admits : ∀ x : Binary64, x.isFinite = true →
    Reservoir.Admits config.maxSampleSize n.reservoir.sample x
      (SlotSource.draw n.slots (n.reservoir.count + 1).toNat).1 (n.observe x).reservoir.sample
  finished : n.isFinished = true ↔ (new config : Normalizer Binary64 G).Finishes operations
  finish : n.finish = .error .emptySample ↔ n.reservoir.sample = #[]
  failed : ∀ e, n.finish = .error e → e = .emptySample ∧ n.apply .finish = n
  tells : n.isFinished = true → ∃ low high points, n.Tells low high points

/-- Whatever is done to a normalizer and whatever its source of slots gives, it has counted the
finite scores since the last reset and holds as many of them as it may, writes at places that its
sample has, is finished until it is reopened, and then tells the ends and the percentiles of its
sample. It counts in a word of eight bytes, so its count is the number of the scores as long as that
is less than `2 ^ 64`. -/
theorem run_consistent {G : Type} [SlotSource G] (config : NormalizerConfig)
    (operations : List (Operation Binary64)) :
    Consistent config operations ((new config : Normalizer Binary64 G).run operations) := by
  have htook := took_sinceReset (G := G) config operations
  have hregular := regular_run (G := G) config operations
  rw [tally_eq_length] at hregular
  have hfinished := isFinished_run (n := (new config : Normalizer Binary64 G)) rfl operations
  generalize (new config : Normalizer Binary64 G).run operations = n at *
  refine ⟨?_, ?_, htook.kept, fun x hx => ?_, hfinished, ?_, fun e he => ?_,
    exists_tells hregular.settled fun x hx => ?_⟩
  · rw [Reservoir.observed, hregular.stocked.count, UInt64.toNat_ofNat']
  · rw [← htook.config, Nat.min_comm]
    exact hregular.stocked.size
  · rw [← htook.config]
    exact admits_observe n (x := x) hx
  · rw [finish_eq_error_iff]
    exact and_iff_right rfl
  · refine ⟨(finish_eq_error_iff.mp he).1, ?_⟩
    rw [apply, he]
  · exact isFinite_of_mem_taken (htook.kept.subset (Array.mem_toList_iff.mpr hx))

end Normalizer
end Relatedness
