import Mathlib.Data.Fin.Tuple.Basic
import Mathlib.Data.Fintype.BigOperators
import Mathlib.Data.Fintype.Fin
import Mathlib.SetTheory.Cardinal.Finite
import Relatedness.Proofs.Percentile.Taken

/-! Each score is kept equally often. A source that answers from a script shows what becomes of the
scores for every sequence of slots that can be drawn. Counting these sequences, a score that came
after the sample was full is kept in as many as there are slots kept, and one that was kept before
loses its place in just one of the answers to each later draw, whatever place a sort has given it. -/

namespace Relatedness

/-- The generator stays below the range: a word makes up less than the whole of all words. -/
theorem Generator.below_lt (g : Generator) {range : Nat} (h : 0 < range) :
    (g.below range).1 < range := by
  have hdraw (fuel : Nat) : (draw range fuel g).1 < range := by
    induction fuel generalizing g with
    | zero => exact h
    | succ fuel ih =>
      unfold draw
      dsimp only
      split
      · refine (Nat.div_lt_iff_lt_mul (by decide)).mpr ?_
        rw [Nat.mul_comm]
        exact Nat.mul_lt_mul_of_pos_left (UInt64.toNat_lt_size _) h
      · exact ih _
  exact hdraw 1024

/-- A source of slots that gives what is written down beforehand, and writes down of how many slots
each was drawn. -/
structure SlotScript where
  answers : List Nat
  ranges : List Nat

instance : SlotSource SlotScript where
  ofSeed _ := ⟨[], []⟩
  draw s range := (s.answers.headD 0, ⟨s.answers.tail, s.ranges ++ [range]⟩)

namespace SlotScript

/-- The script of these answers. -/
def ofAnswers (answers : List Nat) : SlotScript := ⟨answers, []⟩

theorem after_ofAnswers (answers : List Nat) (capacity drawn : Nat) :
    SlotSource.after (ofAnswers answers) capacity drawn =
      ⟨answers.drop drawn, (List.range' (capacity + 1) drawn).map (· % 2 ^ 64)⟩ := by
  induction drawn with
  | zero => rfl
  | succ drawn ih =>
    rw [SlotSource.after, ih, List.range'_1_concat, ← List.tail_drop, List.map_append,
      Nat.add_right_comm]
    rfl

theorem slot_ofAnswers (answers : List Nat) (capacity drawn : Nat) :
    SlotSource.slot (ofAnswers answers) capacity drawn = answers[drawn]?.getD 0 := by
  rw [SlotSource.slot, after_ofAnswers]
  change (answers.drop drawn).headD 0 = _
  rw [List.headD_eq_head?_getD, List.head?_drop]

end SlotScript

/-- All that a source can answer to so many draws of a full reservoir: the first draw is of one slot
more than the capacity, and each other of one slot more than the one before. -/
abbrev SlotAnswers (capacity drawn : Nat) : Type := (i : Fin drawn) → Fin (capacity + i + 1)

namespace SlotAnswers

variable {capacity drawn : Nat}

/-- The answers in their order. -/
def toList (a : SlotAnswers capacity drawn) : List Nat := List.ofFn fun i => (a i).val

/-- All answers but the last. -/
def init (a : SlotAnswers capacity (drawn + 1)) : SlotAnswers capacity drawn :=
  fun i => a i.castSucc

/-- The last answer. -/
def last (a : SlotAnswers capacity (drawn + 1)) : Fin (capacity + drawn + 1) := a (Fin.last drawn)

theorem length_toList (a : SlotAnswers capacity drawn) : a.toList.length = drawn :=
  List.length_ofFn

theorem toList_succ (a : SlotAnswers capacity (drawn + 1)) :
    a.toList = a.init.toList ++ [a.last.val] := by
  rw [toList, List.ofFn_succ', List.concat_eq_append]
  rfl

/-- Answers to one draw more are these answers and one to that draw. -/
def splitLast : SlotAnswers capacity (drawn + 1) ≃
    SlotAnswers capacity drawn × Fin (capacity + drawn + 1) :=
  (Fin.snocEquiv fun i : Fin (drawn + 1) => Fin (capacity + i + 1)).symm.trans (Equiv.prodComm _ _)

theorem card_succ (capacity drawn : Nat) : Nat.card (SlotAnswers capacity (drawn + 1)) =
    Nat.card (SlotAnswers capacity drawn) * (capacity + drawn + 1) := by
  rw [Nat.card_congr splitLast, Nat.card_prod, Nat.card_fin]

/-- Answers of some kind are counted by what the last of them can be after each beginning. -/
theorem card_subtype_succ (P : SlotAnswers capacity drawn → Fin (capacity + drawn + 1) → Prop) :
    Nat.card { a : SlotAnswers capacity (drawn + 1) // P a.init a.last } =
      ∑ a : SlotAnswers capacity drawn, Nat.card { j // P a j } := by
  have hsplit : { a : SlotAnswers capacity (drawn + 1) // P a.init a.last } ≃
      { p : SlotAnswers capacity drawn × Fin (capacity + drawn + 1) // P p.1 p.2 } :=
    splitLast.subtypeEquiv fun _ => Iff.rfl
  rw [Nat.card_congr (hsplit.trans (Equiv.subtypeProdEquivSigmaSubtype P)), Nat.card_sigma]

end SlotAnswers

namespace Reservoir

variable {S : Type} {r : Reservoir S} {capacity range : Nat} {x y : S}

/-! ## One value offered to a full reservoir -/

theorem toList_offer_of_full (hfull : r.sample.size = capacity) (x : S) (slot : Nat) :
    (r.offer capacity x slot).sample.toList = r.sample.toList.set slot x := by
  unfold offer
  dsimp only
  rw [if_neg (by omega)]
  split
  · exact Array.toList_setIfInBounds
  · rw [List.set_eq_of_length_le]
    rw [Array.length_toList]
    omega

/-- How many of the slots in a range keep `y` if `x` is offered. -/
noncomputable def slotsKeeping (r : Reservoir S) (capacity : Nat) (x y : S) (range : Nat) : Nat :=
  Nat.card { j : Fin range // y ∈ (r.offer capacity x j).sample.toList }

/-- As many slots let a new value in as there are places. -/
theorem slotsKeeping_new (hfull : r.sample.size = capacity) (hle : capacity ≤ range)
    (hx : x ∉ r.sample.toList) : r.slotsKeeping capacity x x range = capacity := by
  have hiff : ∀ j : Fin range, x ∈ (r.offer capacity x j).sample.toList ↔ j.val < capacity := by
    intro j
    rw [toList_offer_of_full hfull]
    constructor
    · intro hmem
      by_contra hge
      rw [List.set_eq_of_length_le (by rw [Array.length_toList]; omega)] at hmem
      exact hx hmem
    · intro hlt
      exact List.mem_set (by rw [Array.length_toList]; omega) x
  simp only [slotsKeeping, hiff]
  rw [Nat.card_eq_fintype_card, Fintype.card_subtype, Fin.card_filter_val_lt, Nat.min_eq_right hle]

/-- A value that is kept leaves for one slot only, the one of its place. -/
theorem slotsKeeping_old (hfull : r.sample.size = capacity) (hle : capacity ≤ range)
    (hnodup : r.sample.toList.Nodup) (hy : y ∈ r.sample.toList) (hne : y ≠ x) :
    r.slotsKeeping capacity x y range = range - 1 := by
  obtain ⟨place, hplace, rfl⟩ := List.mem_iff_getElem.mp hy
  have hlt : place < range := by
    rw [Array.length_toList] at hplace
    omega
  have hiff : ∀ j : Fin range, r.sample.toList[place] ∈ (r.offer capacity x j).sample.toList ↔
      j ≠ ⟨place, hlt⟩ := by
    intro j
    rw [toList_offer_of_full hfull, ne_eq, Fin.ext_iff]
    constructor
    · rintro hmem rfl
      obtain ⟨i, hi, heq⟩ := List.mem_iff_getElem.mp hmem
      rw [List.getElem_set] at heq
      split at heq
      · exact hne heq.symm
      · rename_i hother
        exact hother ((hnodup.getElem_inj_iff).mp heq).symm
    · intro hother
      refine List.mem_iff_getElem.mpr ⟨place, by rwa [List.length_set], ?_⟩
      rw [List.getElem_set_ne hother]
  simp only [slotsKeeping, hiff]
  rw [Nat.card_eq_fintype_card, Fintype.card_subtype_compl, Fintype.card_fin,
    Fintype.card_subtype_eq]

/-- A value that is not kept does not come back. -/
theorem slotsKeeping_absent (hy : y ∉ r.sample.toList) (hne : y ≠ x) :
    r.slotsKeeping capacity x y range = 0 := by
  have hgone : IsEmpty { j : Fin range // y ∈ (r.offer capacity x j).sample.toList } := by
    refine ⟨fun ⟨slot, hmem⟩ => ?_⟩
    rcases List.mem_cons.mp ((r.subperm_offer capacity x slot).subset hmem) with heq | hold
    · exact hne heq
    · exact hy hold
  exact Nat.card_of_isEmpty

end Reservoir

namespace Normalizer

variable {S : Type} [Scale S] {config : NormalizerConfig} {operations : List (Operation S)}
  {drawn : Nat} {x y : S}

/-- A run whose slots are drawn from a script. -/
def scripted (config : NormalizerConfig) (operations : List (Operation S)) {capacity drawn : Nat}
    (a : SlotAnswers capacity drawn) : Normalizer S SlotScript :=
  (fresh config (SlotScript.ofAnswers a.toList)).run operations

theorem took_scripted (config : NormalizerConfig) (hreset : .reset ∉ operations)
    (a : SlotAnswers config.maxSampleSize drawn) :
    (scripted config operations a).Took config (SlotScript.ofAnswers a.toList) (taken operations) :=
  took_run config _ hreset

theorem size_scripted (hreset : .reset ∉ operations)
    (hlength : (taken operations).length = config.maxSampleSize + drawn)
    (a : SlotAnswers config.maxSampleSize drawn) :
    (scripted config operations a).reservoir.sample.size = config.maxSampleSize := by
  have h := took_scripted config hreset a
  have hsize := h.stocked.size
  rw [h.config] at hsize
  omega

omit [Scale S] in
theorem overflow_add (hmax : 0 < config.maxSampleSize) (drawn : Nat) :
    overflow config (config.maxSampleSize + drawn) = drawn := by
  rw [overflow, if_neg (Nat.ne_of_gt hmax), Nat.add_sub_cancel_left]

/-- Of a script, the last answer decides about the last score, and the others about the scores
before. -/
theorem reservoir_scripted_succ (hreset : .reset ∉ operations) (hmax : 0 < config.maxSampleSize)
    (hlength : (taken operations).length = config.maxSampleSize + drawn)
    (hx : Scale.isFinite x = true) (a : SlotAnswers config.maxSampleSize (drawn + 1)) :
    (scripted config (operations ++ [.observe x]) a).reservoir =
      (scripted config operations a.init).reservoir.offer config.maxSampleSize x a.last := by
  have h := took_scripted config hreset a
  have hsame : (scripted config operations a).reservoir =
      (scripted config operations a.init).reservoir := by
    refine reservoir_run_congr config _ _ hreset fun i hi => ?_
    have hi : i < a.init.toList.length := by
      rw [SlotAnswers.length_toList]
      omega
    rw [SlotScript.slot_ofAnswers, SlotScript.slot_ofAnswers, SlotAnswers.toList_succ,
      List.getElem?_append_left hi]
  rw [scripted, run_append]
  change ((scripted config operations a).apply (.observe x)).reservoir = _
  rw [reservoir_observe h.drawn h.stocked hx, hsame, h.config, hlength, overflow_add hmax,
    SlotScript.slot_ofAnswers, SlotAnswers.toList_succ,
    List.getElem?_append_right (Nat.le_of_eq (SlotAnswers.length_toList _)),
    SlotAnswers.length_toList, Nat.sub_self]
  rfl

/-- The sorting that finishes a sample neither adds to it nor takes away from it. -/
theorem mem_sample_scripted_finish (a : SlotAnswers config.maxSampleSize drawn) :
    x ∈ (scripted config (operations ++ [.finish]) a).reservoir.sample.toList ↔
      x ∈ (scripted config operations a).reservoir.sample.toList := by
  rw [scripted, run_append]
  change x ∈ ((scripted config operations a).apply .finish).reservoir.sample.toList ↔ _
  rw [reservoir_finish]
  exact List.mem_mergeSort

/-- The number of answer sequences after which a score is kept. -/
noncomputable def keptCount (config : NormalizerConfig) (operations : List (Operation S))
    (drawn : Nat) (x : S) : Nat :=
  Nat.card { a : SlotAnswers config.maxSampleSize drawn //
    x ∈ (scripted config operations a).reservoir.sample.toList }

/-- All answers keep the scores that there is room for. -/
theorem keptCount_of_room (hreset : .reset ∉ operations)
    (hlength : (taken operations).length ≤ config.maxSampleSize) (hx : x ∈ taken operations) :
    keptCount config operations drawn x = Nat.card (SlotAnswers config.maxSampleSize drawn) := by
  have hall : ∀ a : SlotAnswers config.maxSampleSize drawn,
      x ∈ (scripted config operations a).reservoir.sample.toList := fun a =>
    ((took_scripted config hreset a).perm hlength).mem_iff.mpr hx
  exact Nat.card_congr (Equiv.subtypeUnivEquiv hall)

theorem keptCount_succ (hreset : .reset ∉ operations) (hmax : 0 < config.maxSampleSize)
    (hlength : (taken operations).length = config.maxSampleSize + drawn)
    (hx : Scale.isFinite x = true) :
    keptCount config (operations ++ [.observe x]) (drawn + 1) y =
      ∑ a : SlotAnswers config.maxSampleSize drawn, (scripted config operations a).reservoir.slotsKeeping
        config.maxSampleSize x y (config.maxSampleSize + drawn + 1) := by
  simp only [keptCount, reservoir_scripted_succ hreset hmax hlength hx]
  exact SlotAnswers.card_subtype_succ fun a j =>
    y ∈ ((scripted config operations a).reservoir.offer config.maxSampleSize x j).sample.toList

/-- A new score is kept by as many answers to its draw as there are places. -/
theorem keptCount_new (hreset : .reset ∉ operations) (hmax : 0 < config.maxSampleSize)
    (hlength : (taken operations).length = config.maxSampleSize + drawn)
    (hx : Scale.isFinite x = true) (hnew : x ∉ taken operations) :
    keptCount config (operations ++ [.observe x]) (drawn + 1) x =
      Nat.card (SlotAnswers config.maxSampleSize drawn) * config.maxSampleSize := by
  have hone (a : SlotAnswers config.maxSampleSize drawn) :
      (scripted config operations a).reservoir.slotsKeeping config.maxSampleSize x x
        (config.maxSampleSize + drawn + 1) = config.maxSampleSize :=
    Reservoir.slotsKeeping_new (size_scripted hreset hlength a) (by omega)
      fun hmem => hnew ((took_scripted config hreset a).kept.subset hmem)
  rw [keptCount_succ hreset hmax hlength hx]
  simp only [hone]
  rw [Finset.sum_const, Finset.card_univ, Nat.card_eq_fintype_card, nsmul_eq_mul, Nat.cast_id]

/-- A score that is kept stays for all answers to a draw but one. -/
theorem keptCount_old (hreset : .reset ∉ operations) (hmax : 0 < config.maxSampleSize)
    (hlength : (taken operations).length = config.maxSampleSize + drawn)
    (hx : Scale.isFinite x = true) (hnodup : (taken operations).Nodup) (hne : y ≠ x) :
    keptCount config (operations ++ [.observe x]) (drawn + 1) y =
      keptCount config operations drawn y * (config.maxSampleSize + drawn) := by
  classical
  have hone (a : SlotAnswers config.maxSampleSize drawn) :
      (scripted config operations a).reservoir.slotsKeeping config.maxSampleSize x y
        (config.maxSampleSize + drawn + 1) =
      if y ∈ (scripted config operations a).reservoir.sample.toList
        then config.maxSampleSize + drawn else 0 := by
    have hfull := size_scripted hreset hlength a
    obtain ⟨kept, hperm, hsublist⟩ := (took_scripted config hreset a).kept
    split
    · rename_i hy
      exact Reservoir.slotsKeeping_old hfull (by omega)
        (hperm.nodup_iff.mp (hsublist.nodup hnodup)) hy hne
    · rename_i hy
      exact Reservoir.slotsKeeping_absent hy hne
  rw [keptCount_succ hreset hmax hlength hx]
  simp only [hone]
  rw [← Finset.sum_filter, Finset.sum_const, nsmul_eq_mul, Nat.cast_id, keptCount,
    Nat.card_eq_fintype_card, Fintype.card_subtype]

/-- Each score is kept by as large a part of the answers as the sample is of the scores. The
induction is on the operations: a score more is worth one draw more, once the sample is full. -/
theorem keptCount_mul (hmax : 0 < config.maxSampleSize) (hreset : .reset ∉ operations)
    (hnodup : (taken operations).Nodup)
    (hlength : (taken operations).length = config.maxSampleSize + drawn) (hy : y ∈ taken operations) :
    keptCount config operations drawn y * (config.maxSampleSize + drawn) =
      config.maxSampleSize * Nat.card (SlotAnswers config.maxSampleSize drawn) := by
  induction operations using List.reverseRecOn generalizing drawn y with
  | nil => cases hy
  | append_singleton earlier operation ih =>
    have hearlier : .reset ∉ earlier := fun hmem => hreset (List.mem_append_left _ hmem)
    cases operation with
    | reset => exact absurd (List.mem_append_right _ List.mem_cons_self) hreset
    | finish =>
      rw [taken_append, show taken [Operation.finish (S := S)] = [] from rfl, List.append_nil]
        at hnodup hlength hy
      rw [← ih hearlier hnodup hlength hy]
      simp only [keptCount, mem_sample_scripted_finish]
    | observe x =>
      cases hx : Scale.isFinite x with
      | false =>
        rw [taken_append, taken_observe_of_not_finite hx, List.append_nil] at hnodup hlength hy
        have hsame (a : SlotAnswers config.maxSampleSize drawn) :
            scripted config (earlier ++ [.observe x]) a = scripted config earlier a := by
          rw [scripted, run_append]
          exact apply_observe_of_not_finite _ hx
        rw [← ih hearlier hnodup hlength hy]
        simp only [keptCount, hsame]
      | true =>
        cases drawn with
        | zero =>
          rw [keptCount_of_room hreset (Nat.le_of_eq hlength) hy, Nat.add_zero, Nat.mul_comm]
        | succ drawn =>
          rw [taken_append, taken_observe hx] at hnodup hlength hy
          rw [List.length_append, List.length_singleton] at hlength
          have hlength : (taken earlier).length = config.maxSampleSize + drawn := by omega
          obtain ⟨hold, -, hdisjoint⟩ := List.nodup_append.mp hnodup
          rw [SlotAnswers.card_succ]
          rcases List.mem_append.mp hy with hmem | hmem
          · have hne : y ≠ x := hdisjoint y hmem x List.mem_cons_self
            rw [keptCount_old hearlier hmax hlength hx hold hne, ih hearlier hold hlength hmem,
              Nat.mul_assoc, Nat.add_assoc]
          · cases List.mem_singleton.mp hmem
            have hnew : y ∉ taken earlier := fun hmem => hdisjoint y hmem y List.mem_cons_self rfl
            rw [keptCount_new hearlier hmax hlength hx hnew, Nat.mul_comm (Nat.card _),
              Nat.mul_assoc, Nat.add_assoc]

/-! ## Scripts and sources -/

/-- A run asks for just the slots of its script: the range of each draw is the number of scores that
have come, the new one among them, as far as a word of eight bytes tells it. -/
theorem slots_scripted (hreset : .reset ∉ operations) (hmax : 0 < config.maxSampleSize)
    (hlength : (taken operations).length = config.maxSampleSize + drawn)
    (a : SlotAnswers config.maxSampleSize drawn) :
    (scripted config operations a).slots =
      ⟨[], (List.range' (config.maxSampleSize + 1) drawn).map (· % 2 ^ 64)⟩ := by
  have h := took_scripted config hreset a
  rw [h.drawn, h.config, hlength, overflow_add hmax, SlotScript.after_ofAnswers,
    List.drop_of_length_le (Nat.le_of_eq (SlotAnswers.length_toList a))]

/-- A source that stays within the ranges draws the slots of one of the scripts. -/
theorem exists_scripted {G : Type} [SlotSource G] (hreset : .reset ∉ operations)
    (hlength : (taken operations).length = config.maxSampleSize + drawn)
    (hword : (taken operations).length < 2 ^ 64)
    (hbelow : ∀ (g : G) (range : Nat), 0 < range → (SlotSource.draw g range).1 < range) :
    ∃ a : SlotAnswers config.maxSampleSize drawn,
      ((new config : Normalizer S G).run operations).reservoir =
        (scripted config operations a).reservoir := by
  have hslot : ∀ i < drawn, SlotSource.slot (SlotSource.ofSeed config.seed : G)
      config.maxSampleSize i < config.maxSampleSize + i + 1 := by
    intro i hi
    have hrange : (UInt64.ofNat (config.maxSampleSize + i + 1)).toNat =
        config.maxSampleSize + i + 1 := by
      rw [UInt64.toNat_ofNat']
      exact Nat.mod_eq_of_lt (by omega)
    rw [SlotSource.slot, hrange]
    exact hbelow _ _ (Nat.succ_pos _)
  let a : SlotAnswers config.maxSampleSize drawn := fun i =>
    ⟨SlotSource.slot (SlotSource.ofSeed config.seed : G) config.maxSampleSize i, hslot i i.isLt⟩
  refine ⟨a, reservoir_run_congr config (SlotSource.ofSeed config.seed : G) _ hreset fun i hi => ?_⟩
  have hi : i < drawn := by omega
  rw [SlotScript.slot_ofAnswers, SlotAnswers.toList, List.getElem?_ofFn, dif_pos hi]
  rfl

/-- The reservoir is a uniform sample. However the scores are interspersed with others that are not
finite and with sorting the sample, the run draws one slot for each score beyond the first that fill
the sample, from as many as have come by then. Of all sequences of slots that can be drawn, each
score is kept by the same part, which is the size of the sample over the number of scores; and
whatever source stays within the ranges, its run is that of one of these sequences. The scores are
counted in a word of eight bytes, so a range is their number modulo `2 ^ 64`. -/
theorem kept_uniformly (config : NormalizerConfig) (operations : List (Operation S))
    (hmax : 0 < config.maxSampleSize) (hreset : .reset ∉ operations)
    (hmany : config.maxSampleSize < (taken operations).length) (hnodup : (taken operations).Nodup) :
    let drawn := (taken operations).length - config.maxSampleSize
    (∀ a : SlotAnswers config.maxSampleSize drawn, (scripted config operations a).slots =
      ⟨[], (List.range' (config.maxSampleSize + 1) drawn).map (· % 2 ^ 64)⟩) ∧
    (∀ x ∈ taken operations,
      keptCount config operations drawn x * (taken operations).length =
        config.maxSampleSize * Nat.card (SlotAnswers config.maxSampleSize drawn)) ∧
    ((taken operations).length < 2 ^ 64 → ∀ (G : Type) [SlotSource G],
      (∀ (g : G) (range : Nat), 0 < range → (SlotSource.draw g range).1 < range) →
        ∃ a : SlotAnswers config.maxSampleSize drawn,
          ((new config : Normalizer S G).run operations).reservoir =
            (scripted config operations a).reservoir) := by
  intro drawn
  have hlength : (taken operations).length = config.maxSampleSize + drawn := by omega
  refine ⟨slots_scripted hreset hmax hlength, fun x hx => ?_, fun hword G _ =>
    exists_scripted hreset hlength hword⟩
  have hcount := keptCount_mul hmax hreset hnodup hlength hx
  rwa [← hlength] at hcount

/-- Five scores come, one of them before the first sort, and two are kept: each by 24 of the 60
sequences of slots, one of which is that of the generator. -/
theorem kept_uniformly_twoOfFive :
    let score (i : Nat) : Operation Binary64 := .observe ⟨UInt64.ofNat i⟩
    let operations := [score 3, .finish, .observe Binary64.undefined, score 1, score 4, .finish,
      score 2, score 5]
    keptCount ⟨2, 0⟩ operations 3 ⟨3⟩ = 24 ∧ Nat.card (SlotAnswers 2 3) = 60 ∧
      ∃ a : SlotAnswers 2 3, ((new ⟨2, 0⟩ : Normalizer Binary64 Generator).run operations).reservoir =
        (scripted ⟨2, 0⟩ operations a).reservoir := by
  intro score operations
  have htaken : taken operations = [⟨3⟩, ⟨1⟩, ⟨4⟩, ⟨2⟩, ⟨5⟩] := by decide +kernel
  have hcard : Nat.card (SlotAnswers 2 3) = 60 := by
    rw [SlotAnswers.card_succ, SlotAnswers.card_succ, SlotAnswers.card_succ, Nat.card_unique]
  obtain ⟨-, hkept, hsource⟩ := kept_uniformly ⟨2, 0⟩ operations (by decide)
    (by simp [operations, score]) (by rw [htaken]; decide) (by rw [htaken]; decide)
  rw [htaken] at hkept hsource
  have hthree := hkept ⟨3⟩ (by decide)
  change keptCount _ _ 3 _ * 5 = 2 * Nat.card (SlotAnswers 2 3) at hthree
  exact ⟨by omega, hcard, hsource (by decide) Generator fun g _ => g.below_lt⟩

end Normalizer

end Relatedness
