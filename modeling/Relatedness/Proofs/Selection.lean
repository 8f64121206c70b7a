import Mathlib.Data.List.Induction
import Relatedness.Proofs.Ranking

/-! What a `TopK` selects, said without its list. The observations have one order, from best to
worst, in which a higher score comes first and of equal scores the earlier arrival. A board of
capacity `k` holds the first `k` of that order, and all that it answers is read off them. A heap
that is bounded by `k` and gives up its worst entry for a better one holds the same. -/

namespace Relatedness.TopK

variable {S : Type} [Scalar S]

/-- Entry `a` is better than entry `b`. -/
def Precedes (a b : Scored S × Nat) : Prop :=
  Scalar.less b.1.score a.1.score = true ∨
    Scalar.less a.1.score b.1.score = false ∧ a.2 < b.2

/-- All that was seen, each with its place in the order of arrival, from best to worst. -/
structure Standings (seen : Hits S) (order : List (Scored S × Nat)) : Prop where
  members : order.Perm seen.zipIdx
  ordered : order.Pairwise Precedes

theorem zipIdxLE_of_precedes (ranked : Scalar.Ranked S) {a b : Scored S × Nat}
    (ha : Scalar.isNaN a.1.score = false) (hb : Scalar.isNaN b.1.score = false)
    (h : Precedes a b) : List.zipIdxLE descends a b := by
  rcases h with hless | ⟨hnot, hlt⟩
  · simp [List.zipIdxLE, descends, hless, ranked.asymm _ _ hb ha hless]
  · simp [List.zipIdxLE, descends, hnot, Nat.le_of_lt hlt]

theorem precedes_of_zipIdxLE {a b : Scored S × Nat} (hne : a.2 ≠ b.2)
    (h : List.zipIdxLE descends a b) : Precedes a b := by
  simp only [List.zipIdxLE, descends] at h
  cases hless : Scalar.less b.1.score a.1.score with
  | true => exact .inl hless
  | false =>
    cases hback : Scalar.less a.1.score b.1.score with
    | true => simp [hback] at h
    | false =>
      simp only [hless, hback, Bool.not_false, if_true, decide_eq_true_eq] at h
      exact .inr ⟨hback, Nat.lt_of_le_of_ne h hne⟩

theorem nodup_snd_zipIdx {α : Type} (l : List α) : (l.zipIdx.map Prod.snd).Nodup := by
  simp [List.nodup_range']

namespace Standings

variable {seen : Hits S} {order other : List (Scored S × Nat)}

theorem length (h : Standings seen order) : order.length = seen.length := by
  simpa using h.members.length_eq

theorem isNaN_eq_false (h : Standings seen order) (numbers : Numbers seen) {e : Scored S × Nat}
    (he : e ∈ order) : Scalar.isNaN e.1.score = false :=
  numbers e.1 (List.fst_mem_of_mem_zipIdx (h.members.mem_iff.mp he))

theorem nodup_tags (h : Standings seen order) : (order.map Prod.snd).Nodup :=
  (h.members.map Prod.snd).nodup_iff.mpr (nodup_snd_zipIdx seen)

theorem pairwise_zipIdxLE (ranked : Scalar.Ranked S) (h : Standings seen order)
    (numbers : Numbers seen) : order.Pairwise fun p q => List.zipIdxLE descends p q :=
  h.ordered.imp_of_mem fun ha hb => zipIdxLE_of_precedes ranked (h.isNaN_eq_false numbers ha)
    (h.isNaN_eq_false numbers hb)

theorem eq_mergeSort (ranked : Scalar.Ranked S) (h : Standings seen order)
    (numbers : Numbers seen) : order = seen.zipIdx.mergeSort (List.zipIdxLE descends) := by
  refine Sorting.eq_of_perm_of_tags h.nodup_tags (h.pairwise_zipIdxLE ranked numbers) ?_ ?_
  · exact pairwise_mergeSort_tagged ranked fun e he => numbers e.1 (List.fst_mem_of_mem_zipIdx he)
  · exact h.members.trans (List.mergeSort_perm _ _).symm

theorem unique (ranked : Scalar.Ranked S) (numbers : Numbers seen) (h : Standings seen order)
    (h' : Standings seen other) : other = order := by
  rw [h.eq_mergeSort ranked numbers, h'.eq_mergeSort ranked numbers]

end Standings

theorem standings_mergeSort (ranked : Scalar.Ranked S) {seen : Hits S} (numbers : Numbers seen) :
    Standings seen (seen.zipIdx.mergeSort (List.zipIdxLE descends)) where
  members := List.mergeSort_perm _ _
  ordered := by
    have hnodup : ((seen.zipIdx.mergeSort (List.zipIdxLE descends)).map Prod.snd).Nodup :=
      ((List.mergeSort_perm _ _).map Prod.snd).nodup_iff.mpr (nodup_snd_zipIdx seen)
    have hsorted := pairwise_mergeSort_tagged ranked (l := seen.zipIdx)
      fun e he => numbers e.1 (List.fst_mem_of_mem_zipIdx he)
    exact hsorted.imp₂ (fun _ _ h hne => precedes_of_zipIdxLE hne h) (List.pairwise_map.mp hnodup)

/-! ## What is read off the best -/

/-- What is seen at the places of the given entries, in the order of arrival. -/
def arrivals (seen : Hits S) (chosen : List (Scored S × Nat)) : Hits S :=
  (seen.zipIdx.filter fun e => chosen.any (·.2 == e.2)).map Prod.fst

omit [Scalar S] in
theorem pairwise_sort_arrival (chosen : List (Scored S × Nat)) :
    (chosen.mergeSort fun a b => a.2 ≤ b.2).Pairwise fun a b => a.2 ≤ b.2 :=
  (@List.pairwise_mergeSort _ (fun a b : Scored S × Nat => decide (a.2 ≤ b.2))
    (fun a b c hab hbc => by simp only [decide_eq_true_eq] at *; omega)
    (fun a b => by simpa using Nat.le_total a.2 b.2) chosen).imp fun h => by simpa using h

omit [Scalar S] in
/-- Sorting some of the observations by their arrival leaves out the others of the stream. -/
theorem sort_arrival_eq_arrivals {seen : Hits S} {chosen : List (Scored S × Nat)}
    (hsub : ∀ e ∈ chosen, e ∈ seen.zipIdx) (hnodup : (chosen.map Prod.snd).Nodup) :
    (chosen.mergeSort fun a b => a.2 ≤ b.2).map Prod.fst = arrivals seen chosen := by
  refine congrArg (List.map Prod.fst) ?_
  have hseen := nodup_snd_zipIdx seen
  have hmem : ∀ e, e ∈ seen.zipIdx.filter (fun e => chosen.any (·.2 == e.2)) ↔ e ∈ chosen := by
    intro e
    rw [List.mem_filter, List.any_eq_true]
    refine ⟨fun ⟨he, o, ho, heq⟩ => ?_, fun he => ⟨hsub e he, e, he, by simp⟩⟩
    have hoe : o = e := List.inj_on_of_nodup_map hseen (hsub o ho) he (by simpa using heq)
    exact hoe ▸ ho
  refine List.Perm.eq_of_pairwise ?_ (pairwise_sort_arrival chosen) ?_ ?_
  · intro a b ha hb hab hba
    have ha' := hsub a (List.mem_mergeSort.mp ha)
    have hb' := (List.mem_filter.mp hb).1
    exact List.inj_on_of_nodup_map hseen ha' hb' (Nat.le_antisymm hab hba)
  · have hlt : (seen.zipIdx.map Prod.snd).Pairwise (· < ·) := by simp [List.pairwise_lt_range']
    exact ((List.pairwise_map.mp hlt).imp Nat.le_of_lt).sublist List.filter_sublist
  · refine (List.mergeSort_perm _ _).trans ((List.perm_ext_iff_of_nodup ?_ ?_).mpr ?_)
    · exact List.Nodup.of_map _ hnodup
    · exact (List.Nodup.of_map _ hseen).filter _
    · exact fun e => (hmem e).symm

/-- Nothing in a list that runs from best to worst scores lower than its end. -/
theorem less_getLast (ranked : Scalar.Ranked S) {chosen : List (Scored S × Nat)}
    (hn : ∀ e ∈ chosen, Scalar.isNaN e.1.score = false) (hordered : chosen.Pairwise Precedes)
    {worst e : Scored S × Nat} (hworst : chosen.getLast? = some worst) (he : e ∈ chosen) :
    Scalar.less e.1.score worst.1.score = false := by
  obtain ⟨before, rfl⟩ := List.getLast?_eq_some_iff.mp hworst
  have hw := hn worst (by simp)
  rcases List.mem_append.mp he with hb | hb
  · rcases (List.pairwise_append.mp hordered).2.2 e hb worst (by simp) with hless | ⟨hnot, _⟩
    · exact ranked.asymm _ _ hw (hn e he) hless
    · exact hnot
  · obtain rfl : e = worst := by simpa using hb
    cases hself : Scalar.less e.1.score e.1.score with
    | false => rfl
    | true => rw [ranked.asymm _ _ hw hw hself] at hself; cases hself

/-! ## A bounded heap -/

/-- What a heap of at most `k` entries makes of one score. It keeps its entries in no particular
order, and knows the worst of them. The number beside them is that of the next arrival. -/
inductive HeapStep (k : Nat) (id : RowId) (score : S) :
    List (Scored S × Nat) × Nat → List (Scored S × Nat) × Nat → Prop
  | ignore {heap} (h : k = 0 ∨ Scalar.isNaN score = true) : HeapStep k id score heap heap
  | push {held new n} (hk : k ≠ 0) (hnumber : Scalar.isNaN score = false)
      (hroom : held.length < k) (hnew : new.Perm ((⟨id, score⟩, n) :: held)) :
      HeapStep k id score (held, n) (new, n + 1)
  | refuse {held rest worst n} (hk : k ≠ 0) (hnumber : Scalar.isNaN score = false)
      (hfull : k ≤ held.length) (hheld : held.Perm (worst :: rest))
      (hworst : ∀ e ∈ rest, Precedes e worst) (hless : Scalar.less worst.1.score score = false) :
      HeapStep k id score (held, n) (held, n + 1)
  | replace {held new rest worst n} (hk : k ≠ 0) (hnumber : Scalar.isNaN score = false)
      (hfull : k ≤ held.length) (hheld : held.Perm (worst :: rest))
      (hworst : ∀ e ∈ rest, Precedes e worst) (hless : Scalar.less worst.1.score score = true)
      (hnew : new.Perm ((⟨id, score⟩, n) :: rest)) :
      HeapStep k id score (held, n) (new, n + 1)

/-- A heap that is given one score after the other. -/
inductive HeapRun (k : Nat) : List (RowId × S) → List (Scored S × Nat) × Nat → Prop
  | start : HeapRun k [] ([], 0)
  | tally {scores heap heap' id score} (before : HeapRun k scores heap)
      (step : HeapStep k id score heap heap') : HeapRun k (scores ++ [(id, score)]) heap'

theorem place_eq_append {e : Scored S × Nat} {held : List (Scored S × Nat)}
    (h : ∀ o ∈ held, Scalar.less o.1.score e.1.score = false) : place e held = held ++ [e] := by
  induction held with
  | nil => rfl
  | cons other rest ih =>
    rw [place, if_neg (by simp [h other List.mem_cons_self]),
      ih fun o ho => h o (List.mem_cons_of_mem other ho), List.cons_append]

theorem place_append_worst {e worst : Scored S × Nat} (before : List (Scored S × Nat))
    (h : Scalar.less worst.1.score e.1.score = true) :
    place e (before ++ [worst]) = place e before ++ [worst] := by
  induction before with
  | nil => simp [place, h]
  | cons other rest ih =>
    rw [List.cons_append, place, place, ih]
    split
    · rfl
    · rfl

theorem Precedes.asymm (ranked : Scalar.Ranked S) {a b : Scored S × Nat}
    (ha : Scalar.isNaN a.1.score = false) (hb : Scalar.isNaN b.1.score = false)
    (hab : Precedes a b) : ¬ Precedes b a := by
  rintro (hba | ⟨hnot, hlt⟩)
  · rcases hab with hless | ⟨hnot, -⟩
    · rw [ranked.asymm _ _ hb ha hless] at hba
      cases hba
    · rw [hnot] at hba
      cases hba
  · rcases hab with hless | ⟨-, hlt'⟩
    · rw [hnot] at hless
      cases hless
    · omega

/-- The worst entry of a heap stands last when its entries are put in order. -/
theorem eq_append_worst (ranked : Scalar.Ranked S) {ordered rest : List (Scored S × Nat)}
    {worst : Scored S × Nat} (hn : ∀ e ∈ ordered, Scalar.isNaN e.1.score = false)
    (hordered : ordered.Pairwise Precedes) (hperm : ordered.Perm (worst :: rest))
    (hworst : ∀ e ∈ rest, Precedes e worst) :
    ∃ before, ordered = before ++ [worst] ∧ before.Perm rest := by
  rcases List.eq_nil_or_concat ordered with rfl | ⟨before, last, rfl⟩
  · simp at hperm
  rw [List.concat_eq_append] at hn hordered hperm ⊢
  have hlast : last = worst := by
    have hmem : worst ∈ before ++ [last] := hperm.mem_iff.mpr List.mem_cons_self
    rcases List.mem_append.mp hmem with hb | hb
    · have hwl := (List.pairwise_append.mp hordered).2.2 worst hb last (by simp)
      have hl : last ∈ worst :: rest := hperm.mem_iff.mp (by simp)
      rcases List.mem_cons.mp hl with h | h
      · exact h
      · exact absurd hwl ((hworst last h).asymm ranked (hn last (by simp)) (hn worst hmem))
    · exact (by simpa using hb : worst = last).symm
  subst hlast
  refine ⟨before, rfl, ?_⟩
  exact (List.perm_cons last).mp ((List.perm_append_singleton last before).symm.trans hperm)

/-- One score given to a heap and to a board that hold the same entries. -/
theorem tally_of_heapStep (ranked : Scalar.Ranked S) {k id score} {board : TopK S}
    {heap heap' : List (Scored S × Nat) × Nat} (hcapacity : board.capacity = k)
    (hlength : board.held.length ≤ k) (hn : ∀ e ∈ board.held, Scalar.isNaN e.1.score = false)
    (hordered : board.held.Pairwise Precedes) (hperm : heap.1.Perm board.held)
    (hseen : k ≠ 0 → heap.2 = board.seen) (step : HeapStep k id score heap heap') :
    heap'.1.Perm (board.tally id score).held ∧
      (k ≠ 0 → heap'.2 = (board.tally id score).seen) := by
  cases step with
  | ignore h =>
    rw [tally]
    split
    · exact ⟨hperm, hseen⟩
    · rename_i hnumber
      obtain rfl : k = 0 := h.resolve_right hnumber
      have hnil : board.held = [] := List.length_eq_zero_iff.mp (Nat.le_zero.mp hlength)
      rw [hnil] at hperm
      exact ⟨by simpa [hcapacity] using hperm, fun hk => absurd rfl hk⟩
  | @push held new n hk hnumber hroom hnew =>
    obtain rfl : n = board.seen := hseen hk
    simp only [tally, hnumber, hcapacity, Bool.false_eq_true, if_false]
    have hplaced := place_perm (⟨id, score⟩, board.seen) board.held
    rw [List.take_of_length_le (by
      rw [hplaced.length_eq, List.length_cons, ← hperm.length_eq]; exact hroom)]
    exact ⟨hnew.trans ((hperm.cons _).trans hplaced.symm), fun _ => trivial⟩
  | @refuse held rest worst n hk hnumber hfull hheld hworst hless =>
    obtain rfl : n = board.seen := hseen hk
    simp only [tally, hnumber, hcapacity, Bool.false_eq_true, if_false]
    obtain ⟨before, hboard, -⟩ :=
      eq_append_worst ranked hn hordered (hperm.symm.trans hheld) hworst
    have hlow : ∀ o ∈ board.held, Scalar.less o.1.score score = false := by
      intro o ho
      have hw := hn worst (by simp [hboard])
      exact ranked.trans _ _ _ hnumber hw (hn o ho) hless
        (less_getLast ranked hn hordered (by simp [hboard]) ho)
    rw [place_eq_append hlow, List.take_append_of_le_length (by
      rw [← hperm.length_eq]; exact hfull), List.take_of_length_le hlength]
    exact ⟨hperm, fun _ => trivial⟩
  | @replace held new rest worst n hk hnumber hfull hheld hworst hless hnew =>
    obtain rfl : n = board.seen := hseen hk
    simp only [tally, hnumber, hcapacity, Bool.false_eq_true, if_false]
    obtain ⟨before, hboard, hbefore⟩ :=
      eq_append_worst ranked hn hordered (hperm.symm.trans hheld) hworst
    have hplaced := place_perm (⟨id, score⟩, board.seen) before
    have hk' : (place (⟨id, score⟩, board.seen) before).length = k := by
      have hheap : board.held.length = k :=
        Nat.le_antisymm hlength (hperm.length_eq ▸ hfull)
      rw [hplaced.length_eq, ← hheap, hboard]
      simp
    rw [hboard, place_append_worst before hless, List.take_append_of_le_length hk'.ge,
      List.take_of_length_le hk'.le]
    exact ⟨hnew.trans ((hbefore.symm.cons _).trans hplaced.symm), fun _ => trivial⟩

/-- A bounded heap holds what the board holds, whatever both were given. -/
theorem held_of_heapRun (ranked : Scalar.Ranked S) {k : Nat} {scores : List (RowId × S)}
    {heap : List (Scored S × Nat) × Nat} (run : HeapRun k scores heap) :
    heap.1.Perm ((empty k).tallyAll scores).held ∧
      (k ≠ 0 → heap.2 = ((empty k).tallyAll scores).seen) := by
  induction run with
  | start => exact ⟨.refl _, fun _ => rfl⟩
  | @tally scores heap heap' id score _ step ih =>
    have hsplit : (empty k).tallyAll (scores ++ [(id, score)]) =
        ((empty k).tallyAll scores).tally id score := by simp [tallyAll]
    have hboard := tallyAll_eq k 0 ([] : List (Scored S × Nat)) scores
    rw [List.take_nil] at hboard
    have hstand := standings_mergeSort ranked (numbers_observations scores)
    have hheld := held_tallyAll ranked k scores
    rw [hsplit]
    refine tally_of_heapStep ranked (by rw [empty, hboard]) ?_ ?_ ?_ ih.1 ih.2 step
    · rw [hheld]
      exact List.length_take_le k _
    · intro e he
      rw [hheld] at he
      exact hstand.isNaN_eq_false (numbers_observations scores) (List.mem_of_mem_take he)
    · rw [hheld]
      exact hstand.ordered.sublist (List.take_sublist k _)

/-- A bounded heap can take in any stream. -/
theorem exists_heapRun (ranked : Scalar.Ranked S) (k : Nat) (scores : List (RowId × S)) :
    ∃ heap, HeapRun k scores heap := by
  induction scores using List.reverseRecOn with
  | nil => exact ⟨_, .start⟩
  | append_singleton scores s ih =>
    obtain ⟨id, score⟩ := s
    obtain ⟨⟨held, n⟩, run⟩ := ih
    suffices ∃ heap', HeapStep k id score (held, n) heap' from
      let ⟨heap', step⟩ := this
      ⟨heap', .tally run step⟩
    by_cases hk : k = 0
    · exact ⟨_, .ignore (.inl hk)⟩
    cases hnumber : Scalar.isNaN score with
    | true => exact ⟨_, .ignore (.inr hnumber)⟩
    | false =>
      by_cases hroom : held.length < k
      · exact ⟨_, .push hk hnumber hroom (.refl _)⟩
      have hfull := Nat.not_lt.mp hroom
      have hperm := (held_of_heapRun ranked run).1
      have hordered : ((empty k).tallyAll scores).held.Pairwise Precedes := by
        rw [held_tallyAll ranked]
        exact (standings_mergeSort ranked (numbers_observations scores)).ordered.sublist
          (List.take_sublist k _)
      rcases List.eq_nil_or_concat ((empty k).tallyAll scores).held with hnil | ⟨rest, worst, hc⟩
      · rw [hnil] at hperm
        obtain rfl : held = [] := List.perm_nil.mp hperm
        exact absurd (Nat.le_zero.mp hfull) hk
      rw [hc, List.concat_eq_append] at hperm hordered
      have hheld := hperm.trans (List.perm_append_singleton worst rest)
      have hworst : ∀ e ∈ rest, Precedes e worst :=
        fun e he => (List.pairwise_append.mp hordered).2.2 e he worst (by simp)
      cases hless : Scalar.less worst.1.score score with
      | true => exact ⟨_, .replace hk hnumber hfull hheld hworst hless (.refl _)⟩
      | false => exact ⟨_, .refuse hk hnumber hfull hheld hworst hless⟩

/-! ## The best of a stream -/

/-- Whatever a board was given, it holds the first of the standings, and what it answers is read
off them: how many there are, the order from best to worst, the order of arrival, the lowest
score. A bounded heap holds the same. Given the scores so far, this says what is answered after
every one of a stream. -/
theorem selects_best (ranked : Scalar.Ranked S) (k : Nat) (scores : List (RowId × S)) :
    ∃ order, Standings (observations scores) order ∧
      (∀ other, Standings (observations scores) other → other = order) ∧
      (∀ heap, HeapRun k scores heap → heap.1.Perm (order.take k)) ∧
      ((empty k).tallyAll scores).size = min k (observations scores).length ∧
      ((empty k).tallyAll scores).inArrivalOrder.sortDescending = (order.take k).map Prod.fst ∧
      ((empty k).tallyAll scores).inArrivalOrder.sortDescending =
        (observations scores).sortDescending.take k ∧
      ((empty k).tallyAll scores).inArrivalOrder = arrivals (observations scores) (order.take k) ∧
      ((empty k).tallyAll scores).minScore? = (order.take k).getLast?.map (·.1.score) ∧
      (∀ low, ((empty k).tallyAll scores).minScore? = some low →
        ∀ e ∈ order.take k, Scalar.less e.1.score low = false) ∧
      (((empty k).tallyAll scores).minScore? = none ↔ ((empty k).tallyAll scores).size = 0) := by
  have numbers := numbers_observations scores
  obtain ⟨order, hdef⟩ : ∃ order,
      order = (observations scores).zipIdx.mergeSort (List.zipIdxLE descends) := ⟨_, rfl⟩
  have hstand : Standings (observations scores) order := hdef ▸ standings_mergeSort ranked numbers
  have hheld : ((empty k).tallyAll scores).held = order.take k := by
    rw [held_tallyAll ranked, hdef]
  have hmin : ((empty k).tallyAll scores).minScore? = (order.take k).getLast?.map (·.1.score) := by
    rw [minScore?, hheld]
  have hbest := sortDescending_inArrivalOrder ranked k scores
  refine ⟨order, hstand, fun other h' => hstand.unique ranked numbers h', ?_, ?_, ?_, hbest,
    ?_, hmin, ?_, ?_⟩
  · exact fun heap run => hheld ▸ (held_of_heapRun ranked run).1
  · rw [size, hheld, List.length_take, hstand.length]
  · rw [hbest, sortDescending_eq, ← List.mergeSort_zipIdx, ← hdef, List.map_take]
  · rw [inArrivalOrder, hheld]
    refine sort_arrival_eq_arrivals (fun e he => ?_) ?_
    · exact hstand.members.mem_iff.mp (List.mem_of_mem_take he)
    · exact hstand.nodup_tags.sublist ((List.take_sublist k order).map Prod.snd)
  · intro low hlow e he
    rw [hmin] at hlow
    obtain ⟨worst, hworst, rfl⟩ := Option.map_eq_some_iff.mp hlow
    exact less_getLast ranked (fun o ho => hstand.isNaN_eq_false numbers (List.mem_of_mem_take ho))
      (hstand.ordered.sublist (List.take_sublist k order)) hworst he
  · rw [hmin, size, hheld]
    simp

/-- Two scores of 1, then a NaN, an infinity and a third score of 1. -/
def tied : List (RowId × Binary64) :=
  [(7, ⟨0x3ff0000000000000⟩), (8, ⟨0x3ff0000000000000⟩), (9, ⟨0x7ff8000000000000⟩),
    (5, ⟨0x7ff0000000000000⟩), (7, ⟨0x3ff0000000000000⟩)]

theorem selects_best_tied : Scalar.Ranked Binary64 ∧ ((empty 2).tallyAll tied).size = 2 ∧
    ((empty 2).tallyAll tied).inArrivalOrder.sortDescending =
      (observations tied).sortDescending.take 2 ∧
    ((empty 2).tallyAll tied).minScore? ≠ none := by
  obtain ⟨_, _, _, _, hsize, _, hbest, _, _, _, hnone⟩ := selects_best Binary64.ranked 2 tied
  have htwo : ((empty 2).tallyAll tied).size = 2 := hsize.trans (by decide)
  exact ⟨Binary64.ranked, htwo, hbest, fun h => by rw [hnone.mp h] at htwo; cases htwo⟩

end Relatedness.TopK
