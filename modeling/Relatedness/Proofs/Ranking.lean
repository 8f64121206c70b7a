import Relatedness.Ranking
import Relatedness.Proofs.Sorting

/-! The best of a stream of scores. What a `TopK` holds is the beginning of the stable sort of
all that it was given, so the order of arrival decides between equal scores and nothing else
does. The only law asked of the scores is that those which are numbers are ranked by `less`. -/

namespace Relatedness

/-- `less` ranks the values that are numbers, as a total preorder does. -/
structure Scalar.Ranked (S : Type) [Scalar S] : Prop where
  asymm : ∀ a b : S, isNaN a = false → isNaN b = false → less a b = true → less b a = false
  trans : ∀ a b c : S, isNaN a = false → isNaN b = false → isNaN c = false →
    less b a = false → less c b = false → less c a = false

theorem Binary64.ranked : Scalar.Ranked Binary64 where
  asymm a b _ _ h := by
    simp only [Scalar.less, Binary64.less, Bool.and_eq_true, Bool.not_eq_true',
      decide_eq_true_eq] at h
    simp only [Scalar.less, Binary64.less, Bool.and_eq_false_iff, decide_eq_false_iff_not]
    right
    omega
  trans a b c ha hb hc hab hbc := by
    simp only [Scalar.isNaN] at ha hb hc
    simp only [Scalar.less, Binary64.less, ha, hb, hc, Bool.not_false, Bool.true_and,
      decide_eq_false_iff_not] at hab hbc ⊢
    omega

namespace TopK

variable {S : Type} [Scalar S]

/-- What is not ignored of a stream of scores. -/
def observations (scores : List (RowId × S)) : Hits S :=
  (scores.filter fun s => !Scalar.isNaN s.2).map fun s => ⟨s.1, s.2⟩

/-- The order that hits are ranked in. -/
def descends (a b : Scored S) : Bool := !Scalar.less a.score b.score

/-- Hits whose scores are numbers. -/
def Numbers (hits : Hits S) : Prop := ∀ h ∈ hits, Scalar.isNaN h.score = false

theorem numbers_observations (scores : List (RowId × S)) : Numbers (observations scores) := by
  intro h hh
  obtain ⟨s, hs, rfl⟩ := List.mem_map.mp hh
  simpa using (List.mem_filter.mp hs).2

theorem sortDescending_eq (hits : Hits S) : hits.sortDescending = hits.mergeSort descends := rfl

/-! ## Placing one entry -/

theorem place_perm (e : Scored S × Nat) (held : List (Scored S × Nat)) :
    (place e held).Perm (e :: held) := by
  induction held with
  | nil => rfl
  | cons other rest ih =>
    rw [place]
    split
    · rfl
    · exact (ih.cons other).trans (List.Perm.swap e other rest)

theorem place_take (e : Scored S × Nat) (held : List (Scored S × Nat)) (k : Nat) :
    (place e (held.take k)).take k = (place e held).take k := by
  induction held generalizing k with
  | nil => simp
  | cons other rest ih =>
    cases k with
    | zero => simp
    | succ k =>
      rw [List.take_succ_cons, place, place]
      split
      · cases k with
        | zero => simp
        | succ k => simp [List.take_take]
      · simp [ih]

/-- An entry that comes after all others takes its place in their order. -/
theorem pairwise_place (ranked : Scalar.Ranked S) {e : Scored S × Nat}
    {held : List (Scored S × Nat)} (he : Scalar.isNaN e.1.score = false)
    (hheld : ∀ o ∈ held, Scalar.isNaN o.1.score = false) (hlate : ∀ o ∈ held, o.2 < e.2)
    (hsorted : held.Pairwise fun p q => List.zipIdxLE descends p q) :
    (place e held).Pairwise fun p q => List.zipIdxLE descends p q := by
  induction held with
  | nil => exact List.pairwise_singleton _ _
  | cons other rest ih =>
    have hother := hheld other List.mem_cons_self
    rw [place]
    split
    · rename_i hless
      have hle := ranked.asymm _ _ hother he hless
      refine List.pairwise_cons.mpr ⟨?_, hsorted⟩
      intro r hr
      rcases List.mem_cons.mp hr with rfl | hr
      · simp [List.zipIdxLE, descends, hless, hle]
      · -- what is behind `other` is no better than it, so it is worse than `e`
        have hrn := hheld r (List.mem_cons_of_mem other hr)
        have hor := List.rel_of_pairwise_cons hsorted hr
        have hro : Scalar.less other.1.score r.1.score = false := by
          simpa [descends] using Sorting.zipIdxLE_le hor
        have her : Scalar.less e.1.score r.1.score = false :=
          ranked.trans _ _ _ hrn hother he hro hle
        have hre : Scalar.less r.1.score e.1.score = true := by
          by_contra h
          have hoe := ranked.trans _ _ _ he hrn hother (Bool.not_eq_true _ ▸ h) hro
          rw [hless] at hoe
          cases hoe
        simp [List.zipIdxLE, descends, her, hre]
    · rename_i hless
      have hlt := hlate other List.mem_cons_self
      refine List.pairwise_cons.mpr ⟨?_, ih (fun o ho => hheld o (List.mem_cons_of_mem _ ho))
        (fun o ho => hlate o (List.mem_cons_of_mem _ ho)) hsorted.tail⟩
      intro r hr
      rcases List.mem_cons.mp ((place_perm e rest).mem_iff.mp hr) with rfl | hr
      · simp [List.zipIdxLE, descends, hless, Nat.le_of_lt hlt]
      · exact List.rel_of_pairwise_cons hsorted hr

/-! ## A whole stream -/

theorem tallyAll_eq (k seen : Nat) (held : List (Scored S × Nat)) (scores : List (RowId × S)) :
    tallyAll ⟨k, held.take k, seen⟩ scores =
      ⟨k, (((observations scores).zipIdx seen).foldl (fun held e => place e held) held).take k,
        seen + (observations scores).length⟩ := by
  induction scores generalizing held seen with
  | nil => rfl
  | cons s rest ih =>
    obtain ⟨id, score⟩ := s
    have hstep : tallyAll ⟨k, held.take k, seen⟩ ((id, score) :: rest) =
        tallyAll (tally ⟨k, held.take k, seen⟩ id score) rest := rfl
    rw [hstep, tally]
    by_cases h : Scalar.isNaN score = true
    · have hobs : observations ((id, score) :: rest) = observations rest := by
        simp [observations, h]
      rw [if_pos h, hobs, ih]
    · have hobs : observations ((id, score) :: rest) = ⟨id, score⟩ :: observations rest := by
        simp [observations, h]
      rw [if_neg h, place_take, hobs, ih]
      simp only [List.zipIdx_cons, List.foldl_cons, List.length_cons, mk.injEq, true_and]
      omega

theorem perm_placeAll (held entries : List (Scored S × Nat)) :
    (entries.foldl (fun held e => place e held) held).Perm (entries ++ held) := by
  induction entries generalizing held with
  | nil => rfl
  | cons e rest ih =>
    refine (ih (place e held)).trans ?_
    exact ((place_perm e held).append_left rest).trans List.perm_middle

theorem pairwise_placeAll (ranked : Scalar.Ranked S) {held entries : List (Scored S × Nat)}
    (hn : ∀ e ∈ entries ++ held, Scalar.isNaN e.1.score = false)
    (htags : (entries.map Prod.snd).Pairwise (· < ·))
    (hlate : ∀ o ∈ held, ∀ e ∈ entries, o.2 < e.2)
    (hsorted : held.Pairwise fun p q => List.zipIdxLE descends p q) :
    (entries.foldl (fun held e => place e held) held).Pairwise
      fun p q => List.zipIdxLE descends p q := by
  induction entries generalizing held with
  | nil => exact hsorted
  | cons e rest ih =>
    have hheld := pairwise_place ranked (hn e (by simp)) (fun o ho => hn o (by simp [ho]))
      (fun o ho => hlate o ho e List.mem_cons_self) hsorted
    refine ih ?_ htags.tail ?_ hheld
    · intro o ho
      refine hn o ?_
      simpa [(place_perm e held).mem_iff, or_left_comm] using ho
    · intro o ho f hf
      rcases List.mem_cons.mp ((place_perm e held).mem_iff.mp ho) with rfl | ho
      · exact List.rel_of_pairwise_cons htags (List.mem_map_of_mem hf)
      · exact hlate o ho f (List.mem_cons_of_mem _ hf)

theorem descends_total (ranked : Scalar.Ranked S) {a b : Scored S}
    (ha : Scalar.isNaN a.score = false) (hb : Scalar.isNaN b.score = false) :
    descends a b || descends b a := by
  unfold descends
  cases h : Scalar.less a.score b.score with
  | false => rfl
  | true => simp [ranked.asymm _ _ ha hb h]

theorem descends_trans (ranked : Scalar.Ranked S) {a b c : Scored S}
    (ha : Scalar.isNaN a.score = false) (hb : Scalar.isNaN b.score = false)
    (hc : Scalar.isNaN c.score = false) (hab : descends a b) (hbc : descends b c) :
    descends a c := by
  simp only [descends, Bool.not_eq_true'] at hab hbc ⊢
  exact ranked.trans _ _ _ hc hb ha hbc hab

/-- The tagged sort of numbers, whatever order they stand in. -/
theorem pairwise_mergeSort_tagged (ranked : Scalar.Ranked S) {l : List (Scored S × Nat)}
    (hn : ∀ e ∈ l, Scalar.isNaN e.1.score = false) :
    (l.mergeSort (List.zipIdxLE descends)).Pairwise fun p q => List.zipIdxLE descends p q := by
  apply Sorting.pairwise_mergeSort_of_mem
  · intro p hp q hq r hr hpq hqr
    exact Sorting.zipIdxLE_trans (fun h h' => descends_trans ranked (hn p hp) (hn q hq) (hn r hr) h h')
      (fun h h' => descends_trans ranked (hn q hq) (hn r hr) (hn p hp) h h')
      (fun h h' => descends_trans ranked (hn r hr) (hn p hp) (hn q hq) h h') hpq hqr
  · intro p hp q hq
    exact Sorting.zipIdxLE_total (descends_total ranked (hn p hp) (hn q hq))

/-- A board that was given a whole stream holds the beginning of its stable sort. -/
theorem held_tallyAll (ranked : Scalar.Ranked S) (k : Nat) (scores : List (RowId × S)) :
    ((empty k).tallyAll scores).held =
      (((observations scores).zipIdx).mergeSort (List.zipIdxLE descends)).take k := by
  have hn : ∀ e ∈ (observations scores).zipIdx, Scalar.isNaN e.1.score = false :=
    fun e he => numbers_observations scores e.1 (List.fst_mem_of_mem_zipIdx he)
  have htags : ((observations scores).zipIdx.map Prod.snd).Pairwise (· < ·) := by
    simp [List.pairwise_lt_range']
  have hfold := tallyAll_eq k 0 ([] : List (Scored S × Nat)) scores
  rw [List.take_nil] at hfold
  rw [empty, hfold]
  refine congrArg (List.take k) ?_
  refine Sorting.eq_of_perm_of_tags ?_ (pairwise_placeAll ranked (by simpa using hn) htags
    (by simp) .nil) (pairwise_mergeSort_tagged ranked hn) ?_
  · refine List.Perm.nodup ((perm_placeAll [] _).map Prod.snd).symm ?_
    rw [List.append_nil]
    exact htags.imp Nat.ne_of_lt
  · simpa using (perm_placeAll [] _).trans (List.mergeSort_perm _ _).symm

/-- What a board yields is the beginning of the stable descending sort of what it was given. -/
theorem sortDescending_inArrivalOrder (ranked : Scalar.Ranked S) (k : Nat)
    (scores : List (RowId × S)) :
    ((empty k).tallyAll scores).inArrivalOrder.sortDescending =
      (observations scores).sortDescending.take k := by
  let sorted := ((observations scores).zipIdx).mergeSort (List.zipIdxLE descends)
  let arrived := (sorted.take k).mergeSort fun a b => a.2 ≤ b.2
  have hperm : arrived.Perm (sorted.take k) := List.mergeSort_perm _ _
  have hn : ∀ e ∈ sorted.take k, Scalar.isNaN e.1.score = false := by
    intro e he
    have hmem := List.mem_mergeSort.mp (List.mem_of_mem_take he)
    exact numbers_observations scores e.1 (List.fst_mem_of_mem_zipIdx hmem)
  have hnodup : ((sorted.take k).map Prod.snd).Nodup := by
    have hall : (sorted.map Prod.snd).Nodup := by
      refine ((List.mergeSort_perm _ _).map Prod.snd).nodup_iff.mpr ?_
      simp [List.nodup_range']
    exact hall.sublist ((List.take_sublist k sorted).map Prod.snd)
  have htags : (arrived.map Prod.snd).Pairwise (· < ·) := by
    have hle : arrived.Pairwise fun a b => decide (a.2 ≤ b.2) :=
      @List.pairwise_mergeSort _ (fun a b : Scored S × Nat => decide (a.2 ≤ b.2))
        (fun a b c hab hbc => decide_eq_true (Nat.le_trans (of_decide_eq_true hab)
          (of_decide_eq_true hbc)))
        (fun a b => by simpa using Nat.le_total a.2 b.2) (sorted.take k)
    have hne : (arrived.map Prod.snd).Nodup := (hperm.map Prod.snd).nodup_iff.mpr hnodup
    have hles : (arrived.map Prod.snd).Pairwise (· ≤ ·) :=
      List.pairwise_map.mpr (hle.imp fun h => of_decide_eq_true h)
    exact hles.imp₂ (fun _ _ h h' => Nat.lt_of_le_of_ne h h') hne
  have hsorted : (sorted.take k).Pairwise fun p q => List.zipIdxLE descends p q :=
    (pairwise_mergeSort_tagged ranked fun e he => numbers_observations scores e.1
      (List.fst_mem_of_mem_zipIdx he)).sublist (List.take_sublist _ _)
  have hback : arrived.mergeSort (List.zipIdxLE descends) = sorted.take k := by
    refine Sorting.eq_of_perm_of_tags ?_ (pairwise_mergeSort_tagged ranked ?_) hsorted
      ((List.mergeSort_perm _ _).trans hperm)
    · exact (((List.mergeSort_perm _ _).trans hperm).map Prod.snd).nodup_iff.mpr hnodup
    · exact fun e he => hn e (hperm.mem_iff.mp he)
  calc ((empty k).tallyAll scores).inArrivalOrder.sortDescending
      = (arrived.map Prod.fst).mergeSort descends := by
        rw [inArrivalOrder, held_tallyAll ranked, sortDescending_eq]
    _ = (arrived.mergeSort (List.zipIdxLE descends)).map Prod.fst :=
        (Sorting.map_fst_mergeSort htags).symm
    _ = (sorted.map Prod.fst).take k := by rw [hback, List.map_take]
    _ = (observations scores).sortDescending.take k := by
        rw [List.mergeSort_zipIdx, sortDescending_eq]

end TopK
end Relatedness
