import Relatedness.Proofs.Matrix.Contents

/-! What a row made from arbitrary entries holds: of each column the last weight given for it,
unless that weight is zero. The sort is stable, so the entries of a column keep their order, and
the last of them is the one that is kept. -/

namespace Relatedness.Row

variable {β : Type}

/-- A stable sort by a key leaves the entries of one key in their order. -/
theorem filter_mergeSort (l : List (FeatureId × β)) (c : FeatureId) :
    (l.mergeSort fun a b => a.1 ≤ b.1).filter (fun e => e.1 == c) = l.filter fun e => e.1 == c := by
  have hsub : List.Sublist (l.filter fun e => e.1 == c) (l.mergeSort fun a b => a.1 ≤ b.1) := by
    refine List.sublist_mergeSort ?_ ?_ ?_ List.filter_sublist
    · intro a b d hab hbd
      simp only [decide_eq_true_eq] at hab hbd ⊢
      exact UInt32.le_trans hab hbd
    · intro a b
      simpa using UInt32.le_total a.1 b.1
    · refine List.pairwise_of_forall_mem_list fun a ha b hb => ?_
      have ha' : a.1 = c := by simpa using (List.mem_filter.mp ha).2
      have hb' : b.1 = c := by simpa using (List.mem_filter.mp hb).2
      simp [ha', hb']
  have hfilter := hsub.filter fun e => e.1 == c
  rw [List.filter_filter] at hfilter
  simp only [Bool.and_self] at hfilter
  refine (hfilter.eq_of_length_le ?_).symm
  exact (((l.mergeSort_perm _).filter _).length_eq).le

theorem lookup_keepLast {l : List (FeatureId × Binary32)} (h : l.Pairwise fun a b => a.1 ≤ b.1)
    (c : FeatureId) :
    (keepLast l).lookup c = ((l.filter fun e => e.1 == c).getLast?).map Prod.snd := by
  fun_induction keepLast l with
  | case1 => rfl
  | case2 e =>
    rw [List.lookup_cons, List.filter_cons]
    by_cases hc : e.1 = c
    · simp [hc]
    · have hne : (c == e.1) = false := by simpa using fun heq => hc heq.symm
      simp [hne, hc]
  | case3 d next rest heq ih =>
    rw [ih h.tail]
    by_cases hc : d.1 = c
    · have hd : (d.1 == c) = true := by simpa using hc
      have hnext : (next.1 == c) = true := by simpa [← heq] using hc
      simp only [List.filter_cons, hd, hnext, if_true, List.getLast?_cons_cons]
    · have hskip : (d :: next :: rest).filter (fun e => e.1 == c) =
          (next :: rest).filter fun e => e.1 == c := List.filter_cons_of_neg (by simpa using hc)
      rw [hskip]
  | case4 d next rest hne ih =>
    rw [List.lookup_cons, ih h.tail]
    by_cases hc : d.1 = c
    · -- the columns behind are larger, so none of them is this one
      have hrest : ((next :: rest).filter fun e => e.1 == c) = [] := by
        refine List.filter_eq_nil_iff.mpr fun e he => ?_
        have hlt : d.1 < next.1 :=
          UInt32.lt_of_le_of_ne (List.rel_of_pairwise_cons h List.mem_cons_self) hne
        have hle : next.1 ≤ e.1 := by
          rcases List.mem_cons.mp he with rfl | he
          · exact UInt32.le_refl _
          · exact List.rel_of_pairwise_cons h.tail he
        simpa using fun heq : e.1 = c =>
          UInt32.lt_irrefl c (UInt32.lt_of_lt_of_le (hc ▸ hlt) (heq ▸ hle))
      have honly : (d :: next :: rest).filter (fun e => e.1 == c) = [d] := by
        rw [← hrest]
        exact List.filter_cons_of_pos (by simpa using hc)
      simp [honly, hc]
    · have hne' : (c == d.1) = false := by simpa using fun heq => hc heq.symm
      have hskip : (d :: next :: rest).filter (fun e => e.1 == c) =
          (next :: rest).filter fun e => e.1 == c := List.filter_cons_of_neg (by simpa using hc)
      rw [hne', hskip]

theorem lookup_filter {l : List (UInt32 × β)} (h : l.Pairwise fun a b => a.1 < b.1)
    (p : β → Bool) (c : UInt32) :
    (l.filter fun e => p e.2).lookup c = (l.lookup c).filter p := by
  ext v
  rw [Ascending.lookup_eq_some_iff (h.filter _), List.mem_filter, Option.filter_eq_some_iff,
    Ascending.lookup_eq_some_iff h]

/-- The weight of a column in a row made from entries. -/
theorem get?_ofEntries (id : RowId) (entries : List (FeatureId × Binary32)) (c : FeatureId) :
    (ofEntries id entries).get? c =
      (((entries.filter fun e => e.1 == c).getLast?).map Prod.snd).filter (!·.isZero) := by
  have hsorted : (entries.mergeSort fun a b => a.1 ≤ b.1).Pairwise fun a b => a.1 ≤ b.1 := by
    have h := @List.pairwise_mergeSort _ (fun a b : FeatureId × Binary32 => decide (a.1 ≤ b.1))
      (fun a b c => by simpa using UInt32.le_trans) (fun a b => by simpa using UInt32.le_total ..)
      entries
    exact h.imp (by simp)
  unfold get? ofEntries
  rw [lookup_filter (pairwise_keepLast hsorted) (!·.isZero), lookup_keepLast hsorted,
    filter_mergeSort]

end Relatedness.Row
