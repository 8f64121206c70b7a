import Mathlib.Data.List.Sort
import Mathlib.Data.List.Nodup

/-! Facts on `List.mergeSort` that ask for the laws of the order only on the members of the list.
A stable sort is a sort of tagged elements by the order and then by the tag (`List.zipIdxLE`),
whatever the tags are, as long as they ascend. -/

namespace Relatedness.Sorting

variable {α : Type}

theorem pairwise_mergeSort_of_mem {le : α → α → Bool} {l : List α}
    (trans : ∀ a ∈ l, ∀ b ∈ l, ∀ c ∈ l, le a b → le b c → le a c)
    (total : ∀ a ∈ l, ∀ b ∈ l, le a b || le b a) :
    (l.mergeSort le).Pairwise fun a b => le a b := by
  let below (a b : { a // a ∈ l }) : Bool := le a.1 b.1
  have hsorted : (l.attach.mergeSort below).Pairwise fun a b => below a b :=
    @List.pairwise_mergeSort _ below (fun a b c => trans a.1 a.2 b.1 b.2 c.1 c.2)
      (fun a b => total a.1 a.2 b.1 b.2) l.attach
  have hmap : (l.attach.mergeSort below).map Subtype.val = l.mergeSort le := by
    rw [List.map_mergeSort (s := le) fun _ _ _ _ => rfl, List.attach_map_subtype_val]
  rw [← hmap]
  exact List.pairwise_map.mpr hsorted

/-- Tags that ascend break ties as the positions do. -/
theorem map_fst_mergeSort {le : α → α → Bool} {l : List (α × Nat)}
    (h : (l.map Prod.snd).Pairwise (· < ·)) :
    (l.mergeSort (List.zipIdxLE le)).map Prod.fst = (l.map Prod.fst).mergeSort le := by
  let tag (i : Nat) : Nat := (l.map Prod.snd).getD i 0
  let retag (p : α × Nat) : α × Nat := (p.1, tag p.2)
  have hmono : ∀ i j, i < l.length → j < l.length → (tag i ≤ tag j ↔ i ≤ j) := by
    intro i j hi hj
    have hlt := List.pairwise_iff_getElem.mp h
    simp only [List.length_map] at hlt
    have htag : ∀ k (_ : k < (l.map Prod.snd).length), tag k = (l.map Prod.snd)[k] := by
      intro k hk
      exact (List.getElem_eq_getD 0).symm
    rw [htag i (by simpa using hi), htag j (by simpa using hj)]
    rcases Nat.lt_trichotomy i j with hij | rfl | hij
    · have := hlt i j hi hj hij
      omega
    · simp
    · have := hlt j i hj hi hij
      omega
  have hretag : (l.map Prod.fst).zipIdx.map retag = l := by
    apply List.ext_getElem
    · simp
    · intro i hi hj
      simp [retag, tag, hj]
  have hle : ∀ p ∈ (l.map Prod.fst).zipIdx, ∀ q ∈ (l.map Prod.fst).zipIdx,
      List.zipIdxLE le p q = List.zipIdxLE le (retag p) (retag q) := by
    intro p hp q hq
    have hi := List.snd_lt_of_mem_zipIdx hp
    have hj := List.snd_lt_of_mem_zipIdx hq
    simp only [List.length_map, Nat.add_zero] at hi hj
    simp [List.zipIdxLE, retag, hmono p.2 q.2 hi hj]
  calc (l.mergeSort (List.zipIdxLE le)).map Prod.fst
      = (((l.map Prod.fst).zipIdx.map retag).mergeSort (List.zipIdxLE le)).map Prod.fst := by
        rw [hretag]
    _ = (((l.map Prod.fst).zipIdx.mergeSort (List.zipIdxLE le)).map retag).map Prod.fst := by
        rw [List.map_mergeSort hle]
    _ = ((l.map Prod.fst).zipIdx.mergeSort (List.zipIdxLE le)).map Prod.fst := by
        rw [List.map_map]; rfl
    _ = (l.map Prod.fst).mergeSort le := List.mergeSort_zipIdx

theorem zipIdxLE_le {le : α → α → Bool} {p q : α × Nat} (h : List.zipIdxLE le p q) :
    le p.1 q.1 := by
  unfold List.zipIdxLE at h
  split at h
  · assumption
  · cases h

theorem zipIdxLE_total {le : α → α → Bool} {p q : α × Nat} (total : le p.1 q.1 || le q.1 p.1) :
    List.zipIdxLE le p q || List.zipIdxLE le q p := by
  unfold List.zipIdxLE
  have hlt := Nat.le_total p.2 q.2
  cases hpq : le p.1 q.1 <;> cases hqp : le q.1 p.1 <;> simp_all

theorem zipIdxLE_trans {le : α → α → Bool} {p q r : α × Nat}
    (pqr : le p.1 q.1 → le q.1 r.1 → le p.1 r.1) (qrp : le q.1 r.1 → le r.1 p.1 → le q.1 p.1)
    (rpq : le r.1 p.1 → le p.1 q.1 → le r.1 q.1) (hpq : List.zipIdxLE le p q)
    (hqr : List.zipIdxLE le q r) : List.zipIdxLE le p r := by
  have hle := pqr (zipIdxLE_le hpq) (zipIdxLE_le hqr)
  by_cases hrp : le r.1 p.1
  · -- a tie of the ends is a tie of all three, so the tags decide both steps
    have hqp := qrp (zipIdxLE_le hqr) hrp
    have hrq := rpq hrp (zipIdxLE_le hpq)
    simp only [List.zipIdxLE, zipIdxLE_le hpq, zipIdxLE_le hqr, hqp, hrq, hle, hrp, if_true,
      decide_eq_true_eq] at hpq hqr ⊢
    omega
  · simp [List.zipIdxLE, hle, hrp]

theorem zipIdxLE_antisymm {le : α → α → Bool} {p q : α × Nat} (hpq : List.zipIdxLE le p q)
    (hqp : List.zipIdxLE le q p) : p.2 = q.2 := by
  unfold List.zipIdxLE at hpq hqp
  by_cases h : le p.1 q.1
  · by_cases h' : le q.1 p.1
    · simp only [h, h', if_true, decide_eq_true_eq] at hpq hqp
      exact Nat.le_antisymm hpq hqp
    · simp [h'] at hqp
  · simp [h] at hpq

/-- With distinct tags a sorted list is known from its members. -/
theorem eq_of_perm_of_tags {le : α → α → Bool} {l m : List (α × Nat)}
    (htags : (l.map Prod.snd).Nodup) (hl : l.Pairwise fun p q => List.zipIdxLE le p q)
    (hm : m.Pairwise fun p q => List.zipIdxLE le p q) (hperm : l.Perm m) : l = m :=
  hperm.eq_of_pairwise (fun _ _ hp hq hpq hqp => List.inj_on_of_nodup_map htags hp
    (hperm.mem_iff.mpr hq) (zipIdxLE_antisymm hpq hqp)) hl hm

end Relatedness.Sorting
