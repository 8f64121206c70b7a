import Mathlib.Data.List.Forall2
import Mathlib.Data.List.Induction
import Std.Data.HashMap.Lemmas

/-! A history of assignments to keys, the earliest first. Of each key the latest assignment
counts; those that count are the survivors, in the order in which they were made. A map that is
filled from a history has its survivors as entries. -/

namespace Relatedness.History

variable {κ α β : Type} [BEq κ]

/-- The value that was last assigned to a key. -/
def latest (h : List (κ × β)) (k : κ) : Option β := h.reverse.lookup k

/-- The assignments that no later one replaces. -/
def survivors : List (κ × β) → List (κ × β)
  | [] => []
  | e :: rest => if rest.any fun later => later.1 == e.1 then survivors rest else e :: survivors rest

@[simp] theorem latest_nil (k : κ) : latest ([] : List (κ × β)) k = none := rfl

theorem latest_append (h h' : List (κ × β)) (k : κ) :
    latest (h ++ h') k = (latest h' k).or (latest h k) := by
  rw [latest, List.reverse_append, List.lookup_append]
  rfl

theorem latest_singleton (k' : κ) (v : β) (k : κ) :
    latest [(k', v)] k = if k == k' then some v else none := by
  simp only [latest, List.reverse_singleton, List.lookup_cons, List.lookup_nil]
  cases k == k' <;> rfl

theorem latest_cons (e : κ × β) (rest : List (κ × β)) (k : κ) :
    latest (e :: rest) k = (latest rest k).or (if k == e.1 then some e.2 else none) := by
  rw [← List.singleton_append, latest_append, ← latest_singleton]

theorem sublist_survivors (h : List (κ × β)) : List.Sublist (survivors h) h := by
  induction h with
  | nil => exact .slnil
  | cons e rest ih =>
    rw [survivors]
    split
    · exact ih.cons e
    · exact ih.cons_cons e

/-- Two histories assign to the same keys, related values each time. -/
abbrev Matched (R : κ × α → κ × β → Prop) (l : List (κ × α)) (h : List (κ × β)) : Prop :=
  List.Forall₂ (fun a b => a.1 = b.1 ∧ R a b) l h

theorem any_eq_of_matched {R : κ × α → κ × β → Prop} {l : List (κ × α)} {h : List (κ × β)}
    (hm : Matched R l h) (k : κ) :
    (l.any fun e => e.1 == k) = h.any fun e => e.1 == k := by
  induction hm with
  | nil => rfl
  | cons hhead _ ih => rw [List.any_cons, List.any_cons, ih, hhead.1]

theorem Matched.survivors {R : κ × α → κ × β → Prop} {l : List (κ × α)} {h : List (κ × β)}
    (hm : Matched R l h) : Matched R (survivors l) (survivors h) := by
  induction hm with
  | nil => exact .nil
  | @cons a b l h hhead htail ih =>
    rw [History.survivors, History.survivors, any_eq_of_matched htail, hhead.1]
    split
    · exact ih
    · exact .cons hhead ih

/-- The map that a history fills. -/
def toMap [Hashable κ] (h : List (κ × β)) : Std.HashMap κ β := h.foldl (fun m e => m.insert e.1 e.2) ∅

theorem toMap_append_singleton [Hashable κ] (h : List (κ × β)) (k : κ) (v : β) :
    toMap (h ++ [(k, v)]) = (toMap h).insert k v := by
  rw [toMap, List.foldl_append]
  rfl

/-- Looking up comes before or after changing all values. -/
theorem latest_map (f : α → β) (h : List (κ × α)) (k : κ) :
    latest (h.map fun e => (e.1, f e.2)) k = (latest h k).map f := by
  induction h with
  | nil => rfl
  | cons e rest ih =>
    rw [List.map_cons, latest_cons, latest_cons, ih]
    cases latest rest k with
    | some v => rfl
    | none => cases k == e.1 <;> rfl

variable [LawfulBEq κ]

theorem isSome_latest_iff {h : List (κ × β)} {k : κ} :
    (latest h k).isSome = h.any fun e => e.1 == k := by
  induction h with
  | nil => rfl
  | cons e rest ih =>
    rw [latest_cons, Option.isSome_or, ih, List.any_cons, Bool.or_comm, BEq.comm]
    cases e.1 == k <;> rfl

theorem mem_survivors_iff {h : List (κ × β)} {k : κ} {v : β} :
    (k, v) ∈ survivors h ↔ latest h k = some v := by
  induction h with
  | nil => simp [survivors]
  | cons e rest ih =>
    obtain ⟨first, u⟩ := e
    rw [latest_cons, survivors]
    by_cases hlater : (rest.any fun later => later.1 == first) = true
    · rw [if_pos hlater, ih]
      by_cases hk : k = first
      · subst hk
        rw [← isSome_latest_iff] at hlater
        obtain ⟨w, hw⟩ := Option.isSome_iff_exists.mp hlater
        simp [hw]
      · simp [hk]
    · rw [if_neg hlater, List.mem_cons, ih]
      by_cases hk : k = first
      · subst hk
        rw [← isSome_latest_iff, Option.not_isSome_iff_eq_none] at hlater
        simp [hlater, eq_comm]
      · simp [hk]

theorem latest_eq_none_iff {h : List (κ × β)} {k : κ} :
    latest h k = none ↔ ∀ e ∈ h, e.1 ≠ k := by
  rw [← Option.not_isSome_iff_eq_none, isSome_latest_iff, List.any_eq_true]
  simp only [beq_iff_eq, not_exists, not_and, ne_eq]

theorem mem_of_latest {h : List (κ × β)} {k : κ} {v : β} (hv : latest h k = some v) :
    (k, v) ∈ h :=
  (sublist_survivors h).subset (mem_survivors_iff.mpr hv)

/-- A key to which nothing else is ever assigned. -/
theorem latest_eq_some {h : List (κ × β)} {k : κ} {v : β} (hmem : (k, v) ∈ h)
    (hall : ∀ e ∈ h, e.1 = k → e.2 = v) : latest h k = some v := by
  cases hlatest : latest h k with
  | none => exact absurd rfl (latest_eq_none_iff.mp hlatest _ hmem)
  | some u => exact congrArg some (hall _ (mem_of_latest hlatest) rfl)

theorem pairwise_survivors (h : List (κ × β)) : (survivors h).Pairwise fun a b => a.1 ≠ b.1 := by
  induction h with
  | nil => exact .nil
  | cons e rest ih =>
    rw [survivors]
    split
    · exact ih
    · rename_i hlast
      refine .cons (fun later hmem heq => hlast ?_) ih
      refine List.any_eq_true.mpr ⟨later, (sublist_survivors rest).subset hmem, ?_⟩
      simp [heq]

theorem nodup_survivors (h : List (κ × β)) : (survivors h).Nodup :=
  (pairwise_survivors h).imp fun hne heq => hne (by rw [heq])

/-! ## Histories with the same keys -/

variable {R : κ × α → κ × β → Prop} {l : List (κ × α)} {h : List (κ × β)}

theorem Matched.latest (hm : Matched R l h) (k : κ) :
    (latest l k = none ∧ latest h k = none) ∨
      ∃ a b, latest l k = some a.2 ∧ latest h k = some b.2 ∧ a ∈ l ∧ a.1 = k ∧ R a b := by
  induction hm with
  | nil => exact .inl ⟨rfl, rfl⟩
  | @cons a b l h hhead htail ih =>
    rw [latest_cons, latest_cons]
    rcases ih with ⟨hl, hh⟩ | ⟨c, d, hl, hh, hmem, hk, hR⟩
    · rw [hl, hh]
      by_cases hk : k = a.1
      · refine .inr ⟨a, b, ?_, ?_, List.mem_cons_self, hk.symm, hhead.2⟩
        · simp [hk]
        · simp [hk, hhead.1]
      · refine .inl ⟨by simp [hk], ?_⟩
        simp [← hhead.1, hk]
    · exact .inr ⟨c, d, by simp [hl], by simp [hh], List.mem_cons_of_mem _ hmem, hk, hR⟩

/-! ## Maps filled from a history -/

variable [Hashable κ] [LawfulHashable κ]

theorem getElem?_toMap (h : List (κ × β)) (k : κ) : (toMap h)[k]? = latest h k := by
  induction h using List.reverseRecOn with
  | nil => simp [toMap]
  | append_singleton h e ih =>
    obtain ⟨k', v⟩ := e
    rw [toMap_append_singleton, Std.HashMap.getElem?_insert, ih, latest_append, latest_singleton,
      BEq.comm]
    cases k == k' <;> rfl

theorem contains_toMap (h : List (κ × β)) (k : κ) : (toMap h).contains k = (latest h k).isSome := by
  rw [Std.HashMap.contains_eq_isSome_getElem?, getElem?_toMap]

theorem toList_toMap (h : List (κ × β)) : (toMap h).toList.Perm (survivors h) := by
  have hnodup : (toMap h).toList.Nodup := by
    refine (Std.HashMap.distinct_keys_toList).imp fun hne heq => ?_
    simp [heq] at hne
  refine (List.perm_ext_iff_of_nodup hnodup (nodup_survivors h)).mpr ?_
  intro p
  obtain ⟨k, v⟩ := p
  rw [Std.HashMap.mem_toList_iff_getElem?_eq_some, getElem?_toMap, mem_survivors_iff]

theorem size_toMap (h : List (κ × β)) : (toMap h).size = (survivors h).length := by
  rw [← Std.HashMap.length_toList, (toList_toMap h).length_eq]

theorem keys_toMap (h : List (κ × β)) : (toMap h).keys.Perm ((survivors h).map Prod.fst) := by
  rw [← Std.HashMap.map_fst_toList_eq_keys]
  exact (toList_toMap h).map _

theorem values_toMap (h : List (κ × β)) : (toMap h).values.Perm ((survivors h).map Prod.snd) := by
  have hvalues : (toMap h).values = (toMap h).toList.map Prod.snd := by
    open Std.DHashMap.Internal in
    have hmodel : (toMap h).inner.inner.values =
        Std.Internal.List.values (toListModel (toMap h).inner.inner.buckets) :=
      Raw.values_eq_values_toListModel
    open Std.DHashMap.Internal in
    have hlist : Std.DHashMap.Raw.Const.toList (toMap h).inner.inner =
        (toListModel (toMap h).inner.inner.buckets).map fun e => (e.1, e.2) :=
      Raw.Const.toList_eq_toListModel_map
    change (toMap h).inner.inner.values =
      (Std.DHashMap.Raw.Const.toList (toMap h).inner.inner).map Prod.snd
    rw [hmodel, hlist, Std.Internal.List.values_eq_map, List.map_map]
    rfl
  rw [hvalues]
  exact (toList_toMap h).map _

end Relatedness.History
