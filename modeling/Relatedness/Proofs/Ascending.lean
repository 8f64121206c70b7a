import Mathlib.Algebra.Ring.Nat
import Mathlib.Data.List.Sort
import Relatedness.Matrix.Row

/-! Lists in which a key strictly ascends: the entries of a row by their columns, the rows of a
matrix by their ids. Such a list is known from its members, and a key from what it belongs to. -/

namespace Relatedness.Ascending

variable {α β : Type} {key : α → UInt32}

theorem eq_of_mem_iff (key : α → UInt32) {l m : List α} (hl : l.Pairwise fun a b => key a < key b)
    (hm : m.Pairwise fun a b => key a < key b) (h : ∀ a, a ∈ l ↔ a ∈ m) : l = m := by
  have : Std.Irrefl fun a b : α => key a < key b := ⟨fun a => UInt32.lt_irrefl (key a)⟩
  have : Std.Antisymm fun a b : α => key a < key b :=
    ⟨fun a b hab hba => absurd hab (UInt32.lt_asymm hba)⟩
  exact hl.eq_of_mem_iff hm h

theorem eq_of_key_eq {l : List α} (hl : l.Pairwise fun a b => key a < key b) {a b : α}
    (ha : a ∈ l) (hb : b ∈ l) (h : key a = key b) : a = b := by
  induction l with
  | nil => cases ha
  | cons c rest ih =>
    rcases List.mem_cons.mp ha with rfl | ha'
    · rcases List.mem_cons.mp hb with rfl | hb'
      · rfl
      · exact absurd (List.rel_of_pairwise_cons hl hb') (by rw [h]; exact UInt32.lt_irrefl _)
    · rcases List.mem_cons.mp hb with rfl | hb'
      · exact absurd (List.rel_of_pairwise_cons hl ha') (by rw [h]; exact UInt32.lt_irrefl _)
      · exact ih hl.tail ha' hb'

theorem nodup_keys {l : List α} (h : l.Pairwise fun a b => key a < key b) :
    (l.map key).Nodup := by
  refine List.pairwise_map.mpr (h.imp fun {a b} hlt (heq : key a = key b) => ?_)
  exact UInt32.lt_irrefl (key b) (heq ▸ hlt)

theorem length_le_of_nodup {keys : List UInt32} (h : keys.Nodup) : keys.length ≤ 2 ^ 32 := by
  have hnodup : (keys.map UInt32.toNat).Nodup := h.map fun _ _ => UInt32.toNat_inj.mp
  have hsub : keys.map UInt32.toNat ⊆ List.range (2 ^ 32) := by
    intro n hn
    obtain ⟨k, _, rfl⟩ := List.mem_map.mp hn
    exact List.mem_range.mpr k.toNat_lt
  simpa only [List.length_map, List.length_range] using
    (List.subperm_of_subset hnodup hsub).length_le

/-- There are no more keys than words. -/
theorem length_le {l : List α} (h : l.Pairwise fun a b => key a < key b) : l.length ≤ 2 ^ 32 := by
  simpa only [List.length_map] using length_le_of_nodup (nodup_keys h)

/-- There are fewer keys than words if one is missing. -/
theorem length_lt {l : List α} (h : l.Pairwise fun a b => key a < key b) {k : UInt32}
    (hk : k ∉ l.map key) : l.length < 2 ^ 32 := by
  have hle := length_le_of_nodup (List.nodup_cons.mpr ⟨hk, nodup_keys h⟩)
  rw [List.length_cons, List.length_map] at hle
  exact hle

theorem find?_eq_some_iff {l : List α} (hl : l.Pairwise fun a b => key a < key b) {k : UInt32}
    {a : α} : l.find? (fun b => key b == k) = some a ↔ a ∈ l ∧ key a = k := by
  constructor
  · intro h
    exact ⟨List.mem_of_find?_eq_some h, by simpa using List.find?_some h⟩
  · intro hboth
    obtain ⟨ha, rfl⟩ := hboth
    cases h : l.find? fun b => key b == key a with
    | none =>
      have := List.find?_eq_none.mp h a ha
      simp at this
    | some b =>
      have hk : key b = key a := by simpa using List.find?_some h
      rw [eq_of_key_eq hl (List.mem_of_find?_eq_some h) ha hk]

/-- Among entries with distinct keys a key leads to its entry. -/
theorem lookup_eq_some_iff_of_ne {l : List (UInt32 × β)} (hl : l.Pairwise fun a b => a.1 ≠ b.1)
    {k : UInt32} {v : β} : l.lookup k = some v ↔ (k, v) ∈ l := by
  induction l with
  | nil => simp
  | cons e rest ih =>
    obtain ⟨c, u⟩ := e
    rw [List.lookup_cons]
    by_cases h : k = c
    · subst h
      have hrest : (k, v) ∉ rest := fun hmem => List.rel_of_pairwise_cons hl hmem rfl
      simp [hrest, eq_comm]
    · have hne : (k == c) = false := by simpa using h
      rw [hne, ih hl.tail]
      simp [h]

theorem pairwise_ne {l : List α} (h : l.Pairwise fun a b => key a < key b) :
    l.Pairwise fun a b => key a ≠ key b := h.imp UInt32.ne_of_lt

theorem lookup_eq_some_iff {l : List (UInt32 × β)} (hl : l.Pairwise fun a b => a.1 < b.1)
    {k : UInt32} {v : β} : l.lookup k = some v ↔ (k, v) ∈ l :=
  lookup_eq_some_iff_of_ne (pairwise_ne hl)

/-- Looking a key up among values with their keys is finding what has the key. -/
theorem lookup_map (key : α → UInt32) (f : α → β) (l : List α) (k : UInt32) :
    (l.map fun a => (key a, f a)).lookup k = (l.find? fun a => key a == k).map f := by
  induction l with
  | nil => rfl
  | cons a rest ih =>
    rw [List.map_cons, List.lookup_cons, List.find?_cons]
    by_cases h : k = key a
    · simp [h]
    · have hne : (k == key a) = false := by simpa using h
      have hne' : (key a == k) = false := by simpa using fun heq => h heq.symm
      rw [hne, hne', ih]

/-- Inserting entries with distinct keys one by one gives the map of these entries. -/
theorem getElem?_foldl_insert_of_ne {l : List (UInt32 × β)}
    (hl : l.Pairwise fun a b => a.1 ≠ b.1) (m : Std.TreeMap UInt32 β) (k : UInt32) :
    (l.foldl (fun m e => m.insert e.1 e.2) m)[k]? = (l.lookup k).or m[k]? := by
  induction l generalizing m with
  | nil => rfl
  | cons e rest ih =>
    obtain ⟨c, u⟩ := e
    rw [List.foldl_cons, ih hl.tail, Std.TreeMap.getElem?_insert, List.lookup_cons]
    by_cases h : k = c
    · subst h
      have hnone : rest.lookup k = none := by
        cases hlook : rest.lookup k with
        | none => rfl
        | some v =>
          have hmem : (k, v) ∈ rest := (lookup_eq_some_iff_of_ne hl.tail).mp hlook
          exact (List.rel_of_pairwise_cons hl hmem rfl).elim
      simp [hnone]
    · have hne : (k == c) = false := by simpa using h
      have hcmp : compare c k ≠ .eq := by simpa using fun heq => h heq.symm
      simp [hne, hcmp]

theorem getElem?_foldl_insert {l : List (UInt32 × β)} (hl : l.Pairwise fun a b => a.1 < b.1)
    (m : Std.TreeMap UInt32 β) (k : UInt32) :
    (l.foldl (fun m e => m.insert e.1 e.2) m)[k]? = (l.lookup k).or m[k]? :=
  getElem?_foldl_insert_of_ne (pairwise_ne hl) m k

/-- The order in which entries are inserted leaves no trace in the list of the map. -/
theorem toList_foldl_insert_of_perm {l sorted : List (UInt32 × β)}
    (hsorted : sorted.Pairwise fun a b => a.1 < b.1) (hperm : l.Perm sorted) :
    (l.foldl (fun m e => m.insert e.1 e.2) (∅ : Std.TreeMap UInt32 β)).toList = sorted := by
  have hdistinct : l.Pairwise fun a b => a.1 ≠ b.1 :=
    hperm.symm.pairwise (pairwise_ne hsorted) fun hne => hne.symm
  have hkeys := (l.foldl (fun m e => m.insert e.1 e.2)
    (∅ : Std.TreeMap UInt32 β)).ordered_keys_toList
  refine eq_of_mem_iff Prod.fst (hkeys.imp compareOfLessAndEq_eq_lt.mp) hsorted ?_
  intro p
  obtain ⟨k, v⟩ := p
  rw [Std.TreeMap.mem_toList_iff_getElem?_eq_some, getElem?_foldl_insert_of_ne hdistinct,
    ← hperm.mem_iff]
  simp [lookup_eq_some_iff_of_ne hdistinct]

theorem toList_foldl_insert {l : List (UInt32 × β)} (hl : l.Pairwise fun a b => a.1 < b.1) :
    (l.foldl (fun m e => m.insert e.1 e.2) (∅ : Std.TreeMap UInt32 β)).toList = l :=
  toList_foldl_insert_of_perm hl (.refl l)

/-- The values of a map stand in the order of its keys. -/
theorem values_eq_map_toList (m : Std.TreeMap UInt32 β) : m.values = m.toList.map Prod.snd := by
  open Std.DTreeMap.Internal in
  have hvalues : m.inner.inner.values = m.inner.inner.toListModel.map Sigma.snd :=
    Impl.values_eq_map_snd
  open Std.DTreeMap.Internal in
  have hlist : Impl.Const.toList m.inner.inner =
      m.inner.inner.toListModel.map fun e => (e.1, e.2) := Impl.Const.toList_eq_toListModel_map
  change m.inner.inner.values = (Std.DTreeMap.Internal.Impl.Const.toList m.inner.inner).map Prod.snd
  rw [hvalues, hlist, List.map_map]
  rfl

end Relatedness.Ascending
