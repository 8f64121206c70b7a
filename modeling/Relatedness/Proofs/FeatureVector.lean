import Mathlib.Data.List.Induction
import Relatedness.FeatureVector
import Relatedness.Proofs.Ascending

/-! Vectors that are filled entry by entry, in whatever order the entries come. Of each feature the
weight that came last counts, be it the zero that takes the feature out again, so a vector is known
from the weight that each feature got last. -/

namespace Relatedness.FeatureVector

variable {entries : List (FeatureId × Binary32)} {v u : FeatureVector} {id : FeatureId} {w : Binary32}

/-! ## Look-ups -/

theorem contains_eq_isSome (v : FeatureVector) (id : FeatureId) :
    v.contains id = v.weights[id]?.isSome :=
  Std.TreeMap.contains_eq_isSome_getElem?

theorem isZero_weight (v : FeatureVector) (id : FeatureId) :
    (v.weight id).isZero = !v.contains id := by
  rw [contains_eq_isSome, weight]
  cases h : v.weights[id]? with
  | none => rfl
  | some w => simpa using v.nonzero id w h

theorem mem_entries_iff : (id, w) ∈ v.entries ↔ v.weights[id]? = some w :=
  Std.TreeMap.mem_toList_iff_getElem?_eq_some

theorem pairwise_entries (v : FeatureVector) : v.entries.Pairwise fun a b => a.1 < b.1 :=
  v.weights.ordered_keys_toList.imp compareOfLessAndEq_eq_lt.mp

theorem lookup_entries (v : FeatureVector) (id : FeatureId) :
    v.entries.lookup id = v.weights[id]? := by
  ext w
  rw [Ascending.lookup_eq_some_iff v.pairwise_entries, mem_entries_iff]

/-- A vector is known from what it answers. -/
theorem entries_congr (h : ∀ id : FeatureId, v.weights[id]? = u.weights[id]?) : v.entries = u.entries := by
  refine Ascending.eq_of_mem_iff Prod.fst v.pairwise_entries u.pairwise_entries fun e => ?_
  obtain ⟨id, w⟩ := e
  rw [mem_entries_iff, mem_entries_iff, h]

/-! ## Filling -/

/-- The weight that a feature is given last. -/
def lastWeight? (entries : List (FeatureId × Binary32)) (id : FeatureId) : Option Binary32 :=
  entries.reverse.lookup id

/-- The weights as a map takes them in, zeros with the others. -/
def lastWins (entries : List (FeatureId × Binary32)) : Std.TreeMap FeatureId Binary32 :=
  entries.foldl (fun weights e => weights.insert e.1 e.2) ∅

theorem lastWeight?_append (e : FeatureId × Binary32) :
    lastWeight? (entries ++ [e]) id = if e.1 = id then some e.2 else lastWeight? entries id := by
  rw [lastWeight?, List.reverse_append, List.reverse_singleton, List.singleton_append,
    List.lookup_cons]
  by_cases h : e.1 = id
  · simp [h]
  · have hne : (id == e.1) = false := by simpa using fun heq => h heq.symm
    rw [hne, if_neg h, lastWeight?]

/-- Of the entries of a feature the last one tells its weight. -/
theorem lastWeight?_eq_getLast? (entries : List (FeatureId × Binary32)) (id : FeatureId) :
    lastWeight? entries id = ((entries.filter fun e => e.1 == id).getLast?).map Prod.snd := by
  induction entries using List.reverseRecOn with
  | nil => rfl
  | append_singleton earlier e ih =>
    rw [lastWeight?_append, List.filter_append, ih]
    by_cases h : e.1 = id <;> simp [h]

theorem lastWeight?_of_ne (h : entries.Pairwise fun a b => a.1 ≠ b.1) (id : FeatureId) :
    lastWeight? entries id = entries.lookup id := by
  ext w
  have hreverse : entries.reverse.Pairwise fun a b => a.1 ≠ b.1 :=
    List.pairwise_reverse.mpr (h.imp fun hne => hne.symm)
  rw [lastWeight?, Ascending.lookup_eq_some_iff_of_ne hreverse,
    Ascending.lookup_eq_some_iff_of_ne h, List.mem_reverse]

theorem getElem?_set (v : FeatureVector) (id : FeatureId) (w : Binary32) (c : FeatureId) :
    (v.set id w).weights[c]? =
      if id = c then if w.isZero then none else some w else v.weights[c]? := by
  unfold set
  split
  · simp [Std.TreeMap.getElem?_erase]
  · simp [Std.TreeMap.getElem?_insert]

/-- The induction is on the entries from the end, where the last of a feature stands. -/
theorem getElem?_ofEntries (entries : List (FeatureId × Binary32)) (id : FeatureId) :
    (ofEntries entries).weights[id]? = (lastWeight? entries id).filter (!·.isZero) := by
  induction entries using List.reverseRecOn with
  | nil =>
    change (∅ : Std.TreeMap FeatureId Binary32)[id]? = none
    simp
  | append_singleton earlier e ih =>
    have hlast : ofEntries (earlier ++ [e]) = (ofEntries earlier).set e.1 e.2 := by
      rw [ofEntries, List.foldl_append]
      rfl
    rw [hlast, getElem?_set, lastWeight?_append, ih]
    split
    · cases h : e.2.isZero <;> simp [Option.filter, h]
    · rfl

theorem getElem?_lastWins (entries : List (FeatureId × Binary32)) (id : FeatureId) :
    (lastWins entries)[id]? = lastWeight? entries id := by
  induction entries using List.reverseRecOn with
  | nil =>
    change (∅ : Std.TreeMap FeatureId Binary32)[id]? = none
    simp
  | append_singleton earlier e ih =>
    have hlast : lastWins (earlier ++ [e]) = (lastWins earlier).insert e.1 e.2 := by
      rw [lastWins, List.foldl_append]
      rfl
    rw [hlast, Std.TreeMap.getElem?_insert, lastWeight?_append, ih]
    simp

theorem getElem?_ofWeights (weights : Std.TreeMap FeatureId Binary32) (id : FeatureId) :
    (ofWeights weights).weights[id]? = weights[id]?.filter (!·.isZero) := by
  change (weights.filter fun _ w => !w.isZero)[id]? = _
  rw [Std.TreeMap.getElem?_filter]
  cases weights[id]? with
  | none => rfl
  | some w => cases hw : w.isZero <;> simp [Option.filter, Option.pfilter, hw]

/-- The vector of ascending entries has those of them that are not zero. -/
theorem entries_ofEntries_filter (h : entries.Pairwise fun a b => a.1 < b.1) :
    (ofEntries entries).entries = entries.filter fun e => !e.2.isZero := by
  refine Ascending.eq_of_mem_iff Prod.fst (pairwise_entries _) (h.filter _) fun e => ?_
  obtain ⟨id, w⟩ := e
  rw [mem_entries_iff, getElem?_ofEntries, lastWeight?_of_ne (Ascending.pairwise_ne h),
    Option.filter_eq_some_iff, Ascending.lookup_eq_some_iff h, List.mem_filter]

/-- Ascending entries without a zero are those of their vector. -/
theorem entries_ofEntries (h : entries.Pairwise fun a b => a.1 < b.1)
    (hnonzero : ∀ a ∈ entries, a.2.isZero = false) : (ofEntries entries).entries = entries := by
  rw [entries_ofEntries_filter h, List.filter_eq_self]
  exact fun a ha => by simp [hnonzero a ha]

end Relatedness.FeatureVector
