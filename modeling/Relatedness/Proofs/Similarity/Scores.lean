import Relatedness.Similarity.Search
import Relatedness.Proofs.Cosine
import Relatedness.Proofs.FeatureVector

/-! The scores that a search finds. Whatever way it takes, a row that shares a column with the
query gets the products of the common columns, added in their order from zero: a direct scan
meets them going through the row, the inverted index going through the query. -/

namespace Relatedness

namespace Attached

variable {S : Type} [Scalar S]

/-- The entries of a row that stand in columns of the query. -/
def common (query : FeatureVector) (r : Row) : List (FeatureId × Binary32) :=
  r.entries.filter fun e => query.contains e.1

/-- The columns that a join of the query with the row would find. -/
theorem shared_entries (query : FeatureVector) (r : Row) :
    CosineSums.shared query.entries r.entries =
      (common query r).map fun e => (e.1, query.weight e.1, e.2) := by
  refine Ascending.eq_of_mem_iff Prod.fst (CosineSums.pairwise_shared query.pairwise_entries)
    (List.pairwise_map.mpr (r.ascending.filter _)) ?_
  rintro ⟨c, w, v⟩
  simp only [CosineSums.mem_shared_iff r.ascending, common, List.mem_map, List.mem_filter]
  constructor
  · rintro ⟨hquery, hrow⟩
    have hw := FeatureVector.mem_entries_iff.mp hquery
    exact ⟨(c, v), ⟨hrow, by simp [FeatureVector.contains_eq_isSome, hw]⟩,
      by simp [FeatureVector.weight, hw]⟩
  · rintro ⟨e, ⟨hrow, hquery⟩, heq⟩
    cases heq
    obtain ⟨w, hw⟩ := Option.isSome_iff_exists.mp (query.contains_eq_isSome e.1 ▸ hquery)
    rw [FeatureVector.weight, hw]
    exact ⟨FeatureVector.mem_entries_iff.mpr hw, hrow⟩

/-- The products of the common columns, in the order of the columns. -/
def products (query : FeatureVector) (r : Row) : List S :=
  (common query r).map fun e => Scalar.ofBinary32 (query.weight e.1) * Scalar.ofBinary32 e.2

/-- The sum of the products of the common columns. -/
def dot (query : FeatureVector) (r : Row) : S := (products query r).foldl (· + ·) 0

/-- Adds products to a sum that may not have begun yet. -/
def accumulate (sum? : Option S) (products : List S) : Option S :=
  products.foldl (fun sum? p => some (sum?.getD 0 + p)) sum?

theorem accumulate_some (sum : S) (products : List S) :
    accumulate (some sum) products = some (products.foldl (· + ·) sum) := by
  induction products generalizing sum with
  | nil => rfl
  | cons p rest ih => exact ih (sum + p)

theorem accumulate_none (products : List S) :
    accumulate none products = if products = [] then none else some (products.foldl (· + ·) 0) := by
  cases products with
  | nil => rfl
  | cons p rest => exact accumulate_some (0 + p) rest

/-! ## The direct scan -/

theorem sharedDot?_eq_accumulate (query : FeatureVector) (r : Row) :
    (sharedDot? query r : Option S) = accumulate none (products query r) := by
  have hfold : ∀ (entries : List (FeatureId × Binary32)) (sum? : Option S),
      entries.foldl (fun dot? e => if (query.weight e.1).isZero then dot? else
          some (dot?.getD 0 + Scalar.ofBinary32 (query.weight e.1) * Scalar.ofBinary32 e.2)) sum? =
        accumulate sum? ((entries.filter fun e => query.contains e.1).map fun e =>
          Scalar.ofBinary32 (query.weight e.1) * Scalar.ofBinary32 e.2) := by
    intro entries
    induction entries with
    | nil => intro sum?; rfl
    | cons e rest ih =>
      intro sum?
      rw [List.foldl_cons, ih, FeatureVector.isZero_weight]
      cases h : query.contains e.1 with
      | true => simp [h, accumulate]
      | false => simp [h]
  exact hfold r.entries none

variable {σ : Type} [MatrixStore σ]

/-- Whether a row is among the candidates. -/
def wanted (candidates : Candidates) (r : Row) : Bool := candidates.all (·.contains r.id)

/-- The scores of rows, in their order. -/
def scored (a : Attached S σ) (query : FeatureVector) (queryNorm : S) (rows : List Row) :
    List (RowId × S) :=
  rows.filterMap fun r => (a.positiveNorm? r.id).bind fun norm =>
    (accumulate none (products query r)).map fun sum => (r.id, score sum norm queryNorm)

theorem scan_eq {a : Attached S σ} {fs : FileSystem} {rows : List Row}
    (holds : MatrixStore.Holds a.forward fs rows) (query : FeatureVector) (queryNorm : S)
    (ids : List RowId) :
    a.scan fs query queryNorm ids =
      .ok (a.scored query queryNorm (ids.filterMap fun id => rows.find? fun r => r.id == id)) := by
  induction ids with
  | nil => rfl
  | cons id rest ih =>
    have hfound : ∀ r, rows.find? (fun r => r.id == id) = some r → r.id = id :=
      fun r hr => ((Ascending.find?_eq_some_iff holds.ascending).mp hr).2
    rw [scan, holds.get, ih, List.filterMap_cons]
    cases hrow : rows.find? fun r => r.id == id with
    | none =>
      cases hnorm : a.positiveNorm? id <;> rfl
    | some r =>
      obtain rfl := hfound r hrow
      simp only [scored, List.filterMap_cons]
      cases hnorm : a.positiveNorm? r.id with
      | none => rfl
      | some norm =>
        simp only [Option.bind_some, ← sharedDot?_eq_accumulate]
        cases hdot : (sharedDot? query r : Option S) <;>
          simp [hdot, bind, Except.bind, pure, Except.pure]

theorem filterMap_find? {rows : List Row} (hrows : rows.Pairwise fun a b => a.id < b.id)
    {ids : List RowId} (hids : ids.Pairwise (· < ·)) :
    ids.filterMap (fun id => rows.find? fun r => r.id == id) =
      rows.filter fun r => decide (r.id ∈ ids) := by
  apply Ascending.eq_of_mem_iff Row.id
  · refine List.pairwise_filterMap.mpr (hids.imp ?_)
    intro i j hij r hr s hs
    rw [((Ascending.find?_eq_some_iff hrows).mp hr).2, ((Ascending.find?_eq_some_iff hrows).mp hs).2]
    exact hij
  · exact hrows.filter _
  · intro r
    simp only [List.mem_filterMap, Ascending.find?_eq_some_iff hrows, List.mem_filter,
      decide_eq_true_eq]
    constructor
    · intro h
      obtain ⟨id, hid, hr, rfl⟩ := h
      exact ⟨hr, hid⟩
    · intro h
      obtain ⟨hr, hid⟩ := h
      exact ⟨r.id, hid, hr, rfl⟩

theorem directScan_eq {a : Attached S σ} {fs : FileSystem} {rows : List Row}
    (holds : MatrixStore.Holds a.forward fs rows) (query : FeatureVector) (queryNorm : S)
    (candidates : Candidates) :
    a.directScan fs query queryNorm candidates =
      .ok (a.scored query queryNorm (rows.filter (wanted candidates))) := by
  unfold directScan
  rw [scan_eq holds]
  congr 2
  cases candidates with
  | none =>
    rw [holds.rowIds, filterMap_find? holds.ascending (List.pairwise_map.mpr holds.ascending)]
    refine List.filter_congr fun r hr => ?_
    simpa [wanted] using ⟨r, hr, rfl⟩
  | some ids =>
    rw [filterMap_find? holds.ascending (ids.ordered_toList.imp compareOfLessAndEq_eq_lt.mp)]
    refine List.filter_congr fun r _ => ?_
    rw [wanted, Option.all_some, Bool.eq_iff_iff, decide_eq_true_eq, Std.TreeSet.mem_toList,
      Std.TreeSet.contains_iff_mem]

/-! ## The inverted index -/

/-- Products of the query with a row, as they are met going through the query. -/
def productsByFeature (columns : List Row) (id : RowId)
    (entries : List (FeatureId × Binary32)) : List S :=
  entries.filterMap fun e => (Matrix.cell columns e.1 id).map fun v =>
    Scalar.ofBinary32 e.2 * Scalar.ofBinary32 v

theorem getElem?_addPostings (candidates : Candidates) (weight : Binary32) (postings : Row)
    (dots : Std.TreeMap RowId S) (id : RowId) :
    (addPostings candidates weight postings dots)[id]? =
      if candidates.all (·.contains id) then
        accumulate dots[id]? ((postings.get? id).map fun v =>
          Scalar.ofBinary32 weight * Scalar.ofBinary32 v).toList
      else dots[id]? := by
  have hfold : ∀ (entries : List (FeatureId × Binary32)) (dots : Std.TreeMap RowId S),
      (entries.Pairwise fun a b => a.1 < b.1) →
      (entries.foldl (fun dots e => if candidates.all (·.contains e.1) then
          dots.alter e.1 fun dot? =>
            some (dot?.getD 0 + Scalar.ofBinary32 weight * Scalar.ofBinary32 e.2)
        else dots) dots)[id]? =
        if candidates.all (·.contains id) then
          accumulate dots[id]? ((entries.lookup id).map fun v =>
            Scalar.ofBinary32 weight * Scalar.ofBinary32 v).toList
        else dots[id]? := by
    intro entries
    induction entries with
    | nil => intro dots _; simp [accumulate]
    | cons e rest ih =>
      intro dots hasc
      obtain ⟨c, v⟩ := e
      rw [List.foldl_cons, ih _ hasc.tail]
      by_cases hc : id = c
      · subst hc
        have hrest : rest.lookup id = none := by
          rw [Option.eq_none_iff_forall_ne_some]
          intro v hv
          have hmem := (Ascending.lookup_eq_some_iff hasc.tail).mp hv
          exact UInt32.lt_irrefl id (List.rel_of_pairwise_cons hasc hmem)
        cases hw : candidates.all (·.contains id) with
        | false => rfl
        | true => simp [hrest, accumulate]
      · have hne : ¬ c = id := fun h => hc h.symm
        have hbeq : (id == c) = false := by simpa using hc
        rw [List.lookup_cons, hbeq]
        cases hw : candidates.all (·.contains c) <;>
          simp [Std.TreeMap.getElem?_alter, hne]
  exact hfold postings.entries dots postings.ascending

theorem gather_eq {a : Attached S σ} {fs : FileSystem} {columns : List Row}
    (holds : MatrixStore.Holds a.transpose fs columns)
    (hfeatures : ∀ c ∈ columns, a.summary.hasFeature c.id) (candidates : Candidates)
    (entries : List (FeatureId × Binary32)) (dots : Std.TreeMap RowId S) :
    ∃ sums, a.gather fs candidates dots entries = .ok sums ∧ ∀ id : RowId, sums[id]? =
      if candidates.all (·.contains id) then
        accumulate dots[id]? (productsByFeature columns id entries)
      else dots[id]? := by
  induction entries generalizing dots with
  | nil => exact ⟨dots, rfl, fun id => by simp [productsByFeature, accumulate]⟩
  | cons e rest ih =>
    obtain ⟨feature, weight⟩ := e
    have hget := holds.get feature
    cases hrow : columns.find? fun c => c.id == feature with
    | none =>
      have hcell : ∀ id, Matrix.cell columns feature id = none := by simp [Matrix.cell, hrow]
      obtain ⟨sums, hsums, hval⟩ := ih dots
      refine ⟨sums, ?_, fun id => by simp [hval id, productsByFeature, hcell]⟩
      rw [gather, hget, hrow]
      split <;> exact hsums
    | some postings =>
      obtain ⟨hmem, hid⟩ := (Ascending.find?_eq_some_iff holds.ascending).mp hrow
      have hhas : a.summary.hasFeature feature = true := hid ▸ hfeatures postings hmem
      have hcell : ∀ id, Matrix.cell columns feature id = postings.get? id := by
        simp [Matrix.cell, hrow]
      obtain ⟨sums, hsums, hval⟩ := ih (addPostings candidates weight postings dots)
      refine ⟨sums, ?_, fun id => ?_⟩
      · rw [gather, hget, hrow, if_pos hhas]
        exact hsums
      · rw [hval id, getElem?_addPostings]
        cases hw : candidates.all (·.contains id) with
        | false => simp
        | true =>
          cases hv : postings.get? id <;>
            simp [productsByFeature, hcell, hv, accumulate]

/-- Going through the query and going through the row, one meets the same products in the same
order. -/
theorem productsByFeature_eq {rows columns : List Row}
    (hrows : rows.Pairwise fun a b => a.id < b.id) (transposed : Matrix.Transposed rows columns)
    (query : FeatureVector) {r : Row} (hr : r ∈ rows) :
    (productsByFeature columns r.id query.entries : List S) = products query r := by
  have hcell : ∀ c, Matrix.cell columns c r.id = r.get? c := by
    intro c
    rw [← transposed, Matrix.cell, (Ascending.find?_eq_some_iff hrows).mpr ⟨hr, rfl⟩]
    rfl
  have hmet := congrArg (List.map fun t => (Scalar.ofBinary32 t.2.1 * Scalar.ofBinary32 t.2.2 : S))
    (shared_entries query r)
  simpa [CosineSums.shared, Row.get?, productsByFeature, products, hcell, List.map_filterMap,
    Function.comp_def] using hmet

theorem productsByFeature_absent {rows columns : List Row}
    (transposed : Matrix.Transposed rows columns) {id : RowId}
    (habsent : rows.find? (fun r => r.id == id) = none) (entries : List (FeatureId × Binary32)) :
    (productsByFeature columns id entries : List S) = [] := by
  have hcell : ∀ c, Matrix.cell columns c id = none := by
    intro c
    rw [← transposed, Matrix.cell, habsent]
    rfl
  simp [productsByFeature, hcell]

theorem invertedIndex_eq {a : Attached S σ} {fs : FileSystem} {rows columns : List Row}
    (hrows : rows.Pairwise fun a b => a.id < b.id)
    (holds : MatrixStore.Holds a.transpose fs columns)
    (hfeatures : ∀ c ∈ columns, a.summary.hasFeature c.id)
    (transposed : Matrix.Transposed rows columns) (query : FeatureVector) (queryNorm : S)
    (candidates : Candidates) :
    a.invertedIndex fs query queryNorm candidates =
      .ok (a.scored query queryNorm (rows.filter (wanted candidates))) := by
  obtain ⟨sums, hsums, hval⟩ := gather_eq holds hfeatures candidates query.entries ∅
  have hlist : sums.toList = (rows.filter (wanted candidates)).filterMap fun r =>
      (accumulate none (products query r)).map fun sum => (r.id, sum) := by
    apply Ascending.eq_of_mem_iff Prod.fst
    · exact sums.ordered_keys_toList.imp compareOfLessAndEq_eq_lt.mp
    · refine List.pairwise_filterMap.mpr ((hrows.filter _).imp ?_)
      intro r s hrs p hp q hq
      obtain ⟨_, _, rfl⟩ := Option.map_eq_some_iff.mp hp
      obtain ⟨_, _, rfl⟩ := Option.map_eq_some_iff.mp hq
      exact hrs
    · intro hboth
      obtain ⟨id, sum⟩ := hboth
      rw [Std.TreeMap.mem_toList_iff_getElem?_eq_some, hval id]
      simp only [Std.TreeMap.getElem?_emptyc, List.mem_filterMap, List.mem_filter,
        Option.map_eq_some_iff, Prod.mk.injEq]
      constructor
      · intro h
        split at h
        · rename_i hw
          cases hrow : rows.find? fun r => r.id == id with
          | none =>
            rw [productsByFeature_absent transposed hrow] at h
            cases h
          | some r =>
            obtain ⟨hr, rfl⟩ := (Ascending.find?_eq_some_iff hrows).mp hrow
            rw [productsByFeature_eq hrows transposed query hr] at h
            exact ⟨r, ⟨hr, hw⟩, sum, h, rfl, rfl⟩
        · cases h
      · intro hboth
        obtain ⟨r, ⟨hr, hw⟩, sum', h, rfl, rfl⟩ := hboth
        rw [productsByFeature_eq hrows transposed query hr, h]
        exact if_pos hw
  unfold invertedIndex
  rw [hsums]
  simp only [bind, Except.bind, pure, Except.pure, hlist, List.filterMap_filterMap, scored]
  congr 2
  funext r
  cases hsum : accumulate none (products query r : List S) <;>
    cases hnorm : a.positiveNorm? r.id <;> simp [hnorm]

end Attached
end Relatedness
