import Relatedness.Similarity.Engine
import Relatedness.Proofs.Ranking
import Relatedness.Proofs.Similarity.Scores

/-! What a search answers: the same hits by every strategy, and these are the beginning of all
rows with a score, ranked by score and then by id. -/

namespace Relatedness

variable {S : Type} [Scalar S]

/-- The order of an answer: descending scores, ties in ascending order of the ids. -/
def Hits.before (a b : Scored S) : Bool :=
  !Scalar.less a.score b.score && (Scalar.less b.score a.score || decide (a.id ≤ b.id))

namespace Attached

/-- The hit of a row that shares a column with the query and has a length above zero: the sum of
products over both lengths, with what lies outside `[-1, 1]` moved to its ends, if it is a number. -/
def hit? (query : FeatureVector) (r : Row) : Option (Scored S) :=
  let quotient : S := dot query r / (r.norm * query.norm)
  let value := if Scalar.less quotient (-1) then -1 else if Scalar.less 1 quotient then 1
    else quotient
  if common query r ≠ [] ∧ Scalar.less 0 (r.norm : S) ∧ !Scalar.isNaN value then
    some ⟨r.id, value⟩
  else none

/-- The score that a search gives a row is that of its hit. -/
theorem hit?_of_score (query : FeatureVector) (r : Row) :
    (hit? query r : Option (Scored S)) =
      if common query r ≠ [] ∧ Scalar.isPositive (r.norm : S) ∧
          !Scalar.isNaN (score (dot query r) r.norm query.norm : S) then
        some ⟨r.id, score (dot query r) r.norm query.norm⟩
      else none := rfl

/-- The best `k` of the rows that are candidates. -/
def ranking (query : FeatureVector) (k : Nat) (candidates : Candidates) (rows : List Row) : Hits S :=
  (((rows.filter (wanted candidates)).filterMap (hit? query)).mergeSort Hits.before).take k

/-- Where ids ascend, a stable sort by score leaves ties in the order of the ids. -/
theorem sortDescending_of_ascending {hits : Hits S}
    (h : hits.Pairwise fun a b => a.id < b.id) :
    hits.sortDescending = hits.mergeSort Hits.before := by
  let tagged : List (Scored S × Nat) := hits.map fun h => (h, h.id.toNat)
  have hfst : tagged.map Prod.fst = hits := by simp [tagged, Function.comp_def]
  have htags : (tagged.map Prod.snd).Pairwise (· < ·) := by
    simp only [tagged, List.map_map]
    exact List.pairwise_map.mpr (h.imp UInt32.lt_iff_toNat_lt.mp)
  have hle : ∀ p ∈ tagged, ∀ q ∈ tagged,
      List.zipIdxLE TopK.descends p q = Hits.before p.1 q.1 := by
    intro p hp q hq
    obtain ⟨a, _, rfl⟩ := List.mem_map.mp hp
    obtain ⟨b, _, rfl⟩ := List.mem_map.mp hq
    simp only [List.zipIdxLE, TopK.descends, Hits.before, UInt32.le_iff_toNat_le]
    by_cases hab : Scalar.less a.score b.score = true
    · simp [hab]
    · by_cases hba : Scalar.less b.score a.score = true <;> simp [hab, hba]
  calc hits.sortDescending
      = (tagged.map Prod.fst).mergeSort TopK.descends := by rw [hfst]; rfl
    _ = (tagged.mergeSort (List.zipIdxLE TopK.descends)).map Prod.fst :=
        (Sorting.map_fst_mergeSort htags).symm
    _ = hits.mergeSort Hits.before := by rw [List.map_mergeSort hle, hfst]

theorem accumulate_products (query : FeatureVector) (r : Row) :
    accumulate none (products query r) =
      if common query r = [] then none else some (dot query r : S) := by
  rw [accumulate_none]
  simp [products, dot]

theorem observations_scored {σ : Type} {a : Attached S σ} {rows : List Row}
    (hnorms : ∀ r ∈ rows, a.summary.norm? r.id = some r.norm) (query : FeatureVector) :
    TopK.observations (a.scored query query.norm rows) = rows.filterMap (hit? query) := by
  rw [TopK.observations, scored, List.filter_filterMap, List.map_filterMap]
  refine List.filterMap_congr fun r hr => ?_
  rw [accumulate_products, positiveNorm?, hit?_of_score, hnorms r hr]
  by_cases hcommon : common query r = []
  · cases hpos : Scalar.isPositive (r.norm : S) <;> simp [hcommon, hpos, Option.filter]
  · cases hpos : Scalar.isPositive (r.norm : S) with
    | false => simp [hpos, Option.filter]
    | true =>
      cases hnan : Scalar.isNaN (score (dot query r) r.norm query.norm : S) <;>
        simp [hcommon, hpos, hnan, Option.filter]

theorem id_of_hit? {query : FeatureVector} {r : Row} {h : Scored S} (hh : hit? query r = some h) :
    h.id = r.id := by
  obtain ⟨_, heq⟩ := Option.ite_none_right_eq_some.mp hh
  rw [← Option.some.inj heq]

theorem pairwise_hits (query : FeatureVector) {rows : List Row}
    (hrows : rows.Pairwise fun a b => a.id < b.id) :
    (rows.filterMap (hit? (S := S) query)).Pairwise fun a b => a.id < b.id := by
  refine List.pairwise_filterMap.mpr (hrows.imp ?_)
  intro r s hrs g hg h hh
  rwa [id_of_hit? hg, id_of_hit? hh]

/-- The stores hold these rows and their transpose, and the summary knows both. -/
structure Knows {σ : Type} [MatrixStore σ] (a : Attached S σ) (fs : FileSystem)
    (rows columns : List Row) : Prop where
  forward : MatrixStore.Holds a.forward fs rows
  transpose : MatrixStore.Holds a.transpose fs columns
  transposed : Matrix.Transposed rows columns
  norms : ∀ r ∈ rows, a.summary.norm? r.id = some r.norm
  features : ∀ c ∈ columns, a.summary.hasFeature c.id

end Attached

namespace Engine

variable {σ : Type} [MatrixStore σ] {e : Engine S σ} {a : Attached S σ} {fs : FileSystem}
  {rows columns : List Row}

/-- What every strategy answers with stores that hold rows and the transposed rows. -/
theorem mostSimilarWith_eq (hattached : e.attached = some a) (h : a.Knows fs rows columns)
    (strategy : SearchStrategy) (query : FeatureVector) (k : Nat) (candidates : Candidates) :
    e.mostSimilarWith fs strategy query k candidates =
      .ok (if Attached.isVoid (S := S) query k then [] else
        ((TopK.empty k).tallyAll (a.scored query query.norm
          (rows.filter (Attached.wanted candidates)))).inArrivalOrder.sortDescending) := by
  have hdirect := Attached.directScan_eq h.forward query (query.norm : S) candidates
  have hinverted := Attached.invertedIndex_eq h.forward.ascending h.transpose h.features h.transposed
    query (query.norm : S) candidates
  unfold mostSimilarWith stores
  rw [hattached]
  by_cases hvoid : Attached.isVoid (S := S) query k = true
  · simp [hvoid, bind, Except.bind, pure, Except.pure]
  · have hbest : ∀ s, a.best fs s query k candidates =
        .ok ((TopK.empty k).tallyAll (a.scored query query.norm
          (rows.filter (Attached.wanted candidates)))).inArrivalOrder.sortDescending := by
      intro s
      cases s <;> simp only [Attached.best, hdirect, hinverted] <;> rfl
    simp [hvoid, hbest, bind, Except.bind]

/-- Scores that are ranked by `less` are ranked by score and then by id. -/
theorem sortDescending_scored (ranked : Scalar.Ranked S) (h : a.Knows fs rows columns)
    (query : FeatureVector) (k : Nat) (candidates : Candidates) :
    ((TopK.empty k).tallyAll (a.scored query query.norm
      (rows.filter (Attached.wanted candidates)))).inArrivalOrder.sortDescending =
        Attached.ranking query k candidates rows := by
  rw [TopK.sortDescending_inArrivalOrder ranked,
    Attached.observations_scored fun r hr => h.norms r (List.mem_of_mem_filter hr),
    Attached.sortDescending_of_ascending]
  · rfl
  · exact Attached.pairwise_hits query (h.forward.ascending.filter _)

end Engine
end Relatedness
