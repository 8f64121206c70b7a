import Relatedness.Proofs.Similarity.Agreement
import Relatedness.Proofs.Similarity.RealCosine

/-! Search and comparison in exact arithmetic. A search divides a sum of products by two lengths that
are known beforehand, a comparison by the root of the product of two squares. Both give the same
ratio, so a search for a row lists just the rows that are like it, with what a comparison says. -/

namespace Relatedness

namespace Matrix

/-- Of two stored lists that are transposed none has a zero: the transpose was made without. -/
theorem isZero_of_transposed {rows : List Row} (h : rows.Pairwise fun a b => a.id < b.id)
    (transposed : Transposed (stored rows) (stored (transpose rows))) {r : Row}
    (hr : r ∈ stored rows) {a : FeatureId × Binary32} (ha : a ∈ r.entries) :
    a.2.isZero = false := by
  have hcell := (cell_eq_some_iff (pairwise_stored h)).mpr ⟨r, hr, rfl, ha⟩
  rw [transposed] at hcell
  have hkept := cell_of_cell_stored (pairwise_transpose rows) hcell
  rw [cell_transpose_of_ascending h] at hkept
  simpa using (Option.filter_eq_some_iff.mp hkept).2

end Matrix

variable {up down : ℝ → ℝ}

open CosineSums

theorem real_length (entries : List (FeatureId × Binary32)) :
    (Scalar.length (entries.map Prod.snd) : RealScore up down).real = √(energy entries) := by
  have hsum : (Scalar.length (entries.map Prod.snd) : RealScore up down) =
      Scalar.sqrt (addSquares (-0) entries) := by
    rw [Scalar.length, List.foldl_map]
    rfl
  simp [hsum]

/-- An exact length does not depend on the order that the entries are held in. -/
theorem FeatureVector.real_norm (v : FeatureVector) :
    (v.norm : RealScore up down).real = √(energy v.entries) := by
  rw [norm, real_length, energy, energy, (v.held_perm.map _).sum_eq]
  rfl

theorem FeatureVector.cosine_self {v : FeatureVector} (h : v.isEmpty = false) :
    (v.cosine v : RealScore up down) = 1 := by
  have hentries : v.entries ≠ [] := by
    rw [ne_eq, ← List.isEmpty_iff, entries, Std.TreeMap.isEmpty_toList]
    simpa [isEmpty] using h
  have hnonzero : ∀ a ∈ v.entries, a.2.isZero = false := fun a ha =>
    v.nonzero a.1 a.2 (mem_entries_iff.mp ha)
  rw [FeatureVector.cosine, cosine_join v.pairwise_entries v.pairwise_entries,
    ratio_self v.pairwise_entries hentries hnonzero]
  rfl

namespace Attached

/-! ## Scores -/

theorem real_dot (query : FeatureVector) (r : Row) :
    (dot query r : RealScore up down).real = innerProduct query.entries r.entries := by
  have hdot : (dot query r : RealScore up down) =
      addProducts 0 (shared query.entries r.entries) := by
    rw [shared_entries, addProducts, List.foldl_map, dot, products, List.foldl_map]
  rw [hdot, real_addProducts, innerProduct, RealScore.real_zero, zero_add]

theorem real_quotient (query : FeatureVector) (r : Row) :
    (dot query r / (r.norm * query.norm) : RealScore up down).real =
      ratio query.entries r.entries := by
  have hrow : (r.norm : RealScore up down).real = √(energy r.entries) := real_length r.entries
  rw [RealScore.real_div, RealScore.real_mul, real_dot, hrow, query.real_norm, ratio,
    mul_comm √(energy _)]

theorem inUnit_quotient (query : FeatureVector) (r : Row) :
    (dot query r / (r.norm * query.norm) : RealScore up down).InUnit :=
  RealScore.inUnit_of_abs_le <| by
    rw [real_quotient]
    exact abs_ratio_le_one query.pairwise_entries r.ascending

theorem score_eq (query : FeatureVector) (r : Row) :
    (score (dot query r) r.norm query.norm : RealScore up down) =
      ⟨ratio query.entries r.entries⟩ := by
  rw [score, (inUnit_quotient query r).clampUnit]
  exact RealScore.ext (real_quotient query r)

theorem ratio_of_common_eq_nil {query : FeatureVector} {r : Row} (h : common query r = []) :
    ratio query.entries r.entries = 0 := by
  rw [ratio, innerProduct, shared_entries, h]
  simp

theorem isPositive_norm {query : FeatureVector} {r : Row}
    (hnonzero : ∀ a ∈ r.entries, a.2.isZero = false) (hcommon : common query r ≠ []) :
    Scalar.isPositive (r.norm : RealScore up down) = true := by
  have hentries : r.entries ≠ [] := by
    intro hnil
    rw [common, hnil] at hcommon
    exact hcommon rfl
  rw [RealScore.isPositive_iff]
  exact (Real.sqrt_pos.mpr (energy_pos hentries hnonzero)).trans_eq (real_length r.entries).symm

/-- A row is a hit if it shares a column with the query. -/
theorem hit?_eq {query : FeatureVector} {r : Row} (hnonzero : ∀ a ∈ r.entries, a.2.isZero = false) :
    (hit? query r : Option (Scored (RealScore up down))) =
      if common query r = [] then none
      else some ⟨r.id, ⟨ratio query.entries r.entries⟩⟩ := by
  rw [hit?_of_score, score_eq]
  by_cases hcommon : common query r = []
  · simp [hcommon]
  · have hpositive : Scalar.isPositive (r.norm : RealScore up down) = true :=
      isPositive_norm hnonzero hcommon
    simp [hcommon, hpositive]

/-- What a scan gives each row that shares a column with the query. -/
theorem scored_eq {σ : Type} {a : Attached (RealScore up down) σ} {rows : List Row}
    (hnorms : ∀ r ∈ rows, a.summary.norm? r.id = some r.norm)
    (hnonzero : ∀ r ∈ rows, ∀ e ∈ r.entries, e.2.isZero = false) (query : FeatureVector) :
    a.scored query query.norm rows = rows.filterMap fun r =>
      if common query r = [] then none else some (r.id, ⟨ratio query.entries r.entries⟩) := by
  refine List.filterMap_congr fun r hr => ?_
  rw [accumulate_products, positiveNorm?, hnorms r hr]
  by_cases hcommon : common query r = []
  · simp [hcommon]
  · have hpositive : Scalar.isPositive (r.norm : RealScore up down) = true :=
      isPositive_norm (hnonzero r hr) hcommon
    simp [hcommon, hpositive, score_eq, Option.filter]

theorem common_ne_nil_iff {query : FeatureVector} {r : Row} :
    common query r ≠ [] ↔ ∃ c ∈ r.columns, c ∈ query.entries.map Prod.fst := by
  simp only [common, ne_eq, List.filter_eq_nil_iff, not_forall, not_not, Row.columns, List.mem_map,
    FeatureVector.contains_eq_isSome, Option.isSome_iff_exists]
  constructor
  · rintro ⟨e, he, w, hw⟩
    exact ⟨e.1, ⟨e, he, rfl⟩, (e.1, w), Std.TreeMap.mem_toList_iff_getElem?_eq_some.mpr hw, rfl⟩
  · rintro ⟨_, ⟨e, he, rfl⟩, a, ha, hcolumn⟩
    exact ⟨e, he, a.2, hcolumn ▸ FeatureVector.mem_entries_iff.mp ha⟩

/-! ## Answers -/

section Answers

variable {σ : Type} [MatrixStore σ] {fs : FileSystem} {rows columns : List Row}
  {a : Attached (RealScore up down) σ}

/-- If no rows are cut off, the ranking lists every hit. -/
theorem perm_ranking {query : FeatureVector} {k : Nat} (hk : rows.length ≤ k) :
    (ranking query k none rows : Hits (RealScore up down)).Perm (rows.filterMap (hit? query)) := by
  have hall : rows.filter (wanted none) = rows := List.filter_eq_self.mpr fun _ _ => rfl
  have hlength : ((rows.filterMap (hit? query)).mergeSort
      (Hits.before (S := RealScore up down))).length ≤ k := by
    rw [List.length_mergeSort]
    exact (List.length_filterMap_le _ _).trans hk
  rw [ranking, hall, List.take_of_length_le hlength]
  exact List.mergeSort_perm _ _

/-- The sums that the inverted index gathers belong to rows, whose quotients are in the unit. -/
theorem Knows.inUnit_gather (h : a.Knows fs rows columns) (query : FeatureVector)
    (candidates : Candidates) :
    ∃ dots, a.gather fs candidates ∅ query.entries = .ok dots ∧ ∀ (id : RowId) dot norm,
      dots[id]? = some dot → a.positiveNorm? id = some norm → (dot / (norm * query.norm)).InUnit := by
  obtain ⟨dots, hdots, hvalue⟩ := gather_eq h.transpose h.features candidates query.entries ∅
  refine ⟨dots, hdots, fun id sum norm hsum hnorm => ?_⟩
  rw [hvalue id, Std.TreeMap.getElem?_emptyc] at hsum
  obtain ⟨_, hsum⟩ := Option.ite_none_right_eq_some.mp hsum
  cases hrow : rows.find? fun r => r.id == id with
  | none =>
    rw [productsByFeature_absent h.transposed hrow] at hsum
    cases hsum
  | some r =>
    obtain ⟨hr, rfl⟩ := (Ascending.find?_eq_some_iff h.forward.ascending).mp hrow
    rw [productsByFeature_eq h.forward.ascending h.transposed query hr, accumulate_products] at hsum
    obtain ⟨_, hsum⟩ := Option.ite_none_left_eq_some.mp hsum
    rw [positiveNorm?, h.norms r hr] at hnorm
    cases hsum
    cases (Option.filter_eq_some_iff.mp hnorm).1
    exact inUnit_quotient query r

/-- The sum that a direct scan makes of a row is that of its products. -/
theorem eq_dot_of_sharedDot? {query : FeatureVector} {r : Row} {sum : RealScore up down}
    (h : sharedDot? query r = some sum) : sum = dot query r := by
  rw [sharedDot?_eq_accumulate, accumulate_products] at h
  exact (Option.some.inj (Option.ite_none_left_eq_some.mp h).2).symm

end Answers

end Attached

namespace Engine

variable {σ : Type} [MatrixStore σ] {e : Engine (RealScore up down) σ} {fs : FileSystem}
  {rows columns : List Row} {stores : Attached (RealScore up down) σ}

/-- The hits are what the comparisons of a row with all rows of a store say. -/
structure ListsAlike (e : Engine (RealScore up down) σ) (fs : FileSystem) (forward : σ) (a : Row)
    (hits : Hits (RealScore up down)) : Prop where
  distinct : (hits.map Scored.id).Nodup
  listed : ∀ id, id ∈ hits.map Scored.id ↔ ∃ r, MatrixStore.get forward fs id = .ok (some r) ∧
    ∃ c ∈ r.columns, c ∈ a.columns
  scored : ∀ h ∈ hits, e.similarityById fs a.id h.id = .ok h.score
  others : ∀ id, id ∉ hits.map Scored.id → e.similarityById fs a.id id = .ok 0
  itself : ⟨a.id, 1⟩ ∈ hits
  bounded : ∀ h ∈ hits, h.score.real ≤ 1

theorem similarityById_eq (hattached : e.attached = some stores)
    (holds : MatrixStore.Holds stores.forward fs rows) (i j : RowId) :
    e.similarityById fs i j = .ok (match rows.find? (fun r => r.id == i),
        rows.find? fun r => r.id == j with
      | some a, some b => ⟨ratio a.entries b.entries⟩
      | _, _ => 0) := by
  simp only [similarityById, Engine.stores, hattached, holds.get, bind, Except.bind]
  cases rows.find? (fun r => r.id == i) <;> cases rows.find? (fun r => r.id == j) <;>
    simp [Row.cosine_real, pure, Except.pure]

theorem isVoid_eq_false {query : FeatureVector} {k : Nat} (hk : k ≠ 0)
    (hentries : query.entries ≠ []) :
    Attached.isVoid (S := RealScore up down) query k = false := by
  have hnonzero : ∀ a ∈ query.entries, a.2.isZero = false := fun a ha =>
    query.nonzero a.1 a.2 (FeatureVector.mem_entries_iff.mp ha)
  have hlength : (query.norm : RealScore up down).real ≠ 0 := by
    rw [query.real_norm]
    exact (Real.sqrt_pos.mpr (energy_pos hentries hnonzero)).ne'
  have hempty : query.isEmpty = false := by
    rw [← Bool.not_eq_true, FeatureVector.isEmpty, ← Std.TreeMap.isEmpty_toList, List.isEmpty_iff]
    exact hentries
  have hzero : Scalar.isZero (query.norm : RealScore up down) = false := by
    rw [← Bool.not_eq_true, RealScore.isZero_iff]
    exact hlength
  simp [Attached.isVoid, hk, hempty, hzero]

/-- A search for a row among all rows lists the rows that are like it. -/
theorem listsAlike (hattached : e.attached = some stores) (h : stores.Knows fs rows columns)
    (hnonzero : ∀ r ∈ rows, ∀ a ∈ r.entries, a.2.isZero = false) {a : Row} (ha : a ∈ rows)
    (hentries : a.entries ≠ []) {k : Nat} (hk : rows.length ≤ k) :
    ∃ hits, e.mostSimilar fs a.toVector k none = .ok hits ∧
      e.ListsAlike fs stores.forward a hits := by
  have hasc := h.forward.ascending
  have hquery : a.toVector.entries = a.entries :=
    FeatureVector.entries_ofEntries a.ascending (hnonzero a ha)
  have hvoid : Attached.isVoid (S := RealScore up down) a.toVector k = false :=
    isVoid_eq_false (by have := List.length_pos_of_mem ha; omega) (hquery ▸ hentries)
  have hanswer := mostSimilarWith_eq hattached h .auto a.toVector k none
  rw [if_neg (ne_true_of_eq_false hvoid), sortDescending_scored RealScore.ranked h] at hanswer
  -- the hits are the rows that share a column, each with the ratio
  have hmem : ∀ x, x ∈ (Attached.ranking a.toVector k none rows : Hits (RealScore up down)) ↔
      ∃ r ∈ rows, Attached.common a.toVector r ≠ [] ∧ ⟨r.id, ⟨ratio a.entries r.entries⟩⟩ = x := by
    intro x
    rw [(Attached.perm_ranking hk).mem_iff, List.mem_filterMap]
    refine exists_congr fun r => and_congr_right fun hr => ?_
    rw [Attached.hit?_eq (hnonzero r hr), hquery, Option.ite_none_left_eq_some, Option.some_inj]
  have hfind : ∀ {r}, r ∈ rows → (rows.find? fun s => s.id == r.id) = some r := fun hr =>
    (Ascending.find?_eq_some_iff hasc).mpr ⟨hr, rfl⟩
  have hsimilar : ∀ {r}, r ∈ rows →
      e.similarityById fs a.id r.id = .ok ⟨ratio a.entries r.entries⟩ := by
    intro r hr
    rw [similarityById_eq hattached h.forward, hfind ha, hfind hr]
  have hshares : ∀ r, Attached.common a.toVector r ≠ [] ↔ ∃ c ∈ r.columns, c ∈ a.columns := by
    intro r
    rw [Attached.common_ne_nil_iff, hquery]
    rfl
  refine ⟨_, hanswer, ?_, fun id => ?_, fun x hx => ?_, fun id hid => ?_, ?_, fun x hx => ?_⟩
  · refine ((Attached.perm_ranking hk).map Scored.id).nodup_iff.mpr (List.pairwise_map.mpr ?_)
    exact (Attached.pairwise_hits a.toVector hasc).imp UInt32.ne_of_lt
  · simp only [List.mem_map, h.forward.get, Except.ok.injEq, hmem, hshares]
    constructor
    · rintro ⟨_, ⟨r, hr, hcolumn, rfl⟩, rfl⟩
      exact ⟨r, hfind hr, hcolumn⟩
    · rintro ⟨r, hrow, hcolumn⟩
      obtain ⟨hr, rfl⟩ := (Ascending.find?_eq_some_iff hasc).mp hrow
      exact ⟨_, ⟨r, hr, hcolumn, rfl⟩, rfl⟩
  · obtain ⟨r, hr, _, rfl⟩ := (hmem x).mp hx
    exact hsimilar hr
  · cases hrow : rows.find? fun r => r.id == id with
    | none => rw [similarityById_eq hattached h.forward, hfind ha, hrow]
    | some r =>
      obtain ⟨hr, rfl⟩ := (Ascending.find?_eq_some_iff hasc).mp hrow
      have hcommon : Attached.common a.toVector r = [] := by
        by_contra hshared
        exact hid (List.mem_map.mpr ⟨_, (hmem _).mpr ⟨r, hr, hshared, rfl⟩, rfl⟩)
      rw [hsimilar hr, ← hquery, Attached.ratio_of_common_eq_nil hcommon]
      rfl
  · obtain ⟨first, hfirst⟩ := List.exists_mem_of_ne_nil _ hentries
    have hown := (hshares a).mpr ⟨first.1, List.mem_map_of_mem hfirst, List.mem_map_of_mem hfirst⟩
    refine (hmem _).mpr ⟨a, ha, hown, ?_⟩
    rw [ratio_self a.ascending hentries (hnonzero a ha)]
    rfl
  · obtain ⟨r, hr, _, rfl⟩ := (hmem x).mp hx
    exact (abs_le.mp (abs_ratio_le_one a.ascending r.ascending)).2

/-- In exact arithmetic search and comparison agree. A search of a built pair for one of its rows,
for as many hits as there are rows, lists the rows that share a column with it, each with what the
comparison of both says, and the comparison with any other says zero; the row itself comes with the
greatest score, one. What is clamped lies between -1 and 1 already, in the comparisons of rows and
of vectors as in both ways of searching, and a vector with a weight has similarity one to itself. -/
theorem search_agrees_exactly (up down : ℝ → ℝ) :
    (∀ {directory : Path} {rows : List Row} {s t : Session} {pair : MatrixPair}
      {e : Engine (RealScore up down) FileMatrix} {attachedAt fs : FileSystem}, s.disk.WellFormed →
      Succeeds (MatrixPair.build directory rows) s pair t → pair.Sized →
      e.HasAttached pair attachedAt → pair.SameFiles t.disk attachedAt →
      pair.SameFiles t.disk fs →
        (∀ (a : Row) (k : Nat), pair.forward.get fs a.id = .ok (some a) → a.isEmpty = false →
          MatrixStore.rowCount pair.forward ≤ k →
          ∃ hits, e.mostSimilar fs a.toVector k none = .ok hits ∧
            e.ListsAlike fs pair.forward a hits) ∧
        ∃ stores, e.attached = some stores ∧ ∀ (query : FeatureVector) (candidates : Candidates),
          ∃ dots, stores.gather fs candidates ∅ query.entries = .ok dots ∧
            ∀ (id : RowId) dot norm, dots[id]? = some dot → stores.positiveNorm? id = some norm →
              (dot / (norm * query.norm)).InUnit) ∧
    (∀ (query : FeatureVector) (r : Row) (dot : RealScore up down),
      Attached.sharedDot? query r = some dot → (dot / (r.norm * query.norm)).InUnit) ∧
    (∀ a b : Row, (CosineSums.join (S := RealScore up down) .zero a.entries b.entries).quotient.InUnit) ∧
    (∀ a b : FeatureVector,
      (CosineSums.join (S := RealScore up down) .zero a.entries b.entries).quotient.InUnit) ∧
    ∀ v : FeatureVector, v.isEmpty = false → (v.cosine v : RealScore up down) = 1 := by
  refine ⟨?_, fun query r dot hdot => ?_, fun a b => inUnit_quotient_join a.ascending b.ascending,
    fun a b => inUnit_quotient_join a.pairwise_entries b.pairwise_entries,
    fun v hv => v.cosine_self hv⟩
  · intro directory rows s t pair e attachedAt fs hs hbuild hsized hattached hthen hnow
    obtain ⟨sorted, summary, _, hasc, hstores, hknows⟩ :=
      knows_of_build hs hbuild hsized hattached hthen
    have h := hknows fs hnow
    have hnonzero : ∀ r ∈ Matrix.stored sorted, ∀ a ∈ r.entries, a.2.isZero = false :=
      fun r hr a ha => Matrix.isZero_of_transposed hasc h.transposed hr ha
    refine ⟨fun a k hget hempty hk => ?_, _, hstores, h.inUnit_gather⟩
    have hfound := (h.forward.get a.id).symm.trans hget
    rw [Except.ok.injEq, Ascending.find?_eq_some_iff h.forward.ascending] at hfound
    have hcount : (Matrix.stored sorted).length ≤ k := by
      change (MatrixStore.rowIds pair.forward).length ≤ k at hk
      rwa [h.forward.rowIds, List.length_map] at hk
    exact listsAlike hstores h hnonzero hfound.1 (by simpa [Row.isEmpty] using hempty) hcount
  · rw [Attached.eq_dot_of_sharedDot? hdot]
    exact Attached.inUnit_quotient query r

/-- Of the two rows without a common column, a search for the second lists that row alone, and its
comparison with the first says zero. The pair is one that was attached in rounded arithmetic. -/
theorem search_agrees_exactly_twoRows :
    ∃ (pair : MatrixPair) (t u v : Session) (binary : Engine Binary64 FileMatrix)
      (e : Engine (RealScore id id) FileMatrix) (a : Row),
      Succeeds (MatrixPair.build ⟨false, ["m"]⟩ twoRows) blank pair t ∧
      Succeeds (filing.attach pair.forward pair.transpose ⟨false, ["c"]⟩) u binary v ∧
      e.config = binary.config ∧ e.HasAttached pair u.disk ∧
      a.id = 2 ∧ ∃ hits, e.mostSimilar u.disk a.toVector 2 none = .ok hits ∧ ⟨2, 1⟩ ∈ hits ∧
        1 ∉ hits.map Scored.id ∧ e.similarityById u.disk 2 1 = .ok 0 := by
  obtain ⟨pair, t, hbuild, hsized, _, u, binary, v, _, _, hsecond, hsame, hbinary⟩ :=
    exists_attached_twoRows
  obtain ⟨e, hconfig, hattached⟩ := hbinary.exists_other (RealScore id id)
  have hblank : blank.disk.WellFormed := .empty 0
  obtain ⟨sorted, _, hperm, _, _, hknows⟩ := knows_of_build hblank hbuild hsized hattached hsame
  have holds := (hknows u.disk hsame).forward
  have hwidths : ∀ r ∈ sorted, r.width < 2 ^ 32 := fun r hr => by
    have hr := hperm.mem_iff.mp hr
    simp only [twoRows, List.mem_cons, List.not_mem_nil, or_false] at hr
    rcases hr with rfl | rfl <;> decide
  rw [Matrix.stored_of_lt (hperm.length_eq ▸ (by decide : twoRows.length < 2 ^ 32)) hwidths] at holds
  have hget : ∀ r ∈ twoRows, pair.forward.get u.disk r.id = .ok (some r) := fun r hr =>
    (holds.get r.id).trans (congrArg _ ((Ascending.find?_eq_some_iff holds.ascending).mpr
      ⟨hperm.mem_iff.mpr hr, rfl⟩))
  have hcount : MatrixStore.rowCount pair.forward ≤ 2 := by
    change (MatrixStore.rowIds pair.forward).length ≤ 2
    rw [holds.rowIds, List.length_map, hperm.length_eq]
    decide
  obtain ⟨hsearch, _⟩ := (search_agrees_exactly id id).1 hblank hbuild hsized hattached hsame hsame
  obtain ⟨hits, hhits, hlists⟩ := hsearch twoRows[0] 2 (hget _ (List.getElem_mem _)) rfl hcount
  have hone : 1 ∉ hits.map Scored.id := by
    rw [hlists.listed]
    rintro ⟨r, hr, c, hc, hc'⟩
    have hother : MatrixStore.get pair.forward u.disk 1 = .ok (some twoRows[1]) :=
      hget twoRows[1] (List.getElem_mem _)
    rw [Option.some.inj (Except.ok.inj (hr.symm.trans hother))] at hc
    exact absurd hc' (by rw [show c = 7 from List.mem_singleton.mp hc]; decide)
  exact ⟨pair, t, u, v, binary, e, twoRows[0], hbuild, hsecond, hconfig, hattached, rfl, hits, hhits,
    hlists.itself, hone, hlists.others 1 hone⟩

end Engine
end Relatedness
