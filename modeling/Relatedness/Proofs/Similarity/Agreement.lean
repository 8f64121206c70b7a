import Relatedness.Proofs.Matrix.Pair
import Relatedness.Proofs.Similarity.Freshness
import Relatedness.Proofs.Similarity.Ranked

/-! All strategies of search agree on a built pair, and on what: the direct scan reads the
forward file, the inverted index the other one, and the two files hold the same cells. -/

namespace Relatedness

/-- Both files of the pair have the same content at two states of the disk. -/
def MatrixPair.SameFiles (pair : MatrixPair) (fs fs' : FileSystem) : Prop :=
  fs'.content pair.forward.file = fs.content pair.forward.file ∧
    fs'.content pair.transpose.file = fs.content pair.transpose.file

/-- The sizes of both files fit words of eight bytes. -/
def MatrixPair.Sized (pair : MatrixPair) : Prop :=
  pair.forward.size < 2 ^ 64 ∧ pair.transpose.size < 2 ^ 64

theorem FileMatrix.Written.of_content {m : FileMatrix} {fs fs' : FileSystem} {rows : List Row}
    (h : m.Written fs rows) (hsame : fs'.content m.file = fs.content m.file) : m.Written fs' rows :=
  { h with content := hsame.trans h.content }

/-- The stores of a pair, at every state of the disk at which its files are as they are now. -/
def MatrixPair.views (pair : MatrixPair) (fs : FileSystem) : Set (View FileMatrix) :=
  {v | v.forward = pair.forward ∧ v.transpose = pair.transpose ∧ pair.SameFiles fs v.disk}

/-- What the files of a built pair hold for as long as their contents are the same: the rows in the
order of their ids and their transpose, as much of both as files can tell. -/
theorem MatrixPair.holds_of_build {directory : Path} {rows : List Row} {s t : Session}
    {pair : MatrixPair} (hs : s.disk.WellFormed)
    (hbuild : Succeeds (MatrixPair.build directory rows) s pair t) (hsized : pair.Sized) :
    ∃ sorted : List Row, sorted.Perm rows ∧ (sorted.Pairwise fun a b => a.id < b.id) ∧
      ∀ fs, pair.SameFiles t.disk fs →
        MatrixStore.Holds pair.forward fs (Matrix.stored sorted) ∧
          MatrixStore.Holds pair.transpose fs (Matrix.stored (Matrix.transpose sorted)) := by
  obtain ⟨_, sorted, hperm, hforward, htranspose⟩ := MatrixPair.build_spec hs hbuild
  exact ⟨sorted, hperm, hforward.ascending, fun fs hsame =>
    ⟨(hforward.of_content hsame.1).holds hsized.1,
      (htranspose.of_content hsame.2).holds hsized.2⟩⟩

/-- The files of a built pair tell its contents. -/
theorem MatrixPair.faithful_views {directory : Path} {rows : List Row} {s t : Session}
    {pair : MatrixPair} (hs : s.disk.WellFormed)
    (hbuild : Succeeds (MatrixPair.build directory rows) s pair t) (hsized : pair.Sized) :
    View.Faithful (pair.views t.disk) := by
  obtain ⟨_, _, _, holds⟩ := MatrixPair.holds_of_build hs hbuild hsized
  have hcount : ∀ {m : FileMatrix} {fs held}, MatrixStore.Holds m fs held →
      MatrixStore.rowCount m < 2 ^ 64 := by
    intro m fs held h
    change (MatrixStore.rowIds m).length < 2 ^ 64
    have hle : (held.map Row.id).length ≤ 2 ^ 32 :=
      List.length_map Row.id ▸ Ascending.length_le h.ascending
    rw [h.rowIds]
    omega
  refine ⟨?_, ?_, ?_⟩
  · rintro ⟨_, _, fs⟩ ⟨rfl, rfl, hv⟩ ⟨_, _, fs'⟩ ⟨rfl, rfl, hw⟩ _
    exact ⟨(holds fs hv).1.rows.trans (holds fs' hw).1.rows.symm,
      (holds fs hv).2.rows.trans (holds fs' hw).2.rows.symm, rfl⟩
  · rintro ⟨_, _, fs⟩ ⟨rfl, rfl, hv⟩
    exact hcount (holds fs hv).1
  · rintro ⟨_, _, fs⟩ ⟨rfl, rfl, hv⟩
    exact hcount (holds fs hv).2

namespace Engine

variable {S : Type} [Scalar S]

/-- The pair is attached, with the summary of the pair at this state of the disk: the one that was
made then, or one that was loaded and is equal to it in every field. -/
def HasAttached (e : Engine S FileMatrix) (pair : MatrixPair) (fs : FileSystem) : Prop :=
  ∃ summary built, Summary.build pair.forward pair.transpose fs = .ok built ∧
    summary.Agrees built ∧ e.attached = some ⟨pair.forward, pair.transpose, summary⟩

/-- Attaching a pair attaches it with its summary, be that one saved earlier or a new one, if only
summaries of views that tell their contents can be loaded. -/
theorem hasAttached_of_attach {path directory : Path} {views : Set (View FileMatrix)}
    {m : Machine FileMatrix} {e : Engine Binary64 FileMatrix} {t : Session}
    (hviews : View.Faithful views) (hsound : Machine.Sound path views m.session.disk)
    (hmet : m.view ∈ views) (hpath : m.engine.cachePath directory = path)
    (h : Succeeds (m.engine.attach m.forward m.transpose directory) m.session e t) :
    e.HasAttached ⟨m.forward, m.transpose⟩ m.session.disk := by
  obtain ⟨summary, hcall, rfl⟩ := succeeds_attach.mp h
  rw [hpath] at hcall
  obtain ⟨built, hbuilt, hagrees⟩ := (hsound.fresh hviews hmet hcall).built
  exact ⟨summary, built, hbuilt, hagrees, rfl⟩

/-- What can be attached does not depend on the arithmetic of the scores. -/
theorem HasAttached.exists_other {e : Engine S FileMatrix} {pair : MatrixPair} {fs : FileSystem}
    (h : e.HasAttached pair fs) (T : Type) [Scalar T] :
    ∃ other : Engine T FileMatrix, other.config = e.config ∧ other.HasAttached pair fs := by
  obtain ⟨_, built, hbuilt, _⟩ := h
  obtain ⟨summary, hsummary⟩ := Summary.exists_build (T := T) hbuilt
  exact ⟨⟨e.config, some ⟨pair.forward, pair.transpose, summary⟩⟩, rfl, summary, summary, hsummary,
    .refl summary, rfl⟩

/-- What an engine knows that a built pair is attached to: of the rows, as many as were not lost, in
the order of their ids. -/
theorem knows_of_build {directory : Path} {rows : List Row} {s t : Session} {pair : MatrixPair}
    {e : Engine S FileMatrix} {attachedAt : FileSystem} (hs : s.disk.WellFormed)
    (hbuild : Succeeds (MatrixPair.build directory rows) s pair t) (hsized : pair.Sized)
    (hattached : e.HasAttached pair attachedAt) (hthen : pair.SameFiles t.disk attachedAt) :
    ∃ sorted summary, sorted.Perm rows ∧ (sorted.Pairwise fun a b => a.id < b.id) ∧
      e.attached = some ⟨pair.forward, pair.transpose, summary⟩ ∧
      ∀ fs, pair.SameFiles t.disk fs →
        Attached.Knows ⟨pair.forward, pair.transpose, summary⟩ fs (Matrix.stored sorted)
          (Matrix.stored (Matrix.transpose sorted)) := by
  obtain ⟨sorted, hperm, hasc, holds⟩ := MatrixPair.holds_of_build hs hbuild hsized
  obtain ⟨summary, built, hbuilt, hagrees, hstores⟩ := hattached
  obtain ⟨hfirst, hsecond⟩ := holds attachedAt hthen
  obtain ⟨hsum, hnorms, hfeatures⟩ := Summary.build_eq_ok hfirst hsecond hbuilt
  exact ⟨sorted, summary, hperm, hasc, hstores, fun fs hnow =>
    ⟨(holds fs hnow).1, (holds fs hnow).2, Matrix.transposed_stored hasc hsum,
      fun r hr => (hagrees.norm?_eq r.id).trans (hnorms r hr),
      fun c hc => (hagrees.hasFeature_eq c.id).trans (hfeatures c hc)⟩⟩

/-- What a search of a built pair finds. Every strategy finds the same hits; they are none if
nothing is asked for, and otherwise the first of all candidates that have a score, by descending
scores and ascending ids. The sizes of files are words of eight bytes; rows are only lost where
their number or the width of a row does not fit a word of four bytes. -/
theorem mostSimilar_of_build {directory : Path} {rows : List Row} {s t : Session}
    {pair : MatrixPair} {e : Engine S FileMatrix} {attachedAt fs : FileSystem}
    (hs : s.disk.WellFormed) (hbuild : Succeeds (MatrixPair.build directory rows) s pair t)
    (hsized : pair.Sized) (hattached : e.HasAttached pair attachedAt)
    (hthen : pair.SameFiles t.disk attachedAt) (hnow : pair.SameFiles t.disk fs)
    (query : FeatureVector) (k : Nat) (candidates : Candidates) :
    ∃ stored hits, MatrixStore.Holds pair.forward fs stored ∧
      (rows.length < 2 ^ 32 → (∀ r ∈ rows, r.width < 2 ^ 32) → stored.Perm rows) ∧
      (∀ strategy, e.mostSimilarWith fs strategy query k candidates = .ok hits) ∧
      e.mostSimilar fs query k candidates = .ok hits ∧
      (k = 0 ∨ query.isEmpty ∨ Scalar.isZero (query.norm : S) → hits = []) ∧
      (¬(k = 0 ∨ query.isEmpty ∨ Scalar.isZero (query.norm : S)) → Scalar.Ranked S →
        hits = Attached.ranking query k candidates stored) := by
  obtain ⟨sorted, summary, hperm, hasc, hstores, hknows⟩ :=
    knows_of_build hs hbuild hsized hattached hthen
  have hanswer := fun strategy =>
    mostSimilarWith_eq hstores (hknows fs hnow) strategy query k candidates
  have hvoid : Attached.isVoid (S := S) query k = true ↔
      k = 0 ∨ query.isEmpty ∨ Scalar.isZero (query.norm : S) := by
    simp [Attached.isVoid, or_assoc]
  refine ⟨Matrix.stored sorted, _, (hknows fs hnow).forward, fun hcount hwidths => ?_, hanswer,
    hanswer .auto, fun h => if_pos (hvoid.mpr h), fun h ranked => ?_⟩
  · rw [Matrix.stored_of_lt (hperm.length_eq ▸ hcount) fun r hr => hwidths r (hperm.mem_iff.mp hr)]
    exact hperm
  · rw [if_neg fun hv => h (hvoid.mp hv), sortDescending_scored ranked (hknows fs hnow)]

/-- Two rows without a common column. -/
def twoRows : List Row := [⟨2, [(9, ⟨0x40000000⟩)], by simp⟩, ⟨1, [(7, ⟨0x3f800000⟩)], by simp⟩]

/-- A disk with nothing on it. -/
def blank : Session := ⟨.empty 0, []⟩

/-- An engine with a name for its saved summary. -/
def filing : Engine Binary64 FileMatrix := .new { cacheFileName := "s" }

theorem cachePath_filing : filing.cachePath ⟨false, ["c"]⟩ = ⟨false, ["c", "s"]⟩ :=
  cachePath_letter

/-- Their pair can be built and attached. A second engine, that it is attached to afterwards, finds
the summary that the first one saved. -/
theorem exists_attached_twoRows :
    ∃ pair t, Succeeds (MatrixPair.build ⟨false, ["m"]⟩ twoRows) blank pair t ∧ pair.Sized ∧
      ∃ first u second v,
        Succeeds (filing.attach pair.forward pair.transpose ⟨false, ["c"]⟩) t first u ∧
        (Summary.load u.disk ⟨false, ["c", "s"]⟩).bind (fun saved =>
          saved.isCurrent pair.forward pair.transpose u.disk) = .ok true ∧
        Succeeds (filing.attach pair.forward pair.transpose ⟨false, ["c"]⟩) u second v ∧
        pair.SameFiles t.disk u.disk ∧ second.HasAttached pair u.disk := by
  have hcheck : succeedsWith (MatrixPair.build ⟨false, ["m"]⟩ twoRows) blank (fun pair t =>
      decide (pair.forward.size < 2 ^ 64) && decide (pair.transpose.size < 2 ^ 64) &&
      decide (t.disk.at? ["c", "s"] = none) &&
      succeedsWith (Summary.loadOrBuild ⟨false, ["c", "s"]⟩ pair.forward pair.transpose) t fun _ u =>
        decide (u.disk.content pair.forward.file = t.disk.content pair.forward.file) &&
        decide (u.disk.content pair.transpose.file = t.disk.content pair.transpose.file) &&
        decide ((Summary.load u.disk ⟨false, ["c", "s"]⟩).bind (fun saved =>
          saved.isCurrent pair.forward pair.transpose u.disk) = .ok true) &&
        (outcome (Summary.loadOrBuild ⟨false, ["c", "s"]⟩ pair.forward pair.transpose) u).1.isOk)
      = true := by decide +kernel
  obtain ⟨pair, t, hbuild, hcheck⟩ := exists_of_succeedsWith hcheck
  simp only [Bool.and_eq_true, decide_eq_true_eq] at hcheck
  obtain ⟨⟨hsized, hnone⟩, hcheck⟩ := hcheck
  obtain ⟨summary, u, hcall, hcheck⟩ := exists_of_succeedsWith hcheck
  simp only [Bool.and_eq_true, decide_eq_true_eq] at hcheck
  obtain ⟨⟨hsame, hcurrent⟩, hok⟩ := hcheck
  obtain ⟨again, hagain⟩ := exists_succeeds hok
  have hblank : blank.disk.WellFormed := .empty 0
  have hviews := MatrixPair.faithful_views hblank hbuild hsized
  have hunsaved : Machine.Unsaved ⟨false, ["c", "s"]⟩ t.disk := by
    rintro bytes saved ⟨_, id, hfile, _⟩
    exact absurd (hfile.symm.trans hnone) (by simp)
  -- nothing can be loaded at first, and then only what the first engine saved
  let start : Machine FileMatrix := ⟨t, pair.forward, pair.transpose, filing⟩
  have hstart : Machine.Sound ⟨false, ["c", "s"]⟩ (pair.views t.disk) start.session.disk :=
    hunsaved.sound (MatrixPair.build_spec hblank hbuild).1
  have hsound := hstart.call hviews (m := start) ⟨rfl, rfl, rfl, rfl⟩
  rw [Machine.call_of_succeeds (m := start) hcall] at hsound
  have hsecond : Succeeds (filing.attach pair.forward pair.transpose ⟨false, ["c"]⟩) u _ _ :=
    succeeds_attach.mpr ⟨again, by rwa [cachePath_filing], rfl⟩
  exact ⟨pair, t, hbuild, hsized, _, u, _, _,
    succeeds_attach.mpr ⟨summary, by rwa [cachePath_filing], rfl⟩, hcurrent, hsecond, hsame,
    hasAttached_of_attach (m := { start with session := u }) hviews hsound ⟨rfl, rfl, hsame⟩
      cachePath_filing hsecond⟩

theorem mostSimilar_of_build_twoRows :
    ∃ pair t, Succeeds (MatrixPair.build ⟨false, ["m"]⟩ twoRows) blank pair t ∧ pair.Sized ∧
      ∃ (first : Engine Binary64 FileMatrix) (u : Session) (e : Engine Binary64 FileMatrix)
        (v : Session),
        Succeeds (filing.attach pair.forward pair.transpose ⟨false, ["c"]⟩) t first u ∧
        Succeeds (filing.attach pair.forward pair.transpose ⟨false, ["c"]⟩) u e v ∧
        ∀ query k candidates, ∃ hits, ∀ strategy,
          e.mostSimilarWith u.disk strategy query k candidates = .ok hits := by
  obtain ⟨pair, t, h, hsized, first, u, e, v, hfirst, _, hsecond, hsame, hattached⟩ :=
    exists_attached_twoRows
  refine ⟨pair, t, h, hsized, first, u, e, v, hfirst, hsecond, fun query k candidates => ?_⟩
  obtain ⟨_, hits, _, _, hall, _⟩ := mostSimilar_of_build (FileSystem.WellFormed.empty 0) h hsized
    hattached hsame hsame query k candidates
  exact ⟨hits, hall⟩

end Engine
end Relatedness
