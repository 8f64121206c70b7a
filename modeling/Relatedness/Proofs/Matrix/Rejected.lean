import Relatedness.Proofs.Matrix.RoundTrip

/-! Rows that are added one by one, going on after errors. Of the rows given under one id the first
is accepted and all others are reported; but the draft holds the last of them, and that one is
saved. -/

namespace Relatedness.MatrixDraft

/-- The draft after rows were added, whatever the answers were. -/
def after (d : MatrixDraft) (rows : List Row) : MatrixDraft := rows.foldl (fun d r => (d.add r).2) d

/-- The rows that were taken in without a complaint. -/
def accepted (d : MatrixDraft) : List Row → List Row
  | [] => []
  | r :: rest => match (d.add r).1 with
    | .ok _ => r :: (d.add r).2.accepted rest
    | .error _ => (d.add r).2.accepted rest

/-- The last row that was given under an id. -/
def lastGiven (rows : List Row) (id : RowId) : Option Row := rows.reverse.find? fun r => r.id == id

theorem lastGiven_cons (r : Row) (rest : List Row) (id : RowId) :
    lastGiven (r :: rest) id = (lastGiven rest id).or (if r.id = id then some r else none) := by
  rw [lastGiven, List.reverse_cons, List.find?_append, List.find?_singleton, lastGiven]
  simp only [beq_iff_eq]

theorem id_of_lastGiven {rows : List Row} {id : RowId} {r : Row} (h : lastGiven rows id = some r) :
    r.id = id := by
  simpa using List.find?_some h

theorem mem_of_lastGiven {rows : List Row} {id : RowId} {r : Row} (h : lastGiven rows id = some r) :
    r ∈ rows :=
  List.mem_reverse.mp (List.mem_of_find?_eq_some h)

/-! ## One call -/

variable {d : MatrixDraft} {r : Row}

theorem add_of_present (h : d.rows.contains r.id = true) :
    (d.add r).1 = .error (.duplicateRow r.id d.path) := if_pos h

theorem add_of_absent (h : d.rows.contains r.id = false) : (d.add r).1 = .ok () :=
  if_neg (Bool.eq_false_iff.mp h)

theorem getElem?_add (id : RowId) :
    (d.add r).2.rows[id]? = if r.id = id then some r else d.rows[id]? := by
  change (d.rows.insert r.id r)[id]? = _
  simp [Std.TreeMap.getElem?_insert]

theorem contains_add (id : RowId) :
    (d.add r).2.rows.contains id = (r.id == id || d.rows.contains id) := by
  change (d.rows.insert r.id r).contains id = _
  rw [Std.TreeMap.contains_insert, Bool.eq_iff_iff]
  simp

/-- A row that is reported leaves the rows as they were only if it is the row that was there. -/
theorem toList_add_iff : (d.add r).2.rows.toList = d.rows.toList ↔ d.rows[r.id]? = some r := by
  have hsame : (d.add r).2.rows.toList = d.rows.toList ↔
      ∀ id : RowId, (d.add r).2.rows[id]? = d.rows[id]? := by
    constructor
    · intro h id
      ext s
      rw [← Std.TreeMap.mem_toList_iff_getElem?_eq_some, h,
        Std.TreeMap.mem_toList_iff_getElem?_eq_some]
    · intro h
      refine Ascending.eq_of_mem_iff Prod.fst
        ((d.add r).2.rows.ordered_keys_toList.imp compareOfLessAndEq_eq_lt.mp)
        (d.rows.ordered_keys_toList.imp compareOfLessAndEq_eq_lt.mp) fun e => ?_
      obtain ⟨id, s⟩ := e
      rw [Std.TreeMap.mem_toList_iff_getElem?_eq_some, h,
        Std.TreeMap.mem_toList_iff_getElem?_eq_some]
  rw [hsame]
  constructor
  · intro h
    rw [← h r.id, getElem?_add, if_pos rfl]
  · intro h id
    rw [getElem?_add]
    split
    · rename_i heq
      rw [← heq, h]
    · rfl

/-! ## All calls -/

@[simp] theorem path_after (rows : List Row) : (d.after rows).path = d.path := by
  induction rows generalizing d with
  | nil => rfl
  | cons r rest ih => exact ih (d := (d.add r).2)

/-- The draft holds of each id the row given last. -/
theorem getElem?_after (rows : List Row) (id : RowId) :
    (d.after rows).rows[id]? = (lastGiven rows id).or d.rows[id]? := by
  induction rows generalizing d with
  | nil => rfl
  | cons r rest ih =>
    have hstep : (d.after (r :: rest)).rows[id]? = ((d.add r).2.after rest).rows[id]? := rfl
    rw [hstep, ih, getElem?_add, lastGiven_cons, Option.or_assoc]
    split <;> rfl

/-- The first row given under an id is accepted and no other, if the draft had none. -/
theorem find?_accepted (rows : List Row) (id : RowId) :
    (d.accepted rows).find? (fun r => r.id == id) =
      if d.rows.contains id then none else rows.find? fun r => r.id == id := by
  induction rows generalizing d with
  | nil => simp [accepted]
  | cons r rest ih =>
    by_cases hid : r.id = id
    · subst hid
      cases hold : d.rows.contains r.id with
      | true => simp [accepted, add_of_present hold, ih, contains_add]
      | false => simp [accepted, add_of_absent hold]
    · have hne : (r.id == id) = false := by simpa using hid
      cases hold : d.rows.contains r.id with
      | true => simp only [accepted, add_of_present hold, ih, contains_add, List.find?_cons, hne,
          Bool.false_or]
      | false => simp only [accepted, add_of_absent hold, ih, contains_add, List.find?_cons, hne,
          Bool.false_or]

theorem length_values (d : MatrixDraft) : d.rows.values.length = d.size := by
  rw [Ascending.values_eq_map_toList, List.length_map, Std.TreeMap.length_toList, size]

/-! ## A new draft -/

variable {p : Path} {rows : List Row}

theorem find?_accepted_empty (id : RowId) :
    ((empty p).accepted rows).find? (fun r => r.id == id) = rows.find? fun r => r.id == id := by
  rw [find?_accepted, empty, if_neg (by simp)]

theorem getElem?_after_empty (id : RowId) :
    ((empty p).after rows).rows[id]? = lastGiven rows id := by
  rw [getElem?_after]
  simp [empty]

theorem isSome_lastGiven (id : RowId) :
    (lastGiven rows id).isSome = (rows.find? fun r => r.id == id).isSome := by
  rw [lastGiven, Bool.eq_iff_iff, List.find?_isSome, List.find?_isSome]
  simp

/-- An id is known to a draft once a row with it was accepted. -/
theorem contains_after_empty (id : RowId) :
    ((empty p).after rows).rows.contains id = true ↔
      id ∈ ((empty p).accepted rows).map Row.id := by
  rw [Std.TreeMap.contains_eq_isSome_getElem?, getElem?_after_empty, isSome_lastGiven,
    ← find?_accepted_empty (p := p), List.find?_isSome, List.mem_map]
  simp

theorem id_of_getElem?_after {id : RowId} {r : Row}
    (h : ((empty p).after rows).rows[id]? = some r) : r.id = id := by
  rw [getElem?_after_empty] at h
  exact id_of_lastGiven h

theorem mem_values_after {r : Row} (h : r ∈ ((empty p).after rows).rows.values) : r ∈ rows := by
  rw [Ascending.values_eq_map_toList, List.mem_map] at h
  obtain ⟨⟨id, r⟩, hmem, rfl⟩ := h
  rw [Std.TreeMap.mem_toList_iff_getElem?_eq_some, getElem?_after_empty] at hmem
  exact mem_of_lastGiven hmem

/-- The rows that are saved, looked up by their ids. -/
theorem find?_values_after (id : RowId) :
    ((empty p).after rows).rows.values.find? (fun r => r.id == id) = lastGiven rows id := by
  ext r
  rw [Ascending.find?_eq_some_iff (pairwise_values fun _ _ => id_of_getElem?_after),
    Ascending.values_eq_map_toList, List.mem_map, ← getElem?_after_empty (p := p)]
  constructor
  · intro hboth
    obtain ⟨⟨⟨key, r⟩, hmem, rfl⟩, rfl⟩ := hboth
    rw [Std.TreeMap.mem_toList_iff_getElem?_eq_some] at hmem
    rwa [id_of_getElem?_after hmem]
  · intro h
    exact ⟨⟨(id, r), Std.TreeMap.mem_toList_iff_getElem?_eq_some.mpr h, rfl⟩,
      id_of_getElem?_after h⟩

/-- A draft that was saved is opened as a file that shows of each id the row given last. -/
theorem opens_after {fs fs' : FileSystem} (hfs : fs.WellFormed)
    (hsave : Succeeds ((empty p).after rows).save fs () fs')
    (hcount : ((empty p).after rows).size < 2 ^ 32) (hwidths : ∀ r ∈ rows, r.width < 2 ^ 32)
    (hsize : (Matrix.encode ((empty p).after rows).rows.values).length < 2 ^ 64) :
    ∃ m, FileMatrix.openFile fs' p = .ok m ∧
      ∀ now : FileSystem, now.content m.file = fs'.content m.file →
        ∀ id, m.get now id = .ok (lastGiven rows id) := by
  obtain ⟨_, m, hopen, hwritten⟩ := opens_of_save hfs
    (pairwise_values fun _ _ => id_of_getElem?_after) hsize hsave
  rw [path_after] at hopen
  refine ⟨m, hopen, fun now hnow id => ?_⟩
  have hholds := FileMatrix.Written.holds { hwritten with content := hnow.trans hwritten.content }
    (hwritten.size ▸ hsize)
  rw [Matrix.stored_of_lt (length_values _ ▸ hcount)
    fun r hr => hwidths r (mem_values_after hr)] at hholds
  exact (hholds.get id).trans (congrArg Except.ok (find?_values_after id))

/-- The draft has taken a row in place of the one with its id. -/
structure Displaced (d d' : MatrixDraft) (r : Row) : Prop where
  path : d'.path = d.path
  size : d'.size = d.size
  others : ∀ id : RowId, id ≠ r.id → d'.rows[id]? = d.rows[id]?
  given : d'.rows[r.id]? = some r
  unchanged_iff : d'.rows.toList = d.rows.toList ↔ d.rows[r.id]? = some r

theorem displaced_of_present (h : d.rows.contains r.id = true) : Displaced d (d.add r).2 r where
  path := rfl
  size := by
    change (d.rows.insert r.id r).size = d.rows.size
    rw [Std.TreeMap.size_insert, if_pos h]
  others id hne := by rw [getElem?_add, if_neg fun heq => hne heq.symm]
  given := by rw [getElem?_add, if_pos rfl]
  unchanged_iff := toList_add_iff

/-- After any calls a row is reported just if one with its id was accepted before, which is the
first that was given under the id. A row that is reported is in the draft all the same, in place of
the one with its id. So a file that is saved shows for each id the row that was given last, and
these are the rows that were accepted only if they are the last ones too. -/
theorem reported_and_saved (path : Path) (rows : List Row) :
    (∀ r, (((empty path).after rows).add r).1 =
      if r.id ∈ ((empty path).accepted rows).map Row.id then .error (.duplicateRow r.id path)
      else .ok ()) ∧
    (∀ id, ((empty path).accepted rows).find? (fun r => r.id == id) =
      rows.find? fun r => r.id == id) ∧
    (∀ r e, (((empty path).after rows).add r).1 = .error e →
      Displaced ((empty path).after rows) (((empty path).after rows).add r).2 r) ∧
    ∀ fs fs', fs.WellFormed → Succeeds ((empty path).after rows).save fs () fs' →
      ((empty path).after rows).size < 2 ^ 32 → (∀ r ∈ rows, r.width < 2 ^ 32) →
      (Matrix.encode ((empty path).after rows).rows.values).length < 2 ^ 64 →
      ∃ m, FileMatrix.openFile fs' path = .ok m ∧
        ∀ now : FileSystem, now.content m.file = fs'.content m.file →
          (∀ id, m.get now id = .ok (lastGiven rows id)) ∧
          ((∀ id, m.get now id =
              .ok (((empty path).accepted rows).find? fun r => r.id == id)) ↔
            ∀ id, lastGiven rows id = rows.find? fun r => r.id == id) := by
  refine ⟨fun r => ?_, find?_accepted_empty, fun r e h => ?_, ?_⟩
  · cases hold : ((empty path).after rows).rows.contains r.id with
    | true =>
      rw [add_of_present hold, path_after, if_pos ((contains_after_empty r.id).mp hold)]
      rfl
    | false =>
      refine (add_of_absent hold).trans (if_neg fun h => ?_).symm
      exact Bool.noConfusion (hold.symm.trans ((contains_after_empty r.id).mpr h))
  · refine displaced_of_present (Bool.not_eq_false _ ▸ fun hold => ?_)
    rw [add_of_absent hold] at h
    cases h
  · intro fs fs' hfs hsave hcount hwidths hsize
    obtain ⟨m, hopen, hget⟩ := opens_after hfs hsave hcount hwidths hsize
    refine ⟨m, hopen, fun now hnow => ⟨hget now hnow, forall_congr' fun id => ?_⟩⟩
    rw [hget now hnow, find?_accepted_empty, Except.ok.injEq]

/-- A row, and another one with its id. -/
def firstRow : Row := .ofEntries 1 [(1, ⟨0x3f800000⟩)]

def secondRow : Row := .ofEntries 1 [(2, ⟨0x3f800000⟩)]

/-- One row is given twice, another one with its id is reported, and the draft is saved. -/
theorem reported_and_saved_again :
    ((empty ⟨false, ["m.spm"]⟩).after [firstRow, firstRow] |>.add secondRow).1 =
        .error (.duplicateRow 1 ⟨false, ["m.spm"]⟩) ∧
      Displaced ((empty ⟨false, ["m.spm"]⟩).after [firstRow, firstRow])
        ((empty ⟨false, ["m.spm"]⟩).after [firstRow, firstRow, secondRow]) secondRow ∧
      ∃ fs m, Succeeds ((empty ⟨false, ["m.spm"]⟩).after [firstRow, firstRow]).save
          (.empty 0) () fs ∧
        FileMatrix.openFile fs ⟨false, ["m.spm"]⟩ = .ok m ∧
        m.get fs 1 = .ok (some firstRow) ∧ m.get fs 2 = .ok none := by
  obtain ⟨hanswer, _, hdisplaced, hsaved⟩ :=
    reported_and_saved ⟨false, ["m.spm"]⟩ [firstRow, firstRow]
  have hreported := hanswer secondRow
  rw [if_pos (by decide +kernel)] at hreported
  obtain ⟨_, hsave⟩ := exists_succeeds
    (x := ((empty ⟨false, ["m.spm"]⟩).after [firstRow, firstRow]).save) (s := .empty 0)
    (by decide +kernel)
  obtain ⟨m, hopen, hshows⟩ := hsaved _ _ (.empty 0) hsave (by decide +kernel) (by decide +kernel)
    (by decide +kernel)
  obtain ⟨hget, _⟩ := hshows _ rfl
  exact ⟨hreported, hdisplaced secondRow _ hreported, _, m, hsave, hopen, hget 1, hget 2⟩

/-- A row that was reported stands in the file, and the row that was accepted under its id does
not. -/
theorem reported_row_is_saved :
    (empty ⟨false, ["m.spm"]⟩).accepted [firstRow, secondRow] = [firstRow] ∧
      ((empty ⟨false, ["m.spm"]⟩).after [firstRow, secondRow]).rows.toList ≠
        ((empty ⟨false, ["m.spm"]⟩).after [firstRow]).rows.toList ∧
      ∃ fs m, Succeeds ((empty ⟨false, ["m.spm"]⟩).after [firstRow, secondRow]).save
          (.empty 0) () fs ∧
        FileMatrix.openFile fs ⟨false, ["m.spm"]⟩ = .ok m ∧
        m.get fs 1 ≠ .ok (some firstRow) := by
  have hne : some secondRow ≠ some firstRow := fun h =>
    absurd (congrArg (Option.map Row.entries) h) (by decide +kernel)
  refine ⟨rfl, fun h => ?_, ?_⟩
  · have hsame := (toList_add_iff (d := (empty _).after [firstRow]) (r := secondRow)).mp h
    rw [getElem?_after_empty] at hsame
    exact hne hsame.symm
  · obtain ⟨_, hsave⟩ := exists_succeeds
      (x := ((empty ⟨false, ["m.spm"]⟩).after [firstRow, secondRow]).save) (s := .empty 0)
      (by decide +kernel)
    obtain ⟨m, hopen, hget⟩ := opens_after (.empty 0) hsave (by decide +kernel)
      (by decide +kernel) (by decide +kernel)
    refine ⟨_, m, hsave, hopen, fun h => hne ?_⟩
    exact Except.ok.inj ((hget _ rfl 1).symm.trans h)

end Relatedness.MatrixDraft
