import Relatedness.Matrix.Pair
import Relatedness.Proofs.Disk.Replacement
import Relatedness.Proofs.Matrix.Format
import Relatedness.Proofs.Matrix.Transposition

/-! What a built pair holds: the forward file has the given rows, the other one their transpose,
and both are read back as such. -/

namespace Relatedness

namespace Matrix

/-- What is read back has no cell that was not written. -/
theorem cell_of_cell_stored {rows : List Row} (h : rows.Pairwise fun a b => a.id < b.id)
    {id : RowId} {c : FeatureId} {v : Binary32} (hv : cell (stored rows) id c = some v) :
    cell rows id c = some v := by
  obtain ⟨r, hr, hid, hmem⟩ := (cell_eq_some_iff (pairwise_stored h)).mp hv
  unfold stored at hr
  split at hr
  · obtain ⟨r, horigin, rfl⟩ := List.mem_map.mp hr
    unfold clip at hmem
    split at hmem
    · exact (cell_eq_some_iff h).mpr ⟨r, horigin, by simpa using hid, hmem⟩
    · cases hmem
  · cases hr

/-- A row of all columns leaves as many rows in the transpose, too many to be counted in a file. -/
theorem stored_transpose_of_wide {rows : List Row} {r : Row} (hr : r ∈ rows)
    (hwide : 2 ^ 32 ≤ r.width) : stored (transpose rows) = [] := by
  refine if_neg (Nat.not_lt.mpr ?_)
  have hsub : r.columns ⊆ (transpose rows).map Row.id := by
    intro c hc
    obtain ⟨e, he, rfl⟩ := List.mem_map.mp hc
    exact mem_map_id_transpose_iff.mpr ⟨r, hr, e.2, he⟩
  have hle := (List.subperm_of_subset r.nodup_columns hsub).length_le
  rw [List.length_map] at hle
  exact hwide.trans ((List.length_map ..).symm.le.trans hle)

/-- Stored rows and the stored transpose are transposed as soon as they have equally many
entries, whatever did not fit into the files. -/
theorem transposed_stored {rows : List Row} (h : rows.Pairwise fun a b => a.id < b.id)
    (hsum : ((stored rows).map Row.width).sum = ((stored (transpose rows)).map Row.width).sum) :
    Transposed (stored rows) (stored (transpose rows)) := by
  have hrows := pairwise_stored h
  have hcolumns := pairwise_stored (pairwise_transpose rows)
  by_cases hcount : rows.length < 2 ^ 32
  · by_cases hwide : ∃ r ∈ rows, 2 ^ 32 ≤ r.width
    · obtain ⟨r, hr, hwide⟩ := hwide
      refine transposed_of_no_cells hrows hcolumns (.inr ?_) hsum
      rw [stored_transpose_of_wide hr hwide]
      rfl
    · have hwidths : ∀ r ∈ rows, r.width < 2 ^ 32 :=
        fun r hr => Nat.not_le.mp fun hle => hwide ⟨r, hr, hle⟩
      refine transposed_of_sum_width hrows hcolumns (fun c id v hv => ?_) hsum
      have hcell := cell_of_cell_stored (pairwise_transpose rows) hv
      rw [cell_transpose_of_ascending h] at hcell
      rw [stored_of_lt hcount hwidths]
      exact (Option.filter_eq_some_iff.mp hcell).1
  · refine transposed_of_no_cells hrows hcolumns (.inl ?_) hsum
    rw [stored, if_neg hcount]
    rfl

end Matrix

namespace MatrixDraft

/-- A draft that took rows in without a complaint has them all, and no two with one id. -/
theorem addAll_eq_ok {d d' : MatrixDraft} {rows : List Row} (h : d.addAll rows = .ok d') :
    d'.path = d.path ∧ (rows.Pairwise fun a b => a.id ≠ b.id) ∧
      (∀ r ∈ rows, d.rows[r.id]? = none) ∧
      ∀ k, d'.rows[k]? = (rows.find? fun r => r.id == k).or d.rows[k]? := by
  induction rows generalizing d with
  | nil =>
    cases h
    exact ⟨rfl, .nil, by simp, fun k => rfl⟩
  | cons r rest ih =>
    rw [addAll, add] at h
    by_cases hold : d.rows.contains r.id = true
    · simp [hold] at h
    · simp only [hold] at h
      obtain ⟨hpath, hdistinct, hfresh, hrows⟩ := ih h
      have hnone : d.rows[r.id]? = none := by
        rwa [Std.TreeMap.contains_eq_isSome_getElem?, Option.not_isSome_iff_eq_none] at hold
      have hne : ∀ s ∈ rest, r.id ≠ s.id := by
        intro s hs heq
        have := hfresh s hs
        simp [heq] at this
      refine ⟨hpath, .cons hne hdistinct, ?_, fun k => ?_⟩
      · intro s hs
        rcases List.mem_cons.mp hs with rfl | hs
        · exact hnone
        · have hins := hfresh s hs
          rw [Std.TreeMap.getElem?_insert, if_neg (by simpa using hne s hs)] at hins
          exact hins
      · rw [hrows, Std.TreeMap.getElem?_insert, List.find?_cons]
        by_cases hk : r.id = k
        · subst hk
          have hlast : (rest.find? fun s => s.id == r.id) = none :=
            List.find?_eq_none.mpr fun s hs => by simpa using fun heq => hne s hs heq.symm
          simp [hlast]
        · have hk' : (r.id == k) = false := by simpa using hk
          simp [hk', hk]

theorem find?_of_distinct {rows : List Row} (h : rows.Pairwise fun a b => a.id ≠ b.id) {r : Row}
    (hr : r ∈ rows) : (rows.find? fun s => s.id == r.id) = some r := by
  induction rows with
  | nil => cases hr
  | cons s rest ih =>
    rw [List.find?_cons]
    rcases List.mem_cons.mp hr with rfl | hr
    · simp
    · have hne : (s.id == r.id) = false := by simpa using List.rel_of_pairwise_cons h hr
      rw [hne]
      exact ih h.tail hr

/-- Rows under ids of their own are saved in the order of their ids. -/
theorem pairwise_values {d : MatrixDraft}
    (hkey : ∀ (k : RowId) (r : Row), d.rows[k]? = some r → r.id = k) :
    d.rows.values.Pairwise fun a b => a.id < b.id := by
  have hkey' : ∀ e ∈ d.rows.toList, e.2.id = e.1 :=
    fun e he => hkey e.1 e.2 (Std.TreeMap.mem_toList_iff_getElem?_eq_some.mp he)
  rw [Ascending.values_eq_map_toList]
  refine List.pairwise_map.mpr (d.rows.ordered_keys_toList.imp_of_mem ?_)
  intro a b ha hb hlt
  rw [hkey' a ha, hkey' b hb]
  exact compareOfLessAndEq_eq_lt.mp hlt

/-- The rows that such a draft saves: those given, in the order of their ids. -/
theorem values_of_addAll {path : Path} {d : MatrixDraft} {rows : List Row}
    (h : (empty path).addAll rows = .ok d) :
    d.path = path ∧ d.rows.values.Perm rows ∧ d.rows.values.Pairwise fun a b => a.id < b.id := by
  obtain ⟨hpath, hdistinct, _, hrows⟩ := addAll_eq_ok h
  have hget : ∀ k, d.rows[k]? = rows.find? fun r => r.id == k := by
    intro k
    rw [hrows]
    simp [empty]
  have hvalues := Ascending.values_eq_map_toList d.rows
  have hasc : d.rows.values.Pairwise fun a b => a.id < b.id := by
    refine pairwise_values fun k r hr => ?_
    rw [hget] at hr
    simpa using List.find?_some hr
  refine ⟨hpath, ?_, hasc⟩
  have hnodup : rows.Nodup := hdistinct.imp fun hne heq => hne (by rw [heq])
  have hnodup' : d.rows.values.Nodup := by
    refine List.Pairwise.imp (fun hlt heq => ?_) hasc
    rw [heq] at hlt
    exact UInt32.lt_irrefl _ hlt
  refine (List.perm_ext_iff_of_nodup hnodup' hnodup).mpr fun r => ?_
  rw [hvalues, List.mem_map]
  constructor
  · intro hboth
    obtain ⟨⟨k, r⟩, he, rfl⟩ := hboth
    rw [Std.TreeMap.mem_toList_iff_getElem?_eq_some, hget] at he
    exact List.mem_of_find?_eq_some he
  · intro hr
    refine ⟨(r.id, r), ?_, rfl⟩
    rw [Std.TreeMap.mem_toList_iff_getElem?_eq_some, hget]
    exact find?_of_distinct hdistinct hr

/-- Rows in ascending order are saved as they are. -/
theorem values_of_addAll_ascending {path : Path} {d : MatrixDraft} {rows : List Row}
    (h : (empty path).addAll rows = .ok d) (hasc : rows.Pairwise fun a b => a.id < b.id) :
    d.rows.values = rows := by
  obtain ⟨_, hperm, hvalues⟩ := values_of_addAll h
  exact Ascending.eq_of_mem_iff Row.id hvalues hasc fun r => hperm.mem_iff

/-- What a draft is called and what its file is called before it is complete. -/
structure Named (name temporary : String) : Prop where
  isName : Path.IsName name
  stem : String.ofList (Path.stem name.toList) ≠ "."
  renamed : String.ofList (Path.stem name.toList) ++ "." ++ "spm.tmp" = temporary
  isTemporary : Path.IsName temporary

/-- A saved draft is a file of its rows in the directory, and nothing stands under the temporary
name. Every other place and every file but one at that name are as they were. -/
theorem save_spec {fs fs' : FileSystem} (hfs : fs.WellFormed) {d : MatrixDraft} {directory : Path}
    {name temporary : String} {u : Unit} (hnamed : Named name temporary)
    (hpath : d.path = directory.child name) (h : Succeeds d.save fs u fs') :
    fs'.WellFormed ∧ fs.files.size ≤ fs'.files.size ∧
      (∃ id, fs'.at? (directory.place ++ [name]) = some (.file id) ∧
        fs'.content id = Matrix.encode d.rows.values) ∧
      (directory.place ++ [temporary] ≠ directory.place ++ [name] →
        fs'.at? (directory.place ++ [temporary]) = none) ∧
      (∀ a, a ≠ directory.place ++ [temporary] → a ≠ directory.place ++ [name] →
        fs'.at? a = fs.at? a) ∧
      ∀ other, other < fs.files.size →
        fs.at? (directory.place ++ [temporary]) ≠ some (.file other) →
        fs'.content other = fs.content other := by
  unfold save at h
  rw [hpath, Path.withExtension_child hnamed.isName hnamed.stem, hnamed.renamed] at h
  obtain ⟨hfs', hsize, hfile, hgone, hat, hcontent⟩ := Replacement.replaceFile_spec hfs h
  have hplace := Path.place_child hnamed.isName directory
  have hplace' := Path.place_child hnamed.isTemporary directory
  simp only [hplace, hplace'] at hfile hgone hat hcontent
  exact ⟨hfs', hsize, hfile, hgone, hat, hcontent⟩

end MatrixDraft

namespace MatrixPair

variable {s t : Session} {directory : Path} {rows : List Row}

theorem named_forward : MatrixDraft.Named forwardName "matrix.spm.tmp" := by
  constructor <;> decide

theorem named_transpose : MatrixDraft.Named transposeName "matrix.transpose.spm.tmp" := by
  constructor <;> decide

/-- What is known of rows that were written into a directory. -/
theorem write_spec (hs : s.disk.WellFormed) {u : Unit} (h : Succeeds (write directory rows) s u t) :
    t.disk.WellFormed ∧ ∃ sorted, sorted.Perm rows ∧ (sorted.Pairwise fun a b => a.id < b.id) ∧
      (∃ id, t.disk.at? (directory.place ++ [forwardName]) = some (.file id) ∧
        t.disk.content id = Matrix.encode sorted) ∧
      (∃ id, t.disk.at? (directory.place ++ [transposeName]) = some (.file id) ∧
        t.disk.content id = Matrix.encode (Matrix.transpose sorted)) ∧
      ∀ a, a ≠ directory.place ++ [forwardName] → a ≠ directory.place ++ [transposeName] →
        t.disk.at? a = s.disk.at? a ∨ t.disk.at? a = none := by
  simp only [write, succeeds_bind, Action.succeeds_ofExcept, Action.succeeds_onDisk] at h
  obtain ⟨forward, _, ⟨hforward, rfl⟩, _, _, ⟨fs₁, hsave₁, rfl⟩, backward, _, ⟨hbackward, rfl⟩, fs₂,
    hsave₂, rfl⟩ := h
  obtain ⟨hpath₁, hperm, hasc⟩ := MatrixDraft.values_of_addAll hforward
  obtain ⟨hpath₂, _, _⟩ := MatrixDraft.values_of_addAll hbackward
  have hvalues := MatrixDraft.values_of_addAll_ascending hbackward (Matrix.pairwise_transpose _)
  obtain ⟨hfs₁, hsize₁, ⟨id₁, hat₁, hcontent₁⟩, hgone₁, hkeep₁, _⟩ :=
    MatrixDraft.save_spec hs named_forward hpath₁ hsave₁
  obtain ⟨hfs₂, _, ⟨id₂, hat₂, hcontent₂⟩, hgone₂, hkeep₂, hfiles⟩ :=
    MatrixDraft.save_spec hfs₁ named_transpose hpath₂ hsave₂
  rw [hvalues] at hcontent₂
  refine ⟨hfs₂, forward.rows.values, hperm, hasc, ⟨id₁, ?_, ?_⟩, ⟨id₂, hat₂, hcontent₂⟩, ?_⟩
  · rw [hkeep₂ _ (by simp [forwardName]) (by simp [forwardName, transposeName]), hat₁]
  · rw [hfiles id₁ (hfs₁.allocated hat₁) fun hclash => ?_, hcontent₁]
    have := hfs₁.distinct hat₁ hclash
    simp [forwardName] at this
  · intro a hforward htranspose
    by_cases htemporary₂ : a = directory.place ++ ["matrix.transpose.spm.tmp"]
    · rw [htemporary₂]
      exact .inr (hgone₂ (by simp [transposeName]))
    rw [hkeep₂ a htemporary₂ htranspose]
    by_cases htemporary₁ : a = directory.place ++ ["matrix.spm.tmp"]
    · rw [htemporary₁]
      exact .inr (hgone₁ (by simp [forwardName]))
    · exact .inl (hkeep₁ a htemporary₁ hforward)

/-- An opened file of a pair is the one that stands under its name. -/
theorem openFile_child {fs : FileSystem} (hfs : fs.WellFormed) {name : String} {m : FileMatrix}
    (hname : Path.IsName name) (h : FileMatrix.openFile fs (directory.child name) = .ok m) {id : Nat}
    {sorted : List Row} (hasc : sorted.Pairwise fun a b => a.id < b.id)
    (hat : fs.at? (directory.place ++ [name]) = some (.file id))
    (hcontent : fs.content id = Matrix.encode sorted) : m.Written fs sorted := by
  obtain ⟨hopen, hindex, hsize⟩ := FileMatrix.openFile_eq_ok h
  have hfile := FileSystem.at?_of_openFile hfs hopen
  rw [Path.place_child hname, hat] at hfile
  simp only [Option.some.injEq, Tree.Kind.file.injEq] at hfile
  subst hfile
  rw [hcontent] at hindex hsize
  exact ⟨hasc, hcontent, hindex, hsize⟩

/-- A pair that was built holds the given rows, in the order of their ids, and their transpose. -/
theorem build_spec (hs : s.disk.WellFormed) {pair : MatrixPair}
    (h : Succeeds (build directory rows) s pair t) :
    t.disk.WellFormed ∧ ∃ sorted, sorted.Perm rows ∧ pair.forward.Written t.disk sorted ∧
      pair.transpose.Written t.disk (Matrix.transpose sorted) := by
  simp only [build, succeeds_bind, Action.succeeds_onDisk, succeeds_tryCatch, succeeds_throw,
    and_false, exists_false, or_false, Action.succeeds_log, Action.succeeds_disk,
    Action.succeeds_ofExcept] at h
  obtain ⟨staging, _, ⟨fs₁, hstaging, rfl⟩, _, s₂, hwrite, _, _, ⟨_, hreplace, rfl⟩, _, _, rfl,
    fs₃, _, ⟨rfl, rfl⟩, hopen, rfl⟩ := h
  obtain ⟨rfl, hfs₁, _⟩ := Replacement.freshStaging_spec hs hstaging
  obtain ⟨hfs₂, sorted, hperm, hasc, ⟨id₁, hat₁, hcontent₁⟩, ⟨id₂, hat₂, hcontent₂⟩, _⟩ :=
    write_spec hfs₁ hwrite
  obtain ⟨name, hname⟩ := Replacement.fileName?_of_replaceDirectory hreplace
  obtain ⟨hst, hsr, htr⟩ := Path.apart_siblings hname
  obtain ⟨hfs₃, hfiles, hmoved, _⟩ := Replacement.replaceDirectory_spec hfs₂ hst hsr htr hreplace
  have hcontent : ∀ id, fs₃.content id = s₂.disk.content id := by
    intro id
    rw [FileSystem.content, hfiles]
    rfl
  simp only [Session.disk_record] at hopen ⊢
  unfold openDirectory at hopen
  cases hforward : FileMatrix.openFile fs₃ (directory.child forwardName) with
  | error e =>
    rw [hforward] at hopen
    cases hopen
  | ok forward =>
    cases htranspose : FileMatrix.openFile fs₃ (directory.child transposeName) with
    | error e =>
      rw [hforward, htranspose] at hopen
      cases hopen
    | ok transpose =>
      rw [hforward, htranspose] at hopen
      cases hopen
      refine ⟨hfs₃, sorted, hperm, ?_, ?_⟩
      · exact openFile_child hfs₃ named_forward.isName hforward hasc (by rw [hmoved, hat₁])
          (by rw [hcontent, hcontent₁])
      · exact openFile_child hfs₃ named_transpose.isName htranspose (Matrix.pairwise_transpose sorted)
          (by rw [hmoved, hat₂]) (by rw [hcontent, hcontent₂])

end MatrixPair
end Relatedness
