import Mathlib.Data.List.Sort
import Relatedness.Proofs.Disk.Replacement
import Relatedness.Proofs.KeyValue.Log

/-! A store answers from its log. As long as the index leads to the entries of the log, every
answer is told by the history of the entries alone. A put appends one entry and is otherwise
refused without a trace; opening scans the log and finds the same history. -/

namespace Relatedness.KeyValueStore

open KeyValue

variable {V : Type} [Storable V]

/-! ## Answers -/

/-- What is not there is not found. -/
theorem get?_of_not_contains {s : KeyValueStore V} {key : String} (h : s.contains key = false)
    (fs : FileSystem) : s.get? fs key = .ok none := by
  unfold get?
  rw [Std.HashMap.getElem?_eq_none_of_contains_eq_false h]

/-- The index leads to these entries at the front of the log. -/
structure Shows (s : KeyValueStore V) (fs : FileSystem) (entries : List LogEntry) (tail : Bytes) :
    Prop where
  fits : ∀ e ∈ entries, e.Fits
  content : fs.content s.file = logBytes entries ++ tail
  length : s.length = (logBytes entries).length
  index : s.index = History.toMap (offsets 0 entries)

/-- The entries have these keys and decode to these values. -/
abbrev Tells (entries : List LogEntry) (history : List (String × V)) : Prop :=
  List.Forall₂ (fun e p => e.key = p.1 ∧ Storable.decoder.decode e.value = .ok p.2) entries history

/-- What the entries assign to their keys. -/
def assignments (entries : List LogEntry) : List (String × Bytes) :=
  entries.map fun e => (e.key, e.value)

/-- Every answer of the store is that of a history of puts. -/
structure Answers (s : KeyValueStore V) (fs : FileSystem) (history : List (String × V)) : Prop where
  get : ∀ key, s.get? fs key = .ok (History.latest history key)
  contains : ∀ key, s.contains key = (History.latest history key).isSome
  size : s.size = (History.survivors history).length
  keys : s.keys.Perm ((History.survivors history).map Prod.fst)
  distinct : ((History.survivors history).map Prod.fst).Nodup
  entries : s.entries fs = (History.survivors history).map .ok

omit [Storable V] in
/-- What a store shows is decided by the content of its file. -/
theorem Shows.of_content {s : KeyValueStore V} {fs fs' : FileSystem} {entries : List LogEntry}
    {tail tail' : Bytes} (h : s.Shows fs entries tail)
    (hcontent : fs'.content s.file = logBytes entries ++ tail') : s.Shows fs' entries tail' :=
  ⟨h.fits, hcontent, h.length, h.index⟩

/-- Every answer of the store is that of a history, of which `result` tells the values. -/
structure AnswersBy {γ : Type} (result : γ → Except Error V) (s : KeyValueStore V) (fs : FileSystem)
    (history : List (String × γ)) : Prop where
  get : ∀ key, s.get? fs key = match History.latest history key with
    | some value => (result value).map some
    | none => .ok none
  contains : ∀ key, s.contains key = (History.latest history key).isSome
  size : s.size = (History.survivors history).length
  keys : s.keys.Perm ((History.survivors history).map Prod.fst)
  distinct : ((History.survivors history).map Prod.fst).Nodup
  entries : s.entries fs =
    (History.survivors history).map fun p => (result p.2).map (p.1, ·)

theorem Shows.answersBy {γ : Type} {result : γ → Except Error V} {s : KeyValueStore V}
    {fs : FileSystem} {entries : List LogEntry} {tail : Bytes} {history : List (String × γ)}
    (h : s.Shows fs entries tail)
    (hvalues : List.Forall₂ (fun e p => e.key = p.1 ∧ decoded e.value = result p.2) entries
      history) : s.AnswersBy result fs history := by
  have hread : History.Matched
      (fun a p => readAt (fs.held s.file) a.2 = (result p.2).map (p.1, ·))
      (offsets 0 entries) history :=
    readAt_offsets h.fits hvalues [] tail ((fs.bytes_held s.file).trans h.content)
  have hsurvivors := History.Matched.survivors hread
  have hkeys : (History.survivors (offsets 0 entries)).map Prod.fst =
      (History.survivors history).map Prod.fst := by
    rw [← List.forall₂_eq_eq_eq, List.forall₂_map_left_iff, List.forall₂_map_right_iff]
    exact hsurvivors.imp fun _ _ hpair => hpair.1
  refine ⟨fun key => ?_, fun key => ?_, ?_, ?_,
    List.pairwise_map.mpr (History.pairwise_survivors history), ?_⟩
  · unfold get?
    rw [h.index, History.getElem?_toMap]
    rcases History.Matched.latest hread key with ⟨hnone, hnone'⟩ | ⟨a, p, ha, hp, _, _, hat⟩
    · rw [hnone, hnone']
    · simp only [ha, hp, hat]
      cases result p.2 <;> rfl
  · unfold contains
    rw [h.index, History.contains_toMap]
    rcases History.Matched.latest hread key with ⟨hnone, hnone'⟩ | ⟨a, p, ha, hp, _⟩
    · rw [hnone, hnone']
      rfl
    · rw [ha, hp]
      rfl
  · unfold size
    rw [h.index, History.size_toMap, ← List.length_map Prod.fst, hkeys, List.length_map]
  · unfold keys
    rw [h.index, ← hkeys]
    exact History.keys_toMap _
  · -- the values of the index are the offsets that survive, and these ascend
    have hasc : ((History.survivors (offsets 0 entries)).map Prod.snd).Pairwise (· < ·) := by
      refine List.pairwise_map.mpr ?_
      exact (pairwise_offsets 0 entries).sublist (History.sublist_survivors _)
    have hsorted : s.index.values.mergeSort (· ≤ ·) =
        (History.survivors (offsets 0 entries)).map Prod.snd := by
      have hperm := (List.mergeSort_perm s.index.values fun a b => decide (a ≤ b)).trans
        (h.index ▸ History.values_toMap (offsets 0 entries))
      have hle : (s.index.values.mergeSort (· ≤ ·)).Pairwise (· ≤ ·) := by
        have hle := @List.pairwise_mergeSort _ (fun a b : Nat => decide (a ≤ b))
          (fun a b c => by simpa using Nat.le_trans) (fun a b => by simpa using Nat.le_total a b)
          s.index.values
        exact hle.imp (by simp)
      exact hperm.eq_of_pairwise (fun a b _ _ => Nat.le_antisymm) hle (hasc.imp Nat.le_of_lt)
    unfold KeyValueStore.entries
    rw [hsorted, List.map_map, ← List.forall₂_eq_eq_eq, List.forall₂_map_left_iff,
      List.forall₂_map_right_iff]
    exact hsurvivors.imp fun _ _ hpair => hpair.2

theorem Shows.answers {s : KeyValueStore V} {fs : FileSystem} {entries : List LogEntry}
    {tail : Bytes} {history : List (String × V)} (h : s.Shows fs entries tail)
    (htells : Tells entries history) : s.Answers fs history := by
  have hvalues : List.Forall₂ (fun e p => e.key = p.1 ∧ decoded e.value = .ok p.2) entries
      history := htells.imp fun e p ⟨hkey, hvalue⟩ => ⟨hkey, by rw [decoded, hvalue]; rfl⟩
  have hall := h.answersBy hvalues
  refine ⟨fun key => ?_, hall.contains, hall.size, hall.keys, hall.distinct, hall.entries⟩
  rw [hall.get]
  cases History.latest history key <;> rfl

/-- Every answer of a store is told by what its entries assign. -/
theorem Shows.answersBy_assignments {s : KeyValueStore V} {fs : FileSystem}
    {entries : List LogEntry} {tail : Bytes} (h : s.Shows fs entries tail) :
    s.AnswersBy decoded fs (assignments entries) :=
  h.answersBy (List.forall₂_map_right_iff.mpr (List.forall₂_same.mpr fun _ _ => ⟨rfl, rfl⟩))

/-- What a store answers to a key depends on the last entry with this key alone. -/
theorem Shows.get?_eq {s : KeyValueStore V} {fs : FileSystem} {entries : List LogEntry}
    {tail : Bytes} (h : s.Shows fs entries tail) (key : String) :
    s.get? fs key = match History.latest (assignments entries) key with
      | some value => (decoded value).map some
      | none => .ok none := by
  rw [h.answersBy_assignments.get]
  cases History.latest (assignments entries) key <;> rfl

section Reading

variable {s : KeyValueStore V} {fs : FileSystem} {entries : List LogEntry} {tail : Bytes}
  {key : String}

theorem Shows.get?_eq_some_iff (h : s.Shows fs entries tail) {value : V} :
    s.get? fs key = .ok (some value) ↔ ∃ bytes,
      History.latest (assignments entries) key = some bytes ∧ decoded bytes = .ok value := by
  rw [h.get?_eq]
  cases History.latest (assignments entries) key with
  | none => simp
  | some bytes => cases hvalue : (decoded bytes : Except Error V) <;> simp [Except.map, hvalue]

/-- Stores that show the same entries answer the same. -/
theorem Shows.get?_congr (h : s.Shows fs entries tail) {other : KeyValueStore V}
    {fs' : FileSystem} {tail' : Bytes} (h' : other.Shows fs' entries tail') (key : String) :
    other.get? fs' key = s.get? fs key := by
  rw [h.get?_eq, h'.get?_eq]

theorem Shows.contains_congr (h : s.Shows fs entries tail) {other : KeyValueStore V}
    {fs' : FileSystem} {tail' : Bytes} (h' : other.Shows fs' entries tail') (key : String) :
    other.contains key = s.contains key := by
  rw [h.answersBy_assignments.contains, h'.answersBy_assignments.contains]

/-- Where every value can be read, the keys are those with a value. -/
theorem Shows.contains_iff (h : s.Shows fs entries tail)
    (hreads : ∀ key, ∃ found, s.get? fs key = .ok found) :
    s.contains key = true ↔ ∃ value, s.get? fs key = .ok (some value) := by
  obtain ⟨found, hfound⟩ := hreads key
  rw [h.answersBy_assignments.contains]
  cases hlatest : History.latest (assignments entries) key with
  | none => simp [h.get?_eq_some_iff, hlatest]
  | some bytes =>
    rw [h.get?_eq, hlatest] at hfound
    cases hvalue : (decoded bytes : Except Error V) with
    | error cause =>
      simp only [hvalue] at hfound
      cases hfound
    | ok value => simp [h.get?_eq_some_iff, hlatest, hvalue]

theorem exists_map_ok {α β ε : Type} {f : α → Except ε β} {l : List α}
    (h : ∀ a ∈ l, ∃ b, f a = .ok b) : ∃ bs : List β, l.map f = bs.map .ok := by
  induction l with
  | nil => exact ⟨[], rfl⟩
  | cons a rest ih =>
    obtain ⟨b, hb⟩ := h a List.mem_cons_self
    obtain ⟨bs, hbs⟩ := ih fun other hmem => h other (List.mem_cons_of_mem _ hmem)
    exact ⟨b :: bs, by rw [List.map_cons, List.map_cons, hb, hbs]⟩

/-- Where every value can be read, the entries are the keys with their values. -/
theorem Shows.exists_entries (h : s.Shows fs entries tail)
    (hreads : ∀ key, ∃ found, s.get? fs key = .ok found) :
    ∃ listed : List (String × V), s.entries fs = listed.map .ok ∧
      ∀ key value, (key, value) ∈ listed ↔ s.get? fs key = .ok (some value) := by
  have hentries := h.answersBy_assignments.entries
  obtain ⟨listed, hlisted⟩ := exists_map_ok (l := History.survivors (assignments entries))
    (f := fun p => (decoded p.2 : Except Error V).map (p.1, ·)) fun p hp => by
      obtain ⟨found, hfound⟩ := hreads p.1
      rw [h.get?_eq, History.mem_survivors_iff.mp hp] at hfound
      cases hvalue : (decoded p.2 : Except Error V) with
      | error cause =>
        simp only [hvalue] at hfound
        cases hfound
      | ok value => exact ⟨(p.1, value), rfl⟩
  refine ⟨listed, hentries.trans hlisted, fun key value => ?_⟩
  have hmem : (key, value) ∈ listed ↔
      ∃ p ∈ History.survivors (assignments entries), (decoded p.2).map (p.1, ·) =
        (.ok (key, value) : Except Error (String × V)) := by
    rw [← List.mem_map, hlisted]
    simp
  rw [hmem, h.get?_eq_some_iff]
  constructor
  · rintro ⟨⟨key', bytes⟩, hp, heq⟩
    cases hvalue : (decoded bytes : Except Error V) with
    | error cause =>
      simp only [hvalue] at heq
      cases heq
    | ok found =>
      simp only [hvalue] at heq
      cases heq
      exact ⟨bytes, History.mem_survivors_iff.mp hp, hvalue⟩
  · rintro ⟨bytes, hlatest, hvalue⟩
    exact ⟨(key, bytes), History.mem_survivors_iff.mpr hlatest, by rw [hvalue]; rfl⟩

end Reading

/-! ## Putting -/

/-- The store behind a put. -/
def appended (s : KeyValueStore V) (key : String) (value : V) : KeyValueStore V :=
  { s with
    index := s.index.insert key s.length
    length := s.length + (Lengths.ofEntry key (Storable.size value)).total }

/-- The disk behind a put: one entry is written where the log is known to end. -/
def appendedDisk (s : KeyValueStore V) (key : String) (value : V) (fs : FileSystem) : FileSystem :=
  fs.setContent s.file ((fs.content s.file).overwrite s.length
    (encodeEntry (fs.clock / 1000) key (Storable.encode value)))

/-- A put is refused without a trace, or it writes one entry. -/
theorem outcome_put (s : KeyValueStore V) (key : String) (value : V) (t : Session) :
    outcome (s.put key value) t =
      if s.options.readOnly then (.error (.readOnly s.directory), t)
      else if key.isEmpty then (.error .emptyKey, t)
      else if maxKeyLength < key.utf8ByteSize then (.error (.keyTooLong key.utf8ByteSize), t)
      else (.ok (s.appended key value), { t with disk := s.appendedDisk key value t.disk }) := by
  unfold put
  by_cases hreadOnly : s.options.readOnly = true
  · simp only [hreadOnly, if_true]
    rfl
  by_cases hempty : key.isEmpty = true
  · simp only [hreadOnly, hempty, if_true]
    rfl
  by_cases hlong : maxKeyLength < key.utf8ByteSize
  · simp only [hreadOnly, hempty, hlong, if_true]
    rfl
  · simp only [hreadOnly, hempty, hlong, FileSystem.hold_eq, Content.bytes_overwrite,
      FileSystem.bytes_held, bytes_entryPieces]
    rfl

/-- What is known of a put that is not refused. -/
theorem put_accepted {s s' : KeyValueStore V} {key : String} {value : V} {t t' : Session}
    (h : Succeeds (s.put key value) t s' t') :
    s.options.readOnly = false ∧ 0 < key.utf8ByteSize ∧ key.utf8ByteSize ≤ maxKeyLength ∧
      s' = s.appended key value ∧ t' = { t with disk := s.appendedDisk key value t.disk } := by
  unfold Succeeds at h
  rw [outcome_put] at h
  split at h
  · cases h
  split at h
  · cases h
  split at h
  · cases h
  rename_i hwritable hempty hlong
  cases h
  refine ⟨by simpa using hwritable, ?_, Nat.not_lt.mp hlong, rfl, rfl⟩
  exact Nat.pos_of_ne_zero fun hzero => hempty (by simpa [String.isEmpty] using hzero)

theorem put_succeeds {s : KeyValueStore V} (hwritable : s.options.readOnly = false) {key : String}
    (hpos : 0 < key.utf8ByteSize) (hle : key.utf8ByteSize ≤ maxKeyLength) (value : V)
    (t : Session) : Succeeds (s.put key value) t (s.appended key value)
      { t with disk := s.appendedDisk key value t.disk } := by
  have hempty : ¬key.isEmpty = true := by
    intro h
    simp only [String.isEmpty, beq_iff_eq] at h
    omega
  unfold Succeeds
  rw [outcome_put, if_neg (by simp [hwritable]), if_neg hempty, if_neg (by omega)]

/-- A put leaves the handle and the tree of the disk as they are. -/
theorem put_keeps {s s' : KeyValueStore V} {key : String} {value : V} {t t' : Session}
    (h : Succeeds (s.put key value) t s' t') :
    s'.file = s.file ∧ s'.options = s.options ∧ t'.disk.root = t.disk.root ∧
      t'.disk.files.size = t.disk.files.size := by
  obtain ⟨_, _, _, rfl, rfl⟩ := put_accepted h
  exact ⟨rfl, rfl, rfl, FileSystem.size_files_setContent _ _⟩

/-- A refused put leaves the session as it was. -/
theorem put_refused {s : KeyValueStore V} {key : String} {value : V} {t t' : Session} {e : Error}
    (h : Fails (s.put key value) t e t') :
    t' = t ∧ (e = .readOnly s.directory ∨ e = .emptyKey ∨ e = .keyTooLong key.utf8ByteSize) := by
  unfold Fails at h
  rw [outcome_put] at h
  split at h
  · cases h
    exact ⟨rfl, .inl rfl⟩
  split at h
  · cases h
    exact ⟨rfl, .inr (.inl rfl)⟩
  split at h
  · cases h
    exact ⟨rfl, .inr (.inr rfl)⟩
  · cases h

theorem overwrite_end (bytes new : Bytes) : bytes.overwrite bytes.length new = bytes ++ new := by
  simp [Bytes.overwrite]

/-- The entry that a put writes. -/
def entryOf (t : Session) (key : String) (value : V) : LogEntry :=
  ⟨t.disk.clock / 1000, key, Storable.encode value⟩

theorem Shows.put {s s' : KeyValueStore V} {key : String} {value : V} {t t' : Session}
    {entries : List LogEntry} (h : s.Shows t.disk entries [])
    (hfile : s.file < t.disk.files.size) (hvalue : (Storable.encode value).length < valueLimit)
    (hput : Succeeds (s.put key value) t s' t') :
    s'.Shows t'.disk (entries ++ [entryOf t key value]) [] := by
  obtain ⟨_, hkey, hlong, rfl, rfl⟩ := put_accepted hput
  have hfits : (entryOf t key value).Fits := ⟨hkey, hlong, hvalue⟩
  have hcontent : t.disk.content s.file = logBytes entries := by
    rw [h.content, List.append_nil]
  refine ⟨?_, ?_, ?_, ?_⟩
  · intro e he
    rcases List.mem_append.mp he with he | he
    · exact h.fits e he
    · rw [List.mem_singleton.mp he]
      exact hfits
  · have hbytes : (t.disk.content s.file).overwrite s.length (entryOf t key value).bytes =
        logBytes (entries ++ [entryOf t key value]) := by
      rw [h.length, hcontent, overwrite_end, logBytes_append, logBytes_cons, logBytes_nil,
        List.append_nil]
    rw [List.append_nil, ← hbytes]
    exact FileSystem.content_setContent_self hfile _
  · change s.length + (Lengths.ofEntry key (Storable.size value)).total = _
    rw [logBytes_append, logBytes_cons, logBytes_nil, List.append_nil, List.length_append,
      LogEntry.length_bytes, h.length, ← Storable.length_encode, Lengths.ofEntry_eq key hvalue]
    rfl
  · change s.index.insert key s.length = _
    rw [offsets_append, Nat.zero_add, h.index, h.length]
    exact (History.toMap_append_singleton _ _ _).symm

/-- From one state to the other these puts were written, and nothing else. -/
structure Writes (s : KeyValueStore V) (fs : FileSystem) (puts : List (String × V))
    (s' : KeyValueStore V) (fs' : FileSystem) : Prop where
  file : s'.file = s.file
  options : s'.options = s.options
  root : fs'.root = fs.root
  size : fs'.files.size = fs.files.size
  shows : ∀ {entries}, s.file < fs.files.size → s.Shows fs entries [] →
    ∃ new, assignments new = puts.map (fun p => (p.1, Storable.encode p.2)) ∧
      s'.Shows fs' (entries ++ new) []

namespace Writes

variable {s s' s'' : KeyValueStore V} {fs fs' fs'' : FileSystem} {puts puts' : List (String × V)}

theorem refl (s : KeyValueStore V) (fs : FileSystem) : Writes s fs [] s fs :=
  ⟨rfl, rfl, rfl, rfl, fun {entries} _ h => ⟨[], rfl, by rwa [List.append_nil]⟩⟩

theorem trans (h : Writes s fs puts s' fs') (h' : Writes s' fs' puts' s'' fs'') :
    Writes s fs (puts ++ puts') s'' fs'' := by
  refine ⟨h'.file.trans h.file, h'.options.trans h.options, h'.root.trans h.root,
    h'.size.trans h.size, ?_⟩
  intro entries hfile hshows
  obtain ⟨new, hnew, hshows'⟩ := h.shows hfile hshows
  obtain ⟨new', hnew', hshows''⟩ := h'.shows (by rw [h.file, h.size]; exact hfile) hshows'
  refine ⟨new ++ new', ?_, by rwa [← List.append_assoc]⟩
  rw [List.map_append, ← hnew, ← hnew']
  exact List.map_append

theorem put {key : String} {value : V} {t t' : Session}
    (hvalue : (Storable.encode value).length < valueLimit)
    (h : Succeeds (s.put key value) t s' t') : Writes s t.disk [(key, value)] s' t'.disk := by
  obtain ⟨hfile, hoptions, hroot, hsize⟩ := put_keeps h
  exact ⟨hfile, hoptions, hroot, hsize, fun hallocated hshows =>
    ⟨[entryOf t key value], rfl, hshows.put hallocated hvalue h⟩⟩

/-- Puts that were made one after the other. -/
theorem foldlM {α : Type} (items : List α) (keyOf : α → String) (valueOf : α → V)
    (hvalues : ∀ a ∈ items, (Storable.encode (valueOf a)).length < valueLimit) {t t' : Session}
    (h : Succeeds (items.foldlM (fun s a => KeyValueStore.put s (keyOf a) (valueOf a)) s) t s' t') :
    Writes s t.disk (items.map fun a => (keyOf a, valueOf a)) s' t'.disk := by
  induction items generalizing s t with
  | nil =>
    rw [List.foldlM_nil, succeeds_pure] at h
    obtain ⟨rfl, rfl⟩ := h
    exact refl _ _
  | cons a rest ih =>
    rw [List.foldlM_cons, succeeds_bind] at h
    obtain ⟨mid, u, hput, hrest⟩ := h
    have hfirst := Writes.put (hvalues a List.mem_cons_self) hput
    exact hfirst.trans (ih (fun b hb => hvalues b (List.mem_cons_of_mem _ hb)) hrest)

end Writes

end Relatedness.KeyValueStore
