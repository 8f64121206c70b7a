import Relatedness.Proofs.KeyValue.Recovery

/-! Opening a log of any bytes. A reader that stands at a position, is moved by reads and skips
alike and fails where a read passes the end, comes to the same as splitting off one entry after the
other. What is found is the longest row of complete entries at the front of the log. Opening for
writing cuts the log off behind this row, opening for reading leaves it alone, and either way the
row alone tells what the store answers. -/

namespace Relatedness.KeyValue

/-! ## Reading at a position -/

/-- Reads a file from a position, which the reads move. -/
abbrev Reader := StateT Nat (Except IoError)

namespace Reader

/-- Reads so many bytes, all of which must be there. -/
def take (log : Bytes) (n : Nat) : Reader Bytes := fun position =>
  if position + n ≤ log.length then .ok ((log.drop position).take n, position + n)
  else .error .unexpectedEnd

/-- Passes over so many bytes, whether they are there or not. -/
def skip (n : Nat) : Reader Unit := fun position => .ok ((), position + n)

/-- Scans a log from an offset, which is compared with the length of the log. What is read is what
stands at the position. -/
def scan (log : Bytes) (offset : Nat) : Reader Scan := do
  if offset = log.length then
    return ⟨[], offset, .complete⟩
  else if _h : log.length < offset + headerSize then
    return ⟨[], offset, .truncatedHeader⟩
  else
    let lengths := Lengths.ofHeader (← take log headerSize)
    if !lengths.isValid || log.length < offset + lengths.total then
      return ⟨[], offset, .invalidEntry⟩
    else
      match (← take log lengths.key).toText? with
      | none => return ⟨[], offset, .invalidKey⟩
      | some key =>
        skip lengths.value
        let found ← scan log (offset + lengths.total)
        return { found with entries := (key, offset) :: found.entries }
termination_by log.length - offset
decreasing_by
  simp only [Lengths.total, headerSize] at *
  omega

theorem run_take_bind {α : Type} {log : Bytes} {n position : Nat} (h : position + n ≤ log.length)
    (f : Bytes → Reader α) :
    (take log n >>= f).run position = (f ((log.drop position).take n)).run (position + n) := by
  have htake : (take log n).run position = .ok ((log.drop position).take n, position + n) :=
    if_pos h
  rw [StateT.run_bind, htake]
  rfl

theorem run_skip_bind {α : Type} (n position : Nat) (f : Unit → Reader α) :
    (skip n >>= f).run position = (f ()).run (position + n) := rfl

/-- Standing where the scan has come to, the reader finds what splitting off finds, and comes to
stand within the log. -/
theorem run_scan (log : Bytes) {offset : Nat} (h : offset ≤ log.length) :
    ∃ position ≤ log.length,
      (scan log offset).run offset = .ok (scanFrom offset (log.drop offset), position) := by
  induction hn : log.length - offset using Nat.strongRecOn generalizing offset with
  | ind n ih =>
  rw [scan]
  split
  · rename_i hend
    have hnil : log.drop offset = [] := List.drop_eq_nil_of_le (Nat.le_of_eq hend.symm)
    exact ⟨offset, h, by rw [hnil, scanFrom_nil]; rfl⟩
  rename_i hend
  have hrest : (log.drop offset).length = log.length - offset := List.length_drop
  split
  · rename_i hshort
    have hnone : Bytes.split? headerSize (log.drop offset) = none :=
      Bytes.split?_eq_none (by omega)
    have hsome : ¬(log.drop offset).isEmpty = true := by
      rw [List.isEmpty_iff_length_eq_zero, hrest]
      omega
    refine ⟨offset, h, ?_⟩
    rw [scanFrom, hnone]
    simp only [hsome]
    rfl
  rename_i hlong
  have hheader := Bytes.split?_drop (Nat.not_lt.mp hlong)
  rw [run_take_bind (by omega)]
  simp only
  generalize hlengths : Lengths.ofHeader ((log.drop offset).take headerSize) = lengths
  have hkeyEnd : headerSize + lengths.key ≤ lengths.total := Nat.le_add_right _ _
  have hpos : 0 < lengths.total := by
    unfold Lengths.total headerSize
    omega
  split
  · rename_i hbad
    refine ⟨offset + headerSize, by omega, ?_⟩
    by_cases hvalid : lengths.isValid = true
    · have hover : log.length < offset + lengths.total := by simpa [hvalid] using hbad
      rw [scanFrom_of_short hheader hlengths hvalid (Bytes.split?_eq_none (by omega))]
      rfl
    · rw [scanFrom_of_invalid hheader hlengths hvalid]
      rfl
  rename_i hgood
  obtain ⟨hvalid, hwithin⟩ : lengths.isValid = true ∧ offset + lengths.total ≤ log.length := by
    simpa using hgood
  have hentry := Bytes.split?_drop hwithin
  have hkey : (((log.drop offset).take lengths.total).drop headerSize).take lengths.key =
      (log.drop (offset + headerSize)).take lengths.key := by
    rw [List.drop_take, List.take_take, List.drop_drop, Nat.min_eq_left (by omega)]
  rw [scanFrom_of_split hheader hlengths hvalid hentry, hkey, run_take_bind (by omega)]
  cases htext : Bytes.toText? ((log.drop (offset + headerSize)).take lengths.key) with
  | none => exact ⟨offset + headerSize + lengths.key, by omega, rfl⟩
  | some key =>
    -- the header and the key were read, and the value is skipped: this is the whole entry
    have hnext : offset + headerSize + lengths.key + lengths.value = offset + lengths.total := by
      unfold Lengths.total
      omega
    obtain ⟨position, hle, hscan⟩ := ih _ (by omega) hwithin rfl
    refine ⟨position, hle, ?_⟩
    simp only
    rw [run_skip_bind, hnext, StateT.run_bind, hscan]
    rfl

end Reader

/-! ## The longest row -/

/-- A row of complete entries at the front of a log, of which every other such row is a part. -/
structure LongestRow (log : Bytes) (entries : List LogEntry) : Prop where
  fits : ∀ e ∈ entries, e.Fits
  front : logBytes entries <+: log
  longest : ∀ others : List LogEntry, (∀ e ∈ others, e.Fits) → logBytes others <+: log →
    logBytes others <+: logBytes entries

variable {log : Bytes} {entries others : List LogEntry}

/-- A scan stops at or behind where it begins. -/
theorem le_stop_scanFrom (offset : Nat) (log : Bytes) : offset ≤ (scanFrom offset log).stop := by
  obtain ⟨entries, rest, ending, _, _, hscan⟩ := exists_scanFrom_eq offset log
  rw [hscan]
  exact Nat.le_add_right _ _

/-- A row behind which nothing more is found is the longest one. -/
theorem longestRow_of_scan {rest : Bytes} {ending : Tail} (hfits : ∀ e ∈ entries, e.Fits)
    (hrest : scanFrom (logBytes entries).length rest = ⟨[], (logBytes entries).length, ending⟩) :
    LongestRow (logBytes entries ++ rest) entries := by
  refine ⟨hfits, List.prefix_append _ _, fun others hothers hpre => ?_⟩
  have hscan := scanFrom_logBytes hfits 0 rest
  obtain ⟨tail, htail⟩ := hpre
  have hscan' := scanFrom_logBytes hothers 0 tail
  rw [Nat.zero_add] at hscan hscan'
  rw [hrest] at hscan
  rw [htail, hscan] at hscan'
  -- both rows are scanned alike, so the other one ends before this one
  have hle : (logBytes others).length ≤ (logBytes entries).length :=
    calc (logBytes others).length ≤ (scanFrom (logBytes others).length tail).stop :=
          le_stop_scanFrom _ tail
      _ = (logBytes entries).length := (congrArg Scan.stop hscan').symm
  exact List.prefix_of_prefix_length_le ⟨tail, htail⟩ (List.prefix_append _ rest) hle

/-- A scan finds the longest row. -/
theorem exists_longestRow (log : Bytes) :
    ∃ entries ending, LongestRow log entries ∧
      scan log = ⟨offsets 0 entries, (logBytes entries).length, ending⟩ := by
  obtain ⟨entries, rest, ending, hfits, rfl, hscan⟩ := exists_scanFrom_eq 0 log
  rw [Nat.zero_add] at hscan
  have hbehind := scanFrom_logBytes hfits 0 rest
  rw [Nat.zero_add, hscan] at hbehind
  have hrest : scanFrom (logBytes entries).length rest =
      ⟨[], (logBytes entries).length, ending⟩ := by
    obtain ⟨hentries, hstop, hending⟩ := Scan.mk.inj hbehind
    generalize scanFrom (logBytes entries).length rest = found at *
    obtain ⟨listed, stop, tail⟩ := found
    cases List.self_eq_append_right.mp hentries
    cases hstop
    cases hending
    rfl
  exact ⟨entries, ending, longestRow_of_scan hfits hrest, hscan⟩

/-- A log has one longest row. -/
theorem LongestRow.logBytes_eq (h : LongestRow log entries) (h' : LongestRow log others) :
    logBytes others = logBytes entries := by
  have hpre := h.longest others h'.fits h'.front
  exact hpre.eq_of_length_le (h'.longest entries h.fits h.front).length_le

theorem LongestRow.scan_eq (h : LongestRow log entries) :
    ∃ ending, scan log = ⟨offsets 0 entries, (logBytes entries).length, ending⟩ := by
  obtain ⟨others, ending, hothers, hscan⟩ := exists_longestRow log
  have hbytes := h.logBytes_eq hothers
  have hoffsets : offsets 0 others = offsets 0 entries := by
    have hall := (scan_logBytes hothers.fits).symm.trans (hbytes ▸ scan_logBytes h.fits)
    exact congrArg Scan.entries hall
  exact ⟨ending, by rw [hscan, hoffsets, hbytes]⟩

/-- What is left behind a cut at the end of the row, or of the whole log, has the same row. -/
theorem LongestRow.of_cut (h : LongestRow log entries) : LongestRow (logBytes entries) entries :=
  ⟨h.fits, List.prefix_rfl, fun _ _ hpre => hpre⟩

/-- Where two entries begin with the same bytes, they have key and value in common. -/
theorem LogEntry.of_append_eq {e e' : LogEntry} (h : e.Fits) (h' : e'.Fits) {rest rest' : Bytes}
    (hbytes : e.bytes ++ rest = e'.bytes ++ rest') :
    e.key = e'.key ∧ e.value = e'.value ∧ rest = rest' := by
  rw [bytes_eq, bytes_eq, List.append_assoc, List.append_assoc, List.append_assoc,
    List.append_assoc] at hbytes
  obtain ⟨hheader, hbehind⟩ := List.append_inj hbytes (by rw [length_header, length_header])
  have hlengths := (ofHeader_header h).symm.trans ((congrArg _ hheader).trans (ofHeader_header h'))
  obtain ⟨hkeyLength, hvalueLength⟩ := Lengths.mk.inj hlengths
  obtain ⟨hkey, hvalues⟩ := List.append_inj hbehind
    (by rw [Bytes.length_ofText, Bytes.length_ofText, hkeyLength])
  obtain ⟨hvalue, hrest⟩ := List.append_inj hvalues hvalueLength
  have htext := congrArg Bytes.toText? hkey
  rw [Bytes.toText?_ofText, Bytes.toText?_ofText] at htext
  exact ⟨Option.some.inj htext, hvalue, hrest⟩

theorem logBytes_cons_ne_nil (e : LogEntry) (rest : List LogEntry) : logBytes (e :: rest) ≠ [] := by
  rw [← List.length_pos_iff, length_logBytes_cons, LogEntry.length, headerSize]
  omega

/-- The bytes of a row tell what its entries assign. -/
theorem assignments_eq_of_logBytes_eq (h : ∀ e ∈ entries, e.Fits) (h' : ∀ e ∈ others, e.Fits)
    (hbytes : logBytes entries = logBytes others) :
    KeyValueStore.assignments entries = KeyValueStore.assignments others := by
  induction entries generalizing others with
  | nil =>
    cases others with
    | nil => rfl
    | cons e' rest' => exact absurd hbytes.symm (logBytes_cons_ne_nil e' rest')
  | cons e rest ih =>
    cases others with
    | nil => exact absurd hbytes (logBytes_cons_ne_nil e rest)
    | cons e' rest' =>
      rw [logBytes_cons, logBytes_cons] at hbytes
      obtain ⟨hkey, hvalue, hrest⟩ := LogEntry.of_append_eq (h e List.mem_cons_self)
        (h' e' List.mem_cons_self) hbytes
      have htail := ih (fun _ hmem => h _ (List.mem_cons_of_mem _ hmem))
        (fun _ hmem => h' _ (List.mem_cons_of_mem _ hmem)) hrest
      unfold KeyValueStore.assignments at htail ⊢
      rw [List.map_cons, List.map_cons, hkey, hvalue, htail]

end Relatedness.KeyValue

namespace Relatedness.KeyValueStore

open KeyValue FileSystem

variable {V : Type} {directory : Path} {options : Options} {file : Nat} {entries : List LogEntry}
  {s t : Session}

/-! ## Opening any log -/

/-- Unless it is only read, a log is cut off behind these entries. Nothing else changes, and nothing
at all where there is nothing to cut off. -/
structure CutBehind (file : Nat) (entries : List LogEntry) (options : Options)
    (fs fs' : FileSystem) : Prop where
  root : fs'.root = fs.root
  size : fs'.files.size = fs.files.size
  content : fs'.content file = if options.readOnly then fs.content file else logBytes entries
  others : ∀ other ≠ file, fs'.content other = fs.content other
  unchanged : options.readOnly = true ∨ fs.content file = logBytes entries → fs' = fs

theorem CutBehind.refl {fs : FileSystem}
    (hwhole : options.readOnly = true ∨ fs.content file = logBytes entries) :
    CutBehind file entries options fs fs := by
  refine ⟨rfl, rfl, ?_, fun _ _ => rfl, fun _ => rfl⟩
  split
  · rfl
  · exact hwhole.resolve_left (by assumption)

theorem CutBehind.setContent {fs : FileSystem} (hwritable : options.readOnly = false)
    (hlonger : fs.content file ≠ logBytes entries) (hfile : file < fs.files.size) :
    CutBehind file entries options fs (fs.setContent file (logBytes entries)) := by
  refine ⟨rfl, size_files_setContent _ _, ?_, fun _ hne => content_setContent_ne hne _,
    fun hwhole => ?_⟩
  · rw [hwritable, content_setContent_self hfile]
    rfl
  · rcases hwhole with hreadOnly | hsame
    · cases hwritable.symm.trans hreadOnly
    · exact absurd hsame hlonger

/-- What a scan of the log does to the disk. -/
theorem cutBehind_of_scanLog {store : KeyValueStore V} (hfile : file < s.disk.files.size)
    (hopen : s.disk.openFile (directory.child logName) = .ok file)
    (hrow : LongestRow (s.disk.content file) entries)
    (hscan : Succeeds (scanLog directory options : Action (KeyValueStore V)) s store t) :
    CutBehind file entries options s.disk t.disk := by
  obtain ⟨ending, hfound⟩ := hrow.scan_eq
  obtain ⟨rest, hrest⟩ := hrow.front
  have hstop : (scan (s.disk.content file)).stop = (logBytes entries).length := by rw [hfound]
  simp only [scanLog, recover, hold_eq, Content.bytes_resize, bytes_held, succeeds_bind,
    Action.succeeds_onDisk, DiskM.succeeds_inspect, DiskM.succeeds_change, Action.succeeds_disk,
    succeeds_ite, Action.succeeds_log, succeeds_pure] at hscan
  obtain ⟨found, _, ⟨_, ⟨hfile', rfl⟩, rfl⟩, _, _, ⟨rfl, rfl⟩, _, _, hrecover, rfl, rfl⟩ := hscan
  cases hfile'.symm.trans hopen
  rw [hstop] at hrecover
  rcases hrecover with
    ⟨hlonger, _, _, rfl, ⟨hreadOnly, rfl⟩ | ⟨hwritable, _, _, ⟨_, hcut, rfl⟩, rfl⟩⟩ |
    ⟨hwhole, _, rfl⟩
  · exact .refl (.inl hreadOnly)
  · cases hcut
    have hresize : (s.disk.content file).resize (logBytes entries).length = logBytes entries := by
      rw [← hrest, Bytes.resize, List.take_left]
      simp
    have hcut : CutBehind file entries options s.disk
        (s.disk.setContent file ((s.disk.content file).resize (logBytes entries).length)) := by
      rw [hresize]
      refine .setContent (by simpa using hwritable) (fun hsame => ?_) hfile
      rw [hsame] at hlonger
      exact Nat.lt_irrefl _ hlonger
    exact hcut
  · exact .refl (.inr (hrow.front.eq_of_length_le (Nat.not_lt.mp hwhole)).symm)

variable [Storable V] {store : KeyValueStore V}

/-- Every answer of a store, told by a row of entries. -/
structure Salvages (store : KeyValueStore V) (fs : FileSystem) (entries : List LogEntry) :
    Prop where
  index : store.index = History.toMap (offsets 0 entries)
  answers : store.AnswersBy decoded fs (assignments entries)
  /-- A key that is known is looked up in vain only if its last value cannot be decoded. -/
  get_of_contains : ∀ key, store.contains key = true → ∃ value,
    History.latest (assignments entries) key = some value ∧ ∀ cause,
      store.get? fs key = .error cause ↔
        ∃ fault, (Storable.decoder (α := V)).decode value = .error fault ∧ cause = .decoding fault
  get_of_not_contains : ∀ key, store.contains key = false → store.get? fs key = .ok none

theorem Shows.salvages {fs : FileSystem} {rest : Bytes} (h : store.Shows fs entries rest) :
    store.Salvages fs entries := by
  refine ⟨h.index, h.answersBy_assignments, fun key hkey => ?_, fun key hkey =>
    get?_of_not_contains hkey fs⟩
  rw [h.answersBy_assignments.contains] at hkey
  obtain ⟨value, hvalue⟩ := Option.isSome_iff_exists.mp hkey
  refine ⟨value, hvalue, fun cause => ?_⟩
  rw [h.get?_eq, hvalue]
  cases hdecode : (Storable.decoder (α := V)).decode value with
  | ok found => simp [decoded, hdecode, Except.mapError, Except.map]
  | error fault => simp [decoded, hdecode, Except.mapError, Except.map, eq_comm]

/-- Opening a log with this row. -/
theorem exists_openWith_of_longestRow (hs : s.disk.WellFormed)
    (hopen : s.disk.openFile (directory.child logName) = .ok file)
    (hrow : LongestRow (s.disk.content file) entries) (options : Options) :
    ∃ (store : KeyValueStore V) (t : Session), Succeeds (openWith directory options) s store t ∧
      store.Salvages t.disk entries ∧ CutBehind file entries options s.disk t.disk := by
  obtain ⟨t, hopened, hscan⟩ := exists_succeeds_openWith (V := V) hs options hopen
  have hcut := cutBehind_of_scanLog (hs.allocated (at?_of_openFile hs hopen)) hopen hrow hscan
  obtain ⟨ending, hfound⟩ := hrow.scan_eq
  obtain ⟨rest, hrest⟩ := hrow.front
  refine ⟨_, t, hopened, ?_, hcut⟩
  rw [hfound]
  have hleft : ∃ rest', t.disk.content file = logBytes entries ++ rest' := by
    rw [hcut.content]
    split
    · exact ⟨rest, hrest.symm⟩
    · exact ⟨[], (List.append_nil _).symm⟩
  obtain ⟨rest', hleft⟩ := hleft
  exact Shows.salvages ⟨hrow.fits, hleft, rfl, rfl⟩

/-- Opening a log of any bytes. A reader that fails where it passes the end scans it, and finds the
longest row of complete entries. Every opening succeeds and knows just these; for writing it cuts
the log off behind them, for reading it changes nothing. Opening once more finds the same, and has
nothing more to cut off. -/
theorem openWith_salvages (hs : s.disk.WellFormed)
    (hopen : s.disk.openFile (directory.child logName) = .ok file) :
    ∃ entries, LongestRow (s.disk.content file) entries ∧
      (∃ ending, ∃ position ≤ (s.disk.content file).length,
        (Reader.scan (s.disk.content file) 0).run 0 =
          .ok (⟨offsets 0 entries, (logBytes entries).length, ending⟩, position)) ∧
      ∀ options : Options, ∃ (store : KeyValueStore V) (t : Session),
        Succeeds (openWith directory options) s store t ∧ store.Salvages t.disk entries ∧
          CutBehind file entries options s.disk t.disk ∧
          ∀ later : Options, ∃ (again : KeyValueStore V) (u : Session),
            Succeeds (openWith directory later) t again u ∧ again.Salvages u.disk entries ∧
              again.index = store.index ∧ CutBehind file entries later t.disk u.disk ∧
              ((options.readOnly = true → later.readOnly = true) → u.disk = t.disk) := by
  obtain ⟨entries, ending, hrow, hfound⟩ := exists_longestRow (s.disk.content file)
  obtain ⟨position, hle, hreader⟩ := Reader.run_scan (s.disk.content file) (Nat.zero_le _)
  rw [List.drop_zero] at hreader
  refine ⟨entries, hrow, ⟨ending, position, hle, hreader.trans (by rw [← scan, hfound])⟩,
    fun options => ?_⟩
  obtain ⟨store, t, hopened, hsalvages, hcut⟩ :=
    exists_openWith_of_longestRow (V := V) hs hopen hrow options
  refine ⟨store, t, hopened, hsalvages, hcut, fun later => ?_⟩
  have ht : t.disk.WellFormed := hs.of_root_eq hcut.root hcut.size
  have hopen' : t.disk.openFile (directory.child logName) = .ok file := by
    rw [openFile_of_root_eq hcut.root]
    exact hopen
  have hrow' : LongestRow (t.disk.content file) entries := by
    rw [hcut.content]
    split
    · exact hrow
    · exact hrow.of_cut
  obtain ⟨again, u, hagain, hsalvages', hcut'⟩ :=
    exists_openWith_of_longestRow (V := V) ht hopen' hrow' later
  refine ⟨again, u, hagain, hsalvages', hsalvages'.index.trans hsalvages.index.symm, hcut',
    fun hlater => hcut'.unchanged ?_⟩
  cases hreadOnly : options.readOnly with
  | true => exact .inl (hlater hreadOnly)
  | false => exact .inr (by rw [hcut.content, hreadOnly]; rfl)

/-- Two keys, the first of which has a value that is too short for a number in its last entry. -/
def shortValue : List LogEntry :=
  [⟨0, "a", Storable.encode (1 : Binary64)⟩, ⟨0, "b", Storable.encode (0 : Binary64)⟩,
    ⟨0, "a", [1, 2, 3]⟩]

/-- The header of an entry that is longer than anything that stands behind it. -/
def longHeader : Bytes := Bytes.word 8 0 ++ Bytes.word 2 65535 ++ Bytes.word 4 (valueLimit - 1)

theorem longestRow_shortValue : LongestRow (logBytes shortValue ++ longHeader) shortValue := by
  have hfits : ∀ e ∈ shortValue, e.Fits := by
    intro e hmem
    simp only [shortValue, List.mem_cons, List.not_mem_nil, or_false] at hmem
    rcases hmem with rfl | rfl | rfl <;> exact ⟨by decide, by decide, by decide⟩
  have hheader : Bytes.split? headerSize longHeader = some (longHeader, []) := by decide
  exact longestRow_of_scan hfits
    (scanFrom_of_short hheader rfl (by decide) (by decide))

theorem openWith_salvages_shortValue :
    ∃ (s : Session) (store : KeyValueStore Binary64) (t : Session),
      s.disk.content 0 = logBytes shortValue ++ longHeader ∧
      Succeeds (openWith ⟨false, ["."]⟩ {}) s store t ∧
      t.disk.content 0 = logBytes shortValue ∧
      store.get? t.disk "a" = .error (.decoding .unexpectedEnd) ∧
      store.get? t.disk "b" = .ok (some 0) ∧ store.get? t.disk "c" = .ok none := by
  let made : FileSystem := ⟨.directory [("entries.log", .file 0)], #[⟨.ofBytes [], 0⟩], 1⟩
  let s : Session := ⟨made.setContent 0 (logBytes shortValue ++ longHeader), []⟩
  have hmade : (FileSystem.empty 0).openOrCreate ⟨false, ["entries.log"]⟩ = .ok (0, made) := rfl
  have hs : s.disk.WellFormed :=
    (openOrCreate_wellFormed (FileSystem.WellFormed.empty 0) hmade).setContent _ _
  have hopen : s.disk.openFile (Path.child ⟨false, ["."]⟩ logName) = .ok 0 := by decide +kernel
  have hcontent : s.disk.content 0 = logBytes shortValue ++ longHeader :=
    content_setContent_self (by decide) _
  obtain ⟨entries, hrow, _, hopenings⟩ := openWith_salvages (V := Binary64) hs hopen
  obtain ⟨store, t, hopened, hsalvages, hcut, _⟩ := hopenings {}
  rw [hcontent] at hrow
  have hbytes := longestRow_shortValue.logBytes_eq hrow
  have hassign := assignments_eq_of_logBytes_eq hrow.fits longestRow_shortValue.fits hbytes
  have hget := hsalvages.answers.get
  rw [hassign] at hget
  refine ⟨s, store, t, hcontent, hopened, hcut.content.trans hbytes, ?_, ?_, ?_⟩
  · rw [hget]
    rfl
  · rw [hget]
    rfl
  · rw [hget]
    rfl

end Relatedness.KeyValueStore
