import Relatedness.Proofs.KeyValue.Recovery

/-! How long values may be. The length of a key is checked before it is written, that of a value
only when it is read. Values that are not too long are all kept: whatever stood in the log that was
opened, each key that was put has its latest value from then on, and the log only grows. One that is
too long is written all the same, and from its entry on nothing is found again. -/

namespace Relatedness.KeyValue

/-! ## Entries that are too long -/

/-- The value is too long to be read back, by what four bytes keep of its length. -/
structure LogEntry.Oversized (e : LogEntry) : Prop where
  key_le : e.key.utf8ByteSize ≤ maxKeyLength
  value_ge : valueLimit ≤ (Lengths.ofEntry e.key e.value.length).value

variable {e : LogEntry}

theorem LogEntry.Oversized.not_isValid (h : e.Oversized) :
    ¬(Lengths.ofEntry e.key e.value.length).isValid = true := by
  simp [Lengths.isValid, h.value_ge]

/-- A scan stops before an entry that is too long, whatever stands behind its header. -/
theorem scan_oversized {entries : List LogEntry} (hfits : ∀ entry ∈ entries, entry.Fits)
    (h : e.Oversized) (rest : Bytes) :
    scan (logBytes entries ++ (e.header ++ rest)) =
      ⟨offsets 0 entries, (logBytes entries).length, .invalidEntry⟩ := by
  have hstop : ∀ offset, scanFrom offset (e.header ++ rest) = ⟨[], offset, .invalidEntry⟩ :=
    fun _ => scanFrom_of_invalid (Bytes.split?_append e.length_header rest)
      (LogEntry.ofHeader_header_eq h.key_le) h.not_isValid
  rw [scan, scanFrom_logBytes hfits, hstop, Scan.behind, List.append_nil, Nat.zero_add]

end Relatedness.KeyValue

namespace Relatedness.KeyValueStore

open KeyValue

variable {V : Type} [Storable V]

theorem readAt_oversized {e : LogEntry} (h : e.Oversized) {log : Content} {before rest : Bytes}
    (hlog : log.bytes = before ++ (e.header ++ rest)) :
    (readAt log before.length : Except Error (String × V)) =
      .error (.corruptedEntry before.length) := by
  have hheader : log.read? before.length headerSize = some e.header :=
    Content.read?_of_append before rest hlog rfl e.length_header
  unfold readAt
  simp only [hheader, LogEntry.ofHeader_header_eq h.key_le, h.not_isValid]
  rfl

/-- The log goes on behind these entries with one that is too long, and what is put from here on
goes behind the header of that one. -/
structure Stuck (s : KeyValueStore V) (fs : FileSystem) (entries : List LogEntry) : Prop where
  fits : ∀ e ∈ entries, e.Fits
  allocated : s.file < fs.files.size
  content : ∃ (e : LogEntry) (rest : Bytes), e.Oversized ∧
    fs.content s.file = logBytes entries ++ (e.header ++ rest)
  length : (logBytes entries).length + headerSize ≤ s.length

/-- A value that is too long is put, and cannot be read. -/
theorem Shows.put_oversized {s s' : KeyValueStore V} {key : String} {value : V} {t t' : Session}
    {entries : List LogEntry} (h : s.Shows t.disk entries [])
    (hfile : s.file < t.disk.files.size)
    (hsize : valueLimit ≤ (Lengths.ofEntry key (Storable.size value)).value)
    (hput : Succeeds (s.put key value) t s' t') :
    s'.Stuck t'.disk entries ∧
      s'.get? t'.disk key = .error (.corruptedEntry (logBytes entries).length) := by
  obtain ⟨_, _, hkey, rfl, rfl⟩ := put_accepted hput
  have hover : (entryOf t key value).Oversized := by
    refine ⟨hkey, ?_⟩
    rwa [show (entryOf t key value).value = Storable.encode value from rfl, Storable.length_encode]
  have hcontent : (s.appendedDisk key value t.disk).content s.file = logBytes entries ++
      ((entryOf t key value).header ++ (Bytes.ofText key ++ Storable.encode value)) := by
    refine (FileSystem.content_setContent_self hfile _).trans ?_
    rw [h.content, List.append_nil, h.length, overwrite_end]
    exact congrArg (logBytes entries ++ ·) (entryOf t key value).bytes_eq
  refine ⟨⟨h.fits, ?_, ⟨_, _, hover, hcontent⟩, ?_⟩, ?_⟩
  · exact (FileSystem.size_files_setContent _ _).symm ▸ hfile
  · change _ ≤ s.length + (headerSize + key.utf8ByteSize + _)
    rw [h.length]
    omega
  · have hindex : (s.appended key value).index[key]? = some (logBytes entries).length := by
      rw [← h.length]
      exact Std.HashMap.getElem?_insert_self
    have hread := readAt_oversized (V := V) hover ((FileSystem.bytes_held _ _).trans hcontent)
    unfold get?
    rw [hindex]
    simp only
    exact congrArg (Except.map fun r : String × V => some r.2) hread

/-- Bytes in front of where others are written stay. -/
theorem overwrite_append {before : Bytes} (behind : Bytes) {offset : Nat}
    (h : before.length ≤ offset) (new : Bytes) :
    ∃ rest, (before ++ behind).overwrite offset new = before ++ rest := by
  rw [Bytes.overwrite, List.take_append, List.take_of_length_le h]
  simp only [List.append_assoc]
  exact ⟨_, rfl⟩

/-- What is put behind an entry that is too long leaves it there. -/
theorem Stuck.put {s s' : KeyValueStore V} {key : String} {value : V} {t t' : Session}
    {entries : List LogEntry} (h : s.Stuck t.disk entries)
    (hput : Succeeds (s.put key value) t s' t') : s'.Stuck t'.disk entries := by
  obtain ⟨_, _, _, rfl, rfl⟩ := put_accepted hput
  obtain ⟨hfits, hfile, ⟨e, rest, hover, hcontent⟩, hlength⟩ := h
  refine ⟨hfits, (FileSystem.size_files_setContent _ _).symm ▸ hfile, ?_,
    hlength.trans (Nat.le_add_right _ _)⟩
  have hbefore : (logBytes entries ++ e.header).length ≤ s.length := by
    rwa [List.length_append, e.length_header]
  obtain ⟨rest', hover'⟩ := overwrite_append rest hbefore
    (encodeEntry (t.disk.clock / 1000) key (Storable.encode value))
  refine ⟨e, rest', hover, (FileSystem.content_setContent_self hfile _).trans ?_⟩
  rw [hcontent, ← List.append_assoc, hover', List.append_assoc]

theorem Stuck.puts {s s' : KeyValueStore V} {t t' : Session} {entries : List LogEntry}
    (h : s.Stuck t.disk entries) {items : List (String × V)}
    (hputs : Succeeds (items.foldlM (fun s p => KeyValueStore.put s p.1 p.2) s) t s' t') :
    s'.Stuck t'.disk entries := by
  induction items generalizing s t with
  | nil =>
    obtain ⟨rfl, rfl⟩ := succeeds_pure.mp hputs
    exact h
  | cons p rest ih =>
    rw [List.foldlM_cons, succeeds_bind] at hputs
    obtain ⟨mid, u, hfirst, hrest⟩ := hputs
    exact ih (h.put hfirst) hrest

omit [Storable V] in
/-- Opening the log again finds what stood before the entry that is too long. For writing it cuts
the rest off, and with it all that was put since. -/
theorem Stuck.reopened {s : KeyValueStore V} {directory : Path} {u : Session}
    {entries : List LogEntry} (h : s.Stuck u.disk entries) (hu : u.disk.WellFormed)
    (hopen : u.disk.openFile (directory.child logName) = .ok s.file) (options : Options) :
    ∃ (again : KeyValueStore V) (t : Session), Succeeds (openWith directory options) u again t ∧
      (∃ rest, again.Shows t.disk entries rest) ∧
      (options.readOnly = false → t.disk.content s.file = logBytes entries) := by
  obtain ⟨e, rest, hover, hcontent⟩ := h.content
  obtain ⟨t, hagain, hscanned⟩ := exists_succeeds_openWith (V := V) hu options hopen
  have hshows : (ofScan directory options s.file (scan (u.disk.content s.file)) :
      KeyValueStore V).Shows u.disk entries (e.header ++ rest) := by
    rw [hcontent, scan_oversized h.fits hover]
    exact ⟨h.fits, hcontent, rfl, rfl⟩
  refine ⟨_, t, hagain, ?_⟩
  cases hreadOnly : options.readOnly with
  | true =>
    rw [(scanLog_readOnly hreadOnly hscanned).1]
    exact ⟨⟨_, hshows⟩, by simp⟩
  | false =>
    obtain ⟨file, hfile, _, _, _, hkeep⟩ := scanLog_writable hreadOnly hscanned
    obtain rfl : file = s.file := Except.ok.inj (hfile.symm.trans hopen)
    have hshows' := hkeep h.allocated hshows
    exact ⟨⟨_, hshows'⟩, fun _ => hshows'.content.trans (List.append_nil _)⟩

/-! ## Values that are kept -/

/-- The store has what was put with its latest values, and all else as an earlier store had it. -/
structure Recalls (s : KeyValueStore V) (fs : FileSystem) (puts : List (String × V))
    (old : KeyValueStore V) (before : FileSystem) : Prop where
  get : ∀ key, s.get? fs key = match History.latest puts key with
    | some value => .ok (some value)
    | none => old.get? before key
  contains : ∀ key, s.contains key = ((History.latest puts key).isSome || old.contains key)

theorem Recalls.reads {s old : KeyValueStore V} {fs before : FileSystem} {puts : List (String × V)}
    (h : s.Recalls fs puts old before) (hold : ∀ key, ∃ found, old.get? before key = .ok found)
    (key : String) : ∃ found, s.get? fs key = .ok found := by
  rw [h.get]
  cases History.latest puts key with
  | some value => exact ⟨some value, rfl⟩
  | none => exact hold key

theorem Shows.recalls {s old : KeyValueStore V} {fs before : FileSystem}
    {entries new : List LogEntry} {tail tail' : Bytes} {puts : List (String × V)}
    (h : s.Shows fs (entries ++ new) tail) (hold : old.Shows before entries tail')
    (hnew : Records new puts)
    (hread : ∀ p ∈ puts, (decoded (Storable.encode p.2) : Except Error V) = .ok p.2) :
    s.Recalls fs puts old before := by
  have hlatest : ∀ key, History.latest (assignments (entries ++ new)) key =
      ((History.latest puts key).map Storable.encode).or
        (History.latest (assignments entries) key) := by
    intro key
    have hboth : assignments (entries ++ new) = assignments entries ++ assignments new :=
      List.map_append
    rw [hboth, History.latest_append, show assignments new = _ from hnew, History.latest_map]
  refine ⟨fun key => ?_, fun key => ?_⟩
  · rw [h.get?_eq, hold.get?_eq, hlatest]
    cases hput : History.latest puts key with
    | some value =>
      simp only [Option.map_some, Option.some_or, hread _ (History.mem_of_latest hput)]
      rfl
    | none => rw [Option.map_none, Option.none_or]
  · rw [h.answersBy_assignments.contains, hold.answersBy_assignments.contains, hlatest,
      Option.isSome_or, Option.isSome_map]

end Relatedness.KeyValueStore

namespace Relatedness.KeyValue

open KeyValueStore

variable {V : Type} [Storable V]

namespace Machine

variable {directory : Path} {options : Options} {s t : Session} {store : KeyValueStore V}

omit [Storable V] in
/-- A store that was opened for writing holds the entries that were found. -/
theorem holds_of_openWith (hs : s.disk.WellFormed) (hwritable : options.readOnly = false)
    (hopen : Succeeds (openWith directory options) s store t) :
    ∃ entries, store.Shows t.disk entries [] ∧
      Holds directory (⟨t, some store⟩ : Machine V) entries := by
  obtain ⟨ht, hat, entries, hshows, _⟩ := openWith_writable hwritable hs hopen
  refine ⟨entries, hshows, ⟨ht, hshows.fits, fun hid => ?_, fun _ => ⟨_, hat⟩⟩, ?_⟩
  · cases hat.symm.trans hid
    exact hshows.content.trans (List.append_nil _)
  · intro handle hhandle
    cases hhandle
    exact ⟨hshows, openFile_of_openWith hopen⟩

/-- A store that was opened for writing on any log, and whatever is done with it from then on. Each
key that was put has its latest value and all others have what they had, also in every store that is
opened later; what stood in the log stays, with what was put behind it; and each value that is put
can be read. -/
theorem recalls_of_run (hs : s.disk.WellFormed) (hwritable : options.readOnly = false)
    (hopen : Succeeds (openWith directory options) s store t) (commands : List (Command V))
    (hvalues : ∀ key value, .put key value ∈ commands → Readable value)
    {last : Machine V} {puts : List (String × V)}
    (hrun : run directory ⟨t, some store⟩ commands = (last, puts)) :
    (∃ new, Records new puts ∧ last.session.disk.content store.file =
        t.disk.content store.file ++ logBytes new) ∧
      (∀ handle, last.handle = some handle → handle.Recalls last.session.disk puts store t.disk ∧
        ∀ key value written u, Readable value →
          Succeeds (handle.put key value) last.session written u →
            written.get? u.disk key = .ok (some value)) ∧
      ∀ later, ∃ again : KeyValueStore V,
        Succeeds (openWith directory later) last.session again last.session ∧
          again.Recalls last.session.disk puts store t.disk := by
  obtain ⟨entries, hshows, hholds⟩ := holds_of_openWith hs hwritable hopen
  have hlengths := fun key value hmem => (hvalues key value hmem).length_lt
  obtain ⟨new, hnew, hlast⟩ := hholds.run commands hlengths
  have hfile : t.disk.openFile (directory.child logName) = .ok store.file :=
    openFile_of_openWith hopen
  have hroot := hholds.root_run ⟨_, hfile⟩ commands hlengths
  have hread : ∀ p ∈ (run directory ⟨t, some store⟩ commands).2,
      (decoded (Storable.encode p.2) : Except Error V) = .ok p.2 :=
    fun p hp => (hvalues p.1 p.2 (mem_commands_of_mem_run hp)).decoded_encode
  rw [hrun] at hnew hlast hroot hread
  have hstill : last.session.disk.openFile (directory.child logName) = .ok store.file :=
    (FileSystem.openFile_of_root_eq hroot).trans hfile
  refine ⟨⟨new, hnew, ?_⟩, fun handle hhandle => ?_, fun later => ?_⟩
  · rw [hlast.log.content (FileSystem.at?_of_openFile hlast.log.wellFormed hstill),
      hshows.content, List.append_nil, logBytes_append]
  · obtain ⟨hnow, hopened⟩ := hlast.handle handle hhandle
    refine ⟨hnow.recalls hshows hnew hread, fun key value written u hvalue hput => ?_⟩
    have hallocated := hlast.log.wellFormed.allocated
      (FileSystem.at?_of_openFile hlast.log.wellFormed hopened)
    have hput' := hnow.put hallocated hvalue.length_lt hput
    have hone : Records [entryOf last.session key value] [(key, value)] := rfl
    have hall := hput'.recalls hnow hone (by simpa using hvalue.decoded_encode)
    rw [hall.get, History.latest_singleton, if_pos (by simp)]
  · obtain ⟨again, hagain, hnow⟩ := openWith_again (V := V) hlast.log hstill later
    exact ⟨again, hagain, hnow.recalls hshows hnew hread⟩

/-- A store with two entries is opened again, gets a new value under one of the keys, and is
closed. -/
theorem recalls_of_run_twoPuts :
    ∃ (s t : Session) (store again : KeyValueStore Binary64) (last : Machine Binary64),
      s = (run ⟨false, ["kv"]⟩ ⟨⟨.empty 0, []⟩, none⟩ twoPuts).1.session ∧
      Succeeds (openWith ⟨false, ["kv"]⟩ {}) s store t ∧
      run ⟨false, ["kv"]⟩ ⟨t, some store⟩ [.put "a" 0, .close] = (last, [("a", 0)]) ∧
      Succeeds (openWith ⟨false, ["kv"]⟩ {}) last.session again last.session ∧
      again.get? last.session.disk "a" = .ok (some 0) ∧
      again.get? last.session.disk "b" = store.get? t.disk "b" := by
  have hstart : Holds ⟨false, ["kv"]⟩ (⟨⟨.empty 0, []⟩, none⟩ : Machine Binary64) [] :=
    .start (.empty 0) fun id _ => FileSystem.content_of_size_le (Nat.zero_le id)
  obtain ⟨_, _, hbefore⟩ := hstart.run twoPuts fun _ value _ => (readable_binary64 value).length_lt
  obtain ⟨store, hopen⟩ := exists_succeeds (x := (openWith ⟨false, ["kv"]⟩ {} :
    Action (KeyValueStore Binary64)))
    (s := (run ⟨false, ["kv"]⟩ ⟨⟨.empty 0, []⟩, none⟩ twoPuts).1.session) (by decide +kernel)
  generalize (outcome _ _).2 = t at hopen
  have hwritable : store.options.readOnly = false := by rw [options_of_openWith hopen]
  have hput : Succeeds (store.put "a" 0) t (store.appended "a" 0)
      { t with disk := store.appendedDisk "a" 0 t.disk } :=
    put_succeeds hwritable (by decide) (by decide) 0 t
  obtain ⟨last, hrun⟩ : ∃ last, run ⟨false, ["kv"]⟩ ⟨t, some store⟩
      [.put "a" (0 : Binary64), .close] = (last, [("a", 0)]) := by
    refine ⟨_, Prod.ext rfl ?_⟩
    rw [run, step]
    simp only [show outcome _ t = _ from hput]
    rfl
  obtain ⟨_, _, hagain⟩ := recalls_of_run hbefore.log.wellFormed rfl hopen _
    (fun _ value _ => readable_binary64 value) hrun
  obtain ⟨again, hopened, hrecalls⟩ := hagain {}
  refine ⟨_, t, store, again, last, rfl, hopen, hrun, hopened, ?_, ?_⟩
  · rw [hrecalls.get]
    rfl
  · rw [hrecalls.get]
    rfl

/-- A text is put between two others, and the store is opened again. -/
def Loses (text : String) : Prop :=
  ∃ (store first second third again : KeyValueStore String) (s t u v w : Session),
    Succeeds (openWith ⟨false, ["kv"]⟩ {}) ⟨.empty 0, []⟩ store s ∧
    Succeeds (store.put "a" "first") s first t ∧
    Succeeds (first.put "b" text) t second u ∧
    second.get? u.disk "b" ≠ .ok (some text) ∧
    Succeeds (second.put "c" "last") u third v ∧
    Succeeds (openWith ⟨false, ["kv"]⟩ {}) v again w ∧
    again.get? w.disk "a" = .ok (some "first") ∧
    again.get? w.disk "c" = .ok none ∧
    (w.disk.content third.file).length < (v.disk.content third.file).length

theorem loses_of_oversized {text : String}
    (h : valueLimit ≤ (Lengths.ofEntry "b" (Storable.size text)).value) : Loses text := by
  obtain ⟨store, hopen⟩ := exists_succeeds (x := (openWith ⟨false, ["kv"]⟩ {} :
    Action (KeyValueStore String))) (s := ⟨.empty 0, []⟩) (by decide +kernel)
  generalize (outcome _ _).2 = s at hopen
  obtain ⟨hs, hat, entries, hshows, hnew⟩ := openWith_writable rfl (.empty 0) hopen
  obtain rfl : entries = [] := by
    rcases hnew with ⟨_, hnil⟩ | ⟨hfile, _⟩
    · exact hnil
    · cases (show (FileSystem.empty 0).at? _ = none from rfl).symm.trans hfile
  have hwritable : store.options.readOnly = false := by rw [options_of_openWith hopen]
  obtain ⟨first, t, hfirst⟩ : ∃ first t, Succeeds (store.put "a" "first") s first t :=
    ⟨_, _, put_succeeds hwritable (by decide) (by decide) "first" s⟩
  obtain ⟨hfile, hoptions, hroot, hsize⟩ := put_keeps hfirst
  obtain ⟨second, u, hsecond⟩ : ∃ second u, Succeeds (first.put "b" text) t second u :=
    ⟨_, _, put_succeeds (hoptions ▸ hwritable) (by decide) (by decide) text t⟩
  obtain ⟨hfile', hoptions', hroot', hsize'⟩ := put_keeps hsecond
  obtain ⟨third, v, hthird⟩ : ∃ third v, Succeeds (second.put "c" "last") u third v :=
    ⟨_, _, put_succeeds (hoptions' ▸ hoptions ▸ hwritable) (by decide) (by decide) "last" u⟩
  obtain ⟨hfile'', _, hroot'', hsize''⟩ := put_keeps hthird
  have hone := hshows.put (hs.allocated hat) (by decide) hfirst
  obtain ⟨hstuck, hget⟩ := hone.put_oversized (by rw [hfile, hsize]; exact hs.allocated hat) h hsecond
  have hlast := hstuck.put hthird
  have hstill : v.disk.root = s.disk.root := hroot''.trans (hroot'.trans hroot)
  have hv : v.disk.WellFormed := hs.of_root_eq hstill (hsize''.trans (hsize'.trans hsize))
  have hlog : v.disk.openFile (Path.child ⟨false, ["kv"]⟩ logName) = .ok third.file := by
    rw [FileSystem.openFile_of_root_eq hstill, hfile'', hfile', hfile]
    exact openFile_of_openWith hopen
  obtain ⟨again, w, hagain, ⟨_, hfound⟩, hcut⟩ := hlast.reopened hv hlog {}
  refine ⟨store, first, second, third, again, s, t, u, v, w, hopen, hfirst, hsecond, ?_, hthird,
    hagain, ?_, ?_, ?_⟩
  · rw [hget]
    exact fun heq => nomatch heq
  · rw [hfound.get?_eq]
    change (decoded (Storable.encode "first")).map some = _
    decide
  · rw [hfound.get?_eq]
    rfl
  · obtain ⟨e, rest, _, hcontent⟩ := hlast.content
    rw [hcut rfl, hcontent, List.length_append, List.length_append, e.length_header]
    exact Nat.lt_add_of_pos_right (Nat.add_pos_left (by decide) _)

/-- A text of so many bytes. -/
def filler (n : Nat) : String := String.ofList (List.replicate n 'x')

theorem utf8ByteSize_filler (n : Nat) : (filler n).utf8ByteSize = n := by
  unfold filler
  induction n with
  | zero => rfl
  | succ n ih =>
    rw [List.replicate_succ, String.ofList_cons, String.utf8ByteSize_append,
      String.utf8ByteSize_singleton, ih, Nat.add_comm]
    rfl

theorem loses_of_utf8ByteSize {text : String} (h : text.utf8ByteSize = valueLimit - 8) :
    Storable.decoder.decode (Storable.encode text) = .ok text ∧ Loses text := by
  refine ⟨?_, loses_of_oversized ?_⟩
  · have hdecode := (Decoder.takes_text (show text.utf8ByteSize < 2 ^ 64 by rw [h]; decide)).decode []
    rwa [List.append_nil] at hdecode
  · change valueLimit ≤ (8 + text.utf8ByteSize) % (1 <<< 32)
    rw [h]
    decide

/-- A text that is read back from its encoding is lost, with the one that was put behind it, when
the encoding is as long as the limit. -/
theorem loses_filler :
    Storable.decoder.decode (Storable.encode (filler (valueLimit - 8))) =
        .ok (filler (valueLimit - 8)) ∧
      Loses (filler (valueLimit - 8)) :=
  loses_of_utf8ByteSize (utf8ByteSize_filler _)

end Machine
end Relatedness.KeyValue
