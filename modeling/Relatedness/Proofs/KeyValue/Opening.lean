import Relatedness.Proofs.KeyValue.Store

/-! Opening a store whose log consists of complete entries. Whether it is opened for writing or
for reading, the store that results shows these entries, and the log is left as it was; also a
store that could not be opened leaves it so. -/

namespace Relatedness.KeyValueStore

open KeyValue FileSystem

variable {V : Type}

/-- What an opened store knows of its log. -/
def ofScan (directory : Path) (options : Options) (file : Nat) (found : Scan) : KeyValueStore V where
  directory := directory
  file := file
  options := options
  index := History.toMap found.entries
  length := found.stop

/-- Prepares the log of a store that is to be written. -/
def prepare (directory : Path) : DiskM Unit := do
  DiskM.makeDirectories directory
  DiskM.change fun fs => (fs.openOrCreate (directory.child logName)).map Prod.snd

/-- Opens the log and scans it. -/
def scanLog (directory : Path) (options : Options) : Action (KeyValueStore V) := do
  let file ← Action.onDisk (DiskM.inspect (·.openFile (directory.child logName)))
  let log := (← Action.disk).content file
  recover directory file log.length (scan log) options.readOnly
  return ofScan directory options file (scan log)

/-- Opening is preparing the log, unless it is only read, and scanning it. -/
theorem openWith_eq (directory : Path) (options : Options) :
    (openWith directory options : Action (KeyValueStore V)) =
      if options.readOnly then scanLog directory options
      else Action.onDisk (prepare directory) >>= fun _ => scanLog directory options := by
  unfold openWith scanLog
  simp only [Content.scan_eq, Content.size_eq, FileSystem.bytes_held]
  cases options.readOnly <;> rfl

/-- A log of complete entries is left as it is. -/
theorem recover_complete {directory : Path} {file : Nat} {entries : List LogEntry}
    (h : ∀ e ∈ entries, e.Fits) (readOnly : Bool) :
    recover directory file (logBytes entries).length (scan (logBytes entries)) readOnly =
      pure () := by
  rw [scan_logBytes h, recover, if_neg (Nat.lt_irrefl _)]

/-- A store that was opened on a log of complete entries shows them. -/
theorem shows_ofScan {directory : Path} {options : Options} {file : Nat} {fs : FileSystem}
    {entries : List LogEntry} (h : ∀ e ∈ entries, e.Fits)
    (hcontent : fs.content file = logBytes entries) :
    (ofScan directory options file (scan (logBytes entries)) : KeyValueStore V).Shows fs entries
      [] := by
  rw [scan_logBytes h]
  exact ⟨h, by rw [List.append_nil]; exact hcontent, rfl, rfl⟩

/-! ## The log on the disk -/

/-- The place of the log holds these entries: a file of them, or nothing if there are none. -/
structure LogAt (directory : Path) (fs : FileSystem) (entries : List LogEntry) : Prop where
  wellFormed : fs.WellFormed
  fits : ∀ e ∈ entries, e.Fits
  content : ∀ {id}, fs.at? (directory.child logName).place = some (.file id) →
    fs.content id = logBytes entries
  standing : entries ≠ [] → ∃ id, fs.at? (directory.child logName).place = some (.file id)

variable {directory : Path} {fs fs' : FileSystem} {entries : List LogEntry}

theorem isName_logName : Path.IsName logName := by decide

theorem LogAt.of_addsDirectories (h : LogAt directory fs entries) (hfs' : fs'.WellFormed)
    (hadds : fs.AddsDirectories fs') : LogAt directory fs' entries := by
  obtain ⟨hfiles, hat⟩ := hadds
  have hold : ∀ {id}, fs'.at? (directory.child logName).place = some (.file id) →
      fs.at? (directory.child logName).place = some (.file id) := by
    intro id hid
    rcases hat (directory.child logName).place with heq | ⟨_, hdir⟩
    · rwa [← heq]
    · rw [hdir] at hid
      cases hid
  refine ⟨hfs', h.fits, fun hid => ?_, fun hne => ?_⟩
  · rw [FileSystem.content, hfiles]
    exact h.content (hold hid)
  · obtain ⟨id, hid⟩ := h.standing hne
    refine ⟨id, ?_⟩
    rcases hat (directory.child logName).place with heq | ⟨hnone, _⟩
    · rw [heq, hid]
    · rw [hnone] at hid
      cases hid

theorem LogAt.openOrCreate (h : LogAt directory fs entries) {id : Nat}
    (hopen : fs.openOrCreate (directory.child logName) = .ok (id, fs')) :
    LogAt directory fs' entries := by
  rcases openOrCreate_eq_ok h.wellFormed hopen with ⟨_, rfl⟩ | ⟨hnone, rfl, hat, hfiles⟩
  · exact h
  · have hempty : entries = [] := by
      by_contra hne
      obtain ⟨other, hother⟩ := h.standing hne
      rw [hnone] at hother
      cases hother
    refine ⟨openOrCreate_wellFormed h.wellFormed hopen, h.fits, fun hid => ?_, fun hne => ?_⟩
    · rw [hat, if_pos rfl] at hid
      cases hid
      rw [hempty, FileSystem.content, hfiles]
      simp
    · exact absurd hempty hne

/-- Preparing the log keeps what it holds, however far it comes. -/
theorem keeps_prepare (directory : Path) (entries : List LogEntry) :
    Keeps (LogAt directory · entries) (prepare directory) := by
  refine Keeps.bind (fun fs h => ?_) fun _ => DiskM.keeps_change fun h hopen => ?_
  · obtain ⟨hfs', hadds⟩ := DiskM.makeDirectories_adds h.wellFormed directory
    exact h.of_addsDirectories hfs' hadds
  · rename_i before after
    cases hmid : before.openOrCreate (directory.child logName) with
    | error e =>
      rw [hmid] at hopen
      cases hopen
    | ok r =>
      rw [hmid] at hopen
      cases hopen
      exact h.openOrCreate hmid

/-- Where a log can be opened, preparing it changes nothing. -/
theorem prepare_of_openFile (hfs : fs.WellFormed) {id : Nat}
    (h : fs.openFile (directory.child logName) = .ok id) : Succeeds (prepare directory) fs () fs := by
  obtain ⟨hdir, hmake, hopen⟩ := of_openFile_child hfs isName_logName h
  refine succeeds_bind.mpr ⟨(), fs, DiskM.makeDirectories_of_isDirectory hdir hmake, ?_⟩
  rw [DiskM.succeeds_change, hopen]
  rfl

/-! ## Opening -/

variable {options : Options} {s t : Session}

/-- Scanning a log of complete entries that can be opened. -/
theorem succeeds_scanLog (options : Options) (hfits : ∀ e ∈ entries, e.Fits) {file : Nat}
    (hopen : s.disk.openFile (directory.child logName) = .ok file)
    (hcontent : s.disk.content file = logBytes entries) :
    Succeeds (scanLog directory options : Action (KeyValueStore V)) s
      (ofScan directory options file (scan (logBytes entries))) s := by
  rw [scanLog, succeeds_bind]
  refine ⟨file, s, ?_, ?_⟩
  · rw [Action.succeeds_onDisk]
    exact ⟨s.disk, DiskM.succeeds_inspect.mpr ⟨hopen, rfl⟩, rfl⟩
  · rw [succeeds_bind]
    refine ⟨s.disk, s, Action.succeeds_disk.mpr ⟨rfl, rfl⟩, ?_⟩
    simp only [hcontent, recover_complete hfits]
    simp

/-- The log shows its entries to a store that opens it, and a log that cannot be opened is left
alone. -/
theorem scanLog_spec (h : LogAt directory s.disk entries) (options : Options) :
    (∃ store : KeyValueStore V, Succeeds (scanLog directory options) s store s ∧
      store.Shows s.disk entries [] ∧
      s.disk.openFile (directory.child logName) = .ok store.file ∧ store.options = options) ∨
    ∃ e, Fails (scanLog directory options : Action (KeyValueStore V)) s e s := by
  cases hopen : s.disk.openFile (directory.child logName) with
  | ok file =>
    have hcontent := h.content (at?_of_openFile h.wellFormed hopen)
    exact .inl ⟨_, succeeds_scanLog options h.fits hopen hcontent, shows_ofScan h.fits hcontent, rfl,
      rfl⟩
  | error cause =>
    refine .inr ⟨.io cause, ?_⟩
    rw [scanLog, fails_bind]
    refine .inl ?_
    rw [Action.fails_onDisk]
    exact ⟨cause, s.disk, DiskM.fails_inspect.mpr ⟨hopen, rfl⟩, rfl, rfl⟩

/-- Opening a store that keeps its log in these entries: it shows them if it is opened, and the
log keeps them in any case. -/
theorem openWith_spec (h : LogAt directory s.disk entries) (options : Options) :
    (∃ (store : KeyValueStore V) (t : Session), Succeeds (openWith directory options) s store t ∧
      LogAt directory t.disk entries ∧ store.Shows t.disk entries [] ∧
      t.disk.openFile (directory.child logName) = .ok store.file ∧ store.options = options) ∨
    ∃ (e : Error) (t : Session),
      Fails (openWith directory options : Action (KeyValueStore V)) s e t ∧
        LogAt directory t.disk entries := by
  rw [openWith_eq]
  split
  · rcases scanLog_spec (V := V) h options with ⟨store, hscan⟩ | ⟨e, hscan⟩
    · exact .inl ⟨store, s, hscan.1, h, hscan.2⟩
    · exact .inr ⟨e, s, hscan, h⟩
  · rcases succeeds_or_fails (prepare directory) s.disk with ⟨u, fs, hprepare⟩ | ⟨cause, fs, hprepare⟩
    · have hmid : LogAt directory fs entries := (keeps_prepare directory entries).succeeds hprepare h
      have hstep : Succeeds (Action.onDisk (prepare directory)) s u { s with disk := fs } :=
        Action.succeeds_onDisk.mpr ⟨fs, hprepare, rfl⟩
      rcases scanLog_spec (V := V) (s := { s with disk := fs }) hmid options with
        ⟨store, hscan⟩ | ⟨e, hscan⟩
      · exact .inl ⟨store, _, succeeds_bind.mpr ⟨u, _, hstep, hscan.1⟩, hmid, hscan.2⟩
      · exact .inr ⟨e, _, fails_bind.mpr (.inr ⟨u, _, hstep, hscan⟩), hmid⟩
    · have hmid : LogAt directory fs entries := (keeps_prepare directory entries).fails hprepare h
      refine .inr ⟨.io cause, { s with disk := fs }, fails_bind.mpr (.inl ?_), hmid⟩
      exact Action.fails_onDisk.mpr ⟨cause, fs, hprepare, rfl, rfl⟩

/-- Where the log can be opened, every opening succeeds and changes nothing. -/
theorem openWith_again (h : LogAt directory s.disk entries) {file : Nat}
    (hopen : s.disk.openFile (directory.child logName) = .ok file) (options : Options) :
    ∃ store : KeyValueStore V, Succeeds (openWith directory options) s store s ∧
      store.Shows s.disk entries [] := by
  have hcontent := h.content (at?_of_openFile h.wellFormed hopen)
  have hscan := succeeds_scanLog (V := V) options h.fits hopen hcontent
  refine ⟨ofScan directory options file (scan (logBytes entries)), ?_, shows_ofScan h.fits hcontent⟩
  rw [openWith_eq]
  split
  · exact hscan
  · refine succeeds_bind.mpr ⟨(), s, ?_, hscan⟩
    exact Action.succeeds_onDisk.mpr ⟨s.disk, prepare_of_openFile h.wellFormed hopen, rfl⟩

/-! ## Opening any log -/

variable {store : KeyValueStore V}

/-- A store that was opened on a log shows the complete entries of the log. -/
theorem exists_shows_ofScan (directory : Path) (options : Options) (file : Nat) (fs : FileSystem) :
    ∃ entries rest, (ofScan directory options file (scan (fs.content file)) : KeyValueStore V).Shows
      fs entries rest := by
  obtain ⟨entries, rest, ending, hfits, hcontent, hscan⟩ := exists_scanFrom_eq 0 (fs.content file)
  rw [Nat.zero_add] at hscan
  refine ⟨entries, rest, hfits, hcontent, ?_, ?_⟩
  · exact congrArg Scan.stop hscan
  · exact congrArg (fun found => History.toMap found.entries) hscan

/-- Opening for reading leaves the disk as it is. -/
theorem scanLog_readOnly (hoptions : options.readOnly = true)
    (h : Succeeds (scanLog directory options : Action (KeyValueStore V)) s store t) :
    t.disk = s.disk ∧ ∃ file, s.disk.openFile (directory.child logName) = .ok file ∧
      store = ofScan directory options file (scan (s.disk.content file)) := by
  simp only [scanLog, recover, hoptions, if_true, succeeds_bind, Action.succeeds_onDisk,
    DiskM.succeeds_inspect, Action.succeeds_disk, succeeds_ite, Action.succeeds_log,
    succeeds_pure] at h
  obtain ⟨file, _, ⟨_, ⟨hopen, rfl⟩, rfl⟩, _, _, ⟨rfl, rfl⟩, _, _, hrecover, rfl, rfl⟩ := h
  refine ⟨?_, file, hopen, rfl⟩
  rcases hrecover with ⟨_, _, _, rfl, rfl⟩ | ⟨_, _, rfl⟩ <;> rfl

/-- A log that can be opened can be read. -/
theorem scanLog_readOnly_not_fails (hoptions : options.readOnly = true) {file : Nat}
    (hopen : s.disk.openFile (directory.child logName) = .ok file) {e : Error} :
    ¬Fails (scanLog directory options : Action (KeyValueStore V)) s e t := by
  intro h
  simp only [scanLog, recover, hoptions, if_true, fails_bind, Action.fails_onDisk,
    DiskM.fails_inspect, Action.succeeds_onDisk, DiskM.succeeds_inspect, Action.fails_disk,
    fails_ite, Action.fails_log, fails_pure, and_false, exists_false, or_false, or_self] at h
  obtain ⟨_, _, ⟨hcause, _⟩, _⟩ := h
  cases hopen.symm.trans hcause

theorem options_of_openWith
    (h : Succeeds (openWith directory options : Action (KeyValueStore V)) s store t) :
    store.options = options := by
  have hscan : ∀ u, Succeeds (scanLog directory options : Action (KeyValueStore V)) u store t →
      store.options = options := by
    intro u h
    simp only [scanLog, succeeds_bind, succeeds_pure] at h
    obtain ⟨_, _, _, _, _, _, _, _, _, rfl, _⟩ := h
    rfl
  rw [openWith_eq] at h
  split at h
  · exact hscan s h
  · obtain ⟨_, u, _, h⟩ := succeeds_bind.mp h
    exact hscan u h

/-- Opening for writing cuts the log off behind its complete entries. -/
theorem scanLog_writable (hoptions : options.readOnly = false)
    (h : Succeeds (scanLog directory options : Action (KeyValueStore V)) s store t) :
    ∃ file, s.disk.openFile (directory.child logName) = .ok file ∧
      store = ofScan directory options file (scan (s.disk.content file)) ∧
      t.disk.root = s.disk.root ∧ t.disk.files.size = s.disk.files.size ∧
      ∀ {entries rest}, file < s.disk.files.size → store.Shows s.disk entries rest →
        store.Shows t.disk entries [] := by
  simp only [scanLog, recover, FileSystem.hold_eq, Content.bytes_resize, FileSystem.bytes_held,
    hoptions, Bool.false_eq_true, if_false, succeeds_bind, Action.succeeds_onDisk,
    DiskM.succeeds_inspect, DiskM.succeeds_change, Action.succeeds_disk, succeeds_ite,
    Action.succeeds_log, succeeds_pure] at h
  obtain ⟨file, _, ⟨_, ⟨hopen, rfl⟩, rfl⟩, _, _, ⟨rfl, rfl⟩, _, _, hrecover, rfl, rfl⟩ := h
  refine ⟨file, hopen, rfl, ?_⟩
  rcases hrecover with ⟨_, _, _, rfl, _, _, ⟨_, hcut, rfl⟩, rfl⟩ | ⟨hwhole, _, rfl⟩
  · cases hcut
    refine ⟨rfl, FileSystem.size_files_setContent _ _, fun {entries rest} hfile hshows => ?_⟩
    refine hshows.of_content ?_
    have hstop : (scan (s.disk.content file)).stop = (logBytes entries).length := hshows.length
    have hcontent : s.disk.content file = logBytes entries ++ rest := hshows.content
    have hcut : (s.disk.setContent file
        ((s.disk.content file).resize (scan (s.disk.content file)).stop)).content file =
          logBytes entries ++ [] := by
      rw [FileSystem.content_setContent_self hfile, hstop, hcontent, Bytes.resize, List.take_left]
      simp
    exact hcut
  · refine ⟨rfl, rfl, fun {entries rest} _ hshows => ?_⟩
    refine hshows.of_content ?_
    have hstop : (scan (s.disk.content file)).stop = (logBytes entries).length := hshows.length
    have hcontent : s.disk.content file = logBytes entries ++ rest := hshows.content
    have hrest : rest = [] := by
      rw [hstop, hcontent, List.length_append] at hwhole
      exact List.length_eq_zero_iff.mp (by omega)
    rw [hrest] at hcontent
    exact hcontent

/-- A store that was opened has its log where it can be opened. -/
theorem openFile_of_openWith
    (h : Succeeds (openWith directory options : Action (KeyValueStore V)) s store t) :
    t.disk.openFile (directory.child logName) = .ok store.file := by
  have hscan : ∀ u, Succeeds (scanLog directory options : Action (KeyValueStore V)) u store t →
      t.disk.openFile (directory.child logName) = .ok store.file := by
    intro u h
    cases hreadOnly : options.readOnly with
    | true =>
      obtain ⟨hdisk, file, hopen, rfl⟩ := scanLog_readOnly hreadOnly h
      rw [hdisk]
      exact hopen
    | false =>
      obtain ⟨file, hopen, rfl, hroot, _⟩ := scanLog_writable hreadOnly h
      rw [openFile_of_root_eq hroot]
      exact hopen
  rw [openWith_eq] at h
  split at h
  · exact hscan s h
  · obtain ⟨_, u, _, h⟩ := succeeds_bind.mp h
    exact hscan u h

/-- A log that was prepared is the one that stood there, or a new one without entries. -/
theorem prepare_spec (hfs : fs.WellFormed) {u : Unit}
    (h : Succeeds (prepare directory) fs u fs') :
    fs'.WellFormed ∧ ∃ id, fs'.at? (directory.child logName).place = some (.file id) ∧
      (fs.at? (directory.child logName).place = none ∧ fs'.content id = [] ∨
        fs.at? (directory.child logName).place = some (.file id) ∧
          fs'.content id = fs.content id) := by
  rw [prepare, succeeds_bind] at h
  obtain ⟨_, made, hmake, hcreate⟩ := h
  rw [DiskM.succeeds_change] at hcreate
  obtain ⟨hmade, hfiles, hadds⟩ := DiskM.makeDirectories_spec hfs hmake
  cases hcreated : made.openOrCreate (directory.child logName) with
  | error cause =>
    rw [hcreated] at hcreate
    cases hcreate
  | ok result =>
    obtain ⟨id, last⟩ := result
    rw [hcreated] at hcreate
    cases hcreate
    obtain ⟨hlast, hat, _⟩ := openOrCreate_spec hmade hcreated
    refine ⟨hlast, id, by rw [hat, if_pos rfl], ?_⟩
    -- a directory that is new is no log, so a log that is found was there before
    rcases openOrCreate_eq_ok hmade hcreated with ⟨hold, rfl⟩ | ⟨hnone, rfl, _, hpush⟩
    · rcases hadds (directory.child logName).place with hsame | ⟨_, hdir⟩
      · refine .inr ⟨hsame.symm.trans hold, ?_⟩
        rw [FileSystem.content, hfiles]
        rfl
      · cases hdir.symm.trans hold
    · refine .inl ⟨?_, by rw [FileSystem.content, hpush]; simp⟩
      rcases hadds (directory.child logName).place with hsame | ⟨hbefore, _⟩
      · exact hsame.symm.trans hnone
      · exact hbefore

/-- What a store is that was opened for writing: its log is the one that stood there, cut off
behind its complete entries, or a new one. -/
theorem openWith_writable (hoptions : options.readOnly = false) (hs : s.disk.WellFormed)
    (h : Succeeds (openWith directory options : Action (KeyValueStore V)) s store t) :
    t.disk.WellFormed ∧
      t.disk.at? (directory.child logName).place = some (.file store.file) ∧
      ∃ entries, store.Shows t.disk entries [] ∧
        (s.disk.at? (directory.child logName).place = none ∧ entries = [] ∨
          s.disk.at? (directory.child logName).place = some (.file store.file) ∧
            store = ofScan directory options store.file (scan (s.disk.content store.file)) ∧
            ∃ rest, store.Shows s.disk entries rest) := by
  rw [openWith_eq, hoptions, if_neg (by simp), succeeds_bind] at h
  obtain ⟨_, mid, hprepare, hscan⟩ := h
  rw [Action.succeeds_onDisk] at hprepare
  obtain ⟨fs, hprepare, rfl⟩ := hprepare
  obtain ⟨hfs, id, hat, hlog⟩ := prepare_spec hs hprepare
  obtain ⟨file, hopen, hstore, hroot, hsize, hkeep⟩ := scanLog_writable hoptions hscan
  have hid : file = id := by
    cases (at?_of_openFile hfs hopen).symm.trans hat
    rfl
  subst hid
  have hfile : store.file = file := by
    rw [hstore]
    rfl
  have hlt := hfs.allocated hat
  obtain ⟨entries, rest, hshows⟩ := exists_shows_ofScan (V := V) directory options file fs
  change store = ofScan directory options file (scan (fs.content file)) at hstore
  rw [← hstore] at hshows
  refine ⟨hfs.of_root_eq hroot hsize, ?_, ?_⟩
  · rw [hfile, FileSystem.at?, hroot]
    exact hat
  rcases hlog with ⟨hnone, hempty⟩ | ⟨hold, hcontent⟩
  · have hnew : (ofScan directory options file (scan (logBytes [])) : KeyValueStore V).Shows fs []
        [] := shows_ofScan (by simp) hempty
    rw [hempty] at hstore
    rw [logBytes_nil, ← hstore] at hnew
    exact ⟨[], hkeep hlt hnew, .inl ⟨hnone, rfl⟩⟩
  · refine ⟨entries, hkeep hlt hshows, .inr ⟨?_, ?_, rest, hshows.of_content ?_⟩⟩
    · rw [hfile]
      exact hold
    · rw [hfile, ← hcontent]
      exact hstore
    · rw [hfile, ← hcontent, ← hfile]
      exact hshows.content

end Relatedness.KeyValueStore
