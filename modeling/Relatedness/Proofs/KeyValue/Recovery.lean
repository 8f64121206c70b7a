import Relatedness.Proofs.KeyValue.Runs

/-! What is left of a log that was cut off anywhere. A piece of an entry is no entry, so a scan of
the first bytes of a log finds the entries that are wholly there and stops. Opening for writing
cuts the piece off, so what is put later stands right behind the entries that were found, and a
store that is opened again, however often, is one that never held anything else. -/

namespace Relatedness.KeyValue

/-! ## Cut logs -/

/-- Entries that begin with the same bytes are as long as each other. -/
theorem LogEntry.length_eq_of_prefix {e e' : LogEntry} (h : e.Fits) (h' : e'.Fits)
    (hpre : e'.bytes <+: e.bytes) : e'.length = e.length := by
  obtain ⟨rest, hrest⟩ := hpre
  rw [LogEntry.bytes_eq, LogEntry.bytes_eq, List.append_assoc] at hrest
  have hheader := (List.append_inj hrest (by rw [length_header, length_header])).1
  have hlengths := (ofHeader_header h').symm.trans ((congrArg _ hheader).trans (ofHeader_header h))
  obtain ⟨hkey, hvalue⟩ := Lengths.mk.inj hlengths
  rw [LogEntry.length, LogEntry.length, hkey, hvalue]

/-- A scan of a piece of an entry finds nothing. -/
theorem scanFrom_piece {e : LogEntry} (h : e.Fits) {n : Nat} (hn : n < e.length) (offset : Nat) :
    ∃ ending, scanFrom offset (e.bytes.take n) = ⟨[], offset, ending⟩ := by
  rcases scanFrom_cases offset (e.bytes.take n) with hstop | ⟨e', rest, h', heq⟩
  · exact hstop
  · have hpre : e'.bytes <+: e.bytes.take n := ⟨rest, heq.symm⟩
    have hlength := LogEntry.length_eq_of_prefix h h' (hpre.trans (List.take_prefix n e.bytes))
    have hle := hpre.length_le
    rw [LogEntry.length_bytes, List.length_take] at hle
    omega

/-- The number of entries that lie wholly within the first bytes of their log. -/
def wholeEntries : List LogEntry → Nat → Nat
  | [], _ => 0
  | e :: rest, cut => if e.length ≤ cut then wholeEntries rest (cut - e.length) + 1 else 0

theorem length_logBytes_cons (e : LogEntry) (rest : List LogEntry) :
    (logBytes (e :: rest)).length = e.length + (logBytes rest).length := by
  rw [logBytes_cons, List.length_append, LogEntry.length_bytes]

/-- They lie within, and no larger number does. -/
theorem wholeEntries_spec (entries : List LogEntry) (cut : Nat) :
    wholeEntries entries cut ≤ entries.length ∧
      (logBytes (entries.take (wholeEntries entries cut))).length ≤ cut ∧
      ∀ n ≤ entries.length, (logBytes (entries.take n)).length ≤ cut →
        n ≤ wholeEntries entries cut := by
  induction entries generalizing cut with
  | nil => simp [wholeEntries]
  | cons e rest ih =>
    rw [wholeEntries]
    split
    · rename_i hfits
      obtain ⟨hle, hlength, hmost⟩ := ih (cut - e.length)
      refine ⟨Nat.succ_le_succ hle, ?_, fun n hn hcut => ?_⟩
      · rw [List.take_succ_cons, length_logBytes_cons]
        omega
      · cases n with
        | zero => exact Nat.zero_le _
        | succ n =>
          rw [List.take_succ_cons, length_logBytes_cons] at hcut
          exact Nat.succ_le_succ (hmost n (Nat.le_of_succ_le_succ hn) (by omega))
    · rename_i hfits
      refine ⟨Nat.zero_le _, by simp, fun n hn hcut => ?_⟩
      cases n with
      | zero => exact Nat.le_refl 0
      | succ n =>
        rw [List.take_succ_cons, length_logBytes_cons] at hcut
        omega

/-- A log that was cut off is a row of whole entries, and a scan of the rest finds nothing. -/
theorem take_logBytes {entries : List LogEntry} (h : ∀ e ∈ entries, e.Fits) (cut : Nat) :
    ∃ piece, (logBytes entries).take cut =
        logBytes (entries.take (wholeEntries entries cut)) ++ piece ∧
      ∀ offset, ∃ ending, scanFrom offset piece = ⟨[], offset, ending⟩ := by
  induction entries generalizing cut with
  | nil => exact ⟨[], by simp [wholeEntries], fun offset => ⟨_, scanFrom_nil offset⟩⟩
  | cons e rest ih =>
    rw [wholeEntries]
    split
    · rename_i hfits
      obtain ⟨piece, hpiece, hscan⟩ :=
        ih (fun e' he' => h e' (List.mem_cons_of_mem e he')) (cut - e.length)
      refine ⟨piece, ?_, hscan⟩
      have htake : e.bytes.take cut = e.bytes :=
        List.take_of_length_le (by rw [LogEntry.length_bytes]; exact hfits)
      rw [List.take_succ_cons, logBytes_cons, logBytes_cons, List.take_append, htake,
        LogEntry.length_bytes, hpiece, List.append_assoc]
    · rename_i hfits
      refine ⟨e.bytes.take cut, ?_, scanFrom_piece (h e List.mem_cons_self) (by omega)⟩
      rw [List.take_zero, logBytes_nil, List.nil_append, logBytes_cons, List.take_append]
      have hnone : cut - e.bytes.length = 0 := by
        rw [LogEntry.length_bytes]
        omega
      rw [hnone, List.take_zero, List.append_nil]

/-- A scan of a log that was cut off finds the whole entries. -/
theorem scan_take_logBytes {entries : List LogEntry} (h : ∀ e ∈ entries, e.Fits) (cut : Nat) :
    ∃ piece ending, (logBytes entries).take cut =
        logBytes (entries.take (wholeEntries entries cut)) ++ piece ∧
      scan ((logBytes entries).take cut) =
        ⟨offsets 0 (entries.take (wholeEntries entries cut)),
          (logBytes (entries.take (wholeEntries entries cut))).length, ending⟩ := by
  obtain ⟨piece, hpiece, hscan⟩ := take_logBytes h cut
  obtain ⟨ending, hending⟩ :=
    hscan (0 + (logBytes (entries.take (wholeEntries entries cut))).length)
  refine ⟨piece, ending, hpiece, ?_⟩
  rw [hpiece, scan, scanFrom_logBytes (fun e he => h e (List.mem_of_mem_take he)), hending,
    Scan.behind, List.append_nil, Nat.zero_add]

end Relatedness.KeyValue

namespace Relatedness.KeyValueStore

open KeyValue FileSystem

variable {V : Type}

/-! ## What was put -/

section Records

variable [Storable V]

/-- What a value is once it was written and read back. -/
def reread (value : V) : Except Error V := decoded (Storable.encode value)

/-- These entries were written by these puts. -/
def Records (entries : List LogEntry) (puts : List (String × V)) : Prop :=
  assignments entries = puts.map fun p => (p.1, Storable.encode p.2)

theorem Records.append {entries more : List LogEntry} {puts puts' : List (String × V)}
    (h : Records entries puts) (h' : Records more puts') :
    Records (entries ++ more) (puts ++ puts') := by
  unfold Records assignments at *
  rw [List.map_append, List.map_append, h, h']

theorem Records.take {entries : List LogEntry} {puts : List (String × V)}
    (h : Records entries puts) (n : Nat) : Records (entries.take n) (puts.take n) := by
  unfold Records assignments at *
  rw [List.map_take, List.map_take, h]

theorem Shows.answersBy_reread {store : KeyValueStore V} {fs : FileSystem}
    {entries : List LogEntry} {tail : Bytes} {puts : List (String × V)}
    (h : store.Shows fs entries tail) (hrecords : Records entries puts) :
    store.AnswersBy reread fs puts := by
  refine h.answersBy ?_
  unfold Records assignments at hrecords
  rw [← List.forall₂_eq_eq_eq, List.forall₂_map_left_iff, List.forall₂_map_right_iff] at hrecords
  refine hrecords.imp fun e p heq => ?_
  obtain ⟨hkey, hvalue⟩ := Prod.mk.inj heq
  exact ⟨hkey, by rw [hvalue]; rfl⟩

end Records

variable {directory : Path} {options : Options} {s t : Session}

/-! ## Opening what is left -/

theorem recover_not_fails {file size : Nat} {found : Scan} {readOnly : Bool} {e : Error} :
    ¬Fails (recover directory file size found readOnly) s e t := by
  simp [recover, DiskM.fails_change]

/-- A log that can be opened can be scanned, whatever it holds. -/
theorem exists_succeeds_scanLog (options : Options) {file : Nat}
    (hopen : s.disk.openFile (directory.child logName) = .ok file) :
    ∃ t, Succeeds (scanLog directory options : Action (KeyValueStore V)) s
      (ofScan directory options file (scan (s.disk.content file))) t := by
  have hfile : Succeeds (Action.onDisk (DiskM.inspect (·.openFile (directory.child logName)))) s
      file s := Action.succeeds_onDisk.mpr ⟨s.disk, DiskM.succeeds_inspect.mpr ⟨hopen, rfl⟩, rfl⟩
  rcases succeeds_or_fails (recover directory file (s.disk.content file).length
    (scan (s.disk.content file)) options.readOnly) s with ⟨u, t, hrecover⟩ | ⟨e, t, hrecover⟩
  · exact ⟨t, succeeds_bind.mpr ⟨file, s, hfile, succeeds_bind.mpr ⟨s.disk, s,
      Action.succeeds_disk.mpr ⟨rfl, rfl⟩, succeeds_bind.mpr ⟨u, t, hrecover,
        succeeds_pure.mpr ⟨rfl, rfl⟩⟩⟩⟩⟩
  · exact absurd hrecover recover_not_fails

/-- A log that can be opened makes a store, whatever it holds. -/
theorem exists_succeeds_openWith (hs : s.disk.WellFormed) (options : Options) {file : Nat}
    (hopen : s.disk.openFile (directory.child logName) = .ok file) :
    ∃ t, Succeeds (openWith directory options : Action (KeyValueStore V)) s
        (ofScan directory options file (scan (s.disk.content file))) t ∧
      Succeeds (scanLog directory options : Action (KeyValueStore V)) s
        (ofScan directory options file (scan (s.disk.content file))) t := by
  obtain ⟨t, hscan⟩ := exists_succeeds_scanLog (V := V) options hopen
  refine ⟨t, ?_, hscan⟩
  rw [openWith_eq]
  split
  · exact hscan
  · refine succeeds_bind.mpr ⟨(), s, ?_, hscan⟩
    exact Action.succeeds_onDisk.mpr ⟨s.disk, prepare_of_openFile hs hopen, rfl⟩

end Relatedness.KeyValueStore

namespace Relatedness.KeyValue.Machine

open KeyValueStore

variable {V : Type} [Storable V] {directory : Path} {entries : List LogEntry}
  {history : List (String × V)}

/-- Whatever is put from here on, and however often the store is opened again, its log file is
that of a store that held these entries and the new ones only, and it answers as such. -/
def Continues (directory : Path) (file : Nat) (m : Machine V) (entries : List LogEntry)
    (history : List (String × V)) : Prop :=
  ∀ commands, (∀ key value, .put key value ∈ commands →
      (Storable.encode value).length < valueLimit) →
    ∀ last puts, run directory m commands = (last, puts) →
      (∃ new, Records new puts ∧
        last.session.disk.content file = logBytes (entries ++ new)) ∧
      (∀ store, last.handle = some store →
        store.AnswersBy reread last.session.disk (history ++ puts)) ∧
      ∀ options, ∃ store : KeyValueStore V,
        Succeeds (openWith directory options) last.session store last.session ∧
          store.AnswersBy reread last.session.disk (history ++ puts)

theorem Holds.continues {m : Machine V} {file : Nat} (h : m.Holds directory entries)
    (hrecords : Records entries history)
    (hopen : m.session.disk.openFile (directory.child logName) = .ok file) :
    m.Continues directory file entries history := by
  intro commands hvalues last puts hrun
  obtain ⟨new, hnew, hlast⟩ := h.run commands hvalues
  have hroot := h.root_run ⟨file, hopen⟩ commands hvalues
  rw [hrun] at hnew hlast hroot
  have hboth : Records (entries ++ new) (history ++ puts) := hrecords.append hnew
  have hfile : last.session.disk.openFile (directory.child logName) = .ok file := by
    rw [FileSystem.openFile_of_root_eq hroot]
    exact hopen
  refine ⟨⟨new, hnew, ?_⟩, fun store hstore => ?_, fun options => ?_⟩
  · exact hlast.log.content (FileSystem.at?_of_openFile hlast.log.wellFormed hfile)
  · exact (hlast.handle store hstore).1.answersBy_reread hboth
  · obtain ⟨store, hagain, hshows⟩ := openWith_again (V := V) hlast.log hfile options
    exact ⟨store, hagain, hshows.answersBy_reread hboth⟩

/-- A store that is opened on the first bytes of a log. -/
theorem openWith_cut (hfits : ∀ e ∈ entries, e.Fits) (hrecords : Records entries history)
    {cut file : Nat} {left : Session} (hleft : left.disk.WellFormed)
    (hopen : left.disk.openFile (directory.child logName) = .ok file)
    (hcut : left.disk.content file = (logBytes entries).take cut) (options : Options) :
    ∃ (store : KeyValueStore V) (t : Session), Succeeds (openWith directory options) left store t ∧
      store.AnswersBy reread t.disk (history.take (wholeEntries entries cut)) ∧
      if options.readOnly then t.disk = left.disk
      else t.disk.content file = logBytes (entries.take (wholeEntries entries cut)) ∧
        Continues directory file ⟨t, some store⟩ (entries.take (wholeEntries entries cut))
          (history.take (wholeEntries entries cut)) := by
  let found := scan (left.disk.content file)
  have hwhole := hrecords.take (wholeEntries entries cut)
  obtain ⟨piece, ending, hpiece, hscan⟩ := scan_take_logBytes hfits cut
  have hshows : (ofScan directory options file found : KeyValueStore V).Shows left.disk
      (entries.take (wholeEntries entries cut)) piece := by
    refine ⟨fun e he => hfits e (List.mem_of_mem_take he), hcut.trans hpiece, ?_, ?_⟩
    · change found.stop = _
      rw [show found = scan (left.disk.content file) from rfl, hcut, hscan]
    · change History.toMap found.entries = _
      rw [show found = scan (left.disk.content file) from rfl, hcut, hscan]
  obtain ⟨t, hopened, hscanned⟩ := exists_succeeds_openWith (V := V) hleft options hopen
  refine ⟨_, t, hopened, ?_⟩
  cases hreadOnly : options.readOnly with
  | true =>
    obtain ⟨hsame, _⟩ := scanLog_readOnly hreadOnly hscanned
    rw [hsame]
    exact ⟨hshows.answersBy_reread hwhole, rfl⟩
  | false =>
    obtain ⟨opened, hsame, _, hroot, hsize, hkeep⟩ := scanLog_writable hreadOnly hscanned
    obtain rfl : opened = file := Except.ok.inj (hsame.symm.trans hopen)
    have hat := FileSystem.at?_of_openFile hleft hopen
    have hshows' := hkeep (hleft.allocated hat) hshows
    have hcontent : t.disk.content opened =
        logBytes (entries.take (wholeEntries entries cut)) :=
      hshows'.content.trans (List.append_nil _)
    have hopen' : t.disk.openFile (directory.child logName) = .ok opened := by
      rw [FileSystem.openFile_of_root_eq hroot]
      exact hopen
    have hat' : t.disk.at? (directory.child logName).place = some (.file opened) := by
      rw [FileSystem.at?, hroot]
      exact hat
    have hlog : LogAt directory t.disk (entries.take (wholeEntries entries cut)) := by
      refine ⟨hleft.of_root_eq hroot hsize, hshows'.fits, fun {id} hid => ?_, fun _ => ⟨_, hat'⟩⟩
      cases hat'.symm.trans hid
      exact hcontent
    have hholds : Holds directory
        (⟨t, some (ofScan directory options opened found)⟩ : Machine V)
        (entries.take (wholeEntries entries cut)) := by
      refine ⟨hlog, fun store hstore => ?_⟩
      cases hstore
      exact ⟨hshows', hopen'⟩
    exact ⟨hshows'.answersBy_reread hwhole, hcontent, hholds.continues hwhole hopen'⟩

/-- A log that was written by any run and cut off anywhere. The entries that lie wholly within
what is left are recovered: opening for writing leaves the file with exactly them, and from then
on the store is one that never held anything else; opening for reading answers the same and
changes nothing. -/
theorem recovers_of_cut {s : Session} (hs : s.disk.WellFormed)
    (hblank : ∀ id, s.disk.at? (directory.child logName).place = some (.file id) →
      s.disk.content id = [])
    (commands : List (Command V))
    (hvalues : ∀ key value, .put key value ∈ commands →
      (Storable.encode value).length < valueLimit)
    {last : Machine V} (hrun : run directory ⟨s, none⟩ commands = (last, history)) :
    ∃ entries, Records entries history ∧
      (∀ id, last.session.disk.at? (directory.child logName).place = some (.file id) →
        last.session.disk.content id = logBytes entries) ∧
      ∀ (cut file : Nat) (left : Session), left.disk.WellFormed →
        left.disk.openFile (directory.child logName) = .ok file →
        left.disk.content file = (logBytes entries).take cut →
        ∃ whole ≤ entries.length, (logBytes (entries.take whole)).length ≤ cut ∧
          (∀ n ≤ entries.length, (logBytes (entries.take n)).length ≤ cut → n ≤ whole) ∧
          ∀ options, ∃ (store : KeyValueStore V) (t : Session),
            Succeeds (openWith directory options) left store t ∧
            store.AnswersBy reread t.disk (history.take whole) ∧
            if options.readOnly then t.disk = left.disk
            else t.disk.content file = logBytes (entries.take whole) ∧
              Continues directory file ⟨t, some store⟩ (entries.take whole)
                (history.take whole) := by
  have hstart : Holds directory (⟨s, none⟩ : Machine V) [] := .start hs hblank
  obtain ⟨entries, hrecords, hlast⟩ := hstart.run commands hvalues
  rw [hrun] at hrecords hlast
  rw [List.nil_append] at hlast
  refine ⟨entries, hrecords, fun id hid => hlast.log.content hid, ?_⟩
  intro cut file left hleft hopen hcut
  obtain ⟨hle, hwithin, hmost⟩ := wholeEntries_spec entries cut
  exact ⟨wholeEntries entries cut, hle, hwithin, hmost,
    openWith_cut hlast.log.fits hrecords hleft hopen hcut⟩

/-- A store with two entries of 23 bytes each. -/
def twoPuts : List (Command Binary64) := [.reopen {}, .put "a" 1, .put "b" 0]

theorem recovers_of_cut_second :
    ∃ (left : Session) (store : KeyValueStore Binary64) (t : Session),
      (left.disk.content 0).length = 30 ∧ Succeeds (openWith ⟨false, ["kv"]⟩ {}) left store t ∧
      (t.disk.content 0).length = 23 ∧ store.get? t.disk "a" = .ok (some 1) ∧
      store.get? t.disk "b" = .ok none := by
  let last := (run ⟨false, ["kv"]⟩ ⟨⟨.empty 0, []⟩, none⟩ twoPuts).1
  let log := last.session.disk.content 0
  let left : Session := { last.session with disk := last.session.disk.setContent 0 (log.take 30) }
  have hputs : (run ⟨false, ["kv"]⟩ ⟨⟨.empty 0, []⟩, none⟩ twoPuts).2 = [("a", 1), ("b", 0)] := by
    decide +kernel
  have hblank : ∀ id, (FileSystem.empty 0).content id = [] :=
    fun id => FileSystem.content_of_size_le (Nat.zero_le id)
  have hvalues : ∀ key value, .put key value ∈ twoPuts →
      (Storable.encode value).length < valueLimit := by
    intro key value hmem
    simp only [twoPuts, List.mem_cons, Command.put.injEq, reduceCtorEq, List.not_mem_nil, false_or,
      or_false] at hmem
    rcases hmem with ⟨-, rfl⟩ | ⟨-, rfl⟩ <;> decide +kernel
  have hstart : Holds ⟨false, ["kv"]⟩ (⟨⟨.empty 0, []⟩, none⟩ : Machine Binary64) [] :=
    .start (FileSystem.WellFormed.empty 0) fun id _ => hblank id
  obtain ⟨_, _, hlast⟩ := hstart.run twoPuts hvalues
  have hlt : 0 < last.session.disk.files.size := by decide +kernel
  have hcontent : left.disk.content 0 = log.take 30 :=
    FileSystem.content_setContent_self hlt _
  have hrun : run ⟨false, ["kv"]⟩ ⟨⟨.empty 0, []⟩, none⟩ twoPuts = (last, [("a", 1), ("b", 0)]) :=
    Prod.ext rfl hputs
  obtain ⟨entries, hrecords, hlog, hrecovers⟩ := recovers_of_cut (FileSystem.WellFormed.empty 0)
    (fun id _ => hblank id) twoPuts hvalues hrun
  have hbytes : log = logBytes entries := hlog 0 (by decide +kernel)
  obtain ⟨whole, hle, hwithin, hmost, hopen⟩ := hrecovers 30 0 left
    (hlast.log.wellFormed.setContent _ _) (by decide +kernel) (hbytes ▸ hcontent)
  obtain ⟨first, _, rfl, hfirst, hrest⟩ := List.map_eq_cons_iff.mp hrecords
  obtain ⟨second, _, rfl, hsecond, hnil⟩ := List.map_eq_cons_iff.mp hrest
  obtain rfl := List.map_eq_nil_iff.mp hnil
  have hlength : ∀ (e : LogEntry) (key : String) (value : Binary64),
      (e.key, e.value) = (key, Storable.encode value) → key.utf8ByteSize = 1 → e.length = 23 := by
    intro e key value heq hkey
    obtain ⟨rfl, hvalue⟩ := Prod.mk.inj heq
    rw [LogEntry.length, hkey, hvalue]
    rfl
  have hfirst := hlength first "a" 1 hfirst (by decide)
  have hsecond := hlength second "b" 0 hsecond (by decide)
  have hone : whole = 1 := by
    have hsome := hmost 1 (by simp) (by simp [length_logBytes_cons, hfirst])
    rcases Nat.lt_or_ge whole 2 with hlt | hge
    · omega
    · have htwo : whole = 2 := Nat.le_antisymm hle hge
      simp [htwo, length_logBytes_cons, hfirst, hsecond] at hwithin
  subst hone
  obtain ⟨store, t, hopened, hanswers, hfile, _⟩ := hopen {}
  refine ⟨left, store, t, ?_, hopened, ?_, ?_, ?_⟩
  · rw [hcontent]
    decide +kernel
  · rw [hfile]
    simp [length_logBytes_cons, hfirst]
  · rw [hanswers.get]
    rfl
  · rw [hanswers.get]
    rfl

end Relatedness.KeyValue.Machine
