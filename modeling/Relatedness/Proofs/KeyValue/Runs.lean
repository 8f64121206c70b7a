import Relatedness.Proofs.Codec.Decoder
import Relatedness.Proofs.KeyValue.Opening

/-! Whole runs of a store, from its first opening on. Commands open, write, flush and close the
store of one directory, with one handle at a time; queries only read and are asked of any state
in between. What a run has put is its history, and every answer is that of the history, however
often the store was closed and opened again. -/

namespace Relatedness.KeyValue

open KeyValueStore

variable {V : Type} [Storable V]

/-- A value that is read back from its encoding, which is not too long. -/
structure Readable (value : V) : Prop where
  length_lt : (Storable.encode value).length < valueLimit
  decode_encode : Storable.decoder.decode (Storable.encode value) = .ok value

theorem readable_binary64 (x : Binary64) : Readable x := by
  refine ⟨?_, ?_⟩
  · rw [Storable.length_encode]
    exact (by decide : 8 < valueLimit)
  · have hdecode := (Decoder.takes_binary64 x).decode []
    rwa [List.append_nil] at hdecode

theorem Readable.decoded_encode {value : V} (h : Readable value) :
    (decoded (Storable.encode value) : Except Error V) = .ok value := by
  rw [decoded, h.decode_encode]
  rfl

inductive Command (V : Type) where
  /-- Opens the store, in place of the handle that is open. -/
  | reopen (options : Options)
  | put (key : String) (value : V)
  /-- Asks for written bytes to be kept, where they already are. -/
  | sync
  | close

/-- The disk and the open handle. -/
structure Machine (V : Type) where
  session : Session
  handle : Option (KeyValueStore V)

namespace Machine

/-- Runs a command. Beside the new state it gives the put that succeeded, if it was one. -/
def step (directory : Path) (m : Machine V) : Command V → Machine V × List (String × V)
  | .reopen options => match outcome (openWith directory options) m.session with
    | (.ok store, s) => (⟨s, some store⟩, [])
    | (.error _, s) => (⟨s, none⟩, [])
  | .put key value => match m.handle with
    | none => (m, [])
    | some store => match outcome (store.put key value) m.session with
      | (.ok store, s) => (⟨s, some store⟩, [(key, value)])
      | (.error _, s) => (⟨s, some store⟩, [])
  | .sync => (m, [])
  | .close => ({ m with handle := none }, [])

/-- Runs commands one after the other and collects the puts that succeeded. -/
def run (directory : Path) (m : Machine V) : List (Command V) → Machine V × List (String × V)
  | [] => (m, [])
  | c :: rest =>
    let (next, puts) := m.step directory c
    let (last, more) := next.run directory rest
    (last, puts ++ more)

/-- The log holds these entries, and an open handle shows them. -/
structure Holds (directory : Path) (m : Machine V) (entries : List LogEntry) : Prop where
  log : LogAt directory m.session.disk entries
  handle : ∀ store, m.handle = some store → store.Shows m.session.disk entries [] ∧
    m.session.disk.openFile (directory.child logName) = .ok store.file

/-- The log holds the history, and an open handle shows it. -/
def Follows (directory : Path) (m : Machine V) (history : List (String × V)) : Prop :=
  ∃ entries, Tells entries history ∧ LogAt directory m.session.disk entries ∧
    ∀ store, m.handle = some store → store.Shows m.session.disk entries [] ∧
      m.session.disk.openFile (directory.child logName) = .ok store.file

variable {directory : Path} {m : Machine V} {history : List (String × V)}
  {entries : List LogEntry}

/-! ## Entries that are written -/

omit [Storable V] in
/-- A store that is absent or empty holds no entries. -/
theorem Holds.start {s : Session} (hs : s.disk.WellFormed)
    (hblank : ∀ id, s.disk.at? (directory.child logName).place = some (.file id) →
      s.disk.content id = []) : Holds directory (⟨s, none⟩ : Machine V) [] :=
  ⟨⟨hs, by simp, fun hid => hblank _ hid, by simp⟩, by simp⟩

theorem Holds.put (h : m.Holds directory entries) {store store' : KeyValueStore V}
    (hstore : m.handle = some store) {key : String} {value : V}
    (hvalue : (Storable.encode value).length < valueLimit) {s : Session}
    (hput : Succeeds (store.put key value) m.session store' s) :
    Holds directory ⟨s, some store'⟩ (entries ++ [entryOf m.session key value]) := by
  obtain ⟨hlog, hhandle⟩ := h
  obtain ⟨hshows, hopen⟩ := hhandle store hstore
  have hat := FileSystem.at?_of_openFile hlog.wellFormed hopen
  have hshows' := hshows.put (hlog.wellFormed.allocated hat) hvalue hput
  obtain ⟨_, _, _, rfl, rfl⟩ := put_accepted hput
  refine ⟨⟨?_, hshows'.fits, ?_, ?_⟩, ?_⟩
  · exact hlog.wellFormed.setContent _ _
  · intro id hid
    have heq : store.file = id := by
      have := hat.symm.trans hid
      simpa using this
    rw [← heq]
    have hcontent := hshows'.content
    rwa [List.append_nil] at hcontent
  · exact fun _ => ⟨store.file, hat⟩
  · intro open' hopen'
    cases hopen'
    exact ⟨hshows', hopen⟩

/-- A command writes the put that succeeded, if it is one, and nothing else. -/
theorem Holds.step (h : m.Holds directory entries) (c : Command V)
    (hc : ∀ key value, c = .put key value → (Storable.encode value).length < valueLimit) :
    ∃ new, assignments new = (m.step directory c).2.map (fun p => (p.1, Storable.encode p.2)) ∧
      (m.step directory c).1.Holds directory (entries ++ new) := by
  cases c with
  | reopen options =>
    refine ⟨[], ?_⟩
    rw [List.append_nil, Machine.step]
    rcases openWith_spec (V := V) h.log options with
      ⟨store, t, hopen, hlog, hshows, hfile, _⟩ | ⟨e, t, hopen, hlog⟩
    · rw [show outcome _ m.session = _ from hopen]
      refine ⟨rfl, hlog, ?_⟩
      intro open' hopen'
      cases hopen'
      exact ⟨hshows, hfile⟩
    · rw [show outcome _ m.session = _ from hopen]
      exact ⟨rfl, hlog, by simp⟩
  | put key value =>
    rw [Machine.step]
    cases hstore : m.handle with
    | none => exact ⟨[], rfl, by rwa [List.append_nil]⟩
    | some store =>
      simp only
      rcases succeeds_or_fails (store.put key value) m.session with ⟨store', s, hput⟩ | ⟨e, s, hput⟩
      · rw [show outcome _ m.session = _ from hput]
        exact ⟨_, rfl, h.put hstore (hc key value rfl) hput⟩
      · obtain ⟨hsame, _⟩ := put_refused hput
        rw [show outcome _ m.session = _ from hput, hsame, ← hstore]
        exact ⟨[], rfl, by rwa [List.append_nil]⟩
  | sync => exact ⟨[], rfl, by rwa [List.append_nil]⟩
  | close => exact ⟨[], rfl, by rw [List.append_nil]; exact ⟨h.log, by simp [Machine.step]⟩⟩

/-- A run writes the puts that succeeded, one after the other. -/
theorem Holds.run (h : m.Holds directory entries) (commands : List (Command V))
    (hvalues : ∀ key value, .put key value ∈ commands →
      (Storable.encode value).length < valueLimit) :
    ∃ new, assignments new =
        (m.run directory commands).2.map (fun p => (p.1, Storable.encode p.2)) ∧
      (m.run directory commands).1.Holds directory (entries ++ new) := by
  induction commands generalizing m entries with
  | nil => exact ⟨[], rfl, by rwa [List.append_nil]⟩
  | cons c rest ih =>
    obtain ⟨first, hfirst, hstep⟩ := h.step c fun key value heq => hvalues key value (by simp [heq])
    obtain ⟨more, hmore, hrest⟩ :=
      ih hstep fun key value hmem => hvalues key value (List.mem_cons_of_mem _ hmem)
    refine ⟨first ++ more, ?_, ?_⟩
    · rw [assignments, List.map_append, ← assignments, ← assignments, hfirst, hmore]
      exact List.map_append.symm
    · rw [← List.append_assoc]
      exact hrest

/-- Only what was to be put is put. -/
theorem mem_commands_of_mem_run {commands : List (Command V)} {p : String × V}
    (h : p ∈ (m.run directory commands).2) : .put p.1 p.2 ∈ commands := by
  induction commands generalizing m with
  | nil => exact absurd h (by simp [Machine.run])
  | cons c rest ih =>
    rcases List.mem_append.mp h with hfirst | hmore
    · refine List.mem_cons.mpr (.inl ?_)
      cases c with
      | reopen options =>
        simp only at hfirst
        split at hfirst <;> cases hfirst
      | put key value =>
        simp only at hfirst
        split at hfirst
        · cases hfirst
        · split at hfirst
          · rw [List.mem_singleton.mp hfirst]
          · cases hfirst
      | sync => cases hfirst
      | close => cases hfirst
    · exact List.mem_cons_of_mem c (ih hmore)

/-! ## The history of a run -/

/-- Entries that were written for values which are read back tell these values. -/
theorem tells_of_assignments (hwritten : assignments entries =
      history.map fun p => (p.1, Storable.encode p.2))
    (hread : ∀ p ∈ history, Storable.decoder.decode (Storable.encode p.2) = .ok p.2) :
    Tells entries history := by
  have hboth : List.Forall₂ (fun e p => e.key = p.1 ∧ e.value = Storable.encode p.2) entries
      history := by
    rw [assignments, ← List.forall₂_eq_eq_eq, List.forall₂_map_left_iff,
      List.forall₂_map_right_iff] at hwritten
    exact hwritten.imp fun _ _ heq => Prod.mk.inj heq
  refine List.forall₂_iff_get.mpr ⟨hboth.length_eq, fun i hi hj => ?_⟩
  obtain ⟨hkey, hvalue⟩ := (List.forall₂_iff_get.mp hboth).2 i hi hj
  exact ⟨hkey, by rw [hvalue]; exact hread _ (List.get_mem history ⟨i, hj⟩)⟩

/-- A store that is absent or empty follows the empty history. -/
theorem Follows.start {s : Session} (hs : s.disk.WellFormed)
    (hblank : ∀ id, s.disk.at? (directory.child logName).place = some (.file id) →
      s.disk.content id = []) : Follows directory (⟨s, none⟩ : Machine V) [] :=
  have h : Holds directory (⟨s, none⟩ : Machine V) [] := .start hs hblank
  ⟨[], .nil, h.log, h.handle⟩

theorem Follows.answers (h : m.Follows directory history) {store : KeyValueStore V}
    (hstore : m.handle = some store) : store.Answers m.session.disk history := by
  obtain ⟨entries, htells, _, hhandle⟩ := h
  exact (hhandle store hstore).1.answers htells

/-- A run keeps to the history of its puts. -/
theorem Follows.run (h : m.Follows directory history) (commands : List (Command V))
    (hvalues : ∀ key value, .put key value ∈ commands → Readable value) :
    (m.run directory commands).1.Follows directory (history ++ (m.run directory commands).2) := by
  obtain ⟨entries, htells, hlog, hhandle⟩ := h
  have hholds : m.Holds directory entries := ⟨hlog, hhandle⟩
  obtain ⟨new, hnew, hlast⟩ :=
    hholds.run commands fun key value hmem => (hvalues key value hmem).length_lt
  refine ⟨entries ++ new, List.rel_append htells (tells_of_assignments hnew fun p hp => ?_),
    hlast.log, hlast.handle⟩
  exact (hvalues p.1 p.2 (mem_commands_of_mem_run hp)).decode_encode

/-! ## Opening again -/

/-- The log can be opened. -/
def Standing (directory : Path) (m : Machine V) : Prop :=
  ∃ file, m.session.disk.openFile (directory.child logName) = .ok file

/-- While the log can be opened, no command makes, moves or removes anything. -/
theorem Holds.root_step (hm : m.Holds directory entries) (h : m.Standing directory)
    (c : Command V) : (m.step directory c).1.session.disk.root = m.session.disk.root := by
  cases c with
  | reopen options =>
    obtain ⟨file, hfile⟩ := h
    obtain ⟨store, hopen, _⟩ := openWith_again (V := V) hm.log hfile options
    rw [Machine.step, show outcome _ m.session = _ from hopen]
  | put key value =>
    rw [Machine.step]
    cases m.handle with
    | none => rfl
    | some store =>
      simp only
      rcases succeeds_or_fails (store.put key value) m.session with ⟨store', s, hput⟩ | ⟨e, s, hput⟩
      · obtain ⟨_, _, _, _, rfl⟩ := put_accepted hput
        rw [show outcome _ m.session = _ from hput]
        rfl
      · obtain ⟨rfl, _⟩ := put_refused hput
        rw [show outcome _ m.session = _ from hput]
  | sync => rfl
  | close => rfl

omit [Storable V] in
theorem Standing.of_root_eq {m' : Machine V} (h : m.Standing directory)
    (hroot : m'.session.disk.root = m.session.disk.root) : m'.Standing directory := by
  obtain ⟨file, hfile⟩ := h
  exact ⟨file, by rw [FileSystem.openFile_of_root_eq hroot]; exact hfile⟩

/-- A log that can be opened stays so, also while the store is closed. -/
theorem Holds.root_run (hm : m.Holds directory entries) (h : m.Standing directory)
    (commands : List (Command V))
    (hvalues : ∀ key value, .put key value ∈ commands →
      (Storable.encode value).length < valueLimit) :
    (m.run directory commands).1.session.disk.root = m.session.disk.root := by
  induction commands generalizing m entries with
  | nil => rfl
  | cons c rest ih =>
    obtain ⟨new, _, hstep⟩ := hm.step c fun key value heq => hvalues key value (by simp [heq])
    have hroot := hm.root_step h c
    exact (ih hstep (h.of_root_eq hroot) fun key value hmem =>
      hvalues key value (List.mem_cons_of_mem _ hmem)).trans hroot

theorem Standing.run (hm : m.Follows directory history) (h : m.Standing directory)
    (commands : List (Command V))
    (hvalues : ∀ key value, .put key value ∈ commands → Readable value) :
    (m.run directory commands).1.Standing directory := by
  obtain ⟨entries, _, hlog, hhandle⟩ := hm
  have hholds : m.Holds directory entries := ⟨hlog, hhandle⟩
  exact h.of_root_eq (hholds.root_run h commands fun key value hmem =>
    (hvalues key value hmem).length_lt)

theorem run_append (m : Machine V) (before after : List (Command V)) :
    (m.run directory (before ++ after)).1 = ((m.run directory before).1.run directory after).1 := by
  induction before generalizing m with
  | nil => rfl
  | cons c rest ih => exact ih _

/-- A store that starts absent or empty answers from the history of its puts alone. A refused put
changes nothing. Once the store was open, it can always be opened again, for writing or for
reading, and answers the same. -/
theorem answers_of_run {s : Session} (hs : s.disk.WellFormed)
    (hblank : ∀ id, s.disk.at? (directory.child logName).place = some (.file id) →
      s.disk.content id = [])
    (commands : List (Command V))
    (hvalues : ∀ key value, .put key value ∈ commands → Readable value)
    {last : Machine V} (hrun : run directory ⟨s, none⟩ commands = (last, history)) :
    (∀ store, last.handle = some store → store.Answers last.session.disk history ∧
      ∀ key value e t, Fails (store.put key value) last.session e t → t = last.session ∧
        (e = .readOnly store.directory ∨ e = .emptyKey ∨ e = .keyTooLong key.utf8ByteSize)) ∧
    ∀ before after, commands = before ++ after →
      (run directory ⟨s, none⟩ before).1.handle.isSome → ∀ options, ∃ store : KeyValueStore V,
        Succeeds (openWith directory options) last.session store last.session ∧
          store.Answers last.session.disk history := by
  have hstart : Follows directory (⟨s, none⟩ : Machine V) [] := .start hs hblank
  have hlast : last.Follows directory history := by
    have := hstart.run commands hvalues
    rwa [hrun, List.nil_append] at this
  refine ⟨fun store hstore => ⟨hlast.answers hstore, fun _ _ _ _ hput => put_refused hput⟩, ?_⟩
  rintro before after rfl hopened options
  have hbefore := hstart.run before fun key value hmem =>
    hvalues key value (List.mem_append_left _ hmem)
  have hstanding : (run directory (⟨s, none⟩ : Machine V) before).1.Standing directory := by
    obtain ⟨entries, _, _, hhandle⟩ := hbefore
    obtain ⟨store, hstore⟩ := Option.isSome_iff_exists.mp hopened
    exact ⟨store.file, (hhandle store hstore).2⟩
  have hstill := hstanding.run hbefore after fun key value hmem =>
    hvalues key value (List.mem_append_right _ hmem)
  rw [← run_append, hrun] at hstill
  obtain ⟨file, hfile⟩ := hstill
  obtain ⟨entries, htells, hlog, _⟩ := hlast
  obtain ⟨store, hopen, hshows⟩ := openWith_again (V := V) hlog hfile options
  exact ⟨store, hopen, hshows.answers htells⟩

/-- A store that is written, closed and opened again for reading. -/
def reopened : List (Command Binary64) :=
  [.reopen {}, .put "a" 1, .put "b" 0, .put "" 1, .put "a" 0, .close, .reopen { readOnly := true }]

theorem answers_of_run_reopened :
    ∃ last store, run ⟨false, ["kv"]⟩ ⟨⟨.empty 0, []⟩, none⟩ reopened =
        (last, [("a", 1), ("b", 0), ("a", 0)]) ∧ last.handle = some store ∧
      store.get? last.session.disk "a" = .ok (some 0) ∧
      store.entries last.session.disk = [.ok ("b", 0), .ok ("a", 0)] := by
  have hputs : (run ⟨false, ["kv"]⟩ ⟨⟨.empty 0, []⟩, none⟩ reopened).2 =
      [("a", 1), ("b", 0), ("a", 0)] := by decide +kernel
  have hopen : (run ⟨false, ["kv"]⟩ ⟨⟨.empty 0, []⟩, none⟩ reopened).1.handle.isSome = true := by
    decide +kernel
  have hrun : run ⟨false, ["kv"]⟩ ⟨⟨.empty 0, []⟩, none⟩ reopened =
      ((run ⟨false, ["kv"]⟩ ⟨⟨.empty 0, []⟩, none⟩ reopened).1, [("a", 1), ("b", 0), ("a", 0)]) :=
    Prod.ext rfl hputs
  have hvalues : ∀ key value, .put key value ∈ reopened → Readable value := by
    intro key value hmem
    simp only [reopened, List.mem_cons, Command.put.injEq, reduceCtorEq, List.not_mem_nil, false_or,
      or_false] at hmem
    rcases hmem with ⟨-, rfl⟩ | ⟨-, rfl⟩ | ⟨-, rfl⟩ | ⟨-, rfl⟩ <;>
      exact ⟨by decide +kernel, by decide +kernel⟩
  obtain ⟨store, hstore⟩ := Option.isSome_iff_exists.mp hopen
  have hblank : ∀ id, (FileSystem.empty 0).content id = [] :=
    fun id => FileSystem.content_of_size_le (Nat.zero_le id)
  obtain ⟨hanswers, _⟩ :=
    answers_of_run (FileSystem.WellFormed.empty 0) (fun id _ => hblank id) reopened hvalues hrun
  obtain ⟨answers, _⟩ := hanswers store hstore
  refine ⟨_, store, hrun, hstore, ?_, ?_⟩
  · rw [answers.get]
    rfl
  · rw [answers.entries]
    rfl

end Machine
end Relatedness.KeyValue
