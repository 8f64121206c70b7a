import Relatedness.Proofs.Disk.Inside
import Relatedness.Proofs.KeyValue.Opening

/-! The store that stands in a directory: what opening it for reading gives at any moment. It is
told by the log alone, so it stays the same while another store is written beside it. -/

namespace Relatedness.KeyValueStore

open KeyValue FileSystem Relatedness.Path

variable {V : Type} {directory : Path} {fs fs' : FileSystem} {s t : Session}

/-- What opening a directory for reading gives, if there is a log in it. -/
def standing? (fs : FileSystem) (directory : Path) : Option (KeyValueStore V) :=
  match fs.openFile (directory.child logName) with
  | .ok file => some (.ofScan directory { readOnly := true } file (scan (fs.content file)))
  | .error _ => none

theorem standing?_of_openFile {file : Nat}
    (h : fs.openFile (directory.child logName) = .ok file) :
    (standing? fs directory : Option (KeyValueStore V)) =
      some (.ofScan directory { readOnly := true } file (scan (fs.content file))) := by
  unfold standing?
  rw [h]

/-- A store stands where its log is. -/
theorem openFile_of_standing? {store : KeyValueStore V} (h : standing? fs directory = some store) :
    fs.openFile (directory.child logName) = .ok store.file ∧
      store = .ofScan directory { readOnly := true } store.file (scan (fs.content store.file)) := by
  unfold standing? at h
  cases hopen : fs.openFile (directory.child logName) with
  | error e =>
    rw [hopen] at h
    cases h
  | ok file =>
    rw [hopen] at h
    cases h
    exact ⟨rfl, rfl⟩

theorem isAt_eq (fs : FileSystem) (directory : Path) :
    isAt fs directory = (standing? fs directory : Option (KeyValueStore V)).isSome := by
  unfold isAt standing? FileSystem.isFile openFile
  cases fs.find (directory.child logName) with
  | error e => rfl
  | ok t => cases t <;> rfl

/-- A store that stands can be opened, and nothing is changed by that. -/
theorem openReadOnly_of_standing? {store : KeyValueStore V}
    (h : standing? s.disk directory = some store) :
    ∃ t, Succeeds (openReadOnly directory) s store t ∧ t.disk = s.disk := by
  obtain ⟨hopen, hstore⟩ := openFile_of_standing? h
  rw [openReadOnly, openWith_eq, if_pos rfl]
  rcases succeeds_or_fails (scanLog directory { readOnly := true } : Action (KeyValueStore V)) s
    with ⟨store', t, hscan⟩ | ⟨e, t, hscan⟩
  · obtain ⟨hdisk, file, hopen', rfl⟩ := scanLog_readOnly rfl hscan
    cases hopen.symm.trans hopen'
    exact ⟨t, hstore ▸ hscan, hdisk⟩
  · exact absurd hscan (scanLog_readOnly_not_fails rfl hopen)

/-- A store that was opened for reading stands. -/
theorem standing?_of_openReadOnly {store : KeyValueStore V}
    (h : Succeeds (openReadOnly directory) s store t) :
    t.disk = s.disk ∧ standing? s.disk directory = some store := by
  rw [openReadOnly, openWith_eq, if_pos rfl] at h
  obtain ⟨hdisk, file, hopen, rfl⟩ := scanLog_readOnly rfl h
  exact ⟨hdisk, standing?_of_openFile hopen⟩

/-- The store stays the one that stands as long as its log does. -/
theorem standing?_eq (hfs : fs.WellFormed) (hfs' : fs'.WellFormed) (hreaches : fs.Reaches directory)
    (hreaches' : fs'.Reaches directory) (hsame : SameWithin directory.place fs fs')
    (hfiles : ∀ id < fs.files.size, fs'.files[id]? = fs.files[id]?) :
    (standing? fs' directory : Option (KeyValueStore V)) = standing? fs directory := by
  have hiff : ∀ id, fs'.openFile (directory.child logName) = .ok id ↔
      fs.openFile (directory.child logName) = .ok id := by
    intro id
    rw [hreaches.openFile_child_iff hfs isName_logName,
      hreaches'.openFile_child_iff hfs' isName_logName, hsame]
  unfold standing?
  cases hopen : fs.openFile (directory.child logName) with
  | ok file =>
    have hlt := hfs.allocated (at?_of_openFile hfs hopen)
    rw [(hiff file).mpr hopen]
    simp only [FileSystem.content, hfiles file hlt]
  | error e =>
    cases hopen' : fs'.openFile (directory.child logName) with
    | ok file => cases hopen.symm.trans ((hiff file).mp hopen')
    | error e' => rfl

/-! ## A store in the staging directory -/

variable {base : FileSystem} {p : Path} {name : String}

/-- Opening a store for writing in the staging directory is work inside of it, and its log is a
new file. -/
theorem keeps_openWith_staging (hname : p.fileName? = some name) (hsteady : p.Steady base)
    (hdir : base.at? p.staging.place = some .directory) :
    KeepsGiving (fun s : Session => base.Inside p.staging.place s.disk)
      (fun store => base.files.size ≤ store.file)
      (openWith p.staging {} : Action (KeyValueStore V)) := by
  have hprepare : Keeps (base.Inside p.staging.place) (prepare p.staging) := by
    refine Keeps.bind (fun t ht => ?_) fun _ => DiskM.keeps_change fun {t _} ht hopen => ?_
    · have hreaches : t.Reaches p.staging := by
        rw [Replacement.staging_eq_child hname]
        exact (hsteady.of_beside (beside_of_inside ht)).reaches_parent.child
          (isName_staging name)
      rwa [show outcome _ t = _ from
        DiskM.makeDirectories_of_reaches ht.wellFormed hreaches (ht.directory.trans hdir)]
    · cases hcreate : t.openOrCreate (p.staging.child logName) with
      | error e =>
        rw [hcreate] at hopen
        cases hopen
      | ok r =>
        rw [hcreate] at hopen
        cases hopen
        exact (ht.openOrCreate isName_logName hcreate).1
  have hopen : KeepsGiving (fun s : Session => base.Inside p.staging.place s.disk)
      (base.files.size ≤ ·)
      (Action.onDisk (DiskM.inspect (·.openFile (p.staging.child logName)))) := by
    refine fun s hs => ⟨hs, fun file t h => ?_⟩
    obtain ⟨_, hfile, _⟩ := Action.succeeds_onDisk.mp h
    have hat := at?_of_openFile hs.wellFormed (DiskM.succeeds_inspect.mp hfile).1
    rw [place_child isName_logName] at hat
    exact hs.fresh [logName] file hat
  rw [openWith_eq, if_neg (by simp)]
  refine (Action.keeps_onDisk hprepare).giving.bind fun _ _ => hopen.bind fun file hfile => ?_
  refine Action.keeps_disk.giving.bind fun fs _ => ?_
  have hrecover : Keeps (fun s : Session => base.Inside p.staging.place s.disk)
      (recover p.staging file (fs.content file).length (scan (fs.content file)) false) := by
    refine Keeps.ite (Keeps.bind Action.keeps_log fun _ => ?_) Keeps.pure
    refine Keeps.bind (Action.keeps_onDisk (DiskM.keeps_change fun ht hcut => ?_))
      fun _ => Action.keeps_log
    cases hcut
    rw [hold_eq]
    exact ht.setContent hfile _
  exact hrecover.giving.bind fun _ _ => .pure hfile

/-- Writing to a new file is work inside of the directory, also if a key is refused. -/
theorem keeps_put [Storable V] {a : Place} {store : KeyValueStore V} {file : Nat}
    (hstore : store.file = file) (hfile : base.files.size ≤ file) (key : String) (value : V) :
    KeepsGiving (fun s : Session => base.Inside a s.disk) (fun store' => store'.file = file)
      (store.put key value) := by
  intro s hs
  rcases succeeds_or_fails (store.put key value) s with ⟨store', t, hput⟩ | ⟨e, t, hput⟩
  · obtain ⟨_, _, _, hstore', rfl⟩ := put_accepted hput
    rw [show outcome _ s = _ from hput]
    refine ⟨hs.setContent (hstore ▸ hfile) _, fun other u h => ?_⟩
    rw [(h.unique hput).1, hstore']
    exact hstore
  · obtain ⟨rfl, _⟩ := put_refused hput
    rw [show outcome _ t = _ from hput]
    exact ⟨hs, fun other u h => absurd hput h.not_fails⟩

end Relatedness.KeyValueStore
