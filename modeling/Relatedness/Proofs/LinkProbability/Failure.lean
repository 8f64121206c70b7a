import Relatedness.Proofs.KeyValue.Standing
import Relatedness.Proofs.LinkProbability.Answers

/-! Builds that fail. At whichever step it fails, what stands at the path is as it was, and an
estimator whose store is the one that stands there has the same store again. -/

namespace Relatedness

open LinkProbability KeyValue FileSystem Relatedness.Path

namespace LinkProbability

/-- Building a language is work inside of the directory of its store, however far it comes. -/
theorem keeps_buildLanguage {base : FileSystem} {a : Place} {store : KeyValueStore Binary64}
    {file : Nat} (hstore : store.file = file) (hfile : base.files.size ≤ file)
    (config : LinkProbabilityConfig) (t : TextAnalysis) (corpus : Corpus) (anchors : AnchorSource)
    (language : Language) : KeepsGiving (fun s : Session => base.Inside a s.disk)
      (fun r => r.2.file = file) (buildLanguage config t corpus anchors store language) := by
  have hscan : ∀ subgrams counter scanned documents,
      Keeps (fun s : Session => base.Inside a s.disk)
        (scanBatches t config.batchSize language subgrams counter scanned documents) := by
    intro subgrams counter scanned documents s hs
    have hdisk : (outcome (scanBatches t config.batchSize language subgrams counter scanned
        documents) s).2.disk = s.disk := keeps_scanBatches s.disk counter scanned documents s rfl
    exact hdisk.symm ▸ hs
  have hputs : ∀ {α : Type} (items : List α) (keyOf : α → String) (valueOf : α → Binary64)
      {store : KeyValueStore Binary64}, store.file = file →
      KeepsGiving (fun s : Session => base.Inside a s.disk) (fun store' => store'.file = file)
        (items.foldlM (fun s a => s.put (keyOf a) (valueOf a)) store) :=
    fun items keyOf valueOf _ hstart => .foldlM hstart fun _ a hold =>
      KeyValueStore.keeps_put hold hfile (keyOf a) (valueOf a)
  unfold buildLanguage
  refine Action.keeps_ofExcept.giving.bind fun phrases _ => ?_
  refine Action.keeps_log.giving.bind fun _ _ => Action.keeps_log.giving.bind fun _ _ => ?_
  refine Action.keeps_ofExcept.giving.bind fun documents _ => ?_
  refine (hscan _ _ _ documents).giving.bind fun scanned _ => ?_
  obtain ⟨counter, scanned⟩ := scanned
  refine Action.keeps_ofExcept.giving.bind fun pairs _ => ?_
  have hphrases := hputs
    (probabilities config.smoothing (LinkCounts.ofPairs t language pairs) counter)
    (fun p => StoredKey.ofPhrase language p.1) Prod.snd hstore
  refine KeepsGiving.bind hphrases fun mid hmid => ?_
  have hsubgrams := hputs (AnchorPhrases.ofPhrases t language phrases).subgrams.toList
    StoredKey.ofSubgram (fun _ => subgramSentinel) hmid
  refine KeepsGiving.bind hsubgrams fun last hlast => ?_
  exact .ite (.pure hlast) (Action.keeps_log.giving.bind fun _ _ => .pure hlast)

end LinkProbability

namespace Estimator

variable {e e' : Estimator} {corpus : Corpus} {anchors : AnchorSource} {workers : Workers}
  {s s' t : Session}
  {base fs fs' : FileSystem} {name : String} {cause : Error}

/-! ## Where a build stops -/

/-- Building into the staging directory is work inside of it, at whichever language it stops. -/
theorem keeps_buildInto {p : Path} (hname : p.fileName? = some name) (hsteady : p.Steady base)
    (hdir : base.at? p.staging.place = some .directory) :
    Keeps (fun s : Session => base.Inside p.staging.place s.disk)
      (e.buildInto p.staging corpus anchors) := by
  have hopen := KeyValueStore.keeps_openWith_staging (V := Binary64) hname hsteady hdir
  refine (hopen.bind fun opened hopened => ?_ : KeepsGiving _ (fun _ => True) _).keeps
  have hlanguages : KeepsGiving (fun s : Session => base.Inside p.staging.place s.disk)
      (fun r : List BuildStats × KeyValueStore Binary64 => r.2.file = opened.file)
      (e.config.languages.foldlM (fun r language =>
        buildLanguage e.config e.analysis corpus anchors r.2 language >>= fun next =>
          pure (r.1 ++ [next.1], next.2)) ([], opened)) :=
    .foldlM rfl fun r language hr =>
      (keeps_buildLanguage hr hopened e.config e.analysis corpus anchors language).bind
        fun next hnext => .pure hnext
  exact hlanguages.bind fun r _ => .pure trivial

/-- A build that stops leaves the path as it was, and the staging directory to be thrown away. -/
theorem replacing_stops (hname : e.config.path.fileName? = some name)
    (hsteady : e.config.path.Steady fs) (hfile : ∀ id, fs.at? e.config.path.place ≠ some (.file id))
    (hstaged : Replacement.Staged e.config.path fs s.disk)
    (h : Fails (e.replacing e.config.path.staging corpus anchors) s cause t) :
    e.config.path.Beside fs t.disk ∧ SameWithin e.config.path.place fs t.disk ∧
      t.disk.at? e.config.path.staging.place = some .directory := by
  have hinside : s.disk.Inside e.config.path.staging.place s.disk :=
    .start hstaged.beside.wellFormed hstaged.staging hstaged.empty
  have hkeeps : Keeps (fun u : Session => s.disk.Inside e.config.path.staging.place u.disk)
      (e.buildInto e.config.path.staging corpus anchors) :=
    keeps_buildInto hname (hsteady.of_beside hstaged.beside) hstaged.staging
  have hwork : ∀ {u : Session}, s.disk.Inside e.config.path.staging.place u.disk →
      e.config.path.Beside fs u.disk ∧ SameWithin e.config.path.place fs u.disk ∧
        u.disk.at? e.config.path.staging.place = some .directory := fun hu =>
    ⟨hstaged.beside.trans (beside_of_inside hu),
      hstaged.target.trans (sameWithin_of_inside hname hu), hu.directory.trans hstaged.staging⟩
  simp only [replacing, fails_bind, Action.fails_onDisk, fails_pure, and_false, exists_false,
    or_false] at h
  rcases h with hinto | ⟨_, staged, hinto, cause, kept, hreplace, rfl, rfl⟩
  · exact hwork (hkeeps.fails hinto hinside)
  have hlast := hkeeps.succeeds hinto hinside
  obtain ⟨hbeside, hsame, hdir⟩ := hwork hlast
  have hfile' : ∀ id, staged.disk.at? e.config.path.place ≠ some (.file id) :=
    hsame.at?_eq ▸ hfile
  rcases Replacement.replaceDirectory_cases hbeside.wellFormed hname (hsteady.of_beside hbeside)
    hfile' with ⟨_, hok, _⟩ | ⟨_, kept', hfails, hkept, hsame', hstaging⟩
  · exact absurd hreplace hok.not_fails
  · obtain rfl := (hfails.unique hreplace).2
    exact ⟨hbeside.trans hkept, hsame.trans hsame', hstaging.at?_eq.trans hdir⟩

/-- The estimator has the store that stands at its path now, if there is one. -/
theorem reopen_eq (e : Estimator) (s : Session) : ∃ s', s'.disk = s.disk ∧
    e.reopen.run s = ({ e with
      store := (KeyValueStore.standing? s.disk e.config.path).or e.store }, s') := by
  have hat : KeyValueStore.isAt s.disk e.config.path =
      (KeyValueStore.standing? s.disk e.config.path : Option (KeyValueStore Binary64)).isSome :=
    KeyValueStore.isAt_eq s.disk e.config.path
  cases hstands : (KeyValueStore.standing? s.disk e.config.path :
      Option (KeyValueStore Binary64)) with
  | none =>
    rw [hstands] at hat
    refine ⟨s, rfl, ?_⟩
    change StateT.run (if KeyValueStore.isAt s.disk e.config.path = true then _ else _) s = _
    rw [hat, if_neg (by simp)]
    rfl
  | some store =>
    rw [hstands] at hat
    obtain ⟨t, hopen, hdisk⟩ := KeyValueStore.openReadOnly_of_standing? hstands
    refine ⟨t, hdisk, ?_⟩
    change StateT.run (if KeyValueStore.isAt s.disk e.config.path = true then _ else _) s = _
    rw [hat, if_pos (Option.isSome_some)]
    exact hopen.run_bind

/-- The estimator has the store that stands at its path. -/
def InStep (e : Estimator) (fs : FileSystem) : Prop :=
  e.store = KeyValueStore.standing? fs e.config.path

/-- An estimator that was just opened has the store that stands at its path. -/
theorem inStep_of_openWith {config : LinkProbabilityConfig} {analysis : TextAnalysis}
    (h : Succeeds (openWith config analysis) s e t) : e.InStep t.disk := by
  simp only [openWith, succeeds_bind, Action.succeeds_disk, succeeds_ite, Action.succeeds_log,
    succeeds_pure] at h
  obtain ⟨_, _, ⟨rfl, rfl⟩, ⟨_, store, u, hopen, rfl, rfl⟩ | ⟨hnot, _, u, rfl, rfl, rfl⟩⟩ := h
  · obtain ⟨hdisk, hstands⟩ := KeyValueStore.standing?_of_openReadOnly hopen
    rw [InStep, hdisk]
    exact hstands.symm
  · rw [KeyValueStore.isAt_eq (V := Binary64), Bool.not_eq_true, Option.isSome_eq_false_iff,
      Option.isNone_iff_eq_none] at hnot
    rw [InStep, Session.disk_record]
    exact hnot.symm

/-- So has one whose build succeeded. -/
theorem inStep_of_build {stats : List BuildStats}
    (h : (e.build corpus anchors workers).run s = ((.ok stats, e'), s')) : e'.InStep s'.disk := by
  obtain ⟨_, _, _, _, store, _, _, _, hopen, rfl⟩ := build_eq_ok h
  obtain ⟨hdisk, hstands⟩ := KeyValueStore.standing?_of_openReadOnly hopen
  rw [InStep, hdisk]
  exact hstands.symm

/-- The estimator without its copy of the store in memory. -/
def uncached (e : Estimator) : Estimator := { e with cache := none }

/-- One estimator answers every query from its store as another one does. -/
def AnswersAs (e' : Estimator) (fs' : FileSystem) (e : Estimator) (fs : FileSystem) : Prop :=
  ∀ language phrase normalize,
    e'.uncached.probability fs' language phrase normalize =
      e.uncached.probability fs language phrase normalize ∧
    e'.uncached.isSubphrase language phrase normalize =
      e.uncached.isSubphrase language phrase normalize

theorem answersAs_of_store_eq (hconfig : e'.config = e.config)
    (hanalysis : e'.analysis = e.analysis) (hstore : e'.store = e.store)
    (hcontent : ∀ store, e.store = some store → fs'.content store.file = fs.content store.file) :
    e'.AnswersAs fs' e fs := by
  intro language phrase normalize
  have hsame : e'.uncached = e.uncached := by
    unfold uncached
    rw [hconfig, hanalysis, hstore]
  rw [hsame]
  refine ⟨?_, rfl⟩
  cases hstands : e.store with
  | none =>
    unfold probability openStore
    rw [show e.uncached.store = none from hstands]
    rfl
  | some store =>
    rw [probability_of_store (e := e.uncached) hstands rfl,
      probability_of_store (e := e.uncached) hstands rfl]
    simp only [KeyValueStore.get?, FileSystem.held_eq, hcontent store hstands]

/-- A store that stands has a log in the directory at its path. -/
theorem at?_of_inStep (hs : fs.WellFormed) (h : e.InStep fs) {store : KeyValueStore Binary64}
    (hstore : e.store = some store) :
    fs.at? (e.config.path.place ++ [logName]) = some (.file store.file) := by
  rw [← place_child KeyValueStore.isName_logName]
  exact at?_of_openFile hs (KeyValueStore.openFile_of_standing? (h.symm.trans hstore)).1

/-- A build that replaced the directory can open the store there. -/
theorem standing?_of_replacing (hname : e.config.path.fileName? = some name)
    (hsteady : e.config.path.Steady fs) (hs : fs.WellFormed) {log : List LogRecord}
    (hfresh : Succeeds (Replacement.freshStaging e.config.path) fs e.config.path.staging fs')
    (hstaged : Replacement.Staged e.config.path fs fs') {stats : List BuildStats}
    (h : Succeeds (e.replacing e.config.path.staging corpus anchors) ⟨fs', log⟩ stats t) :
    ∃ store : KeyValueStore Binary64,
      KeyValueStore.standing? t.disk e.config.path = some store := by
  have hkeeps : Keeps (fun u : Session => fs'.Inside e.config.path.staging.place u.disk)
      (e.buildInto e.config.path.staging corpus anchors) :=
    keeps_buildInto hname (hsteady.of_beside hstaged.beside) hstaged.staging
  simp only [replacing, succeeds_bind, succeeds_pure, Action.succeeds_onDisk] at h
  obtain ⟨_, staged, hinto, _, _, ⟨replaced, hreplace, rfl⟩, rfl, rfl⟩ := h
  have hwork := hkeeps.succeeds hinto
    (.start hstaged.beside.wellFormed hstaged.staging hstaged.empty)
  have hbeside := hstaged.beside.trans (beside_of_inside hwork)
  have hreplaced := Replacement.replaced_of_succeeds hwork.wellFormed hname
    (hsteady.of_beside hbeside) hreplace
  have hall := hbeside.trans hreplaced.beside
  obtain ⟨opened, u, _, _, hopened, _, hwrites⟩ := buildInto_reports hinto
  obtain ⟨_, hat, _⟩ := leftOver_of_opened hs hfresh hopened
  have hlog : replaced.at? (e.config.path.place ++ [logName]) = some (.file opened.file) := by
    rw [hreplaced.moved, FileSystem.at?, hwrites.root, ← place_child KeyValueStore.isName_logName]
    exact hat
  have hreaches := (hsteady.of_beside hall).reaches hname
  exact ⟨_, KeyValueStore.standing?_of_openFile
    ((hreaches.openFile_child_iff hall.wellFormed KeyValueStore.isName_logName).mpr hlog)⟩

/-- What is left of a failed build: the path is as it was, and an estimator that had the store
there has it again, unless the staging directory could not be prepared. -/
theorem build_failed_cases (hs : s.disk.WellFormed) (hname : e.config.path.fileName? = some name)
    (hsteady : e.config.path.Steady s.disk)
    (hfile : ∀ id, s.disk.at? e.config.path.place ≠ some (.file id))
    (h : e.Ends corpus anchors workers s (.error cause) e' s') :
    e.config.path.Beside s.disk s'.disk ∧ SameWithin e.config.path.place s.disk s'.disk ∧
      e'.config = e.config ∧ e'.analysis = e.analysis ∧
      (e.InStep s.disk → (e.store = none ∨
        ∀ id, s.disk.at? e.config.path.staging.place ≠ some (.file id)) → e'.store = e.store) := by
  cases h with
  | refused hcheck =>
    exact ⟨.of_outside hs rfl fun _ _ => rfl, fun _ => rfl, rfl, rfl, fun _ _ => rfl⟩
  | unstaged hcheck hfresh =>
    obtain ⟨stopped, fs, hstart, rfl, rfl⟩ := Action.fails_onDisk.mp hfresh
    rcases Replacement.freshStaging_cases hs hname hsteady with
      ⟨_, hok, _⟩ | ⟨_, fs', hfails, hbeside, hsame, _⟩
    · exact absurd hstart hok.not_fails
    obtain rfl := (hfails.unique hstart).2
    refine ⟨hbeside, hsame, rfl, rfl, fun hstep hstaging => ?_⟩
    cases hstore : e.store with
    | none => rfl
    | some store =>
      -- the store stands in a directory, so the directory above it is there as well
      have hdir : s.disk.at? e.config.path.parent.place = some .directory := by
        refine at?_of_begins (Tree.kind?_of_append (at?_of_inStep hs hstep hstore) (by simp)) ?_
        rw [(place_of_fileName? hname).2]
        exact List.prefix_append _ _
      obtain ⟨_, hok, _⟩ := Replacement.freshStaging_of_directory hs hname hsteady hdir
        (hstaging.resolve_left (by simp [hstore]))
      exact absurd hstart hok.not_fails
  | @stopped fresh discarded _ _ t _ hcheck hfresh hstop hdiscard hreopen =>
    obtain ⟨hbeside, hsame, hdir⟩ := replacing_stops (e := e.bare) (s := { s with disk := fresh })
      hname hsteady hfile (Replacement.staged_of_succeeds hs hname hsteady hfresh) hstop
    obtain ⟨discarded', hdone, hbeside', hsame', _⟩ := Replacement.discard_staging
      hbeside.wellFormed hname (hsteady.of_beside hbeside) hdir
    obtain rfl := (hdone.unique hdiscard).2
    obtain ⟨u, hdisk, hresult⟩ := e.bare.reopen_eq { t with disk := discarded' }
    cases hresult.symm.trans hreopen
    have hall := hbeside.trans hbeside'
    rw [hdisk]
    refine ⟨hall, hsame.trans hsame', rfl, rfl, fun hstep _ => ?_⟩
    change (KeyValueStore.standing? discarded' e.config.path).or none = e.store
    rw [Option.or_none, hstep]
    exact KeyValueStore.standing?_eq hs hall.wellFormed (hsteady.reaches hname)
      ((hsteady.of_beside hall).reaches hname) (hsame.trans hsame') hall.files
  | unopened hcheck hfresh hbuilt hopen =>
    obtain ⟨store, hstands⟩ := standing?_of_replacing (e := e.bare) hname hsteady hs hfresh
      (Replacement.staged_of_succeeds hs hname hsteady hfresh) hbuilt
    obtain ⟨_, hopened, _⟩ := KeyValueStore.openReadOnly_of_standing? hstands
    exact absurd hopen hopened.not_fails

/-- A build that fails changes nothing at the path, and no file that was there. An estimator that
had the store at the path has it still, and answers every query from it as before; only for the
name of the staging directory a file must not stand. -/
theorem build_failed (hs : s.disk.WellFormed) (hname : e.config.path.fileName? = some name)
    (hsteady : e.config.path.Steady s.disk)
    (hfile : ∀ id, s.disk.at? e.config.path.place ≠ some (.file id))
    (h : (e.build corpus anchors workers).run s = ((.error cause, e'), s')) :
    SameWithin e.config.path.place s.disk s'.disk ∧ e.config.path.Beside s.disk s'.disk ∧
      (e.InStep s.disk → (e.store = none ∨
        ∀ id, s.disk.at? e.config.path.staging.place ≠ some (.file id)) →
        e'.store = e.store ∧ e'.InStep s'.disk ∧ e'.AnswersAs s'.disk e s.disk) := by
  obtain ⟨hbeside, hsame, hconfig, hanalysis, hstore⟩ :=
    build_failed_cases hs hname hsteady hfile (ends_of_build h)
  refine ⟨hsame, hbeside, fun hstep hstaging => ⟨hstore hstep hstaging, ?_, ?_⟩⟩
  · rw [InStep, hstore hstep hstaging, hconfig, hstep]
    exact (KeyValueStore.standing?_eq hs hbeside.wellFormed (hsteady.reaches hname)
      ((hsteady.of_beside hbeside).reaches hname) hsame hbeside.files).symm
  refine answersAs_of_store_eq hconfig hanalysis (hstore hstep hstaging) fun store hstands => ?_
  have hlog := hs.allocated (at?_of_inStep hs hstep hstands)
  simp only [FileSystem.content, hbeside.files _ hlog]

/-- An estimator that reads the store in `lp.staging`. -/
def reading (fs : FileSystem) : Estimator :=
  { english ⟨false, ["lp.staging"]⟩ with
    store := KeyValueStore.standing? fs ⟨false, ["lp.staging"]⟩ }

def unreadable : AnchorSource :=
  ⟨[⟨"en"⟩], fun _ => .error (.io (.other "unreadable")), fun _ => .ok []⟩

/-- The phrases of the only language cannot be read. The store in `lp.staging` has been closed,
the staging directory made and thrown away again, and the store is there and answers what it
did. -/
theorem build_failed_unreadable :
    ∃ cause e' s', ((reading leftBehind.disk).build (englishCorpus newPhrase) unreadable).run
        leftBehind = ((.error cause, e'), s') ∧ (reading leftBehind.disk).store.isSome = true ∧
      e'.store = (reading leftBehind.disk).store ∧
      e'.AnswersAs s'.disk (reading leftBehind.disk) leftBehind.disk := by
  have hname : (⟨false, ["lp.staging"]⟩ : Path).fileName? = some "lp.staging" := by decide +kernel
  have hdir : leftBehind.disk.at? (⟨false, ["lp.staging"]⟩ : Path).place = some .directory := by
    decide +kernel
  have hstaging : leftBehind.disk.at? (⟨false, ["lp.staging"]⟩ : Path).staging.place = none := by
    decide +kernel
  have hcheck : (((reading leftBehind.disk).build (englishCorpus newPhrase) unreadable).run
      leftBehind).1.1.isOk = false := by decide +kernel
  cases hbuild : ((reading leftBehind.disk).build (englishCorpus newPhrase) unreadable).run
    leftBehind with
  | mk r s' =>
    obtain ⟨r, e'⟩ := r
    rw [hbuild] at hcheck
    cases r with
    | ok stats => cases hcheck
    | error cause =>
      obtain ⟨_, _, hkept⟩ := build_failed wellFormed_leftBehind hname
        (steady_of_no_dots hname (by decide)) (fun id hat => by cases hdir.symm.trans hat) hbuild
      obtain ⟨hstore, _, hanswers⟩ :=
        hkept rfl (.inr fun id hat => by cases hstaging.symm.trans hat)
      exact ⟨cause, e', s', rfl, by decide +kernel, hstore, hanswers⟩

/-- The same store, and a file under the name of the staging directory. -/
def blocked : Session :=
  match leftBehind.disk.writeFile ⟨false, ["lp.staging.staging"]⟩ [] with
  | .ok fs => { leftBehind with disk := fs }
  | .error _ => leftBehind

theorem wellFormed_blocked : blocked.disk.WellFormed := by
  unfold blocked
  split
  · rename_i fs hwrite
    exact (writeFile_spec wellFormed_leftBehind hwrite).1
  · exact wellFormed_leftBehind

/-- The staging directory cannot be prepared, and the estimator is left without the store that
still stands at its path. -/
theorem build_failed_blocked :
    blocked.disk.WellFormed ∧ (reading blocked.disk).InStep blocked.disk ∧
      ∃ cause e' s', ((reading blocked.disk).build (englishCorpus newPhrase)
          (englishAnchors newPhrase)).run blocked = ((.error cause, e'), s') ∧
        (reading blocked.disk).store.isSome = true ∧ e'.store.isSome = false ∧
        (KeyValueStore.standing? s'.disk ⟨false, ["lp.staging"]⟩ :
          Option (KeyValueStore Binary64)).isSome = true := by
  have hcheck : (match ((reading blocked.disk).build (englishCorpus newPhrase)
        (englishAnchors newPhrase)).run blocked with
      | ((.ok _, _), _) => false
      | ((.error _, e'), s') => e'.store.isNone && (KeyValueStore.standing? s'.disk
          ⟨false, ["lp.staging"]⟩ : Option (KeyValueStore Binary64)).isSome) = true := by
    decide +kernel
  refine ⟨wellFormed_blocked, rfl, ?_⟩
  split at hcheck
  · cases hcheck
  · rename_i cause e' s' hbuild
    simp only [Bool.and_eq_true, Option.isNone_iff_eq_none] at hcheck
    exact ⟨cause, e', s', hbuild, by decide +kernel, by rw [hcheck.1]; rfl, hcheck.2⟩

end Estimator
end Relatedness
