import Relatedness.LinkProbability.Estimator
import Relatedness.Proofs.KeyValue.Opening
import Relatedness.Proofs.LinkProbability.Language

/-! A whole build, from the staging directory to the store that is opened in the end. -/

namespace Relatedness

open LinkProbability KeyValue

namespace Estimator

variable {e e' : Estimator} {corpus : Corpus} {anchors : AnchorSource} {workers : Workers}
  {stats : List BuildStats} {s s' : Session}

/-- What a build changes in the estimator before it does anything else. -/
def bare (e : Estimator) : Estimator := { e with store := none, cache := none }

/-- Building into the staging directory and putting it in place. -/
def replacing (e : Estimator) (staging : Path) (corpus : Corpus) (anchors : AnchorSource) :
    Action (List BuildStats) := do
  let stats ← e.buildInto staging corpus anchors
  Action.onDisk (Replacement.replaceDirectory staging e.config.path)
  return stats

/-- The ways in which a build ends, with the estimator and the session that it leaves. -/
inductive Ends (e : Estimator) (corpus : Corpus) (anchors : AnchorSource) (workers : Workers)
    (s : Session) : Except Error (List BuildStats) → Estimator → Session → Prop
  | refused {cause : Error} (hcheck : e.prepare corpus anchors workers = .error cause) :
    Ends e corpus anchors workers s (.error cause) e s
  | unstaged {cause : Error} {s' : Session}
    (hcheck : e.prepare corpus anchors workers = .ok ())
    (hfresh : Fails (Action.onDisk (Replacement.freshStaging e.config.path)) s cause s') :
    Ends e corpus anchors workers s (.error cause) e.bare s'
  | stopped {fresh discarded : FileSystem} {cause : Error} {e' : Estimator} {t s' : Session}
    (hcheck : e.prepare corpus anchors workers = .ok ())
    (hfresh : Succeeds (Replacement.freshStaging e.config.path) s.disk e.config.path.staging fresh)
    (hstop : Fails (e.bare.replacing e.config.path.staging corpus anchors) { s with disk := fresh }
      cause t)
    (hdiscard : Succeeds (DiskM.attempt (Replacement.removeIfPresent e.config.path.staging)) t.disk
      () discarded)
    (hreopen : e.bare.reopen.run { t with disk := discarded } = (e', s')) :
    Ends e corpus anchors workers s (.error cause) e' s'
  | unopened {fresh : FileSystem} {stats : List BuildStats} {cause : Error} {t s' : Session}
    (hcheck : e.prepare corpus anchors workers = .ok ())
    (hfresh : Succeeds (Replacement.freshStaging e.config.path) s.disk e.config.path.staging fresh)
    (hbuilt : Succeeds (e.bare.replacing e.config.path.staging corpus anchors)
      { s with disk := fresh } stats t)
    (hopen : Fails (KeyValueStore.openReadOnly e.config.path : Action (KeyValueStore Binary64)) t
      cause s') :
    Ends e corpus anchors workers s (.error cause) e.bare s'
  | built {fresh : FileSystem} {stats : List BuildStats} {store : KeyValueStore Binary64}
    {t s' : Session} (hcheck : e.prepare corpus anchors workers = .ok ())
    (hfresh : Succeeds (Replacement.freshStaging e.config.path) s.disk e.config.path.staging fresh)
    (hbuilt : Succeeds (e.bare.replacing e.config.path.staging corpus anchors)
      { s with disk := fresh } stats t)
    (hopen : Succeeds (KeyValueStore.openReadOnly e.config.path) t store s') :
    Ends e corpus anchors workers s (.ok stats) { e.bare with store := some store } s'

theorem prepare_eq_ok_iff : e.prepare corpus anchors workers = .ok () ↔
    e.checkSources corpus anchors = .ok () ∧ workers e.config.threads = .ok () := by
  unfold prepare
  cases e.checkSources corpus anchors with
  | error cause => simp [bind, Except.bind]
  | ok u => cases workers e.config.threads <;> simp [bind, Except.bind, Except.mapError]

theorem ends_of_build {r : Except Error (List BuildStats)}
    (h : (e.build corpus anchors workers).run s = ((r, e'), s')) :
    Ends e corpus anchors workers s r e' s' := by
  unfold build at h
  cases hcheck : e.prepare corpus anchors workers with
  | error cause =>
    rw [hcheck] at h
    cases h
    exact .refused hcheck
  | ok u =>
  rw [hcheck] at h
  rcases succeeds_or_fails (Action.onDisk (Replacement.freshStaging e.config.path)) s with
    ⟨staging, s₁, hstart⟩ | ⟨cause, s₁, hfresh⟩
  case inr =>
    rw [hfresh.run_bind] at h
    cases h
    exact .unstaged hcheck hfresh
  rw [hstart.run_bind] at h
  obtain ⟨fresh, hfresh, rfl⟩ := Action.succeeds_onDisk.mp hstart
  obtain rfl := Replacement.eq_staging_of_freshStaging hfresh
  rcases succeeds_or_fails (e.bare.replacing e.config.path.staging corpus anchors)
    { s with disk := fresh } with ⟨stats, t, hbuilt⟩ | ⟨cause, t, hstop⟩
  case inr =>
    have hdiscard : Succeeds
        (DiskM.attempt (Replacement.removeIfPresent e.config.path.staging : DiskM Unit)) t.disk ()
        (outcome (Replacement.removeIfPresent e.config.path.staging : DiskM Unit) t.disk).2 := rfl
    replace h := hstop.run_bind.symm.trans h
    cases h
    exact .stopped hcheck hfresh hstop hdiscard rfl
  replace h := hbuilt.run_bind.symm.trans h
  rcases succeeds_or_fails
    (KeyValueStore.openReadOnly e.config.path : Action (KeyValueStore Binary64)) t with
    ⟨store, u, hopen⟩ | ⟨cause, u, hopen⟩
  all_goals
    replace h := hopen.run_bind.symm.trans h
    cases h
  · exact .built hcheck hfresh hbuilt hopen
  · exact .unopened hcheck hfresh hbuilt hopen

/-- The steps of a build that succeeds. -/
theorem build_eq_ok (h : (e.build corpus anchors workers).run s = ((.ok stats, e'), s')) :
    e.checkSources corpus anchors = .ok () ∧ ∃ fresh staged replaced store,
      Succeeds (Replacement.freshStaging e.config.path) s.disk e.config.path.staging fresh ∧
      Succeeds (e.bare.buildInto e.config.path.staging corpus anchors) { s with disk := fresh }
        stats staged ∧
      Succeeds (Replacement.replaceDirectory e.config.path.staging e.config.path : DiskM Unit)
        staged.disk () replaced ∧
      Succeeds (KeyValueStore.openReadOnly e.config.path : Action (KeyValueStore Binary64))
        { staged with disk := replaced } store s' ∧
      e' = { e.bare with store := some store } := by
  cases ends_of_build h with
  | built hcheck hfresh hbuilt hopen =>
    simp only [replacing, succeeds_bind, succeeds_pure, Action.succeeds_onDisk] at hbuilt
    obtain ⟨_, staged, hinto, _, _, ⟨replaced, hreplace, rfl⟩, rfl, rfl⟩ := hbuilt
    exact ⟨(prepare_eq_ok_iff.mp hcheck).1, _, staged, replaced, _, hfresh, hinto, hreplace, hopen,
      rfl⟩

/-- The languages are written and reported one after the other. -/
theorem reports_of_foldlM {config : LinkProbabilityConfig} {t : TextAnalysis}
    {languages : List Language} {before : List BuildStats} {opened store : KeyValueStore Binary64}
    (h : Succeeds (languages.foldlM (fun (r : List BuildStats × KeyValueStore Binary64) language =>
      buildLanguage config t corpus anchors r.2 language >>= fun next =>
        pure (r.1 ++ [next.1], next.2)) (before, opened)) s (stats, store) s') :
    ∃ reports, List.Forall₂ (Reported config t corpus anchors) languages reports ∧
      stats = before ++ reports.map Prod.fst ∧
      opened.Writes s.disk (reports.map Prod.snd).flatten store s'.disk := by
  induction languages generalizing before opened s with
  | nil =>
    rw [List.foldlM_nil, succeeds_pure, Prod.mk.injEq] at h
    obtain ⟨⟨rfl, rfl⟩, rfl⟩ := h
    exact ⟨[], .nil, (List.append_nil _).symm, .refl _ _⟩
  | cons language rest ih =>
    simp only [List.foldlM_cons, succeeds_bind, succeeds_pure] at h
    obtain ⟨_, u, ⟨⟨next, mid⟩, _, hlanguage, rfl, rfl⟩, hrest⟩ := h
    obtain ⟨puts, hreported, hwrites⟩ := buildLanguage_reports hlanguage
    obtain ⟨reports, hall, hstats, hmore⟩ := ih hrest
    rw [List.append_assoc] at hstats
    exact ⟨(next, puts) :: reports, .cons hreported hall, hstats, hwrites.trans hmore⟩

/-- Building into a directory opens a store there and writes the languages into it. -/
theorem buildInto_reports {directory : Path}
    (h : Succeeds (e.buildInto directory corpus anchors) s stats s') :
    ∃ opened t store reports,
      Succeeds (KeyValueStore.openWith directory {} : Action (KeyValueStore Binary64)) s opened t ∧
      (List.Forall₂ (Reported e.config e.analysis corpus anchors) e.config.languages reports ∧
        stats = reports.map Prod.fst) ∧
      opened.Writes t.disk (reports.map Prod.snd).flatten store s'.disk := by
  simp only [buildInto, succeeds_bind] at h
  obtain ⟨opened, t, hopen, ⟨stats', store⟩, u, hfold, hpure⟩ := h
  obtain ⟨reports, hall, hstats, hwrites⟩ := reports_of_foldlM hfold
  obtain ⟨rfl, rfl⟩ := succeeds_pure.mp hpure
  exact ⟨opened, t, store, reports, hopen, ⟨hall, hstats⟩, hwrites⟩

/-! ## What the staging directory still held -/

/-- The store that is left over where a staging directory is to be prepared: the directory is
not found under its path, and yet a log stands at the place that the path leads to. -/
def leftover? (fs : FileSystem) (target : Path) : Option (KeyValueStore Binary64) :=
  match fs.removeTree target.staging, fs.at? (target.staging.child logName).place with
  | .error .notFound, some (.file id) =>
    some (.ofScan target.staging {} id (scan (fs.content id)))
  | _, _ => none

/-- The entries of the store that is left over, none if there is no such store. -/
def LeftOver (fs : FileSystem) (target : Path) (entries : List LogEntry) : Prop :=
  match leftover? fs target with
  | some store => ∃ rest, store.Shows fs entries rest
  | none => entries = []

/-- A store in a fresh staging directory begins with what was left over there. -/
theorem leftOver_of_opened {fs fresh : FileSystem} {target : Path} (hfs : fs.WellFormed)
    (hfresh : Succeeds (Replacement.freshStaging target) fs target.staging fresh)
    {opened : KeyValueStore Binary64} {log : List LogRecord} {t : Session}
    (hopen : Succeeds (KeyValueStore.openWith target.staging {}) ⟨fresh, log⟩ opened t) :
    t.disk.WellFormed ∧ t.disk.at? (target.staging.child logName).place = some (.file opened.file) ∧
      ∃ entries, LeftOver fs target entries ∧ opened.Shows t.disk entries [] := by
  obtain ⟨_, hfreshWell, cleared, hclear, hfiles, hadds⟩ := Replacement.freshStaging_spec hfs hfresh
  obtain ⟨ht, hat, entries, hshows, hlog⟩ := KeyValueStore.openWith_writable rfl hfreshWell hopen
  obtain ⟨_, hclearedFiles, _, hcleared⟩ := Replacement.removeIfPresent_spec hfs hclear
  have hcontent : ∀ id, fresh.content id = fs.content id := fun id => by
    rw [FileSystem.content, hfiles, hclearedFiles]
    rfl
  refine ⟨ht, hat, entries, ?_, hshows⟩
  unfold LeftOver leftover?
  rcases hcleared with ⟨hmissing, rfl⟩ | ⟨hremoved, hgone⟩
  · rw [hmissing]
    rcases hlog with ⟨hnone, rfl⟩ | ⟨hfile, hstore, rest, hold⟩
    · have hbefore : cleared.at? (target.staging.child logName).place = none := by
        rcases hadds (target.staging.child logName).place with heq | ⟨hbefore, _⟩
        · rw [← heq]
          exact hnone
        · exact hbefore
      rw [hbefore]
    · have hbefore : cleared.at? (target.staging.child logName).place =
          some (.file opened.file) := by
        rcases hadds (target.staging.child logName).place with heq | ⟨_, hdirectory⟩
        · rw [← heq]
          exact hfile
        · cases hdirectory.symm.trans hfile
      rw [hbefore]
      change opened = KeyValueStore.ofScan _ _ _ (scan (fresh.content opened.file)) at hstore
      rw [hcontent] at hstore
      refine ⟨rest, ?_⟩
      rw [← hstore]
      exact hold.of_content ((hcontent _).symm.trans hold.content)
  · rw [hremoved]
    rcases hlog with ⟨_, rfl⟩ | ⟨hfile, _⟩
    · rfl
    · rw [Path.place_child KeyValueStore.isName_logName] at hfile
      rcases hadds (target.staging.place ++ [logName]) with heq | ⟨_, hdirectory⟩
      · cases ((hgone [logName]).symm.trans heq.symm).trans hfile
      · cases hdirectory.symm.trans hfile

/-! ## The store of a build -/

/-- After a build the store at the path shows what was left over in the staging directory, and
behind it what was written for the languages and is reported of them. -/
theorem build_reports (hs : s.disk.WellFormed)
    (h : (e.build corpus anchors workers).run s = ((.ok stats, e'), s')) :
    ∃ store entries new reports, e' = { e.bare with store := some store } ∧
      s'.disk.WellFormed ∧
      s'.disk.openFile (e.config.path.child logName) = .ok store.file ∧
      (List.Forall₂ (Reported e.config e.analysis corpus anchors) e.config.languages reports ∧
        stats = reports.map Prod.fst) ∧
      LeftOver s.disk e.config.path entries ∧
      KeyValueStore.assignments new =
        (reports.map Prod.snd).flatten.map (fun p => (p.1, Storable.encode p.2)) ∧
      store.Shows s'.disk (entries ++ new) [] := by
  obtain ⟨_, fresh, staged, replaced, store, hfresh, hinto, hreplace, hopen, rfl⟩ := build_eq_ok h
  obtain ⟨opened, t, written, reports, hopened, hall, hwrites⟩ := buildInto_reports hinto
  obtain ⟨ht, hat, entries, hleft, hshows⟩ := leftOver_of_opened hs hfresh hopened
  obtain ⟨new, hnew, hwritten⟩ := hwrites.shows (ht.allocated hat) hshows
  have hstaged : staged.disk.WellFormed := ht.of_root_eq hwrites.root hwrites.size
  -- the staged tree stands at the path, so the log there is the one that was written
  obtain ⟨name, hname⟩ := Replacement.fileName?_of_replaceDirectory hreplace
  obtain ⟨hst, hsr, htr⟩ := Path.apart_siblings hname
  obtain ⟨hreplaced, hfiles, hplaced, _⟩ :=
    Replacement.replaceDirectory_spec hstaged hst hsr htr hreplace
  have hlog : replaced.at? (e.config.path.child logName).place = some (.file opened.file) := by
    rw [Path.place_child KeyValueStore.isName_logName, hplaced,
      ← Path.place_child KeyValueStore.isName_logName, FileSystem.at?, hwrites.root]
    exact hat
  unfold KeyValueStore.openReadOnly at hopen
  rw [KeyValueStore.openWith_eq, if_pos rfl] at hopen
  obtain ⟨hdisk, file, hfile, rfl⟩ := KeyValueStore.scanLog_readOnly rfl hopen
  have hsame : file = opened.file := by
    have hplace := FileSystem.at?_of_openFile hreplaced hfile
    cases hplace.symm.trans hlog
    rfl
  subst hsame
  have hcontent : replaced.content opened.file = logBytes (entries ++ new) := by
    rw [FileSystem.content, hfiles]
    have := hwritten.content
    rwa [List.append_nil, hwrites.file] at this
  rw [hdisk]
  refine ⟨_, entries, new, reports, rfl, hreplaced, hfile, hall, hleft, hnew, ?_⟩
  rw [hcontent]
  exact KeyValueStore.shows_ofScan hwritten.fits hcontent

/-- What the store shows, without the reports. -/
theorem build_shows (hs : s.disk.WellFormed)
    (h : (e.build corpus anchors workers).run s = ((.ok stats, e'), s')) :
    ∃ store entries new putsOf, e' = { e.bare with store := some store } ∧
      s'.disk.WellFormed ∧
      s'.disk.openFile (e.config.path.child logName) = .ok store.file ∧
      List.Forall₂ (Written e.config e.analysis corpus anchors) e.config.languages putsOf ∧
      LeftOver s.disk e.config.path entries ∧
      KeyValueStore.assignments new =
        putsOf.flatten.map (fun p => (p.1, Storable.encode p.2)) ∧
      store.Shows s'.disk (entries ++ new) [] := by
  obtain ⟨store, entries, new, reports, he, hwell, hopen, ⟨hall, _⟩, hshows⟩ := build_reports hs h
  refine ⟨store, entries, new, reports.map Prod.snd, he, hwell, hopen, ?_, hshows⟩
  exact List.forall₂_map_right_iff.mpr (hall.imp fun _ _ => Reported.written)

end Estimator
end Relatedness
