import Relatedness.Proofs.Percentile.Saved
import Relatedness.Proofs.Percentile.Uniform

/-! A normalizer whose sample never gets full. It keeps all scores, so once it is finished nothing
shows in which order they came, nor where it was finished, asked, or saved and loaded in between. No
slot is drawn for it, so its source of slots does not show either. -/

namespace Relatedness.Normalizer

/-- What may be called on a normalizer, short of forgetting its scores. -/
inductive Call where
  | observe (x : Binary64)
  | finish
  | normalize (x : Binary64)
  /-- Save it and go on with what the file is loaded as. -/
  | reload (path : Path)

namespace Call

def observed? : Call → Option Binary64
  | observe x => some x
  | _ => none

/-- What a call does, apart from what saving and loading lose. -/
def operations : Call → List (Operation Binary64)
  | observe x => [.observe x]
  | finish => [.finish]
  | _ => []

end Call

/-- The finite numbers that are observed, in their order. -/
def scores (calls : List Call) : List Binary64 :=
  (calls.filterMap Call.observed?).filter Binary64.isFinite

theorem scores_cons (call : Call) (calls : List Call) :
    scores (call :: calls) = taken call.operations ++ scores calls := by
  cases call with
  | observe x =>
    change (x :: calls.filterMap Call.observed?).filter Binary64.isFinite =
      taken [.observe x] ++ scores calls
    cases hx : x.isFinite with
    | true => rw [List.filter_cons_of_pos hx, taken_observe hx]; rfl
    | false =>
      rw [List.filter_cons_of_neg (ne_true_of_eq_false hx), taken_observe_of_not_finite hx]
      rfl
  | _ => rfl

section Steps

variable {G : Type} [SlotSource G]

/-- A call on a normalizer and what there is afterwards. A call that fails leaves it as it is, and a
file that was just saved is loaded from a disk that may have held anything before. -/
inductive Step (n : Normalizer Binary64 G) : Call → Normalizer Binary64 G → Prop
  | observe (x : Binary64) : Step n (.observe x) (n.observe x)
  | finished {n' : Normalizer Binary64 G} (h : n.finish = .ok n') : Step n .finish n'
  | unfinished {e : Error} (h : n.finish = .error e) : Step n .finish n
  | normalize (x : Binary64) : Step n (.normalize x) n
  | reloaded {path : Path} {fs fs' : FileSystem} {n' : Normalizer Binary64 G} (hfs : fs.WellFormed)
      (hsave : Succeeds (n.save path) fs () fs') (hload : load fs' path = .ok n') :
      Step n (.reload path) n'
  | unsaved {path : Path} {fs fs' : FileSystem} {e : IoError}
      (hsave : Fails (n.save path) fs e fs') : Step n (.reload path) n

/-- One call after another. -/
inductive Reaches : Normalizer Binary64 G → List Call → Normalizer Binary64 G → Prop
  | nil (n : Normalizer Binary64 G) : Reaches n [] n
  | cons {n n' n'' : Normalizer Binary64 G} {call : Call} {calls : List Call}
      (hstep : Step n call n') (hrest : Reaches n' calls n'') : Reaches n (call :: calls) n''

variable {config : NormalizerConfig} {total : Nat} {n n' : Normalizer Binary64 G} {call : Call}
  {calls : List Call}

/-- A normalizer whose sample is not full comes back from its file as it was, source of slots
included. -/
theorem load_of_save_of_few (h : n.Regular config total) (hconfig : config.maxSampleSize < 2 ^ 64)
    (hfew : total ≤ config.maxSampleSize) {path : Path} {fs fs' : FileSystem}
    (hfs : fs.WellFormed) (hsave : Succeeds (n.save path) fs () fs') : load fs' path = .ok n := by
  rw [← h.config] at hconfig hfew
  rw [h.load_of_save ⟨hconfig⟩ hfs hsave, h.reseeded_eq (overflow_of_le hfew)]

theorem Step.eq_run (hstep : Step n call n') (h : n.Regular config total)
    (hconfig : config.maxSampleSize < 2 ^ 64) (hfew : total ≤ config.maxSampleSize) :
    n' = n.run call.operations := by
  cases hstep with
  | observe x => rfl
  | finished hfinish =>
    change n' = n.apply .finish
    rw [apply, hfinish]
  | unfinished hfinish =>
    change n = n.apply .finish
    rw [apply, hfinish]
  | normalize x => rfl
  | reloaded hfs hsave hload =>
    rw [load_of_save_of_few h hconfig hfew hfs hsave] at hload
    exact (Except.ok.inj hload).symm
  | unsaved hsave => rfl

/-- Each call can be made. A file is loaded where the disk lets it be saved. -/
theorem step_run (h : n.Regular config total) (hconfig : config.maxSampleSize < 2 ^ 64)
    (hfew : total ≤ config.maxSampleSize)
    (hdisk : ∀ path, call = .reload path →
      ∃ fs fs', fs.WellFormed ∧ Succeeds (n.save path) fs () fs') :
    Step n call (n.run call.operations) := by
  cases call with
  | observe x => exact .observe x
  | finish =>
    change Step n .finish (n.apply .finish)
    rw [apply]
    cases hfinish : n.finish with
    | ok n' => exact .finished hfinish
    | error e => exact .unfinished hfinish
  | normalize x => exact .normalize x
  | reload path =>
    obtain ⟨fs, fs', hfs, hsave⟩ := hdisk path rfl
    exact .reloaded hfs hsave (load_of_save_of_few h hconfig hfew hfs hsave)

/-- Calls take in their finite numbers and nothing else. The induction is on the calls: as the
sample is not full after the last of them, it is not full before. -/
theorem Reaches.took {g : G} {earlier : List Binary64} (hreaches : Reaches n calls n')
    (h : n.Regular config earlier.length) (htook : n.Took config g earlier)
    (hconfig : config.maxSampleSize < 2 ^ 64)
    (hfew : (earlier ++ scores calls).length ≤ config.maxSampleSize) :
    n'.Took config g (earlier ++ scores calls) := by
  induction hreaches generalizing earlier with
  | nil n => exact (List.append_nil earlier).symm ▸ htook
  | @cons n m _ call calls hstep _ ih =>
    rw [scores_cons, ← List.append_assoc] at hfew ⊢
    have hroom : earlier.length ≤ config.maxSampleSize := by
      simp only [List.length_append] at hfew
      omega
    have hreset : .reset ∉ call.operations := by cases call <;> simp [Call.operations]
    have hnext := h.run call.operations
    rw [foldl_tally_eq_add hreset, ← List.length_append] at hnext
    rw [hstep.eq_run h hconfig hroom] at ih
    exact ih hnext (htook.run hreset) hfew

/-- A new normalizer has all finite numbers of its calls as its sample, and has drawn no slot. -/
theorem Reaches.all_kept (hreaches : Reaches (new config) calls n)
    (hconfig : config.maxSampleSize < 2 ^ 64)
    (hfew : (scores calls).length ≤ config.maxSampleSize) :
    n.config = config ∧ n.reservoir.count = UInt64.ofNat (scores calls).length ∧
      n.reservoir.sample.toList.Perm (scores calls) ∧ n.slots = SlotSource.ofSeed config.seed := by
  have htook := hreaches.took (regular_new config)
    (took_fresh config (SlotSource.ofSeed config.seed : G)) hconfig hfew
  rw [List.nil_append] at htook
  have hslots := htook.drawn
  rw [Drawn, htook.config, overflow_of_le hfew] at hslots
  exact ⟨htook.config, htook.stocked.count, htook.perm hfew, hslots⟩

end Steps

variable {G G' : Type} [SlotSource G] [SlotSource G'] {config : NormalizerConfig}
  {calls calls' : List Call} {n : Normalizer Binary64 G} {m : Normalizer Binary64 G'}

omit [SlotSource G] [SlotSource G'] in
/-- Two samples of the same numbers are finished alike. -/
theorem finish_of_perm (h : n.reservoir.sample.toList.Perm m.reservoir.sample.toList) :
    (n.reservoir.sample = #[] ∧ n.finish = .error .emptySample ∧ m.finish = .error .emptySample) ∨
      ∃ (sorted : Array Binary64) (c : Curve Binary64),
        n.finish = .ok { n with
          reservoir := { n.reservoir with sample := sorted }
          curve := some c } ∧
        m.finish = .ok { m with
          reservoir := { m.reservoir with sample := sorted }
          curve := some c } := by
  have hsorted : n.reservoir.sample.toList.mergeSort Scale.totalLe =
      m.reservoir.sample.toList.mergeSort Scale.totalLe := Binary64.mergeSort_eq_of_perm h
  rcases finish_cases n with ⟨hn, hfinish⟩ | ⟨c, hc, hfinish⟩ <;>
    rcases finish_cases m with ⟨hm, hfinish'⟩ | ⟨c', hc', hfinish'⟩
  · exact .inl ⟨hn, hfinish, hfinish'⟩
  · rw [← hsorted, hn, List.mergeSort_nil] at hc'
    cases hc'
  · rw [hsorted, hm, List.mergeSort_nil] at hc
    cases hc
  · rw [hsorted, hc'] at hc
    cases hc
    exact .inr ⟨_, c, hfinish, hsorted ▸ hfinish'⟩

/-- What a normalizer shows depends on which numbers it was given, and how often each, as long as
there are no more of them than it keeps. Two that were given the same finite numbers, in whatever
order and with whatever calls in between, are both without any, or are finished with the same sample
and give the same answers. Neither has drawn a slot, so their sources need not even be of one kind. -/
theorem finish_unordered (hconfig : config.maxSampleSize < 2 ^ 64)
    (hn : Reaches (new config) calls n) (hm : Reaches (new config) calls' m)
    (hperm : (scores calls).Perm (scores calls'))
    (hfew : (scores calls).length ≤ config.maxSampleSize) :
    n.slots = SlotSource.ofSeed config.seed ∧ m.slots = SlotSource.ofSeed config.seed ∧
    ((scores calls = [] ∧ n.finish = .error .emptySample ∧ m.finish = .error .emptySample) ∨
      ∃ n' m', n.finish = .ok n' ∧ m.finish = .ok m' ∧
        n'.slots = SlotSource.ofSeed config.seed ∧ m'.slots = SlotSource.ofSeed config.seed ∧
        n'.config = m'.config ∧ n'.reservoir = m'.reservoir ∧ n'.curve = m'.curve ∧
        (∀ x, n'.normalize x = m'.normalize x) ∧ n'.range = m'.range ∧
        n'.percentiles = m'.percentiles) := by
  obtain ⟨hconfig_n, hcount, hkept, hslots⟩ := hn.all_kept hconfig hfew
  obtain ⟨hconfig_m, hcount', hkept', hslots'⟩ := hm.all_kept hconfig (hperm.length_eq ▸ hfew)
  refine ⟨hslots, hslots', ?_⟩
  rcases finish_of_perm (hkept.trans (hperm.trans hkept'.symm)) with
    ⟨hempty, hfinish, hfinish'⟩ | ⟨sorted, c, hfinish, hfinish'⟩
  · rw [hempty] at hkept
    exact .inl ⟨hkept.symm.eq_nil, hfinish, hfinish'⟩
  · have hreservoir : ({ n.reservoir with sample := sorted } : Reservoir Binary64) =
        { m.reservoir with sample := sorted } := by
      rw [Reservoir.mk.injEq, hcount, hcount', hperm.length_eq]
      exact ⟨rfl, rfl⟩
    exact .inr ⟨_, _, hfinish, hfinish', hslots, hslots', hconfig_n.trans hconfig_m.symm, hreservoir,
      rfl, fun _ => rfl, rfl, rfl⟩

/-- Both zeros and a three are observed in two orders, once with a save and a sort between them and
slots of a generator, and once with what is not a number and slots of an empty script. -/
theorem finish_unordered_zeros :
    let calls : List Call :=
      [.observe ⟨0⟩, .observe ⟨3⟩, .finish, .reload ⟨false, ["n"]⟩, .observe ⟨0x8000000000000000⟩]
    let calls' : List Call :=
      [.observe ⟨3⟩, .observe ⟨0x8000000000000000⟩, .observe .undefined, .observe ⟨0⟩]
    ∃ (n : Normalizer Binary64 Generator) (m : Normalizer Binary64 SlotScript),
      Reaches (new ⟨3, 7⟩) calls n ∧ Reaches (new ⟨3, 7⟩) calls' m ∧ m.slots.ranges = [] ∧
      ∃ n' m', n.finish = .ok n' ∧ m.finish = .ok m' ∧ n'.reservoir = m'.reservoir ∧
        n'.range = m'.range := by
  intro calls calls'
  let before : Normalizer Binary64 Generator :=
    (new ⟨3, 7⟩).run [.observe ⟨0⟩, .observe ⟨3⟩, .finish]
  have hbefore : before.Regular ⟨3, 7⟩ _ := regular_run _ _
  have hsaves : (outcome (before.save ⟨false, ["n"]⟩) (.empty 0)).1.isOk = true := by
    decide +kernel
  obtain ⟨⟨⟩, hsave⟩ := exists_succeeds hsaves
  have hreload : Step before (.reload ⟨false, ["n"]⟩) before :=
    step_run hbefore (by decide) (by decide +kernel) fun path hpath => by
      cases hpath
      exact ⟨_, _, .empty 0, hsave⟩
  have hfinish : Step ((new ⟨3, 7⟩).run [.observe ⟨0⟩, .observe ⟨3⟩]) .finish before :=
    step_run (regular_run _ _) (by decide) (by decide +kernel) nofun
  have hn : Reaches (new ⟨3, 7⟩) calls (before.observe ⟨0x8000000000000000⟩) :=
    .cons (.observe _) (.cons (.observe _) (.cons hfinish (.cons hreload
      (.cons (.observe _) (.nil _)))))
  have hm : Reaches (new ⟨3, 7⟩ : Normalizer Binary64 SlotScript) calls' _ :=
    .cons (.observe _) (.cons (.observe _) (.cons (.observe _) (.cons (.observe _) (.nil _))))
  obtain ⟨-, hslots, hempty | ⟨n', m', hn', hm', -, -, -, hsame, -, -, hrange, -⟩⟩ :=
    finish_unordered (by decide) hn hm (by decide +kernel) (by decide +kernel)
  · exact absurd hempty.1 (by decide +kernel)
  · exact ⟨_, _, hn, hm, congrArg SlotScript.ranges hslots, n', m', hn', hm', hsame, hrange⟩

end Relatedness.Normalizer
