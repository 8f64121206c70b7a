import Relatedness.Proofs.Percentile.Saved

/-! Going on with a normalizer that was loaded. Its source of slots starts anew, where that of the
normalizer that was saved has drawn a slot for each score beyond the largest number that is kept. So
the two go on alike if there was no such score yet. Otherwise they take in and keep equally many
scores, but may keep different ones. -/

namespace Relatedness.Normalizer

variable {S G : Type} [Scale S] [SlotSource G] {config : NormalizerConfig} {n m : Normalizer S G}

/-- Two normalizers with equally many scores, of which one is finished if the other is. -/
structure Alike (n m : Normalizer S G) : Prop where
  config : n.config = m.config
  observed : n.reservoir.observed = m.reservoir.observed
  size : n.reservoir.sample.size = m.reservoir.sample.size
  finished : n.isFinished = m.isFinished

omit [Scale S] in
theorem alike_reseeded (n : Normalizer S G) : n.Alike n.reseeded := ⟨rfl, rfl, rfl, rfl⟩

theorem Alike.observe (h : n.Alike m) (x : S) :
    (n.apply (.observe x)).Alike (m.apply (.observe x)) := by
  rcases apply_observe_cases n x with ⟨hleft, heq⟩ | ⟨hleft, slot, g, heq, _⟩ <;>
    rcases apply_observe_cases m x with ⟨hright, heq'⟩ | ⟨hright, slot', g', heq', _⟩ <;>
    rw [heq, heq']
  · exact h
  · cases hleft.symm.trans hright
  · cases hleft.symm.trans hright
  · refine ⟨h.config, ?_, ?_, rfl⟩
    · change (n.reservoir.count + 1).toNat = (m.reservoir.count + 1).toNat
      rw [UInt64.toNat_inj.mp h.observed]
    · rw [Reservoir.size_offer, Reservoir.size_offer, h.size, h.config]

theorem Alike.finish (h : n.Alike m) : (n.apply .finish).Alike (m.apply .finish) := by
  have hempty : n.reservoir.sample = #[] ↔ m.reservoir.sample = #[] := by
    rw [← Array.size_eq_zero_iff, h.size, Array.size_eq_zero_iff]
  rcases apply_finish_cases n with ⟨hleft, heq⟩ | ⟨hleft, c, heq⟩ <;>
    rcases apply_finish_cases m with ⟨hright, heq'⟩ | ⟨hright, c', heq'⟩ <;> rw [heq, heq']
  · exact h
  · exact absurd (hempty.mp hleft) hright
  · exact absurd (hempty.mpr hright) hleft
  · exact ⟨h.config, h.observed, by rw [size_mergeSort, size_mergeSort, h.size], rfl⟩

theorem Alike.apply (h : n.Alike m) (operation : Operation S) :
    (n.apply operation).Alike (m.apply operation) := by
  cases operation with
  | observe x => exact h.observe x
  | finish => exact h.finish
  | reset =>
    change (new n.config : Normalizer S G).Alike (new m.config)
    rw [h.config]
    exact ⟨rfl, rfl, rfl, rfl⟩

theorem Alike.run (h : n.Alike m) (operations : List (Operation S)) :
    (n.run operations).Alike (m.run operations) := by
  induction operations generalizing n m with
  | nil => exact h
  | cons operation rest ih => exact ih (h.apply operation)

/-- A reset forgets all but the configuration. -/
theorem Alike.run_eq_of_reset (h : n.Alike m) {operations : List (Operation S)}
    (hreset : .reset ∈ operations) : n.run operations = m.run operations := by
  induction operations generalizing n m with
  | nil => cases hreset
  | cons operation rest ih =>
    rcases List.mem_cons.mp hreset with rfl | hrest
    · change (new n.config : Normalizer S G).run rest = (new m.config).run rest
      rw [h.config]
    · exact ih (h.apply operation) hrest

/-- A normalizer that was saved after whatever was done to it is loaded with a source of slots that
has drawn none, where the one that was saved has drawn a slot for each score since its sample has
been full. Whatever is done later, both have taken in and kept equally many scores. They are the
same if there was no such score, and at the latest after the next reset. -/
theorem reloaded_continues {operations : List (Operation Binary64)} {path : Path}
    {fs saved : FileSystem} {n : Normalizer Binary64 G} (hn : n = (new config).run operations)
    (hfits : n.Fits) (hfs : fs.WellFormed) (hsave : Succeeds (n.save path) fs () saved) :
    n.slots = SlotSource.after (SlotSource.ofSeed n.config.seed) n.config.maxSampleSize
      (overflow n.config (tally operations)) ∧
    ∃ loaded : Normalizer Binary64 G, load saved path = .ok loaded ∧
      loaded = { n with slots := SlotSource.ofSeed n.config.seed } ∧
      ∀ later : List (Operation Binary64), (n.run later).Alike (loaded.run later) ∧
        (overflow n.config (tally operations) = 0 ∨ .reset ∈ later →
          n.run later = loaded.run later) := by
  have hregular : n.Regular config (tally operations) := hn ▸ regular_run config operations
  refine ⟨hregular.slots, n.reseeded, hregular.load_of_save hfits hfs hsave, rfl,
    fun later => ⟨?_, ?_⟩⟩
  · exact n.alike_reseeded.run later
  · rintro (hoverflow | hreset)
    · rw [hregular.reseeded_eq hoverflow]
    · exact n.alike_reseeded.run_eq_of_reset hreset

/-- A normalizer that keeps one score, after these. -/
def keptOne (scores : List Binary64) : Normalizer Binary64 Generator :=
  (new ⟨1, 1⟩).run (scores.map .observe)

theorem regular_keptOne (scores : List Binary64) :
    (keptOne scores).Regular ⟨1, 1⟩ (tally (scores.map .observe)) := regular_run _ _

theorem fits_keptOne (scores : List Binary64) : (keptOne scores).Fits := by
  refine ⟨?_⟩
  rw [(regular_keptOne scores).config]
  decide

/-- One score is saved, as many as are kept. The next two find the same slots drawn for them. -/
theorem reloaded_continues_keptOne :
    ∃ (saved : FileSystem) (loaded : Normalizer Binary64 Generator),
      Succeeds ((keptOne [⟨0x3ff0000000000000⟩]).save ⟨false, ["n"]⟩) (.empty 0) () saved ∧
      load saved ⟨false, ["n"]⟩ = .ok loaded ∧
      loaded.run [.observe ⟨0x4000000000000000⟩, .observe ⟨0x4024000000000000⟩] =
        (keptOne [⟨0x3ff0000000000000⟩]).run
          [.observe ⟨0x4000000000000000⟩, .observe ⟨0x4024000000000000⟩] := by
  have hsaves : (outcome ((keptOne [⟨0x3ff0000000000000⟩]).save ⟨false, ["n"]⟩) (.empty 0)).1.isOk =
    true := by decide +kernel
  obtain ⟨⟨⟩, hsave⟩ := exists_succeeds hsaves
  have hrun : keptOne [⟨0x3ff0000000000000⟩] =
    (new ⟨1, 1⟩).run [.observe ⟨0x3ff0000000000000⟩] := rfl
  obtain ⟨_, loaded, hload, _, hlater⟩ :=
    reloaded_continues hrun (fits_keptOne _) (.empty 0) hsave
  exact ⟨_, loaded, hsave, hload, ((hlater _).2 (.inl (by decide +kernel))).symm⟩

/-- A second score is offered before the save and a third behind it. It finds the next slot drawn
for it in the normalizer that was saved, and takes the place of the other score there. Where the
normalizer was loaded it finds the slot of the second score again, and does not. -/
theorem reloaded_continues_overflow :
    ∃ (saved : FileSystem) (loaded : Normalizer Binary64 Generator),
      Succeeds ((keptOne [⟨0x3ff0000000000000⟩, ⟨0x4000000000000000⟩]).save ⟨false, ["n"]⟩)
        (.empty 0) () saved ∧
      load saved ⟨false, ["n"]⟩ = .ok loaded ∧
      (loaded.run [.observe ⟨0x4024000000000000⟩]).reservoir.sample = #[⟨0x4000000000000000⟩] ∧
      ((keptOne [⟨0x3ff0000000000000⟩, ⟨0x4000000000000000⟩]).run
        [.observe ⟨0x4024000000000000⟩]).reservoir.sample = #[⟨0x4024000000000000⟩] := by
  have hsaves : (outcome ((keptOne [⟨0x3ff0000000000000⟩, ⟨0x4000000000000000⟩]).save
    ⟨false, ["n"]⟩) (.empty 0)).1.isOk = true := by decide +kernel
  obtain ⟨⟨⟩, hsave⟩ := exists_succeeds hsaves
  exact ⟨_, _, hsave, (regular_keptOne _).load_of_save (fits_keptOne _) (.empty 0) hsave,
    by decide +kernel, by decide +kernel⟩

end Relatedness.Normalizer
