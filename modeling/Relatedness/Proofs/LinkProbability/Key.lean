import Relatedness.LinkProbability.Key

/-! The keys of phrases are read back as what they were made from, so phrases of distinct
languages or distinct words have distinct keys, and no key of a phrase is one of a subgram. -/

namespace Relatedness

namespace Text

theorem splitFirst_append {c : Char} {before : List Char} (h : c ∉ before) (behind : List Char) :
    splitFirst c (before ++ c :: behind) = some (before, behind) := by
  induction before with
  | nil => simp [splitFirst]
  | cons d rest ih =>
    have hne : d ≠ c := fun heq => h (heq ▸ List.mem_cons_self)
    rw [List.cons_append, splitFirst, if_neg hne, ih fun hmem => h (List.mem_cons_of_mem _ hmem)]
    rfl

theorem of_splitFirst {c : Char} {chars before behind : List Char}
    (h : splitFirst c chars = some (before, behind)) :
    c ∉ before ∧ chars = before ++ c :: behind := by
  induction chars generalizing before with
  | nil => cases h
  | cons d rest ih =>
    rw [splitFirst] at h
    split at h
    · rename_i heq
      cases h
      exact ⟨List.not_mem_nil, by rw [heq]; rfl⟩
    · rename_i hne
      obtain ⟨⟨before', behind'⟩, hsplit, heq⟩ := Option.map_eq_some_iff.mp h
      cases heq
      obtain ⟨hnot, rfl⟩ := ih hsplit
      refine ⟨fun hmem => ?_, rfl⟩
      rcases List.mem_cons.mp hmem with hc | hmem
      · exact hne hc.symm
      · exact hnot hmem

theorem splitAll_ne_nil (c : Char) (chars : List Char) : splitAll c chars ≠ [] := by
  cases chars with
  | nil => simp [splitAll]
  | cons d rest =>
    rw [splitAll]
    split
    · simp
    · split <;> simp

theorem splitAll_of_not_mem {c : Char} {piece : List Char} (h : c ∉ piece) :
    splitAll c piece = [piece] := by
  induction piece with
  | nil => rfl
  | cons d rest ih =>
    have hne : d ≠ c := fun heq => h (heq ▸ List.mem_cons_self)
    rw [splitAll, if_neg hne, ih fun hmem => h (List.mem_cons_of_mem _ hmem)]

theorem splitAll_append {c : Char} {piece : List Char} (h : c ∉ piece) (rest : List Char) :
    splitAll c (piece ++ c :: rest) = piece :: splitAll c rest := by
  induction piece with
  | nil => simp [splitAll]
  | cons d more ih =>
    have hne : d ≠ c := fun heq => h (heq ▸ List.mem_cons_self)
    rw [List.cons_append, splitAll, if_neg hne, ih fun hmem => h (List.mem_cons_of_mem _ hmem)]

/-- Splitting undoes joining where the character stands between the pieces only. -/
theorem splitAll_intercalate {c : Char} {pieces : List (List Char)} (hne : pieces ≠ [])
    (h : ∀ piece ∈ pieces, c ∉ piece) : splitAll c ([c].intercalate pieces) = pieces := by
  induction pieces with
  | nil => exact absurd rfl hne
  | cons piece rest ih =>
    have hpiece := h piece List.mem_cons_self
    by_cases hrest : rest = []
    · subst hrest
      rw [List.intercalate_singleton, splitAll_of_not_mem hpiece]
    · rw [List.intercalate_cons_of_ne_nil hrest, List.append_assoc, List.singleton_append,
        splitAll_append hpiece, ih hrest fun other hmem => h other (List.mem_cons_of_mem _ hmem)]

/-- Joining undoes splitting. -/
theorem intercalate_splitAll (c : Char) (chars : List Char) :
    [c].intercalate (splitAll c chars) = chars := by
  induction chars with
  | nil => rfl
  | cons d rest ih =>
    rw [splitAll]
    split
    · rename_i heq
      rw [List.intercalate_cons_of_ne_nil (splitAll_ne_nil c rest), ih, heq]
      rfl
    · split
      · rename_i hnil
        exact absurd hnil (splitAll_ne_nil c rest)
      · rename_i piece pieces hsplit
        rw [hsplit] at ih
        cases pieces with
        | nil => rw [List.intercalate_singleton, ← ih, List.intercalate_singleton]
        | cons next more =>
          have hmore : next :: more ≠ [] := List.cons_ne_nil next more
          rw [List.intercalate_cons_of_ne_nil hmore] at ih
          rw [← ih, List.intercalate_cons_of_ne_nil hmore]
          rfl

theorem not_mem_of_mem_splitAll {c : Char} {chars piece : List Char}
    (h : piece ∈ splitAll c chars) : c ∉ piece := by
  induction chars generalizing piece with
  | nil =>
    rw [splitAll, List.mem_singleton] at h
    subst h
    exact List.not_mem_nil
  | cons d rest ih =>
    rw [splitAll] at h
    split at h
    · rcases List.mem_cons.mp h with rfl | h
      · exact List.not_mem_nil
      · exact ih h
    · rename_i hne
      split at h
      · rw [List.mem_singleton] at h
        subst h
        simpa [eq_comm] using hne
      · rename_i first more hsplit
        rw [hsplit] at ih
        rcases List.mem_cons.mp h with rfl | h
        · have := ih List.mem_cons_self
          simp only [List.mem_cons, not_or]
          exact ⟨fun heq => hne heq.symm, this⟩
        · exact ih (List.mem_cons_of_mem _ h)

/-- The digits of a word are read back as the word. -/
theorem parseWord_toString (word : UInt64) : parseWord (toString word.toNat).toList = some word := by
  rw [Nat.toString_eq_ofList_toDigits, String.toList_ofList]
  generalize hdigits : Nat.toDigits 10 word.toNat = digits
  have hall : ∀ c ∈ digits, c.isDigit = true := fun c hc =>
    Nat.isDigit_of_mem_toDigits (by decide) (by decide) (hdigits ▸ hc)
  have hne : digits ≠ [] := hdigits ▸ Nat.toDigits_ne_nil
  have hvalue : digits.foldl (fun n d => n * 10 + (d.toNat - '0'.toNat)) 0 = word.toNat := by
    have hread := Nat.ofDigitChars_toDigits (b := 10) (n := word.toNat) (by decide) (by decide)
    rw [hdigits, Nat.ofDigitChars_eq_foldl] at hread
    simpa only [Nat.mul_comm] using hread
  unfold parseWord
  split
  · exact absurd (hall '+' List.mem_cons_self) (by decide)
  · simp only [hvalue]
    rw [if_pos, UInt64.ofNat_toNat]
    simpa [hne, word.toNat_lt] using hall

end Text

/-- The code can stand before the colon of a key. -/
structure Language.Codable (language : Language) : Prop where
  ne : language.code ≠ ""
  colon : ':' ∉ language.code.toList

namespace StoredKey

variable {language language' : Language} {words words' : List String} {key : String}

/-- The key of this phrase shows where the code ends and where the words begin and end. -/
structure Separable (language : Language) (words : List String) : Prop where
  ne : words ≠ []
  colon : ':' ∉ language.code.toList
  space : ∀ word ∈ words, ' ' ∉ word.toList
  /-- It is not spelled like the key of a subgram. -/
  plain : language.code = "" → ∀ first ∈ words.head?, ¬['s', ':'] <+: first.toList

theorem Separable.of_codable (hlanguage : language.Codable) (hne : words ≠ [])
    (hspace : ∀ word ∈ words, ' ' ∉ word.toList) : Separable language words :=
  ⟨hne, hlanguage.colon, hspace, fun hempty => absurd hempty hlanguage.ne⟩

theorem toList_ofPhrase (language : Language) (words : List String) :
    (ofPhrase language words).toList =
      language.code.toList ++ ':' :: [' '].intercalate (words.map String.toList) := by
  rw [ofPhrase, String.toList_append, String.toList_append, String.toList_intercalate,
    List.append_assoc]
  rfl

theorem toList_ofSubgram (hash : UInt64) :
    (ofSubgram hash).toList = ':' :: 's' :: ':' :: (toString hash.toNat).toList := by
  rw [ofSubgram, String.toList_append]
  rfl

/-- The words begin with what the first of them begins with, unless a space is in it. -/
theorem prefix_intercalate_iff (hne : words ≠ []) :
    ['s', ':'] <+: [' '].intercalate (words.map String.toList) ↔
      ∃ first ∈ words.head?, ['s', ':'] <+: first.toList := by
  obtain ⟨first, rest, rfl⟩ := List.exists_cons_of_ne_nil hne
  have hjoined : ∃ tail, [' '].intercalate ((first :: rest).map String.toList) =
      first.toList ++ tail ∧ ∀ c ∈ tail.head?, c = ' ' := by
    cases rest with
    | nil => exact ⟨[], by simp, by simp⟩
    | cons next more =>
      refine ⟨' ' :: [' '].intercalate ((next :: more).map String.toList), ?_, by simp⟩
      rw [List.map_cons, List.intercalate_cons_of_ne_nil (by simp), List.append_assoc]
      rfl
  obtain ⟨tail, hjoined, htail⟩ := hjoined
  rw [hjoined]
  simp only [List.head?_cons, Option.mem_def, Option.some.injEq, exists_eq_left']
  constructor
  · intro h
    match hchars : first.toList with
    | [] =>
      rw [hchars, List.nil_append] at h
      obtain ⟨more, rfl⟩ := h
      cases htail 's' rfl
    | [c] =>
      rw [hchars] at h
      obtain ⟨_, hrest⟩ := List.cons_prefix_cons.mp h
      obtain ⟨more, rfl⟩ := hrest
      cases htail ':' rfl
    | c :: d :: more =>
      rw [hchars] at h
      obtain ⟨hc, hrest⟩ := List.cons_prefix_cons.mp h
      obtain ⟨hd, _⟩ := List.cons_prefix_cons.mp hrest
      exact ⟨more, by rw [hc, hd]; rfl⟩
  · exact fun h => h.trans (List.prefix_append _ _)

theorem Separable.unmarked (h : Separable language words) :
    ¬[':', 's', ':'] <+: (ofPhrase language words).toList := by
  rw [toList_ofPhrase]
  intro hmark
  cases hcode : language.code.toList with
  | nil =>
    rw [hcode, List.nil_append, List.cons_prefix_cons, prefix_intercalate_iff h.ne] at hmark
    obtain ⟨_, first, hfirst, hmarked⟩ := hmark
    exact h.plain (String.toList_eq_nil_iff.mp hcode) first hfirst hmarked
  | cons c rest =>
    rw [hcode, List.cons_append, List.cons_prefix_cons] at hmark
    exact h.colon (hcode ▸ hmark.1 ▸ List.mem_cons_self)

theorem parse_of_unmarked (h : ¬[':', 's', ':'] <+: key.toList) :
    parse key = match Text.splitFirst ':' key.toList with
      | some (code, words) =>
        phrase ⟨String.ofList code⟩ ((Text.splitAll ' ' words).map String.ofList)
      | none => malformedPhrase := by
  unfold parse
  split
  · rename_i digits heq
    exact absurd (heq ▸ List.prefix_append [':', 's', ':'] digits) h
  · rfl

theorem parse_of_marked (h : [':', 's', ':'] <+: key.toList) :
    parse key ≠ .phrase language words := by
  obtain ⟨digits, hdigits⟩ := h
  unfold parse
  rw [← hdigits]
  simp only [List.cons_append, List.nil_append]
  split <;> exact fun heq => nomatch heq

/-- Every key that is read as a phrase is the key of that phrase. It is read so if the phrase can
be told from its key. -/
theorem parse_eq_phrase_iff :
    parse key = .phrase language words ↔ key = ofPhrase language words ∧ Separable language words := by
  constructor
  · intro h
    have hplain : ¬[':', 's', ':'] <+: key.toList := fun hmark => parse_of_marked hmark h
    rw [parse_of_unmarked hplain] at h
    split at h
    · rename_i code behind hsplit
      cases h
      obtain ⟨hcode, hchars⟩ := Text.of_splitFirst hsplit
      have hwords : ((Text.splitAll ' ' behind).map String.ofList).map String.toList =
          Text.splitAll ' ' behind := by simp [Function.comp_def]
      have hkey : key = ofPhrase ⟨String.ofList code⟩
          ((Text.splitAll ' ' behind).map String.ofList) := by
        rw [← String.toList_inj, toList_ofPhrase, hwords, Text.intercalate_splitAll, hchars,
          String.toList_ofList]
      have hne : (Text.splitAll ' ' behind).map String.ofList ≠ [] := by
        simpa using Text.splitAll_ne_nil ' ' behind
      refine ⟨hkey, hne, by rwa [String.toList_ofList], fun word hword => ?_,
        fun hempty first hfirst hmarked => hplain ?_⟩
      · obtain ⟨piece, hpiece, rfl⟩ := List.mem_map.mp hword
        rw [String.toList_ofList]
        exact Text.not_mem_of_mem_splitAll hpiece
      · rw [hkey, toList_ofPhrase, show (⟨String.ofList code⟩ : Language).code = "" from hempty]
        exact List.cons_prefix_cons.mpr
          ⟨rfl, (prefix_intercalate_iff hne).mpr ⟨first, hfirst, hmarked⟩⟩
    · cases h
  · rintro ⟨rfl, h⟩
    have hwords : Text.splitAll ' ' ([' '].intercalate (words.map String.toList)) =
        words.map String.toList := by
      refine Text.splitAll_intercalate (by simpa using h.ne) fun piece hmem => ?_
      obtain ⟨word, hword, rfl⟩ := List.mem_map.mp hmem
      exact h.space word hword
    rw [parse_of_unmarked h.unmarked, toList_ofPhrase, Text.splitFirst_append h.colon]
    simp only [hwords, List.map_map, String.ofList_toList]
    simp [Function.comp_def]

theorem Separable.parse (h : Separable language words) :
    parse (ofPhrase language words) = .phrase language words :=
  parse_eq_phrase_iff.mpr ⟨rfl, h⟩

theorem parse_ofSubgram (hash : UInt64) : parse (ofSubgram hash) = .subgram hash := by
  unfold StoredKey.parse
  rw [toList_ofSubgram]
  simp only [Text.parseWord_toString]

theorem ofSubgram_inj {hash hash' : UInt64} (h : ofSubgram hash = ofSubgram hash') :
    hash = hash' := by
  have hparse := congrArg StoredKey.parse h
  rw [parse_ofSubgram, parse_ofSubgram] at hparse
  exact StoredKey.subgram.inj hparse

/-- Distinct phrases have distinct keys. -/
theorem Separable.inj (h : Separable language words) (h' : Separable language' words')
    (heq : ofPhrase language words = ofPhrase language' words') :
    language = language' ∧ words = words' := by
  have hparse := congrArg StoredKey.parse heq
  rw [h.parse, h'.parse] at hparse
  exact StoredKey.phrase.inj hparse

theorem Separable.ofSubgram_ne (h : Separable language words) (hash : UInt64) :
    ofSubgram hash ≠ ofPhrase language words := by
  intro heq
  have hparse := congrArg StoredKey.parse heq
  rw [h.parse, parse_ofSubgram] at hparse
  cases hparse

end StoredKey
end Relatedness
