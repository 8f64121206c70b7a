import Relatedness.Codec.Header
import Relatedness.Proofs.Codec.Bytes

/-! Decoding what was encoded. Of a value that was written field by field, each decoder takes just
the bytes of its own field from the front and leaves the others to those behind it. Where the bytes
end before the last field, the first one that is not wholly there ends the decoding. So a file that
is cut off anywhere is refused, be it in its header or behind it. -/

namespace Relatedness

/-- A strict beginning of a list is shorter. -/
theorem length_lt_of_begins {α : Type} {piece l : List α} (h : piece <+: l) (hne : piece ≠ l) :
    piece.length < l.length :=
  Nat.lt_of_le_of_ne h.length_le fun hlength => hne (h.eq_of_length hlength)

/-- A beginning of two rows ends in the first, or in the second behind the whole first. -/
theorem prefix_append_cases {α : Type} {piece front more : List α} (h : piece <+: front ++ more) :
    (piece <+: front ∧ piece ≠ front) ∨ ∃ rest, piece = front ++ rest ∧ rest <+: more := by
  rcases Nat.lt_or_ge piece.length front.length with hlt | hge
  · refine .inl ⟨List.prefix_of_prefix_length_le h (List.prefix_append _ _) hlt.le, ?_⟩
    rintro rfl
    exact Nat.lt_irrefl _ hlt
  · obtain ⟨rest, rfl⟩ := List.prefix_of_prefix_length_le (List.prefix_append front more) h hge
    exact .inr ⟨rest, rfl, (List.prefix_append_right_inj front).mp h⟩

namespace Decoder

variable {α β : Type}

/-- The decoder takes these bytes from the front of whatever begins with them and gives the value,
and gives none if they are cut off. -/
structure Takes (d : Decoder α) (bytes : Bytes) (a : α) : Prop where
  reads : ∀ rest, d.run (bytes ++ rest) = .ok (a, rest)
  torn : ∀ {piece : Bytes}, piece <+: bytes → piece ≠ bytes → d.run piece = .error .unexpectedEnd

theorem Takes.pure (a : α) : Takes (pure a) [] a where
  reads _ := rfl
  torn hpre hne := absurd (List.prefix_nil.mp hpre) hne

theorem Takes.bind {d : Decoder α} {f : α → Decoder β} {bytes more : Bytes} {a : α} {b : β}
    (h : Takes d bytes a) (hf : Takes (f a) more b) : Takes (d >>= f) (bytes ++ more) b where
  reads := by
    intro rest
    rw [List.append_assoc, StateT.run_bind, h.reads]
    exact hf.reads rest
  torn := by
    intro piece hpre hne
    rw [StateT.run_bind]
    rcases prefix_append_cases hpre with ⟨hfirst, hless⟩ | ⟨rest, rfl, hsecond⟩
    · rw [h.torn hfirst hless]
      rfl
    · rw [h.reads rest]
      exact hf.torn hsecond fun heq => hne (congrArg (bytes ++ ·) heq)

theorem Takes.map {d : Decoder α} {f : α → β} {bytes : Bytes} {a : α} (h : Takes d bytes a) :
    Takes (do return f (← d)) bytes (f a) := by
  have hpure := h.bind (f := fun a => Pure.pure (f a)) (.pure (f a))
  rwa [List.append_nil] at hpure

theorem Takes.decode {d : Decoder α} {bytes : Bytes} {a : α} (h : Takes d bytes a) (rest : Bytes) :
    d.decode (bytes ++ rest) = .ok a := by
  rw [Decoder.decode, h.reads rest]
  rfl

theorem Takes.decode_torn {d : Decoder α} {bytes piece : Bytes} {a : α} (h : Takes d bytes a)
    (hpre : piece <+: bytes) (hne : piece ≠ bytes) : d.decode piece = .error .unexpectedEnd := by
  rw [Decoder.decode, h.torn hpre hne]
  rfl

/-! ## Fields -/

theorem takes_bytes (bytes : Bytes) : Takes (Decoder.bytes bytes.length) bytes bytes where
  reads := by
    intro rest
    have hsplit := Bytes.split?_append (a := bytes) rfl rest
    simp only [StateT.run, Decoder.bytes, hsplit]
  torn := by
    intro piece hpre hne
    have hsplit := Bytes.split?_eq_none (length_lt_of_begins hpre hne)
    simp only [StateT.run, Decoder.bytes, hsplit]

theorem takes_word {n value : Nat} (h : value < 256 ^ n) :
    Takes (word n) (Bytes.word n value) value := by
  have hbytes := takes_bytes (Bytes.word n value)
  rw [Bytes.length_word] at hbytes
  have hword := hbytes.map (f := Bytes.toNat)
  rwa [Bytes.toNat_word, Nat.mod_eq_of_lt h] at hword

theorem takes_binary64 (x : Binary64) : Takes binary64 (Bytes.word 8 x.bits.toNat) x := by
  have hbits : UInt64.ofNat x.bits.toNat = x.bits := UInt64.ofNat_toNat
  have hword := (takes_word (n := 8) x.bits.toNat_lt).map (f := fun n => Binary64.mk (.ofNat n))
  rwa [hbits] at hword

theorem takes_bool (b : Bool) : Takes bool (Bytes.word 1 b.toNat) b := by
  have hlt : b.toNat < 256 ^ 1 := Nat.lt_of_le_of_lt b.toNat_le (by decide)
  unfold bool
  -- behind the byte nothing is read any more
  conv => arg 2; rw [← List.append_nil (Bytes.word 1 b.toNat)]
  refine (takes_word hlt).bind ?_
  cases b <;> exact .pure _

/-- A text is the number of its bytes and the bytes. -/
theorem takes_text {value : String} (h : value.utf8ByteSize < 2 ^ 64) :
    Takes text (Bytes.word 8 (Bytes.ofText value).length ++ Bytes.ofText value) value := by
  have hlength : (Bytes.ofText value).length < 256 ^ 8 := by
    rw [Bytes.length_ofText]
    omega
  refine (takes_word hlength).bind ?_
  -- behind the bytes nothing is read any more
  conv => arg 2; rw [← List.append_nil (Bytes.ofText value)]
  refine (takes_bytes (Bytes.ofText value)).bind ?_
  rw [Bytes.toText?_ofText]
  exact .pure value

theorem takes_times {item : Decoder β} {encode : α → Bytes} {f : α → β} {l : List α}
    (h : ∀ a ∈ l, Takes item (encode a) (f a)) :
    Takes (times item l.length) (l.flatMap encode) (l.map f) := by
  induction l with
  | nil => exact .pure []
  | cons a rest ih =>
    have hrest := ih fun b hb => h b (List.mem_cons_of_mem a hb)
    exact (h a List.mem_cons_self).bind hrest.map

/-- A list is its length and its items. -/
theorem takes_list {item : Decoder β} {encode : α → Bytes} {f : α → β} {l : List α}
    (hlength : l.length < 2 ^ 64) (h : ∀ a ∈ l, Takes item (encode a) (f a)) :
    Takes (list item) (Bytes.word 8 l.length ++ l.flatMap encode) (l.map f) :=
  (takes_word hlength).bind (takes_times h)

end Decoder

/-! ## Files -/

namespace FileFormat

variable {α : Type} {decoder : Decoder α} {bytes : Bytes} {a : α}

/-- A file that begins with these bytes is loaded as the value, and one that ends before them is
refused. -/
structure Seals (format : FileFormat) (decoder : Decoder α) (bytes : Bytes) (a : α) : Prop where
  load : ∀ path rest, format.load decoder path (bytes ++ rest) = .ok a
  torn : ∀ path piece, piece <+: bytes → piece ≠ bytes → format.load decoder path piece =
    .error (if piece.length < 6 then .io .unexpectedEnd else .decoding .unexpectedEnd)

/-- What is behind the header of a file is what is loaded of it. -/
theorem seals_header (format : FileFormat) (h : decoder.Takes bytes a) :
    format.Seals decoder (format.header ++ bytes) a := by
  have hmagic : format.magic.length = 4 := by cases format <;> rfl
  have hversion : (Bytes.word 2 format.version).toNat = format.version := by cases format <;> rfl
  have hheader : format.header ++ bytes =
      format.magic ++ (Bytes.word 2 format.version ++ bytes) := by
    rw [header, List.append_assoc]
  -- behind the whole header the decoder is run
  have hload : ∀ path rest, format.load decoder path
      (format.magic ++ (Bytes.word 2 format.version ++ rest)) =
        (decoder.decode rest).mapError .decoding := by
    intro path rest
    unfold FileFormat.load
    rw [Bytes.split?_append hmagic]
    simp only [ne_eq, not_true_eq_false, if_false, bind, Except.bind]
    rw [Bytes.split?_append (Bytes.length_word _ _)]
    simp only [hversion, not_true_eq_false, if_false]
  refine ⟨fun path rest => ?_, fun path piece hpre hne => ?_⟩
  · rw [hheader, List.append_assoc, List.append_assoc, hload, h.decode]
    rfl
  rw [hheader] at hpre hne
  rcases prefix_append_cases hpre with ⟨hshort, hless⟩ | ⟨rest, rfl, hrest⟩
  · have hlt : piece.length < 4 := hmagic ▸ length_lt_of_begins hshort hless
    unfold FileFormat.load
    rw [Bytes.split?_eq_none hlt, if_pos (by omega)]
    rfl
  rcases prefix_append_cases hrest with ⟨hshort, hless⟩ | ⟨value, rfl, hvalue⟩
  · have hlt : rest.length < 2 :=
      Bytes.length_word 2 format.version ▸ length_lt_of_begins hshort hless
    unfold FileFormat.load
    rw [Bytes.split?_append hmagic]
    simp only [ne_eq, not_true_eq_false, if_false, bind, Except.bind]
    rw [Bytes.split?_eq_none hlt, List.length_append, hmagic, if_pos (by omega)]
    rfl
  · have hcut : value ≠ bytes := fun heq => hne (by rw [heq])
    rw [hload, h.decode_torn hvalue hcut, List.length_append, List.length_append, hmagic,
      Bytes.length_word, if_neg (by omega)]
    rfl

end FileFormat

end Relatedness
