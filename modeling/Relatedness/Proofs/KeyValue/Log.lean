import Relatedness.KeyValue.Store
import Relatedness.Proofs.Codec.Bytes
import Relatedness.Proofs.History

/-! A log of entries, byte by byte. A scan passes over complete entries one after the other and
finds their keys at their offsets; reading at such an offset gives the entry back, whatever
stands behind it. -/

namespace Relatedness.KeyValue

theorem Lengths.ofEntry_eq (key : String) {size : Nat} (h : size < valueLimit) :
    Lengths.ofEntry key size = ⟨key.utf8ByteSize, size⟩ := by
  unfold valueLimit at h
  rw [Lengths.ofEntry, Nat.mod_eq_of_lt (by omega)]

structure LogEntry where
  timestamp : Nat
  key : String
  value : Bytes

namespace LogEntry

def bytes (e : LogEntry) : Bytes := encodeEntry e.timestamp e.key e.value

/-- The key and the value have lengths that are read back. -/
structure Fits (e : LogEntry) : Prop where
  key_pos : 0 < e.key.utf8ByteSize
  key_le : e.key.utf8ByteSize ≤ maxKeyLength
  value_lt : e.value.length < valueLimit

def length (e : LogEntry) : Nat := headerSize + e.key.utf8ByteSize + e.value.length

def header (e : LogEntry) : Bytes :=
  Bytes.word 8 e.timestamp ++ Bytes.word 2 (Bytes.ofText e.key).length
    ++ Bytes.word 4 e.value.length

theorem bytes_eq (e : LogEntry) : e.bytes = e.header ++ (Bytes.ofText e.key ++ e.value) := by
  rw [bytes, encodeEntry, header, List.append_assoc]

theorem length_header (e : LogEntry) : e.header.length = headerSize := by
  simp [header, headerSize]

theorem length_bytes (e : LogEntry) : e.bytes.length = e.length := by
  rw [bytes_eq, List.length_append, List.length_append, length_header, Bytes.length_ofText, length,
    Nat.add_assoc]

/-- A header has the length of the key and what four bytes keep of that of the value. -/
theorem ofHeader_header_eq {e : LogEntry} (h : e.key.utf8ByteSize ≤ maxKeyLength) :
    Lengths.ofHeader e.header = Lengths.ofEntry e.key e.value.length := by
  have hkey : e.key.utf8ByteSize < 256 ^ 2 := by
    unfold maxKeyLength at h
    omega
  have hkeyWord : Bytes.wordAt e.header 8 2 = e.key.utf8ByteSize := by
    rw [header, List.append_assoc, Bytes.wordAt_append (by simp), Bytes.length_word,
      Bytes.length_ofText, Bytes.wordAt_word_append_of_lt hkey]
  have hvalueWord : Bytes.wordAt e.header 10 4 = e.value.length % (1 <<< 32) := by
    have hlast := Bytes.wordAt_word_append 4 e.value.length []
    rw [List.append_nil] at hlast
    rw [header, Bytes.wordAt_append (by simp), List.length_append, Bytes.length_word,
      Bytes.length_word, hlast]
    rfl
  rw [Lengths.ofHeader, hkeyWord, hvalueWord]
  rfl

theorem ofHeader_header {e : LogEntry} (h : e.Fits) :
    Lengths.ofHeader e.header = ⟨e.key.utf8ByteSize, e.value.length⟩ :=
  (ofHeader_header_eq h.key_le).trans (Lengths.ofEntry_eq _ h.value_lt)

theorem isValid_lengths {e : LogEntry} (h : e.Fits) :
    (Lengths.mk e.key.utf8ByteSize e.value.length).isValid = true := by
  simp [Lengths.isValid, h.key_pos, h.value_lt]

end LogEntry

/-- The bytes of a log. -/
def logBytes (entries : List LogEntry) : Bytes := entries.flatMap LogEntry.bytes

@[simp] theorem logBytes_nil : logBytes [] = [] := rfl

theorem logBytes_cons (e : LogEntry) (rest : List LogEntry) :
    logBytes (e :: rest) = e.bytes ++ logBytes rest := List.flatMap_cons ..

theorem logBytes_append (entries more : List LogEntry) :
    logBytes (entries ++ more) = logBytes entries ++ logBytes more := List.flatMap_append ..

/-- The keys of entries with the offsets at which they begin in a log. -/
def offsets : Nat → List LogEntry → List (String × Nat)
  | _, [] => []
  | offset, e :: rest => (e.key, offset) :: offsets (offset + e.length) rest

/-- What a scan has found, behind other entries. -/
def Scan.behind (entries : List (String × Nat)) (found : Scan) : Scan :=
  ⟨entries ++ found.entries, found.stop, found.tail⟩

theorem scanFrom_nil (offset : Nat) : scanFrom offset [] = ⟨[], offset, .complete⟩ := by
  rw [scanFrom]
  rfl

theorem scanFrom_entry {e : LogEntry} (h : e.Fits) (offset : Nat) (tail : Bytes) :
    scanFrom offset (e.bytes ++ tail) =
      (scanFrom (offset + e.length) tail).behind [(e.key, offset)] := by
  have hheader : Bytes.split? headerSize (e.bytes ++ tail) =
      some (e.header, Bytes.ofText e.key ++ e.value ++ tail) := by
    rw [LogEntry.bytes_eq, List.append_assoc]
    exact Bytes.split?_append e.length_header _
  have htotal : (Lengths.mk e.key.utf8ByteSize e.value.length).total = e.length := rfl
  have hentry : Bytes.split? e.length (e.bytes ++ tail) = some (e.bytes, tail) :=
    Bytes.split?_append e.length_bytes _
  have hkey : Bytes.toText? ((e.bytes.drop headerSize).take e.key.utf8ByteSize) = some e.key := by
    rw [LogEntry.bytes_eq, List.drop_left' e.length_header,
      List.take_left' (Bytes.length_ofText e.key), Bytes.toText?_ofText]
  rw [scanFrom_of_split hheader (LogEntry.ofHeader_header h) (LogEntry.isValid_lengths h)
    (htotal ▸ hentry), hkey]
  rfl

/-- A scan passes over the entries that are there, and goes on behind them. -/
theorem scanFrom_logBytes {entries : List LogEntry} (h : ∀ e ∈ entries, e.Fits) (offset : Nat)
    (tail : Bytes) :
    scanFrom offset (logBytes entries ++ tail) =
      (scanFrom (offset + (logBytes entries).length) tail).behind (offsets offset entries) := by
  induction entries generalizing offset with
  | nil => rfl
  | cons e rest ih =>
    rw [logBytes_cons, List.append_assoc, scanFrom_entry (h e List.mem_cons_self),
      ih fun e he => h e (List.mem_cons_of_mem _ he), List.length_append, LogEntry.length_bytes,
      Nat.add_assoc]
    rfl

/-- A scan of nothing but complete entries finds them all. -/
theorem scan_logBytes {entries : List LogEntry} (h : ∀ e ∈ entries, e.Fits) :
    scan (logBytes entries) = ⟨offsets 0 entries, (logBytes entries).length, .complete⟩ := by
  have hscan := scanFrom_logBytes h 0 []
  rw [List.append_nil, scanFrom_nil, Nat.zero_add] at hscan
  rw [scan, hscan, Scan.behind, List.append_nil]

theorem word_wordAt_header {header : Bytes} (h : header.length = headerSize) :
    Bytes.word 8 (header.wordAt 0 8) ++ Bytes.word 2 (header.wordAt 8 2)
      ++ Bytes.word 4 (header.wordAt 10 4) = header := by
  unfold headerSize at h
  rw [Bytes.word_wordAt (by omega), Bytes.word_wordAt (by omega), Bytes.word_wordAt (by omega),
    List.drop_zero]
  have hlast : (header.drop 10).take 4 = header.drop 10 :=
    List.take_of_length_le (by rw [List.length_drop]; omega)
  have hmiddle : (header.drop 8).take 2 ++ header.drop 10 = header.drop 8 := by
    rw [← List.drop_drop (i := 2) (j := 8), List.take_append_drop]
  rw [hlast, List.append_assoc, hmiddle, List.take_append_drop]

/-- What a scan passes over is an entry. -/
theorem exists_entry {log header behind entry rest : Bytes} {key : String}
    (hheader : log.split? headerSize = some (header, behind))
    (hvalid : (Lengths.ofHeader header).isValid = true)
    (hentry : log.split? (Lengths.ofHeader header).total = some (entry, rest))
    (hkey : Bytes.toText? ((entry.drop headerSize).take (Lengths.ofHeader header).key) = some key) :
    ∃ e : LogEntry, e.Fits ∧ log = e.bytes ++ rest := by
  obtain ⟨hheaderLength, hlog⟩ := Bytes.length_of_split? hheader
  obtain ⟨hentryLength, hlog'⟩ := Bytes.length_of_split? hentry
  generalize hlengths : Lengths.ofHeader header = lengths at *
  have htotal : entry.length = headerSize + lengths.key + lengths.value := hentryLength
  have htake : entry.take headerSize = header := by
    have := congrArg (List.take headerSize) (hlog.symm.trans hlog')
    rw [List.take_left' hheaderLength, List.take_append_of_le_length (by omega)] at this
    exact this.symm
  have htext := Bytes.ofText_of_toText? hkey
  have hkeyLength : (Bytes.ofText key).length = lengths.key := by
    rw [htext, List.length_take, List.length_drop]
    omega
  have hsplit : entry = header ++ (Bytes.ofText key ++ entry.drop (headerSize + lengths.key)) := by
    rw [htext, ← List.drop_drop, List.take_append_drop, ← htake, List.take_append_drop]
  have hvalueLength : (entry.drop (headerSize + lengths.key)).length = lengths.value := by
    rw [List.length_drop]
    omega
  have hkeyWord : header.wordAt 8 2 = lengths.key := congrArg Lengths.key hlengths
  have hvalueWord : header.wordAt 10 4 = lengths.value := congrArg Lengths.value hlengths
  refine ⟨⟨header.wordAt 0 8, key, entry.drop (headerSize + lengths.key)⟩, ⟨?_, ?_, ?_⟩, ?_⟩
  · rw [← Bytes.length_ofText, hkeyLength]
    simp only [Lengths.isValid, Bool.and_eq_true, decide_eq_true_eq] at hvalid
    exact hvalid.1
  · have hword := header.wordAt_lt 8 2
    rw [← Bytes.length_ofText, hkeyLength, ← hkeyWord, maxKeyLength]
    omega
  · simp only [Lengths.isValid, Bool.and_eq_true, decide_eq_true_eq] at hvalid
    rw [hvalueLength]
    exact hvalid.2
  · rw [hlog', LogEntry.bytes_eq]
    have hwords : LogEntry.header ⟨header.wordAt 0 8, key, entry.drop (headerSize + lengths.key)⟩ =
        header := by
      rw [LogEntry.header, hkeyLength, hvalueLength, ← hkeyWord, ← hvalueWord]
      exact word_wordAt_header hheaderLength
    rw [hwords, ← hsplit]

/-- A scan stops, or it passes over an entry. -/
theorem scanFrom_cases (offset : Nat) (log : Bytes) :
    (∃ ending, scanFrom offset log = ⟨[], offset, ending⟩) ∨
      ∃ (e : LogEntry) (rest : Bytes), e.Fits ∧ log = e.bytes ++ rest := by
  rw [scanFrom]
  split
  · exact .inl ⟨_, rfl⟩
  · rename_i header behind hheader
    simp only
    split
    · rename_i hvalid
      split
      · exact .inl ⟨_, rfl⟩
      · rename_i entry rest hentry
        split
        · exact .inl ⟨_, rfl⟩
        · rename_i key hkey
          obtain ⟨e, hfits, hlog⟩ := exists_entry hheader hvalid hentry hkey
          exact .inr ⟨e, rest, hfits, hlog⟩
    · exact .inl ⟨_, rfl⟩

/-- Every log is a row of complete entries, which a scan finds, and a rest. -/
theorem exists_scanFrom_eq (offset : Nat) (log : Bytes) :
    ∃ entries rest ending, (∀ e ∈ entries, LogEntry.Fits e) ∧ log = logBytes entries ++ rest ∧
      scanFrom offset log =
        ⟨offsets offset entries, offset + (logBytes entries).length, ending⟩ := by
  induction hn : log.length using Nat.strongRecOn generalizing offset log with
  | ind n ih =>
    rcases scanFrom_cases offset log with ⟨ending, hstop⟩ | ⟨e, behind, hfits, rfl⟩
    · exact ⟨[], log, ending, by simp, rfl, hstop⟩
    · have hshorter : behind.length < n := by
        rw [← hn, List.length_append, LogEntry.length_bytes, LogEntry.length, headerSize]
        omega
      obtain ⟨entries, rest, ending, hall, rfl, hscan⟩ :=
        ih behind.length hshorter (offset + e.length) behind rfl
      refine ⟨e :: entries, rest, ending, ?_, ?_, ?_⟩
      · intro other hmem
        rcases List.mem_cons.mp hmem with rfl | hmem
        · exact hfits
        · exact hall other hmem
      · rw [logBytes_cons, List.append_assoc]
      · rw [scanFrom_entry hfits, hscan, logBytes_cons, List.length_append, LogEntry.length_bytes,
          Nat.add_assoc]
        rfl

theorem pairwise_offsets (offset : Nat) (entries : List LogEntry) :
    (offsets offset entries).Pairwise fun a b => a.2 < b.2 := by
  have hle : ∀ (offset : Nat) (entries : List LogEntry), ∀ e ∈ offsets offset entries,
      offset ≤ e.2 := by
    intro offset entries
    induction entries generalizing offset with
    | nil => exact fun e he => absurd he (by simp [offsets])
    | cons first rest ih =>
      intro e he
      rcases List.mem_cons.mp he with rfl | he
      · exact Nat.le_refl offset
      · exact Nat.le_trans (Nat.le_add_right _ _) (ih _ e he)
  induction entries generalizing offset with
  | nil => exact .nil
  | cons first rest ih =>
    refine .cons (fun e he => ?_) (ih _)
    have hstep := hle _ _ e he
    have hpos : 0 < first.length := by
      unfold LogEntry.length headerSize
      omega
    change offset < e.2
    omega

theorem offsets_append (offset : Nat) (entries more : List LogEntry) :
    offsets offset (entries ++ more) =
      offsets offset entries ++ offsets (offset + (logBytes entries).length) more := by
  induction entries generalizing offset with
  | nil => rfl
  | cons e rest ih =>
    rw [List.cons_append, offsets, ih, offsets, logBytes_cons, List.length_append,
      LogEntry.length_bytes, Nat.add_assoc]
    rfl

end Relatedness.KeyValue

namespace Relatedness.KeyValueStore

open KeyValue

variable {V : Type} [Storable V]

/-- What the bytes of a value stand for. -/
def decoded (value : Bytes) : Except Error V := (Storable.decoder.decode value).mapError .decoding

/-- Reading where an entry begins gives its key and its value. -/
theorem readAt_entry {e : LogEntry} (h : e.Fits) {log : Content} {before tail : Bytes}
    (hlog : log.bytes = before ++ (e.bytes ++ tail)) :
    (readAt log before.length : Except Error (String × V)) =
      (decoded e.value).map (e.key, ·) := by
  have hheader : log.read? before.length headerSize = some e.header := by
    refine Content.read?_of_append before (Bytes.ofText e.key ++ e.value ++ tail) ?_ rfl
      e.length_header
    rw [hlog, LogEntry.bytes_eq, List.append_assoc, List.append_assoc]
  have hkey : log.read? (before.length + headerSize) e.key.utf8ByteSize =
      some (Bytes.ofText e.key) := by
    refine Content.read?_of_append (before ++ e.header) (e.value ++ tail) ?_
      (by rw [List.length_append, e.length_header]) (Bytes.length_ofText e.key)
    rw [hlog, LogEntry.bytes_eq]
    simp only [List.append_assoc]
  have hvalue : log.read? (before.length + headerSize + e.key.utf8ByteSize) e.value.length =
      some e.value := by
    refine Content.read?_of_append (before ++ e.header ++ Bytes.ofText e.key) tail ?_ ?_ rfl
    · rw [hlog, LogEntry.bytes_eq]
      simp only [List.append_assoc]
    · rw [List.length_append, List.length_append, e.length_header, Bytes.length_ofText]
  unfold readAt decoded
  simp only [hheader, LogEntry.ofHeader_header h, LogEntry.isValid_lengths h, hkey,
    Bytes.toText?_ofText, hvalue]
  cases (Storable.decoder.decode e.value : Except DecodeError V) <;> rfl

/-- Each offset of a log leads to its entry, of which `result` tells the value. -/
theorem readAt_offsets {γ : Type} {entries : List LogEntry} (hfits : ∀ e ∈ entries, e.Fits)
    {history : List (String × γ)} {result : γ → Except Error V}
    (hvalues : List.Forall₂ (fun e p => e.key = p.1 ∧ decoded e.value = result p.2)
      entries history) {log : Content} (before tail : Bytes)
    (hlog : log.bytes = before ++ (logBytes entries ++ tail)) :
    History.Matched (fun a p => readAt log a.2 = (result p.2).map (p.1, ·))
      (offsets before.length entries) history := by
  induction hvalues generalizing before with
  | nil => exact .nil
  | @cons e p rest history hhead htail ih =>
    obtain ⟨hkey, hvalue⟩ := hhead
    rw [logBytes_cons, List.append_assoc] at hlog
    have hrest := ih (fun e he => hfits e (List.mem_cons_of_mem _ he)) (before ++ e.bytes)
      (by rw [hlog, List.append_assoc])
    rw [List.length_append, LogEntry.length_bytes] at hrest
    refine .cons ⟨hkey, ?_⟩ hrest
    have hread := readAt_entry (V := V) (hfits e List.mem_cons_self) hlog
    rw [hkey, hvalue] at hread
    exact hread

end Relatedness.KeyValueStore
