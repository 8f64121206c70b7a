import Relatedness.Codec.Bytes

/-!
The content of a file, in pieces. The bytes of a piece are made when they are read for the first
time, so a long value can be written, passed over and cut off without them. How a content is cut
into pieces makes no difference: contents with the same bytes are equal.
-/
namespace Relatedness

/-- Bytes whose number is known before they are made. -/
structure Piece where
  length : Nat
  made : Thunk Bytes
  length_made : made.get.length = length

namespace Piece

def bytes (p : Piece) : Bytes := p.made.get

@[simp] theorem length_bytes (p : Piece) : p.bytes.length = p.length := p.length_made

def ofBytes (bytes : Bytes) : Piece := ⟨bytes.length, .pure bytes, rfl⟩

@[simp] theorem bytes_ofBytes (bytes : Bytes) : (ofBytes bytes).bytes = bytes := rfl

def take (n : Nat) (p : Piece) : Piece :=
  ⟨min n p.length, .mk fun _ => p.bytes.take n, by
    change (p.bytes.take n).length = _
    rw [List.length_take, length_bytes]⟩

def drop (n : Nat) (p : Piece) : Piece :=
  ⟨p.length - n, .mk fun _ => p.bytes.drop n, by
    change (p.bytes.drop n).length = _
    rw [List.length_drop, length_bytes]⟩

@[simp] theorem bytes_take (n : Nat) (p : Piece) : (p.take n).bytes = p.bytes.take n := rfl

@[simp] theorem bytes_drop (n : Nat) (p : Piece) : (p.drop n).bytes = p.bytes.drop n := rfl

end Piece

abbrev Pieces := List Piece

namespace Pieces

def bytes : Pieces → Bytes
  | [] => []
  | [p] => p.bytes
  | p :: rest => p.bytes ++ bytes rest

@[simp] theorem bytes_nil : bytes [] = [] := rfl

@[simp] theorem bytes_cons (p : Piece) (rest : Pieces) :
    bytes (p :: rest) = p.bytes ++ bytes rest := by
  cases rest with
  | nil => rw [bytes, bytes, List.append_nil]
  | cons q rest => rfl

@[simp] theorem bytes_append (ps qs : Pieces) : bytes (ps ++ qs) = bytes ps ++ bytes qs := by
  induction ps with
  | nil => rfl
  | cons p rest ih => rw [List.cons_append, bytes_cons, bytes_cons, ih, List.append_assoc]

/-- The number of bytes. -/
def size (ps : Pieces) : Nat := ps.foldl (fun n p => n + p.length) 0

theorem size_eq (ps : Pieces) : size ps = (bytes ps).length := by
  have hfrom : ∀ n, ps.foldl (fun n p => n + p.length) n = n + (bytes ps).length := by
    induction ps with
    | nil => exact fun n => rfl
    | cons p rest ih =>
      intro n
      rw [List.foldl_cons, ih, bytes_cons, List.length_append, Piece.length_bytes, Nat.add_assoc]
  rw [size, hfrom, Nat.zero_add]

/-- Whether there are at least `n` bytes. -/
def reach (n : Nat) : Pieces → Bool
  | [] => n == 0
  | p :: rest => n ≤ p.length || reach (n - p.length) rest

theorem reach_iff {n : Nat} {ps : Pieces} : reach n ps = true ↔ n ≤ (bytes ps).length := by
  induction ps generalizing n with
  | nil => simp [reach]
  | cons p rest ih =>
    simp only [reach, Bool.or_eq_true, decide_eq_true_eq, ih, bytes_cons, List.length_append,
      Piece.length_bytes]
    omega

/-- The first `n` bytes. -/
def front (n : Nat) : Pieces → Pieces
  | [] => []
  | p :: rest => if p.length ≤ n then p :: front (n - p.length) rest else [p.take n]

/-- What follows the first `n` bytes. -/
def behind (n : Nat) : Pieces → Pieces
  | [] => []
  | p :: rest => if p.length ≤ n then behind (n - p.length) rest else p.drop n :: rest

theorem bytes_front (n : Nat) (ps : Pieces) : bytes (front n ps) = (bytes ps).take n := by
  induction ps generalizing n with
  | nil => simp [front]
  | cons p rest ih =>
    rw [front, bytes_cons]
    split
    · rename_i h
      rw [← p.length_bytes] at h ⊢
      rw [bytes_cons, ih, List.take_append, List.take_of_length_le h]
    · rename_i h
      rw [List.take_append_of_le_length (by rw [Piece.length_bytes]; omega)]
      rfl

theorem bytes_behind (n : Nat) (ps : Pieces) : bytes (behind n ps) = (bytes ps).drop n := by
  induction ps generalizing n with
  | nil => simp [behind]
  | cons p rest ih =>
    rw [behind, bytes_cons]
    split
    · rename_i h
      rw [← p.length_bytes] at h ⊢
      rw [ih, List.drop_append, List.drop_of_length_le h, List.nil_append]
    · rename_i h
      rw [bytes_cons, List.drop_append_of_le_length (by rw [Piece.length_bytes]; omega)]
      rfl

/-- So many zero bytes. -/
def zeros (n : Nat) : Pieces := if n = 0 then [] else [.ofBytes (List.replicate n 0)]

@[simp] theorem bytes_zeros (n : Nat) : bytes (zeros n) = List.replicate n 0 := by
  unfold zeros
  split
  · rename_i h
    rw [h]
    rfl
  · rfl

end Pieces

/-- Contents that are cut differently are told apart by their bytes alone. -/
def Content := Quot fun ps qs : Pieces => ps.bytes = qs.bytes

namespace Content

def ofPieces (ps : Pieces) : Content := Quot.mk _ ps

def ofBytes (bytes : Bytes) : Content := ofPieces [.ofBytes bytes]

def bytes (c : Content) : Bytes := Quot.lift Pieces.bytes (fun _ _ h => h) c

@[simp] theorem bytes_ofPieces (ps : Pieces) : (ofPieces ps).bytes = ps.bytes := rfl

@[simp] theorem bytes_ofBytes (bytes : Bytes) : (ofBytes bytes).bytes = bytes := rfl

theorem ext {c d : Content} (h : c.bytes = d.bytes) : c = d := by
  induction c using Quot.ind
  induction d using Quot.ind
  exact Quot.sound h

@[simp] theorem ofBytes_bytes (c : Content) : ofBytes c.bytes = c := ext rfl

def size (c : Content) : Nat :=
  Quot.lift Pieces.size (fun ps qs h => by rw [Pieces.size_eq, Pieces.size_eq, h]) c

theorem size_eq (c : Content) : c.size = c.bytes.length := by
  induction c using Quot.ind with
  | mk ps => exact ps.size_eq

/-- The `n` bytes from an offset on, unless there are fewer. -/
def read? (c : Content) (offset n : Nat) : Option Bytes :=
  let read (ps : Pieces) : Bytes := ((ps.behind offset).front n).bytes
  let found := Quot.lift read (fun ps qs h => by
    simp only [read, Pieces.bytes_front, Pieces.bytes_behind, h]) c
  if found.length = n then some found else none

theorem read?_eq (c : Content) (offset n : Nat) :
    c.read? offset n = (Bytes.split? n (c.bytes.drop offset)).map Prod.fst := by
  induction c using Quot.ind with
  | mk ps =>
    change (if (((ps.behind offset).front n).bytes).length = n then some _ else none) =
      Option.map _ (Bytes.split? n (List.drop offset ps.bytes))
    simp only [Pieces.bytes_front, Pieces.bytes_behind, Bytes.split?]
    split <;> rfl

theorem read?_of_append {c : Content} {bytes : Bytes} {offset n : Nat} (before rest : Bytes)
    (h : c.bytes = before ++ (bytes ++ rest)) (hoffset : offset = before.length)
    (hn : bytes.length = n) : c.read? offset n = some bytes := by
  rw [read?_eq, h, hoffset, List.drop_left, Bytes.split?_append hn]
  rfl

/-- Writes pieces over what stands from `offset` on, after zeros where the content ends before. -/
def overwrite (c : Content) (offset : Nat) (new : Pieces) : Content :=
  Quot.lift
    (fun ps => ofPieces (ps.front offset ++ .zeros (offset - ps.size) ++ new
      ++ ps.behind (offset + new.size)))
    (fun ps qs h => ext (by
      simp only [bytes_ofPieces, Pieces.bytes_append, Pieces.bytes_zeros, Pieces.bytes_front,
        Pieces.bytes_behind, Pieces.size_eq, h])) c

theorem bytes_overwrite (c : Content) (offset : Nat) (new : Pieces) :
    (c.overwrite offset new).bytes = c.bytes.overwrite offset new.bytes := by
  induction c using Quot.ind with
  | mk ps =>
    change Pieces.bytes _ = Bytes.overwrite ps.bytes _ _
    simp only [Pieces.bytes_append, Pieces.bytes_zeros, Pieces.bytes_front, Pieces.bytes_behind,
      Pieces.size_eq, Bytes.overwrite]

/-- Cuts a content off, or fills it up with zeros, at the given length. -/
def resize (c : Content) (length : Nat) : Content :=
  Quot.lift
    (fun ps => ofPieces (ps.front length ++ .zeros (length - ps.size)))
    (fun ps qs h => ext (by
      simp only [bytes_ofPieces, Pieces.bytes_append, Pieces.bytes_zeros, Pieces.bytes_front,
        Pieces.size_eq, h])) c

theorem bytes_resize (c : Content) (length : Nat) :
    (c.resize length).bytes = c.bytes.resize length := by
  induction c using Quot.ind with
  | mk ps =>
    change Pieces.bytes _ = Bytes.resize ps.bytes _
    simp only [Pieces.bytes_append, Pieces.bytes_zeros, Pieces.bytes_front, Pieces.size_eq,
      Bytes.resize]

end Content
end Relatedness
