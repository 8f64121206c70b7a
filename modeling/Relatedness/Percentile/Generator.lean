import Relatedness.Percentile.Reservoir

/-!
The generator that draws the slots of a reservoir: the ChaCha stream cipher with eight rounds,
keyed by a seed, whose output is taken as a stream of 64-bit words.
-/
namespace Relatedness

/-- One row of the cipher's state. -/
structure Quad where
  w : UInt32
  x : UInt32
  y : UInt32
  z : UInt32

namespace Quad

/-- Moves every word one place to the front and the first to the end. -/
def turn (q : Quad) : Quad := ⟨q.x, q.y, q.z, q.w⟩

def add (p q : Quad) : Quad := ⟨p.w + q.w, p.x + q.x, p.y + q.y, p.z + q.z⟩

end Quad

/-- The state of the cipher in four rows. -/
structure CipherState where
  a : Quad
  b : Quad
  c : Quad
  d : Quad

namespace CipherState

def rotateLeft (x n : UInt32) : UInt32 := x <<< n ||| x >>> (32 - n)

/-- Mixes the four words of a column. -/
def mixColumn (a b c d : UInt32) : UInt32 × UInt32 × UInt32 × UInt32 :=
  let a := a + b
  let d := rotateLeft (d ^^^ a) 16
  let c := c + d
  let b := rotateLeft (b ^^^ c) 12
  let a := a + b
  let d := rotateLeft (d ^^^ a) 8
  let c := c + d
  let b := rotateLeft (b ^^^ c) 7
  (a, b, c, d)

def mixColumns (s : CipherState) : CipherState :=
  let (a0, b0, c0, d0) := mixColumn s.a.w s.b.w s.c.w s.d.w
  let (a1, b1, c1, d1) := mixColumn s.a.x s.b.x s.c.x s.d.x
  let (a2, b2, c2, d2) := mixColumn s.a.y s.b.y s.c.y s.d.y
  let (a3, b3, c3, d3) := mixColumn s.a.z s.b.z s.c.z s.d.z
  ⟨⟨a0, a1, a2, a3⟩, ⟨b0, b1, b2, b3⟩, ⟨c0, c1, c2, c3⟩, ⟨d0, d1, d2, d3⟩⟩

/-- Mixes the columns and then the diagonals. -/
def doubleRound (s : CipherState) : CipherState :=
  let s := s.mixColumns
  let s := mixColumns ⟨s.a, s.b.turn, s.c.turn.turn, s.d.turn.turn.turn⟩
  ⟨s.a, s.b.turn.turn.turn, s.c.turn.turn, s.d.turn⟩

/-- The output for a state: eight rounds, added to the state itself. -/
def output (s : CipherState) : CipherState :=
  let m := s.doubleRound.doubleRound.doubleRound.doubleRound
  ⟨s.a.add m.a, s.b.add m.b, s.c.add m.c, s.d.add m.d⟩

/-- The word with these halves. -/
def pair (low high : UInt32) : UInt64 := low.toUInt64 ||| (high.toUInt64 <<< (32 : UInt64))

/-- The words of a state in pairs. -/
def pairs (s : CipherState) : List UInt64 :=
  [s.a, s.b, s.c, s.d].flatMap fun q => [pair q.w q.x, pair q.y q.z]

end CipherState

structure Generator where
  /-- The two rows of the key. -/
  key : Quad × Quad
  /-- The number of the next block. -/
  counter : UInt64
  /-- Words of the last block that are still to be taken. -/
  pending : List UInt64

namespace Generator

/-- One step of the sequence that a seed is spread over the key with. -/
def seedStep (s : UInt64) : UInt64 := s * 6364136223846793005 + 11634580027462260723

def seedWord (s : UInt64) : UInt32 :=
  let x := (((s >>> 18) ^^^ s) >>> 27).toUInt32
  let r := (s >>> 59).toUInt32
  x >>> r ||| x <<< (32 - r)

def seedQuad (s : UInt64) : Quad × UInt64 :=
  let s0 := seedStep s
  let s1 := seedStep s0
  let s2 := seedStep s1
  let s3 := seedStep s2
  (⟨seedWord s0, seedWord s1, seedWord s2, seedWord s3⟩, s3)

def ofSeed (seed : UInt64) : Generator :=
  let (first, s) := seedQuad seed
  { key := (first, (seedQuad s).1), counter := 0, pending := [] }

/-- The block of the given number. -/
def block (key : Quad × Quad) (counter : UInt64) : List UInt64 :=
  CipherState.pairs <| CipherState.output {
    a := ⟨0x61707865, 0x3320646e, 0x79622d32, 0x6b206574⟩
    b := key.1
    c := key.2
    d := ⟨counter.toUInt32, (counter >>> 32).toUInt32, 0, 0⟩ }

/-- The next word of the stream. -/
def next (g : Generator) : UInt64 × Generator :=
  match g.pending with
  | word :: rest => (word, { g with pending := rest })
  | [] =>
    match block g.key g.counter with
    | word :: rest => (word, { g with counter := g.counter + 1, pending := rest })
    | [] => (0, g)

/-- The largest low half of a product that is accepted for a range, so that all of its values
are equally likely. -/
def zone (range : Nat) : Nat := range <<< (63 - range.log2) - 1

/-- Draws words until one is accepted, at most as many as the fuel says. A word is accepted
more often than not, so the fuel is not used up in practice. -/
def draw (range : Nat) : Nat → Generator → Nat × Generator
  | 0, g => (0, g)
  | fuel + 1, g =>
    let (word, g) := g.next
    let product := word.toNat * range
    if product % UInt64.size ≤ zone range then (product / UInt64.size, g) else draw range fuel g

/-- A number below the range, which is positive and at most `2 ^ 64`. -/
def below (g : Generator) (range : Nat) : Nat × Generator := draw range 1024 g

instance : SlotSource Generator := ⟨ofSeed, below⟩

end Generator
end Relatedness
