import Relatedness.Codec.Bytes
import Relatedness.Phrase.Language

/-!
Hashes of phrases. The hash of a phrase covers its language and then word after word, so the
hash of a longer phrase is found by extending that of a shorter one.
-/
namespace Relatedness

namespace WordHash

/-- The low half of the product of two words, combined with the high half. -/
def mix (x y : UInt64) : UInt64 :=
  let product := x.toNat * y.toNat
  UInt64.ofNat product ^^^ UInt64.ofNat (product / UInt64.size)

def load (n offset : Nat) (bytes : Bytes) : UInt64 := UInt64.ofNat (bytes.wordAt offset n)

/-- Mixes in the sixteen-byte pieces that have at least one byte behind them. -/
def mixPieces (s0 s1 : UInt64) (bytes : Bytes) : UInt64 × UInt64 :=
  match _h : bytes.drop 16 with
  | [] => (s0, s1)
  | b :: rest =>
    mixPieces s1 (mix (s0 ^^^ load 8 0 bytes) (load 8 8 bytes ^^^ 0xa4093822299f31d0)) (b :: rest)
termination_by bytes.length
decreasing_by
  have := congrArg List.length _h
  simp only [List.length_drop, List.length_cons] at this
  simp only [List.length_cons]
  omega

/-- Compresses a byte string into a word. -/
def hashBytes (bytes : Bytes) : UInt64 :=
  let n := bytes.length
  let s0 : UInt64 := 0x243f6a8885a308d3
  let s1 : UInt64 := 0x13198a2e03707344
  let (s0, s1) :=
    if n = 0 then (s0, s1)
    else if n < 4 then
      (s0 ^^^ load 1 0 bytes, s1 ^^^ (load 1 (n - 1) bytes <<< 8 ||| load 1 (n / 2) bytes))
    else if n < 8 then (s0 ^^^ load 4 0 bytes, s1 ^^^ load 4 (n - 4) bytes)
    else
      let (s0, s1) := mixPieces s0 s1 bytes
      (s0 ^^^ load 8 (if n ≤ 16 then 0 else n - 16) bytes, s1 ^^^ load 8 (n - 8) bytes)
  mix s0 s1 ^^^ UInt64.ofNat n

/-- The odd factor of every step. -/
def multiplier : UInt64 := 0xf1357aea2e62a9c5

def add (h x : UInt64) : UInt64 := (h + x) * multiplier

def finish (h : UInt64) : UInt64 := h <<< 26 ||| h >>> 38

end WordHash

namespace Phrase

/-- Closes every component, so that words cannot run into each other. -/
def separator : UInt64 := 0xff

/-- Adds a component to a hash. -/
def fold (state : UInt64) (component : String) : UInt64 :=
  WordHash.finish <|
    WordHash.add (WordHash.add (WordHash.add 0 state) (WordHash.hashBytes (.ofText component)))
      separator

/-- The hash of the empty phrase of a language. -/
def startHash (language : Language) : UInt64 := fold 0 language.code

def hash (language : Language) (words : List String) : UInt64 :=
  words.foldl fold (startHash language)

/-- The hashes of a phrase after its first word, its second, and so on to the end. -/
def prefixHashesFrom (h : UInt64) : List String → List UInt64
  | [] => []
  | word :: rest => fold h word :: prefixHashesFrom (fold h word) rest

def prefixHashes (language : Language) (words : List String) : List UInt64 :=
  prefixHashesFrom (startHash language) words

end Phrase
end Relatedness
