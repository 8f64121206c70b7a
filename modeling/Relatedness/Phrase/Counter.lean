import Std.Data.HashMap

/-!
Counts of phrases by their hashes. Only hashes that are tracked are counted.
-/
namespace Relatedness

structure PhraseCounter where
  counts : Std.HashMap UInt64 Nat

namespace PhraseCounter

def empty : PhraseCounter := ⟨∅⟩

/-- Tracks a hash from zero on. A hash that is tracked already keeps its count. -/
def track (c : PhraseCounter) (hash : UInt64) : PhraseCounter :=
  ⟨c.counts.insertIfNew hash 0⟩

def isTracked (c : PhraseCounter) (hash : UInt64) : Bool := c.counts.contains hash

/-- Adds one to a hash if it is tracked. -/
def increment (c : PhraseCounter) (hash : UInt64) : PhraseCounter :=
  ⟨c.counts.modify hash (· + 1)⟩

def incrementAll (c : PhraseCounter) (hashes : List UInt64) : PhraseCounter :=
  hashes.foldl increment c

/-- The count of a hash, zero if it is not tracked. -/
def count (c : PhraseCounter) (hash : UInt64) : Nat := c.counts[hash]?.getD 0

/-- The number of tracked hashes. -/
def size (c : PhraseCounter) : Nat := c.counts.size

end PhraseCounter
end Relatedness
