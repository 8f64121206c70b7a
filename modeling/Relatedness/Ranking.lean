import Relatedness.FeatureVector

/-!
Selecting the best of a stream of scores. A `TopK` holds the `capacity` best seen so far,
ordered from best to worst; of equal scores the one that arrived first is the better.
-/
namespace Relatedness

structure Scored (S : Type) where
  id : RowId
  score : S

/-- A list of scored ids. -/
abbrev Hits (S : Type) := List (Scored S)

/-- Descending by score. Equal scores keep their order. -/
def Hits.sortDescending {S : Type} [Scalar S] (hits : Hits S) : Hits S :=
  hits.mergeSort fun a b => !Scalar.less a.score b.score

/-- Whether two lists have the same ids with numerically equal scores. -/
def Hits.same {S : Type} [Scalar S] (a b : Hits S) : Bool :=
  a.length == b.length && (a.zip b).all fun (x, y) => x.id == y.id && Scalar.same x.score y.score

structure TopK (S : Type) where
  capacity : Nat
  /-- What is held, best first, each with the number of scores seen before it. -/
  held : List (Scored S × Nat)
  seen : Nat

namespace TopK

variable {S : Type} [Scalar S]

def empty (capacity : Nat) : TopK S := ⟨capacity, [], 0⟩

/-- Puts an entry behind all that are at least as good. -/
def place (entry : Scored S × Nat) : List (Scored S × Nat) → List (Scored S × Nat)
  | [] => [entry]
  | other :: rest =>
    if Scalar.less other.1.score entry.1.score then entry :: other :: rest
    else other :: place entry rest

/-- Takes a score in. A NaN is ignored, and what does not fit any more is dropped. -/
def tally (board : TopK S) (id : RowId) (score : S) : TopK S :=
  if Scalar.isNaN score then board
  else
    { board with
      held := (place (⟨id, score⟩, board.seen) board.held).take board.capacity
      seen := board.seen + 1 }

def tallyAll (board : TopK S) (scores : List (RowId × S)) : TopK S :=
  scores.foldl (fun board (id, score) => board.tally id score) board

def size (board : TopK S) : Nat := board.held.length

/-- The lowest score held. -/
def minScore? (board : TopK S) : Option S := board.held.getLast?.map (·.1.score)

/-- What is held, in the order of arrival. -/
def inArrivalOrder (board : TopK S) : Hits S :=
  (board.held.mergeSort fun a b => a.2 ≤ b.2).map Prod.fst

end TopK
end Relatedness
