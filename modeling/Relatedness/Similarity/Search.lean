import Relatedness.Cosine
import Relatedness.Ranking
import Relatedness.Similarity.Summary

/-!
Finding the rows most similar to a query. A direct scan fetches the row of every candidate;
the inverted index walks the rows of the transpose that belong to the query's features. Both
add the same products in the same order, so they find the same scores.
-/
namespace Relatedness

inductive SearchStrategy where
  /-- A direct scan for few candidates, the inverted index otherwise. -/
  | auto
  | directScan
  | invertedIndex
deriving DecidableEq

/-- A matrix and its transpose with what is known of them. -/
structure Attached (S σ : Type) where
  forward : σ
  transpose : σ
  summary : Summary S

abbrev Candidates := Option (Std.TreeSet RowId)

namespace Attached

variable {S σ : Type} [Scalar S] [MatrixStore σ]

/-- The score of a row of the given length, kept in `[-1, 1]`. -/
def score (dot rowNorm queryNorm : S) : S := Scalar.clampUnit (dot / (rowNorm * queryNorm))

/-- The length of a row, where it is known and not zero. -/
def positiveNorm? (a : Attached S σ) (id : RowId) : Option S :=
  (a.summary.norm? id).filter fun norm => Scalar.isPositive norm

/-- The sum of products over the columns that a row shares with the query, if there are any. -/
def sharedDot? (query : FeatureVector) (r : Row) : Option S :=
  r.entries.foldl (fun dot? (column, value) =>
    let weight := query.weight column
    if weight.isZero then dot?
    else some (dot?.getD 0 + Scalar.ofBinary32 weight * Scalar.ofBinary32 value)) none

/-- Scores the rows of these ids one by one. -/
def scan (a : Attached S σ) (fs : FileSystem) (query : FeatureVector) (queryNorm : S) :
    List RowId → Except Error (List (RowId × S))
  | [] => .ok []
  | id :: rest => match a.positiveNorm? id with
    | none => a.scan fs query queryNorm rest
    | some norm => do
      let row? ← MatrixStore.get a.forward fs id
      let scores ← a.scan fs query queryNorm rest
      match row?.bind (sharedDot? query) with
      | none => return scores
      | some dot => return (id, score dot norm queryNorm) :: scores

/-- Scores the candidates, or all rows, in ascending order of their ids. -/
def directScan (a : Attached S σ) (fs : FileSystem) (query : FeatureVector) (queryNorm : S)
    (candidates : Candidates) : Except Error (List (RowId × S)) :=
  a.scan fs query queryNorm <| match candidates with
    | some ids => ids.toList
    | none => MatrixStore.rowIds a.forward

/-- Adds the products of one query feature to the sums of the rows that have it. -/
def addPostings (candidates : Candidates) (weight : Binary32) (postings : Row)
    (dots : Std.TreeMap RowId S) : Std.TreeMap RowId S :=
  postings.entries.foldl (fun dots (id, value) =>
    if candidates.all (·.contains id) then
      dots.alter id fun dot? =>
        some (dot?.getD 0 + Scalar.ofBinary32 weight * Scalar.ofBinary32 value)
    else dots) dots

/-- The sums of products of all rows that share a feature with the query. -/
def gather (a : Attached S σ) (fs : FileSystem) (candidates : Candidates)
    (dots : Std.TreeMap RowId S) :
    List (FeatureId × Binary32) → Except Error (Std.TreeMap RowId S)
  | [] => .ok dots
  | (feature, weight) :: rest =>
    if a.summary.hasFeature feature then do
      match ← MatrixStore.get a.transpose fs feature with
      | some postings => a.gather fs candidates (addPostings candidates weight postings dots) rest
      | none => a.gather fs candidates dots rest
    else a.gather fs candidates dots rest

/-- Scores rows through the features of the query, in ascending order of the rows' ids. -/
def invertedIndex (a : Attached S σ) (fs : FileSystem) (query : FeatureVector) (queryNorm : S)
    (candidates : Candidates) : Except Error (List (RowId × S)) := do
  let dots ← a.gather fs candidates ∅ query.entries
  return dots.toList.filterMap fun (id, dot) =>
    (a.positiveNorm? id).map fun norm => (id, score dot norm queryNorm)

/-- The strategy that `auto` stands for. -/
def resolve (threshold : Nat) (candidates : Candidates) : SearchStrategy → SearchStrategy
  | .auto => if candidates.any (·.size < threshold) then .directScan else .invertedIndex
  | strategy => strategy

/-- Whether a query has no answer whatever the rows are. -/
def isVoid (query : FeatureVector) (k : Nat) : Bool :=
  k == 0 || query.isEmpty || Scalar.isZero (query.norm : S)

/-- The `k` best scores by a resolved strategy, best first and ties by ascending id. -/
def best (a : Attached S σ) (fs : FileSystem) (strategy : SearchStrategy) (query : FeatureVector)
    (k : Nat) (candidates : Candidates) : Except Error (Hits S) := do
  let scores ← match strategy with
    | .directScan => a.directScan fs query query.norm candidates
    | _ => a.invertedIndex fs query query.norm candidates
  return ((TopK.empty k).tallyAll scores).inArrivalOrder.sortDescending

end Attached
end Relatedness
