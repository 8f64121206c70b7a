import Relatedness.Matrix.Pair
import Relatedness.Similarity.Search

/-!
The similarity engine: stores are attached to it once, with a summary that is kept in a file
between runs, and then searched and compared by row.
-/
namespace Relatedness

structure SimilarityConfig where
  /-- Fewer candidates than this are scanned directly. -/
  directScanThreshold : Nat := 10000
  /-- The name of the saved summary in the cache directory. -/
  cacheFileName : String := "cosine-similarity.cache"

structure Engine (S σ : Type) where
  config : SimilarityConfig
  attached : Option (Attached S σ)

namespace Engine

/-- The bounds of a similarity. -/
def range {S : Type} [Scalar S] : S × S := (-1, 1)

def new {S σ : Type} (config : SimilarityConfig) : Engine S σ := ⟨config, none⟩

def stores {S σ : Type} (e : Engine S σ) : Except Error (Attached S σ) :=
  match e.attached with
  | some a => .ok a
  | none => .error .storesNotAttached

/-- Attaches a store and its transpose in place of those attached before. -/
def attach {σ : Type} [MatrixStore σ] (e : Engine Binary64 σ) (forward transpose : σ)
    (cacheDirectory : Path) : Action (Engine Binary64 σ) := do
  let path := cacheDirectory.join (Path.ofText e.config.cacheFileName)
  let summary ← Summary.loadOrBuild path forward transpose
  return { e with attached := some { forward, transpose, summary } }

/-- Opens the pair in a directory and attaches it. -/
def openPair (config : SimilarityConfig) (directory cacheDirectory : Path) :
    Action (Engine Binary64 FileMatrix) := do
  let pair ← Action.ofExcept (MatrixPair.openDirectory (← Action.disk) directory)
  (new config).attach pair.forward pair.transpose cacheDirectory

variable {S σ : Type} [Scalar S] [MatrixStore σ]

/-- The similarity of two rows, zero where one of them is absent. -/
def similarityById (e : Engine S σ) (fs : FileSystem) (a b : RowId) : Except Error S := do
  let stores ← e.stores
  let rowA? ← MatrixStore.get stores.forward fs a
  let rowB? ← MatrixStore.get stores.forward fs b
  match rowA?, rowB? with
  | some rowA, some rowB => return rowA.cosine rowB
  | _, _ => return 0

/-- The `k` rows most similar to the query, among the candidates if any are given. Rows that
share no feature with the query are never found. -/
def mostSimilarWith (e : Engine S σ) (fs : FileSystem) (strategy : SearchStrategy)
    (query : FeatureVector) (k : Nat) (candidates : Candidates) : Except Error (Hits S) := do
  let stores ← e.stores
  if Attached.isVoid (S := S) query k then return []
  stores.best fs (Attached.resolve e.config.directScanThreshold candidates strategy) query k
    candidates

def mostSimilar (e : Engine S σ) (fs : FileSystem) (query : FeatureVector) (k : Nat)
    (candidates : Candidates) : Except Error (Hits S) :=
  e.mostSimilarWith fs .auto query k candidates

/-- What is logged of a search. -/
def describeSearch (query : FeatureVector) (k : Nat) (candidates : Candidates)
    (strategy : SearchStrategy) : String :=
  let count := match candidates with
    | some ids => s!"Some({ids.size})"
    | none => "None"
  let name := match strategy with
    | .auto => "Auto"
    | .directScan => "DirectScan"
    | .invertedIndex => "InvertedIndex"
  s!"most_similar: k={k} query_nnz={query.size} candidates={count} strategy={name}"

/-- Searches and logs how. -/
def search (e : Engine S σ) (strategy : SearchStrategy) (query : FeatureVector) (k : Nat)
    (candidates : Candidates) : Action (Hits S) := do
  if e.attached.isSome && !Attached.isVoid (S := S) query k then
    Action.log .debug <| describeSearch query k candidates
      (Attached.resolve e.config.directScanThreshold candidates strategy)
  Action.ofExcept (e.mostSimilarWith (← Action.disk) strategy query k candidates)

end Engine
end Relatedness
