import Std.Data.HashSet
import Relatedness.Disk.Replacement
import Relatedness.LinkProbability.Estimate
import Relatedness.Text.Quoted

/-!
The link probability estimator: it builds the store of probabilities in a staging directory
that takes the place of the old one when every language has succeeded, and answers queries
from the store or from a copy of it in memory.
-/
namespace Relatedness

/-- The contents of a store by phrase hash. -/
structure ProbabilityCache where
  probabilities : Std.HashMap UInt64 Binary64
  subgrams : Std.HashSet UInt64

namespace ProbabilityCache

def empty : ProbabilityCache := ⟨∅, ∅⟩

/-- Takes an entry of the store in. -/
def add (c : ProbabilityCache) (key : String) (value : Binary64) : Action ProbabilityCache := do
  match StoredKey.parse key with
  | .subgram hash => return { c with subgrams := c.subgrams.insert hash }
  | .phrase language words =>
    return { c with probabilities := c.probabilities.insert (Phrase.hash language words) value }
  | .malformedSubgram =>
    Action.log .warn ("skipping malformed subgram key " ++ Text.quoted key)
    return c
  | .malformedPhrase =>
    Action.log .warn ("skipping malformed probability key " ++ Text.quoted key)
    return c

def addAll (c : ProbabilityCache) :
    List (Except Error (String × Binary64)) → Action ProbabilityCache
  | [] => return c
  | entry :: rest => do
    let (key, value) ← Action.ofExcept entry
    (← c.add key value).addAll rest

end ProbabilityCache

structure Estimator where
  config : LinkProbabilityConfig
  analysis : TextAnalysis
  store : Option (KeyValueStore Binary64)
  cache : Option ProbabilityCache

namespace Estimator

/-- Opens an estimator with the store at its path, if there is one. -/
def openWith (config : LinkProbabilityConfig) (analysis : TextAnalysis) : Action Estimator := do
  if KeyValueStore.isAt (← Action.disk) config.path then
    let store ← KeyValueStore.openReadOnly config.path
    return { config, analysis, store := some store, cache := none }
  else
    Action.log .warn
      (s!"path {config.path.text} does not exist; link probabilities unavailable "
        ++ "until build() is called")
    return { config, analysis, store := none, cache := none }

def openStore (e : Estimator) : Except Error (KeyValueStore Binary64) :=
  match e.store with
  | some store => .ok store
  | none => .error (.probabilitiesNotBuilt e.config.path)

/-- The link probability of a phrase, zero if it is unknown. -/
def probability (e : Estimator) (fs : FileSystem) (language : Language) (phrase : String)
    (normalize : Bool) : Except Error Binary64 := do
  let store ← e.openStore
  let words := e.analysis.clean language phrase normalize
  if words.isEmpty then return 0
  match e.cache with
  | some cache => return cache.probabilities[Phrase.hash language words]?.getD 0
  | none =>
    let stored? ← store.get? fs (StoredKey.ofPhrase language words)
    return (stored?.filter fun p => !p.same LinkProbability.subgramSentinel).getD 0

/-- Whether a phrase is an anchor phrase or the beginning of one. -/
def isSubphrase (e : Estimator) (language : Language) (phrase : String) (normalize : Bool) :
    Except Error Bool := do
  let store ← e.openStore
  let words := e.analysis.clean language phrase normalize
  if words.isEmpty then return false
  let hash := Phrase.hash language words
  match e.cache with
  | some cache => return cache.subgrams.contains hash || cache.probabilities.contains hash
  | none =>
    return store.contains (StoredKey.ofSubgram hash)
      || store.contains (StoredKey.ofPhrase language words)

/-- Turns the copy in memory on, which reads the whole store, or off. -/
def useCache (e : Estimator) (enabled : Bool) : Action Estimator := do
  if enabled then
    let store ← Action.ofExcept e.openStore
    Action.log .info s!"building link probability cache from {store.directory.text}"
    let cache ← ProbabilityCache.empty.addAll (store.entries (← Action.disk))
    Action.log .info
      (s!"created cache with {cache.probabilities.size} entries "
        ++ s!"and {cache.subgrams.size} subgrams")
    return { e with cache := some cache }
  else return { e with cache := none }

/-- Checks that documents are scanned at all and that both sources know every language. -/
def checkSources (e : Estimator) (corpus : Corpus) (anchors : AnchorSource) : Except Error Unit :=
  if e.config.batchSize = 0 then .error .emptyBatches
  else check e.config.languages
where
  check : List Language → Except Error Unit
    | [] => .ok ()
    | language :: rest =>
      if !corpus.languages.contains language then .error (.noDocuments language)
      else if !anchors.languages.contains language then .error (.noPhrases language)
      else check rest

/-- Starts workers, as many as are asked for, or tells why they cannot be started. -/
abbrev Workers := Option Nat → Except String Unit

/-- Checks the sources and starts the workers. -/
def prepare (e : Estimator) (corpus : Corpus) (anchors : AnchorSource) (workers : Workers) :
    Except Error Unit := do
  e.checkSources corpus anchors
  (workers e.config.threads).mapError .threadPool

/-- Builds the stores of all languages into a directory. -/
def buildInto (e : Estimator) (directory : Path) (corpus : Corpus) (anchors : AnchorSource) :
    Action (List BuildStats) := do
  let store ← KeyValueStore.openWith directory {}
  let (stats, _) ← e.config.languages.foldlM (fun (stats, store) language => do
    let (next, store) ←
      LinkProbability.buildLanguage e.config e.analysis corpus anchors store language
    return (stats ++ [next], store)) (([] : List BuildStats), store)
  return stats

/-- Opens the store that stands at the path again. One that cannot be opened is reported. -/
def reopen (e : Estimator) : StateM Session Estimator := do
  let path := e.config.path
  if KeyValueStore.isAt (← get).disk path then
    match ← (KeyValueStore.openReadOnly path : Action _).run with
    | .ok store => return { e with store := some store }
    | .error cause =>
      modify (·.record .warn
        s!"could not reopen previous store {path.text}: {cause.message}")
      return e
  else return e

/-- Builds the store anew for every language. Once the sources are checked and the workers started,
the copy in memory is gone. If a language or the replacement fails, the store that stands at the
path is opened again; if the staging directory cannot be prepared, the estimator is left without a
store. -/
def build (e : Estimator) (corpus : Corpus) (anchors : AnchorSource)
    (workers : Workers := fun _ => .ok ()) :
    StateM Session (Except Error (List BuildStats) × Estimator) := do
  match e.prepare corpus anchors workers with
  | .error cause => return (.error cause, e)
  | .ok () =>
    let path := e.config.path
    let bare := { e with store := none, cache := none }
    match ← (Action.onDisk (Replacement.freshStaging path)).run with
    | .error cause => return (.error cause, bare)
    | .ok staging =>
      let replacing : Action (List BuildStats) := do
        let stats ← bare.buildInto staging corpus anchors
        Action.onDisk (Replacement.replaceDirectory staging path)
        return stats
      match ← replacing.run with
      | .error cause =>
        let _ ← (Action.onDisk (DiskM.attempt (Replacement.removeIfPresent staging))).run
        return (.error cause, ← bare.reopen)
      | .ok stats =>
        match ← (KeyValueStore.openReadOnly path : Action _).run with
        | .error cause => return (.error cause, bare)
        | .ok store => return (.ok stats, { bare with store := some store })

/-- The settings and the state in one line. -/
def describe (e : Estimator) : String :=
  let languages := e.config.languages.map fun language =>
    "Language(" ++ Text.quoted language.code ++ ")"
  let threads := match e.config.threads with
    | some n => s!"Some({n})"
    | none => "None"
  "LinkProbabilityEstimator \x7b config: LinkProbabilityConfig \x7b path: "
    ++ Text.quoted e.config.path.text ++ ", languages: [" ++ ", ".intercalate languages
    ++ "], smoothing: " ++ e.config.smoothing.pointedText
    ++ s!", batch_size: {e.config.batchSize}, num_threads: " ++ threads
    ++ s!" \x7d, built: {e.store.isSome}, cached: {e.cache.isSome} \x7d"

end Estimator
end Relatedness
