import Gortex.Config.Global
import Gortex.Indexer.Index
import Gortex.Contracts.Matcher

/-!
# The multi-indexer

`internal/indexer/multi.go`: a `MultiIndexer` keeps an indexer for every tracked
repository, and all of them write into one store. A repository is known by its prefix,
which is what the configuration calls it or the last component of its root. Whether the
paths and IDs of a repository get the prefix is decided when it is indexed, by the number
of repositories that are tracked or configured then.
-/

namespace Gortex

open GoString

/-! ### State -/

/-- What is known of a tracked repository. -/
structure RepoMetadata where
  repoPrefix : String
  rootPath : String
  fileMtimes : GoMap String ℤ

/-- The indexers of the tracked repositories, and the repositories the configuration
lists. -/
structure MultiIndexer where
  store : Store := {}
  registry : Registry
  repos : GoMap String RepoMetadata := ∅
  indexers : GoMap String Indexer := ∅
  configRepos : List RepoEntry := []

/-- What a multi-indexer works with: the contract passes, the orders of the loops, and
what reads the git remote of a repository, the configuration files, and the text behind
contracts. -/
structure RepoEnv where
  extractors : ContractExtractors
  ords : Orders
  repoOrder : GoMap.RangeOrder MultiIndexer
  /-- The prefix of the repository at a root, by its git remote. -/
  detectIdentity : String → String
  /-- The configuration of a repository, given those that are listed. -/
  repoConfig : List RepoEntry → String → IndexConfig
  /-- The registry with the contracts of wrapped calls, and these contracts. -/
  inlineWrappers : ContractRegistry → Graph → (Node → Option ByteArray) →
    ContractRegistry × List Contract
  /-- The registry with the symbols of providers filled in. -/
  bindProviderSymbols : ContractRegistry → Graph → ContractRegistry

namespace MultiIndexer

variable (mi : MultiIndexer) (env : RepoEnv) (disk : Disk)

/-- Whether more than one repository is tracked. -/
def isMultiRepo : Bool := 1 < mi.repos.keys.length

/-- The prefix of an entry, by its identity if it has no name. -/
def prefixOf (entry : RepoEntry) (absPath : String) : String :=
  if resolvePrefix entry = "" ∨ resolvePrefix entry = "." then env.detectIdentity absPath
  else resolvePrefix entry

/-- Whether a repository that is about to be tracked gets its prefix. -/
def willBeMultiRepo : Bool := 2 ≤ mi.repos.keys.length + 1 ∨ 2 ≤ mi.configRepos.length

/-- A fresh indexer for a repository. -/
def newIndexer (repoPrefix : String) (multi : Bool) : Indexer where
  registry := mi.registry
  config := env.repoConfig mi.configRepos repoPrefix
  repoPrefix := if multi then repoPrefix else ""

/-- The file behind a path that repositories have prefixed. -/
def resolveFilePath (prefixedPath : String) : String :=
  match (env.repoOrder.order mi mi.repos.pairs).find? fun p => hasPrefix prefixedPath (p.1 ++ "/") with
  | some p => GoPath.join p.2.rootPath (trimPrefix prefixedPath (p.1 ++ "/"))
  | none => ""

/-! ### Contracts across repositories -/

/-- The contracts of all repositories. -/
def mergedContractRegistry : ContractRegistry :=
  (env.repoOrder.order mi mi.indexers.pairs).foldl (fun merged p =>
    match p.2.contractRegistry with
    | none => merged
    | some cr => merged.addAll (cr.all env.ords.contracts) p.1) {}

/-- The bytes of the file of a node. -/
def sourceReader (n : Node) : Option ByteArray :=
  let read := fun path => (disk.readFile path).toOption
  if n.filePath = "" then none
  else if n.repoPrefix ≠ "" then
    match mi.repos.lookup n.repoPrefix with
    | none => none
    | some info =>
      if info.rootPath = "" then none
      else read (GoPath.join info.rootPath (trimPrefix n.filePath (n.repoPrefix ++ "/")))
  else
    (env.repoOrder.order mi mi.repos.pairs).findSome?
      (fun p => read (GoPath.join p.2.rootPath n.filePath)) <|> read n.filePath

/-- Keep a contract of a wrapped call in the registry of its repository. -/
def keepInlined (indexers : GoMap String Indexer) (c : Contract) : GoMap String Indexer :=
  match indexers.lookup c.repoPrefix with
  | none => indexers
  | some idx =>
    match idx.contractRegistry with
    | none => indexers
    | some cr =>
      if c.repoPrefix = "" ∨ (cr.ofID c.id).any fun d =>
          d.symbolID = c.symbolID ∧ d.filePath = c.filePath ∧ d.role = c.role then indexers
      else indexers.insert c.repoPrefix { idx with contractRegistry := some (cr.add c) }

/-- The edge between two symbols that share a contract. -/
def matchEdge (m : CrossLink) : Edge where
  fromID := m.consumer.symbolID
  toID := m.provider.symbolID
  kind := .edgeMatches
  filePath := m.consumer.filePath
  line := m.consumer.line
  confidence := 1
  confidenceLabel := "EXTRACTED"
  origin := "ast_resolved"
  crossRepo := m.crossRepo

/-- Link the two symbols of a match, if there are two. -/
def addMatch (g : Graph) (m : CrossLink) : Graph :=
  if m.provider.symbolID = "" ∨ m.consumer.symbolID = "" then g
  else if m.provider.symbolID = m.consumer.symbolID then g
  else g.putEdge (matchEdge m)

/-- Remove the edges between the symbols that shared a contract. -/
def removeMatches (ord : MapOrder) (g : Graph) : Graph :=
  (((g.allEdges ord).map g.edge).filter fun e => e.kind = .edgeMatches).foldl
    (fun g e => (g.removeEdge e.fromID e.toID .edgeMatches).1) g

/-- **ReconcileContractEdges** links the symbols that share a contract now. -/
def reconcileContractEdges : MultiIndexer :=
  let g := removeMatches env.ords.graph mi.store.graph
  let mi := { mi with store := { mi.store with graph := g } }
  let (merged, inlined) :=
    env.inlineWrappers (mi.mergedContractRegistry env) g (mi.sourceReader env disk)
  let matched := ((env.bindProviderSymbols merged g).matchAll env.ords.contracts).matched
  { mi with
    indexers := inlined.foldl keepInlined mi.indexers
    store := { mi.store with graph := matched.foldl addMatch g } }

/-! ### Operations -/

/-- The text of the error if the root of a repository is no directory. -/
def rootError (absPath : String) : Option String :=
  match disk.isDir absPath with
  | none => some ("path does not exist: " ++ absPath)
  | some false => some ("path is not a directory: " ++ absPath)
  | some true => none

/-- Register the indexer of a repository after it has run. -/
def registerRepo (repoPrefix rootPath : String) (idx : Indexer) (s : Store) : MultiIndexer :=
  { mi with
    store := s
    repos := mi.repos.insert repoPrefix ⟨repoPrefix, rootPath, idx.fileMtimes⟩
    indexers := mi.indexers.insert repoPrefix idx }

/-- Add the entry of a registered repository to the configuration, and link contracts. -/
def configureRepo (entry : RepoEntry) : MultiIndexer :=
  reconcileContractEdges
    { mi with configRepos := addRepo disk.cwd mi.configRepos entry } env disk

/-- **TrackRepo** indexes a repository, unless one of its prefix is tracked. -/
def TrackRepo (entry : RepoEntry) : MultiIndexer × Except String (Option IndexResult) :=
  let absPath := GoPath.abs disk.cwd entry.path
  match rootError disk absPath with
  | some err => (mi, .error err)
  | none =>
    let repoPrefix := prefixOf env entry absPath
    if (mi.repos.lookup repoPrefix).isSome then (mi, .ok none)
    else
      let idx := mi.newIndexer env repoPrefix mi.willBeMultiRepo
      let (idx, s, result) := idx.IndexCtx env.extractors env.ords ∅ disk mi.store absPath
      let mi := mi.registerRepo repoPrefix absPath idx s
      (mi.configureRepo env disk { entry with path := absPath }, .ok (some result))

/-- **ReconcileRepo** registers a repository whose nodes a snapshot has restored, and
indexes what has changed by the modification times of then; without them it is tracked. -/
def ReconcileRepo (entry : RepoEntry) (priorMtimes : GoMap String ℤ) :
    MultiIndexer × Except String (Option IndexResult) :=
  let absPath := GoPath.abs disk.cwd entry.path
  match rootError disk absPath with
  | some err => (mi, .error err)
  | none =>
    let repoPrefix := prefixOf env entry absPath
    if (mi.repos.lookup repoPrefix).isSome then (mi, .ok none)
    else if priorMtimes.keys = [] then mi.TrackRepo env disk entry
    else
      let idx := { mi.newIndexer env repoPrefix mi.willBeMultiRepo with
        rootPath := absPath
        fileMtimes := priorMtimes }
      let (idx, s, result) :=
        idx.IncrementalReindex env.extractors env.ords ∅ disk mi.store absPath
      let mi := mi.registerRepo repoPrefix absPath idx s
      (mi.configureRepo env disk { entry with path := absPath }, .ok (some result))

/-- **IndexRepo** indexes a tracked repository again, and evicts it first if another one
is tracked. -/
def IndexRepo (repoPrefix : String) : MultiIndexer × Except String IndexResult :=
  match mi.repos.lookup repoPrefix with
  | none => (mi, .error ("repository not found: " ++ repoPrefix))
  | some info =>
    let s := if mi.isMultiRepo then
        { mi.store with graph := (Graph.evictRepo env.ords.graph mi.store.graph repoPrefix).graph }
      else mi.store
    let idx := mi.newIndexer env repoPrefix mi.isMultiRepo
    let (idx, s, result) := idx.IndexCtx env.extractors env.ords ∅ disk s info.rootPath
    ((mi.registerRepo repoPrefix info.rootPath idx s).reconcileContractEdges env disk, .ok result)

/-- **UntrackRepo** forgets a repository and evicts its nodes; it returns how many nodes and
edges are gone. -/
def UntrackRepo (repoPrefix : String) : MultiIndexer × ℕ × ℕ :=
  match mi.repos.lookup repoPrefix with
  | none => (mi, 0, 0)
  | some info =>
    let evicted := Graph.evictRepo env.ords.graph mi.store.graph repoPrefix
    let mi :=
      { mi with
        store := { mi.store with graph := evicted.graph }
        repos := mi.repos.erase repoPrefix
        indexers := mi.indexers.erase repoPrefix
        configRepos := if info.rootPath ≠ "" then removeRepo disk.cwd mi.configRepos info.rootPath
          else mi.configRepos }
    (mi.reconcileContractEdges env disk, evicted.nodesRemoved, evicted.edgesRemoved)

end MultiIndexer

end Gortex
