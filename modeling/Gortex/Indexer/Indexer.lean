import Gortex.Contracts.Registry
import Gortex.Indexer.Disk
import Gortex.Parser.Registry
import Gortex.Resolver.Resolver

/-!
# The indexer

`internal/indexer/indexer.go` without its contract passes: an `Indexer` is what the
indexer of one repository keeps for itself, and a `Store` what the indexers share,
the graph and the search index. The operations on one file are here, each in the
steps it takes: evict the file, read and extract it, add what was extracted, resolve.

The search backend is the table of its documents. Embeddings, semantic providers and
the counters that are only logged are left out.
-/

namespace Gortex

open GoString

/-! ### State -/

/-- A rule of the configuration that keeps kinds of nodes of a language out of an
index. -/
structure SkipEmbedRule where
  language : String
  kinds : List String
deriving DecidableEq, Repr

/-- Whether a rule speaks of the kind in the language. -/
def matchesSkipRule (rules : List SkipEmbedRule) (language kind : String) : Bool :=
  rules.any fun r => r.language = language ∧ kind ∈ r.kinds

/-- The configuration of an indexer. What matches a path against the patterns to be
ignored is a package of its own. -/
structure IndexConfig where
  /-- Whether a path relative to the root matches a pattern to be ignored. -/
  matchesPath : String → Bool := fun _ => false
  skipSearch : List SkipEmbedRule := []
  /-- The size above which a full index skips a file, none if it is not positive. -/
  maxFileSize : ℤ := 0

/-- What the search index knows of a symbol. -/
structure SearchDoc where
  name : String
  filePath : String
  signature : String
deriving DecidableEq, Repr

/-- A file's contracts, as of a modification time. -/
structure ContractCacheEntry where
  mtimeNano : ℤ
  contracts : List Contract

/-- The indexer of a repository. -/
structure Indexer where
  registry : Registry
  config : IndexConfig := {}
  rootPath : String := ""
  /-- What paths and IDs start with, nothing if it is empty. -/
  repoPrefix : String := ""
  fileMtimes : GoMap String ℤ := ∅
  contractRegistry : Option ContractRegistry := none
  contractCache : GoMap String ContractCacheEntry := ∅

/-- What the indexers share. -/
structure Store where
  graph : Graph := Graph.new
  search : GoMap String SearchDoc := ∅

/-- The orders in which the loops over maps come out, and the order in which the
workers of a full index take the files. -/
structure Orders where
  graph : MapOrder
  mtimes : GoMap.RangeOrder (GoMap String ℤ)
  contracts : GoMap.RangeOrder ContractRegistry
  workers : GoMap.RangeOrder Graph

namespace Indexer

variable (idx : Indexer)

/-! ### Prefixes -/

/-- Prepend the prefix of the repository to a relative path. -/
def prefixPath (relPath : String) : String :=
  if idx.repoPrefix = "" then relPath else idx.repoPrefix ++ "/" ++ relPath

/-- A node under the prefix of the repository. -/
def prefixNode (n : Node) : Node :=
  if idx.repoPrefix = "" then n
  else
    { n with
      id := idx.repoPrefix ++ "/" ++ n.id
      filePath := idx.repoPrefix ++ "/" ++ n.filePath
      repoPrefix := idx.repoPrefix }

/-- An edge under the prefix of the repository; a placeholder stays as it is. -/
def prefixEdge (e : Edge) : Edge :=
  if idx.repoPrefix = "" then e
  else
    { e with
      fromID := idx.repoPrefix ++ "/" ++ e.fromID
      toID := if hasPrefix e.toID unresolvedPrefix then e.toID
        else idx.repoPrefix ++ "/" ++ e.toID
      filePath := idx.repoPrefix ++ "/" ++ e.filePath }

/-- **applyRepoPrefix**: what an extractor produced, under the prefix. -/
def applyRepoPrefix (result : ExtractionResult) : ExtractionResult :=
  ⟨result.nodes.map idx.prefixNode, result.edges.map idx.prefixEdge⟩

/-! ### The search index -/

/-- Whether a node belongs in the search index. -/
def shouldIndexForSearch (n : Node) : Bool :=
  n.kind ≠ .kindFile ∧ n.kind ≠ .kindImport ∧
    matchesSkipRule idx.config.skipSearch n.language n.kind.str = false

/-- Add nodes to the search index. -/
def addToSearch (search : GoMap String SearchDoc) (nodes : List Node) : GoMap String SearchDoc :=
  nodes.foldl (fun search n =>
    if idx.shouldIndexForSearch n then
      search.insert n.id ⟨n.name, n.filePath, n.metadata.getStr "signature"⟩
    else search) search

/-- **buildSearchIndex** adds the nodes of the graph. -/
def buildSearchIndex (ord : MapOrder) (s : Store) : Store :=
  { s with search := idx.addToSearch s.search ((s.graph.allNodes ord).map s.graph.node) }

/-! ### One file -/

/-- Evict the nodes of a path, from the search index and from the graph. -/
def evictPath (ord : MapOrder) (s : Store) (graphPath : String) : Store where
  search := ((s.graph.getFileNodes graphPath).map s.graph.node).foldl (fun search n =>
    if n.kind ≠ .kindFile ∧ n.kind ≠ .kindImport then search.erase n.id else search) s.search
  graph := (Graph.evictFile ord s.graph graphPath).graph

/-- The path of a file relative to the root, or as it is if it has none. -/
def relPathOf (filePath absPath : String) : String :=
  match GoPath.rel idx.rootPath absPath with
  | .ok relPath => relPath
  | .error _ => filePath

/-- What reading and extracting a file comes to: an error, nothing if no extractor is
registered for the file, or the extracted nodes and edges, under the prefix. -/
def extractFile (disk : Disk) (absPath relPath : String) :
    Except String (Option ExtractionResult) :=
  match disk.readFile absPath with
  | .error err => .error err
  | .ok src =>
    match (idx.registry.detectLanguage absPath).bind idx.registry.getByLanguage with
    | none => .ok none
    | some ext =>
      match ext.extract relPath src with
      | .error err => .error err
      | .ok result => .ok (some (idx.applyRepoPrefix result))

/-- Add nodes and edges to a graph. -/
def addResult (g : Graph) (result : ExtractionResult) : Graph :=
  result.edges.foldl Graph.putEdge (result.nodes.foldl Graph.putNode g)

/-- Add what was extracted from a file to the graph and the search index. -/
def addExtracted (s : Store) (result : ExtractionResult) : Store where
  graph := addResult s.graph result
  search := idx.addToSearch s.search result.nodes

/-- Record the modification time of a file. -/
def recordMtime (disk : Disk) (absPath relPath : String) : Indexer :=
  match disk.stat absPath with
  | some info => { idx with fileMtimes := idx.fileMtimes.insert relPath info.modTime }
  | none => idx

/-- **indexFile** patches the graph for one file: evict, extract, add, and resolve the
edges of the file if `resolve` is set. -/
def indexFile (ord : MapOrder) (disk : Disk) (s : Store) (filePath : String) (resolve : Bool) :
    Indexer × Store × Option String :=
  let absPath := GoPath.abs disk.cwd filePath
  let relPath := idx.relPathOf filePath absPath
  let graphPath := idx.prefixPath relPath
  let s := evictPath ord s graphPath
  match idx.extractFile disk absPath relPath with
  | .error err => (idx, s, some err)
  | .ok none => (idx, s, none)
  | .ok (some result) =>
    let s := idx.addExtracted s result
    let s := if resolve then { s with graph := (s.graph.resolveFile ord graphPath).1 } else s
    (idx.recordMtime disk absPath relPath, s, none)

/-- Patch the graph for one file. -/
def IndexFile (ord : MapOrder) (disk : Disk) (s : Store) (filePath : String) :
    Indexer × Store × Option String :=
  idx.indexFile ord disk s filePath true

/-- Patch the graph for one file of a batch, which resolves at its end. -/
def IndexFileNoResolve (ord : MapOrder) (disk : Disk) (s : Store) (filePath : String) :
    Indexer × Store × Option String :=
  idx.indexFile ord disk s filePath false

/-- **EvictFile** removes the nodes of a file. -/
def evictFile (ord : MapOrder) (s : Store) (filePath : String) : Store :=
  evictPath ord s (idx.prefixPath (idx.relPathOf filePath filePath))

/-- **ResolveAll** resolves all edges and infers the interfaces. -/
def resolveAll (ord : MapOrder) (s : Store) : Store :=
  { s with graph := (((s.graph.resolveAll ord).1).inferImplements ord).1 }

/-- **IsStale**: whether the file differs from what was indexed, by the recorded
modification time. -/
def isStale (disk : Disk) (relPath : String) : Bool :=
  match idx.fileMtimes.lookup relPath with
  | none => true
  | some storedMtime =>
    match disk.stat (GoPath.join idx.rootPath relPath) with
    | none => true
    | some info => info.modTime ≠ storedMtime

/-! ### Walks -/

/-- Whether a walk of the root leaves a file out, for itself or for a directory it is
in. -/
def shouldExclude (root path : String) : Bool :=
  ((GoPath.parse path).comps.drop (GoPath.parse root).comps.length).inits.any fun ws =>
    ws ≠ [] ∧ idx.config.matchesPath (String.ofList (GoPath.joinSlash ws))

/-- The files a walk of the root finds for the indexer. -/
def walkFiles (disk : Disk) (root : String) : List String :=
  (disk.walkDir root).filter fun path =>
    (idx.registry.detectLanguage path).isSome ∧ idx.shouldExclude root path = false

/-- The path of a file relative to the root of a walk. -/
def walkRel (root path : String) : String :=
  match GoPath.rel root path with
  | .ok relPath => relPath
  | .error _ => ""

end Indexer

end Gortex
