import Gortex.Indexer.Contracts

/-!
# Full and incremental index

`IndexCtx` walks the root and parses every file it finds; `IncrementalReindex` walks it
again later and indexes the files whose modification time has changed, file by file.
-/

namespace Gortex

/-- An error of one file. -/
structure IndexError where
  filePath : String
  error : String
deriving DecidableEq, Repr

/-- What an index run reports. -/
structure IndexResult where
  nodeCount : ℕ
  edgeCount : ℕ
  fileCount : ℕ
  errors : List IndexError := []
deriving DecidableEq, Repr

namespace Indexer

variable (idx : Indexer) (ce : ContractExtractors) (ords : Orders)
  (trackedRepoModules : GoMap String String) (disk : Disk)

/-! ### Full index -/

/-- What the workers share while they parse. -/
structure Parsing where
  graph : Graph
  cache : GoMap String ContractCacheEntry
  /-- The contracts of the files parsed. -/
  contracts : List (List Contract) := []
  errors : List IndexError := []
  fileCount : ℕ := 0

/-- The contracts of a file that was just extracted, with its path in the graph: none if
it has no file node, or no extractor of contracts lists its language. -/
def inlineContracts (path : String) (result : ExtractionResult) :
    Option (String × List Contract) :=
  match result.nodes.find? (fun n => n.kind = .kindFile), disk.readFile path with
  | some fileNode, .ok src =>
    let lang := (idx.registry.detectLanguage path).getD ""
    let fileEdges :=
      if fileNode.id = "" then [] else result.edges.filter fun e => e.fromID = fileNode.id
    if fileNode.filePath = "" ∨ (ce.perFile lang).isNone then none
    else some (fileNode.filePath,
      idx.runContractExtractorsForFile ce lang fileNode.filePath src result.nodes fileEdges)
  | _, _ => none

/-- Parse one file below the root. -/
def parseFile (root : String) (p : Parsing) (path : String) : Parsing :=
  match idx.extractFile disk path (walkRel root path) with
  | .error err => { p with errors := p.errors ++ [⟨path, err⟩] }
  | .ok none => p
  | .ok (some result) =>
    let p := { p with graph := addResult p.graph result, fileCount := p.fileCount + 1 }
    match idx.inlineContracts ce disk path result with
    | none => p
    | some (graphPath, contracts) =>
      { p with
        contracts := p.contracts ++ [contracts]
        cache := match disk.stat path with
          | some info => p.cache.insert graphPath ⟨info.modTime, contracts⟩
          | none => p.cache }

/-- The modification times of files, by their paths relative to the root. -/
def mtimesOf (root : String) (files : List String) : GoMap String ℤ :=
  files.foldl (fun m path =>
    match disk.stat path with
    | some info => m.insert (walkRel root path) info.modTime
    | none => m) ∅

/-- Whether a full index takes a file of this size. -/
def fits (path : String) : Bool :=
  match disk.stat path with
  | some info => ¬(0 < idx.config.maxFileSize ∧ idx.config.maxFileSize < info.content.size)
  | none => true

/-- The files a full index parses. -/
def indexFiles (root : String) : List String :=
  (idx.walkFiles disk root).filter (idx.fits disk)

/-- **IndexCtx** indexes the files below a root. The workers take the files, and hand
over the contracts they have found, in any order. -/
def IndexCtx (s : Store) (root : String) : Indexer × Store × IndexResult :=
  let absRoot := GoPath.abs disk.cwd root
  let idx := { idx with rootPath := absRoot }
  let files := idx.indexFiles disk absRoot
  let p := (ords.workers.order s.graph files).foldl (idx.parseFile ce disk absRoot)
    { graph := s.graph, cache := idx.contractCache }
  let idx := { idx with fileMtimes := mtimesOf disk absRoot files, contractCache := p.cache }
  let reg := (ords.workers.order p.graph p.contracts).flatten.foldl ContractRegistry.add {}
  let s := idx.buildSearchIndex ords.graph (resolveAll ords.graph { s with graph := p.graph })
  let reg := idx.extractGoModContracts ce trackedRepoModules disk reg
  let (g, reg) := idx.extractDIContracts ords.graph s.graph reg
  let (idx, g) := idx.commitContracts ce ords disk g reg
  (idx, { s with graph := g }, ⟨g.nodeCount, g.edgeCount, p.fileCount, p.errors⟩)

/-! ### Incremental index -/

/-- The files below a root that differ from what was indexed, in the order of the walk. -/
def staleFiles (root : String) : List String :=
  (idx.walkFiles disk root).filter fun path => idx.isStale disk (walkRel root path)

/-- The files that were indexed and are not below the root any more. -/
def deletedFiles (root : String) : List String :=
  (ords.mtimes.order idx.fileMtimes idx.fileMtimes.keys).filter fun relPath =>
    relPath ∉ (idx.walkFiles disk root).map (walkRel root)

/-- Evict the nodes of a deleted file, from the graph only. -/
def evictDeleted (ord : MapOrder) (p : Indexer × Store) (relPath : String) : Indexer × Store :=
  ({ p.1 with fileMtimes := p.1.fileMtimes.erase relPath },
    { p.2 with graph := (Graph.evictFile ord p.2.graph (p.1.prefixPath relPath)).graph })

/-- Index a stale file, whatever error it gives. -/
def reindexStale (ord : MapOrder) (p : Indexer × Store) (path : String) : Indexer × Store :=
  let r := p.1.IndexFile ord disk p.2 path
  (r.1, r.2.1)

/-- **IncrementalReindex** indexes the files below a root that have changed. -/
def IncrementalReindex (s : Store) (root : String) : Indexer × Store × IndexResult :=
  let absRoot := GoPath.abs disk.cwd root
  let idx := { idx with rootPath := absRoot }
  let stale := idx.staleFiles disk absRoot
  let deleted := idx.deletedFiles ords disk absRoot
  let (idx, s) := deleted.foldl (evictDeleted ords.graph) (idx, s)
  let (idx, s) := stale.foldl (reindexStale disk ords.graph) (idx, s)
  let s := { s with graph := (s.graph.inferImplements ords.graph).1 }
  let s := idx.buildSearchIndex ords.graph s
  let (idx, g) :=
    if stale ≠ [] ∨ deleted ≠ [] then
      idx.extractContracts ce ords trackedRepoModules disk s.graph
    else (idx, s.graph)
  (idx, { s with graph := g }, ⟨g.nodeCount, g.edgeCount, stale.length, []⟩)

end Indexer

end Gortex
