import Gortex.Indexer.Indexer

/-!
# The contract passes of the indexer

A pass collects the contracts of the files of the repository in a registry, adds those
of `go.mod` and those of dependency injection (`internal/indexer/di_contracts.go`),
and commits the registry: a node for every contract, and an edge between it and the
symbol that provides or consumes it.

What finds the contracts in the text of a file, and what refines them by the graph
before they are committed, are the parameters `ContractExtractors`.
-/

namespace Gortex

open GoString

/-- The parts of a contract pass that read source text. -/
structure ContractExtractors where
  /-- The extractors that list a language, if one does. -/
  perFile : (lang : String) → Option (String → ByteArray → List Node → List Edge → List Contract)
  /-- The extractor of `go.mod`, given the modules of the tracked repositories. -/
  goMod : (trackedRepos : GoMap String String) → String → ByteArray → List Contract
  /-- The passes that resolve types and handlers named in contracts by the graph. -/
  refine : (rootPath repoPrefix : String) → Disk → Graph → ContractRegistry → ContractRegistry
  /-- The fields of a type, read from its lines. -/
  extractShape : String → ByteArray → ℤ → ℤ → Option MetaValue

namespace Indexer

variable (idx : Indexer) (ce : ContractExtractors)

/-! ### Dependency injection -/

/-- Whether a character can stand in a Java identifier. -/
def isJavaIdentChar (c : Char) : Bool :=
  ('A' ≤ c ∧ c ≤ 'Z') ∨ ('a' ≤ c ∧ c ≤ 'z') ∨ ('0' ≤ c ∧ c ≤ '9') ∨ c = '_' ∨ c = '$'

/-- The scan of `signatureReferencesType`: `prev` is the character before, and the
characters still to skip belong to an occurrence that is no whole word. -/
def scanForType (typeName : List Char) : (prev : Option Char) → (skip : ℕ) → List Char → Bool
  | _, _, [] => false
  | _, skip + 1, c :: cs => scanForType typeName (some c) skip cs
  | prev, 0, c :: cs =>
    if typeName.isPrefixOf (c :: cs) then
      if prev.all (fun p => !isJavaIdentChar p) &&
          ((c :: cs).drop typeName.length).head?.all fun n => !isJavaIdentChar n then true
      else scanForType typeName (some c) (typeName.length - 1) cs
    else scanForType typeName (some c) 0 cs

/-- Whether a type occurs in a signature as a whole word. -/
def signatureReferencesType (sig typeName : String) : Bool :=
  scanForType typeName.toList none 0 sig.toList

/-- The node of the class of a method. -/
def enclosingClassID (n : Node) : String :=
  let recv := n.metadata.getStr "receiver"
  if recv = "" then "" else n.filePath ++ "::" ++ recv

/-- The edges that declare a bean. -/
def beans (ord : MapOrder) (g : Graph) : List Edge :=
  ((g.allEdges ord).map g.edge).filter fun e => e.kind = .edgeProvides ∧
    e.metadata.getStr "binding" = "bean" ∧ e.metadata.getStr "provides_for" ≠ ""

/-- The edge from a class whose constructor takes a bean to the method that makes it. -/
def beanEdge (bean : Edge) (cls : String) : Edge where
  fromID := cls
  toID := bean.toID
  kind := .edgeCalls
  filePath := bean.filePath
  line := bean.line
  metadata := ((∅ : Metadata).insert "via" (.str "spring.Bean")).insert "bean_of"
    (.str (bean.metadata.getStr "provides_for"))

/-- Link one bean to the class of one node, once. -/
def linkBean (bean : Edge) (s : Graph × List String) (n : Node) : Graph × List String :=
  let params := n.metadata.getStr "params_src"
  let cls := enclosingClassID n
  let key := cls ++ "->" ++ bean.toID
  if n.kind ≠ .kindMethod ∨ n.language ≠ "java" then s
  else if n.id = bean.toID then s
  else if params = "" then s
  else if signatureReferencesType params (bean.metadata.getStr "provides_for") = false then s
  else if cls = "" ∨ cls = bean.toID then s
  else if key ∈ s.2 then s
  else (s.1.putEdge (beanEdge bean cls), key :: s.2)

/-- **linkSpringBeans** adds the edges from the classes that take a bean to the method
that makes it. -/
def linkSpringBeans (ord : MapOrder) (g : Graph) : Graph :=
  ((beans ord g).foldl (fun s bean =>
    ((s.1.allNodes ord).map s.1.node).foldl (linkBean bean) s) (g, ([] : List String))).1

/-- The token a provider edge binds, by the form of the binding. -/
def boundToken (e : Edge) : String :=
  let binding := e.metadata.getStr "binding"
  if binding = "useClass" ∨ binding = "bean" then e.metadata.getStr "provides_for"
  else if binding = "useValue" ∨ binding = "useFactory" ∨ binding = "useExisting" then
    e.metadata.getStr "di_token"
  else ""

/-- The metadata of the contract of a provider edge. -/
def providerMeta (e : Edge) : Metadata :=
  let binding := e.metadata.getStr "binding"
  let m : Metadata := (∅ : Metadata).insert "binding" (.str binding)
  if e.toID ≠ "" ∧ (binding = "useClass" ∨ binding = "bean") then m.insert binding (.str e.toID)
  else m

/-- A contract of dependency injection. -/
def diContract (e : Edge) (token : String) (role : Role) (metadata : Metadata) : Contract where
  id := "di::" ++ token
  contractType := ContractType.di
  role := role
  symbolID := e.fromID
  filePath := e.filePath
  line := e.line
  metadata := metadata
  confidence := 9 / 10

/-- The contract of an edge, if it is one of dependency injection. -/
def diContractFromEdge (e : Edge) : Option Contract :=
  if e.kind = .edgeProvides then
    let token := boundToken e
    if token = "" then none else some (diContract e token Role.provider (providerMeta e))
  else if e.kind = .edgeConsumes then
    let token := e.metadata.getStr "di_token"
    if e.metadata.getStr "via" ≠ "@Inject" ∨ token = "" then none
    else some (diContract e token Role.consumer ((∅ : Metadata).insert "via" (.str "@Inject")))
  else none

/-- **extractDIContracts** links the beans and adds the contracts of the edges. -/
def extractDIContracts (ord : MapOrder) (g : Graph) (reg : ContractRegistry) :
    Graph × ContractRegistry :=
  let g := linkSpringBeans ord g
  let discovered := ((g.allEdges ord).map g.edge).filterMap diContractFromEdge
  (g, reg.addAll discovered idx.repoPrefix)

/-! ### Files -/

/-- **runContractExtractorsForFile**: the contracts in a file, of this repository. -/
def runContractExtractorsForFile (lang graphPath : String) (src : ByteArray)
    (fileNodes : List Node) (fileEdges : List Edge) : List Contract :=
  match ce.perFile lang with
  | none => []
  | some extract =>
    (extract graphPath src fileNodes fileEdges).map fun c => { c with repoPrefix := idx.repoPrefix }

/-- Add the contracts of `go.mod`. -/
def extractGoModContracts (trackedRepoModules : GoMap String String) (disk : Disk)
    (reg : ContractRegistry) : ContractRegistry :=
  match disk.readFile (GoPath.join idx.rootPath "go.mod") with
  | .error _ => reg
  | .ok src => reg.addAll (ce.goMod trackedRepoModules (idx.prefixPath "go.mod") src) idx.repoPrefix

/-! ### Committing -/

/-- The symbols contracts name as the type of a request or a response. -/
def shapeSymbols (contracts : List Contract) : List String :=
  (contracts.flatMap fun c => ["request_type", "response_type"].map c.metadata.getStr).filter
    fun v => v ≠ "" ∧ contains v "::"

/-- The path on disk of a path of the graph. -/
def diskPath (graphPath : String) : String :=
  GoPath.join idx.rootPath
    (if idx.repoPrefix ≠ "" ∧ hasPrefix graphPath (idx.repoPrefix ++ "/") then
      trimPrefix graphPath (idx.repoPrefix ++ "/")
    else graphPath)

/-- Attach the fields of a type to its node, through its pointer. -/
def attachShape (disk : Disk) (g : Graph) (id : String) : Graph :=
  match g.getNode id with
  | none => g
  | some r =>
    let node := g.node r
    if node.kind ≠ .kindType ∨ (node.metadata.lookup "shape").isSome then g
    else
      match disk.readFile (idx.diskPath node.filePath) with
      | .error _ => g
      | .ok src =>
        match ce.extractShape node.filePath src node.startLine node.endLine with
        | none => g
        | some shape => g.setNode r { node with metadata := node.metadata.insert "shape" shape }

/-- **snapshotContractShapes** attaches the fields of the types contracts name. -/
def snapshotContractShapes (disk : Disk) (g : Graph) (contracts : List Contract) : Graph :=
  (shapeSymbols contracts).dedup.foldl (idx.attachShape ce disk) g

/-- The node of a contract. It has no repository. -/
def contractNode (c : Contract) : Node where
  id := c.id
  kind := .kindContract
  name := c.id
  filePath := c.filePath
  language := "contract"
  metadata := ((∅ : Metadata).insert "type" (.str c.contractType.str)).insert "role"
    (.str c.role.str)

/-- The edge between a contract and its symbol. -/
def contractEdge (c : Contract) : Edge where
  fromID := c.symbolID
  toID := c.id
  kind := if c.role = Role.consumer then .edgeConsumes else .edgeProvides
  filePath := c.filePath
  line := c.line

/-- Write one contract to the graph. -/
def commitContract (g : Graph) (c : Contract) : Graph :=
  let g := g.putNode (contractNode c)
  if c.symbolID ≠ "" then g.putEdge (contractEdge c) else g

/-- **commitContracts** refines the contracts of a registry, writes them to the graph
and keeps the registry. -/
def commitContracts (ords : Orders) (disk : Disk) (g : Graph) (reg : ContractRegistry) :
    Indexer × Graph :=
  let reg := ce.refine idx.rootPath idx.repoPrefix disk g reg
  let contracts := reg.all ords.contracts
  let g := idx.snapshotContractShapes ce disk g contracts
  ({ idx with contractRegistry := some reg }, contracts.foldl commitContract g)

/-- The state of a pass over the file nodes: the cache, the registry and the files
seen. -/
structure ContractScan where
  cache : GoMap String ContractCacheEntry
  reg : ContractRegistry := {}
  seenFiles : List String := []

/-- Collect the contracts of one file node, from the cache if the file has not
changed. -/
def scanFile (disk : Disk) (g : Graph) (s : ContractScan) (fileNode : Node) : ContractScan :=
  if idx.repoPrefix ≠ "" ∧ hasPrefix fileNode.filePath (idx.repoPrefix ++ "/") = false then s
  else
    match disk.stat (idx.diskPath fileNode.filePath) with
    | none => s
    | some info =>
      let s := { s with seenFiles := fileNode.filePath :: s.seenFiles }
      match (s.cache.lookup fileNode.filePath).filter fun c => c.mtimeNano = info.modTime with
      | some cached => { s with reg := cached.contracts.foldl ContractRegistry.add s.reg }
      | none =>
        match disk.readFile (idx.diskPath fileNode.filePath) with
        | .error _ => s
        | .ok src =>
          let contracts := idx.runContractExtractorsForFile ce fileNode.language fileNode.filePath src
            ((g.getFileNodes fileNode.filePath).map g.node) (g.edgesAt fileNode.id)
          { s with
            reg := contracts.foldl ContractRegistry.add s.reg
            cache := s.cache.insert fileNode.filePath ⟨info.modTime, contracts⟩ }

/-- Drop the cache entries of files not seen. -/
def pruneCache (cache : GoMap String ContractCacheEntry) (seenFiles : List String) :
    GoMap String ContractCacheEntry :=
  cache.keys.foldl (fun cache path => if path ∈ seenFiles then cache else cache.erase path) cache

/-- **extractContracts**: the pass over the files of the graph. -/
def extractContracts (ords : Orders) (trackedRepoModules : GoMap String String) (disk : Disk)
    (g : Graph) : Indexer × Graph :=
  let scan := (g.fileNodes ords.graph).foldl (idx.scanFile ce disk g) { cache := idx.contractCache }
  let idx := { idx with contractCache := pruneCache scan.cache scan.seenFiles }
  let reg := idx.extractGoModContracts ce trackedRepoModules disk scan.reg
  let (g, reg) := idx.extractDIContracts ords.graph g reg
  idx.commitContracts ce ords disk g reg

end Indexer

end Gortex
