import Gortex.Graph.View
import Gortex.Lib.Fold
import Gortex.Lib.GoPath
import Gortex.Resolver.Builtins

/-!
# The resolver

An extractor that meets a name writes an edge to a placeholder,
`unresolved::` and the name. The resolver of `internal/resolver/resolver.go` replaces
the placeholder by the ID of a node, or by the label of something outside the graph.

What it reads of the graph is a `Lookup`, and the passes for the forms a placeholder
has are functions of a lookup and an edge, to the edge as it is written back and the
counter it is counted under. The lists of a lookup come in the order in which the
graph returns them, and most passes take the first candidate that fits.
-/

namespace Gortex

open GoString

/-- What starts the target of an edge that is not resolved. -/
def unresolvedPrefix : String := "unresolved::"

/-! ### What the resolver reads -/

/-- The lookups of the graph, and the file nodes at the start of the pass. -/
structure Lookup where
  getNode : String → Option Node
  findNodesByName : String → List Node
  getNodeByQualName : String → Option Node
  /-- The file nodes, which the two directory indexes are built from. -/
  fileNodes : List Node
  allEdges : List Edge

/-- The file nodes, in the order of `allNodes`. -/
def Graph.fileNodes (ord : MapOrder) (g : Graph) : List Node :=
  ((g.allNodes ord).map g.node).filter fun n => n.kind = .kindFile

/-- What the resolver reads of a graph in a pass that started with these files. -/
def Graph.lookup (ord : MapOrder) (g : Graph) (fileNodes : List Node) : Lookup where
  getNode := g.nodeAt
  findNodesByName := fun name => (g.findNodesByName name).map g.node
  getNodeByQualName := fun qualName => (g.getNodeByQualName qualName).map g.node
  fileNodes := fileNodes
  allEdges := (g.allEdges ord).map g.edge

/-- Which counter of the statistics an edge is counted under. -/
inductive Outcome
  | resolved
  | unresolved
  | external
deriving DecidableEq, Repr

/-- The component after the last slash. -/
def lastPathComponent (path : String) : String :=
  String.ofList ((GoPath.splitSlash path.toList).getLastD [])

namespace Lookup

variable (v : Lookup)

/-- The files of a directory. -/
def dirIndex (dir : String) : List Node := v.fileNodes.filter fun n => GoPath.dir n.filePath = dir

/-- The files of all directories of a name, except a directory that is its name. -/
def lastDirIndex (last : String) : List Node :=
  v.fileNodes.filter fun n =>
    let dir := GoPath.dir n.filePath
    lastPathComponent dir = last ∧ last ≠ "" ∧ last ≠ dir

/-- The repository of the node an edge comes from. -/
def callerRepoPrefix (e : Edge) : String := ((v.getNode e.fromID).map Node.repoPrefix).getD ""

end Lookup

/-! ### Writing a target -/

/-- The receiver type an extractor has noted on a call. -/
def edgeReceiverType (e : Edge) : String := e.metadata.getStr "receiver_type"

/-- The receiver type of a method. -/
def nodeReceiverType (n : Node) : String := n.metadata.getStr "receiver"

namespace Edge

/-- The edge goes to the node. -/
def resolveTo (e : Edge) (c : Node) : Edge × Outcome := ({ e with toID := c.id }, .resolved)

/-- The edge goes to the node, with the confidence of the pass. -/
def resolveScored (e : Edge) (confidence : ℚ) (c : Node) : Edge × Outcome :=
  ({ e with toID := c.id, confidence := confidence }, .resolved)

/-- The edge goes to the node, and is marked if the node is of another repository. -/
def resolveAcross (e : Edge) (callerRepo : String) (c : Node) : Edge × Outcome :=
  let cross := callerRepo ≠ "" ∧ c.repoPrefix ≠ "" ∧ c.repoPrefix ≠ callerRepo
  ({ e with toID := c.id, crossRepo := if cross then true else e.crossRepo }, .resolved)

/-- The edge goes to a label of something outside the graph. -/
def resolveExternal (e : Edge) (label : String) : Edge × Outcome :=
  ({ e with toID := label }, .external)

end Edge

namespace Node

/-- A function or a method. -/
def isCallable (n : Node) : Bool := n.kind = .kindFunction ∨ n.kind = .kindMethod

/-- A type or an interface. -/
def isTypeLike (n : Node) : Bool := n.kind = .kindType ∨ n.kind = .kindInterface

end Node

namespace Lookup

variable (v : Lookup)

/-! ### The passes -/

/-- Whether an import path looks like one of the Go standard library: no dot in its
first segment. -/
def isStdlibLike (importPath : String) : Bool :=
  let first := String.ofList ((GoPath.splitSlash importPath.toList).headD [])
  first ≠ "" ∧ contains first "." = false

/-- **A call qualified by an import path**, `extern::path::symbol`. -/
def resolveExtern (e : Edge) (spec : String) : Edge × Outcome :=
  match cutLast spec "::" with
  | none => e.resolveExternal ("external::" ++ spec)
  | some (importPath, symbol) =>
    let fits := fun c : Node =>
      let dir := GoPath.dir c.filePath
      (c.isCallable || c.isTypeLike) && (hasSuffix dir ("/" ++ lastPathComponent importPath) ||
        decide (dir = importPath) || hasSuffix dir importPath)
    match (v.findNodesByName symbol).find? fits with
    | some c => e.resolveAcross (v.callerRepoPrefix e) c
    | none =>
      let label := if isStdlibLike importPath then "stdlib::" else "dep::"
      e.resolveExternal (label ++ importPath ++ "::" ++ symbol)

/-- **An import.** A file of the repository of the importing one is preferred. -/
def resolveImport (e : Edge) (importPath : String) : Edge × Outcome :=
  let callerRepo := v.callerRepoPrefix e
  match v.getNodeByQualName importPath with
  | some node => e.resolveAcross callerRepo node
  | none =>
    let same := fun n : Node => callerRepo = "" ∨ n.repoPrefix = callerRepo
    let dirs := v.dirIndex importPath
    let lastDirs := v.lastDirIndex (lastPathComponent importPath)
    match dirs.find? (fun n => same n) <|> lastDirs.find? fun n => same n with
    | some n => e.resolveTo n
    | none =>
      match (dirs ++ lastDirs).head? with
      | some n => e.resolveAcross callerRepo n
      | none => e.resolveExternal ("external::" ++ importPath)

/-- The first candidate with the property, one in the directory of the caller before
the others. -/
def sameDirFirst (e : Edge) (candidates : List Node) (fits : Node → Bool) :
    Option (Edge × Outcome) :=
  (candidates.find? fun c => fits c && GoPath.dir c.filePath = GoPath.dir e.filePath).map e.resolveTo
    <|> (candidates.find? fits).map (e.resolveAcross (v.callerRepoPrefix e))

/-- **A call of a function.** -/
def resolveFunctionCall (e : Edge) (funcName : String) : Edge × Outcome :=
  let candidates := v.findNodesByName funcName
  (v.sameDirFirst e candidates Node.isCallable).getD (e, .unresolved)

/-- **A reference to a type or a function**, a type being preferred. -/
def resolveTypeOrFunc (e : Edge) (name : String) : Edge × Outcome :=
  let candidates := v.findNodesByName name
  (v.sameDirFirst e candidates Node.isTypeLike
    <|> v.sameDirFirst e candidates Node.isCallable).getD (e, .unresolved)

/-- Label a call of a built-in method. -/
def applyBuiltinIfKnown (e : Edge) (methodName : String) : Option (Edge × Outcome) :=
  let lang := langFromFilePath e.filePath
  if lang = "" then none
  else (classifyBuiltin methodName lang).map fun category =>
    e.resolveExternal ("builtin::" ++ lang ++ "::" ++ category ++ "::" ++ methodName)

/-- The name of a class behind the target of an edge, resolved or not. -/
def boundName (toID : String) : String :=
  if hasPrefix toID unresolvedPrefix then trimPrefix toID unresolvedPrefix
  else match cutLast toID "::" with
    | some (_, name) => name
    | none => toID

/-- The classes a module binds to an abstract type. -/
def boundImplsFor (abstractName : String) : List String :=
  if abstractName = "" then []
  else (v.allEdges.filter fun ed => ed.kind = .edgeProvides ∧
    ed.metadata.getStr "provides_for" = abstractName ∧
      ed.metadata.getStr "binding" = "useClass").map fun ed => boundName ed.toID

/-- The passes for a call with a hint at the type of its receiver. -/
def resolveByHint (e : Edge) (candidates : List Node) : Option (Edge × Outcome) :=
  let receiverType := edgeReceiverType e
  let here := fun c : Node => decide (GoPath.dir c.filePath = GoPath.dir e.filePath)
  let ofType := fun c : Node => decide (c.kind = .kindMethod ∧ nodeReceiverType c = receiverType)
  let bound := v.boundImplsFor receiverType
  if receiverType = "" then none
  else
    (candidates.find? fun c => ofType c && here c).map (e.resolveScored (95 / 100))
      <|> (candidates.find? ofType).map (e.resolveScored (85 / 100))
      <|> (candidates.find? fun c => c.kind = .kindMethod ∧ nodeReceiverType c ∈ bound).map fun c =>
        ({ e with
            toID := c.id
            confidence := 9 / 10
            metadata := e.metadata.insert "resolution" (.str "useClass_binding") }, .resolved)

/-- The receiver type of the calling method, empty if the caller is no method. -/
def callerReceiverType (e : Edge) : String :=
  match v.getNode e.fromID with
  | some callerNode => if callerNode.kind = .kindMethod then nodeReceiverType callerNode else ""
  | none => ""

/-- The passes for a call in a method, by the receiver of the calling method. -/
def resolveByCaller (e : Edge) (candidates : List Node) : Option (Edge × Outcome) :=
  let callerRecv := v.callerReceiverType e
  let here := fun c : Node => decide (GoPath.dir c.filePath = GoPath.dir e.filePath)
  let ofType := fun c : Node => decide (c.kind = .kindMethod ∧ nodeReceiverType c = callerRecv)
  if callerRecv = "" then none
  else
    (candidates.find? fun c => ofType c && here c).map (e.resolveScored (9 / 10))
      <|> (candidates.find? ofType).map (e.resolveScored (8 / 10))

/-- The passes that look at the name only: methods before functions, and those of the
directory of the caller before the others. -/
def resolveByName (e : Edge) (candidates : List Node) : Option (Edge × Outcome) :=
  let here := fun c : Node => decide (GoPath.dir c.filePath = GoPath.dir e.filePath)
  let isMethod := fun c : Node => decide (c.kind = .kindMethod)
  let isFunction := fun c : Node => decide (c.kind = .kindFunction)
  (candidates.find? fun c => isMethod c && here c).map e.resolveTo
    <|> (candidates.find? isMethod).map e.resolveTo
    <|> (candidates.find? fun c => isFunction c && here c).map e.resolveTo
    <|> (candidates.find? isFunction).map e.resolveTo

/-- **A call of a method**, `*.name`. -/
def resolveMethodCall (e : Edge) (methodName : String) : Edge × Outcome :=
  let candidates := v.findNodesByName methodName
  (v.resolveByHint e candidates <|> v.resolveByCaller e candidates <|> resolveByName e candidates
    <|> applyBuiltinIfKnown e methodName).getD (e, .unresolved)

/-- **A reference to an injection token**: a candidate of any kind. -/
def resolveTokenRef (e : Edge) (name : String) : Edge × Outcome :=
  let candidates := v.findNodesByName name
  let here := fun c : Node => decide (GoPath.dir c.filePath = GoPath.dir e.filePath)
  ((candidates.find? here).map (e.resolveScored (9 / 10))
    <|> candidates.head?.map (e.resolveScored (7 / 10))).getD (e, .unresolved)

/-- **The pass for the form of the placeholder.** -/
def resolveEdge (e : Edge) : Edge × Outcome :=
  let target := trimPrefix e.toID unresolvedPrefix
  if hasPrefix target "import::" then v.resolveImport e (trimPrefix target "import::")
  else if hasPrefix target "extern::" then v.resolveExtern e (trimPrefix target "extern::")
  else if hasPrefix target "*." then v.resolveMethodCall e (trimPrefix target "*.")
  else if e.kind = .edgeProvides ∨ e.kind = .edgeConsumes then v.resolveTokenRef e target
  else if e.kind = .edgeInstantiates ∨ e.kind = .edgeReferences then v.resolveTypeOrFunc e target
  else v.resolveFunctionCall e target

end Lookup

/-! ### Passes over the graph -/

/-- The counters of a pass. -/
structure ResolveStats where
  resolved : ℕ := 0
  unresolved : ℕ := 0
  external : ℕ := 0
deriving DecidableEq, Repr

/-- Count one edge. -/
def ResolveStats.count (stats : ResolveStats) : Outcome → ResolveStats
  | .resolved => { stats with resolved := stats.resolved + 1 }
  | .unresolved => { stats with unresolved := stats.unresolved + 1 }
  | .external => { stats with external := stats.external + 1 }

namespace Graph

/-- Resolve the edge behind a pointer, if its target is a placeholder, and reindex
it. -/
def resolveRef (ord : MapOrder) (files : List Node) (s : Graph × ResolveStats) (r : EdgeRef) :
    Graph × ResolveStats :=
  if hasPrefix (s.1.edge r).toID unresolvedPrefix then
    let res := (s.1.lookup ord files).resolveEdge (s.1.edge r)
    (s.1.retarget r res.1, s.2.count res.2)
  else s

/-- **ResolveAll** resolves the edges of the graph. -/
def resolveAll (ord : MapOrder) (g : Graph) : Graph × ResolveStats :=
  (g.allEdges ord).foldl (resolveRef ord (g.fileNodes ord)) (g, {})

/-- **ResolveFile** resolves the edges that start at a node of the file. -/
def resolveFile (ord : MapOrder) (g : Graph) (filePath : String) : Graph × ResolveStats :=
  (g.getFileNodes filePath).foldl (fun s n =>
    (s.1.getOutEdges (s.1.idOf n)).foldl (resolveRef ord (g.fileNodes ord)) s) (g, {})

/-! ### Inferred interfaces -/

/-- The method names an interface requires, none if the extractor noted none. -/
def requiredMethods (n : Node) : List String :=
  match n.metadata.lookup "methods" with
  | some (.strs l) => l
  | some (.anys l) => l.filterMap id
  | _ => []

/-- The interfaces that require a method. -/
def interfaces (ord : MapOrder) (g : Graph) : List Node :=
  ((g.allNodes ord).map g.node).filter fun n =>
    n.kind = .kindInterface ∧ requiredMethods n ≠ []

/-- The names of the methods of every type, by the edges from a method to its type. -/
def typeMethods (ord : MapOrder) (g : Graph) : GoMap String (List String) :=
  ((g.allEdges ord).map g.edge).foldl (fun m e =>
    if e.kind ≠ .edgeMemberOf then m
    else match g.nodeAt e.fromID with
      | some methodNode =>
        if methodNode.kind ≠ .kindMethod then m
        else m.insert e.toID (methodNode.name :: (m.lookup e.toID).getD [])
      | none => m) ∅

/-- The edge from a type to an interface it implements. -/
def implementsEdge (typeNode : Node) (typeID ifaceID : String) : Edge where
  fromID := typeID
  toID := ifaceID
  kind := .edgeImplements
  filePath := typeNode.filePath
  line := typeNode.startLine

/-- Add the edges from one type to the interfaces its methods satisfy. -/
def addImplements (ifaces : List Node) (s : Graph × ℕ) (p : String × List String) : Graph × ℕ :=
  match s.1.nodeAt p.1 with
  | none => s
  | some typeNode =>
    if typeNode.isTypeLike then
      ifaces.foldl (fun s iface =>
        if iface.id = p.1 then s
        else if ∀ m ∈ requiredMethods iface, m ∈ p.2 then
          (s.1.putEdge (implementsEdge typeNode p.1 iface.id), s.2 + 1)
        else s) s
    else s

/-- **InferImplements** adds an edge from every type to the interfaces whose methods
it has, and returns how many. -/
def inferImplements (ord : MapOrder) (g : Graph) : Graph × ℕ :=
  let ifaces := g.interfaces ord
  if ifaces = [] then (g, 0)
  else (ord.order g (g.typeMethods ord).pairs).foldl (addImplements ifaces) (g, 0)

end Graph

end Gortex
