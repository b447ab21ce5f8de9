import Gortex.Lib.GoPath
import Gortex.Semantic.References

/-!
# Enriching the graph from the Go type checker

The pass of the `go-types` provider (`internal/semantic/goanalysis/provider.go`): the objects the
type checker knows are mapped to nodes, their uses are confirmed or added as edges of the functions
they are in, and the implementations of the mapped interfaces are confirmed and completed.

The type checker is a parameter (`Gortex.Semantic.GoTypes.Checker`): what kind an object is of, which
types are interfaces, and which types implement which. The packages are what it has recorded: the
identifiers that define an object and those that use one. Every loop over a map has its own order
(`Gortex.Semantic.GoTypes.Orders`).
-/

namespace Gortex

namespace Semantic

open Graph

namespace GoTypes

/-! ### What the type checker says -/

/-- The kinds of a `types.Object` that the pass tells apart. -/
inductive ObjKind
  | func
  | typeName
  | var
  | const
  | other
deriving DecidableEq, Repr

/-- **The type checker**, and what the pass asks of its objects. -/
structure Checker (Obj : Type) where
  kind : Obj → ObjKind
  /-- Whether the underlying type of a type name is an interface. -/
  isInterface : Obj → Bool
  /-- `types.Implements`, of the type of the first object and the interface of the second. -/
  implements : Obj → Obj → Bool
  /-- The same for the pointer to the type of the first object. -/
  pointerImplements : Obj → Obj → Bool
  /-- The path of the package of an object, if it has one. -/
  pkgPath : Obj → Option String
  name : Obj → String
  /-- `types.TypeString`. -/
  typeString : Obj → String
  /-- The `types.TypeString` of the results of a function that has any. -/
  returnType : Obj → Option String

/-- A `token.Position`. -/
structure Position where
  filename : String
  line : ℤ
deriving DecidableEq

/-- An `ast.Ident`, with its position if it has one. -/
structure Ident where
  name : String
  pos : Option Position
deriving DecidableEq

/-- A `types.Info`: the identifiers of the maps, each with its object, which can be `nil`. -/
structure Info (Obj : Type) where
  defs : List (Ident × Option Obj)
  uses : List (Ident × Option Obj)

/-- A `packages.Package`, with what is recorded of it if anything is. -/
structure Package (Obj : Type) where
  typesInfo : Option (Info Obj)

/-- The loops of the pass over a map, those over the maps of a package with its number. -/
inductive Loop
  | defs (pkg : ℕ)
  | uses (pkg : ℕ)
  | interfaces
  | implementers
  | metadata (pkg : ℕ)

/-- **The orders of a run**: of the maps it goes over, of the nodes of a file, and of the maps of
the graph. -/
structure Orders where
  loops : GoMap.RangeOrder Loop
  nodes : GoMap.RangeOrder String
  graph : MapOrder

/-- `GetFileNodes`, in the order of a run. -/
def Orders.fileNodes (ord : Orders) (g : Graph) (filePath : String) : List NodeRef :=
  ord.nodes.order filePath (g.getFileNodes filePath)

/-- `relativePath`. The separator of paths is the slash. -/
def relativePath (absPath repoRoot : String) : String :=
  if GoString.hasPrefix absPath repoRoot then
    match GoPath.rel repoRoot absPath with
    | .ok rel => rel
    | .error _ => ""
  else ""

/-- The name of the provider. -/
def providerName : String := "go-types"

/-- `inferEdgeKindFromObj`. -/
def inferEdgeKindFromObj (kind : ObjKind) : Option EdgeKind :=
  match kind with
  | .func => some .edgeCalls
  | .typeName => some .edgeReferences
  | .var => some .edgeReferences
  | .const => some .edgeReferences
  | .other => none

section Pass

variable {Obj : Type} [DecidableEq Obj] (chk : Checker Obj) (ord : Orders) (absRoot : String)

/-- `objectID`. -/
def objectID (obj : Obj) : String :=
  match chk.pkgPath obj with
  | some path => path ++ "." ++ chk.name obj
  | none => chk.name obj

/-! ### Phase 1: the definitions -/

/-- The place of an identifier in the repository, if it has one. -/
def place (ident : Ident) : Option (String × ℤ) :=
  match ident.pos with
  | none => none
  | some pos =>
    if relativePath pos.filename absRoot = "" then none
    else some (relativePath pos.filename absRoot, pos.line)

/-- The node of an identifier that defines an object: by its line, or else by its name. -/
def matchIdent (g : Graph) (ident : Ident) : Option NodeRef :=
  match place absRoot ident with
  | none => none
  | some (relPath, line) =>
    match matchNodeByFileLine g (ord.fileNodes g relPath) line with
    | some r => some r
    | none => matchNodeByNameInFile g (ord.fileNodes g relPath) ident.name

/-- What phase 1 has mapped: the two maps, and how many definitions. -/
structure Mapped (Obj : Type) where
  symMap : SymbolMap String := {}
  objToNode : GoMap Obj String := ∅
  symbolsCovered : ℕ := 0

/-- A turn of phase 1. -/
def defStep (g : Graph) (s : Mapped Obj) (d : Ident × Option Obj) : Mapped Obj :=
  match d.2 with
  | none => s
  | some obj =>
    match matchIdent ord absRoot g d.1 with
    | none => s
    | some r =>
      { symMap := s.symMap.add (objectID chk obj) (g.idOf r)
        objToNode := s.objToNode.insert obj (g.idOf r)
        symbolsCovered := s.symbolsCovered + 1 }

/-- The entries of the maps of all packages, in the order of the loops. -/
def entries (pkgs : List (Package Obj)) (loop : ℕ → Loop)
    (field : Info Obj → List (Ident × Option Obj)) : List (Ident × Option Obj) :=
  pkgs.zipIdx.flatMap fun p => match p.1.typesInfo with
    | none => []
    | some info => ord.loops.order (loop p.2) (field info)

/-- **Phase 1.** -/
def mapDefinitions (pkgs : List (Package Obj)) (g : Graph) : Mapped Obj :=
  (entries ord pkgs .defs Info.defs).foldl (defStep chk ord absRoot g) {}

/-- The Go nodes that are counted. -/
def countedNodes (g : Graph) : List NodeRef :=
  (g.allNodes ord.graph).filter fun r =>
    decide ((g.node r).language = "go") && isSymbol (g.node r).kind

/-- The result after the definitions are mapped. -/
def coverage (covered total : ℕ) : EnrichResult where
  provider := providerName
  language := "go"
  symbolsCovered := covered
  symbolsTotal := total
  coveragePercent := if 0 < total then (covered : ℚ) / total * 100 else 0

/-! ### Phase 2: the uses -/

variable (objToNode : GoMap Obj String)

/-- A turn of phase 2. -/
def useStep (s : Graph × EnrichResult) (u : Ident × Option Obj) : Graph × EnrichResult :=
  match u.2, place absRoot u.1 with
  | some obj, some (relPath, line) =>
    match findContainingFunc s.1 (ord.fileNodes s.1 relPath) line with
    | none => s
    | some callerNode =>
      match objToNode.lookup obj with
      | none => s
      | some targetNodeID =>
        if s.1.idOf callerNode = targetNodeID then s
        else confirmOrAdd providerName (s.1.idOf callerNode) targetNodeID
          (inferEdgeKindFromObj (chk.kind obj)) relPath line s
  | _, _ => s

/-! ### Phase 3: the implementations -/

/-- `ifaceTypes`: the nodes of the mapped interfaces. -/
def ifaceTypes : GoMap String Obj :=
  (ord.loops.order .interfaces objToNode.pairs).foldl (fun m p =>
    if chk.kind p.1 = .typeName ∧ chk.isInterface p.1 = true then m.insert p.2 p.1 else m) ∅

/-- A turn of the loop of `enrichImplements` over the edges. -/
def confirmStep (ifaces : GoMap String Obj) (s : Graph × EnrichResult) (r : EdgeRef) :
    Graph × EnrichResult :=
  let e := s.1.edge r
  if e.kind ≠ .edgeImplements then s
  else match s.1.getNode e.fromID with
    | none => s
    | some fromNode =>
      if (s.1.node fromNode).language ≠ "go" then s
      else if 1 ≤ e.confidence then s
      else if (ifaces.lookup e.toID).isSome then
        (confirmEdge s.1 r providerName, { s.2 with edgesConfirmed := s.2.edgesConfirmed + 1 })
      else s

/-- **`enrichImplements`**, with its count added to the result. -/
def enrichImplements (s : Graph × EnrichResult) : Graph × EnrichResult :=
  (s.1.allEdges ord.graph).foldl (confirmStep (ifaceTypes chk ord objToNode)) s

/-- Whether the type checker says that a type or the pointer to it implements an interface. -/
def Checker.accepts (c i : Obj) : Bool := chk.implements c i || chk.pointerImplements c i

/-- The mapped types: the interfaces, or the concrete ones. -/
def mappedTypes (interfaces : Bool) : List (Obj × String) :=
  (ord.loops.order .implementers objToNode.pairs).filter fun p =>
    decide (chk.kind p.1 = .typeName) && (chk.isInterface p.1 == interfaces)

/-- The pairs of nodes for which an implementation is looked for. -/
def acceptedPairs : List (String × String) :=
  (mappedTypes chk ord objToNode false).flatMap fun c =>
    ((mappedTypes chk ord objToNode true).filter fun i =>
      decide (c.2 ≠ i.2) && chk.accepts c.1 i.1).map fun i => (c.2, i.2)

/-- **`addMissingImplements`**, with its count added to the result. -/
def addMissingImplements (s : Graph × EnrichResult) : Graph × EnrichResult :=
  (acceptedPairs chk ord objToNode).foldl (fun s p => addMissing providerName p.1 p.2 s) s

/-! ### Phase 4: the metadata -/

/-- The type that a function returns. -/
def putReturnType (s : Graph × EnrichResult) (node : NodeRef) (obj : Obj) :
    Graph × EnrichResult :=
  match chk.kind obj, chk.returnType obj with
  | .func, some retType =>
    (enrichNodeMeta s.1 node "return_type" (.str retType) providerName, s.2)
  | _, _ => s

/-- A turn of phase 4. -/
def metaStep (s : Graph × EnrichResult) (d : Ident × Option Obj) : Graph × EnrichResult :=
  match d.2 with
  | none => s
  | some obj =>
    match (objToNode.lookup obj).bind s.1.getNode with
    | none => s
    | some node =>
      let typeStr := chk.typeString obj
      let s := if typeStr ≠ "" ∧ typeStr ≠ "invalid type" then
          (enrichNodeMeta s.1 node "semantic_type" (.str typeStr) providerName,
            { s.2 with nodesEnriched := s.2.nodesEnriched + 1 })
        else s
      putReturnType chk s node obj

end Pass

/-- **`Enrich`**, from the loaded packages on. -/
def enrich {Obj : Type} [DecidableEq Obj] (chk : Checker Obj) (ord : Orders) (absRoot : String)
    (pkgs : List (Package Obj)) (g : Graph) : Graph × EnrichResult :=
  let mapped := mapDefinitions chk ord absRoot pkgs g
  let s := (g, coverage mapped.symbolsCovered (countedNodes ord g).length)
  let s := (entries ord pkgs .uses Info.uses).foldl
    (useStep chk ord absRoot mapped.objToNode) s
  let s := enrichImplements chk ord mapped.objToNode s
  let s := addMissingImplements chk ord mapped.objToNode s
  (entries ord pkgs .metadata Info.defs).foldl (metaStep chk mapped.objToNode) s

end GoTypes

end Semantic

end Gortex
