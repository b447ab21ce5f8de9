import Mathlib.Data.Rat.Init
import Gortex.Lib.GoMap

/-!
# Nodes and edges

The records the knowledge graph stores (`internal/graph/node.go` and
`internal/graph/edge.go`), and `EdgeKey`, the logical identity of an edge: two
edges of one key are one edge, and dedup to one entry in the adjacency lists.

The fields `From` and `To` of an edge are `fromID` and `toID` here, and the field
`Meta` of both records is `metadata`, the source's own names being reserved words.
-/

namespace Gortex

/-- The kinds of a node. -/
inductive NodeKind
  | kindFile
  | kindPackage
  | kindFunction
  | kindMethod
  | kindType
  | kindInterface
  | kindVariable
  | kindImport
  | kindContract
deriving DecidableEq, Repr

/-- The kinds of an edge. -/
inductive EdgeKind
  | edgeImports
  | edgeDefines
  | edgeCalls
  | edgeInstantiates
  | edgeImplements
  | edgeExtends
  | edgeReferences
  | edgeMemberOf
  | edgeProvides
  | edgeConsumes
  | edgeMatches
deriving DecidableEq, Repr

/-- A value of a `map[string]any`, with the shapes the readers tell apart: a
`string`, a `[]string`, a `[]any` (its strings, and `none` for an element that is
none), an `[]int` and anything else. -/
inductive MetaValue
  | str (s : String)
  | strs (l : List String)
  | anys (l : List (Option String))
  | ints (l : List ℤ)
  | bool (b : Bool)
  | int (i : ℤ)
deriving DecidableEq, Repr

/-- A `map[string]any`. A `nil` map and an empty one read alike, and are both `∅`. -/
abbrev Metadata := GoMap String MetaValue

/-- The value under a key when it is a `string`, and the empty string otherwise:
`v, _ := m[key].(string)`. -/
def Metadata.getStr (m : Metadata) (key : String) : String :=
  match m.lookup key with
  | some (.str s) => s
  | _ => ""

/-- A node of the graph. -/
structure Node where
  id : String
  kind : NodeKind
  name : String
  qualName : String := ""
  filePath : String
  startLine : ℤ := 0
  endLine : ℤ := 0
  language : String := ""
  metadata : Metadata := ∅
  repoPrefix : String := ""
deriving DecidableEq

/-- A directed edge of the graph. The score `Confidence`, a float in the source,
is only ever assigned a literal and compared with one. -/
structure Edge where
  fromID : String
  toID : String
  kind : EdgeKind
  filePath : String := ""
  line : ℤ := 0
  confidence : ℚ := 0
  confidenceLabel : String := ""
  origin : String := ""
  crossRepo : Bool := false
  metadata : Metadata := ∅
deriving DecidableEq

/-- **The logical identity of an edge.** -/
structure EdgeKey where
  fromID : String
  toID : String
  kind : EdgeKind
  filePath : String
  line : ℤ
deriving DecidableEq, Repr

/-- The identity of `e`. -/
def keyOf (e : Edge) : EdgeKey := ⟨e.fromID, e.toID, e.kind, e.filePath, e.line⟩

@[simp] theorem keyOf_fromID (e : Edge) : (keyOf e).fromID = e.fromID := rfl

@[simp] theorem keyOf_toID (e : Edge) : (keyOf e).toID = e.toID := rfl

/-- The name of a kind of nodes, as the source writes it. -/
def NodeKind.str : NodeKind → String
  | kindFile => "file"
  | kindPackage => "package"
  | kindFunction => "function"
  | kindMethod => "method"
  | kindType => "type"
  | kindInterface => "interface"
  | kindVariable => "variable"
  | kindImport => "import"
  | kindContract => "contract"

/-- The name of a kind of edges, as the source writes it. -/
def EdgeKind.str : EdgeKind → String
  | edgeImports => "imports"
  | edgeDefines => "defines"
  | edgeCalls => "calls"
  | edgeInstantiates => "instantiates"
  | edgeImplements => "implements"
  | edgeExtends => "extends"
  | edgeReferences => "references"
  | edgeMemberOf => "member_of"
  | edgeProvides => "provides"
  | edgeConsumes => "consumes"
  | edgeMatches => "matches"

/-! ### Origin tiers -/

/-- The rank of an origin; an unknown or empty one is below all tiers. -/
def originRank (origin : String) : ℕ :=
  if origin = "lsp_resolved" then 5
  else if origin = "lsp_dispatch" then 4
  else if origin = "ast_resolved" then 3
  else if origin = "ast_inferred" then 2
  else if origin = "text_matched" then 1
  else 0

/-- Whether an origin is at least as confident as `minTier`; the empty tier always
passes. -/
def meetsMinTier (origin minTier : String) : Bool :=
  if minTier = "" then true else originRank minTier ≤ originRank origin

/-- The origin tier of an edge that has none set. -/
def defaultOriginFor (kind : EdgeKind) (confidence : ℚ) (semanticSource : String) : String :=
  if semanticSource ≠ "" then
    if kind = .edgeImplements then "lsp_dispatch" else "lsp_resolved"
  else if kind ∈ [.edgeDefines, .edgeImports, .edgeExtends, .edgeMemberOf, .edgeImplements,
      .edgeProvides, .edgeConsumes, .edgeMatches] then "ast_resolved"
  else if 9 / 10 ≤ confidence then "ast_resolved"
  else if 1 / 2 ≤ confidence then "ast_inferred"
  else "text_matched"

end Gortex
