import Mathlib.Algebra.GroupWithZero.Nat
import Mathlib.Data.List.FinRange
import Gortex.Lib.Bucket
import Gortex.Graph.Types

/-!
# The sharded graph store

The store of `internal/graph/graph.go`: sixteen shards, each with the nodes whose
ID hashes to it, the outgoing edges of those IDs, the incoming edges of those IDs,
and the secondary indexes of its own nodes. Every slice of a shard comes with a
sidecar map from the identity of an entry to its position, and both are a
`Buckets`.

The slices hold pointers, and a pointer is shared: the resolvers write the target
of a stored edge through it, and a query can write a stored node through it. So
the model keeps the memory apart from the tables: a `NodeRef` and an `EdgeRef` are
addresses, `Graph.node` and `Graph.edge` read the memory, and `Graph.newNode` and
`Graph.newEdge` allocate.

The locks are left out: every operation here holds the locks of the shards it
touches from its first read to its last write, so it is one step.
-/

namespace Gortex

/-- A `*Node`. -/
structure NodeRef where
  addr : ℕ
deriving DecidableEq, Repr

/-- A `*Edge`. -/
structure EdgeRef where
  addr : ℕ
deriving DecidableEq, Repr

/-! ### Shards -/

/-- The tables of a shard that hold nodes. -/
structure NodeTables where
  nodes : GoMap String NodeRef
  byFile : Buckets String String NodeRef
  byName : Buckets String String NodeRef
  byQual : GoMap String NodeRef
  byRepo : Buckets String String NodeRef

/-- The tables of a shard that hold edges. -/
structure EdgeTables where
  outEdges : Buckets String EdgeKey EdgeRef
  inEdges : Buckets String EdgeKey EdgeRef

/-- A shard: a fragment of the graph's data. -/
structure Shard extends NodeTables, EdgeTables

/-- A shard without any entry. -/
def newShard : Shard where
  nodes := ∅
  byFile := Buckets.empty
  byName := Buckets.empty
  byQual := ∅
  byRepo := Buckets.empty
  outEdges := Buckets.empty
  inEdges := Buckets.empty

/-- The number of shards. -/
def numShards : ℕ := 16

instance : NeZero numShards := ⟨by decide⟩

/-- The 32-bit FNV-1a hash of a byte string. -/
def fnv32a (bytes : List UInt8) : UInt32 :=
  bytes.foldl (fun h b => (h ^^^ b.toUInt32) * 16777619) 2166136261

/-- The shard that owns an ID. -/
def shardIdx (id : String) : Fin numShards := Fin.ofNat numShards (fnv32a id.toUTF8.toList).toNat

/-! ### The graph and its memory -/

/-- The graph, with the memory its pointers point into. -/
structure Graph where
  shards : Fin numShards → Shard
  /-- The node at an address. -/
  node : NodeRef → Node
  /-- The edge at an address. -/
  edge : EdgeRef → Edge
  /-- The first node address not allocated yet. -/
  nextNode : ℕ
  /-- The first edge address not allocated yet. -/
  nextEdge : ℕ

/-- The order in which a loop over one of the maps of a graph visits the map. -/
abbrev MapOrder := GoMap.RangeOrder Graph

namespace Graph

/-- The empty graph. The memory holds nothing that is allocated. -/
def new : Graph where
  shards := fun _ => newShard
  node := fun _ => { id := "", kind := .kindFile, name := "", filePath := "" }
  edge := fun _ => { fromID := "", toID := "", kind := .edgeCalls }
  nextNode := 0
  nextEdge := 0

/-- The shard that owns the given ID. -/
def shardFor (g : Graph) (id : String) : Shard := g.shards (shardIdx id)

/-- Write one shard. -/
def modifyShard (g : Graph) (i : Fin numShards) (f : Shard → Shard) : Graph :=
  { g with shards := fun j => if j = i then f (g.shards i) else g.shards j }

/-- Write the out-edge table of the shard that owns an ID. -/
def modifyOut (g : Graph) (id : String)
    (f : Buckets String EdgeKey EdgeRef → Buckets String EdgeKey EdgeRef) : Graph :=
  g.modifyShard (shardIdx id) fun s => { s with outEdges := f s.outEdges }

/-- Write the in-edge table of the shard that owns an ID. -/
def modifyIn (g : Graph) (id : String)
    (f : Buckets String EdgeKey EdgeRef → Buckets String EdgeKey EdgeRef) : Graph :=
  g.modifyShard (shardIdx id) fun s => { s with inEdges := f s.inEdges }

/-- Allocate a node. -/
def newNode (g : Graph) (n : Node) : NodeRef × Graph :=
  (⟨g.nextNode⟩,
    { g with
      node := fun r => if r = ⟨g.nextNode⟩ then n else g.node r
      nextNode := g.nextNode + 1 })

/-- Allocate an edge. -/
def newEdge (g : Graph) (e : Edge) : EdgeRef × Graph :=
  (⟨g.nextEdge⟩,
    { g with
      edge := fun r => if r = ⟨g.nextEdge⟩ then e else g.edge r
      nextEdge := g.nextEdge + 1 })

/-- Write a node through its pointer. -/
def setNode (g : Graph) (r : NodeRef) (n : Node) : Graph :=
  { g with node := fun r' => if r' = r then n else g.node r' }

/-- Write an edge through its pointer. -/
def setEdge (g : Graph) (r : EdgeRef) (e : Edge) : Graph :=
  { g with edge := fun r' => if r' = r then e else g.edge r' }

/-- The identity of the node behind a pointer, which the sidecars of the node
slices are keyed by. -/
def idOf (g : Graph) (r : NodeRef) : String := (g.node r).id

/-- The identity of the edge behind a pointer, which the sidecars of the edge
slices are keyed by. -/
def edgeKeyOf (g : Graph) (r : EdgeRef) : EdgeKey := keyOf (g.edge r)

/-! ### Reads -/

/-- The node of an ID, if it is stored. -/
def getNode (g : Graph) (id : String) : Option NodeRef := (g.shardFor id).nodes.lookup id

/-- The node of a qualified name: every shard is asked in turn. -/
def getNodeByQualName (g : Graph) (qualName : String) : Option NodeRef :=
  (List.finRange numShards).findSome? fun i => (g.shards i).byQual.lookup qualName

/-- The nodes of a short name, shard by shard. -/
def findNodesByName (g : Graph) (name : String) : List NodeRef :=
  (List.finRange numShards).flatMap fun i => (g.shards i).byName.slice name

/-- The nodes defined in a file, shard by shard. -/
def getFileNodes (g : Graph) (filePath : String) : List NodeRef :=
  (List.finRange numShards).flatMap fun i => (g.shards i).byFile.slice filePath

/-- The nodes of a repository, shard by shard. -/
def getRepoNodes (g : Graph) (repoPrefix : String) : List NodeRef :=
  (List.finRange numShards).flatMap fun i => (g.shards i).byRepo.slice repoPrefix

/-- The outgoing edges of a node. -/
def getOutEdges (g : Graph) (nodeID : String) : List EdgeRef :=
  (g.shardFor nodeID).outEdges.slice nodeID

/-- The incoming edges of a node. -/
def getInEdges (g : Graph) (nodeID : String) : List EdgeRef :=
  (g.shardFor nodeID).inEdges.slice nodeID

/-- All nodes: a loop over the node map of every shard. -/
def allNodes (ord : MapOrder) (g : Graph) : List NodeRef :=
  (List.finRange numShards).flatMap fun i =>
    (ord.order g (g.shards i).nodes.pairs).map Prod.snd

/-- All edges: a loop over the out-edge map of every shard. -/
def allEdges (ord : MapOrder) (g : Graph) : List EdgeRef :=
  (List.finRange numShards).flatMap fun i =>
    (ord.order g (g.shards i).outEdges.bucket.pairs).flatMap Prod.snd

/-- The number of nodes. -/
def nodeCount (g : Graph) : ℕ :=
  ((List.finRange numShards).map fun i => (g.shards i).nodes.keys.length).sum

/-- The number of edges. -/
def edgeCount (g : Graph) : ℕ :=
  ((List.finRange numShards).map fun i =>
    (((g.shards i).outEdges.bucket.pairs).map fun p => p.2.length).sum).sum

/-- Summary counts of a graph, by kind and language. -/
structure GraphStats where
  totalNodes : ℕ
  totalEdges : ℕ
  byKind : GoMap String ℕ
  byLanguage : GoMap String ℕ

/-- **Stats**: a loop over the nodes counts them by kind, and those with a language by
language. -/
def stats (ord : MapOrder) (g : Graph) : GraphStats :=
  let counts := ((g.allNodes ord).map g.node).foldl (fun (s : GoMap String ℕ × GoMap String ℕ) n =>
    (s.1.bump n.kind.str, if n.language ≠ "" then s.2.bump n.language else s.2)) (∅, ∅)
  { totalNodes := g.nodeCount
    totalEdges := g.edgeCount
    byKind := counts.1
    byLanguage := counts.2 }

/-! ### AddNode -/

/-- Take the node of an ID out of the bucket it had in a secondary index, when
the new bucket is another one. A node without a bucket has key `none`. -/
def leaveBucket (ident : NodeRef → String) (b : Buckets String String NodeRef)
    (prevKey newKey : Option String) (id : String) : Buckets String String NodeRef :=
  match prevKey with
  | some k => if newKey = some k then b else b.remove ident k id
  | none => b

/-- Move a node between two buckets of a secondary index: out of the one of the
previous node of its ID, and into its own. -/
def reindexNode (ident : NodeRef → String) (b : Buckets String String NodeRef)
    (prevKey newKey : Option String) (id : String) (r : NodeRef) :
    Buckets String String NodeRef :=
  match newKey with
  | some k => (leaveBucket ident b prevKey newKey id).add k id r
  | none => leaveBucket ident b prevKey newKey id

/-- The bucket of a node in `byRepo`: a node without a repository has none. -/
def repoKey (n : Node) : Option String := if n.repoPrefix ≠ "" then some n.repoPrefix else none

/-- `byQual` after a node of a stored ID is replaced: the entry of the previous
qualified name goes, unless another node has taken the slot since. -/
def releaseQual (g : Graph) (byQual : GoMap String NodeRef) (qualName id : String) :
    GoMap String NodeRef :=
  match byQual.lookup qualName with
  | some cur => if g.idOf cur = id then byQual.erase qualName else byQual
  | none => byQual

/-- `byQual` after the node `n` behind `r` has taken the place of `prev`. -/
def requalNode (g : Graph) (byQual : GoMap String NodeRef) (prev : Option Node) (n : Node)
    (r : NodeRef) : GoMap String NodeRef :=
  let byQual := match prev with
    | some p =>
      if p.qualName ≠ n.qualName ∧ p.qualName ≠ "" then g.releaseQual byQual p.qualName n.id
      else byQual
    | none => byQual
  if n.qualName ≠ "" then byQual.insert n.qualName r else byQual

/-- The node tables of its shard after the node behind `r` is inserted. -/
def addToTables (g : Graph) (r : NodeRef) (t : NodeTables) : NodeTables :=
  let n := g.node r
  let prev := (t.nodes.lookup n.id).map g.node
  { nodes := t.nodes.insert n.id r
    byFile := reindexNode g.idOf t.byFile (prev.map Node.filePath) (some n.filePath) n.id r
    byName := reindexNode g.idOf t.byName (prev.map Node.name) (some n.name) n.id r
    byQual := g.requalNode t.byQual prev n r
    byRepo := reindexNode g.idOf t.byRepo (prev.bind repoKey) (repoKey n) n.id r }

/-- **AddNode** inserts or updates the node behind `r` in the graph and all
secondary indexes. -/
def addNode (g : Graph) (r : NodeRef) : Graph :=
  g.modifyShard (shardIdx (g.idOf r)) fun s =>
    { s with toNodeTables := g.addToTables r s.toNodeTables }

/-- Allocate a node and add it. -/
def putNode (g : Graph) (n : Node) : Graph := (g.newNode n).2.addNode (g.newNode n).1

/-! ### AddEdge, ReindexEdge and RemoveEdge -/

/-- **AddEdge** inserts or updates the edge behind `r`. -/
def addEdge (g : Graph) (r : EdgeRef) : Graph :=
  let e := g.edge r
  let g := g.modifyOut e.fromID fun out => out.add e.fromID (keyOf e) r
  g.modifyIn e.toID fun inn => inn.add e.toID (keyOf e) r

/-- Allocate an edge and add it. -/
def putEdge (g : Graph) (e : Edge) : Graph := (g.newEdge e).2.addEdge (g.newEdge e).1

/-- Remove the edge of a key from the out-edges of a node. -/
def removeOut (g : Graph) (nodeID : String) (k : EdgeKey) : Graph :=
  g.modifyOut nodeID fun out => out.remove g.edgeKeyOf nodeID k

/-- Remove the edge of a key from the in-edges of a node. -/
def removeIn (g : Graph) (nodeID : String) (k : EdgeKey) : Graph :=
  g.modifyIn nodeID fun inn => inn.remove g.edgeKeyOf nodeID k

/-- **ReindexEdge** updates the indexes after the target of the edge behind `r`
has been written; `oldTo` is the target before. -/
def reindexEdge (g : Graph) (r : EdgeRef) (oldTo : String) : Graph :=
  let e := g.edge r
  if oldTo = e.toID then g
  else
    let oldKey := { keyOf e with toID := oldTo }
    let newKey := keyOf e
    let g := g.modifyOut e.fromID fun out => out.rekey e.fromID oldKey newKey
    let g := g.removeIn oldTo oldKey
    g.modifyIn e.toID fun inn => inn.add e.toID newKey r

/-- **RemoveEdge** removes the first edge of the given source, target and kind. -/
def removeEdge (g : Graph) (fromID toID : String) (kind : EdgeKind) : Graph × Bool :=
  match (g.getOutEdges fromID).find? fun r => (g.edge r).toID = toID ∧ (g.edge r).kind = kind with
  | none => (g, false)
  | some target => ((g.removeOut fromID (g.edgeKeyOf target)).removeIn toID (g.edgeKeyOf target), true)

/-! ### Eviction -/

/-- The node tables of its shard after the node behind `r` is deleted. The two
callers know the bucket of `byFile` and of `byRepo` it is in from different
places. -/
def evictFromTables (g : Graph) (r : NodeRef) (file : String) (repo : Option String)
    (t : NodeTables) : NodeTables :=
  let n := g.node r
  { nodes := t.nodes.erase n.id
    byQual := if n.qualName ≠ "" then g.releaseQual t.byQual n.qualName n.id else t.byQual
    byName := t.byName.remove g.idOf n.name n.id
    byFile := t.byFile.remove g.idOf file n.id
    byRepo := match repo with
      | some p => t.byRepo.remove g.idOf p n.id
      | none => t.byRepo }

/-- Delete the node behind `r` from its shard. -/
def evictNode (g : Graph) (r : NodeRef) (file : String) (repo : Option String) : Graph :=
  g.modifyShard (shardIdx (g.idOf r)) fun s =>
    { s with toNodeTables := g.evictFromTables r file repo s.toNodeTables }

/-- Phase 1 for one evicted node: its out-edges leave the in-edges of their
targets, unless the target is evicted too, and then its own bucket. -/
def evictOutEdges (evictedIDs : List String) (g : Graph) (id : String) : Graph :=
  let g := (g.getOutEdges id).foldl (fun g r =>
    if (g.edge r).toID ∈ evictedIDs then g
    else g.removeIn (g.edge r).toID (g.edgeKeyOf r)) g
  g.modifyOut id fun out => out.drop id

/-- Phase 2 for one evicted node: its in-edges leave the out-edges of their
sources, unless the source is evicted too, and then its own bucket. -/
def evictInEdges (evictedIDs : List String) (g : Graph) (id : String) : Graph :=
  let g := (g.getInEdges id).foldl (fun g r =>
    if (g.edge r).fromID ∈ evictedIDs then g
    else g.removeOut (g.edge r).fromID (g.edgeKeyOf r)) g
  g.modifyIn id fun inn => inn.drop id

/-- The edge-removal core of `evictFile` and `evictRepo`, with the number of
edges removed: the out-edges of the evicted nodes, and the in-edges that come
from nodes that are not. -/
def evictEdgesLocked (ord : MapOrder) (g : Graph) (evictedIDs : List String) : Graph × ℕ :=
  let phase1 := (ord.order g evictedIDs).foldl (fun (s : Graph × ℕ) id =>
    (s.1.evictOutEdges evictedIDs id, s.2 + (s.1.getOutEdges id).length)) (g, 0)
  (ord.order phase1.1 evictedIDs).foldl (fun (s : Graph × ℕ) id =>
    (s.1.evictInEdges evictedIDs id, s.2 + ((s.1.getInEdges id).filter fun r =>
      (s.1.edge r).fromID ∉ evictedIDs).length)) phase1

/-- What an eviction returns: the graph, and how many nodes and edges it lost. -/
structure Evicted where
  graph : Graph
  nodesRemoved : ℕ
  edgesRemoved : ℕ

/-- Evict the listed nodes, each out of the `byFile` and `byRepo` buckets that
`bucketsOf` names, and then the edges of their IDs. -/
def evictNodes (ord : MapOrder) (g : Graph) (nodes : List NodeRef)
    (bucketsOf : Node → String × Option String) : Evicted :=
  if nodes.isEmpty then ⟨g, 0, 0⟩
  else
    let evictedIDs := (nodes.map g.idOf).dedup
    let g' := nodes.foldl (fun g' r =>
      g'.evictNode r (bucketsOf (g'.node r)).1 (bucketsOf (g'.node r)).2) g
    let s := evictEdgesLocked ord g' evictedIDs
    ⟨s.1, nodes.length, s.2⟩

/-- **EvictFile** removes all nodes and edges belonging to the given file path. -/
def evictFile (ord : MapOrder) (g : Graph) (filePath : String) : Evicted :=
  g.evictNodes ord (g.getFileNodes filePath) fun n => (filePath, repoKey n)

/-- **EvictRepo** removes all nodes of the given repository prefix and all edges
at those nodes. -/
def evictRepo (ord : MapOrder) (g : Graph) (repoPrefix : String) : Evicted :=
  g.evictNodes ord (g.getRepoNodes repoPrefix) fun n => (n.filePath, some repoPrefix)

end Graph

end Gortex
