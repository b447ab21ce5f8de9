import Mathlib.Data.List.Dedup
import Gortex.Lib.Run
import Gortex.Graph.Edges
import Gortex.Graph.Nodes

/-!
# The representation invariant

`Gortex.Graph.RepInv` is what the sidecar comment of the store promises: every
sidecar is the exact position map of its slice, an edge is in the out-edges of its
source iff it is in the in-edges of its target, and the secondary indexes hold
exactly the stored nodes. It follows from `Gortex.Graph.Inv`, the conjunction of
what the node tables and the edge tables satisfy, which is the inductive form.

The operations of a run are `Gortex.Graph.Op`. All of them keep the invariant, with
one exception: ReindexEdge moves an edge onto its new identity without asking
whether another edge has that identity, and if one has, the two edges stay in the
out-edges of their source under one key. So the invariant holds over every run in
which no edge is retargeted onto the identity of another one
(`Gortex.Graph.Op.Free`), and a run of four operations breaks it otherwise.
-/

namespace Gortex

namespace Graph

variable {g g' : Graph}

/-! ### The invariant -/

/-- **The inductive form of the invariant.** -/
structure Inv (g : Graph) : Prop where
  nodes : NodeInv g
  edges : EdgeInv g

/-- **The representation invariant.** -/
structure RepInv (g : Graph) : Prop where
  /-- The sidecar of a bucket of out-edges maps the key of every entry to its position. -/
  outEdgeIdx : ∀ i f, Buckets.SliceExact g.edgeKeyOf ((g.shards i).outEdges.slice f)
    ((g.shards i).outEdges.inner f)
  /-- The sidecar of a bucket of in-edges maps the key of every entry to its position. -/
  inEdgeIdx : ∀ i t, Buckets.SliceExact g.edgeKeyOf ((g.shards i).inEdges.slice t)
    ((g.shards i).inEdges.inner t)
  /-- No two out-edges of a bucket share a key. -/
  outEdges_nodup : ∀ i f, (((g.shards i).outEdges.slice f).map g.edgeKeyOf).Nodup
  /-- No two in-edges of a bucket share a key. -/
  inEdges_nodup : ∀ i t, (((g.shards i).inEdges.slice t).map g.edgeKeyOf).Nodup
  /-- A key is among the out-edges of its source iff it is among the in-edges of its target. -/
  both : ∀ k : EdgeKey, k ∈ (g.getOutEdges k.fromID).map g.edgeKeyOf ↔
    k ∈ (g.getInEdges k.toID).map g.edgeKeyOf
  /-- A node is stored under its ID. -/
  nodes : ∀ i id r, (g.shards i).nodes.lookup id = some r → g.idOf r = id
  byFile : ∀ i, Indexes g.node (g.shards i).nodes (g.shards i).byFile fun n => some n.filePath
  byName : ∀ i, Indexes g.node (g.shards i).nodes (g.shards i).byName fun n => some n.name
  byRepo : ∀ i, Indexes g.node (g.shards i).nodes (g.shards i).byRepo repoKey

theorem EdgeBase.mem_map_getOutEdges (h : EdgeBase g) {k : EdgeKey} :
    k ∈ (g.getOutEdges k.fromID).map g.edgeKeyOf ↔ ∃ r, g.StoredOut r ∧ g.edgeKeyOf r = k := by
  rw [List.mem_map]
  refine exists_congr fun r => and_congr_left fun hk => ?_
  rw [h.mem_getOutEdges]
  exact and_iff_right (congrArg EdgeKey.fromID hk)

theorem EdgeBase.mem_map_getInEdges (h : EdgeBase g) {k : EdgeKey} :
    k ∈ (g.getInEdges k.toID).map g.edgeKeyOf ↔ ∃ r, g.StoredIn r ∧ g.edgeKeyOf r = k := by
  rw [List.mem_map]
  refine exists_congr fun r => and_congr_left fun hk => ?_
  rw [h.mem_getInEdges]
  exact and_iff_right (congrArg EdgeKey.toID hk)

/-- **The inductive form implies the invariant.** -/
theorem Inv.repInv (h : Inv g) : RepInv g where
  outEdgeIdx := fun i f => h.edges.out.exact i f
  inEdgeIdx := fun i t => h.edges.inn.exact i t
  outEdges_nodup := fun i f => (h.edges.out.exact i f).nodup_map
  inEdges_nodup := fun i t => (h.edges.inn.exact i t).nodup_map
  both := fun k => by
    rw [h.edges.mem_map_getOutEdges, h.edges.mem_map_getInEdges]
    simp only [h.edges.both]
  nodes := fun i id r hl => ((h.nodes i).home hl).1
  byFile := fun i => (h.nodes i).file
  byName := fun i => (h.nodes i).name
  byRepo := fun i => (h.nodes i).repo

theorem Inv.new : Inv Graph.new := ⟨NodeInv.new, EdgeInv.new⟩

/-! ### Each operation -/

/-- A write of node tables leaves the edge tables alone. -/
theorem edgeTables_modifyNodes {i : Fin numShards} {f : Shard → Shard}
    (hf : (f (g.shards i)).toEdgeTables = (g.shards i).toEdgeTables) (j : Fin numShards) :
    ((g.modifyShard i f).shards j).toEdgeTables = (g.shards j).toEdgeTables := by
  rw [shards_modifyShard]
  by_cases hj : j = i
  · rw [if_pos hj, hf, hj]
  · rw [if_neg hj]

/-- **Only the node tables differ**: the memory and the edge tables of the two
graphs are the same. -/
structure NodeTablesOnly (g g' : Graph) : Prop where
  node : g'.node = g.node
  edge : g'.edge = g.edge
  nextNode : g'.nextNode = g.nextNode
  nextEdge : g'.nextEdge = g.nextEdge
  tables : ∀ i, (g'.shards i).toEdgeTables = (g.shards i).toEdgeTables

theorem NodeTablesOnly.addNode (g : Graph) (r : NodeRef) : NodeTablesOnly g (g.addNode r) :=
  ⟨rfl, rfl, rfl, rfl, fun j => edgeTables_modifyNodes (by rfl) j⟩

theorem NodeTablesOnly.foldl_evictNode (bucketsOf : Node → String × Option String)
    (l : List NodeRef) (g : Graph) :
    NodeTablesOnly g (l.foldl (fun g' r =>
      g'.evictNode r (bucketsOf (g'.node r)).1 (bucketsOf (g'.node r)).2) g) := by
  induction l generalizing g with
  | nil => exact ⟨rfl, rfl, rfl, rfl, fun _ => rfl⟩
  | cons r l ih =>
    obtain ⟨h1, h2, h3, h4, h5⟩ :=
      ih (g.evictNode r (bucketsOf (g.node r)).1 (bucketsOf (g.node r)).2)
    refine ⟨h1, h2, h3, h4, fun j => (h5 j).trans ?_⟩
    exact edgeTables_modifyNodes (by rfl) j

theorem NodeTablesOnly.outTables (h : NodeTablesOnly g g') : g'.outTables = g.outTables :=
  funext fun i => congrArg EdgeTables.outEdges (h.tables i)

theorem NodeTablesOnly.inTables (h : NodeTablesOnly g g') : g'.inTables = g.inTables :=
  funext fun i => congrArg EdgeTables.inEdges (h.tables i)

theorem NodeTablesOnly.storedOut (h : NodeTablesOnly g g') (r : EdgeRef) :
    g'.StoredOut r ↔ g.StoredOut r := by
  rw [StoredOut, StoredOut, h.edge, getOutEdges_eq, h.outTables]
  rfl

theorem NodeTablesOnly.edgeInvOn {P : EdgeKey → Prop} (h : NodeTablesOnly g g')
    (hg : EdgeInvOn P g) : EdgeInvOn P g' :=
  hg.of_tables h.edge h.nextEdge h.outTables h.inTables

theorem NodeTablesOnly.edgeInv (h : NodeTablesOnly g g') (hg : EdgeInv g) : EdgeInv g' :=
  hg.of_tables h.edge h.nextEdge h.outTables h.inTables

theorem EdgeTablesOnly.nodeInv (h : EdgeTablesOnly g g') (hg : NodeInv g) : NodeInv g' :=
  hg.of_tables h.node h.nextNode h.tables

theorem EdgeTablesOnly.getNode (h : EdgeTablesOnly g g') (id : String) :
    g'.getNode id = g.getNode id := by
  unfold Graph.getNode shardFor
  exact congrArg (fun t : NodeTables => t.nodes.lookup id) (h.tables _)

theorem Inv.newNode (h : Inv g) (n : Node) : Inv (g.newNode n).2 :=
  ⟨h.nodes.newNode n, h.edges.of_tables rfl rfl rfl rfl⟩

theorem Inv.newEdge (h : Inv g) (e : Edge) : Inv (g.newEdge e).2 :=
  ⟨h.nodes.of_tables rfl rfl fun _ => rfl, h.edges.newEdge e⟩

theorem Inv.addNode (h : Inv g) {r : NodeRef} (hr : r.addr < g.nextNode) : Inv (g.addNode r) :=
  ⟨h.nodes.addNode hr, (NodeTablesOnly.addNode g r).edgeInv h.edges⟩

theorem Inv.putNode (h : Inv g) (n : Node) : Inv (g.putNode n) :=
  (h.newNode n).addNode (Nat.lt_succ_self _)

theorem EdgeTablesOnly.addEdge (g : Graph) (r : EdgeRef) : EdgeTablesOnly g (g.addEdge r) := by
  have hout : EdgeTablesOnly g (g.addOut r) := EdgeTablesOnly.modifyOut ..
  have hin : EdgeTablesOnly (g.addOut r) ((g.addOut r).addIn r) := EdgeTablesOnly.modifyIn ..
  exact hout.trans hin

theorem Inv.addEdge (h : Inv g) {r : EdgeRef} (hr : r.addr < g.nextEdge) : Inv (g.addEdge r) :=
  ⟨(EdgeTablesOnly.addEdge g r).nodeInv h.nodes, h.edges.addEdge hr⟩

theorem Inv.putEdge (h : Inv g) (e : Edge) : Inv (g.putEdge e) :=
  (h.newEdge e).addEdge (Nat.lt_succ_self _)

theorem Inv.removeEdge (h : Inv g) (fromID toID : String) (kind : EdgeKind) :
    Inv (g.removeEdge fromID toID kind).1 :=
  ⟨(h.edges.removeEdge fromID toID kind).2.nodeInv h.nodes, (h.edges.removeEdge fromID toID kind).1⟩

theorem Inv.retarget (h : Inv g) {r : EdgeRef} {e : Edge} (hr : g.StoredOut r)
    (hs : SameSite (g.edge r) e)
    (hfree : ∀ r', g.StoredOut r' → r' ≠ r → g.edgeKeyOf r' ≠ keyOf e) : Inv (g.retarget r e) :=
  ⟨(EdgeTablesOnly.retarget g r e).nodeInv (h.nodes.of_tables rfl rfl fun _ => rfl),
    (h.edges.retarget hr hs hfree).1⟩

/-- **Retargeting an edge onto the identity of another one breaks the
invariant**: the out-edges of the source hold both under one key. -/
theorem Inv.not_repInv_retarget (h : Inv g) {r r' : EdgeRef} {e : Edge} (hr : g.StoredOut r)
    (hs : SameSite (g.edge r) e) (hr' : g.StoredOut r') (hne : r' ≠ r)
    (hk : g.edgeKeyOf r' = keyOf e) : ¬RepInv (g.retarget r e) := by
  have hto : (g.edge r).toID ≠ e.toID := fun hc => by
    have he : keyOf e = g.edgeKeyOf r := by
      rw [edgeKeyOf, hs.keyOf_eq, hc]
      rfl
    exact hne (h.edges.eq_of_key hr' hr (hk.trans he))
  have hslice : ∀ f, (g.retarget r e).getOutEdges f = g.getOutEdges f := fun f => by
    rw [retarget_eq_unlink hs hto, addIn, getOutEdges_eq, outTables_modifyIn, ← getOutEdges_eq,
      getOutEdges_unlink]
  have hself : (g.retarget r e).edgeKeyOf r = keyOf e := by
    rw [edgeKeyOf, (EdgeTablesOnly.retarget g r e).edge, setEdge_edge_self]
  have hother : (g.retarget r e).edgeKeyOf r' = keyOf e := by
    rw [edgeKeyOf, (EdgeTablesOnly.retarget g r e).edge, setEdge_edge_of_ne g e hne]
    exact hk
  have hmem' : r' ∈ g.getOutEdges (g.edge r).fromID :=
    h.edges.mem_getOutEdges.mpr ⟨(congrArg EdgeKey.fromID hk).trans hs.fromID, hr'⟩
  intro hrep
  have hnodup := hrep.outEdges_nodup (shardIdx (g.edge r).fromID) (g.edge r).fromID
  change (((g.retarget r e).getOutEdges _).map _).Nodup at hnodup
  rw [hslice] at hnodup
  exact hne (List.inj_on_of_nodup_map hnodup hmem' hr (hother.trans hself.symm))

/-- **What an eviction does**: the nodes of the IDs are gone, and the edges at
them, and nothing else. -/
structure EvictSpec (ids : List String) (g g' : Graph) : Prop where
  inv : Inv g'
  node : g'.node = g.node
  edge : g'.edge = g.edge
  getNode : ∀ id, g'.getNode id = if id ∈ ids then none else g.getNode id
  stored : ∀ r, g'.StoredOut r ↔
    g.StoredOut r ∧ (g.edge r).fromID ∉ ids ∧ (g.edge r).toID ∉ ids

/-- The nodes listed are out of the node tables; this part of an eviction does not
depend on the edge tables. -/
theorem NodeInv.evictNodes (h : NodeInv g) (ord : MapOrder) {nodes : List NodeRef}
    {bucketsOf : Node → String × Option String} (hnodup : (nodes.map g.idOf).Nodup)
    (hl : ∀ r ∈ nodes, g.StoredNode r ∧ bucketsOf (g.node r) =
      ((g.node r).filePath, repoKey (g.node r))) :
    NodeInv (g.evictNodes ord nodes bucketsOf).graph ∧
      (g.evictNodes ord nodes bucketsOf).graph.node = g.node ∧
      ∀ id, (g.evictNodes ord nodes bucketsOf).graph.getNode id =
        if id ∈ nodes.map g.idOf then none else g.getNode id := by
  unfold Graph.evictNodes
  by_cases hnil : nodes.isEmpty
  · rw [if_pos hnil, List.isEmpty_iff.mp hnil]
    exact ⟨h, rfl, fun id => by simp⟩
  · rw [if_neg hnil]
    obtain ⟨h1, h2⟩ := h.foldl_evictNode nodes hnodup hl
    have honly := NodeTablesOnly.foldl_evictNode bucketsOf nodes g
    have hev := EdgeTablesOnly.evictEdgesLocked (nodes.map g.idOf).dedup ord
      (nodes.foldl (fun g' r =>
        g'.evictNode r (bucketsOf (g'.node r)).1 (bucketsOf (g'.node r)).2) g)
    exact ⟨hev.nodeInv h1, hev.node.trans honly.node, fun id => (hev.getNode id).trans (h2 id)⟩

/-- What an eviction of the listed nodes does to the edges of identities in `P`. -/
theorem EdgeInvOn.evictNodes {P : EdgeKey → Prop} (h : EdgeInvOn P g) (ord : MapOrder)
    (nodes : List NodeRef) (bucketsOf : Node → String × Option String) :
    EdgeInvOn P (g.evictNodes ord nodes bucketsOf).graph ∧
      (g.evictNodes ord nodes bucketsOf).graph.edge = g.edge ∧
      ∀ r, P (g.edgeKeyOf r) → ((g.evictNodes ord nodes bucketsOf).graph.StoredOut r ↔
        g.StoredOut r ∧ (g.edge r).fromID ∉ nodes.map g.idOf ∧
          (g.edge r).toID ∉ nodes.map g.idOf) := by
  unfold Graph.evictNodes
  by_cases hnil : nodes.isEmpty
  · rw [if_pos hnil, List.isEmpty_iff.mp hnil]
    exact ⟨h, rfl, fun r _ => by simp⟩
  · rw [if_neg hnil]
    have honly := NodeTablesOnly.foldl_evictNode bucketsOf nodes g
    have hkey : g.edgeKeyOf = (nodes.foldl (fun g' r =>
        g'.evictNode r (bucketsOf (g'.node r)).1 (bucketsOf (g'.node r)).2) g).edgeKeyOf := by
      unfold edgeKeyOf
      rw [honly.edge]
    simp only
    generalize nodes.foldl (fun g' r =>
      g'.evictNode r (bucketsOf (g'.node r)).1 (bucketsOf (g'.node r)).2) g = g₁ at *
    have hev := EdgeTablesOnly.evictEdgesLocked (nodes.map g.idOf).dedup ord g₁
    obtain ⟨h3, h4⟩ := (honly.edgeInvOn h).evictEdgesLocked (nodes.map g.idOf).dedup ord
    refine ⟨h3, hev.edge.trans honly.edge, fun r hP => ?_⟩
    rw [h4 r (hkey ▸ hP), honly.storedOut, honly.edge, List.mem_dedup, List.mem_dedup]

theorem Inv.evictNodes (h : Inv g) (ord : MapOrder) {nodes : List NodeRef}
    {bucketsOf : Node → String × Option String} (hnodup : (nodes.map g.idOf).Nodup)
    (hl : ∀ r ∈ nodes, g.StoredNode r ∧ bucketsOf (g.node r) =
      ((g.node r).filePath, repoKey (g.node r))) :
    EvictSpec (nodes.map g.idOf) g (g.evictNodes ord nodes bucketsOf).graph := by
  obtain ⟨hn, hnode, hget⟩ := h.nodes.evictNodes ord hnodup hl
  obtain ⟨hinv, hedge, hout⟩ := (edgeInv_iff.mp h.edges).evictNodes ord nodes bucketsOf
  exact ⟨⟨hn, edgeInv_iff.mpr hinv⟩, hnode, hedge, hget, fun r => hout r trivial⟩

theorem NodeInv.evictFile_nodes (h : NodeInv g) (filePath : String) :
    ((g.getFileNodes filePath).map g.idOf).Nodup ∧ ∀ r ∈ g.getFileNodes filePath,
      g.StoredNode r ∧ (filePath, repoKey (g.node r)) =
        ((g.node r).filePath, repoKey (g.node r)) := by
  refine ⟨h.nodup_flatMap_slice (b := NodeTables.byFile) (fun i => (h i).file) filePath,
    fun r hr => ?_⟩
  obtain ⟨hst, hf⟩ := h.mem_getFileNodes.mp hr
  exact ⟨hst, by rw [hf]⟩

theorem NodeInv.evictRepo_nodes (h : NodeInv g) (repoPrefix : String) :
    ((g.getRepoNodes repoPrefix).map g.idOf).Nodup ∧ ∀ r ∈ g.getRepoNodes repoPrefix,
      g.StoredNode r ∧ ((g.node r).filePath, some repoPrefix) =
        ((g.node r).filePath, repoKey (g.node r)) := by
  refine ⟨h.nodup_flatMap_slice (b := NodeTables.byRepo) (fun i => (h i).repo) repoPrefix,
    fun r hr => ?_⟩
  obtain ⟨hst, hp, hne⟩ := h.mem_getRepoNodes.mp hr
  refine ⟨hst, ?_⟩
  rw [repoKey, hp, if_pos hne]

theorem Inv.evictFile (h : Inv g) (ord : MapOrder) (filePath : String) :
    EvictSpec ((g.getFileNodes filePath).map g.idOf) g (evictFile ord g filePath).graph :=
  h.evictNodes ord (h.nodes.evictFile_nodes filePath).1 (h.nodes.evictFile_nodes filePath).2

theorem Inv.evictRepo (h : Inv g) (ord : MapOrder) (repoPrefix : String) :
    EvictSpec ((g.getRepoNodes repoPrefix).map g.idOf) g (evictRepo ord g repoPrefix).graph :=
  h.evictNodes ord (h.nodes.evictRepo_nodes repoPrefix).1 (h.nodes.evictRepo_nodes repoPrefix).2

/-! ### Runs of operations -/

/-- The operations that write the graph. A pointer can be new or be one the caller
has kept, and the two evictions come with the order in which their loops visit
the evicted IDs. -/
inductive Op
  | addNode (n : Node)
  | addNodeAt (r : NodeRef)
  | addEdge (e : Edge)
  | addEdgeAt (r : EdgeRef)
  | removeEdge (fromID toID : String) (kind : EdgeKind)
  /-- Write `e` behind the pointer of a stored edge, and reindex it. -/
  | reindexEdge (r : EdgeRef) (e : Edge)
  | evictFile (ord : MapOrder) (filePath : String)
  | evictRepo (ord : MapOrder) (repoPrefix : String)

namespace Op

/-- The graph after an operation. -/
def apply (g : Graph) : Op → Graph
  | addNode n => g.putNode n
  | addNodeAt r => g.addNode r
  | addEdge e => g.putEdge e
  | addEdgeAt r => g.addEdge r
  | removeEdge fromID toID kind => (g.removeEdge fromID toID kind).1
  | reindexEdge r e => g.retarget r e
  | evictFile ord filePath => (Graph.evictFile ord g filePath).graph
  | evictRepo ord repoPrefix => (Graph.evictRepo ord g repoPrefix).graph

/-- What the callers guarantee: a pointer they keep is one they have been given,
and an edge they reindex is stored and keeps everything but its target and what
is outside its identity. -/
def Legal (g : Graph) : Op → Prop
  | addNodeAt r => r.addr < g.nextNode
  | addEdgeAt r => r.addr < g.nextEdge
  | reindexEdge r e => g.StoredOut r ∧ SameSite (g.edge r) e
  | _ => True

/-- **No edge is retargeted onto another one**: the identity an edge is given by
ReindexEdge is no other stored edge's. -/
def Free (g : Graph) : Op → Prop
  | reindexEdge r e => ∀ r', g.StoredOut r' → r' ≠ r → g.edgeKeyOf r' ≠ keyOf e
  | _ => True

/-- One step of a run. -/
def Step (g : Graph) (op : Op) (g' : Graph) : Prop := op.Legal g ∧ g' = op.apply g

/-- One step of a run that retargets no edge onto another one. -/
def FreeStep (g : Graph) (op : Op) (g' : Graph) : Prop := Step g op g' ∧ op.Free g

/-- **Every operation keeps the invariant**, ReindexEdge as long as it moves the
edge onto an identity that is free. -/
theorem FreeStep.inv {op : Op} (hg : Inv g) (h : FreeStep g op g') : Inv g' := by
  obtain ⟨⟨hlegal, rfl⟩, hfree⟩ := h
  cases op with
  | addNode n => exact hg.putNode n
  | addNodeAt r => exact hg.addNode hlegal
  | addEdge e => exact hg.putEdge e
  | addEdgeAt r => exact hg.addEdge hlegal
  | removeEdge fromID toID kind => exact hg.removeEdge fromID toID kind
  | reindexEdge r e => exact hg.retarget hlegal.1 hlegal.2 hfree
  | evictFile ord filePath => exact (hg.evictFile ord filePath).inv
  | evictRepo ord repoPrefix => exact (hg.evictRepo ord repoPrefix).inv

theorem Step.free_of_repInv {op : Op} (hg : Inv g) (h : Step g op g') (hrep : RepInv g') :
    op.Free g := by
  obtain ⟨hlegal, rfl⟩ := h
  cases op with
  | reindexEdge r e =>
    intro r' hr' hne hk
    exact hg.not_repInv_retarget hlegal.1 hlegal.2 hr' hne hk hrep
  | _ => trivial

/-- A run from a graph that satisfies the invariant, all of whose states satisfy
it, retargets no edge onto another one. -/
theorem run_freeStep {ops : List Op} (h : Run Step g ops g') (hg : Inv g)
    (hrep : ∀ pre s, pre <+: ops → Run Step g pre s → RepInv s) : Run FreeStep g ops g' := by
  induction h with
  | nil => exact Run.nil _
  | @cons s t u op l h1 _ ih =>
    have hone : RepInv t := hrep [op] t (List.prefix_append [op] l) (Run.cons h1 (Run.nil t))
    have hfree : FreeStep s op t := ⟨h1, h1.free_of_repInv hg hone⟩
    refine Run.cons hfree (ih (hfree.inv hg) fun pre v hp hrun => ?_)
    exact hrep (op :: pre) v (List.cons_prefix_cons.mpr ⟨rfl, hp⟩) (Run.cons h1 hrun)

/-- A call to a name, not resolved yet. -/
def plainCall : Edge :=
  { fromID := "a.go::A", toID := "unresolved::Foo", kind := .edgeCalls, filePath := "a.go",
    line := 3 }

/-- The call is stored and resolved. -/
def resolveOne : List Op :=
  [.addEdge plainCall, .reindexEdge ⟨0⟩ { plainCall with toID := "b.go::Foo" }]

/-- **The representation invariant over runs**: a run from the empty graph
satisfies it in every state it reaches iff it retargets no edge onto the identity
of another stored edge. -/
theorem repInv_run_iff {ops : List Op} (h : Run Step Graph.new ops g) :
    (∀ pre s, pre <+: ops → Run Step Graph.new pre s → RepInv s) ↔
      Run FreeStep Graph.new ops g := by
  constructor
  · exact run_freeStep h Inv.new
  · intro hfree pre s hp hrun
    have hpre : Run FreeStep Graph.new pre s :=
      hfree.of_prefix (fun h1 h2 => h1.2.trans h2.2.symm) And.left hp hrun
    exact (hpre.invariant (fun hi hs => hs.inv hi) Inv.new).repInv

/-- A run of two steps. -/
theorem repInv_run_iff_resolveOne :
    (∀ pre s, pre <+: resolveOne → Run Step Graph.new pre s → RepInv s) ↔
      Run FreeStep Graph.new resolveOne (resolveOne.foldl apply Graph.new) :=
  repInv_run_iff (Run.cons ⟨trivial, rfl⟩ (Run.cons ⟨⟨by decide +kernel, rfl, rfl, rfl, rfl⟩, rfl⟩
    (Run.nil _)))

/-- A method call to the name on the same line, as in `Foo(); x.Foo()`. -/
def methodCall : Edge := { plainCall with toID := "unresolved::*.Foo" }

/-- The two calls are stored, and both are resolved to one function. -/
def resolveBoth : List Op :=
  [.addEdge plainCall, .addEdge methodCall,
    .reindexEdge ⟨0⟩ { plainCall with toID := "b.go::Foo" },
    .reindexEdge ⟨1⟩ { methodCall with toID := "b.go::Foo" }]

theorem run_resolveBoth : Run Step Graph.new resolveBoth (resolveBoth.foldl apply Graph.new) := by
  refine Run.cons ⟨trivial, rfl⟩ (Run.cons ⟨trivial, rfl⟩ (Run.cons ⟨⟨?_, ?_⟩, rfl⟩
    (Run.cons ⟨⟨?_, ?_⟩, rfl⟩ (Run.nil _))))
  · decide +kernel
  · exact ⟨rfl, rfl, rfl, rfl⟩
  · decide +kernel
  · exact ⟨rfl, rfl, rfl, rfl⟩

/-- **Not every run satisfies the invariant.** -/
theorem not_repInv_resolveBoth :
    ¬∀ ops g, Run Step Graph.new ops g → RepInv g := by
  intro h
  have hnodup := (h _ _ run_resolveBoth).outEdges_nodup (shardIdx "a.go::A") "a.go::A"
  revert hnodup
  decide +kernel

end Op

end Graph

end Gortex
