import Gortex.Lib.Overwrite
import Gortex.Graph.Counts

/-!
# Replayed writes

AddNode and AddEdge are idempotent: a write replaces what is stored under the identity
of its node or edge. So the store is a last-write-wins map from identities to what was
written last (`Gortex.Graph.entry`), whatever bucket the old node was in, and a list of
writes acts on it as `Overwrite.run` does (`Gortex.Graph.Write.entry_of_run`). Everything
the store answers – all nodes, all edges, the lookups of the secondary indexes, the two
adjacency lists of a node and the summary counts – is determined by that map, up to order
(`Gortex.Graph.sameAnswers_of_entry`). A snapshot that is loaded and indexed over
again is the case the write layer is made for.

A write hands the store a pointer. It can be a new one, as when a file is parsed again,
or one the caller has kept, as when the nodes of one graph are added to another twice.
-/

namespace Gortex

namespace Graph

variable {g g' : Graph}

/-! ### Writes -/

/-- A call of AddNode or of AddEdge, with what its pointer points to. -/
inductive Write
  | node (n : Node)
  | edge (e : Edge)

/-- The identity that a write is for. -/
def Write.ident : Write → String ⊕ EdgeKey
  | node n => .inl n.id
  | edge e => .inr (keyOf e)

@[simp] theorem Write.ident_node (n : Node) : Write.ident (.node n) = .inl n.id := rfl

@[simp] theorem Write.ident_edge (e : Edge) : Write.ident (.edge e) = .inr (keyOf e) := rfl

/-- One write, through a new pointer or through one that is kept. -/
inductive Write.Step (g : Graph) : Write → Graph → Prop
  | newNode (n : Node) : Step g (.node n) (g.putNode n)
  | nodeAt (r : NodeRef) : r.addr < g.nextNode → Step g (.node (g.node r)) (g.addNode r)
  | newEdge (e : Edge) : Step g (.edge e) (g.putEdge e)
  | edgeAt (r : EdgeRef) : r.addr < g.nextEdge → Step g (.edge (g.edge r)) (g.addEdge r)

/-- A write through a new pointer. -/
def Write.put (g : Graph) : Write → Graph
  | node n => g.putNode n
  | edge e => g.putEdge e

/-- Every list of writes can be performed. -/
theorem Write.run_put (ws : List Write) (g : Graph) : Run Write.Step g ws (ws.foldl Write.put g) := by
  induction ws generalizing g with
  | nil => exact .nil g
  | cons w ws ih =>
    refine .cons ?_ (ih _)
    cases w with
    | node n => exact .newNode n
    | edge e => exact .newEdge e

/-! ### The store as a map -/

/-- The edge stored under an identity. -/
def edgeAt (g : Graph) (k : EdgeKey) : Option Edge := (g.edgesAt k.fromID).find? fun e => keyOf e = k

/-- **What is stored under an identity**, as the write that stored it. -/
def entry (g : Graph) : String ⊕ EdgeKey → Option Write
  | .inl id => (g.nodeAt id).map .node
  | .inr k => (g.edgeAt k).map .edge

theorem Inv.edgeAt_eq_some (h : Inv g) {k : EdgeKey} {e : Edge} :
    g.edgeAt k = some e ↔ g.StoredEdge e ∧ keyOf e = k := by
  unfold edgeAt
  constructor
  · intro he
    have hk : keyOf e = k := by simpa using List.find?_some he
    exact ⟨(h.mem_edgesAt.mp (List.mem_of_find?_eq_some he)).1, hk⟩
  · rintro ⟨he, rfl⟩
    have hmem : e ∈ g.edgesAt e.fromID := h.mem_edgesAt.mpr ⟨he, rfl⟩
    cases hfind : (g.edgesAt (keyOf e).fromID).find? fun e' => keyOf e' = keyOf e with
    | none => exact absurd (decide_eq_true rfl) (List.find?_eq_none.mp hfind e hmem)
    | some e' =>
      have hk : keyOf e' = keyOf e := by simpa using List.find?_some hfind
      have he' : g.StoredEdge e' := (h.mem_edgesAt.mp (List.mem_of_find?_eq_some hfind)).1
      rw [h.edge_ext he' he hk]

theorem nodeAt_addNode (g : Graph) (r : NodeRef) (id : String) :
    (g.addNode r).nodeAt id = if id = g.idOf r then some (g.node r) else g.nodeAt id := by
  unfold nodeAt
  rw [getNode_addNode]
  by_cases hid : id = g.idOf r
  · rw [if_pos hid, if_pos hid]
    rfl
  · rw [if_neg hid, if_neg hid]
    rfl

theorem Inv.storedEdge_addEdge (h : Inv g) (r : EdgeRef) (e : Edge) :
    (g.addEdge r).StoredEdge e ↔
      e = g.edge r ∨ (g.StoredEdge e ∧ keyOf e ≠ keyOf (g.edge r)) := by
  constructor
  · rintro ⟨r', hr', rfl⟩
    rcases h.edges.storedOut_addEdge.mp hr' with rfl | ⟨hr', hk⟩
    · exact Or.inl rfl
    · exact Or.inr ⟨hr'.storedEdge, hk⟩
  · rintro (rfl | ⟨⟨r', hr', rfl⟩, hk⟩)
    · exact ⟨r, h.edges.storedOut_addEdge.mpr (Or.inl rfl), rfl⟩
    · exact ⟨r', h.edges.storedOut_addEdge.mpr (Or.inr ⟨hr', hk⟩), rfl⟩

/-- A graph that differs by one node from another one. -/
theorem entry_of_node {n : Node} (hn : ∀ id, g'.nodeAt id = if id = n.id then some n else g.nodeAt id)
    (he : ∀ k, g'.edgeAt k = g.edgeAt k) :
    g'.entry = Overwrite.write Write.ident g.entry (.node n) := by
  funext i
  rw [Overwrite.write_apply, Write.ident_node]
  rcases i with id | k
  · by_cases hid : id = n.id
    · rw [if_pos (congrArg Sum.inl hid), entry, hn, if_pos hid, Option.map_some]
    · rw [if_neg fun hc => hid (Sum.inl.inj hc), entry, entry, hn, if_neg hid]
  · rw [if_neg nofun, entry, entry, he]

/-- A graph that differs by one edge from another one. -/
theorem Inv.entry_of_edge (h : Inv g) (h' : Inv g') {e : Edge} (hn : ∀ id, g'.nodeAt id = g.nodeAt id)
    (he : ∀ e', g'.StoredEdge e' ↔ e' = e ∨ (g.StoredEdge e' ∧ keyOf e' ≠ keyOf e)) :
    g'.entry = Overwrite.write Write.ident g.entry (.edge e) := by
  funext i
  rw [Overwrite.write_apply, Write.ident_edge]
  rcases i with id | k
  · rw [if_neg nofun, entry, entry, hn]
  · by_cases hk : k = keyOf e
    · have hat : g'.edgeAt k = some e := h'.edgeAt_eq_some.mpr ⟨(he e).mpr (Or.inl rfl), hk.symm⟩
      rw [if_pos (congrArg Sum.inr hk), entry, hat, Option.map_some]
    · rw [if_neg fun hc => hk (Sum.inr.inj hc), entry, entry]
      congr 1
      refine Option.ext fun e' => ?_
      rw [h'.edgeAt_eq_some, h.edgeAt_eq_some, he]
      constructor
      · rintro ⟨rfl | ⟨hst, -⟩, hke⟩
        · exact absurd hke.symm hk
        · exact ⟨hst, hke⟩
      · rintro ⟨hst, rfl⟩
        exact ⟨Or.inr ⟨hst, hk⟩, rfl⟩

/-- The edges a graph has under their identities, when its edges are those of another. -/
theorem Inv.edgeAt_congr (h : Inv g) (h' : Inv g') (he : ∀ e, g'.StoredEdge e ↔ g.StoredEdge e)
    (k : EdgeKey) : g'.edgeAt k = g.edgeAt k :=
  Option.ext fun e => by rw [h'.edgeAt_eq_some, h.edgeAt_eq_some, he]

/-- **One write replaces one entry.** -/
theorem Write.Step.entry {w : Write} (hs : Write.Step g w g') (h : Inv g) :
    Inv g' ∧ g'.entry = Overwrite.write Write.ident g.entry w := by
  cases hs with
  | newNode n =>
    have h' : Inv (g.putNode n) := h.putNode n
    exact ⟨h', entry_of_node (h.nodes.nodeAt_putNode n) fun k =>
      h.edgeAt_congr h' (storedEdge_putNode g n) k⟩
  | nodeAt r hr =>
    have h' : Inv (g.addNode r) := h.addNode hr
    exact ⟨h', entry_of_node (nodeAt_addNode g r) fun k =>
      h.edgeAt_congr h' (NodeTablesOnly.addNode g r).storedEdge k⟩
  | newEdge e =>
    have h' : Inv (g.putEdge e) := h.putEdge e
    exact ⟨h', h.entry_of_edge h' (nodeAt_putEdge g e) (h.storedEdge_putEdge e)⟩
  | edgeAt r hr =>
    have h' : Inv (g.addEdge r) := h.addEdge hr
    exact ⟨h', h.entry_of_edge h' (EdgeTablesOnly.addEdge g r).nodeAt (h.storedEdge_addEdge r)⟩

/-- **A list of writes acts on the map as last write wins.** -/
theorem Write.entry_of_run {ws : List Write} (hrun : Run Write.Step g ws g') (h : Inv g) :
    Inv g' ∧ g'.entry = Overwrite.run Write.ident g.entry ws := by
  induction hrun with
  | nil => exact ⟨h, rfl⟩
  | cons hs _ ih =>
    obtain ⟨h₁, he₁⟩ := hs.entry h
    obtain ⟨h₂, he₂⟩ := ih h₁
    exact ⟨h₂, by rw [he₂, he₁]; rfl⟩

/-! ### What the store answers -/

/-- **Two graphs answer alike**: every read gives the same nodes and edges, as often, in
some order, and the summary counts are the same. The order in which a read visits a map
is free on both sides. -/
structure SameAnswers (g g' : Graph) : Prop where
  getNode : ∀ id, g.nodeAt id = g'.nodeAt id
  allNodes : ∀ ord ord', ((g.allNodes ord).map g.node).Perm ((g'.allNodes ord').map g'.node)
  allEdges : ∀ ord ord', ((g.allEdges ord).map g.edge).Perm ((g'.allEdges ord').map g'.edge)
  getFileNodes : ∀ filePath,
    ((g.getFileNodes filePath).map g.node).Perm ((g'.getFileNodes filePath).map g'.node)
  findNodesByName : ∀ name,
    ((g.findNodesByName name).map g.node).Perm ((g'.findNodesByName name).map g'.node)
  getRepoNodes : ∀ repoPrefix,
    ((g.getRepoNodes repoPrefix).map g.node).Perm ((g'.getRepoNodes repoPrefix).map g'.node)
  getOutEdges : ∀ id, ((g.getOutEdges id).map g.edge).Perm ((g'.getOutEdges id).map g'.edge)
  getInEdges : ∀ id, ((g.getInEdges id).map g.edge).Perm ((g'.getInEdges id).map g'.edge)
  totalNodes : ∀ ord ord', (g.stats ord).totalNodes = (g'.stats ord').totalNodes
  totalEdges : ∀ ord ord', (g.stats ord).totalEdges = (g'.stats ord').totalEdges
  byKind : ∀ ord ord' k, (g.stats ord).byKind.lookup k = (g'.stats ord').byKind.lookup k
  byLanguage : ∀ ord ord' k,
    (g.stats ord).byLanguage.lookup k = (g'.stats ord').byLanguage.lookup k

theorem StoredNode.of_nodeAt (h : NodeInv g) {n : Node} (hn : g.nodeAt n.id = some n) :
    ∃ r, g.StoredNode r ∧ g.node r = n := by
  obtain ⟨r, hr, hrn⟩ := nodeAt_eq_some.mp hn
  exact ⟨r, h.storedNode hr, hrn⟩

/-- Two lists of stored nodes, one of each graph, that hold the nodes with a property. -/
theorem perm_nodes (h : NodeInv g) (h' : NodeInv g') (hat : ∀ id, g.nodeAt id = g'.nodeAt id)
    {l l' : List NodeRef} {p : Node → Prop} (hl : (l.map g.idOf).Nodup)
    (hl' : (l'.map g'.idOf).Nodup) (hmem : ∀ r, r ∈ l ↔ g.StoredNode r ∧ p (g.node r))
    (hmem' : ∀ r, r ∈ l' ↔ g'.StoredNode r ∧ p (g'.node r)) :
    (l.map g.node).Perm (l'.map g'.node) := by
  -- the values a list of stored nodes holds, read off the map
  have hval : ∀ {g : Graph} {l : List NodeRef}, NodeInv g →
      (∀ r, r ∈ l ↔ g.StoredNode r ∧ p (g.node r)) →
      ∀ n, n ∈ l.map g.node ↔ g.nodeAt n.id = some n ∧ p n := fun {g l} h hmem n => by
    rw [List.mem_map]
    constructor
    · rintro ⟨r, hr, rfl⟩
      exact ⟨((hmem r).mp hr).1.nodeAt, ((hmem r).mp hr).2⟩
    · rintro ⟨hn, hp⟩
      obtain ⟨r, hr, rfl⟩ := StoredNode.of_nodeAt h hn
      exact ⟨r, (hmem r).mpr ⟨hr, hp⟩, rfl⟩
  have hnodup : ∀ {g : Graph} {l : List NodeRef}, (l.map g.idOf).Nodup → (l.map g.node).Nodup :=
    fun {g l} hl => by
      refine List.Nodup.of_map Node.id ?_
      rwa [List.map_map]
  refine (List.perm_ext_iff_of_nodup (hnodup hl) (hnodup hl')).mpr fun n => ?_
  rw [hval h hmem, hval h' hmem', hat]

/-- The same for edges. -/
theorem perm_edges (h : EdgeBase g) (h' : EdgeBase g') (hst : ∀ e, g.StoredEdge e ↔ g'.StoredEdge e)
    {l l' : List EdgeRef} {p : Edge → Prop} (hl : l.Nodup) (hl' : l'.Nodup)
    (hmem : ∀ r, r ∈ l ↔ g.StoredOut r ∧ p (g.edge r))
    (hmem' : ∀ r, r ∈ l' ↔ g'.StoredOut r ∧ p (g'.edge r)) :
    (l.map g.edge).Perm (l'.map g'.edge) := by
  have hval : ∀ {g : Graph} {l : List EdgeRef}, (∀ r, r ∈ l ↔ g.StoredOut r ∧ p (g.edge r)) →
      ∀ e, e ∈ l.map g.edge ↔ g.StoredEdge e ∧ p e := fun {g l} hmem e => by
    rw [List.mem_map]
    constructor
    · rintro ⟨r, hr, rfl⟩
      exact ⟨((hmem r).mp hr).1.storedEdge, ((hmem r).mp hr).2⟩
    · rintro ⟨⟨r, hr, rfl⟩, hp⟩
      exact ⟨r, (hmem r).mpr ⟨hr, hp⟩, rfl⟩
  have hnodup : ∀ {g : Graph} {l : List EdgeRef}, EdgeBase g →
      (∀ r, r ∈ l ↔ g.StoredOut r ∧ p (g.edge r)) → l.Nodup → (l.map g.edge).Nodup :=
    fun {g l} h hmem hl => by
      refine List.Nodup.map_on (fun r hr r' hr' he => ?_) hl
      exact h.eq_of_key ((hmem r).mp hr).1 ((hmem r').mp hr').1 (congrArg keyOf he)
  refine (List.perm_ext_iff_of_nodup (hnodup h hmem hl) (hnodup h' hmem' hl')).mpr fun e => ?_
  rw [hval hmem, hval hmem', hst]

theorem byKind_stats (g : Graph) (ord : MapOrder) : (g.stats ord).byKind =
    (((g.allNodes ord).map g.node).map fun n => n.kind.str).foldl GoMap.bump ∅ := by
  have hfst : ∀ (l : List Node) (s : GoMap String ℕ × GoMap String ℕ),
      (l.foldl (fun s n => (s.1.bump n.kind.str,
        if n.language ≠ "" then s.2.bump n.language else s.2)) s).1 =
      (l.map fun n => n.kind.str).foldl GoMap.bump s.1 := fun l => by
    induction l with
    | nil => exact fun _ => rfl
    | cons n l ih => exact fun s => ih _
  exact hfst _ _

theorem byLanguage_stats (g : Graph) (ord : MapOrder) : (g.stats ord).byLanguage =
    ((((g.allNodes ord).map g.node).map Node.language).filter (· ≠ "")).foldl GoMap.bump ∅ := by
  have hsnd : ∀ (l : List Node) (s : GoMap String ℕ × GoMap String ℕ),
      (l.foldl (fun s n => (s.1.bump n.kind.str,
        if n.language ≠ "" then s.2.bump n.language else s.2)) s).2 =
      ((l.map Node.language).filter (· ≠ "")).foldl GoMap.bump s.2 := fun l => by
    induction l with
    | nil => exact fun _ => rfl
    | cons n l ih =>
      intro s
      rw [List.foldl_cons, ih, List.map_cons]
      by_cases hn : n.language ≠ ""
      · rw [if_pos hn, List.filter_cons_of_pos (by simpa using hn), List.foldl_cons]
      · rw [if_neg hn, List.filter_cons_of_neg (by simpa using hn)]
  exact hsnd _ _

/-- Counting gives the same map whatever the order. -/
theorem lookup_foldl_bump_perm {l l' : List String} (h : l.Perm l') (k : String) :
    (l.foldl GoMap.bump ∅).lookup k = (l'.foldl GoMap.bump ∅).lookup k := by
  rw [GoMap.lookup_foldl_bump, GoMap.lookup_foldl_bump, h.count_eq]
  exact if_congr h.mem_iff rfl rfl

/-- **The map determines the answers.** -/
theorem Inv.sameAnswers_of_entry (h : Inv g) (h' : Inv g') (he : g.entry = g'.entry) :
    SameAnswers g g' := by
  have hat : ∀ id, g.nodeAt id = g'.nodeAt id := fun id => by
    refine Option.map_injective (fun n n' hn => Write.node.inj hn) ?_
    exact congrFun he (.inl id)
  have hedge : ∀ k, g.edgeAt k = g'.edgeAt k := fun k => by
    refine Option.map_injective (fun e e' he => Write.edge.inj he) ?_
    exact congrFun he (.inr k)
  have hst : ∀ e, g.StoredEdge e ↔ g'.StoredEdge e := fun e => by
    have hg := h.edgeAt_eq_some (k := keyOf e) (e := e)
    have hg' := h'.edgeAt_eq_some (k := keyOf e) (e := e)
    rw [hedge] at hg
    have hiff := hg.symm.trans hg'
    rwa [and_iff_left rfl, and_iff_left rfl] at hiff
  have hbase := h.edges.toEdgeBase
  have hbase' := h'.edges.toEdgeBase
  -- the lists of all nodes are permutations of each other, and so are those of all edges
  have hall : ∀ ord ord', ((g.allNodes ord).map g.node).Perm ((g'.allNodes ord').map g'.node) :=
    fun ord ord' => perm_nodes h.nodes h'.nodes hat (p := fun _ => True)
      (h.nodes.nodup_allNodes ord) (h'.nodes.nodup_allNodes ord')
      (fun r => by rw [h.nodes.mem_allNodes, and_true])
      (fun r => by rw [h'.nodes.mem_allNodes, and_true])
  have halle : ∀ ord ord', ((g.allEdges ord).map g.edge).Perm ((g'.allEdges ord').map g'.edge) :=
    fun ord ord' => perm_edges hbase hbase' hst (p := fun _ => True)
      (hbase.nodup_allEdges ord) (hbase'.nodup_allEdges ord')
      (fun r => by rw [hbase.mem_allEdges, and_true])
      (fun r => by rw [hbase'.mem_allEdges, and_true])
  refine ⟨hat, hall, halle, fun f => ?_, fun n => ?_, fun p => ?_, fun id => ?_, fun id => ?_,
    fun ord ord' => ?_, fun ord ord' => ?_, fun ord ord' k => ?_, fun ord ord' k => ?_⟩
  · exact perm_nodes h.nodes h'.nodes hat (p := fun n => n.filePath = f)
      (h.nodes.evictFile_nodes f).1
      (h'.nodes.evictFile_nodes f).1 (fun r => h.nodes.mem_getFileNodes)
      (fun r => h'.nodes.mem_getFileNodes)
  · exact perm_nodes h.nodes h'.nodes hat (p := fun m => m.name = n)
      (h.nodes.nodup_flatMap_slice (b := NodeTables.byName) (fun i => (h.nodes i).name) n)
      (h'.nodes.nodup_flatMap_slice (b := NodeTables.byName) (fun i => (h'.nodes i).name) n)
      (fun r => h.nodes.mem_findNodesByName) (fun r => h'.nodes.mem_findNodesByName)
  · exact perm_nodes h.nodes h'.nodes hat (p := fun n => n.repoPrefix = p ∧ p ≠ "")
      (h.nodes.evictRepo_nodes p).1 (h'.nodes.evictRepo_nodes p).1
      (fun r => h.nodes.mem_getRepoNodes) (fun r => h'.nodes.mem_getRepoNodes)
  · refine perm_edges hbase hbase' hst (p := fun e => e.fromID = id) (hbase.nodup_getOutEdges id)
      (hbase'.nodup_getOutEdges id) (fun r => ?_) fun r => ?_
    · rw [hbase.mem_getOutEdges, and_comm]
    · rw [hbase'.mem_getOutEdges, and_comm]
  · refine perm_edges hbase hbase' hst (p := fun e => e.toID = id) (hbase.nodup_getInEdges id)
      (hbase'.nodup_getInEdges id) (fun r => ?_) fun r => ?_
    · rw [hbase.mem_getInEdges, ← h.edges.both, and_comm]
    · rw [hbase'.mem_getInEdges, ← h'.edges.both, and_comm]
  · have hlen := (hall ord ord').length_eq
    rw [List.length_map, List.length_map, ← nodeCount_eq, ← nodeCount_eq] at hlen
    exact hlen
  · have hlen := (halle ord ord').length_eq
    rw [List.length_map, List.length_map, ← edgeCount_eq, ← edgeCount_eq] at hlen
    exact hlen
  · rw [byKind_stats, byKind_stats]
    exact lookup_foldl_bump_perm ((hall ord ord').map _) k
  · rw [byLanguage_stats, byLanguage_stats]
    exact lookup_foldl_bump_perm (((hall ord ord').map _).filter _) k

/-! ### Replay -/

/-- **Writes can be replayed**: a list of writes performed any number of times, one after
the other, leaves a graph that answers as after one time; and if no two of them are for
one identity, the writes can be performed in any order. -/
theorem Inv.sameAnswers_of_replay (h : Inv g) (ws : List Write) :
    (∀ k g₁ g₂, Run Write.Step g ws g₁ →
      Run Write.Step g (List.replicate (k + 1) ws).flatten g₂ → SameAnswers g₁ g₂) ∧
    ((ws.map Write.ident).Nodup → ∀ ws' g₁ g₂, ws.Perm ws' → Run Write.Step g ws g₁ →
      Run Write.Step g ws' g₂ → SameAnswers g₁ g₂) := by
  constructor
  · intro k g₁ g₂ hrun₁ hrun₂
    obtain ⟨h₁, he₁⟩ := Write.entry_of_run hrun₁ h
    obtain ⟨h₂, he₂⟩ := Write.entry_of_run hrun₂ h
    exact h₁.sameAnswers_of_entry h₂ (by rw [he₁, he₂, Overwrite.run_replicate])
  · intro hnodup ws' g₁ g₂ hperm hrun₁ hrun₂
    obtain ⟨h₁, he₁⟩ := Write.entry_of_run hrun₁ h
    obtain ⟨h₂, he₂⟩ := Write.entry_of_run hrun₂ h
    exact h₁.sameAnswers_of_entry h₂ (by rw [he₁, he₂, Overwrite.run_perm hnodup hperm])

namespace MovedNode

/-- A node that moves to another file, and an edge whose second write has a label. -/
def writes : List Write :=
  [.node { id := "a", kind := .kindFunction, name := "a", filePath := "old.go" },
    .edge { fromID := "a", toID := "b", kind := .edgeCalls },
    .node { id := "a", kind := .kindFunction, name := "a", filePath := "new.go" },
    .edge { fromID := "a", toID := "b", kind := .edgeCalls, confidenceLabel := "EXTRACTED" }]

/-- The node moves back and forth twice more, and stays in the file it was moved to. -/
theorem sameAnswers_writes :
    SameAnswers (writes.foldl Write.put Graph.new)
        ((List.replicate 3 writes).flatten.foldl Write.put Graph.new) ∧
      SameAnswers ((writes.take 2).foldl Write.put Graph.new)
        ((writes.take 2).reverse.foldl Write.put Graph.new) ∧
      ((writes.foldl Write.put Graph.new).getFileNodes "old.go").length = 0 :=
  ⟨(Inv.sameAnswers_of_replay Inv.new writes).1 2 _ _ (Write.run_put _ _) (Write.run_put _ _),
    (Inv.sameAnswers_of_replay Inv.new (writes.take 2)).2 (by decide) _ _ _
      (List.reverse_perm _).symm (Write.run_put _ _) (Write.run_put _ _),
    by decide +kernel⟩

end MovedNode

end Graph

end Gortex
