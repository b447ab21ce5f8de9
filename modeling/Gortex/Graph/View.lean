import Gortex.Graph.Invariant

/-!
# What a graph stores

Seen from outside, a graph is a partial map from IDs to nodes, `Gortex.Graph.nodeAt`,
and a set of edges, `Gortex.Graph.HasEdge`, an edge being its identity. Here is what
each operation does to the two; the addresses, the shards and the order of the
slices are gone from these statements, and what is said of the program above the
store is said with them.
-/

namespace Gortex

namespace Graph

variable {g g' : Graph}

/-! ### The two readings -/

/-- The node stored under an ID. -/
def nodeAt (g : Graph) (id : String) : Option Node := (g.getNode id).map g.node

/-- The edges stored at a source, as values. -/
def edgesAt (g : Graph) (id : String) : List Edge := (g.getOutEdges id).map g.edge

/-- The edge is stored, with these very values. -/
def StoredEdge (g : Graph) (e : Edge) : Prop := ∃ r, g.StoredOut r ∧ g.edge r = e

/-- An edge of the identity `k` is stored. -/
def HasEdge (g : Graph) (k : EdgeKey) : Prop := ∃ e, g.StoredEdge e ∧ keyOf e = k

/-- The node of the ID is defined in the file. -/
def InFile (g : Graph) (filePath id : String) : Prop :=
  ∃ n, g.nodeAt id = some n ∧ n.filePath = filePath

/-- The node of the ID belongs to the repository. -/
def InRepo (g : Graph) (repoPrefix id : String) : Prop :=
  ∃ n, g.nodeAt id = some n ∧ n.repoPrefix = repoPrefix

theorem nodeAt_eq_some {id : String} {n : Node} :
    g.nodeAt id = some n ↔ ∃ r, g.getNode id = some r ∧ g.node r = n := by
  unfold nodeAt
  rw [Option.map_eq_some_iff]

theorem NodeInv.id_eq (h : NodeInv g) {id : String} {n : Node} (hn : g.nodeAt id = some n) :
    n.id = id := by
  obtain ⟨r, hr, rfl⟩ := nodeAt_eq_some.mp hn
  exact (h.home hr).1

theorem StoredNode.nodeAt {r : NodeRef} (hr : g.StoredNode r) :
    g.nodeAt (g.idOf r) = some (g.node r) :=
  nodeAt_eq_some.mpr ⟨r, hr, rfl⟩

theorem StoredOut.storedEdge {r : EdgeRef} (hr : g.StoredOut r) : g.StoredEdge (g.edge r) :=
  ⟨r, hr, rfl⟩

theorem StoredEdge.hasEdge {e : Edge} (he : g.StoredEdge e) : g.HasEdge (keyOf e) := ⟨e, he, rfl⟩

/-- There is one edge of an identity. -/
theorem Inv.edge_ext (h : Inv g) {e e' : Edge} (he : g.StoredEdge e) (he' : g.StoredEdge e')
    (hk : keyOf e = keyOf e') : e = e' := by
  obtain ⟨r, hr, rfl⟩ := he
  obtain ⟨r', hr', rfl⟩ := he'
  rw [h.edges.eq_of_key hr hr' hk]

/-- The edges stored at a source are those that leave it. -/
theorem Inv.mem_edgesAt (h : Inv g) {id : String} {e : Edge} :
    e ∈ g.edgesAt id ↔ g.StoredEdge e ∧ e.fromID = id := by
  unfold edgesAt
  rw [List.mem_map]
  constructor
  · rintro ⟨r, hr, rfl⟩
    obtain ⟨hf, hst⟩ := h.edges.mem_getOutEdges.mp hr
    exact ⟨hst.storedEdge, hf⟩
  · rintro ⟨⟨r, hst, rfl⟩, hf⟩
    exact ⟨r, h.edges.mem_getOutEdges.mpr ⟨hf, hst⟩, rfl⟩

/-- The nodes of a file are those with its path. -/
theorem NodeInv.mem_map_getFileNodes (h : NodeInv g) {filePath id : String} :
    id ∈ (g.getFileNodes filePath).map g.idOf ↔ g.InFile filePath id := by
  rw [List.mem_map]
  constructor
  · rintro ⟨r, hr, rfl⟩
    obtain ⟨hst, hf⟩ := h.mem_getFileNodes.mp hr
    exact ⟨g.node r, hst.nodeAt, hf⟩
  · rintro ⟨n, hn, hf⟩
    obtain ⟨r, hr, rfl⟩ := nodeAt_eq_some.mp hn
    exact ⟨r, h.mem_getFileNodes.mpr ⟨h.storedNode hr, hf⟩, (h.home hr).1⟩

theorem NodeInv.mem_map_getRepoNodes (h : NodeInv g) {repoPrefix id : String} :
    id ∈ (g.getRepoNodes repoPrefix).map g.idOf ↔ repoPrefix ≠ "" ∧ g.InRepo repoPrefix id := by
  rw [List.mem_map]
  constructor
  · rintro ⟨r, hr, rfl⟩
    obtain ⟨hst, hp, hne⟩ := h.mem_getRepoNodes.mp hr
    exact ⟨hne, g.node r, hst.nodeAt, hp⟩
  · rintro ⟨hne, n, hn, hp⟩
    obtain ⟨r, hr, rfl⟩ := nodeAt_eq_some.mp hn
    exact ⟨r, h.mem_getRepoNodes.mpr ⟨h.storedNode hr, hp, hne⟩, (h.home hr).1⟩

/-! ### AddNode and AddEdge -/

theorem NodeTablesOnly.storedEdge (h : NodeTablesOnly g g') (e : Edge) :
    g'.StoredEdge e ↔ g.StoredEdge e := by
  refine exists_congr fun r => ?_
  rw [h.storedOut, h.edge]

theorem EdgeTablesOnly.nodeAt (h : EdgeTablesOnly g g') (id : String) :
    g'.nodeAt id = g.nodeAt id := by
  unfold Graph.nodeAt
  rw [h.getNode, h.node]

/-- **AddNode** replaces the node of the ID. -/
theorem NodeInv.nodeAt_putNode (h : NodeInv g) (n : Node) (id : String) :
    (g.putNode n).nodeAt id = if id = n.id then some n else g.nodeAt id := by
  have hself := node_newNode_self g n
  have hnode : (g.putNode n).node = (g.newNode n).2.node := rfl
  have hget := getNode_addNode (g.newNode n).2 (g.newNode n).1 id
  rw [idOf, hself, getNode_newNode] at hget
  unfold nodeAt
  rw [hnode, Graph.putNode, hget]
  by_cases hid : id = n.id
  · rw [if_pos hid, if_pos hid, Option.map_some, hself]
  · rw [if_neg hid, if_neg hid]
    cases hr : g.getNode id with
    | none => rfl
    | some r =>
      rw [Option.map_some, Option.map_some, node_newNode_of_lt g n (h.home hr).2]

theorem storedEdge_putNode (g : Graph) (n : Node) (e : Edge) :
    (g.putNode n).StoredEdge e ↔ g.StoredEdge e :=
  (NodeTablesOnly.addNode _ _).storedEdge e

theorem nodeAt_putEdge (g : Graph) (e : Edge) (id : String) :
    (g.putEdge e).nodeAt id = g.nodeAt id :=
  (EdgeTablesOnly.addEdge _ _).nodeAt id

theorem storedOut_putNode (g : Graph) (n : Node) (r : EdgeRef) :
    (g.putNode n).StoredOut r ↔ g.StoredOut r := (NodeTablesOnly.addNode _ _).storedOut r

theorem edge_putEdge (g : Graph) (e : Edge) (r : EdgeRef) :
    (g.putEdge e).edge r = if r = ⟨g.nextEdge⟩ then e else g.edge r := rfl

/-- **AddEdge** stores the new pointer, in the place of the one of its identity. -/
theorem EdgeInvOn.storedOut_putEdge {P : EdgeKey → Prop} (h : EdgeInvOn P g) (e : Edge) (r : EdgeRef)
    (hP : r ≠ ⟨g.nextEdge⟩ → P (g.edgeKeyOf r)) :
    (g.putEdge e).StoredOut r ↔
      r = ⟨g.nextEdge⟩ ∨ (g.StoredOut r ∧ keyOf (g.edge r) ≠ keyOf e) := by
  by_cases hr : r = ⟨g.nextEdge⟩
  · refine iff_of_true ?_ (Or.inl hr)
    rw [hr]
    exact (h.newEdge e).storedOut_addEdge_self (g.newEdge e).1
  · have hself : (g.newEdge e).2.edge (g.newEdge e).1 = e := if_pos rfl
    have hold : (g.newEdge e).2.edge r = g.edge r := if_neg hr
    have hP' : P ((g.newEdge e).2.edgeKeyOf r) := by
      rw [edgeKeyOf, hold]
      exact hP hr
    have hadd := (h.newEdge e).storedOut_addEdge (r := (g.newEdge e).1) hP'
    have hst : (g.newEdge e).2.StoredOut r ↔ g.StoredOut r := by
      rw [StoredOut, hold]
      rfl
    rw [edgeKeyOf, edgeKeyOf, hself, hold, hst] at hadd
    exact hadd

/-- **AddEdge** replaces the edge of the identity, as far as an edge of an identity in `P`
can tell. -/
theorem EdgeInvOn.storedEdge_putEdge {P : EdgeKey → Prop} (h : EdgeInvOn P g) (e e' : Edge)
    (hP : P (keyOf e')) :
    (g.putEdge e).StoredEdge e' ↔ e' = e ∨ (g.StoredEdge e' ∧ keyOf e' ≠ keyOf e) := by
  have hold : ∀ r, r ≠ ⟨g.nextEdge⟩ → (g.putEdge e).edge r = g.edge r := fun r hr => by
    rw [edge_putEdge, if_neg hr]
  constructor
  · rintro ⟨r, hr, rfl⟩
    by_cases hnew : r = ⟨g.nextEdge⟩
    · exact Or.inl (if_pos hnew)
    · rw [hold r hnew] at hP ⊢
      rcases (h.storedOut_putEdge e r fun _ => hP).mp hr with hc | ⟨hr, hk⟩
      · exact absurd hc hnew
      · exact Or.inr ⟨hr.storedEdge, hk⟩
  · rintro (rfl | ⟨⟨r, hr, rfl⟩, hk⟩)
    · exact ⟨_, (h.storedOut_putEdge _ _ fun hc => absurd rfl hc).mpr (Or.inl rfl), if_pos rfl⟩
    · have hnew : r ≠ ⟨g.nextEdge⟩ := fun hc => by
        rw [hc] at hr
        exact lt_irrefl _ (h.out_lt hr)
      exact ⟨r, (h.storedOut_putEdge e r fun _ => hP).mpr (Or.inr ⟨hr, hk⟩), hold r hnew⟩

theorem Inv.storedOut_putEdge (h : Inv g) (e : Edge) (r : EdgeRef) :
    (g.putEdge e).StoredOut r ↔
      r = ⟨g.nextEdge⟩ ∨ (g.StoredOut r ∧ keyOf (g.edge r) ≠ keyOf e) :=
  (edgeInv_iff.mp h.edges).storedOut_putEdge e r fun _ => trivial

theorem Inv.storedEdge_putEdge (h : Inv g) (e e' : Edge) :
    (g.putEdge e).StoredEdge e' ↔ e' = e ∨ (g.StoredEdge e' ∧ keyOf e' ≠ keyOf e) :=
  (edgeInv_iff.mp h.edges).storedEdge_putEdge e e' trivial

/-- **AddEdge** adds the identity. -/
theorem Inv.hasEdge_putEdge (h : Inv g) (e : Edge) (k : EdgeKey) :
    (g.putEdge e).HasEdge k ↔ k = keyOf e ∨ g.HasEdge k := by
  constructor
  · rintro ⟨e', he', rfl⟩
    rcases (h.storedEdge_putEdge e e').mp he' with rfl | ⟨he', -⟩
    · exact Or.inl rfl
    · exact Or.inr he'.hasEdge
  · rintro (rfl | ⟨e', he', rfl⟩)
    · exact ⟨e, (h.storedEdge_putEdge e e).mpr (Or.inl rfl), rfl⟩
    · by_cases hk : keyOf e' = keyOf e
      · exact ⟨e, (h.storedEdge_putEdge e e).mpr (Or.inl rfl), hk.symm⟩
      · exact ⟨e', (h.storedEdge_putEdge e e').mpr (Or.inr ⟨he', hk⟩), rfl⟩

/-! ### Eviction -/

/-- What an eviction of the nodes with a property leaves, if the listed ones are
those. -/
theorem nodeAt_of_evicted {ids : List String} {p : Node → Prop} [DecidablePred p]
    (hnode : g'.node = g.node)
    (hget : ∀ id, g'.getNode id = if id ∈ ids then none else g.getNode id)
    (hids : ∀ id n, g.nodeAt id = some n → (id ∈ ids ↔ p n)) (id : String) :
    g'.nodeAt id = (g.nodeAt id).filter fun n => ¬p n := by
  have hat : g'.nodeAt id = if id ∈ ids then none else g.nodeAt id := by
    unfold nodeAt
    rw [hget, hnode]
    split <;> rfl
  rw [hat]
  cases hn : g.nodeAt id with
  | none => split <;> rfl
  | some n =>
    by_cases hp : p n
    · rw [if_pos ((hids id n hn).mpr hp), Option.filter, if_neg (by simp [hp])]
    · rw [if_neg fun hc => hp ((hids id n hn).mp hc), Option.filter, if_pos (by simp [hp])]

/-- **EvictFile** removes the nodes of the file. -/
theorem NodeInv.nodeAt_evictFile (h : NodeInv g) (ord : MapOrder) (filePath id : String) :
    (Graph.evictFile ord g filePath).graph.nodeAt id =
      (g.nodeAt id).filter fun n => ¬n.filePath = filePath := by
  obtain ⟨hnodup, hl⟩ := h.evictFile_nodes filePath
  obtain ⟨-, hnode, hget⟩ := @NodeInv.evictNodes g h ord _ (fun n => (filePath, repoKey n)) hnodup hl
  refine nodeAt_of_evicted hnode hget (fun id n hn => ?_) id
  rw [h.mem_map_getFileNodes]
  exact ⟨fun ⟨m, hm, hf⟩ => by rwa [Option.some.inj (hn.symm.trans hm)], fun hf => ⟨n, hn, hf⟩⟩

/-- **EvictRepo** removes the nodes of the repository; a repository without a prefix has
none. -/
theorem NodeInv.nodeAt_evictRepo_eq (h : NodeInv g) (ord : MapOrder) (repoPrefix id : String) :
    (Graph.evictRepo ord g repoPrefix).graph.nodeAt id =
      (g.nodeAt id).filter fun n => ¬(repoPrefix ≠ "" ∧ n.repoPrefix = repoPrefix) := by
  obtain ⟨hnodup, hl⟩ := h.evictRepo_nodes repoPrefix
  obtain ⟨-, hnode, hget⟩ :=
    @NodeInv.evictNodes g h ord _ (fun n => (n.filePath, some repoPrefix)) hnodup hl
  refine nodeAt_of_evicted hnode hget (fun id n hn => ?_) id
  rw [h.mem_map_getRepoNodes]
  refine and_congr_right fun _ => ⟨?_, fun hf => ⟨n, hn, hf⟩⟩
  rintro ⟨m, hm, hf⟩
  rwa [Option.some.inj (hn.symm.trans hm)]

/-! ### Retargeting -/

theorem nodeAt_retarget (g : Graph) (r : EdgeRef) (e : Edge) (id : String) :
    (g.retarget r e).nodeAt id = g.nodeAt id :=
  (EdgeTablesOnly.retarget g r e).nodeAt id

end Graph

end Gortex
