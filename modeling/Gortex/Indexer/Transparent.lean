import Gortex.Indexer.Nodes
import Gortex.Indexer.Prefix

/-!
# A repository under its prefix

The graph that is made of what was extracted from a repository, with its prefix and without
(`Gortex.Indexer.UnderPrefix`): the nodes and edges of the one are those of the other, behind
the same pointers. Both are resolved, and the question is whether that is still so
(`Gortex.Indexer.Transparent`). It is only if the prefix keeps what every edge finds, and then,
as far as an edge reads no other edges (`Gortex.Indexer.transparent_graphOf_iff`).

An import of a package at the root of the repository is the edge for which it is not: its
directory has no other before it, and the index of the last components leaves it out.
-/

namespace Gortex

open GoString Lookup

namespace Graph

variable {g : Graph}

/-! ### Qualified names -/

/-- Every node of a qualified name is found by it. -/
def QualListed (g : Graph) : Prop :=
  ∀ r, g.StoredNode r → (g.node r).qualName ≠ "" →
    (g.shardFor (g.idOf r)).byQual.lookup (g.node r).qualName = some r

theorem byQual_putNode (g : Graph) (n : Node) (id : String) :
    ((g.putNode n).shardFor id).byQual = if shardIdx id = shardIdx n.id then
      (g.newNode n).2.requalNode (g.shardFor n.id).byQual
        (((g.shardFor n.id).nodes.lookup n.id).map (g.newNode n).2.node) n (g.newNode n).1
    else (g.shardFor id).byQual := by
  have hself := node_newNode_self g n
  have hshards : (g.newNode n).2.shards = g.shards := rfl
  unfold Graph.putNode Graph.addNode shardFor
  rw [idOf, hself, shards_modifyShard, hshards]
  split
  · unfold addToTables
    simp only
    rw [hself]
  · rfl

/-- A node that is the only one of its qualified name is found by it when it is added. -/
theorem QualListed.putNode (h : QualListed g) (hg : NodeInv g) {n : Node}
    (hone : ∀ id m, g.nodeAt id = some m → n.qualName ≠ "" → m.qualName = n.qualName →
      id = n.id) : QualListed (g.putNode n) := by
  have hself := node_newNode_self g n
  have hid₀ : (g.newNode n).2.idOf (g.newNode n).1 = n.id := congrArg Node.id hself
  have hnode : (g.putNode n).node = (g.newNode n).2.node := rfl
  intro r hr hqual
  have hget := getNode_addNode (g.newNode n).2 (g.newNode n).1 ((g.putNode n).idOf r)
  rw [hid₀, getNode_newNode] at hget
  have hput := hget.symm.trans hr
  rw [byQual_putNode]
  by_cases hid : (g.putNode n).idOf r = n.id
  · rw [if_pos hid] at hput
    obtain rfl := Option.some.inj hput
    rw [if_pos (congrArg shardIdx hid), hnode, hself]
    rw [hnode, hself] at hqual
    unfold requalNode
    rw [if_pos hqual, GoMap.lookup_insert, if_pos rfl]
  · rw [if_neg hid] at hput
    have hold : (g.newNode n).2.node r = g.node r := node_newNode_of_lt g n (hg.home hput).2
    have hidOf : (g.putNode n).idOf r = g.idOf r := congrArg Node.id hold
    rw [hnode, hold] at hqual
    rw [hidOf] at hput hid ⊢
    rw [hnode, hold]
    have hlisted := h r hput hqual
    by_cases hs : shardIdx (g.idOf r) = shardIdx n.id
    · rw [if_pos hs]
      have hshard : g.shardFor n.id = g.shardFor (g.idOf r) := by
        unfold shardFor
        rw [hs]
      rw [hshard]
      refine lookup_requalNode_of_ne hlisted ?_ fun hn hq => hid ?_
      · rw [show (g.newNode n).2.idOf r = g.idOf r from congrArg Node.id hold]
        exact hid
      · exact hone _ _ (StoredNode.nodeAt hput) hn hq
    · rw [if_neg hs]
      exact hlisted

theorem QualListed.getNodeByQualName_eq_some (h : QualListed g) (hg : NodeInv g)
    (hone : ∀ id id' n m, g.nodeAt id = some n → g.nodeAt id' = some m → n.qualName ≠ "" →
      m.qualName = n.qualName → id' = id) {q : String} {n : Node} :
    (g.getNodeByQualName q).map g.node = some n ↔
      q ≠ "" ∧ g.nodeAt n.id = some n ∧ n.qualName = q := by
  have hfound : ∀ {i r}, (g.shards i).byQual.lookup q = some r →
      g.StoredNode r ∧ (g.node r).qualName = q ∧ q ≠ "" := fun {i r} hl => by
    obtain ⟨hst, hq⟩ := (hg i).qual hl
    obtain ⟨-, hs, -⟩ := (hg i).home hst
    refine ⟨?_, hq⟩
    rw [StoredNode, getNode, shardFor, idOf, hs]
    exact hst
  constructor
  · intro hn
    obtain ⟨r, hr, rfl⟩ := Option.map_eq_some_iff.mp hn
    obtain ⟨i, -, hi⟩ := List.exists_of_findSome?_eq_some hr
    obtain ⟨hst, hq, hne⟩ := hfound hi
    exact ⟨hne, hst.nodeAt, hq⟩
  · rintro ⟨hne, hn, rfl⟩
    obtain ⟨r, hr, rfl⟩ := nodeAt_eq_some.mp hn
    have hlisted := h r hr hne
    have hsome : (g.getNodeByQualName (g.node r).qualName).isSome := by
      refine List.findSome?_isSome_iff.mpr ⟨shardIdx (g.idOf r), List.mem_finRange _, ?_⟩
      rw [show (g.shards (shardIdx (g.idOf r))).byQual.lookup (g.node r).qualName = some r from
        hlisted]
      rfl
    obtain ⟨c, hc⟩ := Option.isSome_iff_exists.mp hsome
    obtain ⟨i, -, hi⟩ := List.exists_of_findSome?_eq_some hc
    obtain ⟨hst, hq, -⟩ := hfound hi
    have heq := hone _ _ _ _ hn hst.nodeAt hne hq
    have hcr : c = r := StoredNode.eq_of_id hst hr heq
    rw [hcr] at hc
    exact Option.map_eq_some_iff.mpr ⟨r, hc, rfl⟩

theorem QualListed.of_sameNodes {g' : Graph} (h : QualListed g) (hs : SameNodes g g') :
    QualListed g' := by
  intro r hr hqual
  have hid : g'.idOf r = g.idOf r := congrArg (fun f => (f r).id) hs.node
  rw [StoredNode, hs.getNode, hid] at hr
  rw [hs.node] at hqual ⊢
  rw [hid]
  exact (congrArg (fun t : NodeTables => t.byQual.lookup (g.node r).qualName)
    (hs.tables (shardIdx (g.idOf r)))).trans (h r hr hqual)

/-! ### Edges that read no other -/

/-- **The edge reads no bound class**: if it is a call of a method with a hint at the type of its
receiver, a stored method of the name is of that type, or no edge binds a class to it. -/
def ReadsNothing (g : Graph) (e : Edge) : Prop :=
  hasPrefix (trimPrefix e.toID unresolvedPrefix) "*." = true → edgeReceiverType e ≠ "" →
    (∃ c, (g.nodeAt c.id = some c ∧ e.Seeks c) ∧ c.kind = .kindMethod ∧
      nodeReceiverType c = edgeReceiverType e) ∨
    ∀ p, g.StoredEdge p → p.boundAs (edgeReceiverType e) = none

variable {e : Edge}

/-- Its passes choose alike with the edges of any state of a pass, and with none. -/
theorem ReadsNothing.alike (h : g.ReadsNothing e) (hg : Weak g) (ord : MapOrder)
    {T : Edge → Edge → Prop} {l : List Edge} (hl : Reworked g.StoredEdge T l) :
    FirstFit.Alike (· ∈ (g.lookup ord (g.fileNodes ord)).candidates e)
      (({ g.lookup ord (g.fileNodes ord) with allEdges := l } : Lookup).passes e)
      ((g.lookup ord (g.fileNodes ord)).withoutEdges.passes e) := by
  refine Lookup.alike_passes rfl fun hm hne => ?_
  rcases h hm hne with ⟨c, hc, hof⟩ | hb
  · exact Or.inl ⟨c, (hg.mem_candidates ord).mpr hc, hof⟩
  · refine Or.inr fun x => ?_
    rw [Lookup.mem_boundImplsFor, Lookup.mem_boundImplsFor]
    refine and_congr_right fun _ => (hl.exists_boundAs fun p hp _ => hb p hp).trans ?_
    refine iff_of_false ?_ fun ⟨_, hp, _⟩ => List.not_mem_nil hp
    rintro ⟨p, hp, hx⟩
    rw [hb p hp] at hx
    cases hx

/-- No two candidates fit one of its passes without the edges, if none do with them. -/
theorem ReadsNothing.unique (h : g.ReadsNothing e) (hg : Weak g) (ord : MapOrder)
    (hu : Indexer.Unique (g.lookup ord (g.fileNodes ord)) e) :
    Indexer.Unique (g.lookup ord (g.fileNodes ord)).withoutEdges e := by
  have halike := h.alike hg ord ((Passing.refl hg).reworked ord)
  have hself : ({ g.lookup ord (g.fileNodes ord) with allEdges := (g.allEdges ord).map g.edge } :
      Lookup) = g.lookup ord (g.fileNodes ord) := rfl
  rw [hself] at halike
  unfold Indexer.Unique at hu ⊢
  rw [Lookup.candidates_withoutEdges]
  exact halike.decided_iff.mp hu

/-- **What becomes of an edge that reads no other** is what is answered without the others. -/
theorem ReadsNothing.edge_resolveAll {r : EdgeRef} (h : g.ReadsNothing (g.edge r)) (hg : Weak g)
    (hp : ∀ {id n}, g.nodeAt id = some n → ¬hasPrefix id unresolvedPrefix = true)
    (ord : MapOrder) (hr : g.StoredOut r) (hun : (g.edge r).IsUnresolved) :
    (g.resolveAll ord).1.edge r =
      ((g.lookup ord (g.fileNodes ord)).withoutEdges.resolveEdge (g.edge r)).1 := by
  obtain ⟨T, l, hl, hfinal⟩ := (SameContent.refl g).exists_resolveEdge hg hp ord hr rfl hun
  rw [hfinal, Lookup.resolveEdge_of_alike (h.alike hg ord hl)]

end Graph

/-! ### What was extracted -/

namespace Indexer

open Graph

variable (idx : Indexer)

/-- **What the extractors make of a repository**: the files are inside it, a placeholder is the
target of an edge only, and no two nodes have one qualified name. -/
structure OfRepository (results : List ExtractionResult) : Prop where
  file : ∀ n ∈ results.flatMap ExtractionResult.nodes, GoPath.IsLocal n.filePath
  repo : ∀ n ∈ results.flatMap ExtractionResult.nodes, n.repoPrefix = ""
  id : ∀ n ∈ results.flatMap ExtractionResult.nodes, isStubID n.id = false
  qual : ∀ n ∈ results.flatMap ExtractionResult.nodes,
    ∀ m ∈ results.flatMap ExtractionResult.nodes,
      n.qualName ≠ "" → m.qualName = n.qualName → m.id = n.id
  edgeFile : ∀ e ∈ results.flatMap ExtractionResult.edges, GoPath.IsLocal e.filePath
  target : ∀ e ∈ results.flatMap ExtractionResult.edges, e.IsUnresolved ∨ isStubID e.toID = false

/-- The graph of what was extracted. -/
def graphOf (results : List ExtractionResult) : Graph := results.foldl addResult Graph.new

/-- **The second graph holds what the first holds, under the prefix**, behind the same
pointers to edges. -/
structure UnderPrefix (results : List ExtractionResult) (g g' : Graph) : Prop where
  inv : Inv g
  inv' : Inv g'
  listed : QualListed g
  listed' : QualListed g'
  node : ∀ {id n}, g.nodeAt id = some n → n ∈ results.flatMap ExtractionResult.nodes
  nodeAt : ∀ id, g'.nodeAt (idx.repoPrefix ++ "/" ++ id) = (g.nodeAt id).map idx.prefixNode
  under : ∀ {id n'}, g'.nodeAt id = some n' →
    ∃ n, g.nodeAt n.id = some n ∧ idx.prefixNode n = n'
  nextEdge : g'.nextEdge = g.nextEdge
  stored : ∀ r, g'.StoredOut r ↔ g.StoredOut r
  edge : ∀ r, g.StoredOut r → g'.edge r = idx.prefixEdge (g.edge r) ∧
    g.edge r ∈ results.flatMap ExtractionResult.edges

section

variable {idx} {results : List ExtractionResult} {g g' : Graph}
  (hp : IsRepoPrefix idx.repoPrefix)

include hp

theorem UnderPrefix.putNode (h : UnderPrefix idx results g g') (hr : OfRepository results)
    {n : Node} (hn : n ∈ results.flatMap ExtractionResult.nodes) :
    UnderPrefix idx results (g.putNode n) (g'.putNode (idx.prefixNode n)) := by
  have hid : ∀ m : Node, (idx.prefixNode m).id = idx.repoPrefix ++ "/" ++ m.id := fun m => by
    rw [hp.prefixNode_eq]
  have hqual : ∀ m : Node, (idx.prefixNode m).qualName = m.qualName := fun m => by
    rw [hp.prefixNode_eq]
  -- a node is put under its ID here, and under the prefixed one there
  have hat := h.inv.nodes.nodeAt_putNode n
  have hat' := h.inv'.nodes.nodeAt_putNode (idx.prefixNode n)
  refine
    { inv := h.inv.putNode n
      inv' := h.inv'.putNode _
      listed := h.listed.putNode h.inv.nodes fun id m hm hne hq => ?_
      listed' := h.listed'.putNode h.inv'.nodes fun id m hm hne hq => ?_
      node := fun {id m} hm => ?_
      nodeAt := fun id => ?_
      under := fun {id n'} hn' => ?_
      nextEdge := h.nextEdge
      stored := fun r => ?_
      edge := fun r hst => ?_ }
  · rw [← h.inv.nodes.id_eq hm]
    exact hr.qual n hn m (h.node hm) hne hq
  · obtain ⟨m, hm', rfl⟩ := h.under hm
    rw [← h.inv'.nodes.id_eq hm, hid, hid]
    rw [hqual] at hne
    rw [hqual, hqual] at hq
    exact congrArg _ (hr.qual n hn m (h.node hm') hne hq)
  · rw [hat] at hm
    split at hm
    · exact Option.some.inj hm ▸ hn
    · exact h.node hm
  · rw [hat', hat, hid, h.nodeAt]
    by_cases hc : id = n.id
    · rw [if_pos hc, if_pos (congrArg _ hc)]
      rfl
    · rw [if_neg hc, if_neg fun he => hc (prefix_inj he)]
  · rw [hat'] at hn'
    split at hn'
    · refine ⟨n, ?_, Option.some.inj hn'⟩
      rw [hat, if_pos rfl]
    · rename_i hne
      obtain ⟨m, hm, rfl⟩ := h.under hn'
      refine ⟨m, ?_, rfl⟩
      rw [hat, if_neg, hm]
      rintro hc
      rw [← h.inv'.nodes.id_eq hn', hid, hid] at hne
      exact hne (congrArg _ hc)
  · rw [storedOut_putNode, storedOut_putNode]
    exact h.stored r
  · rw [storedOut_putNode] at hst
    exact h.edge r hst

/-- The prefix keeps edges of different identities apart. -/
theorem IsRepoPrefix.keyOf_prefixEdge {e e' : Edge} :
    keyOf (idx.prefixEdge e) = keyOf (idx.prefixEdge e') ↔ keyOf e = keyOf e' := by
  have hinj : ∀ a b : String, idx.repoPrefix ++ "/" ++ a = idx.repoPrefix ++ "/" ++ b ↔ a = b :=
    fun a b => ⟨prefix_inj, congrArg _⟩
  have hmixed : ∀ {e e' : Edge}, e.IsUnresolved → ¬e'.IsUnresolved →
      keyOf (idx.prefixEdge e) ≠ keyOf (idx.prefixEdge e') ∧ keyOf e ≠ keyOf e' := by
    intro e e' hun hun'
    rw [hp.prefixEdge_eq hun, hp.prefixEdge_of_not hun']
    refine ⟨fun hk => ?_, fun hk => hun' ?_⟩
    · exact hp.ne_of_stub (isStubID_of_isUnresolved hun) (congrArg EdgeKey.toID hk)
    · unfold Edge.IsUnresolved
      rw [← show e.toID = e'.toID from congrArg EdgeKey.toID hk]
      exact hun
  by_cases hun : e.IsUnresolved
  · by_cases hun' : e'.IsUnresolved
    · rw [hp.prefixEdge_eq hun, hp.prefixEdge_eq hun']
      simp only [keyOf, EdgeKey.mk.injEq, hinj]
    · exact iff_of_false (hmixed hun hun').1 (hmixed hun hun').2
  · by_cases hun' : e'.IsUnresolved
    · exact iff_of_false (hmixed hun' hun).1.symm (hmixed hun' hun).2.symm
    · rw [hp.prefixEdge_of_not hun, hp.prefixEdge_of_not hun']
      simp only [keyOf, EdgeKey.mk.injEq, hinj]

theorem UnderPrefix.putEdge (h : UnderPrefix idx results g g') {e : Edge}
    (he : e ∈ results.flatMap ExtractionResult.edges) :
    UnderPrefix idx results (g.putEdge e) (g'.putEdge (idx.prefixEdge e)) := by
  have hnode : ∀ (s : Graph) (e : Edge), SameNodes s (s.putEdge e) := SameNodes.putEdge
  refine
    { inv := h.inv.putEdge e
      inv' := h.inv'.putEdge _
      listed := h.listed.of_sameNodes (hnode g e)
      listed' := h.listed'.of_sameNodes (hnode g' _)
      node := fun {id n} hn => h.node ((nodeAt_putEdge g e id).symm.trans hn)
      nodeAt := fun id => by rw [nodeAt_putEdge, nodeAt_putEdge, h.nodeAt]
      under := fun {id n'} hn' => ?_
      nextEdge := congrArg (· + 1) h.nextEdge
      stored := fun r => ?_
      edge := fun r hst => ?_ }
  · rw [nodeAt_putEdge] at hn'
    obtain ⟨n, hn, hn'⟩ := h.under hn'
    exact ⟨n, (nodeAt_putEdge g e _).trans hn, hn'⟩
  · rw [h.inv.storedOut_putEdge, h.inv'.storedOut_putEdge, h.nextEdge, h.stored]
    refine or_congr Iff.rfl (and_congr_right fun hst => ?_)
    rw [(h.edge r hst).1]
    exact not_congr hp.keyOf_prefixEdge
  · rw [edge_putEdge, edge_putEdge, h.nextEdge]
    by_cases hr : r = ⟨g.nextEdge⟩
    · rw [if_pos hr, if_pos hr]
      exact ⟨rfl, he⟩
    · rw [if_neg hr, if_neg hr]
      exact h.edge r (((h.inv.storedOut_putEdge e r).mp hst).resolve_left hr).1

/-- **What is extracted is stored alike** with the prefix and without. -/
theorem underPrefix_graphOf (hr : OfRepository results) :
    UnderPrefix idx results (graphOf results) (graphOf (results.map idx.applyRepoPrefix)) := by
  have hnew : UnderPrefix idx results Graph.new Graph.new :=
    { inv := Inv.new
      inv' := Inv.new
      listed := fun r hr => nomatch hr
      listed' := fun r hr => nomatch hr
      node := fun hn => nomatch hn
      nodeAt := fun _ => rfl
      under := fun hn => nomatch hn
      nextEdge := rfl
      stored := fun _ => Iff.rfl
      edge := fun r hr => nomatch hr }
  unfold graphOf
  rw [List.foldl_map]
  refine List.foldl_rel hnew fun res hres g g' h => ?_
  unfold addResult applyRepoPrefix
  rw [List.foldl_map, List.foldl_map]
  refine List.foldl_rel (List.foldl_rel h fun n hn g g' h => ?_) fun e he g g' h => ?_
  · exact h.putNode hp hr (List.mem_flatMap.mpr ⟨res, hres, hn⟩)
  · exact h.putEdge hp (List.mem_flatMap.mpr ⟨res, hres, he⟩)

/-! ### Resolving -/

section

variable (h : UnderPrefix idx results g g') (hr : OfRepository results) (ord ord' : MapOrder)

include h

include hr in
omit hp in
theorem UnderPrefix.inRepository : InRepository (g.lookup ord (g.fileNodes ord)) where
  getNode := fun {id n} hn => by
    have hmem := h.node hn
    exact ⟨hr.file n hmem, hr.repo n hmem, hr.id n hmem⟩
  byName := fun hc => (h.inv.nodes.of_mem_map_findNodesByName hc).1
  byQual := fun hc => by
    obtain ⟨r, hr, rfl⟩ := Option.map_eq_some_iff.mp hc
    exact h.inv.nodes.of_getNodeByQualName hr
  files := fun hc => ((h.inv.weak.mem_fileNodes ord).mp hc).1

/-- The nodes of the second graph are those of the first under the prefix. -/
theorem UnderPrefix.nodeAt_iff {id : String} {n' : Node} : g'.nodeAt id = some n' ↔
    ∃ n, g.nodeAt n.id = some n ∧ idx.repoPrefix ++ "/" ++ n.id = id ∧ idx.prefixNode n = n' := by
  constructor
  · intro hn'
    obtain ⟨n, hn, rfl⟩ := h.under hn'
    refine ⟨n, hn, ?_, rfl⟩
    rw [← h.inv'.nodes.id_eq hn', hp.prefixNode_eq]
  · rintro ⟨n, hn, rfl, rfl⟩
    rw [h.nodeAt, hn]
    rfl

/-- What a property that the prefix keeps selects in the second graph. -/
theorem UnderPrefix.nodeAt_and_iff {P : Node → Prop} (hP : ∀ n, P (idx.prefixNode n) ↔ P n)
    {c' : Node} : g'.nodeAt c'.id = some c' ∧ P c' ↔
      ∃ c, (g.nodeAt c.id = some c ∧ P c) ∧ idx.prefixNode c = c' := by
  constructor
  · rintro ⟨hc', hpc⟩
    obtain ⟨c, hc, -, rfl⟩ := (h.nodeAt_iff hp).mp hc'
    exact ⟨c, ⟨hc, (hP c).mp hpc⟩, rfl⟩
  · rintro ⟨c, ⟨hc, hpc⟩, rfl⟩
    refine ⟨(h.nodeAt_iff hp).mpr ⟨c, hc, ?_, rfl⟩, (hP c).mpr hpc⟩
    rw [hp.prefixNode_eq]

include hr in
/-- **What the resolver reads** of the second graph is what it reads of the first, under the
prefix. -/
theorem UnderPrefix.prefixedLookup : PrefixedLookup idx (g.lookup ord (g.fileNodes ord))
    (g'.lookup ord' (g'.fileNodes ord')) where
  getNode := h.nodeAt
  byName := fun name c' => by
    refine h.inv'.nodes.mem_map_findNodesByName.trans ?_
    rw [h.nodeAt_and_iff hp (P := fun n => n.name = name) fun n => by rw [hp.prefixNode_eq]]
    exact exists_congr fun c => and_congr_left fun _ => h.inv.nodes.mem_map_findNodesByName.symm
  byQual := fun q => by
    have hqual : ∀ n : Node, (idx.prefixNode n).qualName = n.qualName := fun n => by
      rw [hp.prefixNode_eq]
    have hone : ∀ id id' n m, g.nodeAt id = some n → g.nodeAt id' = some m → n.qualName ≠ "" →
        m.qualName = n.qualName → id' = id := fun id id' n m hn hm hne hq => by
      rw [← h.inv.nodes.id_eq hn, ← h.inv.nodes.id_eq hm]
      exact hr.qual n (h.node hn) m (h.node hm) hne hq
    have hone' : ∀ id id' n m, g'.nodeAt id = some n → g'.nodeAt id' = some m → n.qualName ≠ "" →
        m.qualName = n.qualName → id' = id := fun id id' n m hn hm hne hq => by
      obtain ⟨n₀, hn₀, rfl, rfl⟩ := (h.nodeAt_iff hp).mp hn
      obtain ⟨m₀, hm₀, rfl, rfl⟩ := (h.nodeAt_iff hp).mp hm
      rw [hqual] at hne
      rw [hqual, hqual] at hq
      exact congrArg _ (hone _ _ _ _ hn₀ hm₀ hne hq)
    refine Option.ext fun n' => ?_
    refine (h.listed'.getNodeByQualName_eq_some h.inv'.nodes hone').trans ?_
    rw [and_left_comm, h.nodeAt_and_iff hp (P := fun n => q ≠ "" ∧ n.qualName = q) fun n => by
      rw [hqual], Option.map_eq_some_iff]
    refine exists_congr fun n => and_congr_left fun _ => ?_
    rw [and_left_comm]
    exact (h.listed.getNodeByQualName_eq_some h.inv.nodes hone).symm
  files := fun c' => by
    refine (h.inv'.weak.mem_fileNodes ord').trans ?_
    rw [h.nodeAt_and_iff hp (P := fun n => n.kind = .kindFile) fun n => by rw [hp.prefixNode_eq]]
    exact exists_congr fun c => and_congr_left fun _ => (h.inv.weak.mem_fileNodes ord).symm

end

/-! ### The whole repository -/

/-- **The prefix is transparent**: the second graph has the nodes and edges of the first, with
the prefix before the IDs and paths of the repository. -/
structure Transparent (idx : Indexer) (g g' : Graph) : Prop where
  nodes : ∀ id n', g'.nodeAt id = some n' ↔
    ∃ n, g.nodeAt n.id = some n ∧ idx.repoPrefix ++ "/" ++ n.id = id ∧ idx.prefixNode n = n'
  stored : ∀ r, g'.StoredOut r ↔ g.StoredOut r
  edge : ∀ r, g.StoredOut r → g'.edge r = idx.prefixResolved (g.edge r)

/-- **What may become of the edge is the same under the prefix.** -/
def BecomesAlike (idx : Indexer) (g g' : Graph) (e : Edge) : Prop :=
  ∀ y y', g.MayBecome e y → g'.MayBecome (idx.prefixEdge e) y' → y' = idx.prefixResolved y

section Resolved

variable (h : UnderPrefix idx results g g') (hr : OfRepository results) (ord ord' : MapOrder)

include h hr

omit hp in
theorem UnderPrefix.not_hasPrefix {id : String} {n : Node} (hn : g.nodeAt id = some n) :
    ¬hasPrefix id unresolvedPrefix = true := by
  refine not_hasPrefix_of_isStubID ?_
  rw [← h.inv.nodes.id_eq hn]
  exact hr.id n (h.node hn)

omit hr in
theorem UnderPrefix.not_hasPrefix' {id : String} {n : Node} (hn : g'.nodeAt id = some n) :
    ¬hasPrefix id unresolvedPrefix = true := by
  obtain ⟨n, -, rfl, -⟩ := (h.nodeAt_iff hp).mp hn
  exact not_hasPrefix_of_isStubID (isStubID_under hp.notStub _)

omit hr in
/-- An edge that reads no other reads none under the prefix. -/
theorem UnderPrefix.readsNothing {e : Edge} (hun : e.IsUnresolved) (hread : g.ReadsNothing e) :
    g'.ReadsNothing (idx.prefixEdge e) := by
  have htype : edgeReceiverType (idx.prefixEdge e) = edgeReceiverType e := by
    rw [hp.prefixEdge_eq hun]
    rfl
  unfold ReadsNothing
  rw [hp.target hun, htype]
  intro hm hne
  rcases hread hm hne with ⟨c, ⟨hc, hseeks⟩, hkind, hof⟩ | hb
  · refine Or.inl ⟨idx.prefixNode c, ⟨?_, ?_⟩, ?_, ?_⟩
    · refine (h.nodeAt_iff hp).mpr ⟨c, hc, ?_, rfl⟩
      rw [hp.prefixNode_eq]
    · unfold Edge.Seeks at hseeks ⊢
      rw [hp.target hun, hp.prefixNode_eq]
      exact hseeks
    · rw [hp.prefixNode_eq, hkind]
    · rw [hp.prefixNode_eq]
      exact hof
  · refine Or.inr ?_
    rintro - ⟨r, hr', rfl⟩
    have hst := (h.stored r).mp hr'
    refine Edge.SameBinding.boundAs_eq_none ⟨?_, ?_, ?_⟩ (hb _ hst.storedEdge)
    all_goals
      rw [(h.edge r hst).1]
      unfold prefixEdge
      rw [if_neg hp.ne]

/-- **An edge that reads no other** becomes the same under the prefix, if the prefix keeps what it
finds. -/
theorem UnderPrefix.edge_eq {r : EdgeRef} (hst : g.StoredOut r) (hun : (g.edge r).IsUnresolved)
    (hu : Unique (g.lookup ord (g.fileNodes ord)) (g.edge r))
    (hk : idx.Kept (g.lookup ord (g.fileNodes ord)) (g'.lookup ord' (g'.fileNodes ord')) (g.edge r))
    (hread : g.ReadsNothing (g.edge r)) :
    (g'.resolveAll ord').1.edge r = idx.prefixResolved ((g.resolveAll ord).1.edge r) := by
  have hedge := (h.edge r hst).1
  have hun' : (g'.edge r).IsUnresolved := by
    rw [hedge, hp.prefixEdge_eq hun]
    exact hun
  have hread' : g'.ReadsNothing (g'.edge r) := by
    rw [hedge]
    exact h.readsNothing hp hun hread
  rw [hread.edge_resolveAll h.inv.weak (h.not_hasPrefix hr) ord hst hun,
    hread'.edge_resolveAll h.inv'.weak (h.not_hasPrefix' hp) ord' ((h.stored r).mpr hst) hun', hedge]
  refine congrArg Prod.fst (hp.resolveEdge_eq (h.inRepository hr ord).withoutEdges
    (h.prefixedLookup hp hr ord ord').withoutEdges hun (hr.edgeFile _ (h.edge r hst).2)
    (fun x => ?_) (hread.unique h.inv.weak ord hu) (kept_withoutEdges.mpr hk))
  rw [mem_boundImplsFor, mem_boundImplsFor]
  exact Iff.rfl

/-- **The prefix is transparent** if it keeps what every edge finds, and what may become of an
edge that reads bound classes is the same under it. -/
theorem UnderPrefix.transparent
    (hu : ∀ r, g.StoredOut r → (g.edge r).IsUnresolved →
      Unique (g.lookup ord (g.fileNodes ord)) (g.edge r))
    (hk : ∀ r, g.StoredOut r → (g.edge r).IsUnresolved →
      idx.Kept (g.lookup ord (g.fileNodes ord)) (g'.lookup ord' (g'.fileNodes ord')) (g.edge r))
    (hread : ∀ r, g.StoredOut r → (g.edge r).IsUnresolved → g.ReadsNothing (g.edge r) ∨
      idx.BecomesAlike g g' (g.edge r)) :
    Transparent idx (g.resolveAll ord).1 (g'.resolveAll ord').1 := by
  have hpass := passing_resolveAll h.inv.weak (h.not_hasPrefix hr) ord
  have hpass' := passing_resolveAll h.inv'.weak (h.not_hasPrefix' hp) ord'
  refine ⟨fun id n' => ?_, fun r => ?_, fun r hst => ?_⟩
  · rw [hpass'.nodes.nodeAt, h.nodeAt_iff hp]
    exact exists_congr fun n => and_congr_left fun _ => by rw [hpass.nodes.nodeAt]
  · rw [hpass'.stored, hpass.stored, h.stored]
  · replace hst := (hpass.stored r).mp hst
    have hedge := (h.edge r hst).1
    by_cases hun : (g.edge r).IsUnresolved
    · rcases hread r hst hun with hnone | halike
      · exact h.edge_eq hp hr ord ord' hst hun (hu r hst hun) (hk r hst hun) hnone
      · have hun' : (g'.edge r).IsUnresolved := by
          rw [hedge, hp.prefixEdge_eq hun]
          exact hun
        refine halike _ _ (mayBecome_resolveAll h.inv.weak (h.not_hasPrefix hr) ord hst hun) ?_
        rw [← hedge]
        exact mayBecome_resolveAll h.inv'.weak (h.not_hasPrefix' hp) ord' ((h.stored r).mpr hst) hun'
    · have hun' : ¬(g'.edge r).IsUnresolved := by
        rw [hedge, hp.prefixEdge_of_not hun]
        exact not_hasPrefix_of_isStubID (isStubID_under hp.notStub _)
      rw [edge_resolveAll_of_not ord hun, edge_resolveAll_of_not ord' hun', hedge,
        hp.prefixEdge_of_not hun]
      unfold prefixResolved
      rw [if_neg]
      rw [(hr.target _ (h.edge r hst).2).resolve_left hun]
      exact Bool.false_ne_true

/-- **Where the prefix is transparent**, it keeps what every edge finds. -/
theorem UnderPrefix.kept {r : EdgeRef} (hst : g.StoredOut r) (hun : (g.edge r).IsUnresolved)
    (hu : Unique (g.lookup ord (g.fileNodes ord)) (g.edge r))
    (htransparent : Transparent idx (g.resolveAll ord).1 (g'.resolveAll ord').1) :
    idx.Kept (g.lookup ord (g.fileNodes ord)) (g'.lookup ord' (g'.fileNodes ord')) (g.edge r) := by
  have hpass := passing_resolveAll h.inv.weak (h.not_hasPrefix hr) ord
  -- an edge that is compared with directories is no call of a method
  by_cases hm : hasPrefix (trimPrefix (g.edge r).toID unresolvedPrefix) "*." = true
  · have hno : ∀ label : String, ¬label.toList <+: "*.".toList → ¬"*.".toList <+: label.toList →
        ¬hasPrefix (trimPrefix (g.edge r).toID unresolvedPrefix) label = true := by
      intro label h₁ h₂ hl
      rcases List.prefix_or_prefix_of_prefix ( hasPrefix_iff_prefix.mp hl)
        ( hasPrefix_iff_prefix.mp hm) with hc | hc
      · exact h₁ hc
      · exact h₂ hc
    unfold Kept
    simp only [hno "import::" (by decide) (by decide), hno "extern::" (by decide) (by decide),
      Bool.false_eq_true, if_false]
  have hread : g.ReadsNothing (g.edge r) := fun hc => absurd hc hm
  have hedge := (h.edge r hst).1
  have hun' : (g'.edge r).IsUnresolved := by
    rw [hedge, hp.prefixEdge_eq hun]
    exact hun
  have hread' : g'.ReadsNothing (g'.edge r) := by
    rw [hedge]
    exact h.readsNothing hp hun hread
  refine kept_withoutEdges.mp (hp.kept_of_toID_eq (h.inRepository hr ord).withoutEdges
    (h.prefixedLookup hp hr ord ord').withoutEdges hun (hread.unique h.inv.weak ord hu) ?_)
  rw [← hread.edge_resolveAll h.inv.weak (h.not_hasPrefix hr) ord hst hun, ← hedge,
    ← hread'.edge_resolveAll h.inv'.weak (h.not_hasPrefix' hp) ord' ((h.stored r).mpr hst) hun',
    htransparent.edge r ((hpass.stored r).mpr hst)]

end Resolved

/-- **The prefix is transparent to resolution only if it keeps what every edge finds**; and then, if
no edge reads bound classes but such of which the same may become under the prefix. -/
theorem transparent_graphOf_iff (hr : OfRepository results) (ord ord' : MapOrder)
    (hu : ∀ r, (graphOf results).StoredOut r → ((graphOf results).edge r).IsUnresolved →
      Unique ((graphOf results).lookup ord ((graphOf results).fileNodes ord))
        ((graphOf results).edge r)) :
    let g := graphOf results
    let g' := graphOf (results.map idx.applyRepoPrefix)
    let Transparently := Transparent idx (g.resolveAll ord).1 (g'.resolveAll ord').1
    let Keeps := ∀ r, g.StoredOut r → (g.edge r).IsUnresolved →
      idx.Kept (g.lookup ord (g.fileNodes ord)) (g'.lookup ord' (g'.fileNodes ord')) (g.edge r)
    (Transparently → Keeps) ∧
      ((∀ r, g.StoredOut r → (g.edge r).IsUnresolved →
        g.ReadsNothing (g.edge r) ∨ idx.BecomesAlike g g' (g.edge r)) → (Transparently ↔ Keeps)) := by
  have h := underPrefix_graphOf hp hr
  have hkept : Transparent idx ((graphOf results).resolveAll ord).1
      ((graphOf (results.map idx.applyRepoPrefix)).resolveAll ord').1 → _ :=
    fun htransparent r hst hun => h.kept hp hr ord ord' hst hun (hu r hst hun) htransparent
  exact ⟨hkept, fun hread => ⟨hkept, fun hk => h.transparent hp hr ord ord' hu hk hread⟩⟩

end

namespace OneImport

/-! ### One import -/

/-- A repository with the prefix `r`. -/
def repository : Indexer := { registry := {}, repoPrefix := "r" }

theorem isRepoPrefix : IsRepoPrefix repository.repoPrefix :=
  ⟨by decide +kernel, by decide +kernel⟩

/-- A file. -/
def file (path : String) : Node :=
  { id := path, kind := .kindFile, name := path, filePath := path }

/-- An import of a package of the module `m`. -/
def importLog : Edge :=
  { fromID := "main.go", toID := "unresolved::import::m/log", kind := .edgeImports,
    filePath := "main.go" }

/-- What is extracted from the file and the one that imports it. -/
def results (path : String) : List ExtractionResult :=
  [⟨[file path], []⟩, ⟨[file "main.go"], [importLog]⟩]

variable {path : String}

theorem mem_nodes {n : Node} (hn : n ∈ (results path).flatMap ExtractionResult.nodes) :
    n = file path ∨ n = file "main.go" := by
  simpa only [results, List.flatMap_cons, List.flatMap_nil, List.append_nil, List.cons_append,
    List.nil_append, List.mem_cons, List.not_mem_nil, or_false] using hn

theorem mem_edges {e : Edge} (he : e ∈ (results path).flatMap ExtractionResult.edges) :
    e = importLog := by
  simpa only [results, List.flatMap_cons, List.flatMap_nil, List.append_nil, List.nil_append,
    List.mem_cons, List.not_mem_nil, or_false] using he

theorem ofRepository (hpath : GoPath.IsLocal path) (hid : isStubID path = false) :
    OfRepository (results path) where
  file := fun n hn => by
    rcases mem_nodes hn with rfl | rfl
    · exact hpath
    · decide +kernel
  repo := fun n hn => by rcases mem_nodes hn with rfl | rfl <;> rfl
  id := fun n hn => by
    rcases mem_nodes hn with rfl | rfl
    · exact hid
    · decide +kernel
  qual := fun n hn _ _ hne => by rcases mem_nodes hn with rfl | rfl <;> exact absurd rfl hne
  edgeFile := fun e he => by
    rw [mem_edges he]
    decide +kernel
  target := fun e he => by
    rw [mem_edges he]
    exact Or.inl (by decide +kernel)

theorem underPrefix (hpath : GoPath.IsLocal path) (hid : isStubID path = false) :
    UnderPrefix repository (results path) (graphOf (results path))
      (graphOf ((results path).map repository.applyRepoPrefix)) :=
  underPrefix_graphOf isRepoPrefix (ofRepository hpath hid)

/-- What a pass over the one edge has to ask. -/
theorem edge_graphOf (hpath : GoPath.IsLocal path) (hid : isStubID path = false) {r : EdgeRef}
    (hst : (graphOf (results path)).StoredOut r) : (graphOf (results path)).edge r = importLog :=
  mem_edges ((underPrefix hpath hid).edge r hst).2

theorem mem_fileNodes (hpath : GoPath.IsLocal path) (hid : isStubID path = false) (ord : MapOrder)
    {n : Node} (hn : n ∈ (graphOf (results path)).fileNodes ord) :
    n = file path ∨ n = file "main.go" := by
  have h := underPrefix hpath hid
  exact mem_nodes (h.node ((h.inv.weak.mem_fileNodes ord).mp hn).1)

theorem form : trimPrefix importLog.toID unresolvedPrefix = "import::m/log" := by decide

theorem path_form : trimPrefix "import::m/log" "import::" = "m/log" := by decide

/-- The other file is found for no import but one of its own directory. -/
theorem unique (hpath : GoPath.IsLocal path) (hid : isStubID path = false) (ord : MapOrder) :
    Unique ((graphOf (results path)).lookup ord ((graphOf (results path)).fileNodes ord))
      importLog := by
  unfold Unique Lookup.candidates Lookup.passes
  simp only [form, path_form]
  rw [if_pos (by decide), if_pos (by decide)]
  refine FirstFit.decided_of_forall _ fun q hq a b ha hqa hb hqb => ?_
  have hmain : q (file "main.go") = false := by
    simp only [Lookup.importPasses, List.map_cons, List.map_nil, List.mem_cons, List.not_mem_nil,
      or_false] at hq
    have hdir : decide (GoPath.dir (file "main.go").filePath = "m/log") = false := by decide +kernel
    have hlast : decide (lastPathComponent (GoPath.dir (file "main.go").filePath) =
        lastPathComponent "m/log" ∧ lastPathComponent "m/log" ≠ "" ∧
          lastPathComponent "m/log" ≠ GoPath.dir (file "main.go").filePath) = false := by
      decide +kernel
    rcases hq with rfl | rfl | rfl | rfl
    · simp only [hdir, Bool.false_and]
    · simp only [hlast, Bool.false_and]
    · exact hdir
    · exact hlast
  have hfile : ∀ n, n ∈ (graphOf (results path)).fileNodes ord → q n = true → n = file path :=
    fun n hn hq => (mem_fileNodes hpath hid ord hn).resolve_right fun hc => by
      rw [hc, hmain] at hq
      cases hq
  rw [hfile a ha hqa, hfile b hb hqb]

/-- An import reads no bound class. -/
theorem readsNothing (g : Graph) : g.ReadsNothing importLog := fun hm => by
  rw [form] at hm
  exact absurd hm (by decide)

theorem kept (ord ord' : MapOrder) : repository.Kept
    ((graphOf (results "lib/log/x.go")).lookup ord ((graphOf (results "lib/log/x.go")).fileNodes ord))
    ((graphOf ((results "lib/log/x.go").map repository.applyRepoPrefix)).lookup ord'
      ((graphOf ((results "lib/log/x.go").map repository.applyRepoPrefix)).fileNodes ord'))
    importLog := by
  have hpath : GoPath.IsLocal "lib/log/x.go" := by decide +kernel
  have hid : isStubID "lib/log/x.go" = false := by decide +kernel
  have h := underPrefix hpath hid
  have hmem := fun n => @mem_fileNodes "lib/log/x.go" hpath hid ord n
  have hvv := h.prefixedLookup isRepoPrefix (ofRepository hpath hid) ord ord'
  have hlib : file "lib/log/x.go" ∈ (graphOf (results "lib/log/x.go")).fileNodes ord := by
    refine (h.inv.weak.mem_fileNodes ord).mpr ⟨?_, rfl⟩
    change (((Graph.new.putNode (file "lib/log/x.go")).putNode (file "main.go")).putEdge
      importLog).nodeAt "lib/log/x.go" = _
    rw [nodeAt_putEdge, (Weak.new.putNode _).nodes.nodeAt_putNode, if_neg (by decide),
      NodeInv.new.nodeAt_putNode]
    exact if_pos rfl
  -- it is the one file whose directory matches with the prefix
  have hfirst : firstFile ((graphOf ((results "lib/log/x.go").map
      repository.applyRepoPrefix)).lookup ord' ((graphOf ((results "lib/log/x.go").map
        repository.applyRepoPrefix)).fileNodes ord')) "m/log" =
          some (repository.prefixNode (file "lib/log/x.go")) := by
    unfold firstFile
    rw [Option.orElse_eq_orElse, Option.orElse_eq_or, List.find?_eq_none.mpr, Option.none_or]
    · obtain ⟨b, hb⟩ := Option.isSome_iff_exists.mp (List.find?_isSome.mpr
        ⟨_, (hvv.files _).mpr ⟨_, hlib, rfl⟩,
          show inLastDir "m/log" (repository.prefixNode (file "lib/log/x.go")) = true by
            decide +kernel⟩)
      obtain ⟨n, hn, rfl⟩ := (hvv.files b).mp (List.mem_of_find?_eq_some hb)
      rcases hmem n hn with rfl | rfl
      · exact hb
      · exact absurd (List.find?_some hb) (by decide +kernel)
    · intro b hb
      obtain ⟨n, hn, rfl⟩ := (hvv.files b).mp hb
      rcases hmem n hn with rfl | rfl
      · decide +kernel
      · decide +kernel
  unfold Kept
  simp only [form, path_form]
  rw [if_pos (by decide), hfirst]
  intro _ n hn
  rcases hmem n hn with rfl | rfl
  · refine iff_of_true rfl (Or.inr ⟨fun m hm => ?_, by decide +kernel⟩)
    rcases hmem m hm with rfl | rfl
    · decide +kernel
    · decide +kernel
  · refine iff_of_false (fun heq => ?_) ?_
    · exact absurd (congrArg Node.id (Option.some.inj heq)) (by decide +kernel)
    · rintro (hdir | ⟨-, hlast⟩)
      · exact absurd hdir (by decide +kernel)
      · exact absurd hlast (by decide +kernel)

/-- A package below another directory: the import finds it with the prefix and without. -/
theorem transparent_graphOf_lib : Transparent repository
    ((graphOf (results "lib/log/x.go")).resolveAll GoMap.RangeOrder.default).1
    ((graphOf ((results "lib/log/x.go").map repository.applyRepoPrefix)).resolveAll
      GoMap.RangeOrder.default).1 := by
  have hpath : GoPath.IsLocal "lib/log/x.go" := by decide +kernel
  have hid : isStubID "lib/log/x.go" = false := by decide +kernel
  refine ((transparent_graphOf_iff isRepoPrefix (ofRepository hpath hid) _ _ fun r hst _ => ?_).2
    fun r hst _ => Or.inl ?_).mpr fun r hst _ => ?_
  · rw [edge_graphOf hpath hid hst]
    exact unique hpath hid _
  · rw [edge_graphOf hpath hid hst]
    exact readsNothing _
  · rw [edge_graphOf hpath hid hst]
    exact kept _ _

/-- **A package at the root of the repository**: the import finds it with the prefix only. -/
theorem not_transparent_graphOf : ¬∀ (idx : Indexer) (results : List ExtractionResult)
    (ord ord' : MapOrder), IsRepoPrefix idx.repoPrefix → OfRepository results →
      (∀ r, (graphOf results).StoredOut r → ((graphOf results).edge r).IsUnresolved →
        Unique ((graphOf results).lookup ord ((graphOf results).fileNodes ord))
          ((graphOf results).edge r)) →
      Transparent idx ((graphOf results).resolveAll ord).1
        ((graphOf (results.map idx.applyRepoPrefix)).resolveAll ord').1 := by
  intro h
  have hpath : GoPath.IsLocal "log/x.go" := by decide +kernel
  have hid : isStubID "log/x.go" = false := by decide +kernel
  have htransparent := h repository (results "log/x.go") GoMap.RangeOrder.default
    GoMap.RangeOrder.default isRepoPrefix (ofRepository hpath hid) fun r hst _ => by
      rw [edge_graphOf hpath hid hst]
      exact unique hpath hid _
  have hst : (graphOf (results "log/x.go")).StoredOut ⟨0⟩ :=
    (((Inv.new.putNode _).putNode _).storedOut_putEdge importLog ⟨0⟩).mpr (Or.inl rfl)
  have hpass := passing_resolveAll (underPrefix hpath hid).inv.weak
    ((underPrefix hpath hid).not_hasPrefix (ofRepository hpath hid)) GoMap.RangeOrder.default
  have heq := congrArg Edge.toID (htransparent.edge ⟨0⟩ ((hpass.stored _).mpr hst))
  have hne : (((graphOf ((results "log/x.go").map repository.applyRepoPrefix)).resolveAll
      GoMap.RangeOrder.default).1.edge ⟨0⟩).toID ≠
        (repository.prefixResolved (((graphOf (results "log/x.go")).resolveAll
          GoMap.RangeOrder.default).1.edge ⟨0⟩)).toID := by decide +kernel
  exact hne heq

end OneImport

end Indexer

end Gortex
