import Gortex.Graph.View
import Gortex.Lib.Grouped

/-!
# Every reachable graph

A graph is reachable if a run of operations leads to it from the empty graph,
whatever the run does. The sidecars of the edges need not be exact then, and the
two sides of the edge tables need not agree. What is left is the invariant of the
node tables, and that a bucket of out-edges holds edges of its own source: this is
enough for what reads the graph through `allNodes` and `allEdges`.
-/

namespace Gortex

namespace Graph

variable {g g' g'' : Graph}

/-! ### What is left of the invariant -/

/-- A bucket of out-edges holds allocated edges of its source, at its home. -/
def OutHome (g : Graph) : Prop :=
  ∀ i f r, r ∈ (g.outTables i).slice f →
    shardIdx f = i ∧ (g.edge r).fromID = f ∧ r.addr < g.nextEdge

/-- **What holds of every reachable graph.** -/
structure Weak (g : Graph) : Prop where
  nodes : NodeInv g
  out : OutHome g

theorem Weak.new : Weak Graph.new :=
  ⟨NodeInv.new, fun _ _ _ hr => absurd hr List.not_mem_nil⟩

/-- Edge tables only are written, and no bucket of out-edges gains an entry. -/
structure OutShrinks (g g' : Graph) : Prop where
  only : EdgeTablesOnly g g'
  sub : ∀ i f r, r ∈ (g'.outTables i).slice f → r ∈ (g.outTables i).slice f

theorem OutShrinks.refl (g : Graph) : OutShrinks g g := ⟨EdgeTablesOnly.refl g, fun _ _ _ h => h⟩

theorem OutShrinks.trans (h : OutShrinks g g') (h' : OutShrinks g' g'') : OutShrinks g g'' :=
  ⟨h.only.trans h'.only, fun i f r hr => h.sub i f r (h'.sub i f r hr)⟩

theorem OutShrinks.foldl {α : Type} {f : Graph → α → Graph} (hf : ∀ g a, OutShrinks g (f g a))
    (l : List α) (g : Graph) : OutShrinks g (l.foldl f g) := by
  induction l generalizing g with
  | nil => exact OutShrinks.refl g
  | cons a l ih => exact (hf g a).trans (ih _)

theorem OutShrinks.outHome (h : OutShrinks g g') (hg : OutHome g) : OutHome g' := by
  intro i f r hr
  rw [h.only.edge, h.only.nextEdge]
  exact hg i f r (h.sub i f r hr)

theorem OutShrinks.weak (h : OutShrinks g g') (hg : Weak g) : Weak g' :=
  ⟨h.only.nodeInv hg.nodes, h.outHome hg.out⟩

theorem OutShrinks.modifyIn (g : Graph) (id : String)
    (f : Buckets String EdgeKey EdgeRef → Buckets String EdgeKey EdgeRef) :
    OutShrinks g (g.modifyIn id f) :=
  ⟨EdgeTablesOnly.modifyIn .., fun i k r hr => by rwa [outTables_modifyIn] at hr⟩

theorem OutShrinks.modifyOut (g : Graph) (id : String)
    {f : Buckets String EdgeKey EdgeRef → Buckets String EdgeKey EdgeRef}
    (hf : ∀ b k r, r ∈ (f b).slice k → r ∈ b.slice k) : OutShrinks g (g.modifyOut id f) := by
  refine ⟨EdgeTablesOnly.modifyOut .., fun i k r hr => ?_⟩
  rw [outTables_modifyOut] at hr
  unfold Buckets.write at hr
  by_cases hi : i = shardIdx id
  · rw [if_pos hi] at hr
    rw [hi]
    exact hf _ _ _ hr
  · rwa [if_neg hi] at hr

theorem OutShrinks.removeOut (g : Graph) (id : String) (k : EdgeKey) :
    OutShrinks g (g.removeOut id k) :=
  OutShrinks.modifyOut g id fun _ _ _ hr => Buckets.mem_of_mem_remove hr

theorem OutShrinks.removeIn (g : Graph) (id : String) (k : EdgeKey) :
    OutShrinks g (g.removeIn id k) :=
  OutShrinks.modifyIn ..

theorem OutShrinks.evictEdgesLocked (ord : MapOrder) (g : Graph) (evictedIDs : List String) :
    OutShrinks g (Graph.evictEdgesLocked ord g evictedIDs).1 := by
  rw [evictEdgesLocked_fst]
  refine OutShrinks.trans (OutShrinks.foldl (fun g id => ?_) _ _)
    (OutShrinks.foldl (fun g id => ?_) _ _)
  · unfold evictOutEdges
    refine OutShrinks.trans (OutShrinks.foldl (fun g r => ?_) _ _)
      (OutShrinks.modifyOut _ _ fun b k r hr => ?_)
    · split
      · exact OutShrinks.refl g
      · exact OutShrinks.removeIn ..
    · rw [Buckets.slice_drop] at hr
      split at hr
      · cases hr
      · exact hr
  · unfold evictInEdges
    refine OutShrinks.trans (OutShrinks.foldl (fun g r => ?_) _ _) (OutShrinks.modifyIn ..)
    split
    · exact OutShrinks.refl g
    · exact OutShrinks.removeOut ..

/-! ### Each operation -/

theorem OutHome.of_tables (h : OutHome g) (hedge : g'.edge = g.edge)
    (hnext : g'.nextEdge = g.nextEdge) (hout : g'.outTables = g.outTables) : OutHome g' := by
  intro i f r hr
  rw [hedge, hnext]
  rw [hout] at hr
  exact h i f r hr

theorem NodeTablesOnly.outHome (h : NodeTablesOnly g g') (hg : OutHome g) : OutHome g' :=
  hg.of_tables h.edge h.nextEdge h.outTables

theorem OutHome.newEdge (h : OutHome g) (e : Edge) : OutHome (g.newEdge e).2 := by
  intro i f r hr
  obtain ⟨h1, h2, h3⟩ := h i f r hr
  refine ⟨h1, ?_, Nat.lt_succ_of_lt h3⟩
  have hne : r ≠ ⟨g.nextEdge⟩ := fun hc => by
    rw [hc] at h3
    exact lt_irrefl _ h3
  rw [show (g.newEdge e).2.edge r = g.edge r from if_neg hne]
  exact h2

theorem OutHome.addEdge (h : OutHome g) {r : EdgeRef} (hr : r.addr < g.nextEdge) :
    OutHome (g.addEdge r) := by
  intro i f r' hr'
  rw [addEdge_eq, Graph.addIn, outTables_modifyIn, Graph.addOut, outTables_modifyOut] at hr'
  unfold Buckets.write at hr'
  by_cases hi : i = shardIdx (g.edge r).fromID
  · rw [if_pos hi] at hr'
    rcases Buckets.mem_of_mem_add hr' with ⟨rfl, rfl⟩ | hm
    · exact ⟨hi.symm, rfl, hr⟩
    · rw [hi]
      exact h _ f r' hm
  · rw [if_neg hi] at hr'
    exact h i f r' hr'

theorem OutHome.retarget (h : OutHome g) {r : EdgeRef} {e : Edge} (hs : SameSite (g.edge r) e) :
    OutHome (g.retarget r e) := by
  have hset : OutHome (g.setEdge r e) := fun i f r' hr' => by
    obtain ⟨h1, h2, h3⟩ := h i f r' hr'
    refine ⟨h1, ?_, h3⟩
    by_cases hne : r' = r
    · rw [hne, setEdge_edge_self, hs.fromID, ← hne]
      exact h2
    · rw [setEdge_edge_of_ne g e hne]
      exact h2
  by_cases hto : (g.edge r).toID = e.toID
  · have heq : g.retarget r e = g.setEdge r e := by
      rw [Graph.retarget, reindexEdge, setEdge_edge_self]
      exact if_pos hto
    rwa [heq]
  · rw [retarget_eq_unlink hs hto]
    refine OutShrinks.outHome ?_ hset
    have hrekey : OutShrinks (g.setEdge r e) ((g.setEdge r e).modifyOut (g.edge r).fromID
        fun out => out.rekey (g.edge r).fromID (g.edgeKeyOf r) (keyOf e)) :=
      OutShrinks.modifyOut _ _ fun b k r' hr' => by rwa [Buckets.slice_rekey] at hr'
    have hin : OutShrinks ((g.setEdge r e).modifyOut (g.edge r).fromID
        fun out => out.rekey (g.edge r).fromID (g.edgeKeyOf r) (keyOf e)) (g.unlink r e) :=
      OutShrinks.removeIn ..
    have hadd : OutShrinks (g.unlink r e) ((g.unlink r e).addIn r) := OutShrinks.modifyIn ..
    exact (hrekey.trans hin).trans hadd

theorem OutHome.evictNodes (h : OutHome g) (ord : MapOrder) (nodes : List NodeRef)
    (bucketsOf : Node → String × Option String) :
    OutHome (g.evictNodes ord nodes bucketsOf).graph := by
  unfold Graph.evictNodes
  split
  · exact h
  · exact (OutShrinks.evictEdgesLocked ord _ _).outHome
      ((NodeTablesOnly.foldl_evictNode bucketsOf nodes g).outHome h)

theorem OutShrinks.removeEdge (g : Graph) (fromID toID : String) (kind : EdgeKind) :
    OutShrinks g (g.removeEdge fromID toID kind).1 := by
  unfold Graph.removeEdge
  split
  · exact OutShrinks.refl g
  · exact (OutShrinks.removeOut ..).trans (OutShrinks.removeIn ..)

/-- **Every step of every run keeps what is left of the invariant.** -/
theorem Op.Step.weak {op : Op} (h : Op.Step g op g') (hg : Weak g) : Weak g' := by
  obtain ⟨hlegal, rfl⟩ := h
  cases op with
  | addNode n =>
    exact ⟨(hg.nodes.newNode n).addNode (Nat.lt_succ_self _),
      (NodeTablesOnly.addNode _ _).outHome (hg.out.of_tables rfl rfl rfl)⟩
  | addNodeAt r =>
    exact ⟨hg.nodes.addNode hlegal, (NodeTablesOnly.addNode _ _).outHome hg.out⟩
  | addEdge e =>
    exact ⟨(EdgeTablesOnly.addEdge _ _).nodeInv (hg.nodes.of_tables rfl rfl fun _ => rfl),
      (hg.out.newEdge e).addEdge (Nat.lt_succ_self _)⟩
  | addEdgeAt r =>
    exact ⟨(EdgeTablesOnly.addEdge _ _).nodeInv hg.nodes, hg.out.addEdge hlegal⟩
  | removeEdge fromID toID kind => exact (OutShrinks.removeEdge ..).weak hg
  | reindexEdge r e =>
    exact ⟨(EdgeTablesOnly.retarget g r e).nodeInv (hg.nodes.of_tables rfl rfl fun _ => rfl),
      hg.out.retarget hlegal.2⟩
  | evictFile ord filePath =>
    obtain ⟨hnodup, hl⟩ := hg.nodes.evictFile_nodes filePath
    exact ⟨(hg.nodes.evictNodes ord hnodup hl).1, hg.out.evictNodes ord _ _⟩
  | evictRepo ord repoPrefix =>
    obtain ⟨hnodup, hl⟩ := hg.nodes.evictRepo_nodes repoPrefix
    exact ⟨(hg.nodes.evictNodes ord hnodup hl).1, hg.out.evictNodes ord _ _⟩

theorem Weak.putNode (h : Weak g) (n : Node) : Weak (g.putNode n) :=
  have hstep : Op.Step g (.addNode n) (g.putNode n) := ⟨trivial, rfl⟩
  hstep.weak h

theorem Weak.putEdge (h : Weak g) (e : Edge) : Weak (g.putEdge e) :=
  have hstep : Op.Step g (.addEdge e) (g.putEdge e) := ⟨trivial, rfl⟩
  hstep.weak h

theorem Weak.evictFile (h : Weak g) (ord : MapOrder) (filePath : String) :
    Weak (Graph.evictFile ord g filePath).graph :=
  have hstep : Op.Step g (.evictFile ord filePath) (Graph.evictFile ord g filePath).graph :=
    ⟨trivial, rfl⟩
  hstep.weak h

theorem Weak.evictRepo (h : Weak g) (ord : MapOrder) (repoPrefix : String) :
    Weak (Graph.evictRepo ord g repoPrefix).graph :=
  have hstep : Op.Step g (.evictRepo ord repoPrefix) (Graph.evictRepo ord g repoPrefix).graph :=
    ⟨trivial, rfl⟩
  hstep.weak h

/-- A run of operations leads to the graph. -/
def Reachable (g : Graph) : Prop := ∃ ops, Run Op.Step Graph.new ops g

theorem Reachable.weak (h : Reachable g) : Weak g := by
  obtain ⟨ops, hrun⟩ := h
  exact hrun.invariant (fun hi hs => hs.weak hi) Weak.new

theorem Inv.weak (h : Inv g) : Weak g :=
  ⟨h.nodes, fun _ _ _ hr =>
    have hm := h.edges.out.mem_iff.mp hr
    ⟨hm.1, h.edges.fromID_eq hm.2, h.edges.out_lt hm.2⟩⟩

/-! ### Reading the whole graph -/

/-- `allNodes` lists the stored nodes. -/
theorem Weak.mem_allNodes (h : Weak g) (ord : MapOrder) {n : Node} :
    n ∈ (g.allNodes ord).map g.node ↔ g.nodeAt n.id = some n := by
  rw [List.mem_map]
  constructor
  · rintro ⟨r, hr, rfl⟩
    exact StoredNode.nodeAt ((h.nodes.mem_allNodes ord).mp hr)
  · intro hn
    obtain ⟨r, hr, hrn⟩ := nodeAt_eq_some.mp hn
    exact ⟨r, (h.nodes.mem_allNodes ord).mpr (h.nodes.storedNode hr), hrn⟩

/-- `allEdges` lists the stored edges. -/
theorem OutHome.mem_allEdges (h : OutHome g) (ord : MapOrder) {r : EdgeRef} :
    r ∈ g.allEdges ord ↔ g.StoredOut r := by
  unfold allEdges
  simp only [List.mem_flatMap, List.mem_finRange, true_and, ord.mem, Prod.exists]
  constructor
  · rintro ⟨i, f, l, hl, hr⟩
    have hslice : (g.outTables i).slice f = l := by
      rw [Buckets.slice, outTables, GoMap.mem_pairs.mp hl, Option.getD_some]
    obtain ⟨hi, hf, -⟩ := h i f r (hslice ▸ hr)
    rw [StoredOut, getOutEdges_eq, Buckets.sliceAt, hf, hi, hslice]
    exact hr
  · intro hst
    rw [StoredOut, getOutEdges, shardFor, Buckets.slice] at hst
    cases hl : (g.shards (shardIdx (g.edge r).fromID)).outEdges.bucket.lookup (g.edge r).fromID with
    | none =>
      rw [hl] at hst
      exact absurd hst List.not_mem_nil
    | some l =>
      rw [hl] at hst
      exact ⟨_, _, l, GoMap.mem_pairs.mpr hl, hst⟩

/-- Of all edges, those of one source are its out-edges, in their order. -/
theorem OutHome.filter_allEdges (h : OutHome g) (ord : MapOrder) (f : String) :
    (g.allEdges ord).filter (fun r => (g.edge r).fromID = f) = g.getOutEdges f := by
  have hshard : ∀ i, ((ord.order g (g.shards i).outEdges.bucket.pairs).flatMap Prod.snd).filter
      (fun r => (g.edge r).fromID = f) = (g.outTables i).slice f := fun i => by
    refine Grouped.filter_flatMap (ord.perm g _) fun k rs hk r hr => ?_
    have hslice : (g.outTables i).slice k = rs := by
      rw [Buckets.slice, outTables, hk, Option.getD_some]
    rw [decide_eq_true_eq, (h i k r (hslice ▸ hr)).2.1]
  have hother : ∀ i ∈ List.finRange numShards, i ≠ shardIdx f → (g.outTables i).slice f = [] :=
    fun i _ hi => List.eq_nil_iff_forall_not_mem.mpr fun r hr => hi (h i f r hr).1.symm
  unfold allEdges
  rw [List.filter_flatMap]
  simp only [hshard]
  exact List.flatMap_of_only (List.nodup_finRange _) (List.mem_finRange _) hother

theorem Weak.mem_allEdges (h : Weak g) (ord : MapOrder) {r : EdgeRef} :
    r ∈ g.allEdges ord ↔ g.StoredOut r :=
  h.out.mem_allEdges ord

theorem Weak.mem_map_allEdges (h : Weak g) (ord : MapOrder) {e : Edge} :
    e ∈ (g.allEdges ord).map g.edge ↔ g.StoredEdge e := by
  rw [List.mem_map]
  exact exists_congr fun r => and_congr_left fun _ => h.mem_allEdges ord

end Graph

end Gortex
