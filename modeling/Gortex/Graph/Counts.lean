import Gortex.Graph.Reachable

/-!
# Evictions and their counts

An eviction returns how many nodes and how many edges it has removed. The edges are
counted on the way: phase 1 counts the out-edges of the evicted nodes, and phase 2 the
in-edges that come from elsewhere. A self-loop, an edge between two evicted nodes and
an edge to an ID without a node are all out-edges of an evicted node, and phase 2
leaves their second entry uncounted.

Both counts of a graph are the length of a list without repetition, so a step that
loses the entries of such a list loses its length
(`Gortex.Graph.EdgeBase.edgeCount_add`). Each round of a phase is one such step, and
`Gortex.Graph.EvictsExactly` puts together what an eviction does.
-/

namespace Gortex

namespace Graph

variable {g g' : Graph}

/-! ### The counts of a graph -/

theorem nodeCount_eq (g : Graph) (ord : MapOrder) : g.nodeCount = (g.allNodes ord).length := by
  unfold nodeCount allNodes
  rw [List.length_flatMap]
  refine congrArg List.sum (List.map_congr_left fun i _ => ?_)
  rw [List.length_map, (ord.perm g _).length_eq]
  simp [GoMap.pairs, AList.keys, List.keys]

theorem edgeCount_eq (g : Graph) (ord : MapOrder) : g.edgeCount = (g.allEdges ord).length := by
  unfold edgeCount allEdges
  rw [List.length_flatMap]
  refine congrArg List.sum (List.map_congr_left fun i _ => ?_)
  rw [List.length_flatMap]
  exact (((ord.perm g _).map fun p : String × List EdgeRef => p.2.length).sum_nat).symm

/-- Every edge is listed once: a bucket lists an edge once, and two buckets hold edges
of two sources. -/
theorem EdgeBase.nodup_allEdges (h : EdgeBase g) (ord : MapOrder) : (g.allEdges ord).Nodup := by
  have hslice : ∀ i (p : String × List EdgeRef),
      p ∈ ord.order g (g.shards i).outEdges.bucket.pairs → (g.outTables i).slice p.1 = p.2 :=
    fun i p hp => by
      rw [Buckets.slice, outTables, GoMap.mem_pairs.mp (ord.mem.mp hp), Option.getD_some]
  have hfrom : ∀ i (p : String × List EdgeRef),
      p ∈ ord.order g (g.shards i).outEdges.bucket.pairs → ∀ r ∈ p.2,
        (g.edge r).fromID = p.1 ∧ shardIdx p.1 = i := fun i p hp r hr => by
    rw [← hslice i p hp] at hr
    obtain ⟨hi, hr⟩ := h.out.mem_iff.mp hr
    exact ⟨h.fromID_eq hr, hi⟩
  unfold allEdges
  rw [List.nodup_flatMap]
  refine ⟨fun i _ => ?_, (List.nodup_finRange numShards).imp fun {i j} hij => ?_⟩
  · rw [List.nodup_flatMap]
    refine ⟨fun p hp => ?_, ?_⟩
    · rw [← hslice i p hp]
      exact ((h.out.exact i p.1).nodup_map).of_map _
    · have hkeys : ((ord.order g (g.shards i).outEdges.bucket.pairs).map Prod.fst).Nodup :=
        ((ord.perm g _).map Prod.fst).nodup_iff.mpr (GoMap.nodup_pairs_fst _)
      refine (List.pairwise_map.mp hkeys).imp_of_mem fun {p q} hp hq hne r hr hr' => ?_
      exact hne ((hfrom i p hp r hr).1.symm.trans (hfrom i q hq r hr').1)
  · intro r hi hj
    obtain ⟨p, hp, hrp⟩ := List.mem_flatMap.mp hi
    obtain ⟨q, hq, hrq⟩ := List.mem_flatMap.mp hj
    obtain ⟨hfp, hip⟩ := hfrom i p hp r hrp
    obtain ⟨hfq, hjq⟩ := hfrom j q hq r hrq
    exact hij (by rw [← hip, ← hjq, ← hfp, ← hfq])

theorem EdgeBase.mem_allEdges (h : EdgeBase g) (ord : MapOrder) {r : EdgeRef} :
    r ∈ g.allEdges ord ↔ g.StoredOut r := by
  have hout : OutHome g := fun i f r hr =>
    have hm := h.out.mem_iff.mp hr
    ⟨hm.1, h.fromID_eq hm.2, h.out_lt hm.2⟩
  exact hout.mem_allEdges ord

/-- A list without repetition that splits into two others is as long as they are. -/
theorem length_add_of_split {α : Type} {l a b : List α} (hl : l.Nodup) (ha : a.Nodup)
    (hb : b.Nodup) (hmem : ∀ x, x ∈ l ↔ x ∈ a ∨ x ∈ b) (hdis : ∀ x ∈ b, x ∉ a) :
    a.length + b.length = l.length := by
  have hab : (a ++ b).Nodup := List.nodup_append'.mpr ⟨ha, hb, fun x hxa hxb => hdis x hxb hxa⟩
  have hperm : (a ++ b).Perm l := (List.perm_ext_iff_of_nodup hab hl).mpr fun x => by
    rw [List.mem_append, hmem]
  rw [← List.length_append, hperm.length_eq]

/-- **What is lost is counted**: a graph that has lost the edges of a list, once each,
has lost as many as the list is long. -/
theorem EdgeBase.edgeCount_add (h : EdgeBase g) (h' : EdgeBase g') {l : List EdgeRef}
    (hl : l.Nodup) (hmem : ∀ r, g.StoredOut r ↔ g'.StoredOut r ∨ r ∈ l)
    (hdis : ∀ r ∈ l, ¬g'.StoredOut r) : g'.edgeCount + l.length = g.edgeCount := by
  rw [edgeCount_eq g GoMap.RangeOrder.default, edgeCount_eq g' GoMap.RangeOrder.default]
  refine length_add_of_split (h.nodup_allEdges _) (h'.nodup_allEdges _) hl (fun r => ?_)
    fun r hr => ?_
  · rw [h.mem_allEdges, h'.mem_allEdges, hmem]
  · rw [h'.mem_allEdges]
    exact hdis r hr

/-- The same for the nodes. -/
theorem NodeInv.nodeCount_add (h : NodeInv g) (h' : NodeInv g') {l : List NodeRef}
    (hl : l.Nodup) (hmem : ∀ r, g.StoredNode r ↔ g'.StoredNode r ∨ r ∈ l)
    (hdis : ∀ r ∈ l, ¬g'.StoredNode r) : g'.nodeCount + l.length = g.nodeCount := by
  rw [nodeCount_eq g GoMap.RangeOrder.default, nodeCount_eq g' GoMap.RangeOrder.default]
  refine length_add_of_split ((h.nodup_allNodes _).of_map _) ((h'.nodup_allNodes _).of_map _) hl
    (fun r => ?_) fun r hr => ?_
  · rw [h.mem_allNodes, h'.mem_allNodes, hmem]
  · rw [h'.mem_allNodes]
    exact hdis r hr

/-! ### The edges counted by the two phases -/

section Phases

variable (evictedIDs : List String)

theorem EdgeBase.nodup_getOutEdges (h : EdgeBase g) (id : String) : (g.getOutEdges id).Nodup :=
  ((h.out.exact _ id).nodup_map).of_map _

theorem EdgeBase.nodup_getInEdges (h : EdgeBase g) (id : String) : (g.getInEdges id).Nodup :=
  ((h.inn.exact _ id).nodup_map).of_map _

/-- **Phase 1 counts what it removes**: a round empties one bucket of out-edges. -/
theorem EdgeBase.edgeCount_evictOutEdges (h : EdgeBase g) (id : String)
    (hboth : ∀ r, (g.edge r).fromID = id → (g.edge r).toID ∉ evictedIDs →
      g.StoredIn r → g.StoredOut r) :
    (g.evictOutEdges evictedIDs id).edgeCount + (g.getOutEdges id).length = g.edgeCount := by
  obtain ⟨hbase, hout, -⟩ := h.evictOutEdges evictedIDs id hboth
  refine h.edgeCount_add hbase (h.nodup_getOutEdges id) (fun r => ?_) fun r hr hc => ?_
  · rw [hout, h.mem_getOutEdges]
    tauto
  · exact ((hout r).mp hc).2 (h.fromID_eq hr)

/-- **Phase 2 counts what it removes**: a round takes the in-edges of one node that come
from elsewhere out of the buckets of their sources. -/
theorem EdgeBase.edgeCount_evictInEdges (h : EdgeBase g) (id : String)
    (hboth : ∀ r, (g.edge r).toID = id → (g.edge r).fromID ∉ evictedIDs →
      (g.StoredOut r ↔ g.StoredIn r)) :
    (g.evictInEdges evictedIDs id).edgeCount + ((g.getInEdges id).filter fun r =>
      (g.edge r).fromID ∉ evictedIDs).length = g.edgeCount := by
  obtain ⟨hbase, -, hout⟩ := h.evictInEdges evictedIDs id fun r ht hf => (hboth r ht hf).mp
  refine h.edgeCount_add hbase ((h.nodup_getInEdges id).filter _) (fun r => ?_) fun r hr hc => ?_
  · rw [hout, List.mem_filter, h.mem_getInEdges, decide_eq_true_eq]
    have := hboth r
    tauto
  · obtain ⟨hr, hf⟩ := List.mem_filter.mp hr
    exact ((hout r).mp hc).2 ⟨h.toID_eq hr, of_decide_eq_true hf⟩

theorem EdgeBase.edgeCount_phase1 (l : List String) (h : EdgeBase g) (n : ℕ)
    (hboth : ∀ r, (g.edge r).fromID ∈ l → (g.edge r).toID ∉ evictedIDs →
      g.StoredIn r → g.StoredOut r) :
    let s := l.foldl (fun (s : Graph × ℕ) id =>
      (s.1.evictOutEdges evictedIDs id, s.2 + (s.1.getOutEdges id).length)) (g, n)
    s.1.edgeCount + s.2 = g.edgeCount + n := by
  induction l generalizing g n with
  | nil => rfl
  | cons id l ih =>
    have hid := fun r (hf : (g.edge r).fromID = id) => hboth r (hf ▸ List.mem_cons_self)
    obtain ⟨b1, b2, b3⟩ := h.evictOutEdges evictedIDs id hid
    have hedge := (EdgeTablesOnly.evictOutEdges evictedIDs g id).edge
    have hcount := h.edgeCount_evictOutEdges evictedIDs id hid
    have hrest := ih b1 (n + (g.getOutEdges id).length) fun r hf ht hst => by
      rw [hedge] at hf ht
      obtain ⟨hst', hn⟩ := (b3 r).mp hst
      exact (b2 r).mpr ⟨hboth r (List.mem_cons_of_mem _ hf) ht hst', fun hc => hn ⟨hc, ht⟩⟩
    simp only [List.foldl_cons] at hrest ⊢
    omega

theorem EdgeBase.edgeCount_phase2 (l : List String) (h : EdgeBase g) (n : ℕ)
    (hboth : ∀ r, (g.edge r).toID ∈ l → (g.edge r).fromID ∉ evictedIDs →
      (g.StoredOut r ↔ g.StoredIn r)) :
    let s := l.foldl (fun (s : Graph × ℕ) id =>
      (s.1.evictInEdges evictedIDs id, s.2 + ((s.1.getInEdges id).filter fun r =>
        (s.1.edge r).fromID ∉ evictedIDs).length)) (g, n)
    s.1.edgeCount + s.2 = g.edgeCount + n := by
  induction l generalizing g n with
  | nil => rfl
  | cons id l ih =>
    have hid := fun r (ht : (g.edge r).toID = id) => hboth r (ht ▸ List.mem_cons_self)
    obtain ⟨b1, b2, b3⟩ := h.evictInEdges evictedIDs id fun r ht hf => (hid r ht hf).mp
    have hedge := (EdgeTablesOnly.evictInEdges evictedIDs g id).edge
    have hcount := h.edgeCount_evictInEdges evictedIDs id hid
    have hrest := ih b1 (n + ((g.getInEdges id).filter fun r =>
        (g.edge r).fromID ∉ evictedIDs).length) fun r ht hf => by
      rw [hedge] at ht hf
      rw [b2, b3, hboth r (List.mem_cons_of_mem _ ht) hf]
      tauto
    simp only [List.foldl_cons] at hrest ⊢
    omega

/-- **The edges an eviction counts are the edges it removes.** -/
theorem EdgeInv.edgeCount_evictEdgesLocked (h : EdgeInv g) (ord : MapOrder) :
    (Graph.evictEdgesLocked ord g evictedIDs).1.edgeCount +
      (Graph.evictEdgesLocked ord g evictedIDs).2 = g.edgeCount := by
  have hone := h.toEdgeBase.edgeCount_phase1 evictedIDs (ord.order g evictedIDs) 0
    fun r _ _ hst => (h.both r).mpr hst
  obtain ⟨b1, b2, b3⟩ := h.toEdgeBase.foldl_evictOutEdges evictedIDs
    (ord.order g evictedIDs) fun r _ _ hst => (h.both r).mpr hst
  have hedge := (EdgeTablesOnly.foldl
    (fun g id => EdgeTablesOnly.evictOutEdges evictedIDs g id)
    (ord.order g evictedIDs) g).edge
  unfold Graph.evictEdgesLocked
  simp only at hone ⊢
  rw [← List.foldl_fst (fun (g : Graph) (id : String) => g.evictOutEdges evictedIDs id)
    (fun g id => (g.getOutEdges id).length) _ (g, 0)] at b1 b2 b3 hedge
  generalize (ord.order g evictedIDs).foldl (fun (s : Graph × ℕ) id =>
    (s.1.evictOutEdges evictedIDs id, s.2 + (s.1.getOutEdges id).length)) (g, 0) = s₁ at *
  obtain ⟨g₁, n₁⟩ := s₁
  have htwo := b1.edgeCount_phase2 evictedIDs (ord.order g₁ evictedIDs) n₁ fun r _ hf => by
    -- an edge that enters from elsewhere is untouched by phase 1, on both sides
    rw [hedge] at hf
    rw [b2, b3, h.both r]
    exact and_congr_right fun _ =>
      ⟨fun _ hc => hf (ord.mem.mp hc.1), fun _ hc => hf (ord.mem.mp hc)⟩
  simp only at hone htwo ⊢
  omega

end Phases

/-! ### Removing edges one by one -/

section Remove

variable {fromID toID : String} {kind : EdgeKind}

/-- **What RemoveEdge takes away**: one of the edges with the ends and the kind, if there is
one. -/
theorem EdgeInv.removeEdge_cases (h : EdgeInv g) (fromID toID : String) (kind : EdgeKind) :
    (∃ r₀, g.StoredOut r₀ ∧ (g.edge r₀).fromID = fromID ∧ (g.edge r₀).toID = toID ∧
        (g.edge r₀).kind = kind ∧
        ∀ r, (g.removeEdge fromID toID kind).1.StoredOut r ↔ g.StoredOut r ∧ r ≠ r₀) ∨
      (∀ r, g.StoredOut r → (g.edge r).fromID = fromID → (g.edge r).toID = toID →
        (g.edge r).kind ≠ kind) ∧ (g.removeEdge fromID toID kind).1 = g := by
  unfold Graph.removeEdge
  split
  · rename_i hnone
    refine .inr ⟨fun r hr hfrom hto hkind => ?_, rfl⟩
    have hr' : r ∈ g.getOutEdges fromID := h.mem_getOutEdges.mpr ⟨hfrom, hr⟩
    exact List.find?_eq_none.mp hnone r hr' (decide_eq_true ⟨hto, hkind⟩)
  · rename_i target hfind
    obtain ⟨hfrom, hstored⟩ := h.mem_getOutEdges.mp (List.mem_of_find?_eq_some hfind)
    have hsite := List.find?_some hfind
    obtain ⟨hto, hkind⟩ := of_decide_eq_true hsite
    refine .inl ⟨target, hstored, hfrom, hto, hkind, fun r => ?_⟩
    simp only [Graph.removeIn]
    rw [storedOut_modifyIn, (edgeInv_iff.mp h).storedOut_removeOut _ _ hfrom trivial]
    refine and_congr_right fun hr => not_congr ⟨h.eq_of_key hr hstored, ?_⟩
    rintro rfl
    rfl

/-- The edges between two IDs of a kind. -/
def parallel (g : Graph) (kind : EdgeKind) (fromID toID : String) : List EdgeRef :=
  (g.getOutEdges fromID).filter fun r => (g.edge r).toID = toID ∧ (g.edge r).kind = kind

theorem EdgeBase.mem_parallel (h : EdgeBase g) {r : EdgeRef} : r ∈ g.parallel kind fromID toID ↔
    g.StoredOut r ∧ (g.edge r).fromID = fromID ∧ (g.edge r).toID = toID ∧
      (g.edge r).kind = kind := by
  rw [parallel, List.mem_filter, h.mem_getOutEdges, decide_eq_true_iff]
  tauto

theorem EdgeBase.nodup_parallel (h : EdgeBase g) : (g.parallel kind fromID toID).Nodup :=
  (h.nodup_getOutEdges fromID).filter _

variable (kind) in
/-- **RemoveEdge takes one of parallel edges away**, and no other. -/
theorem EdgeInv.length_parallel_removeEdge (h : EdgeInv g) (fromID toID f t : String) :
    ((g.removeEdge fromID toID kind).1.parallel kind f t).length ≤
      (g.parallel kind f t).length - if (f, t) = (fromID, toID) then 1 else 0 := by
  obtain ⟨h', honly⟩ := h.removeEdge fromID toID kind
  rcases h.removeEdge_cases fromID toID kind with
    ⟨r₀, hr₀, hfrom, hto, hkind, hst⟩ | ⟨hnone, heq⟩
  · have hmem : ∀ r, r ∈ (g.removeEdge fromID toID kind).1.parallel kind f t ↔
        r ∈ g.parallel kind f t ∧ r ≠ r₀ := by
      intro r
      rw [h'.mem_parallel, h.mem_parallel, hst, honly.edge]
      tauto
    split_ifs with hft
    · obtain ⟨rfl, rfl⟩ := Prod.mk.inj hft
      have hlen := length_add_of_split (h.nodup_parallel : (g.parallel kind f t).Nodup)
        h'.nodup_parallel (List.nodup_singleton r₀) (fun r => by
          rw [hmem, List.mem_singleton]
          constructor
          · intro hr
            exact (em (r = r₀)).symm.imp (fun hne => ⟨hr, hne⟩) id
          · rintro (hr | rfl)
            · exact hr.1
            · exact h.mem_parallel.mpr ⟨hr₀, hfrom, hto, hkind⟩)
        fun r hr hc => ((hmem r).mp hc).2 (List.mem_singleton.mp hr)
      rw [List.length_singleton] at hlen
      omega
    · exact (h'.nodup_parallel.subperm fun r hr => ((hmem r).mp hr).1).length_le
  · rw [heq]
    split_ifs with hft
    · obtain ⟨rfl, rfl⟩ := Prod.mk.inj hft
      have hnil : g.parallel kind f t = [] := List.eq_nil_iff_forall_not_mem.mpr fun r hr =>
        have hr := h.mem_parallel.mp hr
        hnone r hr.1 hr.2.1 hr.2.2.1 hr.2.2.2
      rw [hnil]
      exact Nat.zero_le _
    · exact le_rfl

/-- **A loop that removes an edge for each pair of ends listed**: the edges of the kind are all
gone if they are listed as often as there are parallel ones, and the others are as they were. -/
theorem EdgeInv.foldl_removeEdge (h : EdgeInv g) {pairs : List (String × String)}
    (hlisted : ∀ f t, (g.parallel kind f t).length ≤ pairs.count (f, t)) :
    let g' := pairs.foldl (fun g p => (g.removeEdge p.1 p.2 kind).1) g
    EdgeInv g' ∧ EdgeTablesOnly g g' ∧
      ∀ r, g'.StoredOut r ↔ g.StoredOut r ∧ (g.edge r).kind ≠ kind := by
  induction pairs generalizing g with
  | nil =>
    refine ⟨h, EdgeTablesOnly.refl g, fun r => ⟨fun hr => ⟨hr, fun hkind => ?_⟩, And.left⟩⟩
    have hnone := hlisted (g.edge r).fromID (g.edge r).toID
    rw [List.count_nil, Nat.le_zero, List.length_eq_zero_iff] at hnone
    exact List.not_mem_nil (hnone ▸ h.mem_parallel.mpr ⟨hr, rfl, rfl, hkind⟩)
  | cons p pairs ih =>
    obtain ⟨h', honly⟩ := h.removeEdge p.1 p.2 kind
    have hrest : ∀ f t, ((g.removeEdge p.1 p.2 kind).1.parallel kind f t).length ≤
        pairs.count (f, t) := by
      intro f t
      have hlen := h.length_parallel_removeEdge kind p.1 p.2 f t
      have hcount := hlisted f t
      rw [List.count_cons] at hcount
      by_cases hft : (f, t) = p
      · rw [if_pos hft] at hlen
        rw [if_pos (beq_iff_eq.mpr hft.symm)] at hcount
        omega
      · rw [if_neg hft] at hlen
        rw [if_neg (by simpa using Ne.symm hft)] at hcount
        omega
    obtain ⟨hinv, hedges, hst⟩ := ih h' hrest
    refine ⟨hinv, honly.trans hedges, fun r => ?_⟩
    rw [List.foldl_cons, hst, honly.edge]
    rcases h.removeEdge_cases p.1 p.2 kind with ⟨r₀, -, -, -, hkind, hst'⟩ | ⟨-, heq⟩
    · rw [hst', and_assoc]
      refine and_congr_right fun _ => and_iff_right_of_imp ?_
      rintro hne rfl
      exact hne hkind
    · rw [heq]

end Remove

/-! ### Exactness -/

/-- **An eviction of the nodes with a property is exact.** The nodes with the property
are gone, and the edges with such a node at one end; everything else is stored behind
the same pointers with the same contents, under the invariant; and the two numbers
returned are what the two counts of the graph have lost. -/
structure EvictsExactly (p : Node → Prop) (g : Graph) (ev : Evicted) : Prop where
  inv : Inv ev.graph
  node : ev.graph.node = g.node
  edge : ev.graph.edge = g.edge
  nodes : ∀ r, ev.graph.StoredNode r ↔ g.StoredNode r ∧ ¬p (g.node r)
  edges : ∀ r, ev.graph.StoredOut r ↔ g.StoredOut r ∧
    ¬∃ n, p n ∧ (g.nodeAt (g.edge r).fromID = some n ∨ g.nodeAt (g.edge r).toID = some n)
  nodeCount : ev.graph.nodeCount + ev.nodesRemoved = g.nodeCount
  edgeCount : ev.graph.edgeCount + ev.edgesRemoved = g.edgeCount

theorem NodeTablesOnly.edgeCount (h : NodeTablesOnly g g') : g'.edgeCount = g.edgeCount := by
  unfold Graph.edgeCount
  refine congrArg List.sum (List.map_congr_left fun i _ => ?_)
  have hi : (g'.shards i).outEdges = (g.shards i).outEdges :=
    congrArg EdgeTables.outEdges (h.tables i)
  rw [hi]

theorem Inv.edgeCount_evictNodes (h : Inv g) (ord : MapOrder) (nodes : List NodeRef)
    (bucketsOf : Node → String × Option String) :
    (g.evictNodes ord nodes bucketsOf).graph.edgeCount +
      (g.evictNodes ord nodes bucketsOf).edgesRemoved = g.edgeCount := by
  have honly := NodeTablesOnly.foldl_evictNode bucketsOf nodes g
  have hcount := (honly.edgeInv h.edges).edgeCount_evictEdgesLocked (nodes.map g.idOf).dedup ord
  have hsame := honly.edgeCount
  unfold Graph.evictNodes
  by_cases hnil : nodes.isEmpty
  · rw [if_pos hnil]
    exact Nat.add_zero _
  · rw [if_neg hnil, ← hsame]
    exact hcount

/-- **Evicting a list of nodes is exact** for a property, if the list holds the nodes
with the property. -/
theorem Inv.evictsExactly_evictNodes (h : Inv g) (ord : MapOrder) {nodes : List NodeRef}
    {bucketsOf : Node → String × Option String} {p : Node → Prop}
    (hnodup : (nodes.map g.idOf).Nodup)
    (hl : ∀ r ∈ nodes, g.StoredNode r ∧ bucketsOf (g.node r) =
      ((g.node r).filePath, repoKey (g.node r)))
    (hp : ∀ r, r ∈ nodes ↔ g.StoredNode r ∧ p (g.node r)) :
    EvictsExactly p g (g.evictNodes ord nodes bucketsOf) := by
  have hspec := h.evictNodes ord hnodup hl
  have hids : ∀ id, id ∈ nodes.map g.idOf ↔ ∃ n, g.nodeAt id = some n ∧ p n := fun id => by
    rw [List.mem_map]
    constructor
    · rintro ⟨r, hr, rfl⟩
      exact ⟨g.node r, ((hp r).mp hr).1.nodeAt, ((hp r).mp hr).2⟩
    · rintro ⟨n, hn, hpn⟩
      obtain ⟨r, hr, rfl⟩ := nodeAt_eq_some.mp hn
      exact ⟨r, (hp r).mpr ⟨h.nodes.storedNode hr, hpn⟩, (h.nodes.home hr).1⟩
  -- a node is stored afterwards if it was and is none of those that are evicted
  have hstored : ∀ r, (g.evictNodes ord nodes bucketsOf).graph.StoredNode r ↔
      g.StoredNode r ∧ ¬p (g.node r) := fun r => by
    rw [StoredNode, StoredNode, idOf, hspec.node, hspec.getNode]
    by_cases hid : (g.node r).id ∈ nodes.map g.idOf
    · rw [if_pos hid]
      refine iff_of_false (Option.some_ne_none r).symm ?_
      rintro ⟨hr, hnp⟩
      obtain ⟨n, hn, hpn⟩ := (hids _).mp hid
      obtain rfl := Option.some.inj ((StoredNode.nodeAt hr).symm.trans hn)
      exact hnp hpn
    · rw [if_neg hid]
      refine (and_iff_left_of_imp fun hr hpr => hid ?_).symm
      exact List.mem_map.mpr ⟨r, (hp r).mpr ⟨hr, hpr⟩, rfl⟩
  refine ⟨hspec.inv, hspec.node, hspec.edge, hstored, fun r => ?_, ?_,
    h.edgeCount_evictNodes ord nodes bucketsOf⟩
  · rw [hspec.stored, hids, hids]
    refine and_congr_right fun _ => ⟨?_, ?_⟩
    · rintro ⟨hf, ht⟩ ⟨n, hpn, hn | hn⟩
      · exact hf ⟨n, hn, hpn⟩
      · exact ht ⟨n, hn, hpn⟩
    · intro hno
      constructor
      · rintro ⟨n, hn, hpn⟩
        exact hno ⟨n, hpn, Or.inl hn⟩
      · rintro ⟨n, hn, hpn⟩
        exact hno ⟨n, hpn, Or.inr hn⟩
  · have hlen : (g.evictNodes ord nodes bucketsOf).nodesRemoved = nodes.length := by
      unfold Graph.evictNodes
      by_cases hnil : nodes.isEmpty
      · rw [if_pos hnil, List.isEmpty_iff.mp hnil, List.length_nil]
      · rw [if_neg hnil]
    rw [hlen]
    refine h.nodes.nodeCount_add hspec.inv.nodes (hnodup.of_map _) (fun r => ?_) fun r hr hc => ?_
    · rw [hstored, hp]
      tauto
    · exact ((hstored r).mp hc).2 ((hp r).mp hr).2

/-- **Evictions are exact**: EvictFile for the nodes of the file, EvictRepo for the nodes
of the repository. -/
theorem Inv.evictsExactly (h : Inv g) (ord : MapOrder) :
    (∀ filePath, EvictsExactly (fun n => n.filePath = filePath) g
      (Graph.evictFile ord g filePath)) ∧
    ∀ repoPrefix, repoPrefix ≠ "" → EvictsExactly (fun n => n.repoPrefix = repoPrefix) g
      (Graph.evictRepo ord g repoPrefix) := by
  constructor
  · intro filePath
    obtain ⟨hnodup, hl⟩ := h.nodes.evictFile_nodes filePath
    exact h.evictsExactly_evictNodes ord hnodup hl fun r => h.nodes.mem_getFileNodes
  · intro repoPrefix hne
    obtain ⟨hnodup, hl⟩ := h.nodes.evictRepo_nodes repoPrefix
    refine h.evictsExactly_evictNodes ord hnodup hl fun r => ?_
    rw [h.nodes.mem_getRepoNodes]
    exact and_congr_right fun _ => and_iff_left hne

namespace TwoFiles

/-- Two files of one repository, the first with a function that calls itself, twice the
function of the other file, and a symbol without a node; and a call back. -/
def graph : Graph :=
  let fn (id file : String) : Node :=
    { id := id, kind := .kindFunction, name := id, filePath := file, repoPrefix := "web" }
  let call (fromID toID : String) (line : ℤ) : Edge :=
    { fromID := fromID, toID := toID, kind := .edgeCalls, line := line }
  ((((((Graph.new.putNode (fn "a" "a.go")).putNode (fn "b" "b.go")).putEdge
    (call "a" "a" 1)).putEdge (call "a" "b" 2)).putEdge (call "a" "b" 3)).putEdge
      (call "a" "external::fmt" 4)).putEdge (call "b" "a" 5)

theorem inv_graph : Inv graph :=
  ((((((Inv.new.putNode _).putNode _).putEdge _).putEdge _).putEdge _).putEdge _).putEdge _

/-- Of the two nodes one is evicted with its file, and all five edges with it. -/
theorem evictsExactly_graph :
    EvictsExactly (fun n => n.filePath = "a.go") graph
        (Graph.evictFile GoMap.RangeOrder.default graph "a.go") ∧
      EvictsExactly (fun n => n.repoPrefix = "web") graph
        (Graph.evictRepo GoMap.RangeOrder.default graph "web") ∧
      (Graph.evictFile GoMap.RangeOrder.default graph "a.go").edgesRemoved = 5 :=
  ⟨(Inv.evictsExactly inv_graph GoMap.RangeOrder.default).1 "a.go",
    (Inv.evictsExactly inv_graph GoMap.RangeOrder.default).2 "web" (by decide), by decide +kernel⟩

end TwoFiles

end Graph

end Gortex
