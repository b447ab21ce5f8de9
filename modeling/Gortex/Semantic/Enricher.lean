import Gortex.Graph.Counts
import Gortex.Lib.Upsert

/-!
# Confirming, refuting and adding edges

What the semantic providers do to the graph (`internal/semantic/enricher.go`): they raise a stored
edge to the tier of a compiler, remove one, add one, and look for one by its ends.

`Gortex.Graph.between` is the view the providers have of the edges: those from one ID to another,
in the order of the bucket. Writing the first of them and appending one are the two things that
happen to it (`Gortex.Graph.Inv.between_setEdge`, `Gortex.Graph.Inv.between_putEdge`), and nothing
happens to the edges between other IDs.

`RefuteEdge` gives `RemoveEdge` the ends and the kind of its edge only. So it removes the edge
exactly if no edge with these ends and this kind stands before it in its bucket
(`Gortex.Semantic.refutesExactly_iff`).
-/

namespace Gortex

namespace Semantic

/-! ### The enricher -/

/-- `originForSemanticKind`. -/
def originForSemanticKind (kind : EdgeKind) : String :=
  if kind = .edgeImplements then "lsp_dispatch" else "lsp_resolved"

/-- An edge after `ConfirmEdge`. -/
def confirmed (provider : String) (e : Edge) : Edge :=
  { e with
    confidence := 1
    confidenceLabel := "EXTRACTED"
    origin := originForSemanticKind e.kind
    metadata := e.metadata.insert "semantic_source" (.str provider) }

/-- **`ConfirmEdge`.** -/
def confirmEdge (g : Graph) (r : EdgeRef) (provider : String) : Graph :=
  g.setEdge r (confirmed provider (g.edge r))

/-- **`RefuteEdge`.** -/
def refuteEdge (g : Graph) (e : Edge) : Graph × Bool := g.removeEdge e.fromID e.toID e.kind

/-- The edge that `AddSemanticEdge` makes. -/
def semanticEdge (fromID toID : String) (kind : EdgeKind) (filePath : String) (line : ℤ)
    (provider : String) : Edge where
  fromID := fromID
  toID := toID
  kind := kind
  filePath := filePath
  line := line
  confidence := 1
  confidenceLabel := "EXTRACTED"
  origin := originForSemanticKind kind
  metadata := (∅ : Metadata).insert "semantic_source" (.str provider)

/-- **`AddSemanticEdge`.** -/
def addSemanticEdge (g : Graph) (fromID toID : String) (kind : EdgeKind) (filePath : String)
    (line : ℤ) (provider : String) : Graph :=
  g.putEdge (semanticEdge fromID toID kind filePath line provider)

/-- **`EnrichNodeMeta`.** -/
def enrichNodeMeta (g : Graph) (r : NodeRef) (key : String) (value : MetaValue)
    (provider : String) : Graph :=
  let n := g.node r
  g.setNode r { n with
    metadata := (n.metadata.insert key value).insert "semantic_source" (.str provider) }

/-- **`FindMatchingEdge`.** -/
def findMatchingEdge (g : Graph) (fromID toID : String) (kind : EdgeKind) : Option EdgeRef :=
  (g.getOutEdges fromID).find? fun r => (g.edge r).toID = toID ∧ (g.edge r).kind = kind

/-- **`FindEdgeByTarget`.** -/
def findEdgeByTarget (g : Graph) (fromID toID : String) : Option EdgeRef :=
  (g.getOutEdges fromID).find? fun r => (g.edge r).toID = toID

/-- `EnrichResult`, without the time. -/
structure EnrichResult where
  provider : String := ""
  language : String := ""
  edgesConfirmed : ℕ := 0
  edgesRefuted : ℕ := 0
  edgesAdded : ℕ := 0
  nodesEnriched : ℕ := 0
  symbolsCovered : ℕ := 0
  symbolsTotal : ℕ := 0
  coveragePercent : ℚ := 0

@[simp] theorem keyOf_confirmed (provider : String) (e : Edge) :
    keyOf (confirmed provider e) = keyOf e := rfl

@[simp] theorem confidence_confirmed (provider : String) (e : Edge) :
    (confirmed provider e).confidence = 1 := rfl

/-- Confirming twice is confirming once. -/
theorem confirmed_confirmed (provider : String) (e : Edge) :
    confirmed provider (confirmed provider e) = confirmed provider e := by
  simp only [confirmed, AList.insert_insert]

/-- An added edge is a confirmed one. -/
theorem confirmed_semanticEdge (fromID toID : String) (kind : EdgeKind) (filePath : String)
    (line : ℤ) (provider : String) :
    confirmed provider (semanticEdge fromID toID kind filePath line provider) =
      semanticEdge fromID toID kind filePath line provider := by
  simp only [confirmed, semanticEdge, AList.insert_insert]

end Semantic

/-- A node without its metadata. -/
def Node.plain (n : Node) : Node := { n with metadata := ∅ }

/-! ### The edges from one ID to another -/

namespace Graph

variable {g g' g'' : Graph}

/-- The edges from one ID to another, in the order of the bucket. -/
def between (g : Graph) (fromID toID : String) : List Edge :=
  (g.edgesAt fromID).filter fun e => e.toID = toID

/-- What a loop that looks for an edge by its ends and a property of it finds. -/
def firstEdge (g : Graph) (fromID toID : String) (p : Edge → Prop) [DecidablePred p] :
    Option EdgeRef :=
  (g.getOutEdges fromID).find? fun r => (g.edge r).toID = toID ∧ p (g.edge r)

theorem Inv.mem_between (h : Inv g) {fromID toID : String} {e : Edge} :
    e ∈ g.between fromID toID ↔ g.StoredEdge e ∧ e.fromID = fromID ∧ e.toID = toID := by
  rw [between, List.mem_filter, h.mem_edgesAt, decide_eq_true_iff, and_assoc]

/-- A stored edge is between its ends. -/
theorem Inv.storedEdge_iff (h : Inv g) {e : Edge} :
    g.StoredEdge e ↔ e ∈ g.between e.fromID e.toID := by
  rw [h.mem_between]
  exact ⟨fun he => ⟨he, rfl, rfl⟩, And.left⟩

section Find

variable {p : Edge → Prop} [DecidablePred p] {fromID toID : String}

theorem firstEdge_eq_none :
    g.firstEdge fromID toID p = none ↔ ∀ e ∈ g.between fromID toID, ¬p e := by
  simp only [firstEdge, List.find?_eq_none, between, edgesAt, List.mem_filter, List.mem_map,
    decide_eq_true_eq]
  constructor
  · rintro h e ⟨⟨r, hr, rfl⟩, hto⟩ hp
    exact h r hr ⟨hto, hp⟩
  · rintro h r hr ⟨hto, hp⟩
    exact h _ ⟨⟨r, hr, rfl⟩, hto⟩ hp

theorem Inv.of_firstEdge (h : Inv g) {r : EdgeRef} (hr : g.firstEdge fromID toID p = some r) :
    g.StoredOut r ∧ (g.edge r).fromID = fromID ∧ (g.edge r).toID = toID ∧ p (g.edge r) := by
  obtain ⟨hfrom, hst⟩ := h.edges.mem_getOutEdges.mp (List.mem_of_find?_eq_some hr)
  have hsite : decide ((g.edge r).toID = toID ∧ p (g.edge r)) = true :=
    List.find?_some (p := fun r => (g.edge r).toID = toID ∧ p (g.edge r)) hr
  obtain ⟨hto, hp⟩ := of_decide_eq_true hsite
  exact ⟨hst, hfrom, hto, hp⟩

end Find

/-! ### The nodes stay -/

/-- **The nodes stay**: their tables are the same, and so is their memory, but for the metadata. -/
structure NodesKept (g g' : Graph) : Prop where
  node : ∀ r, (g'.node r).plain = (g.node r).plain
  nextNode : g'.nextNode = g.nextNode
  tables : ∀ i, (g'.shards i).toNodeTables = (g.shards i).toNodeTables

namespace NodesKept

theorem refl (g : Graph) : NodesKept g g := ⟨fun _ => rfl, rfl, fun _ => rfl⟩

theorem trans (h : NodesKept g g') (h' : NodesKept g' g'') : NodesKept g g'' :=
  ⟨fun r => (h'.node r).trans (h.node r), h'.nextNode.trans h.nextNode,
    fun i => (h'.tables i).trans (h.tables i)⟩

/-- What does not read the metadata of a node reads the same. -/
theorem read {α : Type} (h : NodesKept g g') {f : Node → α} (hf : ∀ n, f n.plain = f n)
    (r : NodeRef) : f (g'.node r) = f (g.node r) := by
  rw [← hf (g'.node r), h.node, hf]

theorem idOf (h : NodesKept g g') (r : NodeRef) : g'.idOf r = g.idOf r :=
  h.read (f := Node.id) (fun _ => rfl) r

theorem getNode (h : NodesKept g g') (id : String) : g'.getNode id = g.getNode id :=
  congrArg (fun t : NodeTables => t.nodes.lookup id) (h.tables (shardIdx id))

theorem getFileNodes (h : NodesKept g g') (filePath : String) :
    g'.getFileNodes filePath = g.getFileNodes filePath := by
  unfold Graph.getFileNodes
  refine congrArg (fun f => (List.finRange numShards).flatMap f) (funext fun i => ?_)
  exact congrArg (fun t : NodeTables => t.byFile.slice filePath) (h.tables i)

/-- The metadata has no part in the invariant of the node tables. -/
theorem nodeInv (h : NodesKept g g') (hg : NodeInv g) : NodeInv g' := by
  intro i
  rw [h.tables, h.nextNode]
  have hi := hg i
  refine ⟨fun hl => ?_, hi.file.of_keys h.idOf fun r => ?_, hi.name.of_keys h.idOf fun r => ?_,
    hi.repo.of_keys h.idOf fun r => ?_, fun hq => ?_⟩
  · obtain ⟨hid, hrest⟩ := hi.home hl
    exact ⟨(h.idOf _).trans hid, hrest⟩
  · exact h.read (f := fun n => some n.filePath) (fun _ => rfl) r
  · exact h.read (f := fun n => some n.name) (fun _ => rfl) r
  · exact h.read (f := repoKey) (fun _ => rfl) r
  · obtain ⟨hst, hname, hne⟩ := hi.qual hq
    refine ⟨?_, (h.read (f := Node.qualName) (fun _ => rfl) _).trans hname, hne⟩
    exact (congrArg (fun id => (g.shards i).nodes.lookup id) (h.idOf _)).trans hst

theorem setEdge (g : Graph) (r : EdgeRef) (e : Edge) : NodesKept g (g.setEdge r e) :=
  ⟨fun _ => rfl, rfl, fun _ => rfl⟩

theorem putEdge (g : Graph) (e : Edge) : NodesKept g (g.putEdge e) :=
  let h := EdgeTablesOnly.addEdge (g.newEdge e).2 (g.newEdge e).1
  ⟨fun r => congrArg (fun node => (node r).plain) h.node, h.nextNode, h.tables⟩

theorem enrichNodeMeta (g : Graph) (r : NodeRef) (key : String) (value : MetaValue)
    (provider : String) : NodesKept g (Semantic.enrichNodeMeta g r key value provider) := by
  refine ⟨fun r' => ?_, rfl, fun _ => rfl⟩
  change (if r' = r then _ else g.node r').plain = _
  split_ifs with hr
  · subst hr
    rfl
  · rfl

end NodesKept

/-- A graph with other metadata of the nodes, and the same edges. -/
theorem Inv.enrichNodeMeta (h : Inv g) (r : NodeRef) (key : String) (value : MetaValue)
    (provider : String) : Inv (Semantic.enrichNodeMeta g r key value provider) :=
  ⟨(NodesKept.enrichNodeMeta g r key value provider).nodeInv h.nodes,
    h.edges.of_tables rfl rfl rfl rfl⟩

/-! ### Writing and appending -/

theorem Inv.setEdge_of_key (h : Inv g) {r : EdgeRef} {e : Edge} (hk : keyOf e = g.edgeKeyOf r) :
    Inv (g.setEdge r e) :=
  ⟨h.nodes.of_tables rfl rfl fun _ => rfl,
    edgeInv_iff.mpr ((edgeInv_iff.mp h.edges).setEdge_of_key hk)⟩

/-- Writing what is there. -/
theorem setEdge_self (g : Graph) (r : EdgeRef) : g.setEdge r (g.edge r) = g := by
  have hedge : (g.setEdge r (g.edge r)).edge = g.edge := by
    funext r'
    by_cases hr : r' = r
    · rw [hr, setEdge_edge_self]
    · rw [setEdge_edge_of_ne g _ hr]
  exact congrArg (fun edge => { g with edge := edge }) hedge

/-- **What is between two IDs when the first edge with a property is written**, without a change
of its identity. -/
theorem Inv.between_setEdge (h : Inv g) {fromID toID : String} {p : Edge → Prop} [DecidablePred p]
    {f : Edge → Edge} (hf : ∀ e, keyOf (f e) = keyOf e) {r : EdgeRef}
    (hr : g.firstEdge fromID toID p = some r) (new : Option Edge) (i : String × String) :
    (g.setEdge r (f (g.edge r))).between i.1 i.2 =
      if i = (fromID, toID) then (g.between fromID toID).upsert p f new
      else g.between i.1 i.2 := by
  obtain ⟨-, hfrom, hto, -⟩ := h.of_firstEdge hr
  have hkeep : ∀ r', ((g.setEdge r (f (g.edge r))).edge r').toID = (g.edge r').toID := by
    intro r'
    by_cases hr' : r' = r
    · rw [hr', setEdge_edge_self]
      exact congrArg EdgeKey.toID (hf (g.edge r))
    · rw [setEdge_edge_of_ne g _ hr']
  have hfilter : ∀ id t, (g.setEdge r (f (g.edge r))).between id t =
      ((g.getOutEdges id).filter fun r' => (g.edge r').toID = t).map
        (g.setEdge r (f (g.edge r))).edge := by
    intro id t
    rw [between, edgesAt, List.filter_map]
    refine congrArg (List.map _) (List.filter_congr fun r' _ => ?_)
    rw [Function.comp_apply, hkeep]
  have hold : ∀ id t, g.between id t =
      ((g.getOutEdges id).filter fun r' => (g.edge r').toID = t).map g.edge :=
    fun id t => List.filter_map ..
  rw [hfilter]
  split_ifs with hi
  · subst hi
    rw [hold]
    refine List.map_update_eq_upsert ((h.edges.nodup_getOutEdges fromID).filter _) ?_ new
    rw [List.find?_filter, ← hr, firstEdge]
    refine congrArg (fun q => List.find? q _) (funext fun r' => ?_)
    simp
  · rw [hold]
    refine List.map_congr_left fun r' hr' => setEdge_edge_of_ne g _ ?_
    rintro rfl
    obtain ⟨hmem, hto'⟩ := List.mem_filter.mp hr'
    refine hi (Prod.ext ?_ ?_)
    · exact (h.edges.mem_getOutEdges.mp hmem).1.symm.trans hfrom
    · exact (of_decide_eq_true hto').symm.trans hto

theorem Inv.edgesAt_putEdge (h : Inv g) {e : Edge} (hnew : ¬g.HasEdge (keyOf e)) (id : String) :
    (g.putEdge e).edgesAt id = if id = e.fromID then g.edgesAt id ++ [e] else g.edgesAt id := by
  have h' := h.newEdge e
  have hout : (g.newEdge e).2.outTables = g.outTables := rfl
  have hself : (g.newEdge e).2.edge (g.newEdge e).1 = e := if_pos rfl
  have hlist : ∀ id, (g.putEdge e).getOutEdges id =
      if id = e.fromID then g.getOutEdges id ++ [⟨g.nextEdge⟩] else g.getOutEdges id := by
    intro id
    rw [Graph.putEdge, addEdge_eq, Graph.addIn, getOutEdges_eq, outTables_modifyIn, Graph.addOut,
      hself, outTables_modifyOut, Buckets.sliceAt_write fun _ hk => Buckets.slice_add_of_ne _ _ _ hk, hout]
    split_ifs with hid
    · subst hid
      rw [Buckets.slice_add, if_pos rfl]
      have hpos : (g.outTables (shardIdx e.fromID)).pos? e.fromID (keyOf e) = none := by
        refine (((Buckets.sharded_iff.mp h.edges.out).exact _ _).lookup_eq_none trivial).mpr ?_
        intro r hr hk
        exact hnew ⟨g.edge r, (h.edges.mem_getOutEdges.mp hr).2.storedEdge, hk⟩
      have hkey : (g.newEdge e).2.edgeKeyOf (g.newEdge e).1 = keyOf e := congrArg keyOf hself
      rw [hkey, hpos]
      rfl
    · rfl
  have hedge : (g.putEdge e).edge = (g.newEdge e).2.edge := (EdgeTablesOnly.addEdge ..).edge
  have hold : (g.getOutEdges id).map (g.newEdge e).2.edge = g.edgesAt id := by
    refine List.map_congr_left fun r hr => if_neg ?_
    rintro rfl
    exact absurd (h.edges.out_lt hr) (lt_irrefl _)
  rw [edgesAt, hlist, hedge]
  split_ifs
  · rw [List.map_append, hold]
    exact congrArg (fun e' => g.edgesAt id ++ [e']) hself
  · exact hold

/-- **What is between two IDs when an edge of a new identity is added.** -/
theorem Inv.between_putEdge (h : Inv g) {e : Edge} (hnew : ¬g.HasEdge (keyOf e))
    (i : String × String) :
    (g.putEdge e).between i.1 i.2 =
      if i = (e.fromID, e.toID) then g.between e.fromID e.toID ++ [e] else g.between i.1 i.2 := by
  rw [between, h.edgesAt_putEdge hnew]
  by_cases hfrom : i.1 = e.fromID
  · rw [if_pos hfrom, List.filter_append]
    by_cases hto : i.2 = e.toID
    · rw [if_pos (Prod.ext hfrom hto), hfrom, hto, List.filter_singleton, decide_eq_true rfl]
      rfl
    · rw [if_neg fun hi => hto (congrArg Prod.snd hi), List.filter_singleton,
        decide_eq_false (Ne.symm hto)]
      exact List.append_nil _
  · rw [if_neg hfrom, if_neg fun hi => hfrom (congrArg Prod.fst hi)]
    rfl

/-- **An appended edge**, where no edge between its ends has a property that its kind decides. -/
theorem Inv.between_putEdge_of_none (h : Inv g) {p : Edge → Prop} [DecidablePred p]
    {f : Edge → Edge} {e : Edge} (hkind : ∀ e', e'.kind = e.kind → p e')
    (hnone : g.firstEdge e.fromID e.toID p = none) (i : String × String) :
    (g.putEdge e).between i.1 i.2 =
      if i = (e.fromID, e.toID) then (g.between e.fromID e.toID).upsert p f (some e)
      else g.between i.1 i.2 := by
  have hnone' := firstEdge_eq_none.mp hnone
  rw [h.between_putEdge, List.upsert_of_forall hnone']
  · rfl
  · rintro ⟨e', he', hk⟩
    have hmem : e' ∈ g.between e.fromID e.toID :=
      h.mem_between.mpr ⟨he', congrArg EdgeKey.fromID hk, congrArg EdgeKey.toID hk⟩
    exact hnone' e' hmem (hkind e' (congrArg EdgeKey.kind hk))

end Graph

/-! ### Refuting an edge -/

namespace Semantic

open Graph

variable {g : Graph} {e : Edge}

/-- **A refuted edge is removed, and no other**: what is stored afterwards on either side are the
edges of another identity, with the contents they had. -/
structure RefutesExactly (g : Graph) (e : Edge) : Prop where
  removed : (refuteEdge g e).2 = true
  out : ∀ r, (refuteEdge g e).1.StoredOut r ↔ g.StoredOut r ∧ g.edgeKeyOf r ≠ keyOf e
  inn : ∀ r, (refuteEdge g e).1.StoredIn r ↔ g.StoredIn r ∧ g.edgeKeyOf r ≠ keyOf e
  kept : (refuteEdge g e).1.edge = g.edge

/-- No edge with the ends and the kind of the edge stands before it in its bucket. -/
def FirstOfKind (g : Graph) (e : Edge) : Prop :=
  ∀ e' ∈ (g.edgesAt e.fromID).takeWhile fun e' => !decide (keyOf e' = keyOf e),
    ¬(e'.toID = e.toID ∧ e'.kind = e.kind)

/-- **What RemoveEdge does to the edge it finds**: it takes the edges of its identity off both
sides. -/
theorem removeEdge_of_found (h : Inv g) {r₀ : EdgeRef}
    (hr₀ : findMatchingEdge g e.fromID e.toID e.kind = some r₀) :
    (refuteEdge g e).2 = true ∧
      (∀ r, (refuteEdge g e).1.StoredOut r ↔ g.StoredOut r ∧ g.edgeKeyOf r ≠ g.edgeKeyOf r₀) ∧
      (∀ r, (refuteEdge g e).1.StoredIn r ↔ g.StoredIn r ∧ g.edgeKeyOf r ≠ g.edgeKeyOf r₀) ∧
      (refuteEdge g e).1.edge = g.edge := by
  obtain ⟨-, hfrom, hto, -⟩ := h.of_firstEdge (p := fun e' => e'.kind = e.kind) hr₀
  have hremove : refuteEdge g e = ((g.removeOut e.fromID (g.edgeKeyOf r₀)).removeIn e.toID
      (g.edgeKeyOf r₀), true) := by
    rw [refuteEdge, Graph.removeEdge]
    simp only [findMatchingEdge] at hr₀
    rw [hr₀]
  have hg := edgeInv_iff.mp h.edges
  have hkey := (EdgeTablesOnly.removeOut g e.fromID (g.edgeKeyOf r₀)).edgeKeyOf
  rw [hremove]
  refine ⟨rfl, fun r => ?_, fun r => ?_, ?_⟩
  · rw [Graph.removeIn, storedOut_modifyIn]
    exact hg.storedOut_removeOut e.fromID (g.edgeKeyOf r₀) hfrom trivial
  · rw [(hg.toEdgeBaseOn.removeOut e.fromID (g.edgeKeyOf r₀)).storedIn_removeIn e.toID
      (g.edgeKeyOf r₀) hto trivial, hkey, Graph.removeOut, storedIn_modifyOut]
  · exact ((EdgeTablesOnly.removeOut ..).trans (EdgeTablesOnly.removeIn ..)).edge

/-- **Refuting an edge removes that edge, exactly if no edge with its ends and its kind stands
before it** in the bucket of its source. -/
theorem refutesExactly_iff (h : Inv g) (he : g.StoredEdge e) :
    RefutesExactly g e ↔ FirstOfKind g e := by
  obtain ⟨r, hr, rfl⟩ := he
  have hmem : r ∈ g.getOutEdges (g.edge r).fromID := hr
  have hfirst : FirstOfKind g (g.edge r) ↔
      findMatchingEdge g (g.edge r).fromID (g.edge r).toID (g.edge r).kind = some r := by
    rw [findMatchingEdge, List.find?_eq_some_iff_takeWhile hmem (by simp)
      (q := fun r' => decide (g.edgeKeyOf r' = g.edgeKeyOf r))]
    · rw [FirstOfKind, edgesAt, List.takeWhile_map, List.forall_mem_map]
      simp only [decide_eq_false_iff_not]
      rfl
    · intro r' hr'
      rw [decide_eq_true_iff]
      refine ⟨fun hk => ?_, fun hk => by rw [hk]⟩
      exact h.edges.eq_of_key (h.edges.mem_getOutEdges.mp hr').2 hr hk
  rw [hfirst]
  constructor
  · intro hexact
    -- something is removed, so something is found, and it has the identity of the edge
    cases hfound : findMatchingEdge g (g.edge r).fromID (g.edge r).toID (g.edge r).kind with
    | none =>
      exact absurd (List.find?_eq_none.mp hfound r hmem) (by simp)
    | some r₀ =>
      obtain ⟨-, hout, -⟩ := removeEdge_of_found h hfound
      have hgone : ¬(refuteEdge g (g.edge r)).1.StoredOut r := fun hst =>
        ((hexact.out r).mp hst).2 rfl
      rw [hout, not_and, not_not] at hgone
      have hst₀ := (h.of_firstEdge (p := fun e' => e'.kind = (g.edge r).kind) hfound).1
      rw [h.edges.eq_of_key hr hst₀ (hgone hr)]
  · intro hfound
    obtain ⟨hremoved, hout, hinn, hkept⟩ := removeEdge_of_found h hfound
    exact ⟨hremoved, hout, hinn, hkept⟩

namespace TwoCalls

/-- A call at a line. -/
def call (line : ℤ) : Edge where
  fromID := "a.go::Foo"
  toID := "b.go::Bar"
  kind := .edgeCalls
  filePath := "a.go"
  line := line

/-- A function that calls another one at two lines. -/
def graph : Graph := (Graph.new.putEdge (call 3)).putEdge (call 7)

theorem inv_graph : Inv graph := (Inv.new.putEdge _).putEdge _

theorem storedEdge_graph (line : ℤ) (h : line = 3 ∨ line = 7) : graph.StoredEdge (call line) := by
  have hadd := (Inv.new.putEdge (call 3)).storedEdge_putEdge (call 7) (call line)
  rcases h with rfl | rfl
  · refine hadd.mpr (.inr ⟨?_, by decide⟩)
    exact (Inv.new.storedEdge_putEdge (call 3) (call 3)).mpr (.inl rfl)
  · exact hadd.mpr (.inl rfl)

/-- The first call can be refuted. -/
theorem refutesExactly_first : RefutesExactly graph (call 3) := by
  refine (refutesExactly_iff inv_graph (storedEdge_graph 3 (.inl rfl))).mpr ?_
  unfold FirstOfKind
  decide +kernel

/-- **Refuting the second call removes the first one.** -/
theorem not_refutesExactly : ¬RefutesExactly graph (call 7) := by
  intro h
  have hkept : (refuteEdge graph (call 7)).1.StoredOut ⟨0⟩ :=
    (h.out ⟨0⟩).mpr ⟨by decide +kernel, by decide +kernel⟩
  exact absurd hkept (by decide +kernel)

end TwoCalls

end Semantic

end Gortex
