import Gortex.Lib.Fold
import Gortex.Query.Traversal

/-!
# The edges of an answer

Which edges the neighbourhood queries report. `getFileSymbols` collects both adjacency
lists of every node of a file and keeps the first edge of each `dedupKey`, source, target
and kind. A traversal appends, for every ID it expands, the edges at the ID that lead on;
an edge that leads to an unresolved or external ID is passed over, and one between two
expanded IDs is appended from both.

So no query invents an edge. The file queries report an edge once if no other one has its
`dedupKey` (`Gortex.FileEdges`); the cluster reports an edge that leads on, and reports it
once if one end only is expanded (`Gortex.ClusterEdges`).
-/

namespace Gortex

open GoString

/-- The symbols of a file that belong to a repository, with their edges. -/
def getFileSymbolsInRepo (g : Graph) (filePath repoPrefix : String) : SubGraph :=
  let sg := getFileSymbols g filePath
  let nodes := sg.nodes.filter fun r => (g.node r).repoPrefix = repoPrefix
  let nodeSet := nodes.map g.idOf
  let edges := sg.edges.filter fun r => (g.edge r).fromID ∈ nodeSet ∨ (g.edge r).toID ∈ nodeSet
  { nodes := nodes
    edges := dedup g edges
    totalNodes := nodes.length
    totalEdges := edges.length }

/-! ### Incident edges -/

/-- A stored edge with one of the IDs at one of its ends. -/
def Graph.Incident (g : Graph) (ids : List String) (r : EdgeRef) : Prop :=
  g.StoredOut r ∧ ((g.edge r).fromID ∈ ids ∨ (g.edge r).toID ∈ ids)

/-- How often an answer lists the identity of an edge. -/
def SubGraph.listings (g : Graph) (sg : SubGraph) (r : EdgeRef) : ℕ :=
  (sg.edges.map g.edgeKeyOf).count (g.edgeKeyOf r)

/-- **The edges of an answer are faithful** to some nodes: each stored edge that is incident
to them is listed once, nothing else is, and the total is the number of edges. -/
def Faithful (g : Graph) (ids : List String) (sg : SubGraph) : Prop :=
  (∀ r, g.Incident ids r → sg.listings g r = 1) ∧ (∀ r ∈ sg.edges, g.Incident ids r) ∧
    sg.totalEdges = sg.edges.length

/-- The edges in the two adjacency lists of an ID. -/
def Graph.edgesOf (g : Graph) (id : String) : List EdgeRef := g.getOutEdges id ++ g.getInEdges id

variable {g : Graph}

theorem Graph.EdgeInv.mem_edgesOf (hg : Graph.EdgeInv g) {id : String} {r : EdgeRef} :
    r ∈ g.edgesOf id ↔ g.StoredOut r ∧ ((g.edge r).fromID = id ∨ (g.edge r).toID = id) := by
  rw [Graph.edgesOf, List.mem_append, hg.mem_getOutEdges, hg.mem_getInEdges, ← hg.both,
    ← or_and_right, and_comm]

/-- The edges of some nodes are the incident ones. -/
theorem Graph.EdgeInv.mem_flatMap_edgesOf (hg : Graph.EdgeInv g) {ids : List String} {r : EdgeRef} :
    r ∈ ids.flatMap g.edgesOf ↔ g.Incident ids r := by
  rw [List.mem_flatMap, Graph.Incident]
  constructor
  · rintro ⟨id, hid, hr⟩
    obtain ⟨hst, hend⟩ := hg.mem_edgesOf.mp hr
    refine ⟨hst, hend.imp (fun h => ?_) fun h => ?_⟩
    · rwa [h]
    · rwa [h]
  · rintro ⟨hst, hid | hid⟩
    · exact ⟨_, hid, hg.mem_edgesOf.mpr ⟨hst, Or.inl rfl⟩⟩
    · exact ⟨_, hid, hg.mem_edgesOf.mpr ⟨hst, Or.inr rfl⟩⟩

/-- **A listing is a pointer**, where all edges are stored. -/
theorem Graph.EdgeInv.listings_eq (hg : Graph.EdgeInv g) {sg : SubGraph}
    (hst : ∀ r ∈ sg.edges, g.StoredOut r) {r : EdgeRef} (hr : g.StoredOut r) :
    sg.listings g r = sg.edges.count r := by
  unfold SubGraph.listings List.count
  rw [List.countP_map]
  refine List.countP_congr fun r' hr' => ?_
  simp only [Function.comp_apply, beq_iff_eq]
  exact ⟨fun hk => hg.eq_of_key (hst r' hr') hr hk, fun h => h ▸ rfl⟩

/-! ### The file queries -/

/-- **The edges of a file query** over the nodes `ids` of the nodes `file`: incident ones,
none twice, and an incident one whose `dedupKey` no other edge of the file has once. -/
structure FileEdges (g : Graph) (file ids : List String) (sg : SubGraph) : Prop where
  incident : ∀ r ∈ sg.edges, g.Incident ids r
  le_one : ∀ r, sg.listings g r ≤ 1
  once : ∀ r, g.Incident ids r →
    (∀ r', g.Incident file r' → dedupKey (g.edge r') = dedupKey (g.edge r) →
      g.edgeKeyOf r' = g.edgeKeyOf r) → sg.listings g r = 1

/-- The `dedupKey` of an edge, as it is read from the graph. -/
def Graph.dedupKeyOf (g : Graph) (r : EdgeRef) : String := dedupKey (g.edge r)

theorem dedup_eq (g : Graph) (edges : List EdgeRef) : dedup g edges = edges.firsts g.dedupKeyOf :=
  rfl

theorem dedupKeyOf_of_key {r r' : EdgeRef} (h : g.edgeKeyOf r = g.edgeKeyOf r') :
    g.dedupKeyOf r = g.dedupKeyOf r' := by
  have hfrom : (g.edge r).fromID = (g.edge r').fromID := congrArg EdgeKey.fromID h
  have hto : (g.edge r).toID = (g.edge r').toID := congrArg EdgeKey.toID h
  have hkind : (g.edge r).kind = (g.edge r').kind := congrArg EdgeKey.kind h
  unfold Graph.dedupKeyOf dedupKey
  rw [hfrom, hto, hkind]

/-- Edges of distinct `dedupKey`s have distinct identities. -/
theorem nodup_edgeKeyOf {l : List EdgeRef} (h : (l.map g.dedupKeyOf).Nodup) :
    (l.map g.edgeKeyOf).Nodup := by
  have hp : l.Pairwise fun r r' => g.dedupKeyOf r ≠ g.dedupKeyOf r' := List.pairwise_map.mp h
  exact List.pairwise_map.mpr (hp.imp fun hne hk => hne (dedupKeyOf_of_key hk))

/-- **What `dedup` makes of incident edges.** -/
theorem fileEdges_dedup (hg : Graph.EdgeInv g) {file ids : List String} {edges : List EdgeRef}
    (hmem : ∀ r ∈ edges, g.Incident ids r) (hsub : ids ⊆ file)
    (hall : ∀ r, g.Incident ids r →
      (∀ r', g.Incident file r' → g.dedupKeyOf r' = g.dedupKeyOf r →
        g.edgeKeyOf r' = g.edgeKeyOf r) → r ∈ edges)
    {sg : SubGraph} (hsg : sg.edges = dedup g edges) : FileEdges g file ids sg := by
  rw [dedup_eq] at hsg
  have hinc : ∀ r ∈ sg.edges, g.Incident ids r := fun r hr => by
    rw [hsg] at hr
    exact hmem r ((List.firsts_sublist g.dedupKeyOf edges).subset hr)
  have hnodup : (sg.edges.map g.edgeKeyOf).Nodup := by
    rw [hsg]
    exact nodup_edgeKeyOf (List.nodup_map_firsts g.dedupKeyOf edges)
  refine ⟨hinc, fun r => List.nodup_iff_count_le_one.mp hnodup _, fun r hr hown => ?_⟩
  refine List.count_eq_one_of_mem hnodup (List.mem_map_of_mem ?_)
  rw [hsg]
  refine List.mem_firsts g.dedupKeyOf (hall r hr hown) fun r' hr' hkey => ?_
  have hinc' := hmem r' hr'
  exact hg.eq_of_key hinc'.1 hr.1
    (hown r' ⟨hinc'.1, hinc'.2.imp (fun h => hsub h) fun h => hsub h⟩ hkey)

/-- What `getFileSymbols` collects. -/
theorem getFileSymbols_edges (g : Graph) (filePath : String) :
    (getFileSymbols g filePath).edges =
      dedup g (((getFileSymbols g filePath).nodes.map g.idOf).flatMap g.edgesOf) := by
  rw [List.flatMap_map]
  rfl

theorem fileEdges_getFileSymbols (hg : Graph.EdgeInv g) (filePath : String) :
    FileEdges g ((getFileSymbols g filePath).nodes.map g.idOf)
      ((getFileSymbols g filePath).nodes.map g.idOf) (getFileSymbols g filePath) :=
  fileEdges_dedup hg (fun _ hr => hg.mem_flatMap_edgesOf.mp hr) (List.Subset.refl _)
    (fun _ hr _ => hg.mem_flatMap_edgesOf.mpr hr) (getFileSymbols_edges g filePath)

/-- The total counts what is collected, and that is what is returned where no two of the
collected edges share a `dedupKey`. -/
theorem getFileSymbols_totalEdges {filePath : String}
    (h : ((((getFileSymbols g filePath).nodes.map g.idOf).flatMap g.edgesOf).map
      g.dedupKeyOf).Nodup) :
    (getFileSymbols g filePath).totalEdges = (getFileSymbols g filePath).edges.length := by
  rw [getFileSymbols_edges, dedup_eq, List.firsts_eq_self g.dedupKeyOf h, List.flatMap_map]
  rfl

/-- The edges at the repository's nodes are picked from those of the file. -/
theorem fileEdges_getFileSymbolsInRepo (hg : Graph.EdgeInv g) (filePath repoPrefix : String) :
    FileEdges g ((getFileSymbols g filePath).nodes.map g.idOf)
      ((getFileSymbolsInRepo g filePath repoPrefix).nodes.map g.idOf)
      (getFileSymbolsInRepo g filePath repoPrefix) := by
  have hfile := fileEdges_getFileSymbols hg filePath
  have hsub : (getFileSymbolsInRepo g filePath repoPrefix).nodes.map g.idOf ⊆
      (getFileSymbols g filePath).nodes.map g.idOf :=
    ((List.filter_sublist).map g.idOf).subset
  refine fileEdges_dedup hg (fun r hr => ?_) hsub (fun r hr hown => ?_) rfl
  · obtain ⟨hr, hend⟩ := List.mem_filter.mp hr
    exact ⟨(hfile.incident r hr).1, of_decide_eq_true hend⟩
  · refine List.mem_filter.mpr ⟨?_, decide_eq_true hr.2⟩
    have hr' : g.Incident ((getFileSymbols g filePath).nodes.map g.idOf) r :=
      ⟨hr.1, hr.2.imp (fun h => hsub h) fun h => hsub h⟩
    -- what is listed once is listed
    have hone := hfile.once r hr' hown
    have hpos : 0 < (getFileSymbols g filePath).listings g r := by omega
    obtain ⟨r', hin, hkey⟩ := List.mem_map.mp (List.count_pos_iff.mp hpos)
    rwa [← hg.eq_of_key (hfile.incident r' hin).1 hr.1 hkey]

/-- **The total of the repository's query** is the number of edges it returns: those of the
file have distinct `dedupKey`s already. -/
theorem getFileSymbolsInRepo_totalEdges (g : Graph) (filePath repoPrefix : String) :
    (getFileSymbolsInRepo g filePath repoPrefix).totalEdges =
      (getFileSymbolsInRepo g filePath repoPrefix).edges.length := by
  have hnodup : (((getFileSymbols g filePath).edges).map g.dedupKeyOf).Nodup :=
    List.nodup_map_firsts g.dedupKeyOf _
  have hself : ∀ p : EdgeRef → Bool, dedup g ((getFileSymbols g filePath).edges.filter p) =
      (getFileSymbols g filePath).edges.filter p := fun p =>
    List.firsts_eq_self g.dedupKeyOf (hnodup.sublist ((List.filter_sublist).map _))
  exact congrArg List.length (hself _).symm

/-! ### The cluster -/

/-- The IDs whose edges the loop of a traversal looks at, in the order it does. -/
def bfsExpanded (g : Graph) (w : Walk) (hops limit : ℕ) : ℕ → BfsState → List String
  | 0, _ => []
  | fuel + 1, s =>
    match s.queue with
    | [] => []
    | cur :: rest =>
      (if hops ≤ cur.2 then [] else [cur.1]) ++
        bfsExpanded g w hops limit fuel (bfsItem g w hops limit cur { s with queue := rest })

/-- **The nodes a traversal expands.** -/
def expandedIDs (g : Graph) (nodeID : String) (opts : QueryOptions) (w : Walk) : List String :=
  bfsExpanded g w opts.hops opts.maxNodes (opts.maxNodes + 1) (bfsInit g nodeID)

/-- The edges of an ID that a traversal follows. -/
def Walk.followed (g : Graph) (w : Walk) (id : String) : List EdgeRef :=
  (w.edgesAt g id).filter fun r => (w.target g id r).isSome

theorem allEdges_bfsEdge (g : Graph) (w : Walk) (limit : ℕ) (id : String) (depth : ℕ) (s : BfsState)
    (r : EdgeRef) : (bfsEdge g w limit id depth s r).allEdges =
      s.allEdges ++ [r].filter fun r => (w.target g id r).isSome := by
  unfold bfsEdge
  rw [List.filter_singleton]
  unfold Walk.target
  cases w.neighbor id (g.edge r) with
  | none => simp
  | some b =>
    simp only [Option.filter_some]
    by_cases hskip : hasPrefix b "unresolved::" = true ∨ hasPrefix b "external::" = true
    · have hno : decide (¬Skipped b) = false := decide_eq_false (not_not.mpr hskip)
      rw [if_pos hskip, hno]
      simp
    · have hyes : decide (¬Skipped b) = true := decide_eq_true hskip
      rw [if_neg hskip, hyes, if_pos rfl]
      by_cases hseen : b ∈ s.visited
      · rw [if_pos hseen]
        simp
      · rw [if_neg hseen]
        cases g.getNode b with
        | none => simp
        | some n =>
          simp only
          split_ifs <;> simp

theorem allEdges_foldl_bfsEdge (g : Graph) (w : Walk) (limit : ℕ) (id : String) (depth : ℕ)
    (l : List EdgeRef) (s : BfsState) :
    (l.foldl (bfsEdge g w limit id depth) s).allEdges =
      s.allEdges ++ l.filter fun r => (w.target g id r).isSome := by
  induction l generalizing s with
  | nil => exact (List.append_nil _).symm
  | cons r l ih =>
    rw [List.foldl_cons, ih, allEdges_bfsEdge, List.append_assoc, ← List.filter_append,
      List.singleton_append]

/-- **What a traversal reports**: the edges it follows, for every ID it expands. -/
theorem allEdges_bfsLoop (g : Graph) (w : Walk) (hops limit : ℕ) (fuel : ℕ) (s : BfsState) :
    (bfsLoop g w hops limit fuel s).allEdges =
      s.allEdges ++ (bfsExpanded g w hops limit fuel s).flatMap (w.followed g) := by
  induction fuel generalizing s with
  | zero => exact (List.append_nil _).symm
  | succ fuel ih =>
    unfold bfsLoop bfsExpanded
    cases s.queue with
    | nil => exact (List.append_nil _).symm
    | cons cur rest =>
      simp only
      rw [ih, List.flatMap_append, ← List.append_assoc]
      congr 1
      unfold bfsItem
      by_cases hdeep : hops ≤ cur.2
      · rw [if_pos hdeep, if_pos hdeep]
        exact (List.append_nil _).symm
      · rw [if_neg hdeep, if_neg hdeep, allEdges_foldl_bfsEdge, List.flatMap_singleton]
        rfl

/-- The expanded IDs are those of the search. -/
theorem bfsExpanded_eq (hg : Graph.NodeInv g) (w : Walk) (hops limit : ℕ) (fuel : ℕ)
    (s : BfsState) : bfsExpanded g w hops limit fuel s = Bfs.expanded hops
      (Bfs.trace (w.targets g) (stored g) hops limit fuel (s.search g)) := by
  induction fuel generalizing s with
  | zero => rfl
  | succ fuel ih =>
    have hqueue : (s.search g).queue = s.queue := rfl
    unfold bfsExpanded Bfs.trace
    rw [hqueue]
    cases hq : s.queue with
    | nil => rfl
    | cons cur rest =>
      have hitem : (bfsItem g w hops limit cur { s with queue := rest }).search g =
          Bfs.expand (w.targets g) (stored g) hops limit cur
            { s.search g with queue := rest } := search_bfsItem hg w hops limit cur _
      simp only
      rw [ih, hitem]
      unfold Bfs.expanded
      by_cases hdeep : hops ≤ cur.2
      · rw [if_pos hdeep, List.filter_cons_of_neg (by simpa using hdeep), List.nil_append]
      · rw [if_neg hdeep, List.filter_cons_of_pos (by simpa using hdeep), List.map_cons,
          List.singleton_append]

/-- **What is expanded**: the start and the nodes of the answer that leave a hop to go, once
each. -/
theorem mem_expandedIDs (hg : Graph.NodeInv g) (nodeID : String) (opts : QueryOptions) (w : Walk) :
    (expandedIDs g nodeID opts w).Nodup ∧ ∀ id, id ∈ expandedIDs g nodeID opts w ↔
      (id = nodeID ∨ id ∈ (bfs g nodeID opts w).2.nodes.map g.idOf) ∧
        ∃ m < opts.hops, Bfs.Hops (HopTo g w) nodeID m id := by
  have hinit : Bfs.Inv (w.targets g) (stored g) opts.hops opts.maxNodes nodeID [] [] 0
      (Bfs.init (stored g) nodeID) := Bfs.Inv.init opts.maxNodes_pos nodeID
  obtain ⟨h, hinv⟩ := hinit.loop (opts.maxNodes + 1)
  rw [List.nil_append, ← search_bfsWalk hg] at hinv
  have hqueue : ((bfsWalk g nodeID opts w).search g).queue = [] := bfsWalk_queue g nodeID opts w
  have hhop : Bfs.Hop (w.targets g) (stored g) = HopTo g w :=
    funext fun a => funext fun b => propext (hop_targets g w a b)
  have hspec := hinv.mem_expanded hqueue
  rw [hhop] at hspec
  rw [expandedIDs, bfsExpanded_eq hg, search_bfsInit hg]
  exact hspec

/-- A stored edge that leads from one of the IDs, either way, to an ID that is followed. -/
def Graph.LeadsOn (g : Graph) (ids : List String) (r : EdgeRef) : Prop :=
  g.StoredOut r ∧ (((g.edge r).fromID ∈ ids ∧ ¬Skipped (g.edge r).toID) ∨
    ((g.edge r).toID ∈ ids ∧ ¬Skipped (g.edge r).fromID))

/-- One end of the edge is among the IDs, and the other is not. -/
def Graph.OneEnd (g : Graph) (ids : List String) (r : EdgeRef) : Prop :=
  ¬((g.edge r).fromID ∈ ids ↔ (g.edge r).toID ∈ ids)

/-- **The edges of a cluster** around the expanded nodes: those that lead on, each one once
that has one end only among them. -/
structure ClusterEdges (g : Graph) (ids : List String) (sg : SubGraph) : Prop where
  mem_iff : ∀ r, r ∈ sg.edges ↔ g.LeadsOn ids r
  once : ∀ r, g.LeadsOn ids r → g.OneEnd ids r → sg.listings g r = 1
  totalEdges : sg.totalEdges = sg.edges.length

theorem mem_followed (hg : Graph.EdgeInv g) {id : String} {r : EdgeRef} :
    r ∈ Walk.bidir.followed g id ↔ g.StoredOut r ∧
      (((g.edge r).fromID = id ∧ ¬Skipped (g.edge r).toID) ∨
        ((g.edge r).toID = id ∧ ¬Skipped (g.edge r).fromID)) := by
  have htarget : ∀ r, (Walk.bidir.target g id r).isSome = true ↔
      if (g.edge r).fromID = id then ¬Skipped (g.edge r).toID
      else ¬Skipped (g.edge r).fromID := fun r => by
    unfold Walk.target Walk.neighbor
    by_cases hf : (g.edge r).fromID = id
    · simp [hf]
    · simp [hf]
  unfold Walk.followed
  rw [List.mem_filter, htarget]
  change r ∈ g.edgesOf id ∧ _ ↔ _
  rw [hg.mem_edgesOf, and_assoc]
  refine and_congr_right fun _ => ?_
  by_cases hf : (g.edge r).fromID = id
  · -- a self-loop is followed along, so both ends of it are the same ID
    rw [if_pos hf]
    constructor
    · exact fun h => Or.inl ⟨hf, h.2⟩
    · rintro (h | ⟨ht, h⟩)
      · exact ⟨Or.inl hf, h.2⟩
      · rw [ht, ← hf]
        exact ⟨Or.inl rfl, h⟩
  · rw [if_neg hf, or_iff_right hf, or_iff_right fun h => hf h.1]

/-- An edge with one end at the ID is in one of its adjacency lists, once. -/
theorem count_followed_le (hg : Graph.EdgeInv g) {id : String} {r : EdgeRef}
    (hends : ¬((g.edge r).fromID = id ∧ (g.edge r).toID = id)) :
    (Walk.bidir.followed g id).count r ≤ 1 := by
  have hout : (g.getOutEdges id).Nodup := by
    rw [Graph.getOutEdges_eq]
    exact (hg.out.exact _ _).nodup_map.of_map
  have hin : (g.getInEdges id).Nodup := by
    rw [Graph.getInEdges_eq]
    exact (hg.inn.exact _ _).nodup_map.of_map
  have hedges : (g.edgesOf id).count r ≤ 1 := by
    rw [Graph.edgesOf, List.count_append]
    by_cases hf : (g.edge r).fromID = id
    · have hnot : r ∉ g.getInEdges id := fun hc => hends ⟨hf, (hg.mem_getInEdges.mp hc).1⟩
      rw [List.count_eq_zero_of_not_mem hnot]
      exact List.nodup_iff_count_le_one.mp hout r
    · have hnot : r ∉ g.getOutEdges id := fun hc => hf (hg.mem_getOutEdges.mp hc).1
      rw [List.count_eq_zero_of_not_mem hnot, Nat.zero_add]
      exact List.nodup_iff_count_le_one.mp hin r
  exact ((List.filter_sublist).count_le r).trans hedges

theorem clusterEdges_getCluster (hg : Graph.Inv g) (nodeID : String) (opts : QueryOptions) :
    ClusterEdges g (expandedIDs g nodeID opts .bidir) (getCluster g nodeID opts).2 := by
  have hedges : (getCluster g nodeID opts).2.edges =
      (expandedIDs g nodeID opts .bidir).flatMap (Walk.bidir.followed g) :=
    allEdges_bfsLoop g .bidir _ _ _ _
  have hmem : ∀ r, r ∈ (getCluster g nodeID opts).2.edges ↔
      g.LeadsOn (expandedIDs g nodeID opts .bidir) r := fun r => by
    rw [hedges, List.mem_flatMap]
    simp only [mem_followed hg.edges]
    unfold Graph.LeadsOn
    constructor
    · rintro ⟨id, hid, hst, ⟨rfl, h⟩ | ⟨rfl, h⟩⟩
      · exact ⟨hst, Or.inl ⟨hid, h⟩⟩
      · exact ⟨hst, Or.inr ⟨hid, h⟩⟩
    · rintro ⟨hst, ⟨hid, h⟩ | ⟨hid, h⟩⟩
      · exact ⟨_, hid, hst, Or.inl ⟨rfl, h⟩⟩
      · exact ⟨_, hid, hst, Or.inr ⟨rfl, h⟩⟩
  refine ⟨hmem, fun r hr hone => ?_, rfl⟩
  rw [hg.edges.listings_eq (fun r' hr' => ((hmem r').mp hr').1) hr.1]
  have hin := (hmem r).mpr hr
  rw [hedges] at hin ⊢
  obtain ⟨id, hid, hfol⟩ := List.mem_flatMap.mp hin
  have hat := ((mem_followed hg.edges).mp hfol).2
  -- no other expanded ID is an end of the edge
  have honly : ∀ id' ∈ expandedIDs g nodeID opts .bidir,
      r ∈ Walk.bidir.followed g id' → id' = id := fun id' hid' hfol' => by
    unfold Graph.OneEnd at hone
    rcases hat with ⟨h, -⟩ | ⟨h, -⟩ <;>
      rcases ((mem_followed hg.edges).mp hfol').2 with ⟨h', -⟩ | ⟨h', -⟩
    · exact h'.symm.trans h
    · exact absurd (iff_of_true (h ▸ hid) (h' ▸ hid')) hone
    · exact absurd (iff_of_true (h' ▸ hid') (h ▸ hid)) hone
    · exact h'.symm.trans h
  have hends : ¬((g.edge r).fromID = id ∧ (g.edge r).toID = id) := fun h =>
    hone (by rw [h.1, h.2])
  rw [List.count_flatMap_of_only (mem_expandedIDs hg.nodes nodeID opts .bidir).1 hid honly]
  exact le_antisymm (count_followed_le hg.edges hends) (List.count_pos_iff.mpr hfol)

/-! ### What the queries report -/

/-- **The edges that neighbourhood queries report.** Those of a file query are incident to
its nodes, none comes twice, and each incident edge whose `dedupKey` no other edge of the
file has comes once; the total of the query over a repository is the number of its edges,
and so is that of the other one where nothing is collected twice. Those of a cluster are the
edges that lead on from an expanded node, each one once that has one expanded end, and the
total is their number. -/
theorem edges_reported (hg : Graph.Inv g) (filePath repoPrefix nodeID : String)
    (opts : QueryOptions) :
    (FileEdges g ((getFileSymbols g filePath).nodes.map g.idOf)
        ((getFileSymbols g filePath).nodes.map g.idOf) (getFileSymbols g filePath) ∧
      (((((getFileSymbols g filePath).nodes.map g.idOf).flatMap g.edgesOf).map
          fun r => dedupKey (g.edge r)).Nodup →
        (getFileSymbols g filePath).totalEdges = (getFileSymbols g filePath).edges.length)) ∧
    (FileEdges g ((getFileSymbols g filePath).nodes.map g.idOf)
        ((getFileSymbolsInRepo g filePath repoPrefix).nodes.map g.idOf)
        (getFileSymbolsInRepo g filePath repoPrefix) ∧
      (getFileSymbolsInRepo g filePath repoPrefix).totalEdges =
        (getFileSymbolsInRepo g filePath repoPrefix).edges.length) ∧
    ClusterEdges g (expandedIDs g nodeID opts .bidir) (getCluster g nodeID opts).2 :=
  ⟨⟨fileEdges_getFileSymbols hg.edges filePath, getFileSymbols_totalEdges⟩,
    ⟨fileEdges_getFileSymbolsInRepo hg.edges filePath repoPrefix,
      getFileSymbolsInRepo_totalEdges g filePath repoPrefix⟩,
    clusterEdges_getCluster hg nodeID opts⟩

namespace TwoSites

/-- A function that calls another one at two sites, and an unresolved one. -/
def graph : Graph :=
  let fn (id : String) : Node := { id := id, kind := .kindFunction, name := id, filePath := "a.go" }
  let call (toID : String) (line : ℕ) : Edge :=
    { fromID := "a.go::A", toID := toID, kind := .edgeCalls, filePath := "a.go", line := line }
  ((((Graph.new.putNode (fn "a.go::A")).putNode (fn "a.go::B")).putEdge
    (call "a.go::B" 3)).putEdge (call "a.go::B" 4)).putEdge (call "unresolved::C" 5)

theorem inv_graph : Graph.Inv graph :=
  ((((Graph.Inv.new.putNode _).putNode _).putEdge _).putEdge _).putEdge _

/-- The edges of the cluster of the function, for one hop. -/
theorem edges_reported_graph :
    ClusterEdges graph (expandedIDs graph "a.go::A" ⟨1, 0, "", ""⟩ .bidir)
        (getCluster graph "a.go::A" ⟨1, 0, "", ""⟩).2 ∧
      (getCluster graph "a.go::A" ⟨1, 0, "", ""⟩).2.totalEdges = 2 :=
  ⟨(edges_reported inv_graph "a.go" "" "a.go::A" ⟨1, 0, "", ""⟩).2.2, by decide +kernel⟩

/-- **The queries do not report every edge once**: those of the file keep one of the two
call sites, and count all that they have collected; the cluster passes over the unresolved
call, and over two hops reports each call from both of its ends. -/
theorem not_faithful :
    ¬Faithful graph ((getFileSymbols graph "a.go").nodes.map graph.idOf)
        (getFileSymbols graph "a.go") ∧
      (getFileSymbols graph "a.go").totalEdges ≠ (getFileSymbols graph "a.go").edges.length ∧
      ¬Faithful graph ((getFileSymbolsInRepo graph "a.go" "").nodes.map graph.idOf)
        (getFileSymbolsInRepo graph "a.go" "") ∧
      ¬Faithful graph (expandedIDs graph "a.go::A" ⟨1, 0, "", ""⟩ .bidir)
        (getCluster graph "a.go::A" ⟨1, 0, "", ""⟩).2 ∧
      ¬Faithful graph (expandedIDs graph "a.go::A" ⟨2, 0, "", ""⟩ .bidir)
        (getCluster graph "a.go::A" ⟨2, 0, "", ""⟩).2 := by
  have hinc : ∀ r ids, r ∈ graph.getOutEdges "a.go::A" → (graph.edge r).fromID = "a.go::A" →
      "a.go::A" ∈ ids → graph.Incident ids r := fun r ids hr hf hid =>
    ⟨by rwa [Graph.StoredOut, hf], Or.inl (hf ▸ hid)⟩
  refine ⟨fun h => ?_, by decide +kernel, fun h => ?_, fun h => ?_, fun h => ?_⟩
  · have h1 := h.1 ⟨1⟩ (hinc _ _ (by decide +kernel) (by decide +kernel) (by decide +kernel))
    revert h1
    decide +kernel
  · have h1 := h.1 ⟨1⟩ (hinc _ _ (by decide +kernel) (by decide +kernel) (by decide +kernel))
    revert h1
    decide +kernel
  · have h1 := h.1 ⟨2⟩ (hinc _ _ (by decide +kernel) (by decide +kernel) (by decide +kernel))
    revert h1
    decide +kernel
  · have h1 := h.1 ⟨1⟩ (hinc _ _ (by decide +kernel) (by decide +kernel) (by decide +kernel))
    revert h1
    decide +kernel

end TwoSites

end Gortex
