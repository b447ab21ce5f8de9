import Gortex.Daemon.Snapshot

/-!
# Loading what was saved

What `loadSnapshot` makes of a stream `saveSnapshot` wrote: the nodes, the
repositories and the contracts come back as they were, and the edges between the
nodes do. The edges to a target without a node – an import of a package outside the
repository, a call that is not resolved – are saved and not loaded
(`Gortex.not_loadSnapshot_saveSnapshot`): the loader takes them for damage.

Each section is a loop, and what a loop has loaded is stated for the records it has
read so far.
-/

namespace Gortex

open Graph

variable {β : Type}

/-! ### The stream that was written -/

/-- The state after the four sections, when all their records are read. -/
def loadAll (nodes : List Node) (edges : List Edge) (repos : List SnapshotRepo)
    (snapContracts : List SnapshotContract) : Loading :=
  let s := nodes.foldl Loading.addNode { graph := Graph.new }
  let s := edges.foldl Loading.addEdge s
  let s := repos.foldl Loading.addRepo s
  snapContracts.foldl Loading.addContract s

theorem body_encode (c : Codec β) {header : SnapshotHeader} {l : List β}
    (hv : header.schemaVersion = snapshotSchemaVersion) :
    (SnapshotFile.stream (c.header.encode header :: l)).body c = some (header, l) := by
  simp only [SnapshotFile.body, c.header.decode_encode, if_pos hv]

/-- A saved snapshot has all its records read. -/
theorem loadSnapshot_saveSnapshot_eq (c : Codec β) (ord : MapOrder) (g : Graph)
    (repos : List SnapshotRepo) (snapContracts : List SnapshotContract) (version : String) :
    loadSnapshot c Graph.new (.stream (saveSnapshot c ord g repos snapContracts version)) =
      validate (loadAll ((g.allNodes ord).map g.node) ((g.allEdges ord).map g.edge) repos
        snapContracts) := by
  simp only [saveSnapshot]
  rw [loadSnapshot_of_body (body_encode c rfl)]
  unfold readSections loadAll
  simp only [Int.toNat_natCast, readSection_encode_bind]
  rw [← List.append_nil (snapContracts.map c.contract.encode), readSection_encode]
  rfl

/-! ### The loops -/

/-- **After the nodes `L` are read**, none of them an absolute path. -/
structure NodesLoaded (L : List Node) (s : Loading) : Prop where
  inv : Inv s.graph
  nodeAt : ∀ id n, s.graph.nodeAt id = some n → n ∈ L ∧ id ≠ ""
  isSome : ∀ n ∈ L, n.id ≠ "" → (s.graph.nodeAt n.id).isSome
  edges : ∀ e, ¬s.graph.StoredEdge e
  loaded : ∀ id, id ∈ s.loadedIDs ↔ (s.graph.nodeAt id).isSome
  dropped : s.droppedNodes = []
  partially : s.isPartial = true ↔ ∃ n ∈ L, n.id = ""
  repos : s.repos = ∅
  contracts : s.contracts = ∅

theorem nodeAt_new (id : String) : Graph.new.nodeAt id = none := by
  simp [Graph.nodeAt, getNode, shardFor, Graph.new, newShard]

theorem not_storedEdge_new (e : Edge) : ¬Graph.new.StoredEdge e := by
  rintro ⟨r, hr, -⟩
  exact absurd hr List.not_mem_nil

theorem NodesLoaded.nil : NodesLoaded [] { graph := Graph.new } where
  inv := Inv.new
  nodeAt := fun id n hn => by
    rw [nodeAt_new] at hn
    cases hn
  isSome := fun n hn => absurd hn List.not_mem_nil
  edges := not_storedEdge_new
  loaded := fun id => by simp [nodeAt_new]
  dropped := rfl
  partially := by simp
  repos := rfl
  contracts := rfl

theorem NodesLoaded.concat {L : List Node} {s : Loading} (h : NodesLoaded L s) {n : Node}
    (hn : isStaleAbsPathID n.id = false) : NodesLoaded (L ++ [n]) (s.addNode n) := by
  -- a record without an ID is lost, the others are put in the graph
  by_cases hid : n.id = ""
  · have heq : s.addNode n = s.lose := if_pos hid
    rw [heq]
    refine ⟨h.inv, fun id m hm => ?_, fun m hm hne => ?_, h.edges, h.loaded, h.dropped, ?_, h.repos,
      h.contracts⟩
    · obtain ⟨hL, hne⟩ := h.nodeAt id m hm
      exact ⟨List.mem_append_left _ hL, hne⟩
    · rcases List.mem_append.mp hm with hm | hm
      · exact h.isSome m hm hne
      · rw [List.mem_singleton.mp hm] at hne
        exact absurd hid hne
    · exact iff_of_true rfl ⟨n, List.mem_append_right _ (List.mem_singleton_self n), hid⟩
  · have heq : s.addNode n =
        { s with graph := s.graph.putNode n, loadedIDs := n.id :: s.loadedIDs } := by
      unfold Loading.addNode
      rw [if_neg hid, if_neg (by rw [hn]; exact Bool.false_ne_true)]
    have hat := h.inv.nodes.nodeAt_putNode n
    rw [heq]
    refine ⟨h.inv.putNode n, fun id m hm => ?_, fun m hm hne => ?_, fun e he => ?_, fun id => ?_,
      h.dropped, ?_, h.repos, h.contracts⟩
    · rw [hat] at hm
      by_cases hi : id = n.id
      · rw [if_pos hi, Option.some.injEq] at hm
        exact ⟨List.mem_append_right _ (List.mem_singleton.mpr hm.symm), hi ▸ hid⟩
      · rw [if_neg hi] at hm
        obtain ⟨hL, hne⟩ := h.nodeAt id m hm
        exact ⟨List.mem_append_left _ hL, hne⟩
    · rw [hat]
      by_cases hi : m.id = n.id
      · rw [if_pos hi]
        rfl
      · rw [if_neg hi]
        refine h.isSome m ((List.mem_append.mp hm).resolve_right fun hc => hi ?_) hne
        rw [List.mem_singleton.mp hc]
    · rw [storedEdge_putNode] at he
      exact h.edges e he
    · rw [hat, List.mem_cons, h.loaded]
      by_cases hi : id = n.id
      · rw [if_pos hi]
        exact iff_of_true (Or.inl hi) rfl
      · rw [if_neg hi, or_iff_right hi]
    · rw [show ({ s with graph := s.graph.putNode n, loadedIDs := n.id :: s.loadedIDs } :
        Loading).isPartial = s.isPartial from rfl, h.partially]
      simp [hid]

theorem nodesLoaded (L : List Node) (h : ∀ n ∈ L, isStaleAbsPathID n.id = false) :
    NodesLoaded L (L.foldl Loading.addNode { graph := Graph.new }) := by
  induction L using List.reverseRecOn with
  | nil => exact NodesLoaded.nil
  | append_singleton L n ih =>
    rw [List.foldl_append]
    exact (ih fun m hm => h m (List.mem_append_left _ hm)).concat
      (h n (List.mem_append_right _ (List.mem_singleton_self n)))

/-- **After the edges `L` are read** into `s₀`. -/
structure EdgesLoaded (L : List Edge) (s₀ s : Loading) : Prop where
  inv : Inv s.graph
  nodeAt : ∀ id, s.graph.nodeAt id = s₀.graph.nodeAt id
  loaded : s.loadedIDs = s₀.loadedIDs
  dropped : s.droppedNodes = s₀.droppedNodes
  stored : ∀ e, s.graph.StoredEdge e → e ∈ L ∧ e.fromID ∈ s₀.loadedIDs ∧ e.toID ∈ s₀.loadedIDs
  hasEdge : ∀ e ∈ L, e.fromID ∈ s₀.loadedIDs → e.toID ∈ s₀.loadedIDs → s.graph.HasEdge (keyOf e)
  partially : s.isPartial = s₀.isPartial
  repos : s.repos = s₀.repos
  contracts : s.contracts = s₀.contracts

theorem EdgesLoaded.nil {s : Loading} (h : Inv s.graph) (he : ∀ e, ¬s.graph.StoredEdge e) :
    EdgesLoaded [] s s :=
  ⟨h, fun _ => rfl, rfl, rfl, fun e hst => absurd hst (he e), fun _ hm => absurd hm List.not_mem_nil,
    rfl, rfl, rfl⟩

theorem EdgesLoaded.concat {L : List Edge} {s₀ s : Loading} (h : EdgesLoaded L s₀ s)
    (hdrop : s₀.droppedNodes = []) (e : Edge) : EdgesLoaded (L ++ [e]) s₀ (s.addEdge e) := by
  have hnot : ∀ id, id ∉ s.droppedNodes := fun id => by
    rw [h.dropped, hdrop]
    exact List.not_mem_nil
  by_cases hends : e.fromID ∈ s₀.loadedIDs ∧ e.toID ∈ s₀.loadedIDs
  · have heq : s.addEdge e = { s with graph := s.graph.putEdge e } := by
      unfold Loading.addEdge
      rw [if_neg (hnot _), if_neg (hnot _), h.loaded, if_neg (not_not.mpr hends.1),
        if_neg (not_not.mpr hends.2)]
    rw [heq]
    refine ⟨h.inv.putEdge e, fun id => (nodeAt_putEdge ..).trans (h.nodeAt id), h.loaded, h.dropped,
      fun e' he' => ?_, fun e' hm hf ht => ?_, h.partially, h.repos, h.contracts⟩
    · rcases (h.inv.storedEdge_putEdge e e').mp he' with rfl | ⟨he', -⟩
      · exact ⟨List.mem_append_right _ (List.mem_singleton_self _), hends⟩
      · obtain ⟨hL, hends'⟩ := h.stored e' he'
        exact ⟨List.mem_append_left _ hL, hends'⟩
    · rw [h.inv.hasEdge_putEdge]
      rcases List.mem_append.mp hm with hm | hm
      · exact Or.inr (h.hasEdge e' hm hf ht)
      · exact Or.inl (congrArg keyOf (List.mem_singleton.mp hm))
  · have heq : s.addEdge e = s := by
      unfold Loading.addEdge
      rw [if_neg (hnot _), if_neg (hnot _), h.loaded]
      by_cases hf : e.fromID ∈ s₀.loadedIDs
      · rw [if_neg (not_not.mpr hf), if_pos fun ht => hends ⟨hf, ht⟩]
      · rw [if_pos hf]
    rw [heq]
    refine ⟨h.inv, h.nodeAt, h.loaded, h.dropped, fun e' he' => ?_, fun e' hm hf ht => ?_,
      h.partially, h.repos, h.contracts⟩
    · obtain ⟨hL, hends'⟩ := h.stored e' he'
      exact ⟨List.mem_append_left _ hL, hends'⟩
    · rcases List.mem_append.mp hm with hm | hm
      · exact h.hasEdge e' hm hf ht
      · rw [List.mem_singleton.mp hm] at hf ht
        exact absurd ⟨hf, ht⟩ hends

theorem edgesLoaded (L : List Edge) {s : Loading} (hinv : Inv s.graph)
    (he : ∀ e, ¬s.graph.StoredEdge e) (hdrop : s.droppedNodes = []) :
    EdgesLoaded L s (L.foldl Loading.addEdge s) := by
  induction L using List.reverseRecOn with
  | nil => exact EdgesLoaded.nil hinv he
  | append_singleton L e ih =>
    rw [List.foldl_append]
    exact ih.concat hdrop e

/-- **After the repositories `L` are read** into `s₀`: of two of one prefix the later
stays. -/
structure ReposLoaded (L : List SnapshotRepo) (s₀ s : Loading) : Prop where
  graph : s.graph = s₀.graph
  repos : ∀ p, p ≠ "" → s.repos.lookup p =
    ((L.filter fun r => r.repoPrefix = p).getLast?).or (s₀.repos.lookup p)
  empty : s.repos.lookup "" = s₀.repos.lookup ""
  partially : s.isPartial = true ↔ s₀.isPartial = true ∨ ∃ r ∈ L, r.repoPrefix = ""
  contracts : s.contracts = s₀.contracts

theorem reposLoaded (L : List SnapshotRepo) (s : Loading) :
    ReposLoaded L s (L.foldl Loading.addRepo s) := by
  induction L using List.reverseRecOn with
  | nil => exact ⟨rfl, fun _ _ => rfl, rfl, by simp, rfl⟩
  | append_singleton L r ih =>
    rw [List.foldl_append]
    change ReposLoaded (L ++ [r]) s ((L.foldl Loading.addRepo s).addRepo r)
    generalize L.foldl Loading.addRepo s = t at ih
    have hpart := Loading.isPartial_addRepo t r
    by_cases hp : r.repoPrefix = ""
    · have heq : t.addRepo r = t.lose := if_pos hp
      rw [heq]
      refine ⟨ih.graph, fun p hne => ?_, ih.empty, ?_, ih.contracts⟩
      · have hr : r.repoPrefix ≠ p := fun hc => hne (hc.symm.trans hp)
        rw [List.filter_append]
        simpa [hr, Loading.lose] using ih.repos p hne
      · exact iff_of_true rfl (Or.inr ⟨r, List.mem_append_right _ (List.mem_singleton_self r), hp⟩)
    · have heq : t.addRepo r = { t with repos := t.repos.insert r.repoPrefix r } := if_neg hp
      rw [heq] at hpart ⊢
      refine ⟨ih.graph, fun p hne => ?_, ?_, ?_, ih.contracts⟩
      · rw [GoMap.lookup_insert, List.filter_append, ih.repos p hne]
        by_cases hr : r.repoPrefix = p
        · rw [if_pos hr.symm]
          simp [hr]
        · rw [if_neg (Ne.symm hr)]
          simp [hr]
      · rw [GoMap.lookup_insert, if_neg (Ne.symm hp), ih.empty]
      · rw [hpart, ih.partially, or_assoc]
        simp

/-- **After the contracts `L` are read** into `s₀`: those of a repository, in
order. -/
structure ContractsLoaded (L : List SnapshotContract) (s₀ s : Loading) : Prop where
  graph : s.graph = s₀.graph
  repos : s.repos = s₀.repos
  contracts : ∀ p, (s.contracts.lookup p).getD [] = (s₀.contracts.lookup p).getD [] ++
    (L.filter fun sc => sc.id ≠ "" ∧ sc.repoPrefix = p).map fromSnapshotContract
  partially : s.isPartial = true ↔ s₀.isPartial = true ∨ ∃ sc ∈ L, sc.id = ""

theorem contractsLoaded (L : List SnapshotContract) (s : Loading) :
    ContractsLoaded L s (L.foldl Loading.addContract s) := by
  induction L using List.reverseRecOn with
  | nil => exact ⟨rfl, rfl, fun _ => by simp, by simp⟩
  | append_singleton L sc ih =>
    rw [List.foldl_append]
    change ContractsLoaded (L ++ [sc]) s ((L.foldl Loading.addContract s).addContract sc)
    generalize L.foldl Loading.addContract s = t at ih
    have hpart := Loading.isPartial_addContract t sc
    by_cases hid : sc.id = ""
    · have heq : t.addContract sc = t.lose := if_pos hid
      rw [heq] at hpart ⊢
      refine ⟨ih.graph, ih.repos, fun p => ?_, ?_⟩
      · rw [List.filter_append]
        simpa [hid, Loading.lose] using ih.contracts p
      · exact iff_of_true rfl (Or.inr ⟨sc, List.mem_append_right _ (List.mem_singleton_self sc), hid⟩)
    · have heq : t.addContract sc =
          { t with
            contracts := t.contracts.insert sc.repoPrefix
              ((t.contracts.lookup sc.repoPrefix).getD [] ++ [fromSnapshotContract sc]) } :=
        if_neg hid
      rw [heq] at hpart ⊢
      refine ⟨ih.graph, ih.repos, fun p => ?_, ?_⟩
      · rw [GoMap.lookup_insert, List.filter_append]
        by_cases hp : p = sc.repoPrefix
        · rw [if_pos hp, ← hp, Option.getD_some, ih.contracts p]
          simp [hid, hp]
        · rw [if_neg hp, ih.contracts p]
          simp [hid, Ne.symm hp]
      · rw [hpart, ih.partially, or_assoc]
        simp

/-! ### The round trip -/

/-- The graph has a node of this ID, and the ID is not empty: an edge with two such
endpoints survives a restart. -/
def Graph.Known (g : Graph) (id : String) : Prop := id ≠ "" ∧ (g.nodeAt id).isSome

/-- **What a restart restores** of a graph, of the records of the repositories and
of those of the contracts. -/
structure Restored (g : Graph) (snapRepos : List SnapshotRepo)
    (snapContracts : List SnapshotContract) (r : SnapshotLoad) : Prop where
  nodes : ∀ id, r.graph.nodeAt id = if id = "" then none else g.nodeAt id
  stored : ∀ e, r.graph.StoredEdge e → g.StoredEdge e
  edges : ∀ k, r.graph.HasEdge k ↔ g.HasEdge k ∧ g.Known k.fromID ∧ g.Known k.toID
  repos : ∀ p, r.repos.lookup p =
    if p = "" then none else (snapRepos.filter fun r => r.repoPrefix = p).getLast?
  contracts : ∀ p, (r.contracts.lookup p).getD [] =
    (snapContracts.filter fun sc => sc.id ≠ "" ∧ sc.repoPrefix = p).map fromSnapshotContract
  loaded : r.loaded = true
  partially : r.isPartial = true ↔ (g.nodeAt "").isSome = true ∨
    (∃ r ∈ snapRepos, r.repoPrefix = "") ∨ ∃ sc ∈ snapContracts, sc.id = ""

/-- What the node section loads is what the graph stores. -/
theorem NodesLoaded.nodeAt_eq {g : Graph} (hg : Weak g) {ord : MapOrder} {s : Loading}
    (h : NodesLoaded ((g.allNodes ord).map g.node) s) (id : String) :
    s.graph.nodeAt id = if id = "" then none else g.nodeAt id := by
  have hmem : ∀ n, s.graph.nodeAt id = some n → g.nodeAt id = some n ∧ id ≠ "" := fun n hn => by
    obtain ⟨hL, hne⟩ := h.nodeAt id n hn
    have hn' := (hg.mem_allNodes ord).mp hL
    rw [h.inv.nodes.id_eq hn] at hn'
    exact ⟨hn', hne⟩
  by_cases hid : id = ""
  · rw [if_pos hid]
    exact Option.eq_none_iff_forall_ne_some.mpr fun n hn => (hmem n hn).2 hid
  · rw [if_neg hid]
    cases hn : s.graph.nodeAt id with
    | some n => exact (hmem n hn).1.symm
    | none =>
      refine (Option.eq_none_iff_forall_ne_some.mpr fun n hn' => ?_).symm
      obtain rfl := hg.nodes.id_eq hn'
      have := h.isSome n ((hg.mem_allNodes ord).mpr hn') hid
      rw [hn] at this
      cases this

theorem restored_loadAll {g : Graph} (hg : Weak g)
    (hids : ∀ id n, g.nodeAt id = some n → isStaleAbsPathID id = false) (ord : MapOrder)
    (repos : List SnapshotRepo) (snapContracts : List SnapshotContract) :
    Restored g repos snapContracts (validate (loadAll ((g.allNodes ord).map g.node)
      ((g.allEdges ord).map g.edge) repos snapContracts)) := by
  simp only [loadAll]
  -- nodes, edges, repositories and contracts are loaded in this order
  have h1 := nodesLoaded ((g.allNodes ord).map g.node) fun n hn =>
    hids n.id n ((hg.mem_allNodes ord).mp hn)
  have hat := h1.nodeAt_eq hg
  generalize ((g.allNodes ord).map g.node).foldl Loading.addNode { graph := Graph.new } = s₁ at *
  have h2 := edgesLoaded ((g.allEdges ord).map g.edge) h1.inv h1.edges h1.dropped
  generalize ((g.allEdges ord).map g.edge).foldl Loading.addEdge s₁ = s₂ at *
  have h3 := reposLoaded repos s₂
  generalize repos.foldl Loading.addRepo s₂ = s₃ at *
  have h4 := contractsLoaded snapContracts s₃
  generalize snapContracts.foldl Loading.addContract s₃ = s₄ at *
  have hgraph : s₄.graph = s₂.graph := h4.graph.trans h3.graph
  have hknown : ∀ id, id ∈ s₁.loadedIDs ↔ g.Known id := fun id => by
    rw [h1.loaded, hat, Known]
    by_cases hid : id = "" <;> simp [hid]
  refine ⟨fun id => ?_, fun e he => ?_, fun k => ?_, fun p => ?_, fun p => ?_, rfl, ?_⟩
  · change s₄.graph.nodeAt id = _
    rw [hgraph, h2.nodeAt, hat]
  · change s₄.graph.StoredEdge e at he
    rw [hgraph] at he
    exact (hg.mem_map_allEdges ord).mp (h2.stored e he).1
  · change s₄.graph.HasEdge k ↔ _
    rw [hgraph]
    constructor
    · rintro ⟨e, he, rfl⟩
      obtain ⟨hL, hf, ht⟩ := h2.stored e he
      exact ⟨((hg.mem_map_allEdges ord).mp hL).hasEdge, (hknown _).mp hf, (hknown _).mp ht⟩
    · rintro ⟨⟨e, he, rfl⟩, hf, ht⟩
      exact h2.hasEdge e ((hg.mem_map_allEdges ord).mpr he) ((hknown _).mpr hf) ((hknown _).mpr ht)
  · change s₄.repos.lookup p = _
    have hempty : ∀ p, s₂.repos.lookup p = none := fun p => by
      rw [h2.repos, h1.repos]
      rfl
    rw [h4.repos]
    by_cases hp : p = ""
    · rw [if_pos hp, hp, h3.empty, hempty]
    · rw [if_neg hp, h3.repos p hp, hempty, Option.or_none]
  · change (s₄.contracts.lookup p).getD [] = _
    rw [h4.contracts, h3.contracts, h2.contracts, h1.contracts]
    rfl
  · change s₄.isPartial = true ↔ _
    rw [h4.partially, h3.partially, h2.partially, h1.partially, or_assoc]
    refine or_congr_left ⟨?_, fun h => ?_⟩
    · rintro ⟨n, hn, hid⟩
      have hn' := (hg.mem_allNodes ord).mp hn
      rw [hid] at hn'
      rw [hn']
      rfl
    · obtain ⟨n, hn⟩ := Option.isSome_iff_exists.mp h
      have hid := hg.nodes.id_eq hn
      exact ⟨n, (hg.mem_allNodes ord).mpr (by rw [hid, hn]), hid⟩

/-- **The snapshot round trip**: of every reachable graph without absolute paths
for IDs, loading what was saved restores the nodes, the edges between nodes, the
repositories and the contracts, and is partial only if a record has no ID. -/
theorem loadSnapshot_saveSnapshot (c : Codec β) (ord : MapOrder) {g : Graph} (hg : g.Reachable)
    (hids : ∀ id n, g.nodeAt id = some n → isStaleAbsPathID id = false)
    (repos : List SnapshotRepo) (snapContracts : List SnapshotContract) (version : String) :
    Restored g repos snapContracts (loadSnapshot c Graph.new
      (.stream (saveSnapshot c ord g repos snapContracts version))) := by
  rw [loadSnapshot_saveSnapshot_eq]
  exact restored_loadAll hg.weak hids ord repos snapContracts

/-- A file that imports a package from outside the repository. -/
def importing : List Op :=
  [.addNode { id := "a.go", kind := .kindFile, name := "a.go", filePath := "a.go" },
    .addEdge { fromID := "a.go", toID := "external::fmt", kind := .edgeImports, filePath := "a.go",
               line := 3 }]

theorem run_importing :
    Run Op.Step Graph.new importing (importing.foldl Op.apply Graph.new) :=
  Run.cons ⟨trivial, rfl⟩ (Run.cons ⟨trivial, rfl⟩ (Run.nil _))

theorem not_isStaleAbsPathID_importing {id : String} {n : Node}
    (hn : (importing.foldl Op.apply Graph.new).nodeAt id = some n) :
    isStaleAbsPathID id = false := by
  have heq : (importing.foldl Op.apply Graph.new).nodeAt id = if id = "a.go" then _ else _ :=
    (nodeAt_putEdge ..).trans (NodeInv.new.nodeAt_putNode _ id)
  rw [heq, nodeAt_new] at hn
  by_cases hid : id = "a.go"
  · rw [hid]
    decide +kernel
  · rw [if_neg hid] at hn
    cases hn

/-- The round trip of the importing file. -/
theorem loadSnapshot_saveSnapshot_importing :
    Restored (importing.foldl Op.apply Graph.new) [] [] (loadSnapshot Record.codec Graph.new
      (.stream (saveSnapshot Record.codec GoMap.RangeOrder.default
        (importing.foldl Op.apply Graph.new) [] [] "v1"))) :=
  loadSnapshot_saveSnapshot Record.codec GoMap.RangeOrder.default ⟨_, run_importing⟩
    (fun _ _ => not_isStaleAbsPathID_importing) [] [] "v1"

/-- **Not every edge survives a restart.** -/
theorem not_loadSnapshot_saveSnapshot :
    ¬∀ (ord : MapOrder) (g : Graph), g.Reachable →
      (∀ id n, g.nodeAt id = some n → isStaleAbsPathID id = false) → ∀ k, g.HasEdge k →
        (loadSnapshot Record.codec Graph.new
          (.stream (saveSnapshot Record.codec ord g [] [] "v1"))).graph.HasEdge k := by
  intro h
  let g := importing.foldl Op.apply Graph.new
  let k : EdgeKey := ⟨"a.go", "external::fmt", .edgeImports, "a.go", 3⟩
  have hk : g.HasEdge k := by
    have hst : g.StoredOut ⟨0⟩ := by decide +kernel
    exact hst.storedEdge.hasEdge
  have hload := h GoMap.RangeOrder.default g ⟨_, run_importing⟩
    (fun _ _ => not_isStaleAbsPathID_importing) k hk
  rw [loadSnapshot_saveSnapshot_eq] at hload
  have hto := (((restored_loadAll (Reachable.weak ⟨_, run_importing⟩)
    (fun _ _ => not_isStaleAbsPathID_importing) _ [] []).edges k).mp hload).2.2.2
  have heq : g.nodeAt k.toID = if k.toID = "a.go" then _ else _ :=
    (nodeAt_putEdge ..).trans (NodeInv.new.nodeAt_putNode _ _)
  rw [heq, nodeAt_new, if_neg (by decide)] at hto
  cases hto

end Gortex
