import Gortex.Indexer.Multi
import Gortex.Query.Incident

/-!
# Scoped queries

`internal/mcp/tools_core.go`: the call chain and the usages of a symbol, as they are answered
under a filter for repositories, projects and refs. The engine searches the whole graph, and its
answer is cut down afterwards: to the nodes of the repositories that are allowed, and to the
edges with **one** end among these. An edge that leaves the scope is therefore kept, although its
other end is not: an answer is closed exactly if the search follows no such edge of the tier that
is asked for (`Gortex.ScopedQuery.closed_iff`).
-/

namespace Gortex

/-! ### The filter -/

/-- What the filter reads of the server. -/
structure ScopeServer where
  activeProject : String
  configManager : Option GlobalConfig

/-- The filter of a request. -/
structure ScopeRequest where
  repo : String := ""
  project : String := ""
  ref : String := ""

/-- **The set of repositories that are allowed**, or none if there is no filter. The active
project is the scope if nothing else is said. -/
def resolveRepoFilter (s : ScopeServer) (ord : GoMap.RangeOrder GlobalConfig)
    (quote : String → String) (req : ScopeRequest) : Except String (Option (List String)) :=
  let project :=
    if req.repo = "" ∧ req.project = "" ∧ req.ref = "" ∧ s.activeProject ≠ "" then s.activeProject
    else req.project
  if req.repo = "" ∧ project = "" ∧ req.ref = "" then .ok none
  else if req.repo ≠ "" then .ok (some [req.repo])
  else
    match s.configManager with
    | none => .error "configuration manager is not available"
    | some gc =>
      let entries :=
        if project ≠ "" then gc.resolveRepos ord quote project
        else .ok ((ord.order gc gc.projects.pairs).flatMap Prod.snd ++ gc.repos)
      entries.map fun entries =>
        some ((entries.filter fun e => ¬(req.ref ≠ "" ∧ e.ref ≠ req.ref)).map
          fun e => resolvePrefix e.toRepoEntry)

/-- Whether a node belongs to a repository that is allowed, or to none. -/
def Graph.Allowed (g : Graph) (allowed : List String) (r : NodeRef) : Prop :=
  (g.node r).repoPrefix = "" ∨ (g.node r).repoPrefix ∈ allowed

instance (g : Graph) (allowed : List String) (r : NodeRef) : Decidable (g.Allowed allowed r) :=
  inferInstanceAs (Decidable (_ ∨ _))

/-- The part of an answer that is in scope. -/
def filterSubGraph (g : Graph) (sg : SubGraph) : Option (List String) → SubGraph
  | none => sg
  | some allowed =>
    let nodes := sg.nodes.filter fun r => g.Allowed allowed r
    let nodeIDs := nodes.map g.idOf
    let edges := sg.edges.filter fun r => (g.edge r).fromID ∈ nodeIDs ∨ (g.edge r).toID ∈ nodeIDs
    { nodes := nodes
      edges := edges
      totalNodes := nodes.length
      totalEdges := edges.length
      truncated := sg.truncated }

/-- Whether the origin of an edge, or what stands for it if there is none, is of a tier. -/
def Edge.meetsTier (e : Edge) (minTier : String) : Bool :=
  meetsMinTier (if e.origin = "" then
    defaultOriginFor e.kind e.confidence (e.metadata.getStr "semantic_source") else e.origin)
    minTier

/-- Drop the edges below a tier. -/
def filterByMinTier (g : Graph) (minTier : String) (sg : SubGraph) : SubGraph :=
  if minTier = "" then sg
  else { sg with edges := sg.edges.filter fun r => (g.edge r).meetsTier minTier }

/-! ### The tools -/

/-- A query that is answered in scope. -/
inductive ScopedQuery
  | callChain (id : String) (depth limit : ℤ)
  | usages (id : String)

namespace ScopedQuery

/-- The options of a call chain. -/
def options (depth limit : ℤ) (minTier : String) : QueryOptions where
  depth := depth
  limit := limit
  detail := "brief"
  minTier := minTier

/-- What the engine answers, over the whole graph. -/
def search (nord : MapOrder) (g : Graph) (minTier : String) : ScopedQuery → Graph × SubGraph
  | callChain id depth limit => getCallChain g id (options depth limit minTier)
  | usages id => (g, findUsages nord g id)

/-- **What a tool answers**: the search comes first, then its filters. -/
def handle (s : ScopeServer) (nord : MapOrder) (ord : GoMap.RangeOrder GlobalConfig)
    (quote : String → String) (g : Graph) (q : ScopedQuery) (req : ScopeRequest)
    (minTier : String) : Graph × Except String SubGraph :=
  let answer := q.search nord g minTier
  (answer.1, (resolveRepoFilter s ord quote req).map fun allowed =>
    filterByMinTier answer.1 minTier (filterSubGraph answer.1 answer.2 allowed))

/-- **An answer is closed**: its nodes are allowed, and both ends of its edges are among them. -/
structure Closed (g : Graph) (allowed : List String) (sg : SubGraph) : Prop where
  nodes : ∀ r ∈ sg.nodes, g.Allowed allowed r
  edges : ∀ r ∈ sg.edges,
    (g.edge r).fromID ∈ sg.nodes.map g.idOf ∧ (g.edge r).toID ∈ sg.nodes.map g.idOf

/-! ### What the search follows and finds -/

variable {g : Graph} {nord : MapOrder} {minTier : String}

/-- The walk of a call chain. -/
def callWalk : Walk := .forward [.edgeCalls, .edgeMatches]

/-- **The edges a search follows**: for a call chain the calls and matches, to a target that is
not unresolved or external, of the start and of the nodes found with a hop to go; for usages the
edges of some kinds that lead to the symbol. -/
def Follows (g : Graph) (minTier : String) (r : EdgeRef) : ScopedQuery → Prop
  | callChain id depth limit =>
    ((g.edge r).fromID = id ∨ (g.edge r).fromID ∈
        (getCallChain g id (options depth limit minTier)).2.nodes.map g.idOf) ∧
      (∃ m < (options depth limit minTier).hops,
        Bfs.Hops (HopTo g callWalk) id m (g.edge r).fromID) ∧
      r ∈ g.getOutEdges (g.edge r).fromID ∧ (g.edge r).kind ∈ [.edgeCalls, .edgeMatches] ∧
      ¬Skipped (g.edge r).toID
  | usages id => r ∈ g.getInEdges id ∧ (g.edge r).kind ∈ usageKinds

/-- **An ID that is shown**: the search finds it, for a call chain within the limit, and the node
stored under it is allowed. -/
def Shows (g : Graph) (minTier : String) (allowed : List String) (x : String) : ScopedQuery → Prop
  | callChain id depth limit => ∃ r ∈ (getCallChain g id (options depth limit minTier)).2.nodes,
      g.idOf r = x ∧ g.Allowed allowed r
  | usages id =>
    (x = id ∨ ∃ e ∈ g.getInEdges id, (g.edge e).kind ∈ usageKinds ∧ (g.edge e).fromID = x) ∧
      ∃ r, g.getNode x = some r ∧ g.Allowed allowed r

/-- A search changes no ID. -/
theorem idOf_search (q : ScopedQuery) : (q.search nord g minTier).1.idOf = g.idOf := by
  cases q with
  | usages id => rfl
  | callChain id depth limit =>
    funext r
    change ((stripMeta g _).node r).id = (g.node r).id
    rw [node_stripMeta]
    split_ifs <;> rfl

theorem allowed_search {allowed : List String} {r : NodeRef} (q : ScopedQuery) :
    (q.search nord g minTier).1.Allowed allowed r ↔ g.Allowed allowed r := by
  cases q with
  | usages id => exact Iff.rfl
  | callChain id depth limit =>
    change ((stripMeta g _).node r).repoPrefix = "" ∨
      ((stripMeta g _).node r).repoPrefix ∈ allowed ↔ _
    rw [node_stripMeta]
    split_ifs
    · exact Iff.rfl
    · exact Iff.rfl

theorem edge_search (q : ScopedQuery) : (q.search nord g minTier).1.edge = g.edge := by
  cases q with
  | usages id => rfl
  | callChain id depth limit =>
    change (stripMeta g _).edge = g.edge
    rw [stripMeta_eq]

/-- The edges of a call chain are those that it follows. -/
theorem mem_edges_getCallChain (hg : Graph.NodeInv g) {id : String} {opts : QueryOptions}
    {r : EdgeRef} : r ∈ (getCallChain g id opts).2.edges ↔
      ((g.edge r).fromID = id ∨ (g.edge r).fromID ∈ (getCallChain g id opts).2.nodes.map g.idOf) ∧
        (∃ m < opts.hops, Bfs.Hops (HopTo g callWalk) id m (g.edge r).fromID) ∧
        r ∈ g.getOutEdges (g.edge r).fromID ∧ (g.edge r).kind ∈ [.edgeCalls, .edgeMatches] ∧
        ¬Skipped (g.edge r).toID := by
  have hedges : (getCallChain g id opts).2.edges =
      (expandedIDs g id opts callWalk).flatMap (callWalk.followed g) :=
    (allEdges_bfsLoop g callWalk opts.hops opts.maxNodes _ _).trans (List.nil_append _)
  have hfollowed : ∀ x, r ∈ callWalk.followed g x ↔ (g.edge r).fromID = x ∧ r ∈ g.getOutEdges x ∧
      (g.edge r).kind ∈ [.edgeCalls, .edgeMatches] ∧ ¬Skipped (g.edge r).toID := by
    intro x
    rw [Walk.followed, List.mem_filter, Option.isSome_iff_exists]
    constructor
    · rintro ⟨hout, b, hb⟩
      obtain ⟨hb, hskip⟩ := Option.filter_eq_some_iff.mp hb
      obtain ⟨hkind, hfrom, hto⟩ := Walk.neighbor_eq_some.mp hb
      exact ⟨hfrom, hout, hkind, hto ▸ of_decide_eq_true hskip⟩
    · rintro ⟨hfrom, hout, hkind, hskip⟩
      exact ⟨hout, _, Option.filter_eq_some_iff.mpr
        ⟨Walk.neighbor_eq_some.mpr ⟨hkind, hfrom, rfl⟩, decide_eq_true hskip⟩⟩
  have hexpanded := (mem_expandedIDs hg id opts callWalk).2
  rw [hedges, List.mem_flatMap]
  constructor
  · rintro ⟨x, hx, hr⟩
    obtain ⟨rfl, hout⟩ := (hfollowed x).mp hr
    exact ⟨((hexpanded _).mp hx).1, ((hexpanded _).mp hx).2, hout⟩
  · rintro ⟨hfound, hnear, hout⟩
    exact ⟨_, (hexpanded _).mpr ⟨hfound, hnear⟩, (hfollowed _).mpr ⟨rfl, hout⟩⟩

/-- The nodes of the usages are those of the ends, as they are stored. -/
theorem mem_nodes_findUsages (hg : Graph.NodeInv g) {id : String} {r : NodeRef} :
    r ∈ (findUsages nord g id).nodes ↔ g.getNode (g.idOf r) = some r ∧ (g.idOf r = id ∨
      ∃ e ∈ g.getInEdges id, (g.edge e).kind ∈ usageKinds ∧ (g.edge e).fromID = g.idOf r) := by
  have hends : ∀ x, x ∈ (((g.getInEdges id).filter fun r => (g.edge r).kind ∈ usageKinds).map
      fun r => (g.edge r).fromID) ++ [id] ↔ x = id ∨
        ∃ e ∈ g.getInEdges id, (g.edge e).kind ∈ usageKinds ∧ (g.edge e).fromID = x := by
    intro x
    simp only [List.mem_append, List.mem_map, List.mem_filter, decide_eq_true_eq,
      List.mem_singleton, and_assoc]
    exact or_comm
  have hmem : ∀ r, r ∈ ((((g.getInEdges id).filter fun r => (g.edge r).kind ∈ usageKinds).map
      fun r => (g.edge r).fromID) ++ [id]).filterMap g.getNode ↔
        g.getNode (g.idOf r) = some r ∧ (g.idOf r = id ∨
          ∃ e ∈ g.getInEdges id, (g.edge e).kind ∈ usageKinds ∧ (g.edge e).fromID = g.idOf r) := by
    intro r
    rw [List.mem_filterMap]
    constructor
    · rintro ⟨x, hx, hstored⟩
      rw [(hg.home hstored).1]
      exact ⟨hstored, (hends x).mp hx⟩
    · rintro ⟨hstored, hend⟩
      exact ⟨_, (hends _).mpr hend, hstored⟩
  simp only [findUsages, List.mem_map, Prod.exists, exists_eq_right, GoMap.RangeOrder.mem,
    GoMap.mem_pairs]
  simp only [GoMap.lookup_foldl_insert_eq_some fun a ha b hb hab =>
    Graph.StoredNode.eq_of_id ((hmem a).mp ha).1 ((hmem b).mp hb).1 hab, hmem, exists_and_left,
    exists_eq', and_true]

/-- **What a search answers**, in terms of what it follows and shows. -/
theorem search_spec (nord : MapOrder) (minTier : String) (hg : Graph.NodeInv g)
    (allowed : List String) (q : ScopedQuery) :
    (∀ r, r ∈ (q.search nord g minTier).2.edges ↔ q.Follows g minTier r) ∧
      ∀ x, (∃ r ∈ (q.search nord g minTier).2.nodes, g.idOf r = x ∧ g.Allowed allowed r) ↔
        q.Shows g minTier allowed x := by
  cases q with
  | callChain id depth limit => exact ⟨fun r => mem_edges_getCallChain hg, fun x => Iff.rfl⟩
  | usages id =>
    refine ⟨fun r => ?_, fun x => ?_⟩
    · change r ∈ (g.getInEdges id).filter _ ↔ _
      rw [List.mem_filter, decide_eq_true_iff]
      exact Iff.rfl
    · constructor
      · rintro ⟨r, hr, rfl, hallowed⟩
        obtain ⟨hstored, hend⟩ := (mem_nodes_findUsages hg).mp hr
        exact ⟨hend, r, hstored, hallowed⟩
      · rintro ⟨hend, r, hstored, hallowed⟩
        have hid := (hg.home hstored).1
        refine ⟨r, (mem_nodes_findUsages hg).mpr ?_, hid, hallowed⟩
        rw [hid]
        exact ⟨hstored, hend⟩

/-! ### When an answer is closed -/

/-- The filters leave a closed answer exactly if no edge of the tier has one end in scope. -/
theorem closed_filter_iff (minTier : String) (allowed : List String) (sg : SubGraph) :
    Closed g allowed (filterByMinTier g minTier (filterSubGraph g sg (some allowed))) ↔
      ∀ r ∈ sg.edges, (g.edge r).meetsTier minTier = true →
        ((∃ n ∈ sg.nodes, g.idOf n = (g.edge r).fromID ∧ g.Allowed allowed n) ↔
          ∃ n ∈ sg.nodes, g.idOf n = (g.edge r).toID ∧ g.Allowed allowed n) := by
  have hnodes : (filterByMinTier g minTier (filterSubGraph g sg (some allowed))).nodes =
      sg.nodes.filter fun r => g.Allowed allowed r := by
    rw [filterByMinTier]
    split_ifs <;> rfl
  have hids : ∀ x, x ∈ (sg.nodes.filter fun r => g.Allowed allowed r).map g.idOf ↔
      ∃ n ∈ sg.nodes, g.idOf n = x ∧ g.Allowed allowed n := by
    intro x
    simp only [List.mem_map, List.mem_filter, decide_eq_true_eq, and_assoc, and_comm]
  have hedges : ∀ r, r ∈ (filterByMinTier g minTier (filterSubGraph g sg (some allowed))).edges ↔
      r ∈ sg.edges ∧ (g.edge r).meetsTier minTier = true ∧
        ((g.edge r).fromID ∈ (sg.nodes.filter fun r => g.Allowed allowed r).map g.idOf ∨
          (g.edge r).toID ∈ (sg.nodes.filter fun r => g.Allowed allowed r).map g.idOf) := by
    intro r
    rw [filterByMinTier]
    split_ifs with htier
    · simp only [filterSubGraph, List.mem_filter, decide_eq_true_eq, Edge.meetsTier, meetsMinTier,
        htier, if_true, true_and]
    · simp only [filterSubGraph, List.mem_filter, decide_eq_true_eq]
      exact and_right_comm.trans and_assoc
  simp only [← hids]
  constructor
  · intro h r hr htier
    have hkept := fun hend => h.edges r ((hedges r).mpr ⟨hr, htier, hend⟩)
    rw [hnodes] at hkept
    exact ⟨fun hfrom => (hkept (.inl hfrom)).2, fun hto => (hkept (.inr hto)).1⟩
  · intro h
    refine ⟨fun r hr => ?_, fun r hr => ?_⟩
    · rw [hnodes] at hr
      exact of_decide_eq_true (List.mem_filter.mp hr).2
    · obtain ⟨hr, htier, hend⟩ := (hedges r).mp hr
      have hboth := h r hr htier
      rw [hnodes]
      exact ⟨hend.elim id hboth.mpr, hend.elim hboth.mp id⟩

/-- **An answer in scope is closed exactly if the search follows no edge out of the scope**, or
into it, of the tier that is asked for. -/
theorem closed_iff (hg : Graph.NodeInv g) (s : ScopeServer) (nord : MapOrder)
    (ord : GoMap.RangeOrder GlobalConfig) (quote : String → String) (q : ScopedQuery)
    (req : ScopeRequest) (minTier : String) {allowed : List String}
    (hscope : resolveRepoFilter s ord quote req = .ok (some allowed)) :
    (∀ sg, (q.handle s nord ord quote g req minTier).2 = .ok sg →
        Closed (q.handle s nord ord quote g req minTier).1 allowed sg) ↔
      ∀ r, q.Follows g minTier r → (g.edge r).meetsTier minTier = true →
        (q.Shows g minTier allowed (g.edge r).fromID ↔
          q.Shows g minTier allowed (g.edge r).toID) := by
  obtain ⟨hedges, hshows⟩ := search_spec nord minTier hg allowed q
  have hanswer : (q.handle s nord ord quote g req minTier).2 = .ok (filterByMinTier
      (q.search nord g minTier).1 minTier (filterSubGraph (q.search nord g minTier).1
        (q.search nord g minTier).2 (some allowed))) := by
    rw [handle, hscope]
    rfl
  have hclosed := closed_filter_iff (g := (q.search nord g minTier).1) minTier allowed
    (q.search nord g minTier).2
  simp only [idOf_search, allowed_search, edge_search, hedges, hshows] at hclosed
  rw [← hclosed, hanswer]
  constructor
  · exact fun h => h _ rfl
  · rintro h sg hsg
    rwa [← Except.ok.inj hsg]

namespace Across

/-- A function of one repository that is called in its own and in another one. -/
def graph : Graph :=
  let fn (repoPrefix id : String) : Node :=
    { id := id, kind := .kindFunction, name := id, filePath := "a.go", repoPrefix := repoPrefix }
  let call (fromID toID : String) : Edge :=
    { fromID := fromID, toID := toID, kind := .edgeCalls, filePath := "a.go" }
  ((((Graph.new.putNode (fn "api" "api/a.go::A")).putNode (fn "api" "api/a.go::B")).putNode
    (fn "web" "web/a.go::C")).putEdge (call "api/a.go::A" "api/a.go::B")).putEdge
      (call "web/a.go::C" "api/a.go::A")

theorem inv_graph : Graph.Inv graph :=
  ((((Graph.Inv.new.putNode _).putNode _).putNode _).putEdge _).putEdge _

/-- A server without a configuration. -/
def server : ScopeServer := ⟨"", none⟩

/-- The usages of the one that is called in its own repository are closed. -/
theorem closed_iff_graph :
    ∃ sg, ((usages "api/a.go::B").handle server .default .default id graph ⟨"api", "", ""⟩ "").2 =
        .ok sg ∧ Closed ((usages "api/a.go::B").handle server .default .default id graph
          ⟨"api", "", ""⟩ "").1 ["api"] sg := by
  refine ⟨_, rfl, ?_⟩
  refine (closed_iff inv_graph.nodes server .default .default id (usages "api/a.go::B")
    ⟨"api", "", ""⟩ "" rfl).mpr (fun r hr _ => ?_) _ rfl
  have hin : graph.getInEdges "api/a.go::B" = [⟨0⟩] := by decide +kernel
  obtain rfl : r = ⟨0⟩ := List.mem_singleton.mp (hin ▸ hr.1)
  exact iff_of_true ⟨.inr ⟨⟨0⟩, hr.1, hr.2, rfl⟩, ⟨0⟩, by decide +kernel, by decide +kernel⟩
    ⟨.inl (by decide +kernel), ⟨1⟩, by decide +kernel, by decide +kernel⟩

/-- **An answer in scope has loose edges**: the usages of the function and the call chain of its
caller each have an edge between the two repositories, and the node of one only. -/
theorem not_closed_graph :
    (¬∀ sg, ((usages "api/a.go::A").handle server .default .default id graph
          ⟨"api", "", ""⟩ "").2 = .ok sg →
        Closed ((usages "api/a.go::A").handle server .default .default id graph
          ⟨"api", "", ""⟩ "").1 ["api"] sg) ∧
      ¬∀ sg, ((callChain "web/a.go::C" 4 50).handle server .default .default id graph
          ⟨"web", "", ""⟩ "").2 = .ok sg →
        Closed ((callChain "web/a.go::C" 4 50).handle server .default .default id graph
          ⟨"web", "", ""⟩ "").1 ["web"] sg := by
  constructor
  · intro h
    have hfrom := ((h _ rfl).edges ⟨1⟩ (by decide +kernel)).1
    revert hfrom
    decide +kernel
  · intro h
    have hto := ((h _ rfl).edges ⟨1⟩ (by decide +kernel)).2
    revert hto
    decide +kernel

end Across

end ScopedQuery

end Gortex
