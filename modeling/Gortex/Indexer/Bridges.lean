import Gortex.Contracts.Wrapper
import Gortex.Graph.Counts
import Gortex.Indexer.Multi

/-!
# Bridges between services

`ReconcileContractEdges` of `internal/indexer/multi.go` in full, with its passes over the merged
registry: both of them write to the graph as well. `MultiIndexer.reconcileContractEdges` takes
the two passes as parameters that leave the graph alone, and the two agree where nothing is
inlined or bound (`Gortex.MultiIndexer.ReconcileContractEdges_of_quiet`).

The edges of earlier calls are collected by their ends and removed one at a time, each search
taking the first of parallel edges. They are listed as often as there are parallel ones, so all
of them go, and the edges of the kind are exactly those of the matches
(`Gortex.MultiIndexer.hasEdge_ReconcileContractEdges`).
-/

namespace Gortex

open Contracts

variable {g : Graph}

/-! ### What the passes do to the graph -/

namespace ContractRegistry

/-- Binding one contract leaves the graph alone, or adds an edge to the contract. -/
theorem bindOne_graph (s : Binding) (c : Contract) :
    (bindOne s c).graph = s.graph ∨
      ∃ newID, (bindOne s c).graph = s.graph.putEdge (providesEdge newID c) := by
  rcases hun : unbound c with _ | _
  · exact .inl (by rw [bindOne, if_pos hun])
  · by_cases hnew : bindTarget s.graph c = ""
    · left
      simp only [bindOne, hun, Bool.true_eq_false, if_false, hnew, if_true]
    · simp only [bindOne, hun, Bool.true_eq_false, if_false, hnew]
      split_ifs
      · exact .inr ⟨_, rfl⟩
      · exact .inl rfl

/-- **Binding adds edges to contracts only.** -/
theorem storedEdge_bindProviderSymbols (hg : Graph.Inv g) (ord : GoMap.RangeOrder ContractRegistry)
    (r : ContractRegistry) :
    Graph.Inv (bindProviderSymbols ord r g).graph ∧ ∀ e : Edge, e.kind ≠ .edgeProvides →
      ((bindProviderSymbols ord r g).graph.StoredEdge e ↔ g.StoredEdge e) := by
  refine List.foldl_invariant (P := fun s : Binding => Graph.Inv s.graph ∧
    ∀ e : Edge, e.kind ≠ .edgeProvides → (s.graph.StoredEdge e ↔ g.StoredEdge e)) ?_
    ⟨hg, fun _ _ => Iff.rfl⟩
  rintro s c - ⟨hinv, hedges⟩
  rcases bindOne_graph s c with heq | ⟨newID, heq⟩
  · rw [heq]
    exact ⟨hinv, hedges⟩
  · rw [heq]
    refine ⟨hinv.putEdge _, fun e he => ?_⟩
    have hne : e ≠ providesEdge newID c := fun hc => he (hc ▸ rfl)
    have hkey : keyOf e ≠ keyOf (providesEdge newID c) := fun hc => he (congrArg EdgeKey.kind hc)
    rw [hinv.storedEdge_putEdge, hedges e he]
    simp [hne, hkey]

end ContractRegistry

namespace MultiIndexer

/-! ### The pass -/

variable (mi : MultiIndexer) (env : RepoEnv) (disk : Disk) (text : ByteArray → List Char)

/-- The repositories without the links of earlier calls. -/
def withoutLinks : MultiIndexer :=
  { mi with store := { mi.store with graph := removeMatches env.ords.graph mi.store.graph } }

/-- The merged registry and the graph after inlining; `text` decodes the bytes of a file. -/
def inlinedContracts : Inlining :=
  let mi := mi.withoutLinks env
  inlineWrappers (fun n => (mi.sourceReader env disk n).map text) env.ords.contracts
    (mi.mergedContractRegistry env) mi.store.graph

/-- The same after binding. -/
def boundContracts : ContractRegistry.Binding :=
  ContractRegistry.bindProviderSymbols env.ords.contracts
    (mi.inlinedContracts env disk text).registry (mi.inlinedContracts env disk text).graph

/-- **ReconcileContractEdges** links the symbols that share a contract now, and returns the number
of links. -/
def ReconcileContractEdges : MultiIndexer × ℕ :=
  let inlined := mi.inlinedContracts env disk text
  let bound := mi.boundContracts env disk text
  let matched := (bound.registry.matchAll env.ords.contracts).matched
  ({ mi with
      indexers := inlined.added.foldl keepInlined mi.indexers
      store := { mi.store with graph := matched.foldl addMatch bound.graph } },
    (matched.filter fun m => m.provider.symbolID ≠ "" ∧ m.consumer.symbolID ≠ "" ∧
      m.provider.symbolID ≠ m.consumer.symbolID).length)

/-- **Where nothing is inlined or bound**, this is the pass that leaves the graph to the
links. -/
theorem ReconcileContractEdges_of_quiet
    (hinline : ∀ r g read, env.inlineWrappers r g read =
      let s := inlineWrappers (fun n => (read n).map text) env.ords.contracts r g
      (s.registry, s.added))
    (hbind : ∀ r g, env.bindProviderSymbols r g =
      (ContractRegistry.bindProviderSymbols env.ords.contracts r g).registry)
    (hinlined : (mi.inlinedContracts env disk text).graph = (mi.withoutLinks env).store.graph)
    (hbound : (mi.boundContracts env disk text).graph = (mi.withoutLinks env).store.graph) :
    (mi.ReconcileContractEdges env disk text).1 = mi.reconcileContractEdges env disk := by
  have hregistry : (mi.boundContracts env disk text).registry =
      env.bindProviderSymbols (mi.inlinedContracts env disk text).registry
        (mi.withoutLinks env).store.graph := by
    rw [hbind, boundContracts, hinlined]
  simp only [ReconcileContractEdges, reconcileContractEdges, hinline, hregistry, hbound]
  rfl

/-! ### The old links -/

/-- The ends of the links there are. -/
def linkEnds (ord : MapOrder) (g : Graph) : List (String × String) :=
  (((g.allEdges ord).map g.edge).filter fun e => e.kind = .edgeMatches).map
    fun e => (e.fromID, e.toID)

/-- The ends are listed as often as there are parallel links. -/
theorem length_parallel_le_count (hg : Graph.EdgeInv g) (ord : MapOrder) (f t : String) :
    (g.parallel .edgeMatches f t).length ≤ (linkEnds ord g).count (f, t) := by
  have hcount : (linkEnds ord g).count (f, t) = ((g.allEdges ord).filter fun r =>
      ((g.edge r).fromID, (g.edge r).toID) = (f, t) ∧ (g.edge r).kind = .edgeMatches).length := by
    rw [linkEnds, List.count_eq_countP, List.countP_map, List.countP_filter, List.countP_map,
      List.countP_eq_length_filter]
    refine congrArg List.length (List.filter_congr fun r _ => ?_)
    simp only [Function.comp, beq_eq_decide, Bool.decide_and]
  rw [hcount]
  refine (hg.nodup_parallel.subperm fun r hr => ?_).length_le
  obtain ⟨hstored, hfrom, hto, hkind⟩ := hg.mem_parallel.mp hr
  exact List.mem_filter.mpr ⟨(hg.mem_allEdges ord).mpr hstored,
    decide_eq_true ⟨Prod.ext hfrom hto, hkind⟩⟩

/-- **All links of earlier calls are removed**, and nothing else. -/
theorem storedEdge_removeMatches (hg : Graph.Inv g) (ord : MapOrder) :
    Graph.Inv (removeMatches ord g) ∧ ∀ e : Edge,
      (removeMatches ord g).StoredEdge e ↔ g.StoredEdge e ∧ e.kind ≠ .edgeMatches := by
  have hpairs : removeMatches ord g = (linkEnds ord g).foldl
      (fun g p => (g.removeEdge p.1 p.2 .edgeMatches).1) g := by
    rw [removeMatches, linkEnds, List.foldl_map]
  obtain ⟨hinv, honly, hst⟩ := hg.edges.foldl_removeEdge (length_parallel_le_count hg.edges ord)
  rw [hpairs]
  refine ⟨⟨honly.nodeInv hg.nodes, hinv⟩, fun e => ?_⟩
  constructor
  · rintro ⟨r, hr, rfl⟩
    rw [honly.edge]
    exact ⟨⟨r, ((hst r).mp hr).1, rfl⟩, ((hst r).mp hr).2⟩
  · rintro ⟨⟨r, hr, rfl⟩, hkind⟩
    exact ⟨r, (hst r).mpr ⟨hr, hkind⟩, by rw [honly.edge]⟩

/-! ### The new links -/

/-- A match of two symbols that are there and differ. -/
def Links (m : CrossLink) : Prop :=
  m.provider.symbolID ≠ "" ∧ m.consumer.symbolID ≠ "" ∧ m.provider.symbolID ≠ m.consumer.symbolID

theorem hasEdge_addMatch (hg : Graph.Inv g) (m : CrossLink) (k : EdgeKey) :
    Graph.Inv (addMatch g m) ∧
      ((addMatch g m).HasEdge k ↔ g.HasEdge k ∨ Links m ∧ k = keyOf (matchEdge m)) := by
  rw [addMatch, Links]
  split_ifs with hempty hself
  · refine ⟨hg, (or_iff_left ?_).symm⟩
    rintro ⟨⟨hp, hc, -⟩, -⟩
    exact hempty.elim hp hc
  · exact ⟨hg, (or_iff_left fun h => h.1.2.2 hself).symm⟩
  · rw [not_or] at hempty
    refine ⟨hg.putEdge _, ?_⟩
    rw [hg.hasEdge_putEdge, or_comm, and_iff_right ⟨hempty.1, hempty.2, hself⟩]

/-- **The links that are added** are those of the matches. -/
theorem hasEdge_foldl_addMatch (hg : Graph.Inv g) (matched : List CrossLink) (k : EdgeKey) :
    Graph.Inv (matched.foldl addMatch g) ∧ ((matched.foldl addMatch g).HasEdge k ↔
      g.HasEdge k ∨ ∃ m ∈ matched, Links m ∧ k = keyOf (matchEdge m)) := by
  induction matched generalizing g with
  | nil => exact ⟨hg, by simp⟩
  | cons m matched ih =>
    obtain ⟨hinv, hedge⟩ := hasEdge_addMatch hg m k
    obtain ⟨hinv', hedges⟩ := ih hinv
    refine ⟨hinv', ?_⟩
    rw [List.foldl_cons, hedges, hedge, or_assoc]
    simp only [List.mem_cons, exists_eq_or_imp]

/-- Before the links are added there are none: the passes over the registry add edges to
contracts only. -/
theorem boundContracts_graph (hg : Graph.Inv mi.store.graph) :
    Graph.Inv (mi.boundContracts env disk text).graph ∧
      ∀ k : EdgeKey, k.kind = .edgeMatches →
        ¬(mi.boundContracts env disk text).graph.HasEdge k := by
  obtain ⟨hremoved, hstored⟩ := storedEdge_removeMatches hg env.ords.graph
  -- which functions the calls are of does not matter here
  have hinlined : Inlines (mi.withoutLinks env).store.graph (fun _ => True)
      (mi.inlinedContracts env disk text) :=
    Inlines.inlineWrappers hremoved _ fun w _ => ⟨w, trivial, .refl⟩
  obtain ⟨hbound, hedges⟩ := ContractRegistry.storedEdge_bindProviderSymbols hinlined.inv
    env.ords.contracts (mi.inlinedContracts env disk text).registry
  refine ⟨hbound, fun k hk => ?_⟩
  rintro ⟨e, he, rfl⟩
  have hkind : e.kind = .edgeMatches := hk
  have hinl := (hedges e (by rw [hkind]; decide)).mp he
  have hold := (hinlined.edges e (by rw [hkind]; decide)).mp hinl
  exact ((hstored e).mp hold).2 hkind

/-- **The bridges are exact**: after the pass, an edge between two services is there exactly if it
is that of a match, of the merged, inlined and bound contracts, between two symbols that are
there and differ. -/
theorem hasEdge_ReconcileContractEdges (hg : Graph.Inv mi.store.graph) (k : EdgeKey)
    (hk : k.kind = .edgeMatches) :
    (mi.ReconcileContractEdges env disk text).1.store.graph.HasEdge k ↔
      ∃ m ∈ ((mi.boundContracts env disk text).registry.matchAll env.ords.contracts).matched,
        m.provider.symbolID ≠ "" ∧ m.consumer.symbolID ≠ "" ∧
        m.provider.symbolID ≠ m.consumer.symbolID ∧
        k = ⟨m.consumer.symbolID, m.provider.symbolID, .edgeMatches, m.consumer.filePath,
          m.consumer.line⟩ := by
  obtain ⟨hbound, hnone⟩ := mi.boundContracts_graph env disk text hg
  have hlinks := (hasEdge_foldl_addMatch hbound
    ((mi.boundContracts env disk text).registry.matchAll env.ords.contracts).matched k).2
  rw [show (mi.ReconcileContractEdges env disk text).1.store.graph =
    ((mi.boundContracts env disk text).registry.matchAll env.ords.contracts).matched.foldl addMatch
      (mi.boundContracts env disk text).graph from rfl, hlinks, or_iff_right (hnone k hk)]
  simp only [Links, and_assoc]
  rfl

namespace Services

/-- An environment without extractors of contracts. -/
def quiet : RepoEnv where
  extractors := ⟨fun _ => none, fun _ _ _ => [], fun _ _ _ _ r => r, fun _ _ _ _ => none⟩
  ords := ⟨.default, .default, .default, .default⟩
  repoOrder := .default
  detectIdentity := GoPath.base
  repoConfig := fun _ _ => {}
  inlineWrappers := fun r _ _ => (r, [])
  bindProviderSymbols := fun r _ => r

/-- A disk without files. -/
def noFiles : Disk := ⟨∅, "/w", [], Disk.isClean_empty⟩

/-- A route, as a symbol of a repository has it. -/
def route (repo symbol : String) (role : Role) : Contract where
  id := "http::GET::/v1/users"
  contractType := .http
  role := role
  symbolID := symbol
  filePath := repo ++ "/api.go"
  line := 3
  repoPrefix := repo
  metadata := (∅ : Metadata).insert "path" (.str "/v1/users")
  confidence := 1

/-- The indexer of a repository with one route. -/
def indexer (repo symbol : String) (role : Role) : Indexer where
  registry := {}
  rootPath := "/w/" ++ repo
  contractRegistry := some (({} : ContractRegistry).add (route repo symbol role))

/-- A link of the two symbols, in a line. -/
def link (line : ℕ) : Edge where
  fromID := "b/api.go::Fetch"
  toID := "a/api.go::Get"
  kind := .edgeMatches
  filePath := "b/api.go"
  line := line

/-- Two services, and two links of earlier calls. -/
def services : MultiIndexer where
  store := { graph := (Graph.new.putEdge (link 7)).putEdge (link 9) }
  registry := {}
  indexers := ((∅ : GoMap String Indexer).insert "a" (indexer "a" "a/api.go::Get" .provider)).insert
    "b" (indexer "b" "b/api.go::Fetch" .consumer)

/-- What is linked. -/
theorem matched_services :
    (((services.boundContracts quiet noFiles fun _ => []).registry.matchAll
      quiet.ords.contracts).matched.map
      fun m => ((m.provider.symbolID, m.consumer.symbolID), m.consumer.filePath,
        m.consumer.line)) = [(("a/api.go::Get", "b/api.go::Fetch"), "b/api.go", 3)] := by
  decide +kernel

end Services

/-- The old links are gone, and the new one is there. -/
theorem hasEdge_ReconcileContractEdges_services :
    let g := (Services.services.ReconcileContractEdges Services.quiet Services.noFiles
      fun _ => []).1.store.graph
    g.HasEdge ⟨"b/api.go::Fetch", "a/api.go::Get", .edgeMatches, "b/api.go", 3⟩ ∧
      ¬g.HasEdge ⟨"b/api.go::Fetch", "a/api.go::Get", .edgeMatches, "b/api.go", 9⟩ := by
  have hinv : Graph.Inv Services.services.store.graph := (Graph.Inv.new.putEdge _).putEdge _
  refine ⟨(hasEdge_ReconcileContractEdges _ _ _ _ hinv _ rfl).mpr ?_, fun h => ?_⟩
  · obtain ⟨m, hm, heq⟩ := List.mem_map.mp (Services.matched_services ▸ List.mem_singleton_self _)
    simp only [Prod.mk.injEq] at heq
    obtain ⟨⟨hprovider, hconsumer⟩, hfile, hline⟩ := heq
    refine ⟨m, hm, ?_⟩
    rw [hprovider, hconsumer, hfile, hline]
    decide
  · obtain ⟨m, hm, -, -, -, hk⟩ := (hasEdge_ReconcileContractEdges _ _ _ _ hinv _ rfl).mp h
    have hmem := List.mem_map_of_mem (f := fun m : CrossLink =>
      ((m.provider.symbolID, m.consumer.symbolID), m.consumer.filePath, m.consumer.line)) hm
    rw [Services.matched_services, List.mem_singleton] at hmem
    simp only [EdgeKey.mk.injEq, Prod.mk.injEq] at hk hmem
    omega

end MultiIndexer

end Gortex
