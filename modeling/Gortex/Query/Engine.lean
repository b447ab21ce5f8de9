import Mathlib.Data.List.Sort
import Gortex.Graph.View
import Gortex.Lib.GoString

/-!
# Read queries

The query engine of `internal/query/engine.go`: the traversals built on `bfs`, the
lookups of a file, of the usages of a symbol and of the implementations of an
interface, and the symbol search.

The engine answers with the pointers the store holds. With detail `"brief"` a
traversal ends with `stripMeta`, which clears the metadata of every node of the
answer through its pointer: the stored node, not a copy, loses it. So a query
leaves the graph as it is iff it is no brief traversal, or the nodes it visits have
no metadata (`Gortex.Query.unchanged_iff`).
-/

namespace Gortex

open GoString

/-! ### Options and answers -/

/-- A part of the graph, as a query answers. -/
structure SubGraph where
  nodes : List NodeRef
  edges : List EdgeRef
  totalNodes : ℕ
  totalEdges : ℕ
  truncated : Bool := false

/-- The depth, the limit and the detail of a traversal. -/
structure QueryOptions where
  depth : ℤ
  limit : ℤ
  detail : String
  minTier : String := ""

/-- The number of hops, three when none is set. -/
def QueryOptions.hops (opts : QueryOptions) : ℕ := if opts.depth ≤ 0 then 3 else opts.depth.toNat

/-- The number of nodes, fifty when none is set. -/
def QueryOptions.maxNodes (opts : QueryOptions) : ℕ :=
  if opts.limit ≤ 0 then 50 else opts.limit.toNat

/-- The search backend, as far as the engine calls it: the number of documents,
the IDs of the hits in order, and the typo rescue that some backends have. -/
structure Backend where
  count : ℕ
  search : String → ℕ → List String
  bigramCandidates : Option (String → ℕ → List String)

/-- The engine: the backend that is set, and the two library functions whose
result the engine does not determine, Unicode lowering and an unstable sort. -/
structure Engine where
  searchProvider : Option Backend
  toLower : String → String
  sortSlice : {α : Type} → (α → α → Bool) → List α → List α
  /-- Sorting loses and invents nothing. -/
  sortSlice_perm : ∀ {α : Type} (less : α → α → Bool) (l : List α), (sortSlice less l).Perm l

/-- An engine without a backend. -/
def Engine.plain : Engine where
  searchProvider := none
  toLower := fun s => s.map Char.toLower
  sortSlice := fun less l => l.mergeSort fun a b => !less b a
  sortSlice_perm := fun _ _ => List.mergeSort_perm _ _

/-! ### Breadth-first traversal -/

/-- Where a traversal goes: along the out-edges or the in-edges of some kinds, or
along all edges both ways. -/
inductive Walk
  | forward (kinds : List EdgeKind)
  | backward (kinds : List EdgeKind)
  | bidir

/-- The edges a traversal looks at from an ID. -/
def Walk.edgesAt (g : Graph) (id : String) : Walk → List EdgeRef
  | forward _ => g.getOutEdges id
  | backward _ => g.getInEdges id
  | bidir => g.getOutEdges id ++ g.getInEdges id

/-- The neighbour at the other end of an edge, unless the traversal skips the edge. -/
def Walk.neighbor (id : String) (e : Edge) : Walk → Option String
  | forward kinds => if e.kind ∈ kinds ∧ e.fromID = id then some e.toID else none
  | backward kinds => if e.kind ∈ kinds ∧ e.toID = id then some e.fromID else none
  | bidir => if e.fromID = id then some e.toID else some e.fromID

/-- The state of a traversal. -/
structure BfsState where
  queue : List (String × ℕ)
  visited : List String
  allNodes : List NodeRef
  allEdges : List EdgeRef
  truncated : Bool

/-- One edge of the node that is expanded. -/
def bfsEdge (g : Graph) (w : Walk) (limit : ℕ) (id : String) (depth : ℕ) (s : BfsState)
    (r : EdgeRef) : BfsState :=
  match w.neighbor id (g.edge r) with
  | none => s
  | some neighborID =>
    -- unresolved and external targets are not nodes
    if hasPrefix neighborID "unresolved::" ∨ hasPrefix neighborID "external::" then s
    else
      let s := { s with allEdges := s.allEdges ++ [r] }
      if neighborID ∈ s.visited then s
      else
        let s := { s with visited := neighborID :: s.visited }
        match g.getNode neighborID with
        | none => s
        | some n =>
          if limit ≤ s.allNodes.length then { s with truncated := true }
          else
            { s with
              allNodes := s.allNodes ++ [n]
              queue := s.queue ++ [(neighborID, depth + 1)] }

/-- One entry of the queue. -/
def bfsItem (g : Graph) (w : Walk) (hops limit : ℕ) (cur : String × ℕ) (s : BfsState) : BfsState :=
  if hops ≤ cur.2 then s
  else (w.edgesAt g cur.1).foldl (bfsEdge g w limit cur.1 cur.2) s

/-- The loop of the traversal. -/
def bfsLoop (g : Graph) (w : Walk) (hops limit : ℕ) : ℕ → BfsState → BfsState
  | 0, s => s
  | fuel + 1, s =>
    match s.queue with
    | [] => s
    | cur :: rest => bfsLoop g w hops limit fuel (bfsItem g w hops limit cur { s with queue := rest })

/-- The state before the loop. -/
def bfsInit (g : Graph) (nodeID : String) : BfsState where
  queue := [(nodeID, 0)]
  visited := [nodeID]
  allNodes := (g.getNode nodeID).toList
  allEdges := []
  truncated := false

/-- The traversal from a node. The fuel is one more than the limit, and the queue
has run empty by then (`bfsWalk_queue`). -/
def bfsWalk (g : Graph) (nodeID : String) (opts : QueryOptions) (w : Walk) : BfsState :=
  bfsLoop g w opts.hops opts.maxNodes (opts.maxNodes + 1) (bfsInit g nodeID)

/-- What is left to expand, and what the limit leaves room for. -/
def BfsState.measure (limit : ℕ) (s : BfsState) : ℕ := s.queue.length + (limit - s.allNodes.length)

/-- **What one edge can do**: nothing to the nodes and the queue, or list one more
node, stored, and queue it, below the limit. -/
theorem bfsEdge_cases (g : Graph) (w : Walk) (limit : ℕ) (id : String) (depth : ℕ) (s : BfsState)
    (r : EdgeRef) :
    ((bfsEdge g w limit id depth s r).allNodes = s.allNodes ∧
        (bfsEdge g w limit id depth s r).queue = s.queue) ∨
      ∃ neighborID n, g.getNode neighborID = some n ∧ s.allNodes.length < limit ∧
        (bfsEdge g w limit id depth s r).allNodes = s.allNodes ++ [n] ∧
        (bfsEdge g w limit id depth s r).queue = s.queue ++ [(neighborID, depth + 1)] := by
  unfold bfsEdge
  cases w.neighbor id (g.edge r) with
  | none => exact Or.inl ⟨rfl, rfl⟩
  | some neighborID =>
    simp only
    by_cases hskip : hasPrefix neighborID "unresolved::" ∨ hasPrefix neighborID "external::"
    · rw [if_pos hskip]
      exact Or.inl ⟨rfl, rfl⟩
    · rw [if_neg hskip]
      by_cases hseen : neighborID ∈ s.visited
      · rw [if_pos hseen]
        exact Or.inl ⟨rfl, rfl⟩
      · rw [if_neg hseen]
        cases hn : g.getNode neighborID with
        | none => exact Or.inl ⟨rfl, rfl⟩
        | some n =>
          simp only
          by_cases hfull : limit ≤ s.allNodes.length
          · rw [if_pos hfull]
            exact Or.inl ⟨rfl, rfl⟩
          · rw [if_neg hfull]
            exact Or.inr ⟨neighborID, n, hn, by omega, rfl, rfl⟩

theorem measure_bfsEdge (g : Graph) (w : Walk) (limit : ℕ) (id : String) (depth : ℕ) (s : BfsState)
    (r : EdgeRef) : (bfsEdge g w limit id depth s r).measure limit ≤ s.measure limit := by
  rcases bfsEdge_cases g w limit id depth s r with ⟨hn, hq⟩ | ⟨neighborID, n, -, hlt, hn, hq⟩
  · simp only [BfsState.measure, hn, hq, le_rfl]
  · simp only [BfsState.measure, hn, hq, List.length_append, List.length_singleton]
    omega

theorem measure_foldl_bfsEdge (g : Graph) (w : Walk) (limit : ℕ) (id : String) (depth : ℕ)
    (l : List EdgeRef) (s : BfsState) :
    (l.foldl (bfsEdge g w limit id depth) s).measure limit ≤ s.measure limit := by
  induction l generalizing s with
  | nil => exact le_rfl
  | cons r l ih => exact (ih _).trans (measure_bfsEdge g w limit id depth s r)

/-- Enough fuel empties the queue. -/
theorem bfsLoop_queue (g : Graph) (w : Walk) (hops limit : ℕ) {fuel : ℕ} {s : BfsState}
    (h : s.measure limit ≤ fuel) : (bfsLoop g w hops limit fuel s).queue = [] := by
  induction fuel generalizing s with
  | zero =>
    have hq : s.queue.length = 0 := by
      unfold BfsState.measure at h
      omega
    exact List.length_eq_zero_iff.mp hq
  | succ fuel ih =>
    unfold bfsLoop
    cases hq : s.queue with
    | nil => exact hq
    | cons cur rest =>
      refine ih ?_
      have hpop : BfsState.measure limit { s with queue := rest } + 1 = s.measure limit := by
        simp only [BfsState.measure, hq, List.length_cons]
        omega
      unfold bfsItem
      split_ifs
      · omega
      · have := measure_foldl_bfsEdge g w limit cur.1 cur.2 (w.edgesAt g cur.1)
          { s with queue := rest }
        omega

/-- **The traversal terminates**: its queue is empty at the end. -/
theorem bfsWalk_queue (g : Graph) (nodeID : String) (opts : QueryOptions) (w : Walk) :
    (bfsWalk g nodeID opts w).queue = [] := by
  refine bfsLoop_queue g w _ _ ?_
  simp only [BfsState.measure, bfsInit, List.length_singleton]
  omega

/-- Clear the metadata of the nodes behind the pointers. -/
def stripMeta (g : Graph) (nodes : List NodeRef) : Graph :=
  nodes.foldl (fun g r => g.setNode r { g.node r with metadata := ∅ }) g

/-- **The traversal and its post-processing.** -/
def bfs (g : Graph) (nodeID : String) (opts : QueryOptions) (w : Walk) : Graph × SubGraph :=
  let s := bfsWalk g nodeID opts w
  let sg : SubGraph :=
    { nodes := s.allNodes
      edges := s.allEdges
      totalNodes := s.visited.length
      totalEdges := s.allEdges.length
      truncated := s.truncated }
  (if opts.detail = "brief" then stripMeta g sg.nodes else g, sg)

/-- Outgoing dependencies (imports, calls, references). -/
def getDependencies (g : Graph) (nodeID : String) (opts : QueryOptions) : Graph × SubGraph :=
  bfs g nodeID opts (.forward [.edgeImports, .edgeCalls, .edgeReferences])

/-- Incoming dependents (blast radius). -/
def getDependents (g : Graph) (nodeID : String) (opts : QueryOptions) : Graph × SubGraph :=
  bfs g nodeID opts (.backward [.edgeImports, .edgeCalls, .edgeReferences])

/-- The call graph forward from a function. -/
def getCallChain (g : Graph) (funcID : String) (opts : QueryOptions) : Graph × SubGraph :=
  bfs g funcID opts (.forward [.edgeCalls, .edgeMatches])

/-- All callers of a function. -/
def getCallers (g : Graph) (funcID : String) (opts : QueryOptions) : Graph × SubGraph :=
  bfs g funcID opts (.backward [.edgeCalls, .edgeMatches])

/-- The immediate neighbourhood. -/
def getCluster (g : Graph) (nodeID : String) (opts : QueryOptions) : Graph × SubGraph :=
  bfs g nodeID opts .bidir

/-! ### Lookups -/

/-- The key under which `dedup` sees an edge: unlike its identity, it leaves out
the file and the line. -/
def dedupKey (e : Edge) : String := e.fromID ++ "->" ++ e.toID ++ ":" ++ e.kind.str

/-- The first edge of each key. -/
def dedup (g : Graph) (edges : List EdgeRef) : List EdgeRef :=
  (edges.foldl (fun (s : List String × List EdgeRef) r =>
    if dedupKey (g.edge r) ∈ s.1 then s else (dedupKey (g.edge r) :: s.1, s.2 ++ [r]))
    ([], [])).2

/-- The symbols of a file, with their edges. -/
def getFileSymbols (g : Graph) (filePath : String) : SubGraph :=
  let nodes := g.getFileNodes filePath
  let edges := nodes.flatMap fun r => g.getOutEdges (g.idOf r) ++ g.getInEdges (g.idOf r)
  { nodes := nodes
    edges := dedup g edges
    totalNodes := nodes.length
    totalEdges := edges.length }

/-- The types that implement an interface, by edges of at least the given tier. -/
def findImplementationsMinTier (g : Graph) (interfaceID minTier : String) : List NodeRef :=
  ((g.getInEdges interfaceID).filter fun r =>
    let e := g.edge r
    let origin :=
      if e.origin = "" then
        defaultOriginFor e.kind e.confidence (e.metadata.getStr "semantic_source")
      else e.origin
    e.kind = .edgeImplements ∧ (minTier = "" ∨ meetsMinTier origin minTier)).filterMap
      fun r => g.getNode (g.edge r).fromID

/-- The kinds of an edge that uses its target. -/
def usageKinds : List EdgeKind :=
  [.edgeCalls, .edgeReferences, .edgeInstantiates, .edgeProvides, .edgeConsumes]

/-- The nodes that reference a symbol, and the symbol: the values of a map by ID. -/
def findUsages (ord : MapOrder) (g : Graph) (nodeID : String) : SubGraph :=
  let filtered := (g.getInEdges nodeID).filter fun r => (g.edge r).kind ∈ usageKinds
  let ends := filtered.map (fun r => (g.edge r).fromID) ++ [nodeID]
  let nodeMap : GoMap String NodeRef :=
    (ends.filterMap g.getNode).foldl (fun m r => m.insert (g.idOf r) r) ∅
  let nodes := (ord.order g nodeMap.pairs).map Prod.snd
  { nodes := nodes
    edges := filtered
    totalNodes := nodes.length
    totalEdges := filtered.length }

/-! ### Search -/

/-- Whether a search lists nodes of this kind. -/
def searchable (n : Node) : Bool := n.kind ≠ .kindFile ∧ n.kind ≠ .kindImport

/-- Add the nodes that are searchable, new and accepted to a result, up to the limit. -/
def collect (g : Graph) (limit : ℕ) (accept : Node → Bool) (nodes : List NodeRef)
    (out : List NodeRef) : List NodeRef :=
  nodes.foldl (fun out r =>
    if limit ≤ out.length ∨ searchable (g.node r) = false ∨ g.idOf r ∈ out.map g.idOf ∨
        accept (g.node r) = false then out
    else out ++ [r]) out

/-- The search with a backend: its hits, then the exact names, then the names that
contain the query, and the typo rescue when nothing at all was found. -/
def searchWithBackend (en : Engine) (b : Backend) (ord : MapOrder) (g : Graph) (query : String)
    (limit : ℕ) : List NodeRef :=
  let out := collect g limit (fun _ => true) ((b.search query (limit * 2)).filterMap g.getNode) []
  let out := collect g limit (fun _ => true) (g.findNodesByName query) out
  let out := collect g limit (fun n => contains (en.toLower n.name) (en.toLower query))
    (g.allNodes ord) out
  if out = [] ∧ 4 ≤ query.utf8ByteSize ∧ containsAny query " /.:_-" = false then
    match b.bigramCandidates with
    | some candidates =>
      let minOverlap := max 3 ((query.utf8ByteSize - 1 + 1) / 2)
      collect g limit (fun _ => true) ((candidates query minOverlap).filterMap g.getNode) out
    | none => out
  else out

/-- The score of a node in the substring search, lowest first; none when the query
is in neither the name nor the ID. -/
def substringScore (en : Engine) (query : String) (n : Node) : Option ℕ :=
  let lower := en.toLower query
  let nameLower := en.toLower n.name
  if hasPrefix nameLower lower then some 1
  else if contains nameLower lower then some 2
  else if contains (en.toLower n.id) lower then some 3
  else none

/-- The search without a backend. -/
def searchSubstring (en : Engine) (ord : MapOrder) (g : Graph) (query : String) (limit : ℕ) :
    List NodeRef :=
  let exact := (g.findNodesByName query).filter fun r => searchable (g.node r)
  let results := (g.allNodes ord).foldl (fun (results : List (NodeRef × ℕ)) r =>
    if g.idOf r ∈ results.map (fun p => g.idOf p.1) ∨ searchable (g.node r) = false then results
    else
      match substringScore en query (g.node r) with
      | some score => results ++ [(r, score)]
      | none => results) (exact.map fun r => (r, 0))
  let less := fun a b : NodeRef × ℕ =>
    if a.2 ≠ b.2 then decide (a.2 < b.2)
    else decide ((g.node a.1).name.utf8ByteSize < (g.node b.1).name.utf8ByteSize)
  ((en.sortSlice less results).take limit).map Prod.fst

/-- **SearchSymbols.** -/
def searchSymbols (en : Engine) (ord : MapOrder) (g : Graph) (query : String) (limit : ℤ) :
    List NodeRef :=
  let limit := if limit ≤ 0 then 20 else limit.toNat
  match en.searchProvider with
  | some b =>
    if 0 < b.count then searchWithBackend en b ord g query limit
    else searchSubstring en ord g query limit
  | none => searchSubstring en ord g query limit

/-! ### The queries -/

/-- The read queries of the engine. -/
inductive Query
  | getDependencies (nodeID : String) (opts : QueryOptions)
  | getDependents (nodeID : String) (opts : QueryOptions)
  | getCallChain (funcID : String) (opts : QueryOptions)
  | getCallers (funcID : String) (opts : QueryOptions)
  | getCluster (nodeID : String) (opts : QueryOptions)
  | findUsages (nodeID : String)
  | getFileSymbols (filePath : String)
  | findImplementations (interfaceID minTier : String)
  | searchSymbols (query : String) (limit : ℤ)

/-- What a query answers. -/
inductive Answer
  | subGraph (sg : SubGraph)
  | nodes (l : List NodeRef)

/-- The outcome of a traversal as the outcome of a query. -/
def answerOf (p : Graph × SubGraph) : Graph × Answer := (p.1, .subGraph p.2)

namespace Query

/-- The traversal a query is built on, if it is: from where, with which options,
and along which edges. -/
def traversal : Query → Option (String × QueryOptions × Walk)
  | getDependencies id opts =>
    some (id, opts, .forward [.edgeImports, .edgeCalls, .edgeReferences])
  | getDependents id opts =>
    some (id, opts, .backward [.edgeImports, .edgeCalls, .edgeReferences])
  | getCallChain id opts => some (id, opts, .forward [.edgeCalls, .edgeMatches])
  | getCallers id opts => some (id, opts, .backward [.edgeCalls, .edgeMatches])
  | getCluster id opts => some (id, opts, .bidir)
  | _ => none

/-- **A query**: the graph it leaves, and the answer. -/
def run (en : Engine) (ord : MapOrder) (g : Graph) : Query → Graph × Answer
  | getDependencies id opts => answerOf (Gortex.getDependencies g id opts)
  | getDependents id opts => answerOf (Gortex.getDependents g id opts)
  | getCallChain id opts => answerOf (Gortex.getCallChain g id opts)
  | getCallers id opts => answerOf (Gortex.getCallers g id opts)
  | getCluster id opts => answerOf (Gortex.getCluster g id opts)
  | findUsages id => (g, .subGraph (Gortex.findUsages ord g id))
  | getFileSymbols filePath => (g, .subGraph (Gortex.getFileSymbols g filePath))
  | findImplementations id minTier => (g, .nodes (findImplementationsMinTier g id minTier))
  | searchSymbols query limit => (g, .nodes (Gortex.searchSymbols en ord g query limit))

theorem run_of_traversal {en : Engine} {ord : MapOrder} {g : Graph} {q : Query} {id : String}
    {opts : QueryOptions} {w : Walk} (h : q.traversal = some (id, opts, w)) :
    q.run en ord g = answerOf (bfs g id opts w) := by
  cases q <;> simp only [traversal, reduceCtorEq, Option.some.injEq, Prod.mk.injEq] at h <;>
    obtain ⟨rfl, rfl, rfl⟩ := h <;> rfl

theorem run_of_lookup {en : Engine} {ord : MapOrder} {g : Graph} {q : Query}
    (h : q.traversal = none) : (q.run en ord g).1 = g := by
  cases q <;> first | rfl | cases h

/-- The nodes a query lists by walking the graph: none for a lookup. -/
def visited (g : Graph) (q : Query) : List NodeRef :=
  match q.traversal with
  | some (id, opts, w) => (bfsWalk g id opts w).allNodes
  | none => []

/-- **A brief traversal.** -/
def Brief (q : Query) : Prop := ∃ id opts w, q.traversal = some (id, opts, w) ∧ opts.detail = "brief"

end Query

/-! ### What a query leaves behind -/

/-- The stored nodes, all fields included, and the stored edges of two graphs are
the same. -/
def Unchanged (g g' : Graph) : Prop :=
  (∀ id, g'.nodeAt id = g.nodeAt id) ∧ ∀ id, g'.edgesAt id = g.edgesAt id

/-- **What holds of the nodes a traversal lists**: of the list it starts with, and
of a list with one more stored node. -/
theorem bfsWalk_allNodes {g : Graph} {nodeID : String} {opts : QueryOptions} {w : Walk}
    {P : List NodeRef → Prop} (hinit : P (g.getNode nodeID).toList)
    (hstep : ∀ {l id n}, P l → g.getNode id = some n → P (l ++ [n])) :
    P (bfsWalk g nodeID opts w).allNodes := by
  have hfold : ∀ id depth (l : List EdgeRef) s, P s.allNodes →
      P (l.foldl (bfsEdge g w opts.maxNodes id depth) s).allNodes := by
    intro id depth l
    induction l with
    | nil => exact fun s hs => hs
    | cons r l ih =>
      intro s hs
      refine ih _ ?_
      rcases bfsEdge_cases g w opts.maxNodes id depth s r with
        ⟨hn, -⟩ | ⟨neighborID, n, hget, -, hn, -⟩
      · rwa [hn]
      · rw [hn]
        exact hstep hs hget
  have hloop : ∀ fuel s, P s.allNodes →
      P (bfsLoop g w opts.hops opts.maxNodes fuel s).allNodes := by
    intro fuel
    induction fuel with
    | zero => exact fun s hs => hs
    | succ fuel ih =>
      intro s hs
      unfold bfsLoop
      cases s.queue with
      | nil => exact hs
      | cons cur rest =>
        refine ih _ ?_
        unfold bfsItem
        split_ifs
        · exact hs
        · exact hfold _ _ _ _ hs
  exact hloop _ _ hinit

/-- Every node a traversal lists is stored. -/
theorem bfsWalk_stored (g : Graph) (nodeID : String) (opts : QueryOptions) (w : Walk) :
    ∀ r ∈ (bfsWalk g nodeID opts w).allNodes, ∃ id, g.getNode id = some r := by
  refine bfsWalk_allNodes (P := fun l => ∀ r ∈ l, ∃ id, g.getNode id = some r)
    (fun r hr => ⟨nodeID, Option.mem_toList.mp hr⟩) fun hl hn r hr => ?_
  rcases List.mem_append.mp hr with hr | hr
  · exact hl r hr
  · rw [List.mem_singleton.mp hr]
    exact ⟨_, hn⟩

/-- What `stripMeta` does to a node: the metadata of the listed ones is cleared. -/
theorem node_stripMeta (g : Graph) (nodes : List NodeRef) (r : NodeRef) :
    (stripMeta g nodes).node r =
      if r ∈ nodes then { g.node r with metadata := ∅ } else g.node r := by
  induction nodes generalizing g with
  | nil => rfl
  | cons a l ih =>
    change (stripMeta (g.setNode a { g.node a with metadata := ∅ }) l).node r = _
    rw [ih]
    have hset : (g.setNode a { g.node a with metadata := ∅ }).node r =
        if r = a then { g.node a with metadata := ∅ } else g.node r := rfl
    rw [hset]
    by_cases hra : r = a
    · subst hra
      simp
    · simp [hra]

/-- `stripMeta` writes the node memory only. -/
theorem stripMeta_eq (g : Graph) (nodes : List NodeRef) :
    stripMeta g nodes = { g with node := (stripMeta g nodes).node } := by
  induction nodes generalizing g with
  | nil => rfl
  | cons a l ih =>
    change stripMeta (g.setNode a { g.node a with metadata := ∅ }) l = _
    rw [ih]
    rfl

/-- Stripping nodes that have no metadata changes nothing at all. -/
theorem stripMeta_of_metadata {g : Graph} {nodes : List NodeRef}
    (h : ∀ r ∈ nodes, (g.node r).metadata = ∅) : stripMeta g nodes = g := by
  rw [stripMeta_eq]
  have hnode : (stripMeta g nodes).node = g.node := by
    funext r
    rw [node_stripMeta]
    by_cases hr : r ∈ nodes
    · rw [if_pos hr, ← h r hr]
    · rw [if_neg hr]
  rw [hnode]

namespace Query

variable {en : Engine} {ord : MapOrder} {g : Graph} {q : Query}

/-- **A query that spares the graph leaves it as it is**, memory included: what is
computed from it later is what would have been computed without the query. -/
theorem run_eq_self (h : ¬q.Brief ∨ ∀ r ∈ q.visited g, (g.node r).metadata = ∅) :
    (q.run en ord g).1 = g := by
  cases ht : q.traversal with
  | none => exact run_of_lookup ht
  | some t =>
    obtain ⟨id, opts, w⟩ := t
    rw [run_of_traversal ht]
    change (if opts.detail = "brief" then stripMeta g (bfsWalk g id opts w).allNodes else g) = g
    by_cases hb : opts.detail = "brief"
    · rw [if_pos hb]
      have hmeta := h.resolve_left (not_not.mpr ⟨id, opts, w, ht, hb⟩)
      simp only [visited, ht] at hmeta
      exact stripMeta_of_metadata hmeta
    · rw [if_neg hb]

/-- A query leaves every stored node and edge as it is iff it spares the graph. -/
theorem unchanged_run_iff :
    Unchanged g (q.run en ord g).1 ↔
      ¬q.Brief ∨ ∀ r ∈ q.visited g, (g.node r).metadata = ∅ := by
  constructor
  · intro hun
    by_contra hcon
    rw [not_or, not_not] at hcon
    obtain ⟨⟨id, opts, w, ht, hb⟩, hmeta⟩ := hcon
    refine hmeta fun r hr => ?_
    simp only [visited, ht] at hr
    obtain ⟨rid, hrid⟩ := bfsWalk_stored g id opts w r hr
    have hgraph : (q.run en ord g).1 = stripMeta g (bfsWalk g id opts w).allNodes := by
      rw [run_of_traversal ht]
      exact if_pos hb
    have hget : (stripMeta g (bfsWalk g id opts w).allNodes).getNode rid = some r := by
      rw [stripMeta_eq]
      exact hrid
    have hnode := hun.1 rid
    rw [hgraph, Graph.nodeAt, Graph.nodeAt, hrid, hget, Option.map_some, Option.map_some,
      node_stripMeta, if_pos hr] at hnode
    rw [← Option.some.inj hnode]
  · intro h
    rw [run_eq_self h]
    exact ⟨fun _ => rfl, fun _ => rfl⟩

/-- The traversal of a query, if it has one, is made with this detail. -/
def HasDetail (q : Query) (detail : String) : Prop :=
  ∀ id opts w, q.traversal = some (id, opts, w) → opts.detail = detail

/-- A traversal lists the node it starts from. -/
theorem mem_visited_of_start {id : String} {opts : QueryOptions} {w : Walk} {r : NodeRef}
    (hq : q.traversal = some (id, opts, w)) (hr : g.getNode id = some r) : r ∈ q.visited g := by
  simp only [visited, hq]
  exact bfsWalk_allNodes (P := fun l => r ∈ l) (Option.mem_toList.mpr hr)
    fun hl _ => List.mem_append_left _ hl

/-- **What read queries change**: a query leaves every stored node and edge as it
is iff it is no brief traversal or walks to no node with metadata; and all queries
of one detail do iff the detail is not the brief one or no stored node has
metadata. -/
theorem unchanged_iff (en : Engine) (ord : MapOrder) (g : Graph) :
    (∀ q : Query, Unchanged g (q.run en ord g).1 ↔
      ¬q.Brief ∨ ∀ r ∈ q.visited g, (g.node r).metadata = ∅) ∧
    ∀ detail, (∀ q : Query, q.HasDetail detail → Unchanged g (q.run en ord g).1) ↔
      detail ≠ "brief" ∨ ∀ id n, g.nodeAt id = some n → n.metadata = ∅ := by
  refine ⟨fun q => unchanged_run_iff, fun detail => ⟨fun h => ?_, fun h q hq => ?_⟩⟩
  · refine or_iff_not_imp_left.mpr fun hb id n hn => ?_
    obtain ⟨r, hr, rfl⟩ := Graph.nodeAt_eq_some.mp hn
    let q : Query := .getCluster id { depth := 1, limit := 1, detail := detail }
    have hun := h q fun id' opts w ht => by
      simp only [q, traversal, Option.some.injEq, Prod.mk.injEq] at ht
      rw [← ht.2.1]
    have hspare := (unchanged_run_iff.mp hun).resolve_left
      (not_not.mpr ⟨id, _, _, rfl, not_not.mp hb⟩)
    exact hspare r (mem_visited_of_start rfl hr)
  · refine unchanged_run_iff.mpr ?_
    rcases h with hb | hmeta
    · refine Or.inl fun ⟨id, opts, w, ht, hbrief⟩ => hb ?_
      rw [← hq id opts w ht, hbrief]
    · refine Or.inr fun r hr => ?_
      unfold visited at hr
      cases ht : q.traversal with
      | none =>
        rw [ht] at hr
        exact absurd hr List.not_mem_nil
      | some t =>
        rw [ht] at hr
        obtain ⟨id, hid⟩ := bfsWalk_stored g t.1 t.2.1 t.2.2 r hr
        exact hmeta id _ (Graph.nodeAt_eq_some.mpr ⟨r, hid, rfl⟩)

/-- A function with a signature. -/
def signedFunction : Node :=
  { id := "a.go::A", kind := .kindFunction, name := "A", filePath := "a.go", startLine := 3
    metadata := (∅ : Metadata).insert "signature" (.str "func A() error") }

/-- **A read query can change the graph**: asking for the callers of a function in
brief clears the signature that is stored with it. -/
theorem not_unchanged_getCallers :
    ¬∀ (ops : List Graph.Op) (g : Graph), Run Graph.Op.Step Graph.new ops g →
      ∀ en ord q, Unchanged g (Query.run en ord g q).1 := by
  intro h
  have hun := h [.addNode signedFunction] _ (Run.cons ⟨trivial, rfl⟩ (Run.nil _)) Engine.plain .default
    (.getCallers "a.go::A" { depth := 1, limit := 20, detail := "brief" })
  have hsig := congrArg (Option.map fun n => n.metadata.getStr "signature") (hun.1 "a.go::A")
  revert hsig
  decide +kernel

end Query

end Gortex
