import Gortex.Lib.Grouped
import Gortex.Lib.GoString
import Gortex.Lib.Tarjan
import Gortex.Graph.Reachable

/-!
# Dependency cycles

`internal/analysis/cycles.go`: the strongly connected components of the call and import
edges, one representative cycle for each component of two members or more, and the check
whether a new edge would close a cycle.

The recursive searches are those of the libraries, at the adjacency lists that are built
from the edges of the store: `tarjanSCC` is `Tarjan.run`, and `orderCyclePath` and
`wouldCreateCycle` are instances of `Dfs.search`. They have a result, so the recursions and
the loops along the parents end. `Gortex.Analysis.detectCycles_exact` and
`Gortex.Analysis.wouldCreateCycle_exact` say what the result is, in terms of the stored
edges (`DependsIn`, `Depends`).
-/

namespace Gortex

namespace Analysis

open GoString Relation

/-! ### The model -/

/-- A directed edge between two nodes. -/
structure EdgePair where
  fromID : String
  toID : String
deriving DecidableEq

/-- The kinds of a cycle: `import-cycle`, `cross-community-cycle` and `call-cycle`. -/
inductive CycleKind
  | importCycle
  | crossCommunityCycle
  | callCycle
deriving DecidableEq

/-- A detected cycle. The severity is 3 for imports, 2 across communities, 1 for calls. -/
structure Cycle where
  path : List String
  kind : CycleKind
  severity : ℕ

/-- The adjacency lists, and the kinds of the edges between two nodes. -/
structure Adjacency where
  adj : GoMap String (List String)
  edgeKinds : GoMap EdgePair (List EdgeKind)

/-- The set of the nodes in scope: no file or import nodes, and those of the files whose path
starts with the scope, if there is one. -/
def inScopeSet (ord : MapOrder) (g : Graph) (scope : String) : GoMap String Bool :=
  (g.allNodes ord).foldl (fun inScope r =>
    let n := g.node r
    if n.kind = .kindFile ∨ n.kind = .kindImport then inScope
    else if scope ≠ "" ∧ hasPrefix n.filePath scope = false then inScope
    else inScope.insert n.id true) ∅

/-- Whether a set holds an ID: `set[id]`. -/
def has (set : GoMap String Bool) (id : String) : Bool := (set.lookup id).getD false

/-- Note an edge: the target is appended to the list of the source unless the pair is known,
and the kind to the kinds of the pair. -/
def noteEdge (s : Adjacency) (e : Edge) : Adjacency where
  adj :=
    if (s.edgeKinds.lookup ⟨e.fromID, e.toID⟩).isSome = true then s.adj
    else Grouped.push s.adj e.fromID e.toID
  edgeKinds := Grouped.push s.edgeKinds ⟨e.fromID, e.toID⟩ e.kind

/-- One edge: a call or an import between two nodes in scope is noted. -/
def addDependency (inScope : GoMap String Bool) (s : Adjacency) (e : Edge) : Adjacency :=
  if e.kind ≠ .edgeImports ∧ e.kind ≠ .edgeCalls then s
  else if has inScope e.fromID = false ∨ has inScope e.toID = false then s
  else noteEdge s e

/-- The adjacency of the nodes in scope. -/
def adjacency (ord : MapOrder) (g : Graph) (scope : String) : Adjacency :=
  ((g.allEdges ord).map g.edge).foldl (addDependency (inScopeSet ord g scope)) ⟨∅, ∅⟩

/-- **The strongly connected components** of a set of nodes, which the loop visits in the
given order. Targets that are not in the set are skipped. -/
def tarjanSCC (order : List String) (nodeSet : GoMap String Bool)
    (adj : GoMap String (List String)) : Option (List (List String)) :=
  (Tarjan.run (fun v => (Grouped.slice adj v).filter fun w => has nodeSet w) order.length
    order).map Tarjan.State.sccs

/-- The path of the cycle that the search from the first member has found, if it has found
one of two members at least: the parents of the node that leads back, read backwards. -/
def cyclePathOf (scc : List String) (start : String) (s : Dfs.State String) :
    Option (List String) :=
  match s.found with
  | none => some scc
  | some node =>
    (Dfs.back s.parent start (s.visited.length + 1) node).map fun stack =>
      let cyclePath := start :: stack.reverse
      if 2 ≤ cyclePath.length then cyclePath else scc

/-- **A cycle within a component**: the depth-first search from the first member ends at a
node with an edge back to it. Without one, the component is returned as it is. -/
def orderCyclePath (scc : List String) (adj : GoMap String (List String)) :
    Option (List String) :=
  scc.head?.bind fun start =>
    (Dfs.search (fun v => (Grouped.slice adj v).filter fun w => w ∈ scc) (fun _ => false)
      (fun node next => next = start ∧ node ≠ start) scc.length start (Dfs.init fun _ => "")).bind
        (cyclePathOf scc start)

/-- The consecutive pairs of a path, with the closing one. -/
def pathPairs (path : List String) : List EdgePair :=
  List.zipWith EdgePair.mk path (path.rotate 1)

/-- The kind and the severity of a cycle: by the kinds of its edges, and by the communities
of its nodes, if there are communities. -/
def classifyCycle (path : List String) (edgeKinds : GoMap EdgePair (List EdgeKind))
    (communities : Option (GoMap String String)) : CycleKind × ℕ :=
  let hasImport := (pathPairs path).any fun pair =>
    (Grouped.slice edgeKinds pair).any fun kind => kind = .edgeImports
  if hasImport = true then (.importCycle, 3)
  else
    match communities with
    | some nodeToComm =>
      let communitySet := (path.filterMap nodeToComm.lookup).dedup
      if 1 < communitySet.length then (.crossCommunityCycle, 2) else (.callCycle, 1)
    | none => (.callCycle, 1)

/-- An unstable sort: some permutation that the elements and their order determine. -/
structure SortSlice (α : Type) where
  sort : (α → α → Bool) → List α → List α
  perm : ∀ less l, (sort less l).Perm l

/-- The cycle that is reported for a component, if it has two members. -/
def cycleOf (a : Adjacency) (communities : Option (GoMap String String)) (scc : List String) :
    Option (List Cycle) :=
  if scc.length < 2 then some []
  else
    (orderCyclePath scc a.adj).map fun path =>
      let c := classifyCycle path a.edgeKinds communities
      [{ path := path, kind := c.1, severity := c.2 }]

/-- **DetectCycles.** -/
def detectCycles (ord : MapOrder) (sortSlice : SortSlice Cycle) (g : Graph)
    (communities : Option (GoMap String String)) (scope : String) : Option (List Cycle) :=
  let inScope := inScopeSet ord g scope
  let a := adjacency ord g scope
  (tarjanSCC ((ord.order g inScope.pairs).map Prod.fst) inScope a.adj).bind fun sccs =>
    (sccs.mapM (cycleOf a communities)).map fun cycles =>
      sortSlice.sort (fun c c' => c'.severity < c.severity) cycles.flatten

/-- The adjacency lists of all calls and imports, and the pairs that are in them. -/
structure SeenAdjacency where
  adj : GoMap String (List String)
  seen : GoMap String (GoMap String Bool)

/-- One edge, for `wouldCreateCycle`. -/
def addSeen (s : SeenAdjacency) (e : Edge) : SeenAdjacency :=
  if e.kind ≠ .edgeImports ∧ e.kind ≠ .edgeCalls then s
  else
    let inner := (s.seen.lookup e.fromID).getD ∅
    if has inner e.toID = true then { s with seen := s.seen.insert e.fromID inner }
    else
      { adj := Grouped.push s.adj e.fromID e.toID
        seen := s.seen.insert e.fromID (inner.insert e.toID true) }

/-- The answer and the path between the two nodes, if the search has found the source. -/
def wouldAnswer (fromID toID : String) (s : Dfs.State String) : Option (Bool × List String) :=
  match s.found with
  | none => some (false, [])
  | some _ =>
    (Dfs.back s.parent toID (s.visited.length + 1) fromID).map fun path =>
      (true, (path ++ [toID]).reverse)

/-- **WouldCreateCycle**: the depth-first search from the target of the new edge for its
source. -/
def wouldCreateCycle (ord : MapOrder) (g : Graph) (fromID toID : String) :
    Option (Bool × List String) :=
  let edges := (g.allEdges ord).map g.edge
  (Dfs.search (Grouped.slice (edges.foldl addSeen ⟨∅, ∅⟩).adj) (fun node => node = fromID)
    (fun _ _ => false) (edges.length + 1) toID (Dfs.init fun _ => "")).bind (wouldAnswer fromID toID)

/-! ### The adjacency lists -/

/-- A call or an import. -/
def Dependency (e : Edge) : Prop := e.kind = .edgeImports ∨ e.kind = .edgeCalls

instance instDecidablePredDependency : DecidablePred Dependency := fun e =>
  inferInstanceAs (Decidable (e.kind = .edgeImports ∨ e.kind = .edgeCalls))

/-- The targets of the edges of a source, in their order. -/
def targets (edges : List Edge) (a : String) : List String :=
  (edges.filter fun e => e.fromID = a).map Edge.toID

theorem mem_targets {edges : List Edge} {a b : String} :
    b ∈ targets edges a ↔ ∃ e ∈ edges, e.fromID = a ∧ e.toID = b := by
  unfold targets
  simp only [List.mem_map, List.mem_filter, decide_eq_true_eq, and_assoc]

/-- The lists hold the targets of some edges, each target once. -/
def Lists (edges : List Edge) (adj : GoMap String (List String)) : Prop :=
  ∀ a, Grouped.slice adj a = (targets edges a).firsts id

theorem Lists.mem {edges : List Edge} {adj : GoMap String (List String)} (h : Lists edges adj)
    {a b : String} : b ∈ Grouped.slice adj a ↔ ∃ e ∈ edges, e.fromID = a ∧ e.toID = b := by
  rw [h a, List.mem_firsts_id, mem_targets]

/-- One more edge, with the target appended unless it is there. -/
theorem Lists.concat {edges : List Edge} {adj : GoMap String (List String)} (h : Lists edges adj)
    (e : Edge) : Lists (edges ++ [e])
      (if e.toID ∈ Grouped.slice adj e.fromID then adj
        else Grouped.push adj e.fromID e.toID) := by
  intro a
  have hsplit : targets (edges ++ [e]) a =
      if e.fromID = a then targets edges a ++ [e.toID] else targets edges a := by
    unfold targets
    by_cases ha : e.fromID = a
    · simp [ha]
    · simp [ha]
  rw [hsplit]
  by_cases ha : e.fromID = a
  · subst ha
    have hmem : e.toID ∈ Grouped.slice adj e.fromID ↔
        id e.toID ∈ (targets edges e.fromID).map id := by
      rw [h, List.mem_firsts_id, List.map_id, id]
    rw [if_pos rfl, List.firsts_concat, ← h]
    by_cases hin : e.toID ∈ Grouped.slice adj e.fromID
    · rw [if_pos hin, if_pos (hmem.mp hin)]
    · rw [if_neg hin, if_neg (mt hmem.mpr hin), Grouped.push, Grouped.slice_insert, if_pos rfl]
  · rw [if_neg ha, ← h]
    split_ifs
    · rfl
    · rw [Grouped.push, Grouped.slice_insert, if_neg (Ne.symm ha)]

/-- **What the adjacency holds** of some edges: their targets, and the kinds of the edges of
each pair. -/
structure AdjacencyOf (edges : List Edge) (s : Adjacency) : Prop where
  lists : Lists edges s.adj
  kinds : ∀ pair, Grouped.slice s.edgeKinds pair =
    (edges.filter fun e => (⟨e.fromID, e.toID⟩ : EdgePair) = pair).map Edge.kind
  known : ∀ a b, (s.edgeKinds.lookup ⟨a, b⟩).isSome = true ↔ b ∈ Grouped.slice s.adj a

/-- The edges that cycle detection looks at. -/
def admitted (inScope : GoMap String Bool) (e : Edge) : Prop :=
  Dependency e ∧ has inScope e.fromID = true ∧ has inScope e.toID = true

instance instDecidablePredAdmitted (inScope : GoMap String Bool) :
    DecidablePred (admitted inScope) := fun e =>
  inferInstanceAs (Decidable (Dependency e ∧ has inScope e.fromID = true ∧ has inScope e.toID = true))

theorem addDependency_eq (inScope : GoMap String Bool) (s : Adjacency) (e : Edge) :
    addDependency inScope s e = if admitted inScope e then noteEdge s e else s := by
  unfold addDependency
  by_cases hk : e.kind ≠ .edgeImports ∧ e.kind ≠ .edgeCalls
  · have hno : ¬admitted inScope e := fun h => h.1.elim hk.1 hk.2
    rw [if_pos hk, if_neg hno]
  · rw [if_neg hk]
    have hdep : Dependency e := by
      rwa [← not_or, not_not] at hk
    by_cases hs : has inScope e.fromID = false ∨ has inScope e.toID = false
    · have hno : ¬admitted inScope e := fun h => by
        rcases hs with hs | hs
        · exact Bool.false_ne_true (hs.symm.trans h.2.1)
        · exact Bool.false_ne_true (hs.symm.trans h.2.2)
      rw [if_pos hs, if_neg hno]
    · have hyes : admitted inScope e := by
        rw [not_or, Bool.not_eq_false, Bool.not_eq_false] at hs
        exact ⟨hdep, hs⟩
      rw [if_neg hs, if_pos hyes]

/-- One more edge. -/
theorem AdjacencyOf.add {edges : List Edge} {s : Adjacency} (h : AdjacencyOf edges s)
    (e : Edge) : AdjacencyOf (edges ++ [e]) (noteEdge s e) := by
  have hadj : (noteEdge s e).adj = if e.toID ∈ Grouped.slice s.adj e.fromID then s.adj
      else Grouped.push s.adj e.fromID e.toID := if_congr (h.known _ _) rfl rfl
  have hkinds : (noteEdge s e).edgeKinds = s.edgeKinds.insert ⟨e.fromID, e.toID⟩
      (Grouped.slice s.edgeKinds ⟨e.fromID, e.toID⟩ ++ [e.kind]) := rfl
  have hlists : Lists (edges ++ [e]) (noteEdge s e).adj := hadj ▸ h.lists.concat e
  refine ⟨hlists, fun pair => ?_, fun a b => ?_⟩
  · rw [hkinds, Grouped.slice_insert, List.filter_append, List.map_append, ← h.kinds]
    by_cases hp : pair = ⟨e.fromID, e.toID⟩
    · subst hp
      simp
    · have hne : (⟨e.fromID, e.toID⟩ : EdgePair) ≠ pair := Ne.symm hp
      simp [hp, hne]
  · rw [hlists.mem, hkinds, GoMap.lookup_insert]
    have hknown := h.known a b
    rw [h.lists.mem] at hknown
    simp only [List.mem_append, List.mem_singleton, or_and_right, exists_or, exists_eq_left]
    rw [← hknown]
    by_cases hp : (⟨a, b⟩ : EdgePair) = ⟨e.fromID, e.toID⟩
    · obtain ⟨rfl, rfl⟩ := EdgePair.mk.inj hp
      simp
    · rw [if_neg hp]
      refine (or_iff_left ?_).symm
      rintro ⟨rfl, rfl⟩
      exact hp rfl

/-- **The adjacency of the nodes in scope** is that of the admitted edges. -/
theorem adjacencyOf_foldl (inScope : GoMap String Bool) (l edges : List Edge) (s : Adjacency)
    (h : AdjacencyOf edges s) :
    AdjacencyOf (edges ++ l.filter fun e => admitted inScope e)
      (l.foldl (addDependency inScope) s) := by
  induction l generalizing edges s with
  | nil =>
    rw [List.filter_nil, List.append_nil]
    exact h
  | cons e l ih =>
    rw [List.foldl_cons]
    by_cases he : admitted inScope e
    · rw [List.filter_cons_of_pos (by simpa using he), addDependency_eq, if_pos he]
      have := ih _ _ (h.add e)
      rwa [List.append_assoc, List.singleton_append] at this
    · rw [List.filter_cons_of_neg (by simpa using he), addDependency_eq, if_neg he]
      exact ih _ _ h

theorem AdjacencyOf.empty : AdjacencyOf [] ⟨∅, ∅⟩ :=
  ⟨fun _ => rfl, fun _ => rfl, fun _ _ => iff_of_false (by simp) List.not_mem_nil⟩

/-! ### The nodes in scope -/

/-- **A node in scope**: stored, no file or import node, and of a file below the scope. -/
def InScope (g : Graph) (scope id : String) : Prop :=
  ∃ n, g.nodeAt id = some n ∧ n.kind ≠ .kindFile ∧ n.kind ≠ .kindImport ∧
    (scope = "" ∨ hasPrefix n.filePath scope = true)

/-- **A dependency in scope**: a stored call or import between two nodes in scope. -/
def DependsIn (g : Graph) (scope a b : String) : Prop :=
  (∃ e, g.StoredEdge e ∧ Dependency e ∧ e.fromID = a ∧ e.toID = b) ∧
    InScope g scope a ∧ InScope g scope b

/-- A call or an import of the store. -/
def Depends (g : Graph) (a b : String) : Prop :=
  ∃ e, g.StoredEdge e ∧ Dependency e ∧ e.fromID = a ∧ e.toID = b

/-- Whether a node passes the two tests of the scope. -/
def Scoped (scope : String) (n : Node) : Prop :=
  n.kind ≠ .kindFile ∧ n.kind ≠ .kindImport ∧ (scope = "" ∨ hasPrefix n.filePath scope = true)

/-- What the loop over the nodes puts into the set. -/
theorem lookup_inScopeSet (g : Graph) (scope : String) (l : List NodeRef)
    (set : GoMap String Bool) (hset : ∀ id b, set.lookup id = some b → b = true) (id : String) :
    let set' := l.foldl (fun inScope r =>
      let n := g.node r
      if n.kind = .kindFile ∨ n.kind = .kindImport then inScope
      else if scope ≠ "" ∧ hasPrefix n.filePath scope = false then inScope
      else inScope.insert n.id true) set
    (∀ b, set'.lookup id = some b → b = true) ∧
      (has set' id = true ↔ has set id = true ∨ ∃ r ∈ l, g.idOf r = id ∧ Scoped scope (g.node r)) := by
  induction l generalizing set with
  | nil => exact ⟨hset id, by simp⟩
  | cons r l ih =>
    rw [List.foldl_cons]
    -- a node that is passed over does not count
    have hskip : ¬Scoped scope (g.node r) → ∀ {p : Prop},
        (p ∨ ∃ r' ∈ r :: l, g.idOf r' = id ∧ Scoped scope (g.node r')) ↔
          (p ∨ ∃ r' ∈ l, g.idOf r' = id ∧ Scoped scope (g.node r')) := fun hno p => by
      simp only [List.exists_mem_cons_iff, hno, and_false, false_or]
    by_cases hk : (g.node r).kind = .kindFile ∨ (g.node r).kind = .kindImport
    · simp only [if_pos hk]
      rw [hskip fun h => hk.elim h.1 h.2.1]
      exact ih set hset
    · simp only [if_neg hk]
      by_cases hf : scope ≠ "" ∧ hasPrefix (g.node r).filePath scope = false
      · simp only [if_pos hf]
        rw [hskip fun h => h.2.2.elim hf.1 fun hp => by simp [hp] at hf]
        exact ih set hset
      · simp only [if_neg hf]
        have hyes : Scoped scope (g.node r) := by
          rw [not_or] at hk
          refine ⟨hk.1, hk.2, ?_⟩
          rw [not_and_or, not_not, Bool.not_eq_false] at hf
          exact hf
        have hins : ∀ id b, (set.insert (g.node r).id true).lookup id = some b → b = true := by
          intro id b hb
          rw [GoMap.lookup_insert] at hb
          split at hb
          · exact (Option.some.inj hb).symm
          · exact hset id b hb
        obtain ⟨h₁, h₂⟩ := ih _ hins
        refine ⟨h₁, h₂.trans ?_⟩
        have hid : has (set.insert (g.node r).id true) id = true ↔
            has set id = true ∨ g.idOf r = id := by
          unfold has Graph.idOf
          rw [GoMap.lookup_insert]
          by_cases hidr : id = (g.node r).id
          · simp [hidr]
          · simp [hidr, Ne.symm hidr]
        rw [hid, or_assoc]
        simp only [List.exists_mem_cons_iff, hyes, and_true]

variable {g : Graph}

/-- **The set holds the nodes in scope.** -/
theorem has_inScopeSet (hg : g.Weak) (ord : MapOrder) (scope id : String) :
    has (inScopeSet ord g scope) id = true ↔ InScope g scope id := by
  refine (lookup_inScopeSet g scope (g.allNodes ord) ∅ (by simp) id).2.trans ?_
  rw [or_iff_right (by simp [has])]
  constructor
  · rintro ⟨r, hr, rfl, hscoped⟩
    exact ⟨g.node r, ((hg.nodes.mem_allNodes ord).mp hr).nodeAt, hscoped⟩
  · rintro ⟨n, hn, hscoped⟩
    obtain ⟨r, hr, rfl⟩ := Graph.nodeAt_eq_some.mp hn
    exact ⟨r, (hg.nodes.mem_allNodes ord).mpr (hg.nodes.storedNode hr), (hg.nodes.home hr).1,
      hscoped⟩

/-- The loop over the set visits the nodes in scope. -/
theorem mem_scopeOrder (hg : g.Weak) (ord : MapOrder) (scope id : String) :
    id ∈ (ord.order g (inScopeSet ord g scope).pairs).map Prod.fst ↔ InScope g scope id := by
  rw [← has_inScopeSet hg ord, List.mem_map]
  simp only [Prod.exists, exists_and_right, exists_eq_right, ord.mem, GoMap.mem_pairs]
  unfold has
  constructor
  · rintro ⟨b, hb⟩
    rw [hb, (lookup_inScopeSet g scope (g.allNodes ord) ∅ (by simp) id).1 b hb]
    rfl
  · intro h
    cases hl : (inScopeSet ord g scope).lookup id with
    | none =>
      rw [hl] at h
      exact absurd h (by simp)
    | some b => exact ⟨b, rfl⟩

/-! ### Would a new edge close a cycle? -/

/-- What the adjacency of `wouldCreateCycle` holds of some edges. -/
structure SeenOf (edges : List Edge) (s : SeenAdjacency) : Prop where
  lists : Lists edges s.adj
  seen : ∀ a b, has ((s.seen.lookup a).getD ∅) b = true ↔ b ∈ Grouped.slice s.adj a

theorem SeenOf.add {edges : List Edge} {s : SeenAdjacency} (h : SeenOf edges s) {e : Edge}
    (he : Dependency e) : SeenOf (edges ++ [e]) (addSeen s e) := by
  have hlists := h.lists.concat e
  have hseen := h.seen e.fromID e.toID
  have hdep : ¬(e.kind ≠ .edgeImports ∧ e.kind ≠ .edgeCalls) := fun hno => he.elim hno.1 hno.2
  unfold addSeen
  rw [if_neg hdep]
  by_cases hin : e.toID ∈ Grouped.slice s.adj e.fromID
  · rw [if_pos hin] at hlists
    rw [if_pos (hseen.mpr hin)]
    refine ⟨hlists, fun a b => ?_⟩
    rw [GoMap.lookup_insert, ← h.seen]
    by_cases ha : a = e.fromID
    · rw [if_pos ha, Option.getD_some, ha]
    · rw [if_neg ha]
  · rw [if_neg hin] at hlists
    rw [if_neg (mt hseen.mp hin)]
    refine ⟨hlists, fun a b => ?_⟩
    rw [Grouped.push, Grouped.slice_insert, GoMap.lookup_insert]
    by_cases ha : a = e.fromID
    · subst ha
      rw [if_pos rfl, if_pos rfl, Option.getD_some, List.mem_append, List.mem_singleton,
        ← h.seen, has, GoMap.lookup_insert]
      by_cases hb : b = e.toID
      · simp [hb]
      · rw [if_neg hb, or_iff_left hb, has]
    · rw [if_neg ha, if_neg ha, h.seen]

theorem addSeen_of_not {s : SeenAdjacency} {e : Edge} (he : ¬Dependency e) : addSeen s e = s := by
  unfold addSeen
  rw [if_pos (not_or.mp he)]

theorem seenOf_foldl (l edges : List Edge) (s : SeenAdjacency) (h : SeenOf edges s) :
    SeenOf (edges ++ l.filter fun e => Dependency e) (l.foldl addSeen s) := by
  induction l generalizing edges s with
  | nil =>
    rw [List.filter_nil, List.append_nil]
    exact h
  | cons e l ih =>
    rw [List.foldl_cons]
    by_cases he : Dependency e
    · rw [List.filter_cons_of_pos (by simpa using he)]
      have := ih _ _ (h.add he)
      rwa [List.append_assoc, List.singleton_append] at this
    · rw [List.filter_cons_of_neg (by simpa using he), addSeen_of_not he]
      exact ih _ _ h

theorem SeenOf.empty : SeenOf [] ⟨∅, ∅⟩ :=
  ⟨fun _ => rfl, fun _ _ => iff_of_false (by simp [has]) List.not_mem_nil⟩

/-- **WouldCreateCycle is sound and complete**, for every graph that a run leads to: it has a
result, so that the search and the loop along the parents end; it says yes iff the source of
the new edge can be reached from its target, and the path is then a simple one from the
target to the source. -/
theorem wouldCreateCycle_exact (hg : g.Weak) (ord : MapOrder) (fromID toID : String) :
    ∃ found path, wouldCreateCycle ord g fromID toID = some (found, path) ∧
      (found = true ↔ ReflTransGen (Depends g) toID fromID) ∧
      (found = true → Dfs.SimplePath (Depends g) toID fromID path) ∧
      (found = false → path = []) := by
  let edges := (g.allEdges ord).map g.edge
  let next := Grouped.slice (edges.foldl addSeen ⟨∅, ∅⟩).adj
  have hseen := seenOf_foldl edges [] ⟨∅, ∅⟩ SeenOf.empty
  rw [List.nil_append] at hseen
  have hmem : ∀ a b, b ∈ next a ↔ ∃ e ∈ edges, Dependency e ∧ e.fromID = a ∧ e.toID = b := by
    intro a b
    refine hseen.lists.mem.trans ?_
    simp only [List.mem_filter, decide_eq_true_eq, and_assoc]
  have hstep : Dfs.Step next = Depends g := by
    funext a b
    refine propext ((hmem a b).trans ?_)
    exact exists_congr fun e => and_congr_left fun _ => hg.mem_map_allEdges ord
  -- all vertices of the search are the start and targets of edges
  have hclosed : ∀ v ∈ toID :: edges.map Edge.toID, ∀ w ∈ next v,
      w ∈ toID :: edges.map Edge.toID := fun v _ w hw => by
    obtain ⟨e, he, -, -, rfl⟩ := (hmem v w).mp hw
    exact List.mem_cons_of_mem _ (List.mem_map_of_mem he)
  have hsearch : ∃ s, Dfs.search next (fun node => node = fromID) (fun _ _ => false)
      (edges.length + 1) toID (Dfs.init fun _ => "") = some s ∧ _ :=
    Dfs.search_spec hclosed List.mem_cons_self (by simp) _
  obtain ⟨s, heq, hends, hnone⟩ := hsearch
  rw [hstep] at hends hnone
  have hrun : wouldCreateCycle ord g fromID toID = wouldAnswer fromID toID s :=
    congrArg (fun o => Option.bind o (wouldAnswer fromID toID)) heq
  rw [hrun]
  unfold wouldAnswer
  cases hfound : s.found with
  | none =>
    refine ⟨false, [], rfl, iff_of_false Bool.false_ne_true fun hreach => ?_, nofun, fun _ => rfl⟩
    have hstop := (hnone hfound fromID hreach).1
    exact absurd hstop (by simp)
  | some x =>
    obtain ⟨hwhy, p, hback, hpath⟩ := hends x hfound
    have hx : x = fromID := by
      rcases hwhy with hstop | ⟨w, -, hw⟩
      · exact of_decide_eq_true hstop
      · exact absurd hw Bool.false_ne_true
    subst hx
    have hrev : (p ++ [toID]).reverse = toID :: p.reverse := by simp
    refine ⟨true, toID :: p.reverse, ?_, iff_of_true rfl hpath.reach, fun _ => hpath, nofun⟩
    simp only [hback, Option.map_some, hrev]

/-! ### Detecting cycles -/

/-- The neighbours that `tarjanSCC` follows. -/
def neighbours (ord : MapOrder) (g : Graph) (scope a : String) : List String :=
  (Grouped.slice (adjacency ord g scope).adj a).filter fun b => has (inScopeSet ord g scope) b

/-- The lists hold the dependencies in scope. -/
theorem mem_adjacency (hg : g.Weak) (ord : MapOrder) (scope a b : String) :
    b ∈ Grouped.slice (adjacency ord g scope).adj a ↔ DependsIn g scope a b := by
  have hof := adjacencyOf_foldl (inScopeSet ord g scope) ((g.allEdges ord).map g.edge) [] ⟨∅, ∅⟩
    AdjacencyOf.empty
  rw [List.nil_append] at hof
  refine hof.lists.mem.trans ?_
  unfold DependsIn
  simp only [List.mem_filter, decide_eq_true_eq]
  simp only [hg.mem_map_allEdges, admitted, has_inScopeSet hg]
  constructor
  · rintro ⟨e, ⟨he, hdep, hfrom, hto⟩, rfl, rfl⟩
    exact ⟨⟨e, he, hdep, rfl, rfl⟩, hfrom, hto⟩
  · rintro ⟨⟨e, he, hdep, rfl, rfl⟩, hfrom, hto⟩
    exact ⟨e, ⟨he, hdep, hfrom, hto⟩, rfl, rfl⟩

theorem step_neighbours (hg : g.Weak) (ord : MapOrder) (scope : String) :
    Dfs.Step (neighbours ord g scope) = DependsIn g scope := by
  funext a b
  refine propext ?_
  change b ∈ neighbours ord g scope a ↔ _
  rw [neighbours, List.mem_filter, mem_adjacency hg, has_inScopeSet hg]
  exact ⟨fun h => h.1, fun h => ⟨h, h.2.2⟩⟩

/-- **The components are found**, for every graph that a run leads to and every scope. -/
theorem tarjanSCC_spec (hg : g.Weak) (ord : MapOrder) (scope : String) :
    ∃ sccs, tarjanSCC ((ord.order g (inScopeSet ord g scope).pairs).map Prod.fst)
        (inScopeSet ord g scope) (adjacency ord g scope).adj = some sccs ∧
      Tarjan.Components (DependsIn g scope) (InScope g scope) sccs := by
  have hclosed : ∀ v ∈ (ord.order g (inScopeSet ord g scope).pairs).map Prod.fst,
      ∀ w ∈ neighbours ord g scope v,
        w ∈ (ord.order g (inScopeSet ord g scope).pairs).map Prod.fst := fun v _ w hw => by
    rw [mem_scopeOrder hg, ← has_inScopeSet hg ord]
    exact (List.mem_filter.mp hw).2
  obtain ⟨s, heq, hs⟩ := Tarjan.run_spec hclosed
  rw [step_neighbours hg] at hs
  refine ⟨s.sccs, ?_, hs.congr fun v => mem_scopeOrder hg ord scope v⟩
  exact congrArg (Option.map Tarjan.State.sccs) heq

/-- **The representative cycle** of a component of two members is found, and it is a simple
cycle within the component. -/
theorem orderCyclePath_spec (hg : g.Weak) (ord : MapOrder) (scope : String)
    {sccs : List (List String)}
    (hsccs : Tarjan.Components (DependsIn g scope) (InScope g scope) sccs) {scc : List String}
    (hscc : scc ∈ sccs) (htwo : 2 ≤ scc.length) :
    ∃ start path, scc.head? = some start ∧
      orderCyclePath scc (adjacency ord g scope).adj = some path ∧ path ⊆ scc ∧
      Dfs.SimpleCycle (DependsIn g scope) path ∧
      Dfs.FirstCycle (fun v => (Grouped.slice (adjacency ord g scope).adj v).filter fun w => w ∈ scc)
        (fun _ => "") scc.length start path := by
  cases hhead : scc.head? with
  | none =>
    rw [List.head?_eq_none_iff] at hhead
    rw [hhead] at htwo
    exact absurd htwo (by simp)
  | some start =>
    have hstart : start ∈ scc := List.mem_of_mem_head? hhead
    let next := fun v => (Grouped.slice (adjacency ord g scope).adj v).filter fun w => w ∈ scc
    have hstep : ∀ a b, Dfs.Step next a b ↔ DependsIn g scope a b ∧ b ∈ scc := fun a b => by
      change b ∈ next a ↔ _
      rw [List.mem_filter, mem_adjacency hg, decide_eq_true_eq]
    have hclosed : ∀ v ∈ scc, ∀ w ∈ next v, w ∈ scc := fun v _ w hw => ((hstep v w).mp hw).2
    have hsearch : ∃ s, Dfs.search next (fun _ => false) (fun node next => next = start ∧ node ≠ start)
        scc.length start (Dfs.init fun _ => "") = some s ∧ _ :=
      Dfs.search_spec hclosed hstart le_rfl _
    obtain ⟨s, heq, hends, hnone⟩ := hsearch
    have hrun : orderCyclePath scc (adjacency ord g scope).adj = cyclePathOf scc start s := by
      rw [orderCyclePath, hhead]
      exact congrArg (fun o => Option.bind o (cyclePathOf scc start)) heq
    rw [hrun]
    unfold cyclePathOf
    cases hfound : s.found with
    | none =>
      -- some member that can be reached within the component leads back to the start
      obtain ⟨x, hx, hne, hback⟩ := hsccs.closing hscc htwo hstart
      have hreach : ReflTransGen (Dfs.Step next) start x :=
        ReflTransGen.mono (fun a b h => (hstep a b).mpr h) _ _ hx
      have hstop := (hnone hfound x hreach).2 start ((hstep x start).mpr ⟨hback, hstart⟩)
      exact absurd hstop (by simp [hne])
    | some x =>
      obtain ⟨hwhy, p, hback, hpath⟩ := hends x hfound
      have hclose : DependsIn g scope x start ∧ x ≠ start := by
        rcases hwhy with hstop | ⟨w, hw, hstop⟩
        · exact absurd hstop Bool.false_ne_true
        · obtain ⟨rfl, hne⟩ := of_decide_eq_true hstop
          exact ⟨((hstep x w).mp hw).1, hne⟩
      have hcycle : Dfs.SimpleCycle (DependsIn g scope) (start :: p.reverse) :=
        (hpath.imp fun a b h => ((hstep a b).mp h).1).close hclose.2 hclose.1
      refine ⟨start, start :: p.reverse, rfl, ?_, ?_, hcycle, s, x, p, heq, hfound, hback, rfl⟩
      · simp only [hback, Option.map_some]
        rw [if_pos hcycle.two_le]
      · exact hpath.subset (fun a b h => ((hstep a b).mp h).2) hstart

/-- What is reported for a component: nothing for a single node, and one cycle for two
members or more. -/
def Reported (Q : List String → Cycle → Prop) (scc : List String) (cycles : List Cycle) : Prop :=
  (scc.length < 2 ∧ cycles = []) ∨ (2 ≤ scc.length ∧ ∃ c, cycles = [c] ∧ Q scc c)

theorem cycleOf_spec (hg : g.Weak) (ord : MapOrder) (scope : String)
    (communities : Option (GoMap String String)) {sccs : List (List String)}
    (hsccs : Tarjan.Components (DependsIn g scope) (InScope g scope) sccs) {scc : List String}
    (hscc : scc ∈ sccs) :
    ∃ cycles, cycleOf (adjacency ord g scope) communities scc = some cycles ∧
      Reported (fun scc c => orderCyclePath scc (adjacency ord g scope).adj = some c.path ∧
        (c.kind, c.severity) = classifyCycle c.path (adjacency ord g scope).edgeKinds communities ∧
        c.path ⊆ scc ∧ Dfs.SimpleCycle (DependsIn g scope) c.path) scc cycles := by
  unfold cycleOf
  by_cases hone : scc.length < 2
  · rw [if_pos hone]
    exact ⟨[], rfl, Or.inl ⟨hone, rfl⟩⟩
  · have htwo : 2 ≤ scc.length := Nat.le_of_not_lt hone
    rw [if_neg hone]
    obtain ⟨-, path, -, hpath, hsub, hcycle, -⟩ := orderCyclePath_spec hg ord scope hsccs hscc htwo
    refine ⟨_, by rw [hpath]; rfl, Or.inr ⟨htwo, _, rfl, hpath, rfl, hsub, hcycle⟩⟩

/-- The components of two members, with the cycles that are reported for them. -/
theorem forall₂_flatten {Q : List String → Cycle → Prop} {sccs : List (List String)}
    {cycles : List (List Cycle)} (h : List.Forall₂ (Reported Q) sccs cycles) :
    List.Forall₂ Q (sccs.filter fun scc => 2 ≤ scc.length) cycles.flatten := by
  induction h with
  | nil => exact List.Forall₂.nil
  | @cons scc cs sccs cycles hone _ ih =>
    rw [List.flatten_cons]
    rcases hone with ⟨hone, rfl⟩ | ⟨htwo, c, rfl, hQ⟩
    · rwa [List.filter_cons_of_neg (by simpa using hone), List.nil_append]
    · rw [List.filter_cons_of_pos (by simpa using htwo), List.singleton_append]
      exact List.Forall₂.cons hQ ih

/-- **What DetectCycles reports**: the cycle of each component of two members, in some
order. -/
theorem detectCycles_spec (hg : g.Weak) (ord : MapOrder) (sortSlice : SortSlice Cycle)
    (communities : Option (GoMap String String)) (scope : String) :
    ∃ sccs, tarjanSCC ((ord.order g (inScopeSet ord g scope).pairs).map Prod.fst)
        (inScopeSet ord g scope) (adjacency ord g scope).adj = some sccs ∧
      Tarjan.Components (DependsIn g scope) (InScope g scope) sccs ∧
      ∃ cycles reported, detectCycles ord sortSlice g communities scope = some cycles ∧
        cycles.Perm reported ∧
        List.Forall₂ (fun scc c => orderCyclePath scc (adjacency ord g scope).adj = some c.path ∧
          (c.kind, c.severity) =
            classifyCycle c.path (adjacency ord g scope).edgeKinds communities ∧
          c.path ⊆ scc ∧ Dfs.SimpleCycle (DependsIn g scope) c.path)
          (sccs.filter fun scc => 2 ≤ scc.length) reported := by
  obtain ⟨sccs, heq, hsccs⟩ := tarjanSCC_spec hg ord scope
  obtain ⟨cycles, hcycles, hall⟩ := List.mapM_some fun scc hscc =>
    cycleOf_spec hg ord scope communities hsccs hscc
  have hrun : detectCycles ord sortSlice g communities scope =
      some (sortSlice.sort (fun c c' => c'.severity < c.severity) cycles.flatten) := by
    unfold detectCycles
    simp only
    rw [heq, Option.bind_some, hcycles, Option.map_some]
  exact ⟨sccs, heq, hsccs, _, cycles.flatten, hrun, sortSlice.perm _ _, forall₂_flatten hall⟩

/-- **DetectCycles is exact**, for every graph that a run leads to and every scope. The
components are the classes of mutual reachability along the calls and imports in scope. There
is one cycle for each component of two members or more, and no other, and its path is a
simple cycle of the members of the component along such calls and imports. -/
theorem detectCycles_exact (hg : g.Weak) (ord : MapOrder) (sortSlice : SortSlice Cycle)
    (communities : Option (GoMap String String)) (scope : String) :
    ∃ sccs, tarjanSCC ((ord.order g (inScopeSet ord g scope).pairs).map Prod.fst)
        (inScopeSet ord g scope) (adjacency ord g scope).adj = some sccs ∧
      Tarjan.Components (DependsIn g scope) (InScope g scope) sccs ∧
      ∃ cycles reported, detectCycles ord sortSlice g communities scope = some cycles ∧
        cycles.Perm reported ∧
        List.Forall₂ (fun scc c => c.path ⊆ scc ∧ Dfs.SimpleCycle (DependsIn g scope) c.path)
          (sccs.filter fun scc => 2 ≤ scc.length) reported := by
  obtain ⟨sccs, heq, hsccs, cycles, reported, hcycles, hperm, hall⟩ :=
    detectCycles_spec hg ord sortSlice communities scope
  exact ⟨sccs, heq, hsccs, cycles, reported, hcycles, hperm, hall.imp fun _ _ h => h.2.2⟩

namespace TwoCycles

/-- Two functions that call each other, and two of which one imports the other and is called
by it; a call leads from the first two to the others. -/
def graph : Graph :=
  let fn (id : String) : Node := { id := id, kind := .kindFunction, name := id, filePath := "a.go" }
  let edge (fromID toID : String) (kind : EdgeKind) : Edge :=
    { fromID := fromID, toID := toID, kind := kind, filePath := "a.go" }
  ((((((((Graph.new.putNode (fn "a")).putNode (fn "b")).putNode (fn "c")).putNode (fn "d")).putEdge
    (edge "a" "b" .edgeCalls)).putEdge (edge "b" "a" .edgeCalls)).putEdge
    (edge "b" "c" .edgeCalls)).putEdge (edge "c" "d" .edgeImports)).putEdge
    (edge "d" "c" .edgeCalls)

theorem weak_graph : graph.Weak :=
  ((((((((Graph.Weak.new.putNode _).putNode _).putNode _).putNode _).putEdge _).putEdge _).putEdge
    _).putEdge _).putEdge _

/-- Without a change of the order, as a sort may leave the elements. -/
def unsorted : SortSlice Cycle := ⟨fun _ l => l, fun _ _ => List.Perm.refl _⟩

/-- Two cycles are reported, one of calls and one with an import. -/
theorem detectCycles_exact_graph :
    (∃ sccs, Tarjan.Components (DependsIn graph "") (InScope graph "") sccs) ∧
      (detectCycles .default unsorted graph none "").map (List.map fun c => (c.path, c.kind)) =
        some [(["d", "c"], .importCycle), (["b", "a"], .callCycle)] := by
  obtain ⟨sccs, -, hsccs, -⟩ := detectCycles_exact weak_graph .default unsorted none ""
  exact ⟨⟨sccs, hsccs⟩, by decide +kernel⟩

/-- An edge from the last function to the first would close a cycle. -/
theorem wouldCreateCycle_exact_graph :
    (∃ found path, wouldCreateCycle .default graph "d" "a" = some (found, path) ∧
      (found = true ↔ ReflTransGen (Depends graph) "a" "d")) ∧
    wouldCreateCycle .default graph "d" "a" = some (true, ["a", "b", "c", "d"]) := by
  obtain ⟨found, path, heq, hiff, -⟩ := wouldCreateCycle_exact weak_graph .default "d" "a"
  exact ⟨⟨found, path, heq, hiff⟩, by decide +kernel⟩

end TwoCycles

end Analysis

end Gortex
