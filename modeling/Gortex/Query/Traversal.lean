import Gortex.Lib.Bfs
import Gortex.Query.Engine

/-!
# What a traversal finds

The traversal of the engine is a bounded breadth-first search over the IDs of the graph:
the neighbours of an ID are the other ends of the edges it looks at, but for the
unresolved and external ones, and an ID is live if a node is stored under it. Its state
without the edges it collects is a state of the search of the library
(`Gortex.BfsState.search`), and every step of the loop is a step of the search
(`Gortex.search_bfsWalk`). So what is said of a search holds of the traversal
(`Gortex.bfs_correct`), for every graph whose node tables are right, as those of every
reachable graph are.

What a hop is is stated with the two adjacency lists of an ID, which is all a traversal
looks at.
-/

namespace Gortex

open GoString

/-! ### Hops in the graph -/

/-- A target that a traversal does not follow. -/
def Skipped (id : String) : Prop :=
  hasPrefix id "unresolved::" = true ∨ hasPrefix id "external::" = true

instance instDecidableSkipped (id : String) : Decidable (Skipped id) :=
  inferInstanceAs (Decidable (hasPrefix id "unresolved::" = true ∨ hasPrefix id "external::" = true))

/-- **The edge is admitted from `a` to `b`**: along it, against it, or either way. -/
def Walk.Admits (e : Edge) (a b : String) : Walk → Prop
  | forward kinds => e.kind ∈ kinds ∧ e.fromID = a ∧ e.toID = b
  | backward kinds => e.kind ∈ kinds ∧ e.toID = a ∧ e.fromID = b
  | bidir => (e.fromID = a ∧ e.toID = b) ∨ (e.fromID ≠ a ∧ e.fromID = b)

/-- **One hop**: along an admitted edge, to a node that is stored, and whose ID is neither
unresolved nor external. -/
def HopTo (g : Graph) (w : Walk) (a b : String) : Prop :=
  (∃ r ∈ w.edgesAt g a, w.Admits (g.edge r) a b) ∧ ¬Skipped b ∧ (g.getNode b).isSome = true

/-- The node is stored, and at most so many hops away from the start, over stored nodes. -/
def Reaches (g : Graph) (w : Walk) (start : String) (hops : ℕ) (r : NodeRef) : Prop :=
  g.StoredNode r ∧ Bfs.Within (HopTo g w) start hops (g.idOf r)

theorem Walk.neighbor_eq_some {w : Walk} {e : Edge} {a b : String} :
    w.neighbor a e = some b ↔ w.Admits e a b := by
  rcases w with kinds | kinds | _
  · simp only [Walk.neighbor, Walk.Admits, Option.ite_none_right_eq_some, Option.some.injEq,
      and_assoc]
  · simp only [Walk.neighbor, Walk.Admits, Option.ite_none_right_eq_some, Option.some.injEq,
      and_assoc]
  · simp only [Walk.neighbor, Walk.Admits]
    split_ifs with hf
    · simp [hf]
    · simp [hf]

/-! ### The traversal as a search -/

/-- The ID that an edge sends a traversal to. -/
def Walk.target (g : Graph) (w : Walk) (id : String) (r : EdgeRef) : Option String :=
  (w.neighbor id (g.edge r)).filter fun b => ¬Skipped b

/-- The IDs that the edges of an ID send a traversal to. -/
def Walk.targets (g : Graph) (w : Walk) (id : String) : List String :=
  (w.edgesAt g id).filterMap (w.target g id)

/-- Whether a node is stored under the ID. -/
def stored (g : Graph) (id : String) : Bool := (g.getNode id).isSome

/-- The state of a traversal without the edges, its nodes by their IDs. -/
def BfsState.search (g : Graph) (s : BfsState) : Bfs.State String where
  queue := s.queue
  visited := s.visited
  listed := s.allNodes.map g.idOf
  truncated := s.truncated

theorem hop_targets (g : Graph) (w : Walk) (a b : String) :
    Bfs.Hop (w.targets g) (stored g) a b ↔ HopTo g w a b := by
  have hmem : b ∈ w.targets g a ↔
      (∃ r ∈ w.edgesAt g a, w.Admits (g.edge r) a b) ∧ ¬Skipped b := by
    unfold Walk.targets Walk.target
    rw [List.mem_filterMap]
    constructor
    · rintro ⟨r, hr, hb⟩
      obtain ⟨hb, hs⟩ := Option.filter_eq_some_iff.mp hb
      exact ⟨⟨r, hr, Walk.neighbor_eq_some.mp hb⟩, of_decide_eq_true hs⟩
    · rintro ⟨⟨r, hr, hb⟩, hs⟩
      exact ⟨r, hr, Option.filter_eq_some_iff.mpr
        ⟨Walk.neighbor_eq_some.mpr hb, decide_eq_true hs⟩⟩
  unfold Bfs.Hop HopTo
  rw [hmem, and_assoc]
  rfl

variable {g : Graph}

/-- **One edge** is a visit to the ID it leads to, if it leads to one. -/
theorem search_bfsEdge (hg : Graph.NodeInv g) (w : Walk) (limit : ℕ) (id : String) (depth : ℕ)
    (s : BfsState) (r : EdgeRef) :
    (bfsEdge g w limit id depth s r).search g =
      (w.target g id r).elim (s.search g) (Bfs.visit (stored g) limit depth (s.search g)) := by
  have hlen : (s.search g).listed.length = s.allNodes.length := List.length_map _
  have hvisited : (s.search g).visited = s.visited := rfl
  unfold bfsEdge Walk.target
  cases w.neighbor id (g.edge r) with
  | none => rfl
  | some b =>
    simp only [Option.filter_some]
    by_cases hskip : hasPrefix b "unresolved::" = true ∨ hasPrefix b "external::" = true
    · have hno : decide (¬Skipped b) = false := decide_eq_false (not_not.mpr hskip)
      rw [if_pos hskip, hno]
      rfl
    · have hyes : decide (¬Skipped b) = true := decide_eq_true hskip
      rw [if_neg hskip, hyes, if_pos rfl, Option.elim_some]
      unfold Bfs.visit
      rw [hvisited, hlen]
      by_cases hseen : b ∈ s.visited
      · rw [if_pos hseen, if_pos hseen]
        rfl
      · rw [if_neg hseen, if_neg hseen]
        unfold stored
        cases hn : g.getNode b with
        | none => rfl
        | some n =>
          rw [if_neg (by simp)]
          simp only
          by_cases hfull : limit ≤ s.allNodes.length
          · rw [if_pos hfull, if_pos hfull]
            rfl
          · rw [if_neg hfull, if_neg hfull]
            have hid : g.idOf n = b := (hg.home hn).1
            unfold BfsState.search
            rw [List.map_append, List.map_singleton, hid]

theorem search_foldl_bfsEdge (hg : Graph.NodeInv g) (w : Walk) (limit : ℕ) (id : String) (depth : ℕ)
    (l : List EdgeRef) (s : BfsState) :
    (l.foldl (bfsEdge g w limit id depth) s).search g =
      (l.filterMap (w.target g id)).foldl (Bfs.visit (stored g) limit depth) (s.search g) := by
  induction l generalizing s with
  | nil => rfl
  | cons r l ih =>
    rw [List.foldl_cons, ih, search_bfsEdge hg]
    cases ht : w.target g id r with
    | none => rw [List.filterMap_cons_none ht, Option.elim_none]
    | some b => rw [List.filterMap_cons_some ht, Option.elim_some, List.foldl_cons]

/-- **One entry of the queue** is an expansion. -/
theorem search_bfsItem (hg : Graph.NodeInv g) (w : Walk) (hops limit : ℕ) (cur : String × ℕ)
    (s : BfsState) :
    (bfsItem g w hops limit cur s).search g =
      Bfs.expand (w.targets g) (stored g) hops limit cur (s.search g) := by
  unfold bfsItem Bfs.expand
  by_cases hdeep : hops ≤ cur.2
  · rw [if_pos hdeep, if_pos hdeep]
  · rw [if_neg hdeep, if_neg hdeep]
    exact search_foldl_bfsEdge hg w limit cur.1 cur.2 _ _

theorem search_bfsLoop (hg : Graph.NodeInv g) (w : Walk) (hops limit : ℕ) (fuel : ℕ) (s : BfsState) :
    (bfsLoop g w hops limit fuel s).search g =
      Bfs.loop (w.targets g) (stored g) hops limit fuel (s.search g) := by
  induction fuel generalizing s with
  | zero => rfl
  | succ fuel ih =>
    have hqueue : (s.search g).queue = s.queue := rfl
    unfold bfsLoop Bfs.loop
    rw [hqueue]
    cases hq : s.queue with
    | nil => rfl
    | cons cur rest =>
      simp only
      rw [ih, search_bfsItem hg]
      rfl

theorem search_bfsInit (hg : Graph.NodeInv g) (nodeID : String) :
    (bfsInit g nodeID).search g = Bfs.init (stored g) nodeID := by
  unfold bfsInit BfsState.search Bfs.init stored
  cases hn : g.getNode nodeID with
  | none => simp [hn]
  | some n =>
    have hid : g.idOf n = nodeID := (hg.home hn).1
    simp [hn, hid]

/-- **The traversal is the search.** -/
theorem search_bfsWalk (hg : Graph.NodeInv g) (nodeID : String) (opts : QueryOptions) (w : Walk) :
    (bfsWalk g nodeID opts w).search g =
      Bfs.loop (w.targets g) (stored g) opts.hops opts.maxNodes (opts.maxNodes + 1)
        (Bfs.init (stored g) nodeID) := by
  rw [bfsWalk, search_bfsLoop hg, search_bfsInit hg]

/-! ### The outcome -/

/-- More fuel than it takes to empty the queue changes nothing. -/
theorem bfsLoop_add (w : Walk) (hops limit : ℕ) {fuel : ℕ} (k : ℕ) {s : BfsState}
    (h : (bfsLoop g w hops limit fuel s).queue = []) :
    bfsLoop g w hops limit (fuel + k) s = bfsLoop g w hops limit fuel s := by
  induction fuel generalizing s with
  | zero =>
    have hq : s.queue = [] := h
    cases k with
    | zero => rfl
    | succ k =>
      rw [Nat.zero_add]
      unfold bfsLoop
      rw [hq]
  | succ fuel ih =>
    rw [Nat.succ_add]
    unfold bfsLoop at h ⊢
    cases hq : s.queue with
    | nil => rfl
    | cons cur rest =>
      rw [hq] at h
      exact ih h

theorem QueryOptions.maxNodes_pos (opts : QueryOptions) : 0 < opts.maxNodes := by
  unfold QueryOptions.maxNodes
  split_ifs <;> omega

/-- **The answer of a traversal is correct.** Its nodes are stored and within the number of
hops; they come once each, the nearer ones first, and no more of them than the limit. All
such nodes are there unless the answer is marked as truncated, which it is iff one of them
is missing, and then the list is full. -/
structure BfsCorrect (g : Graph) (w : Walk) (start : String) (hops limit : ℕ) (sg : SubGraph) :
    Prop where
  nodup : (sg.nodes.map g.idOf).Nodup
  length_le : sg.nodes.length ≤ limit
  nearer : sg.nodes.Pairwise fun r r' => Bfs.Nearer (HopTo g w) start (g.idOf r) (g.idOf r')
  reaches : ∀ r ∈ sg.nodes, Reaches g w start hops r
  complete : sg.truncated = false → ∀ r, r ∈ sg.nodes ↔ Reaches g w start hops r
  truncated_iff : sg.truncated = true ↔ ∃ r, Reaches g w start hops r ∧ r ∉ sg.nodes
  full : sg.truncated = true → sg.nodes.length = limit

/-- **The traversal terminates with a correct answer**: its queue is empty after as many
rounds as the limit, and one more, and further rounds change nothing. -/
theorem bfs_correct (hg : Graph.NodeInv g) (nodeID : String) (opts : QueryOptions) (w : Walk) :
    ((bfsWalk g nodeID opts w).queue = [] ∧ ∀ k, bfsLoop g w opts.hops opts.maxNodes
      (opts.maxNodes + 1 + k) (bfsInit g nodeID) = bfsWalk g nodeID opts w) ∧
    BfsCorrect g w nodeID opts.hops opts.maxNodes (bfs g nodeID opts w).2 := by
  have hqueue := bfsWalk_queue g nodeID opts w
  refine ⟨⟨hqueue, fun k => bfsLoop_add w _ _ k hqueue⟩, ?_⟩
  have hcorrect : Bfs.Correct (w.targets g) (stored g) opts.hops opts.maxNodes nodeID
      ((bfsWalk g nodeID opts w).search g) := by
    have hinit : Bfs.Inv (w.targets g) (stored g) opts.hops opts.maxNodes nodeID [] [] 0
        (Bfs.init (stored g) nodeID) := Bfs.Inv.init opts.maxNodes_pos nodeID
    obtain ⟨h, hinv⟩ := hinit.loop (opts.maxNodes + 1)
    rw [search_bfsWalk hg]
    refine hinv.correct ?_
    rw [← search_bfsWalk hg]
    exact hqueue
  -- the hops of the search are those of the traversal, and IDs stand for stored nodes
  have hhop : Bfs.Hop (w.targets g) (stored g) = HopTo g w :=
    funext fun a => funext fun b => propext (hop_targets g w a b)
  have hstored : ∀ r ∈ (bfsWalk g nodeID opts w).allNodes, g.StoredNode r :=
    bfsWalk_allNodes (P := fun l => ∀ r ∈ l, g.StoredNode r)
      (fun r hr => hg.storedNode (Option.mem_toList.mp hr)) fun hl hn r hr => by
        rcases List.mem_append.mp hr with hr | hr
        · exact hl r hr
        · rw [List.mem_singleton.mp hr]
          exact hg.storedNode hn
  have hlive : ∀ {r}, g.StoredNode r → stored g (g.idOf r) = true := fun {r} hr => by
    rw [stored, show g.getNode (g.idOf r) = some r from hr]
    rfl
  have hmem : ∀ r, g.StoredNode r → (g.idOf r ∈ (bfsWalk g nodeID opts w).allNodes.map g.idOf ↔
      r ∈ (bfsWalk g nodeID opts w).allNodes) := fun r hr => by
    refine ⟨fun hid => ?_, fun h => List.mem_map_of_mem h⟩
    obtain ⟨r', hr', hid⟩ := List.mem_map.mp hid
    rwa [← Graph.StoredNode.eq_of_id (hstored r' hr') hr hid]
  obtain ⟨h1, h2, h3, h4, h5, h6, h7⟩ := hcorrect
  rw [hhop] at h3 h4 h5 h6
  have hreaches : ∀ r ∈ (bfsWalk g nodeID opts w).allNodes, Reaches g w nodeID opts.hops r :=
    fun r hr => ⟨hstored r hr, (h4 _ (List.mem_map_of_mem hr)).2⟩
  have hcomplete : (bfsWalk g nodeID opts w).truncated = false → ∀ r,
      Reaches g w nodeID opts.hops r → r ∈ (bfsWalk g nodeID opts w).allNodes := fun ht r hr =>
    (hmem r hr.1).mp (h5 ht _ (hlive hr.1) hr.2)
  refine ⟨h1, ?_, List.pairwise_map.mp h3, hreaches, fun ht r => ⟨hreaches r, hcomplete ht r⟩,
    ⟨fun ht => ?_, fun ⟨r, hr, hnot⟩ => ?_⟩, fun ht => ?_⟩
  · exact (List.length_map g.idOf).symm.trans_le h2
  · obtain ⟨b, hb, hwithin, hnot⟩ := h6 ht
    obtain ⟨r, hr⟩ := Option.isSome_iff_exists.mp hb
    have hid : g.idOf r = b := (hg.home hr).1
    exact ⟨r, ⟨hg.storedNode hr, hid ▸ hwithin⟩, fun hc => hnot (hid ▸ List.mem_map_of_mem hc)⟩
  · by_contra hf
    exact hnot (hcomplete (Bool.eq_false_iff.mpr hf) r hr)
  · exact (List.length_map g.idOf).symm.trans (h7 ht)

namespace Cycle

/-- Three functions that call each other in a cycle, the first an external symbol too. -/
def graph : Graph :=
  let fn (id : String) : Node := { id := id, kind := .kindFunction, name := id, filePath := "a.go" }
  let call (fromID toID : String) : Edge := { fromID := fromID, toID := toID, kind := .edgeCalls }
  ((((((Graph.new.putNode (fn "a")).putNode (fn "b")).putNode (fn "c")).putEdge
    (call "a" "b")).putEdge (call "b" "c")).putEdge (call "c" "a")).putEdge (call "a" "external::fmt")

theorem inv_graph : Graph.Inv graph :=
  ((((((Graph.Inv.new.putNode _).putNode _).putNode _).putEdge _).putEdge _).putEdge _).putEdge _

/-- With room for two nodes, the third one is left out. -/
theorem bfs_correct_graph :
    BfsCorrect graph (.forward [.edgeCalls]) "a" 5 2
        (bfs graph "a" ⟨5, 2, "", ""⟩ (.forward [.edgeCalls])).2 ∧
      (bfs graph "a" ⟨5, 2, "", ""⟩ (.forward [.edgeCalls])).2.truncated = true :=
  ⟨(bfs_correct inv_graph.nodes "a" ⟨5, 2, "", ""⟩ (.forward [.edgeCalls])).2, by decide +kernel⟩

end Cycle

end Gortex
