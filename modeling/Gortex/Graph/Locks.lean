import Gortex.Lib.CriticalSection
import Gortex.Graph.Store

/-!
# The locks of the graph

The calls of `internal/graph/graph.go` with the locks they take. AddEdge and RemoveEdge lock the
shards of both ends, ReindexEdge those of the source and of both targets, the evictions and the
reads of the whole graph lock all shards, always in ascending order; the lookups by name, file,
repository and qualified name and the two counts lock one shard after the other, and release it
before they come to the next.

What a call does under its locks is written table by table (`SharedGraph.Op.body`), and is the
operation of `Gortex.Graph` (`SharedGraph.Op.does`). It stays within the locks that the source
takes for it (`SharedGraph.Op.within`).

Nothing is written through a pointer while the calls run: what is behind the pointers is that of
one graph, `base`.
-/

namespace Gortex

open Locking

/-! ### Which locks -/

/-- The shards of two IDs, in ascending order, and one of them if they are the same. -/
def lockTwoWrite (idA idB : String) : List (Fin numShards) :=
  let a := shardIdx idA
  let b := shardIdx idB
  if a = b then [a] else if a > b then [b, a] else [a, b]

/-- Two shards, swapped if they are not in ascending order. -/
def ascending (p : Fin numShards × Fin numShards) : Fin numShards × Fin numShards :=
  if p.1 > p.2 then (p.2, p.1) else p

/-- The shards of three IDs, in ascending order and without repetitions. -/
def lockThreeWrite (idA idB idC : String) : List (Fin numShards) :=
  let (a, b) := ascending (shardIdx idA, shardIdx idB)
  let (b, c) := ascending (b, shardIdx idC)
  let (a, b) := ascending (a, b)
  [a] ++ (if b ≠ a then [b] else []) ++ (if c ≠ b ∧ c ≠ a then [c] else [])

/-- All shards. -/
def lockAll : List (Fin numShards) := List.finRange numShards

/-- All shards are locked. -/
theorem mem_lockAll (i : Fin numShards) : i ∈ lockAll := List.mem_finRange i

/-- In the order of the array. -/
theorem lockAll_sorted : lockAll.Pairwise (· < ·) := List.pairwise_lt_finRange numShards

/-- Two locks come in ascending order, and none of them twice. -/
theorem lockTwoWrite_sorted (idA idB : String) : (lockTwoWrite idA idB).Pairwise (· < ·) := by
  unfold lockTwoWrite
  rcases lt_trichotomy (shardIdx idA) (shardIdx idB) with h | h | h
  · simp only [h.ne, h.not_gt, if_false, List.pairwise_cons, List.mem_singleton, forall_eq,
      List.not_mem_nil, false_implies, implies_true, List.Pairwise.nil, and_self]
    exact ⟨h, trivial⟩
  · simp only [h, if_true, List.pairwise_singleton]
  · simp only [h.ne', h, if_false, if_true, List.pairwise_cons, List.mem_singleton, forall_eq,
      List.not_mem_nil, false_implies, implies_true, List.Pairwise.nil, and_self]

/-- The shards of both IDs are locked. -/
theorem mem_lockTwoWrite {idA idB : String} {i : Fin numShards} :
    i ∈ lockTwoWrite idA idB ↔ i = shardIdx idA ∨ i = shardIdx idB := by
  unfold lockTwoWrite
  by_cases h : shardIdx idA = shardIdx idB
  · simp [h]
  · by_cases hgt : shardIdx idA > shardIdx idB
    · simp [h, hgt, or_comm]
    · simp [h, hgt]

/-- One swap. -/
theorem ascending_le (p : Fin numShards × Fin numShards) : (ascending p).1 ≤ (ascending p).2 := by
  unfold ascending
  split
  · rename_i h
    exact h.le
  · rename_i h
    exact not_lt.mp h

/-- The swap leaves the two shards what they are. -/
theorem eq_ascending_iff {p : Fin numShards × Fin numShards} {i : Fin numShards} :
    i = (ascending p).1 ∨ i = (ascending p).2 ↔ i = p.1 ∨ i = p.2 := by
  unfold ascending
  split
  · exact or_comm
  · exact Iff.rfl

/-- Three shards in ascending order, without repetitions. -/
theorem dedup_spec {a b c : Fin numShards} (hab : a ≤ b) (hbc : b ≤ c) :
    ([a] ++ (if b ≠ a then [b] else []) ++ (if c ≠ b ∧ c ≠ a then [c] else [])).Pairwise (· < ·) ∧
      ∀ i, i ∈ [a] ++ (if b ≠ a then [b] else []) ++ (if c ≠ b ∧ c ≠ a then [c] else []) ↔
        i = a ∨ i = b ∨ i = c := by
  grind

/-- Sorting three shards and leaving out repetitions. -/
theorem lockThreeWrite_spec (idA idB idC : String) :
    (lockThreeWrite idA idB idC).Pairwise (· < ·) ∧ ∀ i, i ∈ lockThreeWrite idA idB idC ↔
      i = shardIdx idA ∨ i = shardIdx idB ∨ i = shardIdx idC := by
  -- three swaps sort the three shards
  let p := ascending (shardIdx idA, shardIdx idB)
  let q := ascending (p.2, shardIdx idC)
  let r := ascending (p.1, q.1)
  have hpq : p.1 ≤ q.2 := by
    rcases eq_ascending_iff.mpr (Or.inl rfl : p.2 = (p.2, shardIdx idC).1 ∨ _) with h | h
    · exact (ascending_le _).trans (h.le.trans (ascending_le _))
    · exact (ascending_le _).trans h.le
  have hrq : r.2 ≤ q.2 := by
    rcases eq_ascending_iff.mp (Or.inr rfl : r.2 = r.1 ∨ r.2 = r.2) with h | h
    · exact h.le.trans hpq
    · exact h.le.trans (ascending_le _)
  obtain ⟨hsorted, hmem⟩ := dedup_spec (ascending_le (p.1, q.1) : r.1 ≤ r.2) hrq
  refine ⟨hsorted, fun i => (hmem i).trans ?_⟩
  calc i = r.1 ∨ i = r.2 ∨ i = q.2
      ↔ (i = p.1 ∨ i = q.1) ∨ i = q.2 := by rw [← or_assoc, eq_ascending_iff]
    _ ↔ i = p.1 ∨ (i = p.2 ∨ i = shardIdx idC) := by rw [or_assoc, eq_ascending_iff]
    _ ↔ i = shardIdx idA ∨ i = shardIdx idB ∨ i = shardIdx idC := by
      rw [← or_assoc, eq_ascending_iff, or_assoc]

namespace SharedGraph

/-- The tables of all shards. -/
abbrev Shards := Fin numShards → Shard

/-- The graph with the given shards, and the memory of `base`. -/
def graphOf (base : Graph) (m : Shards) : Graph := { base with shards := m }

/-! ### Calls -/

/-- The calls that take all their locks at once. -/
inductive Op
  | addNode (r : NodeRef)
  | addEdge (r : EdgeRef)
  | reindexEdge (r : EdgeRef) (oldTo : String)
  | removeEdge (fromID toID : String) (kind : EdgeKind)
  | evictFile (filePath : String)
  | evictRepo (repoPrefix : String)
  | getNode (id : String)
  | getOutEdges (nodeID : String)
  | getInEdges (nodeID : String)
  | allNodes
  | allEdges
  | stats

/-- The calls that lock one shard after the other. -/
inductive Query
  | getNodeByQualName (qualName : String)
  | findNodesByName (name : String)
  | getFileNodes (filePath : String)
  | getRepoNodes (repoPrefix : String)
  | nodeCount
  | edgeCount

/-- What a call returns. -/
inductive Result
  | unit
  | removed (found : Bool)
  | evicted (nodesRemoved edgesRemoved : ℕ)
  | node (r : Option NodeRef)
  | nodes (rs : List NodeRef)
  | edges (rs : List EdgeRef)
  | count (n : ℕ)
  | stats (s : Graph.GraphStats)

/-- Where a thread is between its sections. -/
inductive Local
  /-- Its last call has returned. -/
  | returned (r : Result)
  /-- It has called, and has not come to its section. -/
  | calling (op : Op)
  /-- It goes through the shards, with what it has found and the shards to come. -/
  | scanning (q : Query) (acc : Result) (shards : List (Fin numShards))

/-- **What a call does when nothing comes between.** -/
def Op.apply (ord : MapOrder) (g : Graph) : Op → Graph × Result
  | addNode r => (g.addNode r, .unit)
  | addEdge r => (g.addEdge r, .unit)
  | reindexEdge r oldTo => (g.reindexEdge r oldTo, .unit)
  | removeEdge fromID toID kind =>
    ((g.removeEdge fromID toID kind).1, .removed (g.removeEdge fromID toID kind).2)
  | evictFile filePath =>
    let e := g.evictFile ord filePath
    (e.graph, .evicted e.nodesRemoved e.edgesRemoved)
  | evictRepo repoPrefix =>
    let e := g.evictRepo ord repoPrefix
    (e.graph, .evicted e.nodesRemoved e.edgesRemoved)
  | getNode id => (g, .node (g.getNode id))
  | getOutEdges nodeID => (g, .edges (g.getOutEdges nodeID))
  | getInEdges nodeID => (g, .edges (g.getInEdges nodeID))
  | allNodes => (g, .nodes (g.allNodes ord))
  | allEdges => (g, .edges (g.allEdges ord))
  | stats => (g, .stats (g.stats ord))

/-- What a loop over the shards has before the first one. -/
def Query.start : Query → Result
  | getNodeByQualName _ => .node none
  | findNodesByName _ => .nodes []
  | getFileNodes _ => .nodes []
  | getRepoNodes _ => .nodes []
  | nodeCount => .count 0
  | edgeCount => .count 0

/-- One shard of a loop over the shards. -/
def Query.visit (s : Shard) : Query → Result → Result
  | getNodeByQualName qualName, _ => .node (s.byQual.lookup qualName)
  | findNodesByName name, .nodes out => .nodes (out ++ s.byName.slice name)
  | getFileNodes filePath, .nodes out => .nodes (out ++ s.byFile.slice filePath)
  | getRepoNodes repoPrefix, .nodes out => .nodes (out ++ s.byRepo.slice repoPrefix)
  | nodeCount, .count total => .count (total + s.nodes.keys.length)
  | edgeCount, .count total =>
    .count (total + (s.outEdges.bucket.pairs.map fun p => p.2.length).sum)
  | _, acc => acc

/-- The loop after a shard: the look-up of a qualified name returns what it has found, and all
return after the last shard. -/
def Query.resume (q : Query) (acc : Result) (rest : List (Fin numShards)) : Local :=
  match rest, acc with
  | [], _ => .returned acc
  | _, .node (some _) => .returned acc
  | _, _ => .scanning q acc rest

/-- The call comes to its locks: ReindexEdge does if the target is not the old one. -/
def Op.Locks (base : Graph) : Op → Prop
  | reindexEdge r oldTo => oldTo ≠ (base.edge r).toID
  | _ => True

/-- A thread calls: ReindexEdge returns at once if the target is the old one. -/
def Op.call (base : Graph) : Op → Local
  | reindexEdge r oldTo =>
    if oldTo = (base.edge r).toID then .returned .unit else .calling (.reindexEdge r oldTo)
  | op => .calling op

/-- A thread calls for a loop over all shards. -/
def Query.call (q : Query) : Local := .scanning q q.start (List.finRange numShards)

/-! ### What a call does under its locks -/

variable {base : Graph} {ord : MapOrder} {ρ ρ' : Type}

/-- Read something of the graph. -/
def look (base : Graph) (f : Graph → ρ) : Body Shards ρ := Body.read fun m => f (graphOf base m)

/-- Write the tables of the graph. -/
def write (base : Graph) (f : Graph → Graph) : Body Shards Unit :=
  Body.modify fun m => (f (graphOf base m)).shards

/-- The out-edges of an evicted node leave the in-edges of their targets, and then go. -/
def evictOut (base : Graph) (evictedIDs : List String) (id : String) : Body Shards ℕ :=
  (look base (Graph.getOutEdges · id)).bind fun edges =>
    (Body.forEach (fun _ r => if (base.edge r).toID ∈ evictedIDs then .done ()
      else write base (Graph.removeIn · (base.edge r).toID (base.edgeKeyOf r))) edges ()).bind
    fun _ => (write base fun g => g.modifyOut id fun out => out.drop id).bind
    fun _ => .done edges.length

/-- The in-edges of an evicted node leave the out-edges of their sources, and then go. -/
def evictIn (base : Graph) (evictedIDs : List String) (id : String) : Body Shards ℕ :=
  (look base (Graph.getInEdges · id)).bind fun edges =>
    (Body.forEach (fun _ r => if (base.edge r).fromID ∈ evictedIDs then .done ()
      else write base (Graph.removeOut · (base.edge r).fromID (base.edgeKeyOf r))) edges ()).bind
    fun _ => (write base fun g => g.modifyIn id fun inn => inn.drop id).bind
    fun _ => .done (edges.filter fun r => (base.edge r).fromID ∉ evictedIDs).length

/-- The edge-removal core of the two evictions. -/
def evictEdgesLocked (ord : MapOrder) (base : Graph) (evictedIDs : List String) :
    Body Shards ℕ :=
  (look base fun g => ord.order g evictedIDs).bind fun ids =>
    (Body.forEach (fun removed id => (evictOut base evictedIDs id).bind
      fun n => .done (removed + n)) ids 0).bind fun removed =>
    (look base fun g => ord.order g evictedIDs).bind fun ids =>
    Body.forEach (fun removed id => (evictIn base evictedIDs id).bind
      fun n => .done (removed + n)) ids removed

/-- Evict the nodes that a lookup finds, and the edges at them. -/
def evict (ord : MapOrder) (base : Graph) (find : Graph → List NodeRef)
    (bucketsOf : Node → String × Option String) : Body Shards Result :=
  (look base find).bind fun nodes =>
    if nodes.isEmpty then .done (.evicted 0 0)
    else
      (Body.forEach (fun _ r => write base fun g =>
        g.evictNode r (bucketsOf (base.node r)).1 (bucketsOf (base.node r)).2) nodes ()).bind
      fun _ => (evictEdgesLocked ord base (nodes.map base.idOf).dedup).bind
      fun removed => .done (.evicted nodes.length removed)

/-- The edge that has been found, if any, leaves the out-edges of its source and the in-edges of
its target. -/
def removeFound (base : Graph) (fromID toID : String) : Option EdgeRef → Body Shards Result
  | none => .done (.removed false)
  | some target =>
    (write base (Graph.removeOut · fromID (base.edgeKeyOf target))).bind fun _ =>
      (write base (Graph.removeIn · toID (base.edgeKeyOf target))).bind fun _ =>
      .done (.removed true)

/-- **What a call does under its locks**, one table after the other. -/
def Op.body (ord : MapOrder) (base : Graph) : Op → Body Shards Result
  | addNode r => (write base (Graph.addNode · r)).bind fun _ => .done .unit
  | addEdge r =>
    let e := base.edge r
    (write base fun g => g.modifyOut e.fromID fun out => out.add e.fromID (keyOf e) r).bind fun _ =>
      (write base fun g => g.modifyIn e.toID fun inn => inn.add e.toID (keyOf e) r).bind fun _ =>
      .done .unit
  | reindexEdge r oldTo =>
    let e := base.edge r
    let oldKey := { keyOf e with toID := oldTo }
    let newKey := keyOf e
    (write base fun g => g.modifyOut e.fromID fun out =>
        out.rekey e.fromID oldKey newKey).bind fun _ =>
      (write base (Graph.removeIn · oldTo oldKey)).bind fun _ =>
      (write base fun g => g.modifyIn e.toID fun inn => inn.add e.toID newKey r).bind fun _ =>
      .done .unit
  | removeEdge fromID toID kind =>
    (look base fun g => (g.getOutEdges fromID).find? fun r =>
        (base.edge r).toID = toID ∧ (base.edge r).kind = kind).bind (removeFound base fromID toID)
  | evictFile filePath =>
    evict ord base (Graph.getFileNodes · filePath) fun n => (filePath, Graph.repoKey n)
  | evictRepo repoPrefix =>
    evict ord base (Graph.getRepoNodes · repoPrefix) fun n => (n.filePath, some repoPrefix)
  | getNode id => look base fun g => .node (g.getNode id)
  | getOutEdges nodeID => look base fun g => .edges (g.getOutEdges nodeID)
  | getInEdges nodeID => look base fun g => .edges (g.getInEdges nodeID)
  | allNodes => look base fun g => .nodes (g.allNodes ord)
  | allEdges => look base fun g => .edges (g.allEdges ord)
  | stats => look base fun g => .stats (g.stats ord)

/-- What a call takes its locks for. -/
def Op.mode : Op → Mode
  | addNode _ => .write
  | addEdge _ => .write
  | reindexEdge _ _ => .write
  | removeEdge _ _ _ => .write
  | evictFile _ => .write
  | evictRepo _ => .write
  | _ => .read

/-- The locks of a call, in the order in which it takes them. -/
def Op.locks (base : Graph) : Op → List (Fin numShards)
  | addNode r => [shardIdx (base.idOf r)]
  | addEdge r => lockTwoWrite (base.edge r).fromID (base.edge r).toID
  | reindexEdge r oldTo => lockThreeWrite (base.edge r).fromID oldTo (base.edge r).toID
  | removeEdge fromID toID _ => lockTwoWrite fromID toID
  | evictFile _ => lockAll
  | evictRepo _ => lockAll
  | getNode id => [shardIdx id]
  | getOutEdges nodeID => [shardIdx nodeID]
  | getInEdges nodeID => [shardIdx nodeID]
  | allNodes => lockAll
  | allEdges => lockAll
  | stats => lockAll

/-- **Every call takes its locks in ascending order.** -/
theorem Op.locks_sorted (base : Graph) (op : Op) : (op.locks base).Pairwise (· < ·) := by
  cases op with
  | addEdge r => exact lockTwoWrite_sorted ..
  | reindexEdge r oldTo => exact (lockThreeWrite_spec ..).1
  | removeEdge fromID toID kind => exact lockTwoWrite_sorted ..
  | evictFile _ | evictRepo _ | allNodes | allEdges | stats => exact lockAll_sorted
  | _ => exact List.pairwise_singleton _ _

/-! ### The bodies are the operations -/

/-- A body does to the tables what a function does to the graph. -/
def Does (base : Graph) (b : Body Shards ρ) (f : Graph → Graph × ρ) : Prop :=
  ∀ m, f (graphOf base m) = (graphOf base (b.run m).2, (b.run m).1)

/-- A body that has ended. -/
theorem Does.done (r : ρ) : Does base (.done r) fun g => (g, r) := fun _ => rfl

/-- A look at the graph. -/
theorem Does.look (f : Graph → ρ) : Does base (look base f) fun g => (g, f g) := fun _ => rfl

/-- A write that leaves the memory of `base` alone. -/
theorem Does.write {f : Graph → Graph}
    (h : ∀ m, f (graphOf base m) = graphOf base (f (graphOf base m)).shards) :
    Does base (write base f) fun g => (f g, ()) := fun m => by
  rw [SharedGraph.write, Body.run_modify, ← h m]

/-- One body after another. -/
theorem Does.bind {b : Body Shards ρ} {k : ρ → Body Shards ρ'} {f : Graph → Graph × ρ}
    {f' : ρ → Graph → Graph × ρ'} (h : Does base b f) (h' : ∀ r, Does base (k r) (f' r)) :
    Does base (b.bind k) fun g => f' (f g).2 (f g).1 := fun m => by
  simp only [Body.run_bind, h m]
  exact h' _ _

/-- **A loop of bodies is a fold over the graph.** -/
theorem Does.forEach {β : Type} {b : ρ → β → Body Shards ρ} {f : ρ → β → Graph → Graph × ρ}
    (h : ∀ r x, Does base (b r x) (f r x)) (l : List β) (r : ρ) :
    Does base (Body.forEach b l r) fun g => l.foldl (fun s x => f s.2 x s.1) (g, r) := by
  induction l generalizing r with
  | nil => exact Does.done r
  | cons x l ih => exact (h r x).bind ih

/-- A function that is the same on the graphs with the memory of `base`. -/
theorem Does.congr {b : Body Shards ρ} {f f' : Graph → Graph × ρ} (h : Does base b f)
    (hf : ∀ m, f' (graphOf base m) = f (graphOf base m)) : Does base b f' := fun m =>
  (hf m).trans (h m)

/-- A fold that returns nothing. -/
theorem foldl_unit {β : Type} (f : Graph → β → Graph) (l : List β) (g : Graph) :
    l.foldl (fun (s : Graph × Unit) x => (f s.1 x, ())) (g, ()) = (l.foldl f g, ()) := by
  induction l generalizing g with
  | nil => rfl
  | cons x l ih => exact ih _

/-- A loop of writes. -/
theorem Does.forEach_write {β : Type} {b : β → Body Shards Unit} {f : Graph → β → Graph}
    (h : ∀ x, Does base (b x) fun g => (f g x, ())) (l : List β) :
    Does base (Body.forEach (fun _ x => b x) l ()) fun g => (l.foldl f g, ()) :=
  (Does.forEach (f := fun _ x g => (f g x, ())) (fun _ x => h x) l ()).congr fun m =>
    (foldl_unit f l (graphOf base m)).symm

/-- The out-edges of one evicted node. -/
theorem evictOut_does (evictedIDs : List String) (id : String) :
    Does base (evictOut base evictedIDs id) fun g =>
      (g.evictOutEdges evictedIDs id, (g.getOutEdges id).length) := by
  -- the out-edges between evicted nodes go with their buckets
  have hone : ∀ r, Does base (if (base.edge r).toID ∈ evictedIDs then .done ()
      else write base (Graph.removeIn · (base.edge r).toID (base.edgeKeyOf r))) fun g =>
        (if (g.edge r).toID ∈ evictedIDs then g
          else g.removeIn (g.edge r).toID (g.edgeKeyOf r), ()) := fun r m => by
    change (if (base.edge r).toID ∈ evictedIDs then _ else _, _) = _
    split
    · rfl
    · rfl
  exact (Does.look fun g => g.getOutEdges id).bind fun edges =>
    (Does.forEach_write hone edges).bind fun _ =>
    (Does.write fun m => rfl).bind fun _ => Does.done _

/-- The in-edges of one evicted node. -/
theorem evictIn_does (evictedIDs : List String) (id : String) :
    Does base (evictIn base evictedIDs id) fun g =>
      (g.evictInEdges evictedIDs id, ((g.getInEdges id).filter fun r =>
        (g.edge r).fromID ∉ evictedIDs).length) := by
  have hone : ∀ r, Does base (if (base.edge r).fromID ∈ evictedIDs then .done ()
      else write base (Graph.removeOut · (base.edge r).fromID (base.edgeKeyOf r))) fun g =>
        (if (g.edge r).fromID ∈ evictedIDs then g
          else g.removeOut (g.edge r).fromID (g.edgeKeyOf r), ()) := fun r m => by
    change (if (base.edge r).fromID ∈ evictedIDs then _ else _, _) = _
    split
    · rfl
    · rfl
  exact ((Does.look fun g => g.getInEdges id).bind fun edges =>
    (Does.forEach_write hone edges).bind fun _ =>
    (Does.write fun m => rfl).bind fun _ => Does.done _).congr fun m => rfl

/-- The edge-removal core. -/
theorem evictEdgesLocked_does (ord : MapOrder) (evictedIDs : List String) :
    Does base (evictEdgesLocked ord base evictedIDs) (Graph.evictEdgesLocked ord · evictedIDs) := by
  have hout : ∀ removed id, Does base ((evictOut base evictedIDs id).bind fun n =>
      .done (removed + n)) fun g =>
        (g.evictOutEdges evictedIDs id, removed + (g.getOutEdges id).length) :=
    fun removed id => (evictOut_does evictedIDs id).bind fun n => Does.done (removed + n)
  have hin : ∀ removed id, Does base ((evictIn base evictedIDs id).bind fun n =>
      .done (removed + n)) fun g => (g.evictInEdges evictedIDs id,
        removed + ((g.getInEdges id).filter fun r => (g.edge r).fromID ∉ evictedIDs).length) :=
    fun removed id => (evictIn_does evictedIDs id).bind fun n => Does.done (removed + n)
  have hphase1 := (Does.look fun g => ord.order g evictedIDs).bind
    fun ids => Does.forEach hout ids 0
  have hphase2 := fun removed => (Does.look fun g => ord.order g evictedIDs).bind
    fun ids => Does.forEach hin ids removed
  exact hphase1.bind hphase2

/-- An eviction. -/
theorem evict_does (ord : MapOrder) (find : Graph → List NodeRef)
    (bucketsOf : Node → String × Option String) :
    Does base (evict ord base find bucketsOf) fun g =>
      ((g.evictNodes ord (find g) bucketsOf).graph,
        .evicted (g.evictNodes ord (find g) bucketsOf).nodesRemoved
          (g.evictNodes ord (find g) bucketsOf).edgesRemoved) := by
  have hnodes : ∀ nodes : List NodeRef, Does base (Body.forEach (fun _ r => write base fun g =>
      g.evictNode r (bucketsOf (base.node r)).1 (bucketsOf (base.node r)).2) nodes ()) fun g =>
        (nodes.foldl (fun g r =>
          g.evictNode r (bucketsOf (g.node r)).1 (bucketsOf (g.node r)).2) g, ()) :=
    Does.forEach_write fun r m => rfl
  have hedges : ∀ nodes : List NodeRef, Does base
      ((evictEdgesLocked ord base (nodes.map base.idOf).dedup).bind fun removed =>
        .done (Result.evicted nodes.length removed)) fun g =>
      ((Graph.evictEdgesLocked ord g (nodes.map base.idOf).dedup).1, .evicted nodes.length
        (Graph.evictEdgesLocked ord g (nodes.map base.idOf).dedup).2) :=
    fun nodes => (evictEdgesLocked_does ord _).bind fun removed => Does.done _
  have hrest : ∀ nodes : List NodeRef, Does base (if nodes.isEmpty then .done (Result.evicted 0 0)
      else (Body.forEach (fun _ r => write base fun g =>
        g.evictNode r (bucketsOf (base.node r)).1 (bucketsOf (base.node r)).2) nodes ()).bind
      fun _ => (evictEdgesLocked ord base (nodes.map base.idOf).dedup).bind
      fun removed => .done (Result.evicted nodes.length removed)) fun g =>
        ((g.evictNodes ord nodes bucketsOf).graph,
          .evicted (g.evictNodes ord nodes bucketsOf).nodesRemoved
            (g.evictNodes ord nodes bucketsOf).edgesRemoved) := fun nodes => by
    unfold Graph.evictNodes
    split
    · exact Does.done _
    · exact ((hnodes nodes).bind fun _ => hedges nodes).congr fun m => rfl
  exact (Does.look find).bind hrest

/-- **What a call does under its locks is the operation.** -/
theorem Op.does (ord : MapOrder) (op : Op) (h : op.Locks base) :
    Does base (op.body ord base) (Op.apply ord · op) := by
  cases op with
  | addNode r => exact fun m => rfl
  | addEdge r => exact fun m => rfl
  | reindexEdge r oldTo => exact fun m => congrArg (·, Result.unit) (if_neg h)
  | removeEdge fromID toID kind =>
    intro m
    have hbody : (Op.body ord base (.removeEdge fromID toID kind)).run m =
        (removeFound base fromID toID (((graphOf base m).getOutEdges fromID).find? fun r =>
          ((graphOf base m).edge r).toID = toID ∧
            ((graphOf base m).edge r).kind = kind)).run m := rfl
    rw [hbody]
    simp only [Op.apply, Graph.removeEdge]
    generalize ((graphOf base m).getOutEdges fromID).find? (fun r =>
      ((graphOf base m).edge r).toID = toID ∧ ((graphOf base m).edge r).kind = kind) = target
    -- the edge to remove has been found or not
    cases target with
    | none => rfl
    | some target => rfl
  | evictFile filePath =>
    exact evict_does ord (Graph.getFileNodes · filePath) fun n => (filePath, Graph.repoKey n)
  | evictRepo repoPrefix =>
    exact evict_does ord (Graph.getRepoNodes · repoPrefix) fun n => (n.filePath, some repoPrefix)
  | _ => exact fun m => rfl

/-! ### The bodies stay within their locks -/

section Within

variable {mode : Mode} {locks : List (Fin numShards)} {i : Fin numShards}

/-- A write of the tables of one shard. -/
theorem within_write (hi : i ∈ locks) {f : Graph → Graph} (F : Shard → Shard)
    (hf : ∀ m, (f (graphOf base m)).shards = fun j => if j = i then F (m i) else m j) :
    (write base f).Within .write locks := by
  refine Body.within_modify (fun m j hj => ?_) (fun m m' hm j hj => ?_)
  · rw [hf m]
    refine if_neg fun hji => ?_
    rcases hj with hj | hj
    · cases hj
    · exact hj (hji ▸ hi)
  · rw [hf m, hf m']
    simp only
    rw [hm i hi, hm j hj]

variable {id : String} {k : EdgeKey}

/-- The out-edges of an ID are in its shard. -/
theorem within_modifyOut (hi : shardIdx id ∈ locks)
    (f : Buckets String EdgeKey EdgeRef → Buckets String EdgeKey EdgeRef) :
    (write base (Graph.modifyOut · id f)).Within .write locks :=
  within_write hi (fun s => { s with outEdges := f s.outEdges }) fun _ => rfl

/-- And so are its in-edges. -/
theorem within_modifyIn (hi : shardIdx id ∈ locks)
    (f : Buckets String EdgeKey EdgeRef → Buckets String EdgeKey EdgeRef) :
    (write base (Graph.modifyIn · id f)).Within .write locks :=
  within_write hi (fun s => { s with inEdges := f s.inEdges }) fun _ => rfl

/-- An edge leaves the out-edges of its source. -/
theorem within_removeOut (hi : shardIdx id ∈ locks) :
    (write base (Graph.removeOut · id k)).Within .write locks :=
  within_write hi (fun s => { s with outEdges := s.outEdges.remove base.edgeKeyOf id k })
    fun _ => rfl

/-- An edge leaves the in-edges of its target. -/
theorem within_removeIn (hi : shardIdx id ∈ locks) :
    (write base (Graph.removeIn · id k)).Within .write locks :=
  within_write hi (fun s => { s with inEdges := s.inEdges.remove base.edgeKeyOf id k })
    fun _ => rfl

/-- A look at one shard. -/
theorem within_look (hi : i ∈ locks) {f : Graph → ρ} (F : Shard → ρ)
    (hf : ∀ m, f (graphOf base m) = F (m i)) : (look base f).Within mode locks :=
  Body.within_read fun m m' hm => by rw [hf m, hf m', hm i hi]

/-- A look at all shards. -/
theorem within_look_all (f : Graph → ρ) : (look base f).Within mode lockAll :=
  Body.within_read fun _ _ hm =>
    congrArg (fun m => f (graphOf base m)) (funext fun i => hm i (mem_lockAll i))

end Within

/-- **A call touches only the shards it has locked**, and writes only under write locks. -/
theorem Op.within (ord : MapOrder) (base : Graph) (op : Op) :
    (op.body ord base).Within op.mode (op.locks base) := by
  have hlo : ∀ a b : String, shardIdx a ∈ lockTwoWrite a b :=
    fun _ _ => mem_lockTwoWrite.mpr (Or.inl rfl)
  have hhi : ∀ a b : String, shardIdx b ∈ lockTwoWrite a b :=
    fun _ _ => mem_lockTwoWrite.mpr (Or.inr rfl)
  cases op with
  | addNode r =>
    have hwrite : (write base (Graph.addNode · r)).Within .write [shardIdx (base.idOf r)] :=
      within_write List.mem_cons_self
        (fun s => { s with toNodeTables := base.addToTables r s.toNodeTables }) fun _ => rfl
    exact hwrite.bind fun _ => trivial
  | addEdge r =>
    exact (within_modifyOut (hlo ..) _).bind fun _ =>
      (within_modifyIn (hhi ..) _).bind fun _ => trivial
  | reindexEdge r oldTo =>
    -- the source first, then the old target, then the new one
    have hmem := (lockThreeWrite_spec (base.edge r).fromID oldTo (base.edge r).toID).2
    exact (within_modifyOut ((hmem _).mpr (Or.inl rfl)) _).bind fun _ =>
      (within_removeIn ((hmem _).mpr (Or.inr (Or.inl rfl)))).bind fun _ =>
      (within_modifyIn ((hmem _).mpr (Or.inr (Or.inr rfl))) _).bind fun _ => trivial
  | removeEdge fromID toID kind =>
    have hlook : (look base fun g => (g.getOutEdges fromID).find? fun r =>
        (base.edge r).toID = toID ∧ (base.edge r).kind = kind).Within .write
          (lockTwoWrite fromID toID) :=
      within_look (hlo ..) (fun s => (s.outEdges.slice fromID).find? fun r =>
        (base.edge r).toID = toID ∧ (base.edge r).kind = kind) fun _ => rfl
    refine hlook.bind fun target => ?_
    -- the edge is looked for in the shard of its source only
    cases target with
    | none => trivial
    | some target =>
      exact (within_removeOut (hlo ..)).bind fun _ =>
        (within_removeIn (hhi ..)).bind fun _ => trivial
  | evictFile filePath => exact Body.within_of_all mem_lockAll _
  | evictRepo repoPrefix => exact Body.within_of_all mem_lockAll _
  | getNode id =>
    exact within_look (f := fun g => Result.node (g.getNode id)) List.mem_cons_self
      (fun s => Result.node (s.nodes.lookup id)) fun _ => rfl
  | getOutEdges nodeID =>
    exact within_look (f := fun g => Result.edges (g.getOutEdges nodeID)) List.mem_cons_self
      (fun s => Result.edges (s.outEdges.slice nodeID)) fun _ => rfl
  | getInEdges nodeID =>
    exact within_look (f := fun g => Result.edges (g.getInEdges nodeID)) List.mem_cons_self
      (fun s => Result.edges (s.inEdges.slice nodeID)) fun _ => rfl
  | allNodes => exact within_look_all fun g => Result.nodes (g.allNodes ord)
  | allEdges => exact within_look_all fun g => Result.edges (g.allEdges ord)
  | stats => exact within_look_all fun g => Result.stats (g.stats ord)

end SharedGraph

end Gortex
