import Gortex.Graph.Store

/-!
# The node tables

What the node tables of a graph satisfy between two operations
(`Gortex.Graph.NodeInv`): a node is stored under its own ID, in the shard of that
ID, and each of the three sliced indexes holds exactly the stored nodes, under
their keys (`Gortex.Graph.Indexes`).

The three indexes differ in the key a node has, and in nothing else: `byFile` is
keyed by the file path and `byName` by the name, which every node has, and
`byRepo` by the repository, which a node may lack. So each step is proved once,
for an index with any key function.
-/

namespace Gortex

namespace Graph

/-! ### One index -/

/-- **An index is exact**: its sidecars are, and it holds the nodes of the map
under their keys. -/
structure Indexes (node : NodeRef → Node) (nodes : GoMap String NodeRef)
    (b : Buckets String String NodeRef) (key : Node → Option String) : Prop where
  exact : b.Exact fun r => (node r).id
  mem : ∀ k r, r ∈ b.slice k ↔ nodes.lookup (node r).id = some r ∧ key (node r) = some k

section Indexes

variable {node : NodeRef → Node} {nodes : GoMap String NodeRef}
  {b : Buckets String String NodeRef} {key : Node → Option String}

theorem Indexes.empty : Indexes node ∅ Buckets.empty key :=
  ⟨Buckets.Exact.empty, fun k r => by simp⟩

/-- The entries once the previous node of the ID has left its bucket. -/
theorem Indexes.mem_leave (h : Indexes node nodes b key) (prevKey newKey : Option String)
    (id : String) :
    (leaveBucket (fun r => (node r).id) b prevKey newKey id).Exact (fun r => (node r).id) ∧
      ∀ k r, r ∈ (leaveBucket (fun r => (node r).id) b prevKey newKey id).slice k ↔
        r ∈ b.slice k ∧ ¬(prevKey = some k ∧ newKey ≠ some k ∧ (node r).id = id) := by
  unfold leaveBucket
  cases prevKey with
  | none => exact ⟨h.exact, fun k r => by simp⟩
  | some k₀ =>
    by_cases hk : newKey = some k₀
    · simp only [if_pos hk]
      refine ⟨h.exact, fun k r => ?_⟩
      refine (and_iff_left ?_).symm
      rintro ⟨h1, h2, -⟩
      exact h2 (hk.trans h1)
    · simp only [if_neg hk]
      refine ⟨h.exact.remove _ _, fun k r => ?_⟩
      by_cases hkk : k = k₀
      · subst hkk
        rw [h.exact.mem_remove]
        refine and_congr_right fun _ => not_congr ?_
        exact ⟨fun he => ⟨rfl, hk, he⟩, fun he => he.2.2⟩
      · rw [Buckets.slice_remove_of_ne _ _ _ hkk]
        refine (and_iff_left ?_).symm
        rintro ⟨h1, -, -⟩
        exact hkk (Option.some.inj h1).symm

/-- **Inserting a node**: the index follows the map. -/
theorem Indexes.insert (h : Indexes node nodes b key) (r : NodeRef) {prevKey : Option String}
    (hp : prevKey = ((nodes.lookup (node r).id).map node).bind key) :
    Indexes node (nodes.insert (node r).id r)
      (reindexNode (fun r => (node r).id) b prevKey (key (node r)) (node r).id r) key := by
  subst hp
  obtain ⟨hex, hmem⟩ := h.mem_leave (((nodes.lookup (node r).id).map node).bind key)
    (key (node r)) (node r).id
  unfold reindexNode
  generalize leaveBucket (fun r => (node r).id) b (((nodes.lookup (node r).id).map node).bind key)
    (key (node r)) (node r).id = b' at hex hmem ⊢
  -- whatever its bucket was, an entry of the inserted ID is out of every other one
  have hgone : ∀ k r', (node r').id = (node r).id → key (node r) ≠ some k → r' ∉ b'.slice k := by
    intro k r' hid hk hm
    obtain ⟨hb, hn⟩ := (hmem k r').mp hm
    obtain ⟨hl, hkey⟩ := (h.mem k r').mp hb
    refine hn ⟨?_, hk, hid⟩
    rw [← hid, hl]
    exact hkey
  have hother : ∀ k r', (node r').id ≠ (node r).id → (r' ∈ b'.slice k ↔
      (nodes.insert (node r).id r).lookup (node r').id = some r' ∧ key (node r') = some k) := by
    intro k r' hid
    rw [hmem, h.mem, GoMap.lookup_insert, if_neg hid]
    exact and_iff_left fun hc => hid hc.2.2
  have hself : ∀ k r', (node r').id = (node r).id →
      ((nodes.insert (node r).id r).lookup (node r').id = some r' ∧ key (node r') = some k ↔
        r' = r ∧ key (node r) = some k) := by
    intro k r' hid
    rw [GoMap.lookup_insert, if_pos hid]
    constructor
    · rintro ⟨he, hk⟩
      obtain rfl := Option.some.inj he
      exact ⟨rfl, hk⟩
    · rintro ⟨rfl, hk⟩
      exact ⟨rfl, hk⟩
  rcases hk : key (node r) with - | k₀
  · refine ⟨hex, fun k r' => ?_⟩
    by_cases hid : (node r').id = (node r).id
    · rw [hself k r' hid, hk]
      exact iff_of_false (hgone k r' hid (by simp [hk])) fun hc => absurd hc.2 (by simp)
    · exact hother k r' hid
  · refine ⟨hex.add k₀ r, fun k r' => ?_⟩
    by_cases hkk : k = k₀
    · subst hkk
      rw [hex.mem_add]
      by_cases hid : (node r').id = (node r).id
      · rw [hself k r' hid]
        exact ⟨fun hc => ⟨hc.elim (fun h => h) fun hc => absurd hid hc.2, hk⟩,
          fun hc => Or.inl hc.1⟩
      · rw [← hother k r' hid]
        refine ⟨fun hc => hc.elim (fun he => absurd (by rw [he]) hid) And.left,
          fun hm => Or.inr ⟨hm, hid⟩⟩
    · have hsl : (b'.add k₀ (node r).id r).slice k = b'.slice k :=
        Buckets.slice_add_of_ne _ _ _ hkk
      have hne : key (node r) ≠ some k := fun hc => hkk (Option.some.inj (hc.symm.trans hk))
      rw [hsl]
      by_cases hid : (node r').id = (node r).id
      · rw [hself k r' hid]
        exact iff_of_false (hgone k r' hid hne) fun hc => hne hc.2
      · exact hother k r' hid

/-- **Deleting a node**: the index follows the map. -/
theorem Indexes.erase (h : Indexes node nodes b key) {r : NodeRef}
    (hr : nodes.lookup (node r).id = some r) :
    Indexes node (nodes.erase (node r).id)
      (match key (node r) with
        | some k => b.remove (fun r => (node r).id) k (node r).id
        | none => b) key := by
  have hid : ∀ k r', r' ∈ b.slice k → (node r').id = (node r).id → r' = r := by
    intro k r' hm he
    obtain ⟨hl, -⟩ := (h.mem k r').mp hm
    rw [he, hr] at hl
    exact (Option.some.inj hl).symm
  have hmem : ∀ k r', (nodes.erase (node r).id).lookup (node r').id = some r' ∧
      key (node r') = some k ↔ r' ∈ b.slice k ∧ (node r').id ≠ (node r).id := by
    intro k r'
    rw [GoMap.lookup_erase, h.mem]
    by_cases he : (node r').id = (node r).id
    · simp [he]
    · simp [he]
  cases hk : key (node r) with
  | none =>
    refine ⟨h.exact, fun k r' => ?_⟩
    rw [hmem]
    refine (and_iff_left_of_imp fun hm he => ?_).symm
    have := ((h.mem k r').mp hm).2
    rw [hid k r' hm he, hk] at this
    cases this
  | some k₀ =>
    refine ⟨h.exact.remove _ _, fun k r' => ?_⟩
    rw [hmem]
    by_cases hkk : k = k₀
    · subst hkk
      exact h.exact.mem_remove
    · simp only
      rw [Buckets.slice_remove_of_ne _ _ _ hkk]
      refine (and_iff_left_of_imp fun hm he => ?_).symm
      have := ((h.mem k r').mp hm).2
      rw [hid k r' hm he, hk] at this
      exact hkk (Option.some.inj this).symm

/-- Only the stored nodes matter. -/
theorem Indexes.congr {node' : NodeRef → Node} (h : Indexes node nodes b key)
    (hn : ∀ r, nodes.lookup (node r).id = some r → node' r = node r)
    (hn' : ∀ r, nodes.lookup (node' r).id = some r → node' r = node r) :
    Indexes node' nodes b key := by
  have hb : ∀ k, ∀ r ∈ b.slice k, node' r = node r := fun k r hr => hn r ((h.mem k r).mp hr).1
  refine ⟨h.exact.congr fun k r hr => by simp only [hb k r hr], fun k r => ?_⟩
  constructor
  · intro hr
    rw [hb k r hr]
    exact (h.mem k r).mp hr
  · rintro ⟨hl, hk⟩
    have he := hn' r hl
    rw [he] at hl hk
    exact (h.mem k r).mpr ⟨hl, hk⟩

/-- A memory that agrees on the IDs and the keys. -/
theorem Indexes.of_keys {node' : NodeRef → Node} (h : Indexes node nodes b key)
    (hid : ∀ r, (node' r).id = (node r).id) (hkey : ∀ r, key (node' r) = key (node r)) :
    Indexes node' nodes b key := by
  refine ⟨h.exact.congr fun _ r _ => hid r, fun k r => ?_⟩
  rw [hid, hkey]
  exact h.mem k r

end Indexes

/-! ### The tables of one shard -/

/-- **The node tables of the shard `i`**: the map holds allocated nodes of the
shard under their IDs, the indexes are exact, and an entry of `byQual` is a stored
node of that qualified name. -/
structure NodeTablesOK (node : NodeRef → Node) (next : ℕ) (i : Fin numShards)
    (t : NodeTables) : Prop where
  home : ∀ {id r}, t.nodes.lookup id = some r →
    (node r).id = id ∧ shardIdx id = i ∧ r.addr < next
  file : Indexes node t.nodes t.byFile fun n => some n.filePath
  name : Indexes node t.nodes t.byName fun n => some n.name
  repo : Indexes node t.nodes t.byRepo repoKey
  qual : ∀ {q r}, t.byQual.lookup q = some r →
    t.nodes.lookup (node r).id = some r ∧ (node r).qualName = q ∧ q ≠ ""

/-- **The node tables between two operations.** -/
def NodeInv (g : Graph) : Prop :=
  ∀ i, NodeTablesOK g.node g.nextNode i (g.shards i).toNodeTables

variable {g g' : Graph}

theorem NodeInv.new : NodeInv Graph.new := fun i =>
  { home := fun h => by simp [Graph.new, newShard] at h
    file := Indexes.empty
    name := Indexes.empty
    repo := Indexes.empty
    qual := fun h => by simp [Graph.new, newShard] at h }

/-- A graph with the same node memory and node tables. -/
theorem NodeInv.of_tables (h : NodeInv g) (hnode : g'.node = g.node)
    (hnext : g'.nextNode = g.nextNode)
    (ht : ∀ i, (g'.shards i).toNodeTables = (g.shards i).toNodeTables) : NodeInv g' := by
  intro i
  rw [hnode, hnext, ht]
  exact h i

theorem NodeInv.home (h : NodeInv g) {id : String} {r : NodeRef} (hr : g.getNode id = some r) :
    g.idOf r = id ∧ r.addr < g.nextNode :=
  ⟨((h _).home hr).1, ((h _).home hr).2.2⟩

/-- The node behind `r` is the one stored under its ID. -/
def StoredNode (g : Graph) (r : NodeRef) : Prop := g.getNode (g.idOf r) = some r

theorem NodeInv.storedNode (h : NodeInv g) {id : String} {r : NodeRef}
    (hr : g.getNode id = some r) : g.StoredNode r := by
  rw [StoredNode, (h.home hr).1, hr]

theorem StoredNode.eq_of_id {r r' : NodeRef} (hr : g.StoredNode r) (hr' : g.StoredNode r')
    (he : g.idOf r = g.idOf r') : r = r' := by
  rw [StoredNode] at hr hr'
  rw [he, hr'] at hr
  exact (Option.some.inj hr).symm

/-! ### Reading the indexes -/

/-- What the lookups over all shards return: a node is stored in one shard. -/
theorem NodeInv.mem_flatMap_slice (h : NodeInv g) {b : NodeTables → Buckets String String NodeRef}
    {key : Node → Option String}
    (hb : ∀ i, Indexes g.node (g.shards i).nodes (b (g.shards i).toNodeTables) key) {k : String}
    {r : NodeRef} :
    r ∈ (List.finRange numShards).flatMap (fun i => (b (g.shards i).toNodeTables).slice k) ↔
      g.StoredNode r ∧ key (g.node r) = some k := by
  rw [List.mem_flatMap]
  constructor
  · rintro ⟨i, -, hr⟩
    obtain ⟨hl, hk⟩ := ((hb i).mem k r).mp hr
    obtain ⟨-, hi, -⟩ := (h i).home hl
    refine ⟨?_, hk⟩
    rw [StoredNode, getNode, shardFor, idOf, hi]
    exact hl
  · rintro ⟨hst, hk⟩
    exact ⟨shardIdx (g.node r).id, List.mem_finRange _, ((hb _).mem k r).mpr ⟨hst, hk⟩⟩

/-- What the lookups over all shards return names every node once. -/
theorem NodeInv.nodup_flatMap_slice (h : NodeInv g)
    {b : NodeTables → Buckets String String NodeRef} {key : Node → Option String}
    (hb : ∀ i, Indexes g.node (g.shards i).nodes (b (g.shards i).toNodeTables) key) (k : String) :
    (((List.finRange numShards).flatMap
      fun i => (b (g.shards i).toNodeTables).slice k).map g.idOf).Nodup := by
  have hst : ∀ r ∈ (List.finRange numShards).flatMap
      (fun i => (b (g.shards i).toNodeTables).slice k), g.StoredNode r :=
    fun r hr => ((h.mem_flatMap_slice hb).mp hr).1
  refine List.Nodup.map_on (fun r hr r' hr' he => (hst r hr).eq_of_id (hst r' hr') he) ?_
  rw [List.nodup_flatMap]
  refine ⟨fun i _ => ((hb i).exact k).nodup_map.of_map, ?_⟩
  refine (List.nodup_finRange numShards).imp fun {i j} hij r hr hr' => hij ?_
  obtain ⟨-, hi, -⟩ := (h i).home (((hb i).mem k r).mp hr).1
  obtain ⟨-, hj, -⟩ := (h j).home (((hb j).mem k r).mp hr').1
  rw [← hi, hj]

theorem NodeInv.mem_getFileNodes (h : NodeInv g) {filePath : String} {r : NodeRef} :
    r ∈ g.getFileNodes filePath ↔ g.StoredNode r ∧ (g.node r).filePath = filePath := by
  refine (h.mem_flatMap_slice (b := NodeTables.byFile) fun i => (h i).file).trans ?_
  rw [Option.some.injEq]

theorem NodeInv.mem_findNodesByName (h : NodeInv g) {name : String} {r : NodeRef} :
    r ∈ g.findNodesByName name ↔ g.StoredNode r ∧ (g.node r).name = name := by
  refine (h.mem_flatMap_slice (b := NodeTables.byName) fun i => (h i).name).trans ?_
  rw [Option.some.injEq]

theorem NodeInv.mem_getRepoNodes (h : NodeInv g) {repoPrefix : String} {r : NodeRef} :
    r ∈ g.getRepoNodes repoPrefix ↔
      g.StoredNode r ∧ (g.node r).repoPrefix = repoPrefix ∧ repoPrefix ≠ "" := by
  refine (h.mem_flatMap_slice (b := NodeTables.byRepo) fun i => (h i).repo).trans ?_
  refine and_congr_right fun _ => ?_
  unfold repoKey
  by_cases hp : (g.node r).repoPrefix = ""
  · rw [if_neg (not_not.mpr hp)]
    exact iff_of_false (fun hc => nomatch hc) fun hc => hc.2 (hc.1.symm.trans hp)
  · rw [if_pos hp, Option.some.injEq]
    exact ⟨fun hc => ⟨hc, hc ▸ hp⟩, And.left⟩

theorem NodeInv.mem_allNodes (h : NodeInv g) (ord : MapOrder) {r : NodeRef} :
    r ∈ g.allNodes ord ↔ g.StoredNode r := by
  unfold allNodes
  simp only [List.mem_flatMap, List.mem_finRange, true_and, List.mem_map, ord.mem, Prod.exists,
    exists_eq_right, GoMap.mem_pairs]
  constructor
  · rintro ⟨i, id, hl⟩
    obtain ⟨hid, hi, -⟩ := (h i).home hl
    rw [StoredNode, getNode, shardFor, idOf, hid, hi]
    exact hl
  · intro hst
    exact ⟨_, _, hst⟩

/-- Every node is listed once. -/
theorem NodeInv.nodup_allNodes (h : NodeInv g) (ord : MapOrder) :
    ((g.allNodes ord).map g.idOf).Nodup := by
  have hshard : ∀ i, ((ord.order g (g.shards i).nodes.pairs).map Prod.snd).map g.idOf =
      (ord.order g (g.shards i).nodes.pairs).map Prod.fst := fun i => by
    rw [List.map_map]
    refine List.map_congr_left fun p hp => ?_
    exact ((h i).home (GoMap.mem_pairs.mp (ord.mem.mp hp))).1
  unfold allNodes
  rw [List.map_flatMap, List.nodup_flatMap]
  refine ⟨fun i _ => ?_, (List.nodup_finRange numShards).imp fun {i j} hij => ?_⟩
  · rw [hshard]
    exact ((ord.perm g _).map Prod.fst).nodup_iff.mpr (GoMap.nodup_pairs_fst _)
  · intro id hi hj
    have hhome : ∀ k, id ∈ ((ord.order g (g.shards k).nodes.pairs).map Prod.snd).map g.idOf →
        shardIdx id = k := fun k hk => by
      rw [hshard] at hk
      obtain ⟨⟨id', r⟩, hp, rfl⟩ := List.mem_map.mp hk
      obtain ⟨hid, hk, -⟩ := (h k).home (GoMap.mem_pairs.mp (ord.mem.mp hp))
      rw [← hk, ← hid]
    exact hij ((hhome i hi).symm.trans (hhome j hj))

/-! ### Allocation and AddNode -/

theorem getNode_newNode (g : Graph) (n : Node) (id : String) :
    (g.newNode n).2.getNode id = g.getNode id := rfl

theorem node_newNode_self (g : Graph) (n : Node) : (g.newNode n).2.node (g.newNode n).1 = n :=
  if_pos rfl

theorem node_newNode_of_lt (g : Graph) (n : Node) {r : NodeRef} (hr : r.addr < g.nextNode) :
    (g.newNode n).2.node r = g.node r :=
  if_neg fun hc => by
    rw [hc] at hr
    exact lt_irrefl _ hr

/-- Allocating a node stores nothing. -/
theorem NodeInv.newNode (h : NodeInv g) (n : Node) : NodeInv (g.newNode n).2 := by
  intro i
  have hst : ∀ {id r}, (g.shards i).nodes.lookup id = some r →
      (g.newNode n).2.node r = g.node r := fun hl => node_newNode_of_lt g n ((h i).home hl).2.2
  exact
    { home := fun {id r} hl => by
        obtain ⟨h1, h2, h3⟩ := (h i).home hl
        exact ⟨(congrArg Node.id (hst hl)).trans h1, h2, Nat.lt_succ_of_lt h3⟩
      file := (h i).file.congr (fun _ hl => hst hl) fun _ hl => hst hl
      name := (h i).name.congr (fun _ hl => hst hl) fun _ hl => hst hl
      repo := (h i).repo.congr (fun _ hl => hst hl) fun _ hl => hst hl
      qual := fun {q r} hq => by
        obtain ⟨h1, h2⟩ := (h i).qual hq
        rw [hst h1]
        exact ⟨h1, h2⟩ }

theorem lookup_releaseQual {byQual : GoMap String NodeRef} {qualName id q : String} {c : NodeRef} :
    (g.releaseQual byQual qualName id).lookup q = some c ↔
      byQual.lookup q = some c ∧ ¬(q = qualName ∧ g.idOf c = id) := by
  unfold releaseQual
  cases hl : byQual.lookup qualName with
  | none =>
    refine (and_iff_left_of_imp fun hq hc => ?_).symm
    rw [hc.1, hl] at hq
    cases hq
  | some cur =>
    by_cases hcur : g.idOf cur = id
    · simp only [if_pos hcur]
      rw [GoMap.lookup_erase]
      by_cases hq : q = qualName
      · subst hq
        rw [if_pos rfl, hl]
        refine iff_of_false (fun hc => nomatch hc) fun hc => hc.2 ⟨rfl, ?_⟩
        rw [← Option.some.inj hc.1]
        exact hcur
      · simp [hq]
    · simp only [if_neg hcur]
      refine (and_iff_left_of_imp fun hq hc => hcur ?_).symm
      rw [hc.1, hl] at hq
      rw [Option.some.inj hq]
      exact hc.2

/-- An entry of another ID and of another name than the new node's stays. -/
theorem lookup_requalNode_of_ne {byQual : GoMap String NodeRef} {prev : Option Node} {n : Node}
    {r c : NodeRef} {q : String} (hq : byQual.lookup q = some c) (hid : g.idOf c ≠ n.id)
    (hne : n.qualName ≠ "" → q ≠ n.qualName) :
    (g.requalNode byQual prev n r).lookup q = some c := by
  have hrelease : ∀ p : Node, (if p.qualName ≠ n.qualName ∧ p.qualName ≠ "" then
      g.releaseQual byQual p.qualName n.id else byQual).lookup q = some c := fun p => by
    split
    · exact lookup_releaseQual.mpr ⟨hq, fun hc => hid hc.2⟩
    · exact hq
  unfold requalNode
  by_cases hn : n.qualName ≠ ""
  · rw [if_pos hn, GoMap.lookup_insert, if_neg (hne hn)]
    cases prev with
    | none => exact hq
    | some p => exact hrelease p
  · rw [if_neg hn]
    cases prev with
    | none => exact hq
    | some p => exact hrelease p

/-- **The entries of `byQual` after a node has taken the place of another**: the
node itself, and the old entries of another name that are not of its ID. -/
theorem NodeTablesOK.of_lookup_requalNode {i : Fin numShards} {t : NodeTables}
    (h : NodeTablesOK g.node g.nextNode i t) {n : Node} {r c : NodeRef} {q : String}
    (hq : (g.requalNode t.byQual ((t.nodes.lookup n.id).map g.node) n r).lookup q = some c) :
    (c = r ∧ q = n.qualName ∧ n.qualName ≠ "") ∨ (t.byQual.lookup q = some c ∧ g.idOf c ≠ n.id) := by
  -- an old entry of the ID of the new node is the previous node of that ID
  have hprev : ∀ {c}, t.byQual.lookup q = some c → g.idOf c = n.id →
      t.nodes.lookup n.id = some c ∧ (g.node c).qualName = q ∧ q ≠ "" := by
    intro c hq hid
    obtain ⟨h1, h2⟩ := h.qual hq
    exact ⟨hid ▸ h1, h2⟩
  -- so no entry of that ID is left under another name
  have hrelease : ∀ {r₀}, t.nodes.lookup n.id = some r₀ →
      (if (g.node r₀).qualName ≠ n.qualName ∧ (g.node r₀).qualName ≠ "" then
        g.releaseQual t.byQual (g.node r₀).qualName n.id else t.byQual).lookup q = some c →
      (n.qualName ≠ "" → q ≠ n.qualName) → t.byQual.lookup q = some c ∧ g.idOf c ≠ n.id := by
    intro r₀ hs hl hne
    by_cases hc : (g.node r₀).qualName ≠ n.qualName ∧ (g.node r₀).qualName ≠ ""
    · rw [if_pos hc] at hl
      obtain ⟨hl', hn⟩ := lookup_releaseQual.mp hl
      refine ⟨hl', fun hid => hn ⟨?_, hid⟩⟩
      obtain ⟨h1, h2, -⟩ := hprev hl' hid
      rw [hs] at h1
      rw [Option.some.inj h1, h2]
    · rw [if_neg hc] at hl
      refine ⟨hl, fun hid => hc ?_⟩
      obtain ⟨h1, h2, h3⟩ := hprev hl hid
      rw [hs] at h1
      rw [Option.some.inj h1, h2]
      exact ⟨fun he => hne (he ▸ h3) he, h3⟩
  have hnone : t.nodes.lookup n.id = none → t.byQual.lookup q = some c → g.idOf c ≠ n.id := by
    intro hs hl hid
    have := (hprev hl hid).1
    rw [hs] at this
    cases this
  unfold requalNode at hq
  by_cases hn : n.qualName ≠ ""
  · rw [if_pos hn, GoMap.lookup_insert] at hq
    by_cases hqn : q = n.qualName
    · rw [if_pos hqn] at hq
      exact Or.inl ⟨(Option.some.inj hq).symm, hqn, hn⟩
    · rw [if_neg hqn] at hq
      cases hs : t.nodes.lookup n.id with
      | none =>
        rw [hs] at hq
        exact Or.inr ⟨hq, hnone hs hq⟩
      | some r₀ =>
        rw [hs] at hq
        exact Or.inr (hrelease hs hq fun _ => hqn)
  · rw [if_neg hn] at hq
    cases hs : t.nodes.lookup n.id with
    | none =>
      rw [hs] at hq
      exact Or.inr ⟨hq, hnone hs hq⟩
    | some r₀ =>
      rw [hs] at hq
      exact Or.inr (hrelease hs hq fun hc => absurd hc hn)

/-- The tables that AddNode leaves in the shard of the node. -/
theorem NodeTablesOK.addToTables {i : Fin numShards} {t : NodeTables}
    (h : NodeTablesOK g.node g.nextNode i t) {r : NodeRef} (hi : shardIdx (g.idOf r) = i)
    (hr : r.addr < g.nextNode) : NodeTablesOK g.node g.nextNode i (g.addToTables r t) where
  home := fun {id c} hl => by
    rw [Graph.addToTables, GoMap.lookup_insert] at hl
    by_cases hid : id = (g.node r).id
    · rw [if_pos hid] at hl
      obtain rfl := Option.some.inj hl
      exact ⟨hid.symm, hid ▸ hi, hr⟩
    · rw [if_neg hid] at hl
      exact h.home hl
  file := h.file.insert r Option.map_eq_bind
  name := h.name.insert r Option.map_eq_bind
  repo := h.repo.insert r rfl
  qual := fun {q c} hq => by
    simp only [Graph.addToTables, GoMap.lookup_insert]
    rcases h.of_lookup_requalNode hq with ⟨rfl, rfl, hn⟩ | ⟨hq', hid⟩
    · exact ⟨if_pos rfl, rfl, hn⟩
    · have hid' : (g.node c).id ≠ (g.node r).id := hid
      rw [if_neg hid']
      exact h.qual hq'

theorem shards_modifyShard (g : Graph) (i j : Fin numShards) (f : Shard → Shard) :
    (g.modifyShard i f).shards j = if j = i then f (g.shards i) else g.shards j := rfl

/-- A write of one shard that leaves its node tables right. -/
theorem NodeInv.modifyShard (h : NodeInv g) {i : Fin numShards} {f : Shard → Shard}
    (hf : NodeTablesOK g.node g.nextNode i (f (g.shards i)).toNodeTables) :
    NodeInv (g.modifyShard i f) := by
  intro j
  rw [shards_modifyShard]
  by_cases hj : j = i
  · rw [if_pos hj, hj]
    exact hf
  · rw [if_neg hj]
    exact h j

/-- The node map after a write of the shard of an ID that writes this ID only. -/
theorem getNode_modifyShard {id₀ : String} {f : Shard → Shard} {v : Option NodeRef}
    (hf : ∀ id, (f (g.shards (shardIdx id₀))).nodes.lookup id =
      if id = id₀ then v else (g.shards (shardIdx id₀)).nodes.lookup id) (id : String) :
    (g.modifyShard (shardIdx id₀) f).getNode id = if id = id₀ then v else g.getNode id := by
  unfold getNode shardFor
  rw [shards_modifyShard]
  by_cases hi : shardIdx id = shardIdx id₀
  · rw [if_pos hi, hf, hi]
  · rw [if_neg hi, if_neg fun hc => hi (congrArg shardIdx hc)]

/-- **AddNode keeps the node tables right.** -/
theorem NodeInv.addNode (h : NodeInv g) {r : NodeRef} (hr : r.addr < g.nextNode) :
    NodeInv (g.addNode r) :=
  h.modifyShard ((h _).addToTables rfl hr)

/-- **What AddNode stores**: the node, in the place of the one of its ID. -/
theorem getNode_addNode (g : Graph) (r : NodeRef) (id : String) :
    (g.addNode r).getNode id = if id = g.idOf r then some r else g.getNode id :=
  getNode_modifyShard (fun _ => GoMap.lookup_insert _ _ _ _) id

/-! ### Eviction of nodes -/

/-- **The entries of the tables after an eviction.** -/
theorem NodeTablesOK.evictFromTables {i : Fin numShards} {t : NodeTables}
    (h : NodeTablesOK g.node g.nextNode i t) {r : NodeRef}
    (hr : t.nodes.lookup (g.node r).id = some r) {repo : Option String}
    (hrepo : repo = repoKey (g.node r)) :
    NodeTablesOK g.node g.nextNode i
      (g.evictFromTables r (g.node r).filePath repo t) where
  home := fun {id c} hl => by
    simp only [Graph.evictFromTables, GoMap.lookup_erase] at hl
    by_cases hid : id = (g.node r).id
    · rw [if_pos hid] at hl
      cases hl
    · rw [if_neg hid] at hl
      exact h.home hl
  file := h.file.erase hr
  name := h.name.erase hr
  repo := by
    subst hrepo
    exact h.repo.erase hr
  qual := fun {q c} hq => by
    have hq' : t.byQual.lookup q = some c ∧ g.idOf c ≠ (g.node r).id := by
      have hn : t.byQual.lookup q = some c → (g.node c).id = (g.node r).id →
          q = (g.node r).qualName ∧ q ≠ "" := fun hl hid => by
        obtain ⟨h1, h2, h3⟩ := h.qual hl
        rw [hid, hr] at h1
        rw [Option.some.inj h1]
        exact ⟨h2.symm, h3⟩
      simp only [Graph.evictFromTables] at hq
      by_cases hne : (g.node r).qualName ≠ ""
      · rw [if_pos hne, lookup_releaseQual] at hq
        exact ⟨hq.1, fun hid => hq.2 ⟨(hn hq.1 hid).1, hid⟩⟩
      · rw [if_neg hne] at hq
        refine ⟨hq, fun hid => ?_⟩
        obtain ⟨h1, h2⟩ := hn hq hid
        exact h2 (h1.trans (not_not.mp hne))
    simp only [Graph.evictFromTables, GoMap.lookup_erase]
    have hid : (g.node c).id ≠ (g.node r).id := hq'.2
    rw [if_neg hid]
    exact h.qual hq'.1

/-- **Evicting some stored nodes**, each from the buckets it is in: the nodes of
their IDs are gone, and no other. -/
theorem NodeInv.foldl_evictNode {bucketsOf : Node → String × Option String} (l : List NodeRef)
    (h : NodeInv g) (hnodup : (l.map g.idOf).Nodup)
    (hl : ∀ r ∈ l, g.StoredNode r ∧ bucketsOf (g.node r) =
      ((g.node r).filePath, repoKey (g.node r))) :
    let g' := l.foldl (fun g' r =>
      g'.evictNode r (bucketsOf (g'.node r)).1 (bucketsOf (g'.node r)).2) g
    NodeInv g' ∧ ∀ id, g'.getNode id = if id ∈ l.map g.idOf then none else g.getNode id := by
  induction l generalizing g with
  | nil => exact ⟨h, fun id => by simp⟩
  | cons r l ih =>
    simp only [List.foldl_cons]
    obtain ⟨hst, hbk⟩ := hl r List.mem_cons_self
    rw [hbk]
    have hinv : NodeInv (g.evictNode r (g.node r).filePath (repoKey (g.node r))) :=
      h.modifyShard ((h _).evictFromTables hst rfl)
    have hget : ∀ id, (g.evictNode r (g.node r).filePath (repoKey (g.node r))).getNode id =
        if id = g.idOf r then none else g.getNode id :=
      getNode_modifyShard fun _ => GoMap.lookup_erase _ _ _
    rw [List.map_cons, List.nodup_cons] at hnodup
    obtain ⟨i1, i2⟩ := ih hinv hnodup.2 fun c hc => by
      obtain ⟨hst', hbk'⟩ := hl c (List.mem_cons_of_mem _ hc)
      refine ⟨?_, hbk'⟩
      have hne : g.idOf c ≠ g.idOf r := fun he => hnodup.1 (he ▸ List.mem_map_of_mem hc)
      exact (hget (g.idOf c)).trans ((if_neg hne).trans hst')
    refine ⟨i1, fun id => ?_⟩
    have hmap : l.map (g.evictNode r (g.node r).filePath (repoKey (g.node r))).idOf =
        l.map g.idOf := rfl
    rw [i2, hget, hmap, List.map_cons]
    by_cases hid : id = g.idOf r
    · simp [hid]
    · simp [hid]

end Graph

end Gortex
