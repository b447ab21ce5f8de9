import Gortex.Graph.Replay
import Gortex.Lib.Slots

/-!
# The lookup by qualified name

The index `byQual` of a shard holds one node for each qualified name, the one that was added
last. When that node goes, by eviction or since a node of its ID and of another qualified name
takes its place, the entry goes, and a node of the name that was added before cannot be looked
up any more.

A run keeps the lookup complete exactly if every step of it spares the names
(`Gortex.Graph.qualLookup_run_iff`): no node that holds the entry of its name is taken away
while another node of the name stays, unless one that stays holds the entry of another shard.
-/

namespace Gortex

namespace Graph

variable {g g' : Graph}

/-! ### What holds a name -/

/-- The qualified name of a node, if it has one. -/
def qualKey (n : Node) : Option String := if n.qualName ≠ "" then some n.qualName else none

/-- **The node holds its qualified name** in its shard. -/
def HoldsQual (g : Graph) (n : Node) : Prop :=
  ((g.shards (shardIdx n.id)).byQual.lookup n.qualName).map g.node = some n

/-- The nodes that are stored. -/
def storedNodes (g : Graph) : Set Node := {n | g.nodeAt n.id = some n}

/-- The nodes that hold their qualified name. -/
def qualHolders (g : Graph) : Set Node := {n | g.HoldsQual n}

/-- **The lookup by qualified name is complete**, and right. -/
def QualLookup (g : Graph) : Prop :=
  ∀ q, q ≠ "" →
    ((∃ r, g.getNodeByQualName q = some r) ↔ ∃ n, g.nodeAt n.id = some n ∧ n.qualName = q) ∧
      ∀ r, g.getNodeByQualName q = some r → (g.node r).qualName = q

theorem qualKey_eq_some {n : Node} {q : String} : qualKey n = some q ↔ n.qualName = q ∧ q ≠ "" := by
  unfold qualKey
  by_cases hn : n.qualName ≠ ""
  · rw [if_pos hn, Option.some_inj]
    exact ⟨fun h => ⟨h, h ▸ hn⟩, And.left⟩
  · rw [if_neg hn]
    refine iff_of_false (fun h => Option.some_ne_none _ h.symm) ?_
    rintro ⟨rfl, hq⟩
    exact hn hq

theorem NodeInv.of_byQual (h : NodeInv g) {i : Fin numShards} {q : String} {r : NodeRef}
    (hr : (g.shards i).byQual.lookup q = some r) :
    shardIdx (g.idOf r) = i ∧ g.StoredNode r ∧ (g.node r).qualName = q ∧ q ≠ "" := by
  obtain ⟨hst, hq⟩ := (h i).qual hr
  obtain ⟨-, hi, -⟩ := (h i).home hst
  refine ⟨hi, ?_, hq⟩
  rw [StoredNode, getNode, shardFor, idOf, hi]
  exact hst

/-- An entry of a shard is a node that holds its name. -/
theorem NodeInv.holdsQual (h : NodeInv g) {i : Fin numShards} {q : String} {r : NodeRef}
    (hr : (g.shards i).byQual.lookup q = some r) : g.HoldsQual (g.node r) := by
  obtain ⟨hi, -, hq, -⟩ := h.of_byQual hr
  unfold HoldsQual
  rw [show shardIdx (g.node r).id = i from hi, hq, hr, Option.map_some]

/-- A node that holds its name is stored, and has one. -/
theorem NodeInv.of_holdsQual (h : NodeInv g) {n : Node} (hn : g.HoldsQual n) :
    g.nodeAt n.id = some n ∧ n.qualName ≠ "" := by
  obtain ⟨r, hr, rfl⟩ := Option.map_eq_some_iff.mp hn
  obtain ⟨-, hst, -, hne⟩ := h.of_byQual hr
  exact ⟨hst.nodeAt, hne⟩

/-- A name is looked up exactly if a node holds it. -/
theorem NodeInv.exists_getNodeByQualName (h : NodeInv g) {q : String} :
    (∃ r, g.getNodeByQualName q = some r) ↔ ∃ n, g.HoldsQual n ∧ n.qualName = q := by
  constructor
  · rintro ⟨r, hr⟩
    obtain ⟨i, -, hi⟩ := List.exists_of_findSome?_eq_some hr
    exact ⟨g.node r, h.holdsQual hi, (h.of_byQual hi).2.2.1⟩
  · rintro ⟨n, hn, rfl⟩
    obtain ⟨r, hr, -⟩ := Option.map_eq_some_iff.mp hn
    refine Option.isSome_iff_exists.mp ?_
    rw [getNodeByQualName, List.findSome?_isSome_iff]
    exact ⟨shardIdx n.id, List.mem_finRange _, by rw [hr]; rfl⟩

/-- **The lookup is complete exactly if every name in use is held.** -/
theorem NodeInv.qualLookup_iff (h : NodeInv g) :
    QualLookup g ↔ Slots.Complete qualKey g.storedNodes g.qualHolders := by
  have hright : ∀ {q r}, g.getNodeByQualName q = some r → (g.node r).qualName = q := fun hr => by
    obtain ⟨i, -, hi⟩ := List.exists_of_findSome?_eq_some hr
    exact (h.of_byQual hi).2.2.1
  constructor
  · intro hlookup a ha hname
    obtain ⟨q, hq⟩ := Option.ne_none_iff_exists'.mp hname
    obtain ⟨hqa, hne⟩ := qualKey_eq_some.mp hq
    obtain ⟨n, hn, hqn⟩ := h.exists_getNodeByQualName.mp ((hlookup q hne).1.mpr ⟨a, ha, hqa⟩)
    exact ⟨n, hn, (qualKey_eq_some.mpr ⟨hqn, hne⟩).trans hq.symm⟩
  · intro hcomplete q hq
    refine ⟨h.exists_getNodeByQualName.trans ⟨?_, ?_⟩, fun r => hright⟩
    · rintro ⟨n, hn, hqn⟩
      exact ⟨n, (h.of_holdsQual hn).1, hqn⟩
    · rintro ⟨n, hn, hqn⟩
      have hkey : qualKey n = some q := qualKey_eq_some.mpr ⟨hqn, hq⟩
      obtain ⟨b, hb, hname⟩ := hcomplete n hn (by rw [hkey]; exact Option.some_ne_none q)
      exact ⟨b, hb, (qualKey_eq_some.mp (hname.trans hkey)).1⟩

/-! ### AddNode -/

theorem byQual_addNode (g : Graph) (r : NodeRef) (i : Fin numShards) :
    ((g.addNode r).shards i).byQual =
      if i = shardIdx (g.idOf r) then
        g.requalNode (g.shards i).byQual (((g.shards i).nodes.lookup (g.node r).id).map g.node)
          (g.node r) r
      else (g.shards i).byQual := by
  rw [addNode, shards_modifyShard]
  by_cases hi : i = shardIdx (g.idOf r)
  · rw [if_pos hi, if_pos hi, hi]
    rfl
  · rw [if_neg hi, if_neg hi]

/-- **AddNode is an exchange**: the node of the ID goes, and the new one comes. -/
theorem NodeInv.exchange_addNode (h : NodeInv g) (r : NodeRef) :
    Slots.Exchange qualKey g.storedNodes g.qualHolders {n | n.id = (g.node r).id} {g.node r}
      (g.addNode r).storedNodes (g.addNode r).qualHolders where
  named := fun c hc => by
    obtain ⟨-, hne⟩ := h.of_holdsQual hc
    rw [qualKey, if_pos hne]
    exact Option.some_ne_none _
  stored := fun a => by
    change (g.addNode r).nodeAt a.id = some a ↔ (g.nodeAt a.id = some a ∧ ¬a.id = (g.node r).id) ∨
      a = g.node r
    rw [nodeAt_addNode]
    by_cases hid : a.id = g.idOf r
    · rw [if_pos hid, Option.some_inj]
      refine ⟨fun heq => Or.inr heq.symm, ?_⟩
      rintro (⟨-, hne⟩ | heq)
      · exact absurd hid hne
      · exact heq.symm
    · rw [if_neg hid]
      refine ⟨fun ha => Or.inl ⟨ha, hid⟩, ?_⟩
      rintro (⟨ha, -⟩ | rfl)
      · exact ha
      · exact absurd rfl hid
  kept := fun c hc hct => by
    obtain ⟨x, hx, hxc⟩ := Option.map_eq_some_iff.mp hc
    by_cases hname : (g.node r).qualName ≠ "" ∧ c.qualName = (g.node r).qualName
    · refine Or.inr ⟨g.node r, rfl, ?_⟩
      rw [qualKey, qualKey, hname.2]
    · refine Or.inl ?_
      change ((((g.addNode r).shards (shardIdx c.id)).byQual.lookup c.qualName).map g.node) = some c
      rw [byQual_addNode]
      split
      · rw [lookup_requalNode_of_ne hx (by rw [idOf, hxc]; exact hct) fun hn hq => hname ⟨hn, hq⟩]
        exact congrArg some hxc
      · exact hc
  held := fun c hc => by
    obtain ⟨x, hx, hxc⟩ := Option.map_eq_some_iff.mp hc
    -- only the shard of the node is written
    rw [byQual_addNode] at hx
    have hxc : g.node x = c := hxc
    split at hx
    · rcases (h _).of_lookup_requalNode hx with ⟨rfl, -⟩ | ⟨hold, hid⟩
      · exact Or.inr hxc.symm
      · refine Or.inl ⟨?_, by rwa [idOf, hxc] at hid⟩
        exact Option.map_eq_some_iff.mpr ⟨x, hold, hxc⟩
    · rename_i hi
      exact Or.inl ⟨Option.map_eq_some_iff.mpr ⟨x, hx, hxc⟩, fun hid => hi (congrArg shardIdx hid)⟩
  put := fun a ha hna => by
    obtain rfl : a = g.node r := ha
    have hne : (g.node r).qualName ≠ "" := fun hc => hna (if_neg (not_not.mpr hc))
    change ((((g.addNode r).shards (shardIdx (g.node r).id)).byQual.lookup
      (g.node r).qualName).map g.node) = some (g.node r)
    rw [byQual_addNode, if_pos (show shardIdx (g.node r).id = shardIdx (g.idOf r) from rfl)]
    unfold requalNode
    rw [if_pos hne, GoMap.lookup_insert, if_pos rfl, Option.map_some]

/-- Allocating a node changes neither what is stored nor what holds a name. -/
theorem NodeInv.sets_newNode (h : NodeInv g) (n : Node) :
    (g.newNode n).2.storedNodes = g.storedNodes ∧ (g.newNode n).2.qualHolders = g.qualHolders := by
  have hmap : ∀ {x : Option NodeRef}, (∀ r, x = some r → r.addr < g.nextNode) →
      x.map (g.newNode n).2.node = x.map g.node := fun {x} hx => by
    cases x with
    | none => rfl
    | some r => exact congrArg some (node_newNode_of_lt g n (hx r rfl))
  constructor
  · ext a
    exact Eq.congr_left (hmap fun r hr => (h.home hr).2)
  · ext a
    exact Eq.congr_left (hmap fun r hr => ((h _).home ((h _).qual hr).1).2.2)

/-! ### Eviction -/

theorem byQual_evictNode (g : Graph) (r : NodeRef) (file : String) (repo : Option String)
    (i : Fin numShards) : ((g.evictNode r file repo).shards i).byQual =
      if i = shardIdx (g.idOf r) ∧ (g.node r).qualName ≠ "" then
        g.releaseQual (g.shards i).byQual (g.node r).qualName (g.node r).id
      else (g.shards i).byQual := by
  rw [evictNode, shards_modifyShard]
  by_cases hi : i = shardIdx (g.idOf r)
  · rw [if_pos hi, hi]
    simp [evictFromTables]
  · rw [if_neg hi, if_neg fun hc => hi hc.1]

/-- **A node that is evicted holds its name no longer.** -/
theorem NodeInv.holdsQual_evictNode (h : NodeInv g) {r : NodeRef} (hr : g.StoredNode r)
    (file : String) (repo : Option String) (n : Node) :
    (g.evictNode r file repo).HoldsQual n ↔ g.HoldsQual n ∧ n.id ≠ g.idOf r := by
  -- a node of the ID that holds its name is the evicted one
  have hself : g.HoldsQual n → n.id = g.idOf r → n = g.node r := fun hn hid => by
    have hat := (h.of_holdsQual hn).1
    rw [hid, hr.nodeAt] at hat
    exact (Option.some.inj hat).symm
  unfold HoldsQual at hself ⊢
  rw [byQual_evictNode]
  change Option.map g.node _ = some n ↔ _
  by_cases hi : shardIdx n.id = shardIdx (g.idOf r) ∧ (g.node r).qualName ≠ ""
  · rw [if_pos hi, Option.map_eq_some_iff, Option.map_eq_some_iff]
    constructor
    · rintro ⟨x, hx, rfl⟩
      obtain ⟨hold, hnot⟩ := lookup_releaseQual.mp hx
      refine ⟨⟨x, hold, rfl⟩, fun hid => hnot ⟨?_, hid⟩⟩
      rw [hself (Option.map_eq_some_iff.mpr ⟨x, hold, rfl⟩) hid]
    · rintro ⟨⟨x, hx, rfl⟩, hid⟩
      exact ⟨x, lookup_releaseQual.mpr ⟨hx, fun hc => hid hc.2⟩, rfl⟩
  · rw [if_neg hi]
    refine (and_iff_left_of_imp fun hn hid => hi ⟨congrArg shardIdx hid, ?_⟩).symm
    have hne := (h.of_holdsQual hn).2
    rwa [hself hn hid] at hne

theorem NodeInv.holdsQual_foldl_evictNode {bucketsOf : Node → String × Option String}
    (l : List NodeRef) (h : NodeInv g) (hnodup : (l.map g.idOf).Nodup)
    (hl : ∀ r ∈ l, g.StoredNode r ∧ bucketsOf (g.node r) =
      ((g.node r).filePath, repoKey (g.node r))) (n : Node) :
    (l.foldl (fun g' r =>
      g'.evictNode r (bucketsOf (g'.node r)).1 (bucketsOf (g'.node r)).2) g).HoldsQual n ↔
        g.HoldsQual n ∧ n.id ∉ l.map g.idOf := by
  induction l generalizing g with
  | nil => simp
  | cons r l ih =>
    obtain ⟨hst, hbk⟩ := hl r List.mem_cons_self
    rw [List.map_cons, List.nodup_cons] at hnodup
    obtain ⟨hinv, hget⟩ :
        NodeInv (g.evictNode r (bucketsOf (g.node r)).1 (bucketsOf (g.node r)).2) ∧ ∀ id, (g.evictNode r (bucketsOf (g.node r)).1 (bucketsOf (g.node r)).2).getNode id =
          if id ∈ [r].map g.idOf then none else g.getNode id :=
      h.foldl_evictNode [r] (List.nodup_singleton _) fun c hc =>
        hl c (List.mem_cons.mpr (Or.inl (List.mem_singleton.mp hc)))
    have hrest := ih hinv hnodup.2 fun c hc => ?_
    · rw [List.foldl_cons, hrest, h.holdsQual_evictNode hst]
      change (_ ∧ _) ∧ n.id ∉ l.map g.idOf ↔ _
      rw [List.map_cons, List.mem_cons, not_or, and_assoc]
    · obtain ⟨hst', hbk'⟩ := hl c (List.mem_cons_of_mem _ hc)
      refine ⟨?_, hbk'⟩
      have hne : g.idOf c ≠ g.idOf r := fun he => hnodup.1 (he ▸ List.mem_map_of_mem hc)
      exact ((hget (g.idOf c)).trans (if_neg (mt List.mem_singleton.mp hne))).trans hst'

theorem holdsQual_of_tables (hnode : g'.node = g.node)
    (ht : ∀ i, (g'.shards i).toNodeTables = (g.shards i).toNodeTables) (n : Node) :
    g'.HoldsQual n ↔ g.HoldsQual n := by
  unfold HoldsQual
  rw [hnode, show (g'.shards (shardIdx n.id)).byQual = (g.shards (shardIdx n.id)).byQual from
    congrArg NodeTables.byQual (ht _)]

theorem NodeInv.holdsQual_evictNodes (h : NodeInv g) (ord : MapOrder) {nodes : List NodeRef}
    {bucketsOf : Node → String × Option String} (hnodup : (nodes.map g.idOf).Nodup)
    (hl : ∀ r ∈ nodes, g.StoredNode r ∧ bucketsOf (g.node r) =
      ((g.node r).filePath, repoKey (g.node r))) (n : Node) :
    (g.evictNodes ord nodes bucketsOf).graph.HoldsQual n ↔
      g.HoldsQual n ∧ n.id ∉ nodes.map g.idOf := by
  unfold Graph.evictNodes
  by_cases hnil : nodes.isEmpty
  · rw [if_pos hnil, List.isEmpty_iff.mp hnil]
    exact (and_iff_left List.not_mem_nil).symm
  · rw [if_neg hnil]
    have hedges := EdgeTablesOnly.evictEdgesLocked (nodes.map g.idOf).dedup ord
      (nodes.foldl (fun g' r =>
        g'.evictNode r (bucketsOf (g'.node r)).1 (bucketsOf (g'.node r)).2) g)
    exact (holdsQual_of_tables hedges.node hedges.tables n).trans
      (h.holdsQual_foldl_evictNode nodes hnodup hl n)

/-- **An eviction is an exchange**: the nodes of the IDs go. -/
theorem NodeInv.exchange_evictNodes (h : NodeInv g) (ord : MapOrder) {nodes : List NodeRef}
    (bucketsOf : Node → String × Option String) (hnodup : (nodes.map g.idOf).Nodup)
    (hl : ∀ r ∈ nodes, g.StoredNode r ∧ bucketsOf (g.node r) =
      ((g.node r).filePath, repoKey (g.node r))) :
    Slots.Exchange qualKey g.storedNodes g.qualHolders {n | n.id ∈ nodes.map g.idOf} ∅
      (g.evictNodes ord nodes bucketsOf).graph.storedNodes
      (g.evictNodes ord nodes bucketsOf).graph.qualHolders where
  named := fun c hc => by
    rw [qualKey, if_pos (h.of_holdsQual hc).2]
    exact Option.some_ne_none _
  stored := fun a => by
    obtain ⟨-, hnode, hget⟩ := h.evictNodes ord hnodup hl
    change (g.evictNodes ord nodes bucketsOf).graph.nodeAt a.id = some a ↔
      (g.nodeAt a.id = some a ∧ a.id ∉ nodes.map g.idOf) ∨ a ∈ (∅ : Set Node)
    rw [or_iff_left (Set.notMem_empty a), nodeAt, hget, hnode]
    by_cases hid : a.id ∈ nodes.map g.idOf
    · rw [if_pos hid]
      exact iff_of_false (Option.some_ne_none a).symm fun hc => hc.2 hid
    · rw [if_neg hid]
      exact (and_iff_left hid).symm
  kept := fun c hc hct => Or.inl ((h.holdsQual_evictNodes ord hnodup hl c).mpr ⟨hc, hct⟩)
  held := fun c hc => Or.inl ((h.holdsQual_evictNodes ord hnodup hl c).mp hc)
  put := fun a ha => absurd ha (Set.notMem_empty a)

/-! ### Runs -/

/-- A graph with the same node memory and node tables: there is no exchange. -/
theorem NodeInv.exchange_of_tables (h : NodeInv g) (hnode : g'.node = g.node)
    (ht : ∀ i, (g'.shards i).toNodeTables = (g.shards i).toNodeTables) :
    Slots.Exchange qualKey g.storedNodes g.qualHolders ∅ ∅ g'.storedNodes g'.qualHolders := by
  have hholds : g'.qualHolders = g.qualHolders := by
    ext n
    exact holdsQual_of_tables hnode ht n
  have hstored : g'.storedNodes = g.storedNodes := by
    ext n
    change g'.nodeAt n.id = some n ↔ g.nodeAt n.id = some n
    have hget : g'.getNode n.id = g.getNode n.id :=
      congrArg (fun t : NodeTables => t.nodes.lookup n.id) (ht _)
    rw [nodeAt, nodeAt, hget, hnode]
  rw [hholds, hstored]
  exact
    { named := fun c hc => by
        rw [qualKey, if_pos (h.of_holdsQual hc).2]
        exact Option.some_ne_none _
      stored := fun a => by simp
      kept := fun c hc _ => Or.inl hc
      held := fun c hc => Or.inl ⟨hc, Set.notMem_empty c⟩
      put := fun a ha => absurd ha (Set.notMem_empty a) }

namespace Op

/-- The nodes that an operation takes away: the one whose place is taken, and those that are
evicted. -/
def taken (g : Graph) : Op → Set Node
  | addNode n => {m | m.id = n.id}
  | addNodeAt r => {m | m.id = (g.node r).id}
  | evictFile _ filePath => {m | g.InFile filePath m.id}
  | evictRepo _ repoPrefix => {m | repoPrefix ≠ "" ∧ g.InRepo repoPrefix m.id}
  | _ => ∅

/-- The nodes that an operation adds. -/
def added (g : Graph) : Op → Set Node
  | addNode n => {n}
  | addNodeAt r => {g.node r}
  | _ => ∅

/-- **The operation spares the qualified names.** -/
def SparesNames (g : Graph) (op : Op) : Prop :=
  Slots.Spares qualKey g.storedNodes g.qualHolders (op.taken g) (op.added g)

/-- **Every operation is an exchange** of the nodes that it takes away for those that it adds. -/
theorem Step.exchange {op : Op} (h : Op.Step g op g') (hg : NodeInv g) :
    Slots.Exchange qualKey g.storedNodes g.qualHolders (op.taken g) (op.added g) g'.storedNodes
      g'.qualHolders := by
  obtain ⟨hlegal, rfl⟩ := h
  cases op with
  | addNode n =>
    have hex := (hg.newNode n).exchange_addNode (g.newNode n).1
    rw [node_newNode_self, (hg.sets_newNode n).1, (hg.sets_newNode n).2] at hex
    exact hex
  | addNodeAt r => exact hg.exchange_addNode r
  | addEdge e =>
    have hedges := EdgeTablesOnly.addEdge (g.newEdge e).2 (g.newEdge e).1
    exact hg.exchange_of_tables hedges.node hedges.tables
  | addEdgeAt r =>
    have hedges := EdgeTablesOnly.addEdge g r
    exact hg.exchange_of_tables hedges.node hedges.tables
  | removeEdge fromID toID kind =>
    have hedges := (OutShrinks.removeEdge g fromID toID kind).only
    exact hg.exchange_of_tables hedges.node hedges.tables
  | reindexEdge r e =>
    have hedges := EdgeTablesOnly.retarget g r e
    exact hg.exchange_of_tables hedges.node hedges.tables
  | evictFile ord filePath =>
    obtain ⟨hnodup, hl⟩ := hg.evictFile_nodes filePath
    have hex := hg.exchange_evictNodes ord (fun n => (filePath, repoKey n)) hnodup hl
    simp only [hg.mem_map_getFileNodes] at hex
    exact hex
  | evictRepo ord repoPrefix =>
    obtain ⟨hnodup, hl⟩ := hg.evictRepo_nodes repoPrefix
    have hex := hg.exchange_evictNodes ord (fun n => (n.filePath, some repoPrefix))
      hnodup hl
    simp only [hg.mem_map_getRepoNodes] at hex
    exact hex

/-- **The lookup by qualified name over runs**: it is complete in every state that a run from the
empty graph reaches exactly if every step of the run spares the names. -/
theorem qualLookup_run_iff {ops : List Op} (h : Run Step Graph.new ops g) :
    (∀ pre s, pre <+: ops → Run Step Graph.new pre s → QualLookup s) ↔
      Run (fun s op t => Step s op t ∧ op.SparesNames s) Graph.new ops g := by
  refine h.forall_iff (I := Weak) (fun h1 h2 => h1.2.trans h2.2.symm)
    (fun hi hs => hs.weak hi) (fun {s op t} hi hp h1 => ?_) Weak.new ?_
  · rw [(h1.weak hi).nodes.qualLookup_iff]
    exact (h1.exchange hi.nodes).complete_iff (hi.nodes.qualLookup_iff.mp hp)
  · rw [Weak.new.nodes.qualLookup_iff]
    exact fun a ha => absurd ha fun hc => by cases hc

/-- A function of a package that is spread over two directories. -/
def packageFunc (dir : String) : Node :=
  { id := dir ++ "/x.go::F", kind := .kindFunction, name := "F", qualName := "p.F",
    filePath := dir ++ "/x.go" }

/-- Both are added, and the file of the one that came last is evicted. -/
def evictLast : List Op :=
  [.addNode (packageFunc "a"), .addNode (packageFunc "q"),
    .evictFile GoMap.RangeOrder.default "q/x.go"]

theorem run_evictLast : Run Step Graph.new evictLast (evictLast.foldl apply Graph.new) :=
  Run.cons ⟨trivial, rfl⟩ (Run.cons ⟨trivial, rfl⟩ (Run.cons ⟨trivial, rfl⟩ (Run.nil _)))

/-- A run of three steps. -/
theorem qualLookup_run_iff_evictLast :
    (∀ pre s, pre <+: evictLast → Run Step Graph.new pre s → QualLookup s) ↔
      Run (fun s op t => Step s op t ∧ op.SparesNames s) Graph.new evictLast
        (evictLast.foldl apply Graph.new) :=
  qualLookup_run_iff run_evictLast

/-- **A function that is stored is not found**: the two were in one shard, and with the last one
the entry of the name is gone. -/
theorem not_qualLookup_evictLast : ¬∀ ops g, Run Step Graph.new ops g → QualLookup g := by
  intro h
  have hlookup := (h _ _ run_evictLast "p.F" (by decide)).1
  have hstored : ((evictLast.foldl apply Graph.new).nodeAt "a/x.go::F").map
      (fun n => (n.id, n.qualName)) = some ("a/x.go::F", "p.F") := by decide +kernel
  obtain ⟨n, hn, hkey⟩ := Option.map_eq_some_iff.mp hstored
  obtain ⟨hid, hname⟩ := Prod.mk.inj hkey
  obtain ⟨r, hr⟩ := hlookup.mpr ⟨n, hid ▸ hn, hname⟩
  have hnone : ((evictLast.foldl apply Graph.new).getNodeByQualName "p.F").isSome = false := by
    decide +kernel
  rw [hr] at hnone
  cases hnone

end Op

end Graph

end Gortex
