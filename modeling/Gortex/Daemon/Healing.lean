import Gortex.Daemon.RoundTrip
import Gortex.Daemon.Warmup

/-!
# Warm start from a damaged snapshot

The loader drops the records it cannot decode, and says that the files behind them will be
indexed again. What the warm start after it indexes again is decided by the modification
times in the snapshot, and these are intact. So a node whose record is lost comes back if
and only if its file is read for another reason (`Gortex.healed_iff`).
-/

namespace Gortex

open Graph GoString Indexer MultiIndexer

variable {β : Type}

/-! ### Loading a damaged section -/

section Section

variable {α : Type} {f : Format β α} {add : Loading → α → Loading}

/-- One record of a section. -/
def loadRecord (f : Format β α) (add : Loading → α → Loading) (s : Loading) (b : β) : Loading :=
  match f.decode b with
  | .ok a => add s a
  | .error _ => s.lose

/-- A section that is as long as it should be is read to its end. -/
theorem readSection_eq_foldl (bs : List β) (s : Loading) (l : List β) :
    readSection f add bs.length s (bs ++ l) = .ok (bs.foldl (loadRecord f add) s, l) := by
  induction bs generalizing s with
  | nil => rfl
  | cons b bs ih =>
    rw [List.length_cons, List.cons_append, readSection, List.foldl_cons, loadRecord]
    cases f.decode b with
    | error err => exact ih s.lose
    | ok a => exact ih (add s a)

theorem readSection_eq_foldl_bind {next : Loading × List β → Except Loading (Loading × List β)}
    {n : ℕ} (bs : List β) (hn : n = bs.length) (s : Loading) (l : List β) :
    readSection f add n s (bs ++ l) >>= next = next (bs.foldl (loadRecord f add) s, l) := by
  rw [hn, readSection_eq_foldl]
  rfl

end Section

/-- What the loader keeps of a node: IDs that are empty or absolute paths are dropped. -/
def Loadable (id : String) : Prop := id ≠ "" ∧ isStaleAbsPathID id = false

theorem nodeAt_addNode {s : Loading} (hs : NodeInv s.graph) (n : Node) {id : String}
    (hid : Loadable id) : NodeInv (s.addNode n).graph ∧ (s.addNode n).graph.nodeAt id =
      if id = n.id then some n else s.graph.nodeAt id := by
  unfold Loading.addNode
  by_cases hn : n.id = ""
  · rw [if_pos hn]
    have hne : id ≠ n.id := fun hc => hid.1 (hc.trans hn)
    exact ⟨hs, (if_neg hne).symm⟩
  · rw [if_neg hn]
    by_cases ha : isStaleAbsPathID n.id = true
    · rw [if_pos ha]
      have hne : id ≠ n.id := fun hc => by
        have h := hid.2
        rw [hc, ha] at h
        cases h
      exact ⟨hs, (if_neg hne).symm⟩
    · rw [if_neg ha]
      exact ⟨(hs.newNode n).addNode (Nat.lt_succ_self _), hs.nodeAt_putNode n id⟩

theorem graph_addNode (s : Loading) (n : Node) :
    (s.addNode n).graph = s.graph ∨ (s.addNode n).graph = s.graph.putNode n := by
  unfold Loading.addNode
  split_ifs
  · exact Or.inl rfl
  · exact Or.inl rfl
  · exact Or.inr rfl

/-- The nodes with what the file has for their records. -/
def Recorded (c : Codec β) (l : List (Node × β)) : Prop :=
  ∀ x ∈ l, x.2 = c.node.encode x.1 ∨ c.node.Fails x.2

theorem loadRecord_node {c : Codec β} {s : Loading} {n : Node} {b : β}
    (h : b = c.node.encode n ∨ c.node.Fails b) :
    (c.node.Fails b ∧ loadRecord c.node Loading.addNode s b = s.lose) ∨
      (¬c.node.Fails b ∧ loadRecord c.node Loading.addNode s b = s.addNode n) := by
  unfold loadRecord
  rcases h with rfl | ⟨err, herr⟩
  · rw [c.node.decode_encode]
    refine Or.inr ⟨fun ⟨err, herr⟩ => ?_, rfl⟩
    rw [c.node.decode_encode] at herr
    cases herr
  · rw [herr]
    exact Or.inl ⟨⟨err, herr⟩, rfl⟩

theorem nodeAt_of_all_lost {c : Codec β} {l : List (Node × β)} (hl : Recorded c l) {s : Loading}
    (hs : NodeInv s.graph) {id : String} (hid : Loadable id)
    (hlost : ∀ x ∈ l, x.1.id = id → c.node.Fails x.2) :
    ((l.map Prod.snd).foldl (loadRecord c.node Loading.addNode) s).graph.nodeAt id =
      s.graph.nodeAt id := by
  induction l generalizing s with
  | nil => rfl
  | cons x l ih =>
    have hrest := ih (s := loadRecord c.node Loading.addNode s x.2)
      (fun y hy => hl y (List.mem_cons_of_mem x hy))
    have hx := hlost x List.mem_cons_self
    rw [List.map_cons, List.foldl_cons]
    rcases loadRecord_node (hl x List.mem_cons_self) with ⟨-, heq⟩ | ⟨hok, heq⟩
    · rw [heq] at hrest ⊢
      exact hrest hs fun y hy => hlost y (List.mem_cons_of_mem x hy)
    · obtain ⟨hinv, hat⟩ := nodeAt_addNode hs x.1 hid
      rw [heq] at hrest ⊢
      rw [hrest hinv fun y hy => hlost y (List.mem_cons_of_mem x hy), hat]
      exact if_neg fun hc => hok (hx hc.symm)

/-- **A node whose record is read** is stored. -/
theorem nodeAt_of_record {c : Codec β} {l : List (Node × β)} (hl : Recorded c l)
    (hnodup : (l.map fun x => x.1.id).Nodup) {s : Loading} (hs : NodeInv s.graph) {n : Node}
    {b : β} (hn : (n, b) ∈ l) (hok : ¬c.node.Fails b) (hid : Loadable n.id) :
    ((l.map Prod.snd).foldl (loadRecord c.node Loading.addNode) s).graph.nodeAt n.id = some n := by
  induction l generalizing s with
  | nil => cases hn
  | cons x l ih =>
    obtain ⟨hnot, hnodup'⟩ := List.nodup_cons.mp hnodup
    have hl' : Recorded c l := fun y hy => hl y (List.mem_cons_of_mem x hy)
    rw [List.map_cons, List.foldl_cons]
    have hinv : NodeInv (loadRecord c.node Loading.addNode s x.2).graph := by
      rcases loadRecord_node (hl x List.mem_cons_self) with ⟨-, heq⟩ | ⟨-, heq⟩
      · rw [heq]
        exact hs
      · rw [heq]
        exact (nodeAt_addNode hs x.1 hid).1
    rcases List.mem_cons.mp hn with rfl | hn
    · rw [nodeAt_of_all_lost hl' hinv hid fun y hy hc =>
        absurd (List.mem_map.mpr ⟨y, hy, hc⟩) hnot]
      rcases loadRecord_node (hl (n, b) List.mem_cons_self) with ⟨hfail, -⟩ | ⟨-, heq⟩
      · exact absurd hfail hok
      · rw [heq, (nodeAt_addNode hs n hid).2, if_pos rfl]
    · exact ih hl' hnodup' hinv hn

/-- The records of repositories, as they are loaded. -/
def loadedRepos (snapRepos : List SnapshotRepo) : GoMap String SnapshotRepo :=
  (snapRepos.foldl Loading.addRepo { graph := Graph.new }).repos

theorem repos_foldl_addRepo (snapRepos : List SnapshotRepo) {s s' : Loading}
    (h : s.repos = s'.repos) :
    (snapRepos.foldl Loading.addRepo s).repos = (snapRepos.foldl Loading.addRepo s').repos := by
  induction snapRepos generalizing s s' with
  | nil => exact h
  | cons r snapRepos ih =>
    refine ih ?_
    unfold Loading.addRepo
    by_cases hp : r.repoPrefix = ""
    · rw [if_pos hp, if_pos hp]
      exact h
    · rw [if_neg hp, if_neg hp]
      exact congrArg (fun m => m.insert r.repoPrefix r) h

/-! ### A damaged snapshot -/

/-- **A snapshot some of whose node and edge records fail to decode**: the header and the
records of the repositories are as they were written, a record of a node is as it was
written or fails, and as many records of edges are there as there should be. Whatever
follows the repositories does not matter. -/
structure DamagedSnapshot (c : Codec β) (ord : MapOrder) (g : Graph)
    (snapRepos : List SnapshotRepo) where
  header : SnapshotHeader
  nodes : List (Node × β)
  edges : List β
  rest : List β
  version : header.schemaVersion = snapshotSchemaVersion
  nodeCount : header.nodeCount = nodes.length
  edgeCount : header.edgeCount = edges.length
  repoCount : header.repoCount = snapRepos.length
  nodes_eq : nodes.map Prod.fst = (g.allNodes ord).map g.node
  edges_length : edges.length = (g.allEdges ord).length
  recorded : Recorded c nodes

namespace DamagedSnapshot

variable {c : Codec β} {ord : MapOrder} {g : Graph} {snapRepos : List SnapshotRepo}
  (D : DamagedSnapshot c ord g snapRepos)

/-- The file. -/
def file : SnapshotFile β :=
  .stream (c.header.encode D.header :: (D.nodes.map Prod.snd ++
    (D.edges ++ (snapRepos.map c.repo.encode ++ D.rest))))

/-- The record of the node fails to decode. -/
def Lost (n : Node) : Prop := ∃ b, (n, b) ∈ D.nodes ∧ c.node.Fails b

/-- The state after the node section. -/
def afterNodes : Loading :=
  (D.nodes.map Prod.snd).foldl (loadRecord c.node Loading.addNode) { graph := Graph.new }

theorem repos_addNode (s : Loading) (n : Node) : (s.addNode n).repos = s.repos := by
  unfold Loading.addNode
  split_ifs <;> rfl

theorem sameNodes_addEdge (s : Loading) (e : Edge) :
    SameNodes s.graph (s.addEdge e).graph ∧ (s.addEdge e).repos = s.repos := by
  unfold Loading.addEdge
  split_ifs
  all_goals first
    | exact ⟨SameNodes.refl _, rfl⟩
    | exact ⟨SameNodes.putEdge _ _, rfl⟩

theorem graph_addContract (s : Loading) (sc : SnapshotContract) :
    (s.addContract sc).graph = s.graph ∧ (s.addContract sc).repos = s.repos := by
  unfold Loading.addContract
  split <;> exact ⟨rfl, rfl⟩

theorem repos_afterNodes : D.afterNodes.repos = ∅ := by
  refine List.foldl_invariant (P := fun s : Loading => s.repos = ∅) (fun s b _ hs => ?_) rfl
  unfold loadRecord
  split
  · exact (repos_addNode s _).trans hs
  · exact hs

/-- **What is loaded of a damaged snapshot**: the nodes of its node section, and the records
of the repositories. -/
theorem loadSnapshot_file :
    SameNodes D.afterNodes.graph (loadSnapshot c Graph.new D.file).graph ∧
      (loadSnapshot c Graph.new D.file).repos = loadedRepos snapRepos := by
  obtain ⟨hnodes, hrepos⟩ := List.foldl_invariant (f := loadRecord c.edge Loading.addEdge)
    (l := D.edges) (P := fun s : Loading => SameNodes D.afterNodes.graph s.graph ∧ s.repos = ∅)
    (fun s b _ hs => by
      unfold loadRecord
      split
      · exact ⟨hs.1.trans (sameNodes_addEdge s _).1, (sameNodes_addEdge s _).2.trans hs.2⟩
      · exact hs)
    ⟨SameNodes.refl _, D.repos_afterNodes⟩
  have hloaded := reposLoaded snapRepos
    (D.edges.foldl (loadRecord c.edge Loading.addEdge) D.afterNodes)
  rw [file, loadSnapshot_of_body (body_encode c D.version)]
  unfold readSections
  rw [D.nodeCount, D.edgeCount, D.repoCount, Int.toNat_natCast, Int.toNat_natCast,
    Int.toNat_natCast, readSection_eq_foldl_bind _ (List.length_map ..).symm]
  dsimp only
  rw [readSection_eq_foldl_bind _ rfl]
  dsimp only
  rw [readSection_encode_bind]
  refine readSection_invariant
    (P := fun s => SameNodes D.afterNodes.graph s.graph ∧ s.repos = loadedRepos snapRepos)
    (fun s sc hs => ?_) (fun s hs => hs) ⟨?_, repos_foldl_addRepo snapRepos hrepos⟩
  · obtain ⟨hg, hr⟩ := graph_addContract s sc
    rw [hg, hr]
    exact hs
  · change SameNodes _ (snapRepos.foldl Loading.addRepo
      (D.edges.foldl (loadRecord c.edge Loading.addEdge) D.afterNodes)).graph
    rw [hloaded.graph]
    exact hnodes

theorem nodup_nodes (hg : Weak g) : (D.nodes.map fun x => x.1.id).Nodup := by
  have hids : D.nodes.map (fun x => x.1.id) = (g.allNodes ord).map g.idOf := by
    have h := congrArg (List.map Node.id) D.nodes_eq
    rw [List.map_map, List.map_map] at h
    exact h
  rw [hids]
  exact hg.nodes.nodup_allNodes ord

theorem mem_nodes (hg : Weak g) {n : Node} (hn : g.nodeAt n.id = some n) :
    ∃ b, (n, b) ∈ D.nodes := by
  have hmem := (hg.mem_allNodes ord).mpr hn
  rw [← D.nodes_eq] at hmem
  obtain ⟨⟨n', b⟩, hb, rfl⟩ := List.mem_map.mp hmem
  exact ⟨b, hb⟩

theorem nodeAt_of_mem (hg : Weak g) {n : Node} {b : β} (hn : (n, b) ∈ D.nodes) :
    g.nodeAt n.id = some n := by
  refine (hg.mem_allNodes ord).mp ?_
  rw [← D.nodes_eq]
  exact List.mem_map_of_mem hn

/-- A node whose record is lost is not loaded. -/
theorem nodeAt_of_lost (hg : Weak g) {n : Node} (hid : Loadable n.id) (hlost : D.Lost n) :
    (loadSnapshot c Graph.new D.file).graph.nodeAt n.id = none := by
  obtain ⟨b, hb, hfail⟩ := hlost
  rw [D.loadSnapshot_file.1.nodeAt]
  refine (nodeAt_of_all_lost D.recorded Graph.Inv.new.nodes hid fun x hx hc => ?_).trans
    (nodeAt_new n.id)
  have heq : x = (n, b) := List.inj_on_of_nodup_map (D.nodup_nodes hg) hx hb hc
  rw [heq]
  exact hfail

/-- A node whose record is not lost is loaded. -/
theorem nodeAt_of_not_lost (hg : Weak g) {n : Node} (hid : Loadable n.id)
    (hn : g.nodeAt n.id = some n) (hlost : ¬D.Lost n) :
    (loadSnapshot c Graph.new D.file).graph.nodeAt n.id = some n := by
  obtain ⟨b, hb⟩ := D.mem_nodes hg hn
  rw [D.loadSnapshot_file.1.nodeAt]
  exact nodeAt_of_record D.recorded (D.nodup_nodes hg) Graph.Inv.new.nodes hb
    (fun hc => hlost ⟨b, hb, hc⟩) hid

/-- What is loaded was stored. -/
theorem nodeAt_of_loaded (hg : Weak g) {id : String} {n : Node}
    (hn : (loadSnapshot c Graph.new D.file).graph.nodeAt id = some n) : g.nodeAt id = some n := by
  rw [D.loadSnapshot_file.1.nodeAt] at hn
  have hinv : NodeInv D.afterNodes.graph ∧
      ∀ id n, D.afterNodes.graph.nodeAt id = some n → n ∈ D.nodes.map Prod.fst := by
    refine List.foldl_invariant (P := fun s : Loading => NodeInv s.graph ∧
      ∀ id n, s.graph.nodeAt id = some n → n ∈ D.nodes.map Prod.fst) (fun s b hb hs => ?_)
      ⟨Graph.Inv.new.nodes, fun id n h => by
        rw [nodeAt_new] at h
        cases h⟩
    obtain ⟨x, hx, rfl⟩ := List.mem_map.mp hb
    rcases loadRecord_node (s := s) (D.recorded x hx) with ⟨-, heq⟩ | ⟨-, heq⟩
    · rw [heq]
      exact hs
    · rw [heq]
      rcases graph_addNode s x.1 with hsame | hput
      · rw [hsame]
        exact hs
      · rw [hput]
        refine ⟨(hs.1.newNode x.1).addNode (Nat.lt_succ_self _), fun id n hn => ?_⟩
        rw [hs.1.nodeAt_putNode] at hn
        split at hn
        · cases hn
          exact List.mem_map_of_mem hx
        · exact hs.2 id n hn
  have hid := hinv.1.id_eq hn
  obtain ⟨⟨n', b⟩, hb, rfl⟩ := List.mem_map.mp (hinv.2 id n hn)
  rw [← hid]
  exact D.nodeAt_of_mem hg hb

end DamagedSnapshot

/-! ### Healing -/

section

variable {env : RepoEnv} {sord : SnapshotOrder} {disk : Disk} {mi : MultiIndexer}
  {C : String → Prop}

/-- **The repositories are as they are on the disk**: the graph has the nodes of every file
of theirs, and no others under its path. -/
def Healed (env : RepoEnv) (disk : Disk) (C : String → Prop) (mi : MultiIndexer) (g : Graph) :
    Prop :=
  ∀ entry ∈ mi.configRepos, ∀ path ∈ mi.filesOf env disk entry,
    (mi.entryIndexer env disk entry).InSync disk C (rootOf disk entry) path g

/-- **No file has changed since the snapshot**: a file that the warm start does not replace
is in the graph as it is on the disk. -/
def UnchangedSince (env : RepoEnv) (disk : Disk) (C : String → Prop) (mi : MultiIndexer)
    (prior : RepoEntry → GoMap String ℤ) (g : Graph) : Prop :=
  ∀ entry ∈ mi.configRepos, ∀ path ∈ mi.filesOf env disk entry,
    (path ∈ warmFiles mi env disk entry (prior entry) ∧ (prior entry).keys ≠ []) ∨
      (mi.entryIndexer env disk entry).InSync disk C (rootOf disk entry) path g

variable {c : Codec β} {ord : MapOrder} {g : Graph} {snapRepos : List SnapshotRepo}
  {g' : Graph}

/-- The file of a node of a configured repository. -/
theorem WarmStart.loadable (h : WarmStart env disk C mi) {entry : RepoEntry}
    (hentry : entry ∈ mi.configRepos) {disk' : Disk} {path id : String} {n : Node}
    (hx : (mi.entryIndexer env disk entry).extractedAt disk' path
      (walkRel (rootOf disk entry) path) id = some n) : Loadable id := by
  have hp := h.prefixes entry hentry
  obtain ⟨⟨raw, hraw⟩, -⟩ := @prefixed_of_produces (mi.entryIndexer env disk entry) h.lawful hp.1
    disk' (rootOf disk entry) [path] id n ⟨path, List.mem_singleton_self path, hx⟩
  have hlist : id.toList = (entryPrefix env disk entry).toList ++ ('/' :: raw.toList) := by
    rw [hraw, String.toList_append, String.toList_append, List.append_assoc]
    rfl
  have hcons : ∃ c cs, (entryPrefix env disk entry).toList = c :: cs ∧ c ≠ '/' := by
    cases hl : (entryPrefix env disk entry).toList with
    | nil => exact absurd (String.toList_inj.mp hl) hp.1
    | cons c cs =>
      refine ⟨c, cs, rfl, fun hc => ?_⟩
      have habs := hp.2
      rw [hc] at hl
      simp [GoPath.isAbs, hl] at habs
  obtain ⟨c, cs, hl, hc⟩ := hcons
  rw [hl] at hlist
  refine ⟨fun he => ?_, ?_⟩
  · rw [he] at hlist
    cases hlist
  · rw [isStaleAbsPathID, hasPrefix, hlist]
    simp [List.isPrefixOf, Ne.symm hc]

/-- **What is lost comes back only if its file is read**. -/
theorem DamagedSnapshot.healed_iff_of_warmed (D : DamagedSnapshot c ord g snapRepos) (hg : Weak g)
    (h : WarmStart env disk C mi) {prior : RepoEntry → GoMap String ℤ}
    (hprior : prior = priorOf sord disk (loadedRepos snapRepos))
    (hsync : UnchangedSince env disk C mi prior g)
    (hw : Warmed env sord disk (loadedRepos snapRepos) mi C
      (loadSnapshot c Graph.new D.file).graph g') :
    Healed env disk C mi g' ↔ ∀ n, D.Lost n → ¬C n.id → ∀ entry ∈ mi.configRepos,
      ∀ path ∈ mi.filesOf env disk entry, n.filePath = mi.graphPath env disk entry path →
        path ∈ warmFiles mi env disk entry (prior entry) := by
  subst hprior
  constructor
  · intro hheal n hlost hid entry hentry path hpath hf
    -- a lost node of a file that is not read stays away
    by_contra hnot
    have hin := (hsync entry hentry path hpath).resolve_left fun hc => hnot hc.1
    have hat : g.nodeAt n.id = some n := by
      obtain ⟨b, hb, -⟩ := hlost
      exact D.nodeAt_of_mem hg hb
    have hbefore := (bareIn_of_nodeAt hat hf).symm.trans (hin n.id hid)
    obtain ⟨m, hx, -⟩ := Option.map_eq_some_iff.mp hbefore.symm
    have hloaded := D.nodeAt_of_lost hg (h.loadable hentry hx) hlost
    have hkept := h.bareIn_of_not_read hw hentry hpath hnot hid (h.not_new hentry hpath hnot hx)
    have hafter := (hheal entry hentry path hpath n.id hid).symm.trans hkept
    rw [bareIn_of_nodeAt_eq_none hloaded, hx] at hafter
    cases hafter
  · intro hread entry hentry path hpath
    have hloaded : ∀ id n, (loadSnapshot c Graph.new D.file).graph.bareIn
        (mi.graphPath env disk entry path) id = some n →
        g.bareIn (mi.graphPath env disk entry path) id = some n := fun id n hn => by
      obtain ⟨hat, hf⟩ := bareIn_eq_some.mp hn
      obtain ⟨n', hn', rfl⟩ := Option.map_eq_some_iff.mp hat
      exact bareIn_of_nodeAt (D.nodeAt_of_loaded hg hn') hf
    -- a file that is read is as on the disk, and another one has lost nothing
    by_cases hpr : path ∈ warmFiles mi env disk entry (priorOf sord disk (loadedRepos snapRepos) entry)
    · refine h.inSync_of_read hw hentry hpath hpr ?_
      refine (hsync entry hentry path hpath).imp And.right fun hin id n hid hn => ?_
      exact hin.noStray id n hid (hloaded id n hn)
    · have hin := (hsync entry hentry path hpath).resolve_left fun hc => hpr hc.1
      intro id hid
      cases hx : (mi.entryIndexer env disk entry).extractedAt disk path
          (walkRel (rootOf disk entry) path) id with
      | some m =>
        have hkept := h.bareIn_of_not_read hw hentry hpath hpr hid (h.not_new hentry hpath hpr hx)
        obtain ⟨hat, hf⟩ := bareIn_eq_some.mp
          ((hin id hid).trans (congrArg (Option.map Node.bare) hx))
        obtain ⟨n, hn, hbare⟩ := Option.map_eq_some_iff.mp hat
        have hfile : n.filePath = mi.graphPath env disk entry path :=
          (congrArg Node.filePath hbare).trans hf
        obtain rfl := hg.nodes.id_eq hn
        have hlost : ¬D.Lost n := fun hc => hpr (hread n hc hid entry hentry path hpath hfile)
        have hback := D.nodeAt_of_not_lost hg (h.loadable hentry hx) hn hlost
        refine hkept.trans ((bareIn_of_nodeAt hback hfile).trans ?_)
        rw [hbare]
        rfl
      | none =>
        by_cases hnew : ∃ n, ∃ entry' ∈ mi.configRepos, WarmNew mi env disk entry'
            (priorOf sord disk (loadedRepos snapRepos) entry') id n
        · obtain ⟨n, hn⟩ := hnew
          exact h.bareIn_of_other hw hentry (below_of_mem_filesOf hpath) hid hn fun _ => hx
        · refine (h.bareIn_of_not_read hw hentry hpath hpr hid fun entry' hentry' n hn =>
            hnew ⟨n, entry', hentry', hn⟩).trans ?_
          refine Option.eq_none_iff_forall_ne_some.mpr fun n hn => ?_
          have hbefore := (hloaded id n hn).symm.trans (hin id hid)
          rw [hx] at hbefore
          cases hbefore

theorem graph_rehydrate (contracts : GoMap String (List Contract)) (mi : MultiIndexer)
    (repoPrefix : String) : (rehydrate contracts mi repoPrefix).store = mi.store := by
  unfold rehydrate
  split
  · split <;> rfl
  · rfl

/-- The graph of a warm start is that of its repositories. -/
theorem graph_warmupDaemonState (env : RepoEnv) (sord : SnapshotOrder) (disk : Disk)
    (state : DaemonState) : (warmupDaemonState env sord disk state).multiIndexer.store =
      (warmRepos env sord disk state.snapshotRepos state.multiIndexer).store :=
  List.foldl_invariant
    (P := fun mi : MultiIndexer => mi.store =
      (warmRepos env sord disk state.snapshotRepos state.multiIndexer).store)
    (fun mi p _ hmi => (graph_rehydrate state.snapshotContracts mi p).trans hmi) rfl

/-- **The daemon that starts from a damaged snapshot** has its repositories warmed. -/
theorem DamagedSnapshot.warmed (D : DamagedSnapshot c ord g snapRepos) {registry : Registry}
    {config : IndexConfig} {configRepos : List RepoEntry} {state : DaemonState}
    (hstate : state = buildDaemonState c D.file registry config configRepos)
    (h : WarmStart env disk C state.multiIndexer) :
    Warmed env sord disk (loadedRepos snapRepos) state.multiIndexer C
      (loadSnapshot c Graph.new D.file).graph
      (warmupDaemonState env sord disk state).multiIndexer.store.graph := by
  subst hstate
  have hweak : Weak (loadSnapshot c Graph.new D.file).graph := by
    rw [DamagedSnapshot.file, loadSnapshot_of_body (body_encode c D.version)]
    exact (readSections_ok c _ _).inv.weak
  have hrepos : (buildDaemonState c D.file registry config configRepos).snapshotRepos =
      loadedRepos snapRepos := D.loadSnapshot_file.2
  rw [graph_warmupDaemonState, hrepos]
  exact h.warmed sord (loadedRepos snapRepos) hweak fun _ _ => rfl

/-- **A damaged snapshot heals exactly if** every node whose record is lost is in a file that
the warm start reads anyway. -/
theorem healed_iff (D : DamagedSnapshot c ord g snapRepos) (hg : Weak g) (registry : Registry)
    (config : IndexConfig) (configRepos : List RepoEntry) {state : DaemonState}
    (hstate : state = buildDaemonState c D.file registry config configRepos)
    (h : WarmStart env disk C state.multiIndexer)
    (hsync : UnchangedSince env disk C state.multiIndexer
      (priorOf sord disk (loadedRepos snapRepos)) g) :
    Healed env disk C state.multiIndexer
        (warmupDaemonState env sord disk state).multiIndexer.store.graph ↔
      ∀ n, D.Lost n → ¬C n.id → ∀ entry ∈ state.multiIndexer.configRepos,
        ∀ path ∈ state.multiIndexer.filesOf env disk entry,
          n.filePath = state.multiIndexer.graphPath env disk entry path →
            path ∈ warmFiles state.multiIndexer env disk entry
              (priorOf sord disk (loadedRepos snapRepos) entry) :=
  D.healed_iff_of_warmed hg h rfl hsync (D.warmed hstate h)

end

/-! ### A snapshot with a lost record -/

namespace TwoRepos

/-- **Tracking the two repositories** stores the nodes of their files. -/
theorem inSync_tracked : ∀ entry ∈ configured.configRepos, ∀ path ∈ configured.filesOf env disk entry,
    (configured.entryIndexer env disk entry).InSync disk IsDI (rootOf disk entry) path
      tracked.store.graph := by
  have h : WarmStart env disk IsDI configured := warmStart rfl rfl rfl rfl
  have hw := h.warmed GoMap.RangeOrder.default ∅ Graph.Inv.new.weak fun _ _ => rfl
  have hread : ∀ entry ∈ configured.configRepos, ∀ path ∈ configured.filesOf env disk entry,
      path ∈ warmFiles configured env disk entry
        (priorOf GoMap.RangeOrder.default disk ∅ entry) := by decide +kernel
  intro entry hentry path hpath
  refine h.inSync_of_read hw hentry hpath (hread entry hentry path hpath) (Or.inr ?_)
  intro id n _ hn
  cases hn.symm.trans (bareIn_of_nodeAt_eq_none (nodeAt_new id))

theorem weak_tracked : Weak tracked.store.graph :=
  ((warmStart rfl rfl rfl rfl : WarmStart env disk IsDI configured).warmed
    GoMap.RangeOrder.default ∅ Graph.Inv.new.weak fun _ _ => rfl).weak

/-- The records of the two repositories, the first with a modification time for its file. -/
def records (mtime : ℤ) : List SnapshotRepo :=
  [⟨"a", "/w/a", (∅ : GoMap String ℤ).insert "x.go" mtime⟩,
    ⟨"b", "/w/b", (∅ : GoMap String ℤ).insert "y.go" 1⟩]

/-- The snapshot of the two repositories, in which the node of `/w/a` is lost. -/
def damaged (mtime : ℤ) :
    DamagedSnapshot Record.codec GoMap.RangeOrder.default tracked.store.graph (records mtime) where
  header :=
    { schemaVersion := snapshotSchemaVersion
      version := "v1"
      nodeCount := (tracked.store.graph.allNodes GoMap.RangeOrder.default).length
      edgeCount := (tracked.store.graph.allEdges GoMap.RangeOrder.default).length
      repoCount := 2
      contractCount := 0 }
  nodes := ((tracked.store.graph.allNodes GoMap.RangeOrder.default).map tracked.store.graph.node).map
    fun n => (n, if n.id = "a/x.go::Old" then .corrupt else .node n)
  edges := ((tracked.store.graph.allEdges GoMap.RangeOrder.default).map
    tracked.store.graph.edge).map Record.codec.edge.encode
  rest := []
  version := rfl
  nodeCount := by simp
  edgeCount := by simp
  repoCount := rfl
  nodes_eq := by simp [Function.comp_def]
  edges_length := by simp
  recorded := fun x hx => by
    obtain ⟨n, -, rfl⟩ := List.mem_map.mp hx
    simp only
    split
    · exact Or.inr ⟨_, rfl⟩
    · exact Or.inl rfl

/-- The daemon that starts from it. -/
def state (mtime : ℤ) : DaemonState :=
  buildDaemonState Record.codec (damaged mtime).file Watcher.sizeIndexer.registry {} [repoA, repoB]

theorem filePath_of_lost {mtime : ℤ} {n : Node} (h : (damaged mtime).Lost n) :
    n.filePath = "a/x.go" := by
  obtain ⟨b, hb, err, herr⟩ := h
  have hat := (damaged mtime).nodeAt_of_mem weak_tracked hb
  obtain ⟨n', -, heq⟩ := List.mem_map.mp hb
  obtain ⟨rfl, rfl⟩ := Prod.mk.inj heq
  have hid : n'.id = "a/x.go::Old" := by
    by_contra hc
    rw [if_neg hc] at herr
    cases herr
  have hfile : (tracked.store.graph.nodeAt "a/x.go::Old").map Node.filePath = some "a/x.go" := by
    decide +kernel
  rw [hid] at hat
  rw [hat] at hfile
  exact Option.some.inj hfile

/-- **A lost node comes back** if the modification time of its file is another one than the
snapshot has. -/
theorem healed_iff_restamped : Healed env disk IsDI (state 0).multiIndexer
    (warmupDaemonState env GoMap.RangeOrder.default disk (state 0)).multiIndexer.store.graph := by
  refine (healed_iff (damaged 0) weak_tracked Watcher.sizeIndexer.registry {} [repoA, repoB] rfl
    (warmStart rfl rfl rfl rfl) fun entry hentry path hpath =>
      Or.inr (inSync_tracked entry hentry path hpath)).mpr ?_
  intro n hlost _ entry hentry path hpath hf
  have hread : ∀ path ∈ configured.filesOf env disk repoA, path ∈ warmFiles configured env disk repoA
      (priorOf GoMap.RangeOrder.default disk (loadedRepos (records 0)) repoA) := by decide +kernel
  have hfile : n.filePath = "a/x.go" := filePath_of_lost hlost
  have hother : ∀ path ∈ configured.filesOf env disk repoB,
      configured.graphPath env disk repoB path ≠ "a/x.go" := by decide +kernel
  rcases List.mem_cons.mp hentry with rfl | hentry
  · exact hread path hpath
  · obtain rfl := List.mem_singleton.mp hentry
    exact absurd (hf.symm.trans hfile) (hother path hpath)

/-- The node whose record is lost. -/
theorem exists_lost (mtime : ℤ) : ∃ n, (damaged mtime).Lost n ∧ n.id = "a/x.go::Old" := by
  obtain ⟨n, hn⟩ := Option.isSome_iff_exists.mp
    (show (tracked.store.graph.nodeAt "a/x.go::Old").isSome = true by decide +kernel)
  have hid := weak_tracked.nodes.id_eq hn
  refine ⟨n, ⟨.corrupt, List.mem_map.mpr ⟨n, ?_, by rw [if_pos hid]⟩, _, rfl⟩, hid⟩
  refine (weak_tracked.mem_allNodes _).mpr ?_
  rw [hid]
  exact hn

theorem not_healed_damaged : ¬Healed env disk IsDI (state 1).multiIndexer
    (warmupDaemonState env GoMap.RangeOrder.default disk (state 1)).multiIndexer.store.graph := by
  intro hheal
  have hstart : WarmStart env disk IsDI (state 1).multiIndexer := warmStart rfl rfl rfl rfl
  have hw : Warmed env GoMap.RangeOrder.default disk (loadedRepos (records 1))
      (state 1).multiIndexer IsDI (loadSnapshot Record.codec Graph.new (damaged 1).file).graph
      (warmupDaemonState env GoMap.RangeOrder.default disk (state 1)).multiIndexer.store.graph :=
    (damaged 1).warmed rfl hstart
  have hiff := (damaged 1).healed_iff_of_warmed weak_tracked hstart rfl
    (fun entry hentry path hpath => Or.inr (inSync_tracked entry hentry path hpath)) hw
  obtain ⟨n, hlost, hid⟩ := exists_lost 1
  have hdi : ¬IsDI n.id := by
    rw [hid]
    decide
  have hpath : "/w/a/x.go" ∈ configured.filesOf env disk repoA := by decide +kernel
  have hgraph : configured.graphPath env disk repoA "/w/a/x.go" = "a/x.go" := by decide +kernel
  have hnot : "/w/a/x.go" ∉ warmFiles configured env disk repoA
      (priorOf GoMap.RangeOrder.default disk (loadedRepos (records 1)) repoA) := by decide +kernel
  exact hnot (hiff.mp hheal n hlost hdi repoA List.mem_cons_self "/w/a/x.go" hpath
    ((filePath_of_lost hlost).trans hgraph.symm))

/-- **A damaged snapshot does not always heal**: a node whose record is lost stays away while
its file is as it was. -/
theorem not_healed_of_lost : ¬∀ {β : Type} (env : RepoEnv) (sord : SnapshotOrder) (disk : Disk)
    (C : String → Prop) (c : Codec β) (ord : MapOrder) (g : Graph) (snapRepos : List SnapshotRepo)
    (D : DamagedSnapshot c ord g snapRepos) (registry : Registry) (config : IndexConfig)
    (configRepos : List RepoEntry), Weak g →
    let state := buildDaemonState c D.file registry config configRepos
    WarmStart env disk C state.multiIndexer →
    UnchangedSince env disk C state.multiIndexer (priorOf sord disk (loadedRepos snapRepos)) g →
    Healed env disk C state.multiIndexer
      (warmupDaemonState env sord disk state).multiIndexer.store.graph := by
  intro h
  exact not_healed_damaged (h env GoMap.RangeOrder.default disk IsDI Record.codec
    GoMap.RangeOrder.default tracked.store.graph (records 1) (damaged 1)
    Watcher.sizeIndexer.registry {} [repoA, repoB] weak_tracked (warmStart rfl rfl rfl rfl)
    fun entry hentry path hpath => Or.inr (inSync_tracked entry hentry path hpath))

end TwoRepos

end Gortex
