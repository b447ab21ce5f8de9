import Gortex.Daemon.Snapshot
import Gortex.Indexer.Convergence
import Gortex.Indexer.Repos

/-!
# Warm start of the daemon

`cmd/gortex/daemon_state.go`: a daemon that starts loads the snapshot into its graph, and
then goes through the repositories of its configuration. One the snapshot has
modification times for is reconciled, the others are tracked. What that does to the nodes
is what it does for each repository (`Gortex.replaces_warmRepos`): a file is read again if
its modification time is not the one of the snapshot, or if the snapshot has none for the
whole repository.
-/

namespace Gortex

open Graph GoString Indexer MultiIndexer

/-! ### Starting -/

/-- What a daemon runs on. The indexer is the one its server is given; it is of no
repository. -/
structure DaemonState where
  multiIndexer : MultiIndexer
  indexer : Indexer
  snapshotRepos : GoMap String SnapshotRepo := ∅
  snapshotContracts : GoMap String (List Contract) := ∅

/-- **buildDaemonState** loads the snapshot into an empty graph. -/
def buildDaemonState {β : Type} (c : Codec β) (file : SnapshotFile β) (registry : Registry)
    (config : IndexConfig) (configRepos : List RepoEntry) : DaemonState :=
  let load := loadSnapshot c Graph.new file
  { multiIndexer :=
      { store := { graph := load.graph }
        registry := registry
        configRepos := configRepos }
    indexer := { registry := registry, config := config }
    snapshotRepos := load.repos
    snapshotContracts := load.contracts }

/-- The order in which a loop over the repositories of a snapshot comes out. -/
abbrev SnapshotOrder := GoMap.RangeOrder (GoMap String SnapshotRepo)

/-- **priorMtimesForEntry**: the modification times the snapshot has for an entry, by its
root or else by its prefix. -/
def priorMtimesForEntry (ord : SnapshotOrder) (cwd : String) (repos : GoMap String SnapshotRepo)
    (entry : RepoEntry) : Option (GoMap String ℤ) :=
  match (ord.order repos repos.pairs).find? fun p => p.2.rootPath = GoPath.abs cwd entry.path with
  | some p => some p.2.fileMtimes
  | none =>
    if resolvePrefix entry ≠ "" ∧ resolvePrefix entry ≠ "." then
      (repos.lookup (resolvePrefix entry)).map SnapshotRepo.fileMtimes
    else none

/-- Reconcile a repository the snapshot has, track another one. -/
def warmRepo (env : RepoEnv) (ord : SnapshotOrder) (disk : Disk) (repos : GoMap String SnapshotRepo)
    (mi : MultiIndexer) (entry : RepoEntry) : MultiIndexer :=
  match priorMtimesForEntry ord disk.cwd repos entry with
  | some prior => (mi.ReconcileRepo env disk entry prior).1
  | none => (mi.TrackRepo env disk entry).1

/-- Give a repository the contracts of the snapshot, if its indexer has collected none. -/
def rehydrate (contracts : GoMap String (List Contract)) (mi : MultiIndexer) (repoPrefix : String) :
    MultiIndexer :=
  match mi.indexers.lookup repoPrefix, contracts.lookup repoPrefix with
  | some idx, some (c :: cs) =>
    if idx.contractRegistry.isSome then mi
    else
      { mi with
        indexers := mi.indexers.insert repoPrefix
          { idx with contractRegistry := some ((c :: cs).foldl ContractRegistry.add {}) } }
  | _, _ => mi

/-- **warmupDaemonState** goes through the configured repositories. -/
def warmupDaemonState (env : RepoEnv) (ord : SnapshotOrder) (disk : Disk) (state : DaemonState) :
    DaemonState :=
  let mi := state.multiIndexer.configRepos.foldl (warmRepo env ord disk state.snapshotRepos)
    state.multiIndexer
  { state with
    multiIndexer := (env.repoOrder.order mi mi.repos.keys).foldl (rehydrate state.snapshotContracts)
      mi }

/-! ### Stopping -/

/-- **collectSnapshotRepos**: what a restart needs to know of the tracked repositories. -/
def collectSnapshotRepos (env : RepoEnv) (mi : MultiIndexer) : List SnapshotRepo :=
  (env.repoOrder.order mi mi.repos.pairs).map fun p => ⟨p.1, p.2.rootPath, p.2.fileMtimes⟩

/-! ### What a warm start does to the nodes -/

section

variable {env : RepoEnv} {ord : SnapshotOrder} {disk : Disk} {repos : GoMap String SnapshotRepo}
  {mi : MultiIndexer} {C : String → Prop} {entry : RepoEntry}

/-- The modification times a warm start goes by, none if it tracks the repository. -/
def priorOf (ord : SnapshotOrder) (disk : Disk) (repos : GoMap String SnapshotRepo)
    (entry : RepoEntry) : GoMap String ℤ :=
  (priorMtimesForEntry ord disk.cwd repos entry).getD ∅

/-- **The files a warm start reads** of a repository. -/
def warmFiles (mi : MultiIndexer) (env : RepoEnv) (disk : Disk) (entry : RepoEntry)
    (prior : GoMap String ℤ) : List String :=
  if prior.keys = [] then (mi.entryIndexer env disk entry).indexFiles disk (rootOf disk entry)
  else (mi.priorIndexer env disk entry prior).staleFiles disk (rootOf disk entry)

/-- The paths a warm start evicts. -/
def warmGone (mi : MultiIndexer) (env : RepoEnv) (disk : Disk) (entry : RepoEntry)
    (prior : GoMap String ℤ) : List String :=
  if prior.keys = [] then []
  else (mi.priorIndexer env disk entry prior).gonePaths env.ords disk (rootOf disk entry)

/-- The nodes a warm start stores. -/
def WarmNew (mi : MultiIndexer) (env : RepoEnv) (disk : Disk) (entry : RepoEntry)
    (prior : GoMap String ℤ) : String → Node → Prop :=
  (mi.entryIndexer env disk entry).Produces disk (rootOf disk entry)
    (warmFiles mi env disk entry prior)

/-- **The situation of a warm start**: two repositories or more are configured, under
different prefixes, no path under one of them is under another, and the roots of the
repositories are there. -/
structure WarmStart (env : RepoEnv) (disk : Disk) (C : String → Prop) (mi : MultiIndexer) :
    Prop where
  cwd : GoPath.isAbs disk.cwd = true
  lawful : mi.registry.Lawful
  contracts : ContractIDs env.extractors disk C
  multi : 2 ≤ mi.configRepos.length
  prefixes : ∀ entry ∈ mi.configRepos, entryPrefix env disk entry ≠ "" ∧
    GoPath.isAbs (entryPrefix env disk entry) = false
  apart : ∀ entry ∈ mi.configRepos, ∀ entry' ∈ mi.configRepos, ∀ {r r'},
    entryPrefix env disk entry ++ "/" ++ r = entryPrefix env disk entry' ++ "/" ++ r' →
      entryPrefix env disk entry = entryPrefix env disk entry'
  distinct : (mi.configRepos.map (entryPrefix env disk)).Nodup
  dirs : ∀ entry ∈ mi.configRepos, disk.isDir (rootOf disk entry) = some true

theorem replaces_warmRepo (h : WarmStart env disk C mi) (hg : Weak mi.store.graph)
    (hentry : entry ∈ mi.configRepos)
    (hnew : mi.repos.lookup (entryPrefix env disk entry) = none) :
    Registered env disk entry mi (warmRepo env ord disk repos mi entry) ∧
      Replaces C (warmGone mi env disk entry (priorOf ord disk repos entry))
        (WarmNew mi env disk entry (priorOf ord disk repos entry)) mi.store.graph
        (warmRepo env ord disk repos mi entry).store.graph := by
  have htrack := replaces_trackRepo h.cwd h.lawful h.contracts hg h.multi hentry
    (h.dirs entry hentry) hnew
  unfold warmRepo priorOf WarmNew warmFiles warmGone
  cases hp : priorMtimesForEntry ord disk.cwd repos entry with
  | none => exact htrack
  | some prior =>
    simp only [Option.getD_some]
    by_cases hk : prior.keys = []
    · have hfall : mi.ReconcileRepo env disk entry prior = mi.TrackRepo env disk entry := by
        have hnone : mi.repos.lookup (prefixOf env entry (GoPath.abs disk.cwd entry.path)) = none :=
          hnew
        unfold ReconcileRepo
        simp only [rootError_eq_none (h.dirs entry hentry), hnone, Option.isSome_none,
          Bool.false_eq_true, if_false, hk, if_true]
      simp only [if_pos hk]
      rw [hfall]
      exact htrack
    · simp only [if_neg hk]
      exact replaces_reconcileRepo h.cwd h.lawful h.contracts hg h.multi hentry
        (h.dirs entry hentry) hnew hk

theorem MultiIndexer.Registered.entryIndexer {mi' : MultiIndexer} {entry' : RepoEntry}
    (h : Registered env disk entry' mi mi') : mi'.entryIndexer env disk entry =
      mi.entryIndexer env disk entry := by
  unfold MultiIndexer.entryIndexer newIndexer
  rw [h.registry, h.configRepos]

theorem MultiIndexer.Registered.warm {mi' : MultiIndexer} {entry' : RepoEntry}
    (h : Registered env disk entry' mi mi') (prior : GoMap String ℤ) :
    warmFiles mi' env disk entry prior = warmFiles mi env disk entry prior ∧
      warmGone mi' env disk entry prior = warmGone mi env disk entry prior ∧
      WarmNew mi' env disk entry prior = WarmNew mi env disk entry prior := by
  unfold WarmNew warmFiles warmGone priorIndexer
  rw [h.entryIndexer]
  exact ⟨rfl, rfl, rfl⟩

theorem MultiIndexer.Registered.warmStart {mi' : MultiIndexer} {entry' : RepoEntry}
    (h : Registered env disk entry' mi mi') (hw : WarmStart env disk C mi) :
    WarmStart env disk C mi' where
  cwd := hw.cwd
  lawful := by
    rw [h.registry]
    exact hw.lawful
  contracts := hw.contracts
  multi := by
    rw [h.configRepos]
    exact hw.multi
  prefixes := by
    rw [h.configRepos]
    exact hw.prefixes
  apart := by
    rw [h.configRepos]
    exact hw.apart
  distinct := by
    rw [h.configRepos]
    exact hw.distinct
  dirs := by
    rw [h.configRepos]
    exact hw.dirs

/-- What a warm start stores of a repository is under its prefix. -/
theorem WarmNew.prefixed (h : WarmStart env disk C mi) (hentry : entry ∈ mi.configRepos)
    {prior : GoMap String ℤ} {id : String} {n : Node} (hn : WarmNew mi env disk entry prior id n) :
    (∃ raw, id = entryPrefix env disk entry ++ "/" ++ raw) ∧
      ∃ rel, n.filePath = entryPrefix env disk entry ++ "/" ++ rel := by
  have hp : (mi.entryIndexer env disk entry).repoPrefix = entryPrefix env disk entry := rfl
  have hne : (mi.entryIndexer env disk entry).repoPrefix ≠ "" := by
    rw [hp]
    exact (h.prefixes entry hentry).1
  obtain ⟨hid, path, -, hpath⟩ := prefixed_of_produces h.lawful hne hn
  exact ⟨hid, _, hpath⟩

/-- So is what it evicts. -/
theorem prefixed_of_mem_warmGone (h : WarmStart env disk C mi) (hentry : entry ∈ mi.configRepos)
    {prior : GoMap String ℤ} {p : String} (hp : p ∈ warmGone mi env disk entry prior) :
    ∃ rel, p = entryPrefix env disk entry ++ "/" ++ rel := by
  unfold warmGone at hp
  split at hp
  · cases hp
  · obtain ⟨rel, -, rfl⟩ := List.mem_map.mp hp
    exact ⟨rel, prefixPath_of_ne (h.prefixes entry hentry).1 rel⟩

/-- **The repositories of a warm start**, one after the other, replace the nodes of the
files it reads. -/
theorem replaces_warmRepos (h : WarmStart env disk C mi) (hg : Weak mi.store.graph)
    {l : List RepoEntry} (hl : ∀ entry ∈ l, entry ∈ mi.configRepos)
    (hnodup : (l.map (entryPrefix env disk)).Nodup)
    (hnew : ∀ entry ∈ l, mi.repos.lookup (entryPrefix env disk entry) = none) :
    Replaces C (l.flatMap fun entry => warmGone mi env disk entry (priorOf ord disk repos entry))
      (fun id n => ∃ entry ∈ l, WarmNew mi env disk entry (priorOf ord disk repos entry) id n)
      mi.store.graph (l.foldl (warmRepo env ord disk repos) mi).store.graph := by
  induction l generalizing mi with
  | nil =>
    refine ⟨hg, fun _ ⟨_, he, _⟩ => (nomatch he), fun {id} _ _ => ?_⟩
    change mi.store.graph.bareAt id = _
    cases mi.store.graph.bareAt id with
    | none => rfl
    | some n => simp [Option.filter]
  | cons entry l ih =>
    obtain ⟨hnot, hnodup'⟩ := List.nodup_cons.mp hnodup
    have hentry := hl entry List.mem_cons_self
    obtain ⟨hreg, hrep⟩ := @replaces_warmRepo env ord disk repos mi C entry h hg hentry
      (hnew entry List.mem_cons_self)
    -- no prefix is warmed up twice, so what comes later leaves the nodes of this entry alone
    have hapart : ∀ e ∈ l, entryPrefix env disk e ≠ entryPrefix env disk entry := fun e he hc =>
      hnot (hc ▸ List.mem_map_of_mem he)
    have hrest := ih (hreg.warmStart h) hrep.weak
      (fun e he => by
        rw [hreg.configRepos]
        exact hl e (List.mem_cons_of_mem _ he))
      hnodup'
      (fun e he => by
        rw [hreg.repos _ (hapart e he)]
        exact hnew e (List.mem_cons_of_mem _ he))
    simp only [(hreg.warm _).2.1, (hreg.warm _).2.2] at hrest
    have htrans := hrep.trans hrest
      (fun {id n n'} hn ⟨e, he, hn'⟩ => by
        obtain ⟨⟨raw, hraw⟩, -⟩ := hn.prefixed h hentry
        have hel := hl e (List.mem_cons_of_mem _ he)
        obtain ⟨⟨raw', hraw'⟩, -⟩ := hn'.prefixed h hel
        exact hapart e he (h.apart e hel entry hentry
          (hraw'.symm.trans hraw)))
      (fun {id n} hn hm => by
        obtain ⟨-, rel, hrel⟩ := hn.prefixed h hentry
        obtain ⟨e, he, hp⟩ := List.mem_flatMap.mp hm
        have hel := hl e (List.mem_cons_of_mem _ he)
        obtain ⟨rel', hrel'⟩ := prefixed_of_mem_warmGone h hel hp
        exact hapart e he (h.apart e hel entry hentry
          (hrel'.symm.trans hrel)))
    refine htrans.congr (fun p => by rw [List.flatMap_cons]) fun id n => ?_
    simp only [List.mem_cons, exists_eq_or_imp]

/-! ### The nodes of one file -/

/-- The node stored under an ID, without its shape, if it is in the file. -/
def Graph.bareIn (g : Graph) (filePath id : String) : Option Node :=
  (g.bareAt id).filter fun n => n.filePath = filePath

theorem Graph.bareIn_eq_some {g : Graph} {filePath id : String} {n : Node} :
    g.bareIn filePath id = some n ↔ g.bareAt id = some n ∧ n.filePath = filePath := by
  rw [bareIn, Option.filter_eq_some_iff, decide_eq_true_eq]

theorem Graph.bareIn_of_nodeAt {g : Graph} {filePath id : String} {n : Node}
    (hn : g.nodeAt id = some n) (hf : n.filePath = filePath) :
    g.bareIn filePath id = some n.bare :=
  bareIn_eq_some.mpr ⟨congrArg (Option.map Node.bare) hn, hf⟩

theorem Graph.bareIn_of_nodeAt_eq_none {g : Graph} {filePath id : String}
    (hn : g.nodeAt id = none) : g.bareIn filePath id = none := by
  rw [bareIn, bareAt, hn]
  rfl

namespace Indexer

variable {idx : Indexer} {root path : String} {g : Graph}

/-- The path of a walked file in the graph. -/
def walkPath (idx : Indexer) (root path : String) : String := idx.prefixPath (walkRel root path)

/-- **The graph has the nodes of a file**, and no others under its path, off the IDs in `C`
and but for the shapes. -/
def InSync (idx : Indexer) (disk : Disk) (C : String → Prop) (root path : String) (g : Graph) :
    Prop :=
  ∀ id, ¬C id → g.bareIn (idx.walkPath root path) id =
    (idx.extractedAt disk path (walkRel root path) id).map Node.bare

/-- The graph has no nodes under the path of a file that the file does not give. -/
def NoStray (idx : Indexer) (disk : Disk) (C : String → Prop) (root path : String) (g : Graph) :
    Prop :=
  ∀ id n, ¬C id → g.bareIn (idx.walkPath root path) id = some n →
    (idx.extractedAt disk path (walkRel root path) id).isSome

theorem InSync.noStray (h : idx.InSync disk C root path g) : idx.NoStray disk C root path g := by
  intro id n hid hn
  have hsync := h id hid
  rw [hn] at hsync
  obtain ⟨m, hm, -⟩ := Option.map_eq_some_iff.mp hsync.symm
  rw [hm]
  rfl

end Indexer

/-- The repositories of a warm start, one after the other. -/
def warmRepos (env : RepoEnv) (ord : SnapshotOrder) (disk : Disk) (repos : GoMap String SnapshotRepo)
    (mi : MultiIndexer) : MultiIndexer :=
  mi.configRepos.foldl (warmRepo env ord disk repos) mi

/-- The path of a file of a repository in the graph. -/
def MultiIndexer.graphPath (mi : MultiIndexer) (env : RepoEnv) (disk : Disk) (entry : RepoEntry)
    (path : String) : String :=
  (mi.entryIndexer env disk entry).walkPath (rootOf disk entry) path

/-- The files of a repository. -/
def MultiIndexer.filesOf (mi : MultiIndexer) (env : RepoEnv) (disk : Disk) (entry : RepoEntry) :
    List String :=
  (mi.entryIndexer env disk entry).walkFiles disk (rootOf disk entry)

theorem mem_filesOf_of_mem_warmFiles {prior : GoMap String ℤ} {path : String}
    (h : path ∈ warmFiles mi env disk entry prior) : path ∈ mi.filesOf env disk entry := by
  unfold warmFiles at h
  split at h
  · exact List.mem_of_mem_filter h
  · exact List.mem_of_mem_filter h

/-- A path that can be the one of a file below the root of a repository. -/
def Below (disk : Disk) (entry : RepoEntry) (path : String) : Prop :=
  (GoPath.IsClean path ∧ GoPath.isAbs path = true) ∧ GoPath.Under (rootOf disk entry) path

instance (disk : Disk) (entry : RepoEntry) (path : String) : Decidable (Below disk entry path) := by
  unfold Below
  infer_instance

section

variable {entry' : RepoEntry} {path path' : String}

theorem below_of_mem_filesOf (h : path ∈ mi.filesOf env disk entry) : Below disk entry path :=
  mem_walkFiles h

theorem walkRel_inj_of_under {root : String} (hc : GoPath.IsClean path)
    (hc' : GoPath.IsClean path') (hu : GoPath.Under root path) (hu' : GoPath.Under root path')
    (h : walkRel root path = walkRel root path') : path = path' := by
  refine GoPath.rel_inj hc hc' hu hu' ?_
  rw [rel_eq_walkRel hu, rel_eq_walkRel hu', h]

/-- Two repositories have no path in common, and a repository has none twice. -/
theorem WarmStart.below_inj (h : WarmStart env disk C mi) (hentry : entry ∈ mi.configRepos)
    (hentry' : entry' ∈ mi.configRepos) (hpath : Below disk entry path)
    (hpath' : Below disk entry' path')
    (heq : mi.graphPath env disk entry path = mi.graphPath env disk entry' path') :
    entry = entry' ∧ path = path' := by
  have hne : ∀ e ∈ mi.configRepos, (mi.entryIndexer env disk e).repoPrefix ≠ "" := fun e he =>
    (h.prefixes e he).1
  unfold MultiIndexer.graphPath walkPath at heq
  rw [prefixPath_of_ne (hne entry hentry), prefixPath_of_ne (hne entry' hentry')] at heq
  have hprefix := h.apart entry hentry entry' hentry' heq
  have hsame : entry = entry' := List.inj_on_of_nodup_map h.distinct hentry hentry' hprefix
  subst hsame
  exact ⟨rfl, walkRel_inj_of_under hpath.1.1 hpath'.1.1 hpath.2 hpath'.2
    (String.append_right_inj _ |>.mp heq)⟩

/-- **The ID of a node tells its file**, whatever the contents have been. -/
theorem WarmStart.sameFile (h : WarmStart env disk C mi) (hentry : entry ∈ mi.configRepos)
    (hentry' : entry' ∈ mi.configRepos) (hpath : Below disk entry path)
    (hpath' : Below disk entry' path') {d d' : Disk} {id : String} {n n' : Node}
    (hn : (mi.entryIndexer env disk entry).extractedAt d path
      (walkRel (rootOf disk entry) path) id = some n)
    (hn' : (mi.entryIndexer env disk entry').extractedAt d' path'
      (walkRel (rootOf disk entry') path') id = some n') : entry = entry' ∧ path = path' := by
  have hnew : ∀ e d p m, e ∈ mi.configRepos → (mi.entryIndexer env disk e).extractedAt d p
      (walkRel (rootOf disk e) p) id = some m → ∃ raw, id = entryPrefix env disk e ++ "/" ++ raw :=
    fun e d p m he hm =>
      (@prefixed_of_produces (mi.entryIndexer env disk e) h.lawful (h.prefixes e he).1 d
        (rootOf disk e) [p] id m ⟨p, List.mem_singleton_self p, hm⟩).1
  obtain ⟨raw, hraw⟩ := hnew entry d path n hentry hn
  obtain ⟨raw', hraw'⟩ := hnew entry' d' path' n' hentry' hn'
  have hprefix := h.apart entry hentry entry' hentry' (hraw.symm.trans hraw')
  have hsame : entry = entry' := List.inj_on_of_nodup_map h.distinct hentry hentry' hprefix
  subst hsame
  obtain ⟨res, hres, hm⟩ := extractedAt_eq_some.mp hn
  obtain ⟨res', hres', hm'⟩ := extractedAt_eq_some.mp hn'
  obtain ⟨hmem, hid⟩ := ExtractionResult.mem_of_nodeAt hm
  obtain ⟨hmem', hid'⟩ := ExtractionResult.mem_of_nodeAt hm'
  exact ⟨rfl, walkRel_inj_of_under hpath.1.1 hpath'.1.1 hpath.2 hpath'.2
    (apart_of_extractFile h.lawful hres hres' hmem hmem' (hid.trans hid'.symm))⟩

end

theorem WarmStart.filePath_of_new (h : WarmStart env disk C mi) {prior : GoMap String ℤ}
    {id : String} {n : Node} (hn : WarmNew mi env disk entry prior id n) :
    ∃ path ∈ warmFiles mi env disk entry prior, n.filePath = mi.graphPath env disk entry path ∧
      (mi.entryIndexer env disk entry).extractedAt disk path (walkRel (rootOf disk entry) path) id =
        some n := by
  obtain ⟨path, hpath, hn⟩ := hn
  exact ⟨path, hpath, filePath_of_extractedAt h.lawful hn, hn⟩

theorem gonePaths_priorIndexer (hcwd : GoPath.isAbs disk.cwd = true) (ords : Orders)
    (prior : GoMap String ℤ) :
    (mi.priorIndexer env disk entry prior).gonePaths ords disk (rootOf disk entry) =
      ((mi.priorIndexer env disk entry prior).deletedFiles ords disk (rootOf disk entry) ++
        ((mi.priorIndexer env disk entry prior).staleFiles disk (rootOf disk entry)).map
          (walkRel (rootOf disk entry))).map (mi.priorIndexer env disk entry prior).prefixPath := by
  have habs : GoPath.abs disk.cwd (rootOf disk entry) = rootOf disk entry := GoPath.abs_abs hcwd _
  have hat : (mi.priorIndexer env disk entry prior).atRoot disk (rootOf disk entry) =
      mi.priorIndexer env disk entry prior := by
    unfold atRoot
    rw [habs]
    rfl
  rw [gonePaths, hat, habs]

/-- A file that is read is evicted, if the snapshot has modification times for its
repository. -/
theorem WarmStart.mem_warmGone (h : WarmStart env disk C mi) {path : String}
    {prior : GoMap String ℤ} (hpath : path ∈ warmFiles mi env disk entry prior)
    (hk : prior.keys ≠ []) :
    mi.graphPath env disk entry path ∈ warmGone mi env disk entry prior := by
  unfold warmFiles at hpath
  rw [if_neg hk] at hpath
  unfold warmGone
  rw [if_neg hk]
  have hrel : walkRel (rootOf disk entry) path ∈
      ((mi.priorIndexer env disk entry prior).staleFiles disk (rootOf disk entry)).map
        (walkRel (rootOf disk entry)) := List.mem_map.mpr ⟨path, hpath, rfl⟩
  rw [gonePaths_priorIndexer h.cwd]
  exact List.mem_map_of_mem (List.mem_append_right _ hrel)

/-- **What is evicted**: the files that are read, and the paths of the table at which there is
none. -/
theorem WarmStart.mem_warmGone_iff (h : WarmStart env disk C mi) {entry' : RepoEntry}
    (hentry : entry ∈ mi.configRepos) (hentry' : entry' ∈ mi.configRepos)
    {path : String} (hpath : Below disk entry path) {prior : RepoEntry → GoMap String ℤ} :
    mi.graphPath env disk entry path ∈ warmGone mi env disk entry' (prior entry') ↔
      entry' = entry ∧ (prior entry).keys ≠ [] ∧
        (path ∈ warmFiles mi env disk entry (prior entry) ∨
          (walkRel (rootOf disk entry) path ∈ (prior entry).keys ∧
            path ∉ mi.filesOf env disk entry)) := by
  constructor
  · intro hgone
    unfold warmGone at hgone
    split at hgone
    · cases hgone
    · rename_i hk
      rw [gonePaths_priorIndexer h.cwd] at hgone
      obtain ⟨rel, hrel, heq⟩ := List.mem_map.mp hgone
      have hprefix := (prefixPath_of_ne (h.prefixes entry' hentry').1 rel).symm.trans
        (heq.trans (prefixPath_of_ne (h.prefixes entry hentry).1 _))
      obtain rfl : entry' = entry := List.inj_on_of_nodup_map h.distinct hentry' hentry
        (h.apart entry' hentry' entry hentry hprefix)
      obtain rfl : rel = walkRel (rootOf disk entry') path :=
        String.append_right_inj _ |>.mp hprefix
      refine ⟨rfl, hk, ?_⟩
      rcases List.mem_append.mp hrel with hdel | hstale
      · obtain ⟨hkey, hwalk⟩ := List.mem_filter.mp hdel
        refine Or.inr ⟨env.ords.mtimes.mem.mp hkey, fun hc => ?_⟩
        exact of_decide_eq_true hwalk (List.mem_map_of_mem hc)
      · obtain ⟨q, hq, hqrel⟩ := List.mem_map.mp hstale
        have hqwalk : q ∈ mi.filesOf env disk entry' := List.mem_of_mem_filter hq
        obtain ⟨⟨hqc, -⟩, hqu⟩ := below_of_mem_filesOf hqwalk
        obtain rfl := walkRel_inj_of_under hqc hpath.1.1 hqu hpath.2 hqrel
        unfold warmFiles
        rw [if_neg hk]
        exact Or.inl hq
  · rintro ⟨rfl, hk, hread | ⟨hkey, hnot⟩⟩
    · exact h.mem_warmGone hread hk
    · unfold warmGone
      rw [if_neg hk, gonePaths_priorIndexer h.cwd]
      refine List.mem_map_of_mem (List.mem_append_left _ (List.mem_filter.mpr ⟨?_, ?_⟩))
      · exact env.ords.mtimes.mem.mpr hkey
      · refine decide_eq_true fun hc => ?_
        obtain ⟨q, hq, hqrel⟩ := List.mem_map.mp hc
        obtain ⟨⟨hqc, -⟩, hqu⟩ := below_of_mem_filesOf hq
        obtain rfl := walkRel_inj_of_under hqc hpath.1.1 hqu hpath.2 hqrel
        exact hnot hq

section

variable {g g' : Graph} (h : WarmStart env disk C mi)

include h

/-- What a file gives that is not read, no file gives that is. -/
theorem WarmStart.not_new (hentry : entry ∈ mi.configRepos) {path : String}
    (hpath : path ∈ mi.filesOf env disk entry) {prior : RepoEntry → GoMap String ℤ}
    (hnot : path ∉ warmFiles mi env disk entry (prior entry)) {id : String} {n : Node}
    (hx : (mi.entryIndexer env disk entry).extractedAt disk path
      (walkRel (rootOf disk entry) path) id = some n) :
    ∀ entry' ∈ mi.configRepos, ∀ n', ¬WarmNew mi env disk entry' (prior entry') id n' := by
  rintro entry' hentry' n' ⟨path', hpath', hx'⟩
  obtain ⟨rfl, rfl⟩ := h.sameFile hentry' hentry
    (below_of_mem_filesOf (mem_filesOf_of_mem_warmFiles hpath')) (below_of_mem_filesOf hpath) hx' hx
  exact hnot hpath'

/-- What a warm start makes of the nodes. -/
abbrev Warmed (env : RepoEnv) (ord : SnapshotOrder) (disk : Disk) (repos : GoMap String SnapshotRepo)
    (mi : MultiIndexer) (C : String → Prop) (g g' : Graph) : Prop :=
  Replaces C
    (mi.configRepos.flatMap fun entry => warmGone mi env disk entry (priorOf ord disk repos entry))
    (fun id n => ∃ entry ∈ mi.configRepos,
      WarmNew mi env disk entry (priorOf ord disk repos entry) id n) g g'

theorem WarmStart.warmed (ord : SnapshotOrder) (repos : GoMap String SnapshotRepo)
    (hg : Weak mi.store.graph)
    (hnew : ∀ entry ∈ mi.configRepos, mi.repos.lookup (entryPrefix env disk entry) = none) :
    Warmed env ord disk repos mi C mi.store.graph
      (warmRepos env ord disk repos mi).store.graph :=
  replaces_warmRepos h hg (fun _ he => he) h.distinct hnew

omit h in
/-- **A path that is not evicted** keeps an ID that no file gives. -/
theorem Warmed.bareIn_of_kept (hw : Warmed env ord disk repos mi C g g') {path id : String}
    (hid : ¬C id) (hgone : ∀ entry' ∈ mi.configRepos, mi.graphPath env disk entry path ∉
      warmGone mi env disk entry' (priorOf ord disk repos entry'))
    (hnew : ∀ entry' ∈ mi.configRepos, ∀ n,
      ¬WarmNew mi env disk entry' (priorOf ord disk repos entry') id n) :
    g'.bareIn (mi.graphPath env disk entry path) id =
      g.bareIn (mi.graphPath env disk entry path) id := by
  unfold bareIn
  rw [hw.kept hid (fun n ⟨entry', hentry', hn⟩ => hnew entry' hentry' n hn), Option.filter_filter]
  refine congrArg (fun f => Option.filter f (g.bareAt id)) (funext fun n => ?_)
  by_cases hf : n.filePath = mi.graphPath env disk entry path
  · have hkept : n.filePath ∉ mi.configRepos.flatMap fun entry =>
        warmGone mi env disk entry (priorOf ord disk repos entry) := fun hc => by
      obtain ⟨entry', hentry', hmem⟩ := List.mem_flatMap.mp hc
      rw [hf] at hmem
      exact hgone entry' hentry' hmem
    rw [decide_eq_true hkept, Bool.true_and]
  · rw [decide_eq_false hf, Bool.and_false]

section

variable (hw : Warmed env ord disk repos mi C g g') (hentry : entry ∈ mi.configRepos)
  {path : String} (hpath : Below disk entry path)

include hw hentry hpath

/-- What a path gets from another file is not under that path. -/
theorem WarmStart.bareIn_of_other {id : String} (hid : ¬C id) {n : Node}
    (hnew : ∃ entry' ∈ mi.configRepos,
      WarmNew mi env disk entry' (priorOf ord disk repos entry') id n)
    (hnone : path ∈ warmFiles mi env disk entry (priorOf ord disk repos entry) →
      (mi.entryIndexer env disk entry).extractedAt disk path
        (walkRel (rootOf disk entry) path) id = none) :
    g'.bareIn (mi.graphPath env disk entry path) id = none := by
  obtain ⟨entry', hentry', hn⟩ := hnew
  obtain ⟨path', hpath', hf, hx⟩ := h.filePath_of_new hn
  refine Option.eq_none_iff_forall_ne_some.mpr fun m hm => ?_
  obtain ⟨hat, hfile⟩ := bareIn_eq_some.mp hm
  rw [hw.added hid ⟨entry', hentry', hn⟩] at hat
  obtain rfl := Option.some.inj hat
  have hbelow := below_of_mem_filesOf (mem_filesOf_of_mem_warmFiles hpath')
  obtain ⟨rfl, rfl⟩ := h.below_inj hentry' hentry hbelow hpath (hf.symm.trans hfile)
  rw [hx] at hnone
  cases hnone hpath'

end

variable (hw : Warmed env ord disk repos mi C g g') (hentry : entry ∈ mi.configRepos)
  {path : String} (hpath : path ∈ mi.filesOf env disk entry)

include hw hentry hpath

/-- **A file that is read is in the graph as it is on the disk**, if what it does not give
is evicted or was not there. -/
theorem WarmStart.inSync_of_read (hread : path ∈ warmFiles mi env disk entry
      (priorOf ord disk repos entry))
    (hclear : (priorOf ord disk repos entry).keys ≠ [] ∨
      (mi.entryIndexer env disk entry).NoStray disk C (rootOf disk entry) path g) :
    (mi.entryIndexer env disk entry).InSync disk C (rootOf disk entry) path g' := by
  intro id hid
  cases hx : (mi.entryIndexer env disk entry).extractedAt disk path
      (walkRel (rootOf disk entry) path) id with
  | some n =>
    have hf : n.filePath = _ := filePath_of_extractedAt h.lawful hx
    exact bareIn_eq_some.mpr ⟨hw.added hid ⟨entry, hentry, path, hread, hx⟩, hf⟩
  | none =>
    by_cases hnew : ∃ n, ∃ entry' ∈ mi.configRepos,
        WarmNew mi env disk entry' (priorOf ord disk repos entry') id n
    · obtain ⟨n, hn⟩ := hnew
      exact h.bareIn_of_other hw hentry (below_of_mem_filesOf hpath) hid hn fun _ => hx
    · refine Option.eq_none_iff_forall_ne_some.mpr fun n hn => ?_
      obtain ⟨hat, hf⟩ := bareIn_eq_some.mp hn
      rw [hw.kept hid fun n hn => hnew ⟨n, hn⟩] at hat
      obtain ⟨hat, hgone⟩ := Option.filter_eq_some_iff.mp hat
      rcases hclear with hk | hstray
      · refine of_decide_eq_true hgone (List.mem_flatMap.mpr ⟨entry, hentry, ?_⟩)
        rw [hf]
        exact h.mem_warmGone hread hk
      · have hsome := hstray id n hid (bareIn_eq_some.mpr ⟨hat, hf⟩)
        rw [hx] at hsome
        cases hsome

/-- **A file that is not read keeps the nodes it gives**, and the others under its path as
far as they are not given by another file. -/
theorem WarmStart.bareIn_of_not_read (hnot : path ∉ warmFiles mi env disk entry
      (priorOf ord disk repos entry)) {id : String} (hid : ¬C id)
    (hnew : ∀ entry' ∈ mi.configRepos, ∀ n,
      ¬WarmNew mi env disk entry' (priorOf ord disk repos entry') id n) :
    g'.bareIn (mi.graphPath env disk entry path) id =
      g.bareIn (mi.graphPath env disk entry path) id := by
  refine hw.bareIn_of_kept hid (fun entry' hentry' hgone => ?_) hnew
  obtain ⟨-, -, hread | ⟨-, hno⟩⟩ := (WarmStart.mem_warmGone_iff h hentry hentry'
    (below_of_mem_filesOf hpath)).mp hgone
  · exact hnot hread
  · exact hno hpath

end

end

/-! ### Two repositories -/

namespace TwoRepos

/-- Contract passes that find nothing. -/
def extractors : ContractExtractors where
  perFile := fun _ => none
  goMod := fun _ _ _ => []
  refine := fun _ _ _ _ reg => reg
  extractShape := fun _ _ _ _ => none

/-- An environment without contracts and configuration files. -/
def env : RepoEnv where
  extractors := extractors
  ords := ⟨GoMap.RangeOrder.default, GoMap.RangeOrder.default, GoMap.RangeOrder.default,
    GoMap.RangeOrder.default⟩
  repoOrder := GoMap.RangeOrder.default
  detectIdentity := GoPath.base
  repoConfig := fun _ _ => {}
  inlineWrappers := fun reg _ _ => (reg, [])
  bindProviderSymbols := fun reg _ => reg

/-- The IDs of the contracts of dependency injection. -/
def IsDI (id : String) : Prop := hasPrefix id "di::" = true

instance : DecidablePred IsDI := fun id => inferInstanceAs (Decidable (hasPrefix id "di::" = true))

theorem contractIDs (disk : Disk) : ContractIDs env.extractors disk IsDI where
  found :=
    { rename := fun h => h
      perFile := fun h => by cases h
      goMod := fun _ _ _ _ h => by cases h
      refine := fun h => h }
  di := fun {e c} h => by
    have hid : ∀ token role metadata, IsDI (Indexer.diContract e token role metadata).id :=
      fun token _ _ => hasPrefix_append "di::" token
    unfold Indexer.diContractFromEdge at h
    simp only at h
    split_ifs at h
    all_goals
      cases h
      exact hid _ _ _

/-- A disk with one file of a byte in `/w/a` and one in `/w/b`. -/
def disk : Disk where
  files := ((∅ : GoMap String DiskFile).insert "/w/a/x.go" (Watcher.fileOf 1)).insert "/w/b/y.go"
    (Watcher.fileOf 1)
  cwd := "/w"
  dirs := ["/w/a", "/w/b"]
  isClean := by decide +kernel

/-- The first repository. -/
def repoA : RepoEntry := { path := "/w/a" }

/-- The second repository. -/
def repoB : RepoEntry := { path := "/w/b" }

/-- The two repositories are configured. -/
def configured : MultiIndexer where
  registry := Watcher.sizeIndexer.registry
  configRepos := [repoA, repoB]

theorem entryPrefix_repoA (d : Disk) : entryPrefix env d repoA = "a" := by
  have hname : resolvePrefix repoA = "a" := by decide +kernel
  rw [entryPrefix, prefixOf, hname, if_neg (by decide)]

theorem entryPrefix_repoB (d : Disk) : entryPrefix env d repoB = "b" := by
  have hname : resolvePrefix repoB = "b" := by decide +kernel
  rw [entryPrefix, prefixOf, hname, if_neg (by decide)]

/-- A multi-indexer the two repositories are configured in starts warm. -/
theorem warmStart {mi : MultiIndexer} {d : Disk} (hreg : mi.registry = configured.registry)
    (hrepos : mi.configRepos = [repoA, repoB]) (hcwd : d.cwd = "/w")
    (hdirs : d.dirs = ["/w/a", "/w/b"]) : WarmStart env d IsDI mi where
  cwd := by
    rw [hcwd]
    decide +kernel
  lawful := by
    rw [hreg]
    exact Watcher.sizeIndexer_lawful
  contracts := contractIDs d
  multi := by
    rw [hrepos]
    decide
  prefixes := by
    rw [hrepos]
    simp only [List.forall_mem_cons, List.not_mem_nil, false_imp_iff, implies_true, and_true]
    rw [entryPrefix_repoA, entryPrefix_repoB]
    exact ⟨⟨by decide, by decide +kernel⟩, ⟨by decide, by decide +kernel⟩⟩
  apart := by
    rw [hrepos]
    intro entry hentry entry' hentry' r r' heq
    have hplain : ∀ e ∈ [repoA, repoB], IsRepoPrefix (entryPrefix env d e) := by
      simp only [List.forall_mem_cons, List.not_mem_nil, false_imp_iff, implies_true, and_true]
      rw [entryPrefix_repoA, entryPrefix_repoB]
      exact ⟨⟨by decide, by decide⟩, ⟨by decide, by decide⟩⟩
    exact (hplain entry hentry).inj (hplain entry' hentry') heq
  distinct := by
    rw [hrepos, List.map_cons, List.map_singleton, entryPrefix_repoA, entryPrefix_repoB]
    decide
  dirs := by
    rw [hrepos]
    simp only [List.forall_mem_cons, List.not_mem_nil, false_imp_iff, implies_true, and_true]
    unfold Disk.isDir rootOf
    rw [hcwd, hdirs]
    exact ⟨if_pos (by decide +kernel), if_pos (by decide +kernel)⟩

/-- The two repositories are tracked. -/
def tracked : MultiIndexer := warmRepos env GoMap.RangeOrder.default disk ∅ configured

end TwoRepos

end Gortex
