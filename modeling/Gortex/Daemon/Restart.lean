import Gortex.Daemon.Healing
import Gortex.Resolver.CrossRepo

/-!
# Restart of the daemon

A daemon tracks its repositories, patches their files while they change, saves a snapshot and
stops. Files change on, and a daemon that starts on the snapshot reconciles the repositories. Does
its graph follow the disk? Which files are read or evicted then is decided by the modification
times in the snapshot, and these are the ones of when the repositories were tracked: the metadata
of a repository that `collectSnapshotRepos` reads is written then, and not by the patches of the
watchers (`Gortex.Watching.Since.repos`).

A file that has changed is read again, whether it has been patched or not. A file that was
created after its repository was tracked is not in the table of the snapshot; if it is deleted
while no daemon runs, nobody evicts its nodes. That, and a repository without any indexed file
when it was tracked, which is indexed over what the snapshot has, are what keeps the graph from
the disk (`Gortex.Watching.recovers_iff`).
-/

namespace Gortex

open Graph GoString Indexer MultiIndexer

/-! ### A daemon at work -/

/-- A daemon that watches its repositories. -/
structure Watching where
  multiIndexer : MultiIndexer
  disk : Disk
  /-- The modification times a path has had so far. -/
  stamps : List (String × ℤ)
  /-- The paths that have changed since the repositories were tracked. -/
  changed : List String := []

/-- A change of the disk, or what a watcher does to the graph. -/
inductive WatchAction
  | writeFile (path : String) (h : GoPath.IsClean path ∧ GoPath.isAbs path = true) (f : DiskFile)
  | removeFile (path : String)
  /-- The patch of a file, by a callback, or by a drain, which does not resolve. -/
  | patch (repoPrefix path : String) (h : GoPath.IsClean path ∧ GoPath.isAbs path = true)
      (kind : ChangeKind) (resolve : Bool)
  /-- The end of a drain. -/
  | resolveAll
  /-- What follows a patch in a daemon of more than one repository. -/
  | resolveForRepo (repoPrefix : String)

/-- Whether the disk changes. -/
def WatchAction.isChange : WatchAction → Bool
  | writeFile _ _ _ | removeFile _ => true
  | _ => false

namespace Watching

variable (ord : MapOrder) (w : Watching)

/-- The daemon after its graph has changed. -/
def setGraph (g : Graph) : Watching :=
  { w with
    multiIndexer :=
      { w.multiIndexer with
        store := { w.multiIndexer.store with graph := g } } }

/-- What the indexer of a repository does to a file. -/
def patchFile (idx : Indexer) (path : String) (kind : ChangeKind) (resolve : Bool) :
    Indexer × Store :=
  if resolve = true then idx.patchGraph ord w.disk w.multiIndexer.store path kind
  else idx.patchGraphNoResolve ord w.disk w.multiIndexer.store path kind

/-- The daemon after a file was patched. -/
def patched (repoPrefix : String) (idx : Indexer) (path : String) (kind : ChangeKind)
    (resolve : Bool) : Watching :=
  let r := w.patchFile ord idx path kind resolve
  { w with
    multiIndexer :=
      { w.multiIndexer with
        store := r.2
        indexers := w.multiIndexer.indexers.insert repoPrefix r.1 } }

/-- **One step.** Every write gives a path a new modification time, a watcher patches the files
below its root, and it takes a file for gone only if the file has changed. -/
def step : WatchAction → Option Watching
  | .writeFile path h f =>
    if (path, f.modTime) ∈ w.stamps then none
    else
      some
        { w with
          disk := w.disk.write path h f
          stamps := (path, f.modTime) :: w.stamps
          changed := path :: w.changed }
  | .removeFile path =>
    if path ∈ w.disk.files then
      some
        { w with
          disk := w.disk.remove path
          changed := path :: w.changed }
    else none
  | .patch repoPrefix path _ kind resolve =>
    match w.multiIndexer.indexers.lookup repoPrefix with
    | none => none
    | some idx =>
      if GoPath.Under idx.rootPath path ∧ (kind.isRemoval = true → path ∈ w.changed) then
        some (w.patched ord repoPrefix idx path kind resolve)
      else none
  | .resolveAll => some (w.setGraph (Indexer.resolveAll ord w.multiIndexer.store).graph)
  | .resolveForRepo repoPrefix =>
    some (w.setGraph (w.multiIndexer.store.graph.resolveForRepo ord repoPrefix).1)

/-- The steps, as a relation. -/
def Step (w : Watching) (a : WatchAction) (w' : Watching) : Prop := w.step ord a = some w'

end Watching

/-- A daemon without a snapshot, before it tracks the repositories of its configuration. -/
def MultiIndexer.fresh (registry : Registry) (configRepos : List RepoEntry) : MultiIndexer where
  registry := registry
  configRepos := configRepos

/-- A daemon that has tracked its repositories. -/
def Watching.start (env : RepoEnv) (sord : SnapshotOrder) (disk : Disk) (mi : MultiIndexer) :
    Watching where
  multiIndexer := warmRepos env sord disk ∅ mi
  disk := disk
  stamps := disk.files.pairs.map fun p => (p.1, p.2.modTime)

/-- **A daemon that starts** on the snapshot of another one. -/
def Watching.restart {β : Type} (env : RepoEnv) (sord : SnapshotOrder) (c : Codec β)
    (ord : MapOrder) (w : Watching) (snapContracts : List SnapshotContract) (version : String)
    (disk : Disk) (registry : Registry) (config : IndexConfig) (configRepos : List RepoEntry) :
    DaemonState :=
  warmupDaemonState env sord disk (buildDaemonState c
    (.stream (saveSnapshot c ord w.multiIndexer.store.graph
      (collectSnapshotRepos env w.multiIndexer) snapContracts version)) registry config configRepos)

/-! ### What is asked of it -/

section Property

variable (env : RepoEnv) (disk : Disk) (C : String → Prop) (mi : MultiIndexer)

/-- A file of a repository, or a path below its root at which there is no file. -/
def MultiIndexer.Follows (entry : RepoEntry) (path : String) : Prop :=
  path ∈ mi.filesOf env disk entry ∨
    ((GoPath.IsClean path ∧ GoPath.isAbs path = true) ∧
      GoPath.Under (rootOf disk entry) path ∧ disk.stat path = none)

/-- **The graph follows the disk**: it has of every file what its content gives now, and nothing
of the paths at which there is none. -/
def Recovers (g : Graph) : Prop :=
  ∀ entry ∈ mi.configRepos, ∀ path, mi.Follows env disk entry path →
    (mi.entryIndexer env disk entry).InSync disk C (rootOf disk entry) path g

/-- **A restart on a graph does away with what is not so any more** under the path of a file,
if there is anything. If the table of the snapshot has files at all, the files that are there are
read unless they have not changed, and those that are not are evicted if the table has them. With
an empty table the repository is indexed over what the graph has. -/
def Covered (g : Graph) (prior : GoMap String ℤ) (entry : RepoEntry) (path : String) : Prop :=
  if path ∈ mi.filesOf env disk entry then
    prior.keys ≠ [] ∨
      if path ∈ (mi.entryIndexer env disk entry).indexFiles disk (rootOf disk entry) then
        (mi.entryIndexer env disk entry).NoStray disk C (rootOf disk entry) path g
      else (mi.entryIndexer env disk entry).InSync disk C (rootOf disk entry) path g
  else
    walkRel (rootOf disk entry) path ∈ prior.keys ∨
      ∀ id, ¬C id → g.bareIn (mi.graphPath env disk entry path) id = none

end Property

/-! ### The indexers of tracked repositories -/

namespace Indexer

variable {idx idx' : Indexer}

/-- **A full index** records the modification times of the files it takes. -/
theorem fileMtimes_indexCtx (idx : Indexer) (ce : ContractExtractors) (ords : Orders)
    (mods : GoMap String String) (disk : Disk) (s : Store) (root : String) :
    Alike (idx.atRoot disk root) (idx.IndexCtx ce ords mods disk s root).1 ∧
      (idx.IndexCtx ce ords mods disk s root).1.fileMtimes =
        mtimesOf disk (GoPath.abs disk.cwd root)
          (idx.indexFiles disk (GoPath.abs disk.cwd root)) :=
  ⟨⟨rfl, rfl, rfl, rfl⟩, rfl⟩

end Indexer

/-- The metadata of a repository that was tracked. -/
def MultiIndexer.metadataOf (mi : MultiIndexer) (env : RepoEnv) (disk : Disk) (entry : RepoEntry) :
    RepoMetadata where
  repoPrefix := entryPrefix env disk entry
  rootPath := rootOf disk entry
  fileMtimes := mtimesOf disk (rootOf disk entry)
    ((mi.entryIndexer env disk entry).indexFiles disk (rootOf disk entry))

/-- The indexer of a repository that was tracked, but for what it has recorded. -/
def MultiIndexer.trackedIndexer (mi : MultiIndexer) (env : RepoEnv) (disk : Disk)
    (entry : RepoEntry) : Indexer :=
  (mi.entryIndexer env disk entry).atRoot disk (rootOf disk entry)

/-- Every indexer of the map is, but for what it has recorded, an indexer of the other one. -/
def SameIndexers (indexers indexers' : GoMap String Indexer) : Prop :=
  ∀ p idx', indexers'.lookup p = some idx' → ∃ idx, indexers.lookup p = some idx ∧ Alike idx idx'

theorem SameIndexers.refl (indexers : GoMap String Indexer) : SameIndexers indexers indexers :=
  fun _ idx h => ⟨idx, h, Alike.refl idx⟩

theorem SameIndexers.trans {a b c : GoMap String Indexer} (h : SameIndexers a b)
    (h' : SameIndexers b c) : SameIndexers a c := by
  intro p idx hidx
  obtain ⟨idx', hidx', halike'⟩ := h' p idx hidx
  obtain ⟨idx'', hidx'', halike⟩ := h p idx' hidx'
  exact ⟨idx'', hidx'', halike.trans halike'⟩

/-- An indexer that has recorded something is put back. -/
theorem SameIndexers.insert {indexers : GoMap String Indexer} {p : String} {idx idx' : Indexer}
    (h : indexers.lookup p = some idx) (halike : Alike idx idx') :
    SameIndexers indexers (indexers.insert p idx') := by
  intro q idx'' hq
  rw [GoMap.lookup_insert] at hq
  by_cases hqp : q = p
  · rw [if_pos hqp] at hq
    obtain rfl := Option.some.inj hq
    exact ⟨idx, hqp ▸ h, halike⟩
  · rw [if_neg hqp] at hq
    exact ⟨idx'', hq, Alike.refl idx''⟩

theorem sameIndexers_keepInlined (indexers : GoMap String Indexer) (c : Contract) :
    SameIndexers indexers (keepInlined indexers c) := by
  unfold keepInlined
  split
  · exact SameIndexers.refl indexers
  · rename_i idx hidx
    split
    · exact SameIndexers.refl indexers
    · split
      · exact SameIndexers.refl indexers
      · exact SameIndexers.insert hidx ⟨rfl, rfl, rfl, rfl⟩

/-- **Linking contracts** leaves the indexers as they are, but for their contracts. -/
theorem sameIndexers_reconcileContractEdges (mi : MultiIndexer) (env : RepoEnv) (disk : Disk) :
    SameIndexers mi.indexers (mi.reconcileContractEdges env disk).indexers :=
  List.foldl_invariant (P := SameIndexers mi.indexers)
    (fun indexers c _ h => h.trans (sameIndexers_keepInlined indexers c))
    (SameIndexers.refl mi.indexers)

section Tracking

variable {env : RepoEnv} {sord : SnapshotOrder} {disk : Disk} {C : String → Prop}
  {mi : MultiIndexer} {entry : RepoEntry}

/-- **Tracking a repository** that is listed with another one registers it. -/
theorem registered_trackRepo (h : WarmStart env disk C mi) (hentry : entry ∈ mi.configRepos)
    (hnew : mi.repos.lookup (entryPrefix env disk entry) = none) :
    (mi.TrackRepo env disk entry).1.registry = mi.registry ∧
      (mi.TrackRepo env disk entry).1.configRepos = mi.configRepos ∧
      (mi.TrackRepo env disk entry).1.repos =
        mi.repos.insert (entryPrefix env disk entry) (mi.metadataOf env disk entry) ∧
      SameIndexers
        (mi.indexers.insert (entryPrefix env disk entry) (mi.trackedIndexer env disk entry))
        (mi.TrackRepo env disk entry).1.indexers := by
  have hwill : mi.willBeMultiRepo = true := decide_eq_true (Or.inr h.multi)
  have hnew' : ((mi.repos.lookup (prefixOf env entry (GoPath.abs disk.cwd entry.path))).isSome =
      true) = False := by
    rw [show mi.repos.lookup (prefixOf env entry (GoPath.abs disk.cwd entry.path)) = none from hnew]
    simp
  have habs : GoPath.abs disk.cwd (rootOf disk entry) = rootOf disk entry := GoPath.abs_abs h.cwd _
  unfold TrackRepo
  simp only [rootError_eq_none (h.dirs entry hentry), hnew', if_false, hwill]
  obtain ⟨halike, hmtimes⟩ := fileMtimes_indexCtx (mi.entryIndexer env disk entry) env.extractors
    env.ords ∅ disk mi.store (rootOf disk entry)
  rw [habs] at hmtimes
  refine ⟨rfl, addRepo_of_mem h.cwd hentry, ?_, ?_⟩
  · have hmeta : mi.metadataOf env disk entry =
        ⟨entryPrefix env disk entry, rootOf disk entry,
          ((mi.entryIndexer env disk entry).IndexCtx env.extractors env.ords ∅ disk mi.store
            (rootOf disk entry)).1.fileMtimes⟩ := by
      rw [hmtimes]
      rfl
    rw [hmeta]
    rfl
  · refine SameIndexers.trans ?_ (sameIndexers_reconcileContractEdges _ env disk)
    intro p idx' hidx
    change (mi.indexers.insert (entryPrefix env disk entry) _).lookup p = some idx' at hidx
    rw [GoMap.lookup_insert] at hidx
    by_cases hp : p = entryPrefix env disk entry
    · rw [if_pos hp] at hidx
      obtain rfl := Option.some.inj hidx
      refine ⟨mi.trackedIndexer env disk entry, ?_, halike⟩
      rw [GoMap.lookup_insert, if_pos hp]
    · rw [if_neg hp] at hidx
      refine ⟨idx', ?_, Alike.refl idx'⟩
      rw [GoMap.lookup_insert, if_neg hp, hidx]

/-- Without a snapshot a repository is tracked. -/
theorem warmRepo_empty (env : RepoEnv) (sord : SnapshotOrder) (disk : Disk) (mi : MultiIndexer)
    (entry : RepoEntry) : warmRepo env sord disk ∅ mi entry = (mi.TrackRepo env disk entry).1 := by
  have hpairs : sord.order ∅ (GoMap.pairs (∅ : GoMap String SnapshotRepo)) = [] :=
    List.perm_nil.mp (sord.perm _ _)
  have hnone : priorMtimesForEntry sord disk.cwd ∅ entry = none := by
    unfold priorMtimesForEntry
    rw [hpairs]
    change (if _ then Option.map _ none else none) = none
    split <;> rfl
  unfold warmRepo
  rw [hnone]

theorem WarmStart.of_eq {mi' : MultiIndexer} (h : WarmStart env disk C mi)
    (hreg : mi'.registry = mi.registry) (hconfig : mi'.configRepos = mi.configRepos) :
    WarmStart env disk C mi' where
  cwd := h.cwd
  lawful := hreg ▸ h.lawful
  contracts := h.contracts
  multi := hconfig ▸ h.multi
  prefixes := hconfig ▸ h.prefixes
  apart := hconfig ▸ h.apart
  distinct := hconfig ▸ h.distinct
  dirs := hconfig ▸ h.dirs

theorem MultiIndexer.entryIndexer_of_eq {mi' : MultiIndexer} (hreg : mi'.registry = mi.registry)
    (hconfig : mi'.configRepos = mi.configRepos) (entry : RepoEntry) :
    mi'.entryIndexer env disk entry = mi.entryIndexer env disk entry := by
  unfold MultiIndexer.entryIndexer newIndexer
  rw [hreg, hconfig]

/-- **The repositories of a list are tracked**: they have their metadata, and there is no indexer
of another one. -/
structure TracksAll (env : RepoEnv) (disk : Disk) (mi : MultiIndexer) (l : List RepoEntry)
    (mi' : MultiIndexer) : Prop where
  registry : mi'.registry = mi.registry
  configRepos : mi'.configRepos = mi.configRepos
  metadata : ∀ entry ∈ l,
    mi'.repos.lookup (entryPrefix env disk entry) = some (mi.metadataOf env disk entry)
  only : ∀ p info, mi'.repos.lookup p = some info → ∃ entry ∈ l, p = entryPrefix env disk entry
  indexers : ∀ p idx, mi'.indexers.lookup p = some idx →
    ∃ entry ∈ l, p = entryPrefix env disk entry ∧ Alike (mi.trackedIndexer env disk entry) idx

/-- **A daemon without a snapshot** tracks its repositories. -/
theorem tracksAll_warmRepos (h : WarmStart env disk C mi) (hrepos : mi.repos = ∅)
    (hindexers : mi.indexers = ∅) {l : List RepoEntry} (hl : ∀ entry ∈ l, entry ∈ mi.configRepos)
    (hnodup : (l.map (entryPrefix env disk)).Nodup) :
    TracksAll env disk mi l (l.foldl (warmRepo env sord disk ∅) mi) := by
  induction l using List.reverseRecOn with
  | nil =>
    refine ⟨rfl, rfl, fun _ h => absurd h List.not_mem_nil, fun p info hp => ?_, fun p idx hp => ?_⟩
    · change mi.repos.lookup p = some info at hp
      rw [hrepos] at hp
      cases hp
    · change mi.indexers.lookup p = some idx at hp
      rw [hindexers] at hp
      cases hp
  | append_singleton l entry ih =>
    rw [List.map_append, List.map_singleton, List.nodup_append] at hnodup
    obtain ⟨hnodup, -, hdisjoint⟩ := hnodup
    have hapart : ∀ e ∈ l, entryPrefix env disk e ≠ entryPrefix env disk entry := fun e he =>
      hdisjoint _ (List.mem_map_of_mem he) _ (List.mem_singleton_self _)
    have hbefore := ih (fun e he => hl e (List.mem_append_left _ he)) hnodup
    rw [List.foldl_append, List.foldl_cons, List.foldl_nil, warmRepo_empty]
    generalize l.foldl (warmRepo env sord disk ∅) mi = mi' at hbefore
    have hentry : entry ∈ mi.configRepos :=
      hl entry (List.mem_append_right _ (List.mem_singleton_self entry))
    -- nothing is registered under the prefix yet: the entries before have other ones
    have hnew : mi'.repos.lookup (entryPrefix env disk entry) = none := by
      refine Option.eq_none_iff_forall_ne_some.mpr fun info hinfo => ?_
      obtain ⟨e, he, hprefix⟩ := hbefore.only _ info hinfo
      exact hapart e he hprefix.symm
    have hsame : ∀ e, mi'.entryIndexer env disk e = mi.entryIndexer env disk e :=
      entryIndexer_of_eq hbefore.registry hbefore.configRepos
    have hmeta : mi'.metadataOf env disk entry = mi.metadataOf env disk entry := by
      unfold MultiIndexer.metadataOf
      rw [hsame]
    have hidx : mi'.trackedIndexer env disk entry = mi.trackedIndexer env disk entry := by
      unfold MultiIndexer.trackedIndexer
      rw [hsame]
    obtain ⟨hreg, hconfig, hrepos', hindexers'⟩ := registered_trackRepo
      (h.of_eq hbefore.registry hbefore.configRepos) (hbefore.configRepos ▸ hentry) hnew
    rw [hmeta] at hrepos'
    rw [hidx] at hindexers'
    refine ⟨hreg.trans hbefore.registry, hconfig.trans hbefore.configRepos, fun e he => ?_,
      fun p info hp => ?_, fun p idx hp => ?_⟩
    · rw [hrepos', GoMap.lookup_insert]
      rcases List.mem_append.mp he with he | he
      · rw [if_neg (hapart e he)]
        exact hbefore.metadata e he
      · rw [List.mem_singleton.mp he, if_pos rfl]
    · rw [hrepos', GoMap.lookup_insert] at hp
      by_cases hpe : p = entryPrefix env disk entry
      · exact ⟨entry, List.mem_append_right _ (List.mem_singleton_self entry), hpe⟩
      · rw [if_neg hpe] at hp
        obtain ⟨e, he, hpe⟩ := hbefore.only p info hp
        exact ⟨e, List.mem_append_left _ he, hpe⟩
    · obtain ⟨idx', hidx', halike⟩ := hindexers' p idx hp
      rw [GoMap.lookup_insert] at hidx'
      by_cases hpe : p = entryPrefix env disk entry
      · rw [if_pos hpe] at hidx'
        obtain rfl := Option.some.inj hidx'
        exact ⟨entry, List.mem_append_right _ (List.mem_singleton_self entry), hpe, halike⟩
      · rw [if_neg hpe] at hidx'
        obtain ⟨e, he, hpe, halike'⟩ := hbefore.indexers p idx' hidx'
        exact ⟨e, List.mem_append_left _ he, hpe, halike'.trans halike⟩

end Tracking

/-! ### Which file a node is of -/

section Files

variable {env : RepoEnv} {disk : Disk} {C : String → Prop} {mi : MultiIndexer}
  {entry entry' : RepoEntry} {path path' : String}

/-- **Every node was given by a file**, at some time, off the IDs in `C`. -/
def Genuine (env : RepoEnv) (disk : Disk) (C : String → Prop) (mi : MultiIndexer) (g : Graph) :
    Prop :=
  ∀ id n, ¬C id → g.bareAt id = some n → ∃ entry ∈ mi.configRepos, ∃ path d m,
    Below disk entry path ∧ (mi.entryIndexer env disk entry).extractedAt d path
      (walkRel (rootOf disk entry) path) id = some m ∧ n = m.bare

/-- What is in the graph under the path of a file was given by that file. -/
theorem Genuine.of_bareIn {g : Graph} (hg : Genuine env disk C mi g) (h : WarmStart env disk C mi)
    (hentry : entry ∈ mi.configRepos) (hpath : Below disk entry path) {id : String} {n : Node}
    (hid : ¬C id) (hn : g.bareIn (mi.graphPath env disk entry path) id = some n) :
    ∃ d m, (mi.entryIndexer env disk entry).extractedAt d path
      (walkRel (rootOf disk entry) path) id = some m ∧ n = m.bare := by
  obtain ⟨hat, hfile⟩ := bareIn_eq_some.mp hn
  obtain ⟨entry', hentry', path', d, m, hpath', hm, rfl⟩ := hg id n hid hat
  have hf : m.filePath = mi.graphPath env disk entry' path' := filePath_of_extractedAt h.lawful hm
  obtain ⟨rfl, rfl⟩ := h.below_inj hentry' hentry hpath' hpath (hf.symm.trans hfile)
  exact ⟨d, m, hm, rfl⟩

end Files

/-! ### What a patch does to the nodes -/

namespace Watching

variable {ord : MapOrder} {w : Watching} {idx : Indexer} {path : String}

/-- The node a patch of a file stores under an ID. -/
def patchGives (w : Watching) (idx : Indexer) (path : String) (kind : ChangeKind) (id : String) :
    Option Node :=
  if kind.isRemoval = true then none
  else idx.extractedAt w.disk path (walkRel idx.rootPath path) id

/-- **A patch** takes the nodes under the path of the file, and stores what the file gives unless
it is taken for gone. -/
theorem nodeAt_patchFile (hg : Weak w.multiIndexer.store.graph)
    (h : GoPath.IsClean path ∧ GoPath.isAbs path = true) (hunder : GoPath.Under idx.rootPath path)
    (kind : ChangeKind) (resolve : Bool) :
    Alike idx (w.patchFile ord idx path kind resolve).1 ∧
      Weak (w.patchFile ord idx path kind resolve).2.graph ∧
      ∀ id, (w.patchFile ord idx path kind resolve).2.graph.nodeAt id =
        (w.patchGives idx path kind id).or ((w.multiIndexer.store.graph.nodeAt id).filter
          fun n => n.filePath ≠ idx.walkPath idx.rootPath path) := by
  have hrel : idx.relPathOf path path = walkRel idx.rootPath path := relPathOf_of_under hunder path
  have hevict : ∀ {s : Store}, Weak s.graph → Weak (idx.evictFile ord s path).graph ∧
      ∀ id, (idx.evictFile ord s path).graph.nodeAt id = (s.graph.nodeAt id).filter
        fun n => n.filePath ≠ idx.walkPath idx.rootPath path := by
    intro s hs
    unfold Indexer.evictFile
    rw [hrel]
    exact ⟨weak_evictPath hs ord _, fun id => hs.nodes.nodeAt_evictFile ord _ id⟩
  have hindex : ∀ {s : Store} (resolve : Bool), Weak s.graph →
      Weak (idx.indexFile ord w.disk s path resolve).2.1.graph ∧
      ∀ id, (idx.indexFile ord w.disk s path resolve).2.1.graph.nodeAt id =
        (idx.extractedAt w.disk path (walkRel idx.rootPath path) id).or
          ((s.graph.nodeAt id).filter fun n => n.filePath ≠ idx.walkPath idx.rootPath path) := by
    intro s resolve hs
    refine ⟨weak_indexFile hs ord w.disk path resolve, fun id => ?_⟩
    rw [nodeAt_indexFile hs ord w.disk path resolve id, w.disk.abs_eq h.1 h.2, hrel]
    rfl
  have hremove : ∀ {s : Store}, Weak s.graph → ∀ id,
      ((idx.evictFile ord s path).graph.nodeAt id).filter
        (fun n => n.filePath ≠ idx.walkPath idx.rootPath path) =
      (s.graph.nodeAt id).filter fun n => n.filePath ≠ idx.walkPath idx.rootPath path := by
    intro s hs id
    rw [(hevict hs).2 id, Option.filter_filter]
    simp only [Bool.and_self]
  -- by the kind of the change; indexing evicts the file again, which changes nothing
  cases resolve with
  | true =>
    cases kind with
    | created => exact ⟨alike_indexFile ord w.disk _ path true, hindex true hg⟩
    | modified =>
      refine ⟨alike_indexFile ord w.disk _ path true, (hindex true (hevict hg).1).1, fun id => ?_⟩
      refine ((hindex true (hevict hg).1).2 id).trans ?_
      rw [hremove hg id]
      rfl
    | deleted => exact ⟨Alike.refl idx, hevict hg⟩
    | renamed => exact ⟨Alike.refl idx, hevict hg⟩
  | false =>
    cases kind with
    | created => exact ⟨alike_indexFile ord w.disk _ path false, hindex false hg⟩
    | modified => exact ⟨alike_indexFile ord w.disk _ path false, hindex false hg⟩
    | deleted => exact ⟨Alike.refl idx, hevict hg⟩
    | renamed => exact ⟨Alike.refl idx, hevict hg⟩

section Since

variable {env : RepoEnv} {sord : SnapshotOrder} {disk : Disk} {C : String → Prop}
  {mi : MultiIndexer}

/-- **What holds since the repositories were tracked**: their metadata is as it was written then,
every node was given by a file, a file that has not changed is in the graph, and one that has
changed has another modification time, or is gone. -/
structure Since (env : RepoEnv) (disk : Disk) (C : String → Prop) (mi : MultiIndexer)
    (w : Watching) : Prop where
  cwd : w.disk.cwd = disk.cwd
  dirs : w.disk.dirs = disk.dirs
  repos : ∀ entry ∈ mi.configRepos, w.multiIndexer.repos.lookup (entryPrefix env disk entry) =
    some (mi.metadataOf env disk entry)
  only : ∀ p info, w.multiIndexer.repos.lookup p = some info →
    ∃ entry ∈ mi.configRepos, p = entryPrefix env disk entry
  indexers : ∀ p idx, w.multiIndexer.indexers.lookup p = some idx →
    ∃ entry ∈ mi.configRepos, p = entryPrefix env disk entry ∧
      Alike (mi.trackedIndexer env disk entry) idx
  weak : Weak w.multiIndexer.store.graph
  genuine : Genuine env disk C mi w.multiIndexer.store.graph
  same : ∀ path ∉ w.changed, w.disk.files.lookup path = disk.files.lookup path
  stamps : ∀ path info, disk.files.lookup path = some info → (path, info.modTime) ∈ w.stamps
  restamped : ∀ path ∈ w.changed, ∀ info info', disk.files.lookup path = some info →
    w.disk.files.lookup path = some info' → info'.modTime ≠ info.modTime
  synced : ∀ entry ∈ mi.configRepos,
    ∀ path ∈ (mi.entryIndexer env disk entry).indexFiles disk (rootOf disk entry),
      path ∉ w.changed →
        (mi.entryIndexer env disk entry).InSync disk C (rootOf disk entry) path
          w.multiIndexer.store.graph

/-- Without a snapshot a repository has no modification times. -/
theorem priorOf_empty (entry : RepoEntry) : priorOf sord disk ∅ entry = ∅ := by
  have hpairs : sord.order ∅ (GoMap.pairs (∅ : GoMap String SnapshotRepo)) = [] :=
    List.perm_nil.mp (sord.perm _ _)
  unfold priorOf priorMtimesForEntry
  rw [hpairs]
  change (if _ then Option.map _ none else none).getD ∅ = ∅
  split <;> rfl

/-- **When the repositories have been tracked**, it holds. -/
theorem since_start (h : WarmStart env disk C mi) (hgraph : mi.store.graph = Graph.new)
    (hrepos : mi.repos = ∅) (hindexers : mi.indexers = ∅) :
    Since env disk C mi (start env sord disk mi) := by
  have htracks : TracksAll env disk mi mi.configRepos (warmRepos env sord disk ∅ mi) :=
    tracksAll_warmRepos h hrepos hindexers (fun _ he => he) h.distinct
  have hweak : Weak mi.store.graph := hgraph ▸ Graph.Inv.new.weak
  have hw := h.warmed sord ∅ hweak fun entry _ => by
    rw [hrepos]
    rfl
  have hfiles : ∀ entry, warmFiles mi env disk entry (priorOf sord disk ∅ entry) =
      (mi.entryIndexer env disk entry).indexFiles disk (rootOf disk entry) := fun entry => by
    rw [priorOf_empty]
    exact if_pos rfl
  -- the graph is empty: every node after the start has been extracted by it
  have hnone : ∀ id, mi.store.graph.bareAt id = none := fun id => by
    rw [hgraph, bareAt, nodeAt_new]
    rfl
  exact
    { cwd := rfl
      dirs := rfl
      repos := htracks.metadata
      only := htracks.only
      indexers := htracks.indexers
      weak := hw.weak
      genuine := fun id n hid hn => by
        by_cases hnew : ∃ m, ∃ entry ∈ mi.configRepos,
            WarmNew mi env disk entry (priorOf sord disk ∅ entry) id m
        · obtain ⟨m, entry, hentry, hm⟩ := hnew
          have hat := hw.added hid ⟨entry, hentry, hm⟩
          obtain ⟨path, hpath, hx⟩ := hm
          refine ⟨entry, hentry, path, disk, m, ?_, hx, ?_⟩
          · exact below_of_mem_filesOf (mem_filesOf_of_mem_warmFiles hpath)
          · exact Option.some.inj (hn.symm.trans hat)
        · have hat := hw.kept hid fun m hm => hnew ⟨m, hm⟩
          rw [hnone] at hat
          cases hn.symm.trans hat
      same := fun _ _ => rfl
      stamps := fun path info hinfo =>
        List.mem_map.mpr ⟨(path, info), GoMap.mem_pairs.mpr hinfo, rfl⟩
      restamped := fun _ hchanged => absurd hchanged List.not_mem_nil
      synced := fun entry hentry path hpath _ => by
        refine h.inSync_of_read hw hentry (mem_walkFiles_of_mem_indexFiles hpath) ?_ (Or.inr ?_)
        · rw [hfiles]
          exact hpath
        · intro id n _ hn
          have hat := (bareIn_eq_some.mp hn).1
          rw [hnone] at hat
          cases hat }

/-- A graph with the same nodes. -/
theorem Since.setGraph {w : Watching} (h : Since env disk C mi w) {g : Graph}
    (hg : Quiet w.multiIndexer.store.graph g) : Since env disk C mi (w.setGraph g) := by
  have hat : ∀ id, g.bareAt id = w.multiIndexer.store.graph.bareAt id := fun id =>
    bareAt_congr (hg.nodes.nodeAt id)
  exact
    { h with
      weak := hg.weak h.weak
      genuine := fun id n hid hn => h.genuine id n hid ((hat id).symm.trans hn)
      synced := fun entry hentry path hpath hchanged id hid => by
        have hsync := h.synced entry hentry path hpath hchanged id hid
        rw [bareIn] at hsync ⊢
        change Option.filter _ (g.bareAt id) = _
        rw [hat, hsync] }

/-- A file is written. -/
theorem Since.writeFile {w : Watching} (h : Since env disk C mi w) {path : String}
    (hp : GoPath.IsClean path ∧ GoPath.isAbs path = true) {f : DiskFile}
    (hnew : (path, f.modTime) ∉ w.stamps) :
    Since env disk C mi
      { w with
        disk := w.disk.write path hp f
        stamps := (path, f.modTime) :: w.stamps
        changed := path :: w.changed } where
  __ := h
  same := fun p hp' => by
    obtain ⟨hne, hold⟩ := not_or.mp (mt List.mem_cons.mpr hp')
    change (w.disk.files.insert path f).lookup p = _
    rw [GoMap.lookup_insert, if_neg hne, h.same p hold]
  stamps := fun p info hinfo => List.mem_cons_of_mem _ (h.stamps p info hinfo)
  restamped := fun p hp' info info' hinfo hinfo' => by
    change (w.disk.files.insert path f).lookup p = some info' at hinfo'
    rw [GoMap.lookup_insert] at hinfo'
    by_cases hpp : p = path
    · rw [if_pos hpp] at hinfo'
      obtain rfl := Option.some.inj hinfo'
      intro hc
      refine hnew ?_
      rw [hc, ← hpp]
      exact h.stamps p info hinfo
    · rw [if_neg hpp] at hinfo'
      exact h.restamped p ((List.mem_cons.mp hp').resolve_left hpp) info info' hinfo hinfo'
  synced := fun entry hentry p hp' hchanged =>
    h.synced entry hentry p hp' fun hc => hchanged (List.mem_cons_of_mem path hc)

/-- A file is removed. -/
theorem Since.removeFile {w : Watching} (h : Since env disk C mi w) (path : String) :
    Since env disk C mi
      { w with
        disk := w.disk.remove path
        changed := path :: w.changed } where
  __ := h
  same := fun p hp' => by
    obtain ⟨hne, hold⟩ := not_or.mp (mt List.mem_cons.mpr hp')
    change (w.disk.files.erase path).lookup p = _
    rw [GoMap.lookup_erase, if_neg hne, h.same p hold]
  restamped := fun p hp' info info' hinfo hinfo' => by
    change (w.disk.files.erase path).lookup p = some info' at hinfo'
    rw [GoMap.lookup_erase] at hinfo'
    by_cases hpp : p = path
    · rw [if_pos hpp] at hinfo'
      cases hinfo'
    · rw [if_neg hpp] at hinfo'
      exact h.restamped p ((List.mem_cons.mp hp').resolve_left hpp) info info' hinfo hinfo'
  synced := fun entry hentry p hp' hchanged =>
    h.synced entry hentry p hp' fun hc => hchanged (List.mem_cons_of_mem path hc)

/-- What a file gives, if it has not changed. -/
theorem extractedAt_congr {d d' : Disk} {idx : Indexer} {path : String}
    (hp : GoPath.IsClean path ∧ GoPath.isAbs path = true)
    (h : d'.files.lookup path = d.files.lookup path) (rel id : String) :
    idx.extractedAt d' path rel id = idx.extractedAt d path rel id := by
  have hstat : d'.stat path = d.stat path := by
    rw [d'.stat_eq hp.1 hp.2, d.stat_eq hp.1 hp.2, h]
  unfold Indexer.extractedAt extractFile
  rw [d.readFile_congr hstat]

/-- **A file is patched.** -/
theorem Since.patched {w : Watching} (h : Since env disk C mi w) (hwarm : WarmStart env disk C mi)
    {repoPrefix path : String} (hp : GoPath.IsClean path ∧ GoPath.isAbs path = true)
    {idx : Indexer} (hidx : w.multiIndexer.indexers.lookup repoPrefix = some idx)
    (hunder : GoPath.Under idx.rootPath path) {kind : ChangeKind}
    (hkind : kind.isRemoval = true → path ∈ w.changed) (ord : MapOrder) (resolve : Bool) :
    Since env disk C mi (w.patched ord repoPrefix idx path kind resolve) := by
  obtain ⟨entry, hentry, -, halike⟩ := h.indexers repoPrefix idx hidx
  obtain ⟨halike', hweak, hat⟩ := @nodeAt_patchFile ord w idx path h.weak hp hunder kind resolve
  have habs : GoPath.abs disk.cwd (rootOf disk entry) = rootOf disk entry :=
    GoPath.abs_abs hwarm.cwd _
  have hroot : idx.rootPath = rootOf disk entry := halike.rootPath.trans habs
  have hbelow : Below disk entry path := ⟨hp, hroot ▸ hunder⟩
  have hx : ∀ id, w.patchGives idx path kind id = if kind.isRemoval = true then none
      else (mi.entryIndexer env disk entry).extractedAt w.disk path
        (walkRel (rootOf disk entry) path) id := fun id => by
    rw [patchGives, hroot, halike.extractedAt]
    rfl
  have hwalk : idx.walkPath idx.rootPath path = mi.graphPath env disk entry path := by
    rw [walkPath, hroot, halike.prefixPath]
    rfl
  have hfile : ∀ id m, w.patchGives idx path kind id = some m →
      (mi.entryIndexer env disk entry).extractedAt w.disk path
        (walkRel (rootOf disk entry) path) id = some m := fun id m hm => by
    rw [hx] at hm
    split at hm
    · cases hm
    · exact hm
  -- the patch replaces the nodes under the path of the file, and no others
  have hbare : ∀ id, (w.patchFile ord idx path kind resolve).2.graph.bareAt id =
      ((w.patchGives idx path kind id).map Node.bare).or
        ((w.multiIndexer.store.graph.bareAt id).filter
          fun n => n.filePath ≠ mi.graphPath env disk entry path) := fun id => by
    rw [bareAt, hat, hwalk, bareAt, Option.filter_map]
    cases w.patchGives idx path kind id <;> rfl
  refine
    { h with
      indexers := fun p idx' hidx' => ?_
      weak := hweak
      genuine := fun id n hid hn => ?_
      synced := fun entry' hentry' path' hpath' hchanged id hid => ?_ }
  · obtain ⟨idx'', hidx'', hsame⟩ := SameIndexers.insert hidx halike' p idx' hidx'
    obtain ⟨e, he, hprefix, ha⟩ := h.indexers p idx'' hidx''
    exact ⟨e, he, hprefix, ha.trans hsame⟩
  · change (w.patchFile ord idx path kind resolve).2.graph.bareAt id = some n at hn
    rw [hbare] at hn
    rcases Option.or_eq_some_iff.mp hn with hn | ⟨-, hn⟩
    · obtain ⟨m, hm, rfl⟩ := Option.map_eq_some_iff.mp hn
      exact ⟨entry, hentry, path, w.disk, m, hbelow, hfile id m hm, rfl⟩
    · exact h.genuine id n hid (Option.filter_eq_some_iff.mp hn).1
  · have hsync := h.synced entry' hentry' path' hpath' hchanged id hid
    have hbelow' : Below disk entry' path' :=
      below_of_mem_filesOf (mem_walkFiles_of_mem_indexFiles hpath')
    change Option.filter _ ((w.patchFile ord idx path kind resolve).2.graph.bareAt id) = _
    rw [hbare]
    by_cases hsame : entry' = entry ∧ path' = path
    · -- the file itself, which is as it was
      obtain ⟨rfl, rfl⟩ := hsame
      have hgives : w.patchGives idx path' kind id =
          (mi.entryIndexer env disk entry').extractedAt disk path'
            (walkRel (rootOf disk entry') path') id := by
        rw [hx, if_neg fun hc => hchanged (hkind hc)]
        exact extractedAt_congr hp (h.same path' hchanged) _ id
      rw [hgives]
      cases hm : (mi.entryIndexer env disk entry').extractedAt disk path'
          (walkRel (rootOf disk entry') path') id with
      | some m =>
        have hf : m.filePath = mi.graphPath env disk entry' path' :=
          filePath_of_extractedAt hwarm.lawful hm
        exact Option.filter_eq_some_iff.mpr ⟨rfl, decide_eq_true hf⟩
      | none =>
        rw [Option.map_none, Option.none_or, Option.filter_filter]
        refine Option.eq_none_iff_forall_ne_some.mpr fun n hn => ?_
        have hn' := (Option.filter_eq_some_iff.mp hn).2
        rw [Bool.and_eq_true, decide_eq_true_eq, decide_eq_true_eq] at hn'
        exact hn'.1 hn'.2
    · -- another file, none of whose nodes the patch gives
      have hne : mi.graphPath env disk entry' path' ≠ mi.graphPath env disk entry path := fun hc =>
        hsame (hwarm.below_inj hentry' hentry hbelow' hbelow hc)
      cases hm : w.patchGives idx path kind id with
      | some m =>
        have hmx := hfile id m hm
        have hf : m.filePath = mi.graphPath env disk entry path :=
          filePath_of_extractedAt hwarm.lawful hmx
        have hnone : (mi.entryIndexer env disk entry').extractedAt disk path'
            (walkRel (rootOf disk entry') path') id = none := by
          refine Option.eq_none_iff_forall_ne_some.mpr fun m' hm' => hsame ?_
          exact hwarm.sameFile hentry' hentry hbelow' hbelow hm' hmx
        rw [hnone]
        refine Option.eq_none_iff_forall_ne_some.mpr fun n hn => ?_
        obtain ⟨hn, hfn⟩ := Option.filter_eq_some_iff.mp hn
        obtain rfl := Option.some.inj hn
        exact hne ((of_decide_eq_true hfn).symm.trans hf)
      | none =>
        rw [Option.map_none, Option.none_or, Option.filter_filter, ← hsync, bareIn]
        refine congrArg (fun f => Option.filter f (w.multiIndexer.store.graph.bareAt id))
          (funext fun n => ?_)
        change (_ && decide (n.filePath = mi.graphPath env disk entry' path')) =
          decide (n.filePath = mi.graphPath env disk entry' path')
        by_cases hf : n.filePath = mi.graphPath env disk entry' path'
        · rw [decide_eq_true hf, Bool.and_true]
          exact decide_eq_true fun hc => hne (hf.symm.trans hc)
        · rw [decide_eq_false hf, Bool.and_false]

/-- **One step.** -/
theorem Since.step {w w' : Watching} {a : WatchAction} {ord : MapOrder}
    (h : Since env disk C mi w) (hwarm : WarmStart env disk C mi) (hs : Step ord w a w') :
    Since env disk C mi w' := by
  unfold Step Watching.step at hs
  cases a with
  | writeFile path hp f =>
    simp only at hs
    split at hs
    · cases hs
    · rename_i hnew
      obtain rfl := Option.some.inj hs
      exact h.writeFile hp hnew
  | removeFile path =>
    simp only at hs
    split at hs
    · obtain rfl := Option.some.inj hs
      exact h.removeFile path
    · cases hs
  | patch repoPrefix path hp kind resolve =>
    simp only at hs
    split at hs
    · cases hs
    · rename_i idx hidx
      split at hs
      · rename_i hguard
        obtain rfl := Option.some.inj hs
        exact h.patched hwarm hp hidx hguard.1 hguard.2 ord resolve
      · cases hs
  | resolveAll =>
    obtain rfl := Option.some.inj hs
    exact h.setGraph (quiet_resolveAll ord w.multiIndexer.store)
  | resolveForRepo repoPrefix =>
    obtain rfl := Option.some.inj hs
    exact h.setGraph (Quiet.resolveForRepo ord w.multiIndexer.store.graph repoPrefix)

/-- **A run of the daemon.** -/
theorem Since.run {w w' : Watching} {acts : List WatchAction} {ord : MapOrder}
    (h : Since env disk C mi w) (hwarm : WarmStart env disk C mi)
    (hrun : Run (Step ord) w acts w') : Since env disk C mi w' :=
  hrun.invariant (fun hw hs => hw.step hwarm hs) h

/-- While no daemon runs, only the disk changes. -/
theorem multiIndexer_of_changes {w w' : Watching} {acts : List WatchAction} {ord : MapOrder}
    (hrun : Run (Step ord) w acts w') (hchanges : ∀ a ∈ acts, a.isChange = true) :
    w'.multiIndexer = w.multiIndexer := by
  induction hrun with
  | nil => rfl
  | cons hs hrest ih =>
    rw [List.forall_mem_cons] at hchanges
    refine (ih hchanges.2).trans ?_
    unfold Step Watching.step at hs
    rename_i a _
    cases a with
    | writeFile path hp f =>
      simp only at hs
      split at hs
      · cases hs
      · obtain rfl := Option.some.inj hs
        rfl
    | removeFile path =>
      simp only at hs
      split at hs
      · obtain rfl := Option.some.inj hs
        rfl
      · cases hs
    | patch repoPrefix path hp kind resolve => cases hchanges.1
    | resolveAll => cases hchanges.1
    | resolveForRepo repoPrefix => cases hchanges.1

end Since

end Watching

/-! ### The snapshot -/

section Snapshot

variable {β : Type}

/-- A snapshot that is saved, none of whose records is damaged. -/
def savedSnapshot (c : Codec β) (ord : MapOrder) (g : Graph) (snapRepos : List SnapshotRepo)
    (snapContracts : List SnapshotContract) (version : String) :
    DamagedSnapshot c ord g snapRepos where
  header :=
    { schemaVersion := snapshotSchemaVersion
      version := version
      nodeCount := ((g.allNodes ord).map g.node).length
      edgeCount := ((g.allEdges ord).map g.edge).length
      repoCount := snapRepos.length
      contractCount := snapContracts.length }
  nodes := ((g.allNodes ord).map g.node).map fun n => (n, c.node.encode n)
  edges := ((g.allEdges ord).map g.edge).map c.edge.encode
  rest := snapContracts.map c.contract.encode
  version := rfl
  nodeCount := by rw [List.length_map (fun n => (n, c.node.encode n))]
  edgeCount := by rw [List.length_map c.edge.encode]
  repoCount := rfl
  nodes_eq := by simp [Function.comp_def]
  edges_length := by simp
  recorded := fun x hx => by
    obtain ⟨n, -, rfl⟩ := List.mem_map.mp hx
    exact Or.inl rfl

theorem file_savedSnapshot (c : Codec β) (ord : MapOrder) (g : Graph)
    (snapRepos : List SnapshotRepo) (snapContracts : List SnapshotContract) (version : String) :
    (savedSnapshot c ord g snapRepos snapContracts version).file =
      .stream (saveSnapshot c ord g snapRepos snapContracts version) := by
  have hnodes : (((g.allNodes ord).map g.node).map fun n => (n, c.node.encode n)).map Prod.snd =
      ((g.allNodes ord).map g.node).map c.node.encode := by
    rw [List.map_map]
    rfl
  unfold DamagedSnapshot.file saveSnapshot
  simp only [savedSnapshot, hnodes]

theorem not_lost_savedSnapshot {c : Codec β} {ord : MapOrder} {g : Graph}
    {snapRepos : List SnapshotRepo} {snapContracts : List SnapshotContract} {version : String}
    {n : Node} : ¬(savedSnapshot c ord g snapRepos snapContracts version).Lost n := by
  rintro ⟨b, hb, err, herr⟩
  obtain ⟨n', -, heq⟩ := List.mem_map.mp hb
  obtain ⟨rfl, rfl⟩ := Prod.mk.inj heq
  rw [c.node.decode_encode] at herr
  cases herr

variable {env : RepoEnv} {disk : Disk} {C : String → Prop} {mi : MultiIndexer}

/-- **A snapshot that is loaded** has the nodes that were given by files. -/
theorem bareAt_savedSnapshot {c : Codec β} {ord : MapOrder} {g : Graph}
    {snapRepos : List SnapshotRepo} {snapContracts : List SnapshotContract} {version : String}
    (h : WarmStart env disk C mi) (hweak : Weak g) (hgen : Genuine env disk C mi g) {id : String}
    (hid : ¬C id) : (loadSnapshot c Graph.new
      (savedSnapshot c ord g snapRepos snapContracts version).file).graph.bareAt id =
        g.bareAt id := by
  set D := savedSnapshot c ord g snapRepos snapContracts version
  cases hn : (loadSnapshot c Graph.new D.file).graph.nodeAt id with
  | some n => rw [bareAt, bareAt, hn, D.nodeAt_of_loaded hweak hn]
  | none =>
    cases hat : g.nodeAt id with
    | none => rw [bareAt, bareAt, hn, hat]
    | some n =>
      obtain ⟨entry, hentry, path, d, m, -, hm, -⟩ := hgen id n.bare hid
        (congrArg (Option.map Node.bare) hat)
      obtain rfl := hweak.nodes.id_eq hat
      have hback := D.nodeAt_of_not_lost hweak (h.loadable hentry hm) hat not_lost_savedSnapshot
      cases hn.symm.trans hback

end Snapshot

/-! ### The modification times of the snapshot -/

section Prior

variable {env : RepoEnv} {sord : SnapshotOrder} {disk : Disk} {C : String → Prop}
  {mi : MultiIndexer} {w : Watching} {entry : RepoEntry}

/-- What is loaded of the repositories of a snapshot. -/
theorem lookup_loadedRepos (env : RepoEnv) (mi : MultiIndexer) {p : String} (hp : p ≠ "") :
    (loadedRepos (collectSnapshotRepos env mi)).lookup p =
      (mi.repos.lookup p).map fun info => ⟨p, info.rootPath, info.fileMtimes⟩ := by
  have hloaded := reposLoaded (collectSnapshotRepos env mi) { graph := Graph.new }
  have hfilter := GoMap.filter_pairs (env.repoOrder.perm mi mi.repos.pairs) p
  unfold loadedRepos
  rw [hloaded.repos p hp, collectSnapshotRepos, List.filter_map]
  change ((((env.repoOrder.order mi mi.repos.pairs).filter fun q => q.1 = p).map _).getLast?).or
    none = _
  rw [hfilter]
  cases mi.repos.lookup p <;> rfl

theorem lookup_loadedRepos_empty (env : RepoEnv) (mi : MultiIndexer) :
    (loadedRepos (collectSnapshotRepos env mi)).lookup "" = none := by
  unfold loadedRepos
  exact (reposLoaded (collectSnapshotRepos env mi) { graph := Graph.new }).empty

/-- **The modification times a restart goes by** are those of when the repository was
tracked. -/
theorem priorOf_collected (h : Watching.Since env disk C mi w) (hwarm : WarmStart env disk C mi)
    (hroots : (mi.configRepos.map (rootOf disk)).Nodup) (hentry : entry ∈ mi.configRepos) :
    priorOf sord disk (loadedRepos (collectSnapshotRepos env w.multiIndexer)) entry =
      (mi.metadataOf env disk entry).fileMtimes := by
  set repos := loadedRepos (collectSnapshotRepos env w.multiIndexer) with hrepos
  -- a record of a root is that of its repository
  have hof : ∀ p r, repos.lookup p = some r → r.rootPath = rootOf disk entry →
      r.fileMtimes = (mi.metadataOf env disk entry).fileMtimes := by
    intro p r hr hroot
    by_cases hp : p = ""
    · rw [hp, hrepos, lookup_loadedRepos_empty] at hr
      cases hr
    · rw [hrepos, lookup_loadedRepos env _ hp] at hr
      obtain ⟨info, hinfo, rfl⟩ := Option.map_eq_some_iff.mp hr
      obtain ⟨e, he, rfl⟩ := h.only p info hinfo
      rw [h.repos e he] at hinfo
      obtain rfl := Option.some.inj hinfo
      have hsame : e = entry := List.inj_on_of_nodup_map hroots he hentry hroot
      rw [hsame]
  have hmine : repos.lookup (entryPrefix env disk entry) =
      some ⟨entryPrefix env disk entry, rootOf disk entry,
        (mi.metadataOf env disk entry).fileMtimes⟩ := by
    rw [hrepos, lookup_loadedRepos env _ (hwarm.prefixes entry hentry).1, h.repos entry hentry]
    rfl
  unfold priorOf priorMtimesForEntry
  cases hfind : (sord.order repos repos.pairs).find? fun p =>
      p.2.rootPath = GoPath.abs disk.cwd entry.path with
  | none =>
    have hmem : (entryPrefix env disk entry, _) ∈ sord.order repos repos.pairs :=
      sord.mem.mpr (GoMap.mem_pairs.mpr hmine)
    exact absurd (decide_eq_true rfl) (List.find?_eq_none.mp hfind _ hmem)
  | some q =>
    obtain ⟨p, r⟩ := q
    have hr := GoMap.mem_pairs.mp (sord.mem.mp (List.mem_of_find?_eq_some hfind))
    have hroot := List.find?_some hfind
    exact hof p r hr (of_decide_eq_true hroot)

end Prior

end Gortex
