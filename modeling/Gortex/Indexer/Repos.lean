import Gortex.Indexer.Multi
import Gortex.Indexer.Reindex

/-!
# What the multi-indexer does to the nodes

Every operation of the multi-indexer on a repository does to the nodes what the index run
of its indexer does (`Gortex.MultiIndexer.replaces_trackRepo` and
`Gortex.MultiIndexer.replaces_reconcileRepo`); linking contracts leaves the nodes alone.
-/

namespace Gortex

open Graph GoString Indexer

/-! ### Prefixes -/

/-- A prefix that can be read off a path. -/
def IsRepoPrefix (p : String) : Prop := p ≠ "" ∧ '/' ∉ p.toList

/-- **Paths under different prefixes are different.** -/
theorem IsRepoPrefix.inj {p q r r' : String} (hp : IsRepoPrefix p) (hq : IsRepoPrefix q)
    (h : p ++ "/" ++ r = q ++ "/" ++ r') : p = q := by
  have hlist : p.toList ++ '/' :: r.toList = q.toList ++ '/' :: r'.toList := by
    have h' := congrArg String.toList h
    rw [String.toList_append, String.toList_append, String.toList_append, String.toList_append,
      List.append_assoc, List.append_assoc] at h'
    exact h'
  have hsplit := congrArg GoPath.splitSlash hlist
  rw [GoPath.splitSlash_append hp.2, GoPath.splitSlash_append hq.2, List.cons.injEq] at hsplit
  exact String.toList_inj.mp hsplit.1

namespace Indexer

theorem prefixPath_of_ne {idx : Indexer} (h : idx.repoPrefix ≠ "") (rel : String) :
    idx.prefixPath rel = idx.repoPrefix ++ "/" ++ rel :=
  if_neg h

/-- **A node of a prefixed repository** has an ID and a path under the prefix. -/
theorem prefixed_of_produces {idx : Indexer} (hr : idx.registry.Lawful) (h : idx.repoPrefix ≠ "")
    {disk : Disk} {root : String} {files : List String} {id : String} {n : Node}
    (hn : idx.Produces disk root files id n) :
    (∃ raw, id = idx.repoPrefix ++ "/" ++ raw) ∧
      ∃ path ∈ files, n.filePath = idx.repoPrefix ++ "/" ++ walkRel root path := by
  obtain ⟨path, hpath, he⟩ := hn
  have hf := filePath_of_extractedAt hr he
  rw [prefixPath_of_ne h] at hf
  obtain ⟨res, hres, hat⟩ := extractedAt_eq_some.mp he
  obtain ⟨hm, rfl⟩ := ExtractionResult.mem_of_nodeAt hat
  obtain ⟨src, raw, -, rfl⟩ := extracts_of_extractFile hres
  obtain ⟨m, -, rfl⟩ := List.mem_map.mp hm
  refine ⟨⟨m.id, ?_⟩, path, hpath, hf⟩
  rw [id_prefixNode, prefixPath_of_ne h]

end Indexer

namespace MultiIndexer

variable {mi : MultiIndexer} {env : RepoEnv} {disk : Disk}

/-! ### Linking contracts -/

theorem quiet_removeMatches (ord : MapOrder) (g : Graph) : Quiet g (removeMatches ord g) :=
  List.foldl_invariant (P := Quiet g) (fun g' e _ hg => hg.trans
    ⟨(OutShrinks.removeEdge g' e.fromID e.toID .edgeMatches).only.sameNodes,
      (OutShrinks.removeEdge g' e.fromID e.toID .edgeMatches).weak⟩) (Quiet.refl g)

theorem quiet_addMatch (g : Graph) (m : CrossLink) : Quiet g (addMatch g m) := by
  unfold addMatch
  split_ifs
  · exact Quiet.refl g
  · exact Quiet.refl g
  · exact Quiet.putEdge g _

/-- **Linking contracts** leaves the nodes alone. -/
theorem quiet_reconcileContractEdges (mi : MultiIndexer) (env : RepoEnv) (disk : Disk) :
    Quiet mi.store.graph (mi.reconcileContractEdges env disk).store.graph :=
  (quiet_removeMatches env.ords.graph mi.store.graph).trans
    (List.foldl_invariant (P := Quiet (removeMatches env.ords.graph mi.store.graph))
      (fun g m _ hg => hg.trans (quiet_addMatch g m)) (Quiet.refl _))

/-- So does what follows an index run. -/
theorem quiet_configureRepo (mi : MultiIndexer) (env : RepoEnv) (disk : Disk)
    (repoPrefix rootPath : String) (idx : Indexer) (s : Store) (entry : RepoEntry) :
    Quiet s.graph
      ((mi.registerRepo repoPrefix rootPath idx s).configureRepo env disk entry).store.graph :=
  quiet_reconcileContractEdges
    { mi.registerRepo repoPrefix rootPath idx s with
      configRepos := addRepo disk.cwd mi.configRepos entry } env disk

/-- A repository that is listed is not listed twice. -/
theorem addRepo_of_mem {cwd : String} (hcwd : GoPath.isAbs cwd = true) {repos : List RepoEntry}
    {entry : RepoEntry} (h : entry ∈ repos) :
    addRepo cwd repos { entry with path := GoPath.abs cwd entry.path } = repos := by
  unfold addRepo
  simp only
  rw [GoPath.abs_abs hcwd]
  exact if_pos (List.mem_map_of_mem h)

/-! ### Tracking and reconciling -/

section

variable {C : String → Prop} {entry : RepoEntry} {prior : GoMap String ℤ}

/-- The root of an entry. -/
def rootOf (disk : Disk) (entry : RepoEntry) : String := GoPath.abs disk.cwd entry.path

/-- The prefix an entry is tracked under. -/
def entryPrefix (env : RepoEnv) (disk : Disk) (entry : RepoEntry) : String :=
  prefixOf env entry (rootOf disk entry)

/-- The indexer of an entry, if its paths get the prefix. -/
def entryIndexer (mi : MultiIndexer) (env : RepoEnv) (disk : Disk) (entry : RepoEntry) : Indexer :=
  mi.newIndexer env (entryPrefix env disk entry) true

/-- The same indexer, when the modification times of a snapshot are put in. -/
def priorIndexer (mi : MultiIndexer) (env : RepoEnv) (disk : Disk) (entry : RepoEntry)
    (prior : GoMap String ℤ) : Indexer :=
  { mi.entryIndexer env disk entry with
    rootPath := rootOf disk entry
    fileMtimes := prior }

theorem rootError_eq_none (h : disk.isDir (rootOf disk entry) = some true) :
    rootError disk (GoPath.abs disk.cwd entry.path) = none := by
  unfold rootError
  rw [show disk.isDir (GoPath.abs disk.cwd entry.path) = some true from h]

/-- What an operation on a listed repository leaves as it is. -/
structure Registered (env : RepoEnv) (disk : Disk) (entry : RepoEntry) (mi mi' : MultiIndexer) :
    Prop where
  registry : mi'.registry = mi.registry
  configRepos : mi'.configRepos = mi.configRepos
  repos : ∀ p, p ≠ entryPrefix env disk entry → mi'.repos.lookup p = mi.repos.lookup p

theorem registered_configureRepo (hcwd : GoPath.isAbs disk.cwd = true)
    (hentry : entry ∈ mi.configRepos) (idx : Indexer) (s : Store) (rootPath : String) :
    Registered env disk entry mi
      ((mi.registerRepo (entryPrefix env disk entry) rootPath idx s).configureRepo env disk
        { entry with path := rootOf disk entry }) := by
  refine ⟨rfl, addRepo_of_mem hcwd hentry, fun p hp => ?_⟩
  change (mi.repos.insert _ _).lookup p = _
  rw [GoMap.lookup_insert, if_neg hp]

theorem lookup_isSome_eq_false (hnew : mi.repos.lookup (entryPrefix env disk entry) = none) :
    ((mi.repos.lookup (prefixOf env entry (GoPath.abs disk.cwd entry.path))).isSome = true) =
      False := by
  rw [show mi.repos.lookup (prefixOf env entry (GoPath.abs disk.cwd entry.path)) = none from hnew]
  simp

variable (hcwd : GoPath.isAbs disk.cwd = true) (hr : mi.registry.Lawful)
  (hC : ContractIDs env.extractors disk C) (hg : Weak mi.store.graph)
  (hmulti : 2 ≤ mi.configRepos.length) (hentry : entry ∈ mi.configRepos)
  (hdir : disk.isDir (rootOf disk entry) = some true)
  (hnew : mi.repos.lookup (entryPrefix env disk entry) = none)

include hcwd hr hC hg hmulti hentry hdir hnew

/-- **Tracking a repository** that is listed with another one stores the nodes of its
files. -/
theorem replaces_trackRepo : Registered env disk entry mi (mi.TrackRepo env disk entry).1 ∧
    Replaces C [] ((mi.entryIndexer env disk entry).Produces disk (rootOf disk entry)
      ((mi.entryIndexer env disk entry).indexFiles disk (rootOf disk entry)))
      mi.store.graph (mi.TrackRepo env disk entry).1.store.graph := by
  have hwill : mi.willBeMultiRepo = true := decide_eq_true (Or.inr hmulti)
  unfold TrackRepo
  simp only [rootError_eq_none hdir, lookup_isSome_eq_false hnew, if_false, hwill]
  refine ⟨registered_configureRepo hcwd hentry _ _ _, ?_⟩
  have hrep := @replaces_indexCtx (mi.entryIndexer env disk entry) env.extractors env.ords ∅ disk
    (fun c => C c.id) C mi.store (rootOf disk entry) hr hg hC.found (fun _ h => h)
    (fun _ _ h => nomatch h) (fun _ _ _ h => hC.di h)
  have habs : GoPath.abs disk.cwd (rootOf disk entry) = rootOf disk entry := GoPath.abs_abs hcwd _
  rw [habs] at hrep
  exact hrep.keepsOff (KeepsOff.of_quiet (quiet_configureRepo mi env disk _ _ _ _ _))

/-- **Reconciling a repository** that is listed with another one replaces the nodes of the
files that have changed. -/
theorem replaces_reconcileRepo (hprior : prior.keys ≠ []) :
    Registered env disk entry mi (mi.ReconcileRepo env disk entry prior).1 ∧
      Replaces C ((mi.priorIndexer env disk entry prior).gonePaths env.ords disk (rootOf disk entry))
        ((mi.entryIndexer env disk entry).Produces disk (rootOf disk entry)
          ((mi.priorIndexer env disk entry prior).staleFiles disk (rootOf disk entry)))
        mi.store.graph (mi.ReconcileRepo env disk entry prior).1.store.graph := by
  have hwill : mi.willBeMultiRepo = true := decide_eq_true (Or.inr hmulti)
  unfold ReconcileRepo
  simp only [rootError_eq_none hdir, lookup_isSome_eq_false hnew, if_false, hwill, hprior]
  refine ⟨registered_configureRepo hcwd hentry _ _ _, ?_⟩
  have hrep := @replaces_incrementalReindex (mi.priorIndexer env disk entry prior) env.extractors
    env.ords ∅ disk (fun c => C c.id) C mi.store (rootOf disk entry) hr hg hC.found (fun _ h => h)
    (fun _ _ h => nomatch h) (fun _ _ _ h => hC.di h)
  have habs : GoPath.abs disk.cwd (rootOf disk entry) = rootOf disk entry := GoPath.abs_abs hcwd _
  unfold atRoot at hrep
  rw [habs] at hrep
  exact hrep.keepsOff (KeepsOff.of_quiet (quiet_configureRepo mi env disk _ _ _ _ _))

end

end MultiIndexer

end Gortex
