import Gortex.Indexer.Symbols

/-!
# What an index run does to the nodes

A full index stores the nodes of the files it parses over what was there
(`Gortex.Indexer.replaces_indexCtx`). An incremental one evicts the paths it finds
stale or deleted, and stores the nodes of the stale files
(`Gortex.Indexer.replaces_incrementalReindex`). Both are stated off the IDs of
contracts and up to the shapes, by `Gortex.Graph.Replaces`.
-/

namespace Gortex

open Graph GoString

/-! ### Replacing nodes -/

/-- **New nodes replace those of the paths**, off the IDs in `C`. -/
structure Graph.Replaces (C : String → Prop) (gone : List String) (new : String → Node → Prop)
    (g g' : Graph) : Prop where
  weak : Weak g'
  added : ∀ {id n}, ¬C id → new id n → g'.bareAt id = some n.bare
  kept : ∀ {id}, ¬C id → (∀ n, ¬new id n) →
    g'.bareAt id = (g.bareAt id).filter fun n => n.filePath ∉ gone

theorem Graph.Replaces.keepsOff {C : String → Prop} {gone : List String}
    {new : String → Node → Prop} {g g' g'' : Graph} (h : Replaces C gone new g g')
    (h' : KeepsOff C g' g'') : Replaces C gone new g g'' where
  weak := h'.weak h.weak
  added := fun hid hn => (h'.bareAt h.weak _ hid).trans (h.added hid hn)
  kept := fun hid hn => (h'.bareAt h.weak _ hid).trans (h.kept hid hn)

/-- **One replacement after the other**, if the second leaves alone what the first has
stored. -/
theorem Graph.Replaces.trans {C : String → Prop} {gone gone' : List String}
    {new new' : String → Node → Prop} {g g' g'' : Graph} (h : Replaces C gone new g g')
    (h' : Replaces C gone' new' g' g'') (hid : ∀ {id n n'}, new id n → ¬new' id n')
    (hpath : ∀ {id n}, new id n → n.filePath ∉ gone') :
    Replaces C (gone ++ gone') (fun id n => new id n ∨ new' id n) g g'' where
  weak := h'.weak
  added := fun {id n} hC hn => by
    rcases hn with hn | hn
    · have hout : n.filePath ∉ gone' := hpath hn
      rw [h'.kept hC fun m => hid hn, h.added hC hn]
      exact Option.filter_eq_some_iff.mpr ⟨rfl, decide_eq_true hout⟩
    · exact h'.added hC hn
  kept := fun {id} hC hn => by
    rw [h'.kept hC fun m hm => hn m (Or.inr hm), h.kept hC fun m hm => hn m (Or.inl hm),
      Option.filter_filter]
    refine congrArg (fun f => Option.filter f (g.bareAt id)) (funext fun n => ?_)
    simp only [List.mem_append, not_or, Bool.decide_and]

theorem Graph.Replaces.congr {C : String → Prop} {gone gone' : List String}
    {new new' : String → Node → Prop} {g g' : Graph} (h : Replaces C gone new g g')
    (hgone : ∀ p, p ∈ gone' ↔ p ∈ gone) (hnew : ∀ id n, new' id n ↔ new id n) :
    Replaces C gone' new' g g' where
  weak := h.weak
  added := fun hC hn => h.added hC ((hnew _ _).mp hn)
  kept := fun {id} hC hn => by
    rw [h.kept hC fun m hm => hn m ((hnew _ _).mpr hm)]
    simp only [hgone]

namespace Indexer

variable {idx idx' : Indexer} {ce : ContractExtractors} {ords : Orders}
  {mods : GoMap String String} {disk : Disk} {P : Contract → Prop} {C : String → Prop} {s : Store}
  {root : String} {files : List String}

/-! ### Full index -/

/-- What the workers of a full index have parsed in the end. -/
def parsed (idx : Indexer) (ce : ContractExtractors) (ords : Orders) (disk : Disk) (s : Store)
    (root : String) : Parsing :=
  (ords.workers.order s.graph (idx.indexFiles disk (GoPath.abs disk.cwd root))).foldl
    (idx.parseFile ce disk (GoPath.abs disk.cwd root)) { graph := s.graph, cache := idx.contractCache }

theorem weak_parsed (hg : Weak s.graph) : Weak (idx.parsed ce ords disk s root).graph :=
  List.foldl_invariant (P := fun p : Parsing => Weak p.graph)
    (fun _ path _ hp => weak_parseFile hp path) hg

/-- The contracts that are found while parsing have the property. -/
theorem all_parsed (hce : ce.FindOnly disk P) (hcache : CacheAll P idx.contractCache) :
    (idx.parsed ce ords disk s root).All P :=
  List.foldl_invariant (P := Parsing.All P) (fun _ path _ hp => hp.parseFile hce path)
    ⟨hcache, fun _ hl => nomatch hl⟩

/-- **A full index that has resolved its graph** writes the nodes of contracts. -/
theorem contractWrites_indexCtx {R : Graph → Graph → Prop} (hR : ContractWrites P R)
    (hce : ce.FindOnly disk P) (hcache : CacheAll P idx.contractCache)
    (hdi : DIOnly P ords.graph
      (resolveAll ords.graph { s with graph := (idx.parsed ce ords disk s root).graph }).graph) :
    R (resolveAll ords.graph { s with graph := (idx.parsed ce ords disk s root).graph }).graph
      (idx.IndexCtx ce ords mods disk s root).2.1.graph := by
  have hp : (idx.parsed ce ords disk s root).All P := all_parsed hce hcache
  have hreg : ContractRegistry.All P ((ords.workers.order (idx.parsed ce ords disk s root).graph
      (idx.parsed ce ords disk s root).contracts).flatten.foldl ContractRegistry.add {}) := by
    refine ContractRegistry.All.empty.foldl_add fun c hc => ?_
    obtain ⟨l, hl, hcl⟩ := List.mem_flatten.mp hc
    exact hp.2 l (ords.workers.mem.mp hl) c hcl
  exact hR.commit_extractDI hce ords hdi (all_extractGoModContracts hce hreg mods)

/-- **After parsing, a full index** writes the nodes of contracts. -/
theorem keepsOff_indexCtx (hce : ce.FindOnly disk P) (hPC : ∀ c, P c → C c.id)
    (hcache : CacheAll P idx.contractCache)
    (hdi : DIOnly P ords.graph
      (resolveAll ords.graph { s with graph := (idx.parsed ce ords disk s root).graph }).graph) :
    KeepsOff C (idx.parsed ce ords disk s root).graph
      (idx.IndexCtx ce ords mods disk s root).2.1.graph :=
  (KeepsOff.of_quiet (quiet_resolveAll ords.graph _)).trans
    (contractWrites_indexCtx (ContractWrites.keepsOff hPC) hce hcache hdi)

theorem mem_walkFiles_of_mem_indexFiles {path : String} (h : path ∈ idx.indexFiles disk root) :
    path ∈ idx.walkFiles disk root :=
  List.mem_of_mem_filter h

/-- What is found among the files. -/
theorem findSome?_extractedAt (hr : idx.registry.Lawful)
    (hf : ∀ p ∈ files, p ∈ idx.walkFiles disk root) {id : String} {n : Node}
    (h : idx.Produces disk root files id n) :
    files.findSome? (fun path => idx.extractedAt disk path (walkRel root path) id) = some n := by
  cases hfind : files.findSome? (fun path => idx.extractedAt disk path (walkRel root path) id) with
  | none =>
    obtain ⟨p, hp, he⟩ := h
    have hnone := List.findSome?_eq_none_iff.mp hfind p hp
    rw [hnone] at he
    cases he
  | some n' =>
    obtain ⟨p, hp, he⟩ := List.exists_of_findSome?_eq_some hfind
    rw [Produces.unique hr hf h ⟨p, hp, he⟩]

theorem findSome?_extractedAt_eq_none {id : String}
    (h : ∀ n, ¬idx.Produces disk root files id n) :
    files.findSome? (fun path => idx.extractedAt disk path (walkRel root path) id) = none :=
  List.findSome?_eq_none_iff.mpr fun p hp => Option.eq_none_iff_forall_ne_some.mpr fun n hn =>
    h n ⟨p, hp, hn⟩

theorem Produces.of_mem {files' : List String} (h : ∀ p ∈ files, p ∈ files') {id : String} {n : Node}
    (hn : idx.Produces disk root files id n) : idx.Produces disk root files' id n :=
  hn.imp fun p hp => ⟨h p hp.1, hp.2⟩

/-- **Parsing** stores the nodes of the files. -/
theorem replaces_parsed (hr : idx.registry.Lawful) (hg : Weak s.graph) :
    Replaces C [] (idx.Produces disk (GoPath.abs disk.cwd root)
      (idx.indexFiles disk (GoPath.abs disk.cwd root))) s.graph
      (idx.parsed ce ords disk s root).graph := by
  have hmem : ∀ p, p ∈ (ords.workers.order s.graph
      (idx.indexFiles disk (GoPath.abs disk.cwd root))).reverse ↔
        p ∈ idx.indexFiles disk (GoPath.abs disk.cwd root) := fun p =>
    List.mem_reverse.trans ords.workers.mem
  refine ⟨weak_parsed hg, fun {id n} _ hn => ?_, fun {id} _ hn => ?_⟩
  · have hfind := findSome?_extractedAt hr
      (fun p hp => mem_walkFiles_of_mem_indexFiles ((hmem p).mp hp))
      (hn.of_mem fun p hp => (hmem p).mpr hp)
    rw [bareAt, parsed, nodeAt_foldl_parseFile _ hg, hfind]
    rfl
  · have hfind := findSome?_extractedAt_eq_none fun n hp => hn n (hp.of_mem fun p hp => (hmem p).mp hp)
    rw [bareAt, parsed, nodeAt_foldl_parseFile _ hg, hfind]
    change s.graph.bareAt id = _
    cases s.graph.bareAt id with
    | none => rfl
    | some n => simp [Option.filter]

/-- **A full index** stores the nodes of the files over what was there. -/
theorem replaces_indexCtx (hr : idx.registry.Lawful) (hg : Weak s.graph)
    (hce : ce.FindOnly disk P) (hPC : ∀ c, P c → C c.id) (hcache : CacheAll P idx.contractCache)
    (hdi : DIOnly P ords.graph
      (resolveAll ords.graph { s with graph := (idx.parsed ce ords disk s root).graph }).graph) :
    Replaces C [] (idx.Produces disk (GoPath.abs disk.cwd root)
      (idx.indexFiles disk (GoPath.abs disk.cwd root))) s.graph
      (idx.IndexCtx ce ords mods disk s root).2.1.graph :=
  (replaces_parsed hr hg).keepsOff (keepsOff_indexCtx hce hPC hcache hdi)

/-! ### One file -/

/-- **Indexing a file** evicts its path and stores what the file gives. -/
theorem nodeAt_indexFile (hg : Weak s.graph) (ord : MapOrder) (disk : Disk) (filePath : String)
    (resolve : Bool) (id : String) :
    (idx.indexFile ord disk s filePath resolve).2.1.graph.nodeAt id =
      (idx.extractedAt disk (GoPath.abs disk.cwd filePath)
        (idx.relPathOf filePath (GoPath.abs disk.cwd filePath)) id).or
        ((s.graph.nodeAt id).filter fun n =>
          n.filePath ≠ idx.prefixPath (idx.relPathOf filePath (GoPath.abs disk.cwd filePath))) := by
  have hev := hg.nodes.nodeAt_evictFile ord
    (idx.prefixPath (idx.relPathOf filePath (GoPath.abs disk.cwd filePath))) id
  have hweak := weak_evictPath hg ord
    (idx.prefixPath (idx.relPathOf filePath (GoPath.abs disk.cwd filePath)))
  unfold indexFile extractedAt
  simp only
  rcases hx : idx.extractFile disk (GoPath.abs disk.cwd filePath)
    (idx.relPathOf filePath (GoPath.abs disk.cwd filePath)) with err | (- | res)
  · exact hev
  · exact hev
  · simp only
    rw [← hev]
    split
    · exact ((Quiet.resolveFile ord _ _).nodes.nodeAt id).trans (nodeAt_addResult hweak.nodes res id)
    · exact nodeAt_addResult hweak.nodes res id

theorem weak_indexFile (hg : Weak s.graph) (ord : MapOrder) (disk : Disk) (filePath : String)
    (resolve : Bool) : Weak (idx.indexFile ord disk s filePath resolve).2.1.graph := by
  have hweak := weak_evictPath hg ord
    (idx.prefixPath (idx.relPathOf filePath (GoPath.abs disk.cwd filePath)))
  unfold indexFile
  simp only
  split
  · exact hweak
  · exact hweak
  · rename_i res _
    have hadd := weak_addResult hweak res
    simp only
    split
    · exact (Quiet.resolveFile ord _ _).weak hadd
    · exact hadd

theorem alike_indexFile (ord : MapOrder) (disk : Disk) (s : Store) (filePath : String)
    (resolve : Bool) : Alike idx (idx.indexFile ord disk s filePath resolve).1 := by
  unfold indexFile
  simp only
  split
  · exact Alike.refl idx
  · exact Alike.refl idx
  · exact alike_recordMtime idx disk _ _

theorem contractCache_indexFile (ord : MapOrder) (disk : Disk) (s : Store) (filePath : String)
    (resolve : Bool) :
    (idx.indexFile ord disk s filePath resolve).1.contractCache = idx.contractCache := by
  unfold indexFile recordMtime
  simp only
  split
  · rfl
  · rfl
  · split <;> rfl

/-! ### Incremental index -/

/-- What the loops of an incremental index keep of the indexer. -/
structure SameScan (idx idx' : Indexer) : Prop where
  alike : Alike idx idx'
  contractCache : idx'.contractCache = idx.contractCache

theorem SameScan.refl (idx : Indexer) : SameScan idx idx := ⟨Alike.refl idx, rfl⟩

theorem SameScan.trans {idx'' : Indexer} (h : SameScan idx idx') (h' : SameScan idx' idx'') :
    SameScan idx idx'' :=
  ⟨h.alike.trans h'.alike, h'.contractCache.trans h.contractCache⟩

/-- **Evicting the deleted files** takes the nodes of their paths. -/
theorem foldl_evictDeleted (hg : Weak s.graph) (ord : MapOrder) (idx : Indexer)
    (deleted : List String) :
    let p := deleted.foldl (evictDeleted ord) (idx, s)
    SameScan idx p.1 ∧ Weak p.2.graph ∧ ∀ id, p.2.graph.nodeAt id =
      (s.graph.nodeAt id).filter fun n => n.filePath ∉ deleted.map idx.prefixPath := by
  induction deleted generalizing idx s with
  | nil =>
    refine ⟨SameScan.refl idx, hg, fun id => ?_⟩
    change s.graph.nodeAt id = _
    cases s.graph.nodeAt id with
    | none => rfl
    | some n => simp [Option.filter]
  | cons rel deleted ih =>
    have hfirst : SameScan idx (evictDeleted ord (idx, s) rel).1 := ⟨⟨rfl, rfl, rfl, rfl⟩, rfl⟩
    obtain ⟨hsame, hweak, hat⟩ := ih (s := (evictDeleted ord (idx, s) rel).2)
      (hg.evictFile ord _) (evictDeleted ord (idx, s) rel).1
    refine ⟨hfirst.trans hsame, hweak, fun id => ?_⟩
    have hev := hg.nodes.nodeAt_evictFile ord (idx.prefixPath rel) id
    have hpre : (evictDeleted ord (idx, s) rel).1.prefixPath = idx.prefixPath :=
      funext hfirst.alike.prefixPath
    rw [List.foldl_cons, hat id, hpre]
    change Option.filter _ ((Graph.evictFile ord s.graph (idx.prefixPath rel)).graph.nodeAt id) = _
    rw [hev, Option.filter_filter]
    refine congrArg (fun f => Option.filter f (s.graph.nodeAt id)) (funext fun n => ?_)
    simp

theorem relPathOf_of_under {path : String} (h : GoPath.Under idx.rootPath path) (filePath : String) :
    idx.relPathOf filePath path = walkRel idx.rootPath path := by
  rw [relPathOf, rel_eq_walkRel h]

/-- **Indexing the stale files** takes the nodes of their paths and stores what they
give. -/
theorem foldl_reindexStale (hr : idx.registry.Lawful) (hg : Weak s.graph) (ord : MapOrder)
    {stale : List String} (hnodup : stale.Nodup)
    (hw : ∀ p ∈ stale, p ∈ idx.walkFiles disk idx.rootPath) :
    let p := stale.foldl (reindexStale disk ord) (idx, s)
    SameScan idx p.1 ∧ Weak p.2.graph ∧ ∀ id, p.2.graph.nodeAt id =
      (stale.reverse.findSome? fun path =>
        idx.extractedAt disk path (walkRel idx.rootPath path) id).or
        ((s.graph.nodeAt id).filter fun n =>
          n.filePath ∉ stale.map fun path => idx.prefixPath (walkRel idx.rootPath path)) := by
  -- the file that is indexed last evicts what was under its path, and adds what it gives
  induction stale using List.reverseRecOn with
  | nil =>
    refine ⟨SameScan.refl idx, hg, fun id => ?_⟩
    change s.graph.nodeAt id = _
    cases s.graph.nodeAt id with
    | none => rfl
    | some n => simp [Option.filter]
  | append_singleton stale path ih =>
    have hnodup' := (List.nodup_append.mp hnodup).1
    have hnew : path ∉ stale := fun hc =>
      List.disjoint_of_nodup_append hnodup hc (List.mem_singleton_self path)
    obtain ⟨hsame, hweak, hat⟩ := ih hnodup' fun p hp => hw p (List.mem_append_left _ hp)
    have hpath := hw path (List.mem_append_right _ (List.mem_singleton_self path))
    obtain ⟨⟨hclean, habs⟩, hunder⟩ := mem_walkFiles hpath
    simp only [List.foldl_append, List.foldl_cons, List.foldl_nil]
    generalize hp : stale.foldl (reindexStale disk ord) (idx, s) = p at hsame hweak hat
    refine ⟨hsame.trans ⟨alike_indexFile ord disk p.2 path true,
      contractCache_indexFile ord disk p.2 path true⟩, weak_indexFile hweak ord disk path true,
      fun id => ?_⟩
    have hstep := @nodeAt_indexFile p.1 p.2 hweak ord disk path true id
    have hroot : p.1.relPathOf path path = walkRel idx.rootPath path := by
      rw [hsame.alike.relPathOf, relPathOf_of_under hunder]
    rw [disk.abs_eq hclean habs, hroot, hsame.alike.extractedAt, hsame.alike.prefixPath, hat] at hstep
    change (p.1.indexFile ord disk p.2 path true).2.1.graph.nodeAt id = _
    rw [hstep, List.reverse_append, List.reverse_singleton, List.singleton_append,
      List.findSome?_cons]
    cases hx : idx.extractedAt disk path (walkRel idx.rootPath path) id with
    | some n => rfl
    | none =>
      rw [Option.none_or]
      cases hfind : stale.reverse.findSome? fun path =>
          idx.extractedAt disk path (walkRel idx.rootPath path) id with
      | some n =>
        obtain ⟨q, hq, hqn⟩ := List.exists_of_findSome?_eq_some hfind
        have hqw := hw q (List.mem_append_left _ (List.mem_reverse.mp hq))
        have hne : n.filePath ≠ idx.prefixPath (walkRel idx.rootPath path) := fun hc => by
          rw [filePath_of_extractedAt hr hqn] at hc
          have hqp := walkRel_inj hqw hpath (prefixPath_inj hc)
          exact hnew (hqp ▸ List.mem_reverse.mp hq)
        rw [Option.some_or, Option.some_or]
        exact Option.filter_eq_some_iff.mpr ⟨rfl, decide_eq_true hne⟩
      | none =>
        rw [Option.none_or, Option.none_or, Option.filter_filter]
        refine congrArg (fun f => Option.filter f (s.graph.nodeAt id)) (funext fun n => ?_)
        simp [Bool.and_comm]

theorem nodup_staleFiles (idx : Indexer) (disk : Disk) (root : String) :
    (idx.staleFiles disk root).Nodup :=
  ((disk.nodup_walkDir root).filter _).filter _

/-- The indexer of an incremental index of a root, before it starts. -/
def atRoot (idx : Indexer) (disk : Disk) (root : String) : Indexer :=
  { idx with rootPath := GoPath.abs disk.cwd root }

/-- The paths an incremental index evicts. -/
def gonePaths (idx : Indexer) (ords : Orders) (disk : Disk) (root : String) : List String :=
  ((idx.atRoot disk root).deletedFiles ords disk (GoPath.abs disk.cwd root) ++
    ((idx.atRoot disk root).staleFiles disk (GoPath.abs disk.cwd root)).map
      (walkRel (GoPath.abs disk.cwd root))).map idx.prefixPath

/-- The graph of an incremental index when its loops are done. -/
def rescanned (idx : Indexer) (ords : Orders) (disk : Disk) (s : Store) (root : String) :
    Indexer × Store :=
  ((idx.atRoot disk root).staleFiles disk (GoPath.abs disk.cwd root)).foldl
    (reindexStale disk ords.graph)
    (((idx.atRoot disk root).deletedFiles ords disk (GoPath.abs disk.cwd root)).foldl
      (evictDeleted ords.graph) (idx.atRoot disk root, s))

/-- **The loops of an incremental index** replace the nodes of the files that have
changed. -/
theorem replaces_rescanned (hr : idx.registry.Lawful) (hg : Weak s.graph) (C : String → Prop) :
    SameScan (idx.atRoot disk root) (idx.rescanned ords disk s root).1 ∧
      Replaces C (idx.gonePaths ords disk root) (idx.Produces disk (GoPath.abs disk.cwd root)
        ((idx.atRoot disk root).staleFiles disk (GoPath.abs disk.cwd root))) s.graph
        (idx.rescanned ords disk s root).2.graph := by
  obtain ⟨hsame, hweak, hat⟩ := foldl_evictDeleted hg ords.graph (idx.atRoot disk root)
    ((idx.atRoot disk root).deletedFiles ords disk (GoPath.abs disk.cwd root))
  have hstale : ∀ p ∈ (idx.atRoot disk root).staleFiles disk (GoPath.abs disk.cwd root),
      p ∈ idx.walkFiles disk (GoPath.abs disk.cwd root) := fun p hp =>
    List.mem_of_mem_filter hp
  unfold rescanned
  generalize (((idx.atRoot disk root).deletedFiles ords disk (GoPath.abs disk.cwd root)).foldl
    (evictDeleted ords.graph) (idx.atRoot disk root, s)) = p at hsame hweak hat
  obtain ⟨idx₁, s₁⟩ := p
  have hr₁ : idx₁.registry.Lawful := by
    rw [hsame.alike.registry]
    exact hr
  have hroot : idx₁.rootPath = GoPath.abs disk.cwd root := hsame.alike.rootPath
  -- the eviction of deleted files does not change which files there are to read
  have hwalk : idx₁.walkFiles disk (GoPath.abs disk.cwd root) =
      idx.walkFiles disk (GoPath.abs disk.cwd root) := by
    unfold walkFiles shouldExclude
    rw [hsame.alike.registry, hsame.alike.config]
    rfl
  obtain ⟨hsame', hweak', hat'⟩ := foldl_reindexStale hr₁ hweak ords.graph
    (nodup_staleFiles (idx.atRoot disk root) disk (GoPath.abs disk.cwd root))
    (fun p hp => by
      rw [hroot, hwalk]
      exact hstale p hp)
  refine ⟨hsame.trans hsame', hweak', fun {id n} _ hn => ?_, fun {id} _ hn => ?_⟩
  · have hfind := findSome?_extractedAt hr (fun p hp => hstale p (List.mem_reverse.mp hp))
      (hn.of_mem fun p hp => List.mem_reverse.mpr hp)
    rw [bareAt, hat', hroot]
    simp only [hsame.alike.extractedAt]
    change ((List.findSome? (fun path => idx.extractedAt disk path
      (walkRel (GoPath.abs disk.cwd root) path) id) _).or _).map Node.bare = _
    rw [hfind]
    rfl
  · have hfind := findSome?_extractedAt_eq_none fun n hp =>
      hn n (hp.of_mem fun p hp => List.mem_reverse.mp hp)
    rw [bareAt, hat', hroot]
    simp only [hsame.alike.extractedAt]
    change ((List.findSome? (fun path => idx.extractedAt disk path
      (walkRel (GoPath.abs disk.cwd root) path) id) _).or _).map Node.bare = _
    rw [hfind, Option.none_or, hat, Option.filter_filter, bareAt, Option.filter_map]
    refine congrArg (fun f => (Option.filter f (s.graph.nodeAt id)).map Node.bare)
      (funext fun n => ?_)
    have hpre : ∀ rel, idx₁.prefixPath rel = idx.prefixPath rel := hsame.alike.prefixPath
    simp only [hpre]
    change _ = decide (n.filePath ∉ idx.gonePaths ords disk root)
    rw [gonePaths, List.map_append, List.map_map]
    simp only [List.mem_append, not_or, Bool.decide_and]
    rfl

/-- **An incremental index that has inferred the interfaces** writes the nodes of
contracts. -/
theorem contractWrites_incrementalReindex {R : Graph → Graph → Prop} (hR : ContractWrites P R)
    (hce : ce.FindOnly disk P)
    (hcache : CacheAll P (idx.rescanned ords disk s root).1.contractCache)
    (hdi : DIOnly P ords.graph
      ((idx.rescanned ords disk s root).2.graph.inferImplements ords.graph).1) :
    R ((idx.rescanned ords disk s root).2.graph.inferImplements ords.graph).1
      (idx.IncrementalReindex ce ords mods disk s root).2.1.graph := by
  unfold IncrementalReindex
  simp only
  split_ifs
  · exact hR.extractContracts hce ords hdi mods hcache
  · exact hR.refl _

/-- **An incremental index** replaces the nodes of the files that have changed. -/
theorem replaces_incrementalReindex (hr : idx.registry.Lawful) (hg : Weak s.graph)
    (hce : ce.FindOnly disk P) (hPC : ∀ c, P c → C c.id) (hcache : CacheAll P idx.contractCache)
    (hdi : DIOnly P ords.graph
      ((idx.rescanned ords disk s root).2.graph.inferImplements ords.graph).1) :
    Replaces C (idx.gonePaths ords disk root) (idx.Produces disk (GoPath.abs disk.cwd root)
      ((idx.atRoot disk root).staleFiles disk (GoPath.abs disk.cwd root))) s.graph
      (idx.IncrementalReindex ce ords mods disk s root).2.1.graph := by
  obtain ⟨hsame, hrep⟩ := @replaces_rescanned idx ords disk s root hr hg C
  have hcache' : CacheAll P (idx.rescanned ords disk s root).1.contractCache := by
    rw [hsame.contractCache]
    exact hcache
  exact hrep.keepsOff ((KeepsOff.of_quiet (Quiet.inferImplements ords.graph _)).trans
    (contractWrites_incrementalReindex (ContractWrites.keepsOff hPC) hce hcache' hdi))

end Indexer

end Gortex
