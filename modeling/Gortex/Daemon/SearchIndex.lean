import Gortex.Daemon.Warmup

/-!
# The search index beside the graph

The graph and the search index are two stores, and nothing ties them together but the
operations that write both. `Gortex.Store.Documented` says that every document of the
search index is that of a stored node.

Adding keeps this: nodes go to the graph first. Three evictions can break it. What evicts
one file removes the documents of its nodes, but passes over those of files and imports;
what `IncrementalReindex` evicts because it is deleted, and what `UntrackRepo` evicts, is
taken from the graph only. `Gortex.SearchCall.Suits` says that there is no document such an
eviction would leave behind, and under it the two stores stay together over every run
(`Gortex.MultiIndexer.documented_run`).
-/

namespace Gortex

open Graph GoString

/-! ### Documents of stored nodes -/

namespace Store

/-- **Every document is that of a stored node.** -/
def Documented (s : Store) : Prop :=
  ∀ id, (s.search.lookup id).isSome → (s.graph.nodeAt id).isSome

/-- The node is stored, and there is a document of its ID. -/
def Lists (s : Store) (n : Node) : Prop :=
  s.graph.nodeAt n.id = some n ∧ (s.search.lookup n.id).isSome

/-- No node of the path that has a document is one an eviction of the path passes over. -/
def Clean (s : Store) (graphPath : String) : Prop :=
  ∀ n, s.Lists n → n.filePath = graphPath → n.kind ≠ .kindFile ∧ n.kind ≠ .kindImport

/-- No such node has a document. -/
def Unlisted (s : Store) (p : Node → Prop) : Prop := ∀ n, s.Lists n → ¬p n

theorem documented_new : ({} : Store).Documented := fun id h => by
  rw [show ({} : Store).search.lookup id = none from rfl] at h
  cases h

end Store

namespace Graph

variable {g g' : Graph}

/-- **No ID gets lost**: what is stored before is stored after, or another node in its
place. -/
structure Grows (g g' : Graph) : Prop where
  weak : Weak g → Weak g'
  stored : Weak g → ∀ id, (g.nodeAt id).isSome → (g'.nodeAt id).isSome

theorem Grows.refl (g : Graph) : Grows g g := ⟨id, fun _ _ h => h⟩

theorem Grows.trans {g'' : Graph} (h : Grows g g') (h' : Grows g' g'') : Grows g g'' :=
  ⟨fun hg => h'.weak (h.weak hg), fun hg id hid => h'.stored (h.weak hg) id (h.stored hg id hid)⟩

theorem Grows.of_quiet (h : Quiet g g') : Grows g g' :=
  ⟨h.weak, fun _ id hid => by rwa [h.nodes.nodeAt id]⟩

theorem Grows.of_keepsOff (h : KeepsOff (fun _ => False) g g') : Grows g g' :=
  ⟨h.weak, fun hg id hid => by
    have hb := h.bareAt hg id (fun hc => hc)
    have hsome : ∀ g : Graph, (g.nodeAt id).isSome = (g.bareAt id).isSome := fun g => by
      rw [bareAt, Option.isSome_map]
    rw [hsome, hb, ← hsome]
    exact hid⟩

theorem Grows.putNode (g : Graph) (n : Node) : Grows g (g.putNode n) :=
  ⟨fun hg => hg.putNode n, fun hg id hid => by
    rw [hg.nodes.nodeAt_putNode]
    split
    · rfl
    · exact hid⟩

theorem Grows.foldl {α : Type} {f : Graph → α → Graph} {l : List α}
    (hf : ∀ g, ∀ a ∈ l, Grows g (f g a)) (g : Graph) : Grows g (l.foldl f g) :=
  List.foldl_invariant (P := Grows g) (fun g' a ha hg => hg.trans (hf g' a ha)) (Grows.refl g)

end Graph

theorem Store.Documented.grows {s : Store} {g' : Graph} (h : s.Documented) (hg : Weak s.graph)
    (hgrow : Grows s.graph g') : ({ s with graph := g' } : Store).Documented :=
  fun id hid => hgrow.stored hg id (h id hid)

namespace Indexer

variable {idx : Indexer} {ce : ContractExtractors} {ords : Orders} {mods : GoMap String String}
  {disk : Disk} {s : Store} {ord : MapOrder}

/-! ### The search index -/

/-- A document is there already, or that of one of the nodes. -/
theorem lookup_addToSearch {search : GoMap String SearchDoc} {nodes : List Node} {id : String}
    (h : ((idx.addToSearch search nodes).lookup id).isSome) :
    (search.lookup id).isSome ∨ ∃ n ∈ nodes, n.id = id := by
  revert h
  refine List.foldl_invariant
    (P := fun t : GoMap String SearchDoc =>
      (t.lookup id).isSome → (search.lookup id).isSome ∨ ∃ n ∈ nodes, n.id = id)
    (fun t n hn ht hid => ?_) Or.inl
  split at hid
  · rw [GoMap.lookup_insert] at hid
    split at hid
    · rename_i heq
      exact Or.inr ⟨n, hn, heq.symm⟩
    · exact ht hid
  · exact ht hid

/-- A document that an eviction leaves is none of a node it takes. -/
theorem lookup_evictPath {p id : String} (h : ((evictPath ord s p).search.lookup id).isSome) :
    (s.search.lookup id).isSome ∧ ∀ n ∈ (s.graph.getFileNodes p).map s.graph.node,
      n.kind ≠ .kindFile ∧ n.kind ≠ .kindImport → n.id ≠ id := by
  unfold evictPath at h
  simp only at h
  generalize (s.graph.getFileNodes p).map s.graph.node = nodes at h
  induction nodes using List.reverseRecOn with
  | nil => exact ⟨h, fun n hn => nomatch hn⟩
  | append_singleton nodes m ih =>
    rw [List.foldl_append, List.foldl_cons, List.foldl_nil] at h
    by_cases hm : m.kind ≠ .kindFile ∧ m.kind ≠ .kindImport
    · rw [if_pos hm, GoMap.lookup_erase] at h
      by_cases hid : id = m.id
      · rw [if_pos hid] at h
        cases h
      · rw [if_neg hid] at h
        obtain ⟨hs, hl⟩ := ih h
        refine ⟨hs, fun n hn hk => ?_⟩
        rcases List.mem_append.mp hn with hn | hn
        · exact hl n hn hk
        · rw [List.mem_singleton.mp hn]
          exact Ne.symm hid
    · rw [if_neg hm] at h
      obtain ⟨hs, hl⟩ := ih h
      refine ⟨hs, fun n hn hk => ?_⟩
      rcases List.mem_append.mp hn with hn | hn
      · exact hl n hn hk
      · rw [List.mem_singleton.mp hn] at hk
        exact absurd hk hm

theorem documented_buildSearchIndex (h : s.Documented) (hg : Weak s.graph) (ord : MapOrder) :
    (idx.buildSearchIndex ord s).Documented := by
  intro id hid
  rcases lookup_addToSearch hid with hid | ⟨n, hn, rfl⟩
  · exact h id hid
  · change (s.graph.nodeAt n.id).isSome
    rw [(hg.mem_allNodes ord).mp hn]
    rfl

/-! ### One file -/

/-- **Evicting a path** removes the documents of its nodes, if it passes over none. -/
theorem documented_evictPath (h : s.Documented) (hg : Weak s.graph) (ord : MapOrder) {p : String}
    (hclean : s.Clean p) : (evictPath ord s p).Documented := by
  intro id hid
  obtain ⟨hs, hl⟩ := lookup_evictPath hid
  obtain ⟨n, hn⟩ := Option.isSome_iff_exists.mp (h id hs)
  obtain rfl := hg.nodes.id_eq hn
  change ((Graph.evictFile ord s.graph p).graph.nodeAt n.id).isSome
  rw [hg.nodes.nodeAt_evictFile, hn]
  by_cases hp : n.filePath = p
  · -- the node goes, and it is not passed over: so did its document
    have hmem : n ∈ (s.graph.getFileNodes p).map s.graph.node := by
      obtain ⟨r, hr, rfl⟩ := nodeAt_eq_some.mp hn
      exact List.mem_map_of_mem (hg.nodes.mem_getFileNodes.mpr ⟨hg.nodes.storedNode hr, hp⟩)
    exact absurd rfl (hl n hmem (hclean n ⟨hn, hs⟩ hp))
  · rw [Option.filter, if_pos (by simp [hp])]
    rfl

theorem documented_addExtracted (h : s.Documented) (hg : Weak s.graph) (res : ExtractionResult) :
    (idx.addExtracted s res).Documented := by
  intro id hid
  change ((addResult s.graph res).nodeAt id).isSome
  rw [nodeAt_addResult hg.nodes]
  rcases lookup_addToSearch hid with hid | ⟨n, hn, rfl⟩
  · cases hres : res.nodeAt id with
    | some m => rfl
    | none => exact h id hid
  · cases hres : res.nodeAt n.id with
    | some m => rfl
    | none => exact absurd rfl (ExtractionResult.nodeAt_eq_none.mp hres n hn)

/-- The path in the graph of a file that is indexed. -/
def graphPathOf (idx : Indexer) (disk : Disk) (filePath : String) : String :=
  idx.prefixPath (idx.relPathOf filePath (GoPath.abs disk.cwd filePath))

/-- **Indexing a file** keeps the stores together, if its eviction does. -/
theorem documented_indexFile (h : s.Documented) (hg : Weak s.graph) (ord : MapOrder) {disk : Disk}
    {filePath : String} (resolve : Bool) (hclean : s.Clean (idx.graphPathOf disk filePath)) :
    (idx.indexFile ord disk s filePath resolve).2.1.Documented := by
  have hev := documented_evictPath h hg ord hclean
  have hweak := weak_evictPath hg ord (idx.graphPathOf disk filePath)
  unfold graphPathOf at hev hweak
  unfold indexFile
  simp only
  split
  · exact hev
  · exact hev
  · rename_i res _
    have hadd : (idx.addExtracted _ res).Documented := documented_addExtracted hev hweak res
    simp only
    split
    · exact hadd.grows (weak_addResult hweak res) (Grows.of_quiet (Quiet.resolveFile ord _ _))
    · exact hadd

/-- A node that has a document after a file is indexed, and lies in another path, had one
before. -/
theorem lists_of_indexFile (hr : idx.registry.Lawful) (hg : Weak s.graph) {filePath : String}
    {resolve : Bool} {n : Node} (h : (idx.indexFile ord disk s filePath resolve).2.1.Lists n)
    (hp : n.filePath ≠ idx.graphPathOf disk filePath) : s.Lists n := by
  obtain ⟨hn, hs⟩ := h
  rw [nodeAt_indexFile hg] at hn
  have hnone : idx.extractedAt disk (GoPath.abs disk.cwd filePath)
      (idx.relPathOf filePath (GoPath.abs disk.cwd filePath)) n.id = none := by
    rcases Option.or_eq_some_iff.mp hn with hx | ⟨hx, -⟩
    · exact absurd (filePath_of_extractedAt hr hx) hp
    · exact hx
  rw [hnone, Option.none_or] at hn
  refine ⟨(Option.filter_eq_some_iff.mp hn).1, ?_⟩
  unfold extractedAt at hnone
  unfold indexFile at hs
  simp only at hs
  rcases hx : idx.extractFile disk (GoPath.abs disk.cwd filePath)
    (idx.relPathOf filePath (GoPath.abs disk.cwd filePath)) with err | (- | res)
  · rw [hx] at hs
    exact (lookup_evictPath hs).1
  · rw [hx] at hs
    exact (lookup_evictPath hs).1
  · rw [hx] at hs hnone
    have hs' : ((idx.addToSearch (evictPath ord s (idx.prefixPath
        (idx.relPathOf filePath (GoPath.abs disk.cwd filePath)))).search res.nodes).lookup n.id).isSome
        := by
      cases resolve <;> exact hs
    rcases lookup_addToSearch hs' with hs' | ⟨m, hm, hid⟩
    · exact (lookup_evictPath hs').1
    · exact absurd hid (ExtractionResult.nodeAt_eq_none.mp hnone m hm)

/-! ### The contract passes -/

theorem grows_addResult (g : Graph) (res : ExtractionResult) : Grows g (addResult g res) :=
  (Grows.foldl (fun g n _ => Grows.putNode g n) g).trans
    (Grows.foldl (fun g e _ => Grows.of_quiet (Quiet.putEdge g e)) _)

theorem grows_parseFile (root : String) (p : Parsing) (path : String) :
    Grows p.graph (idx.parseFile ce disk root p path).graph := by
  unfold parseFile
  split
  · exact Grows.refl _
  · exact Grows.refl _
  · simp only
    split
    · exact grows_addResult _ _
    · exact grows_addResult _ _

theorem findOnly_true (ce : ContractExtractors) (disk : Disk) : ce.FindOnly disk fun _ => True := by
  constructor
  all_goals
    intros
  · trivial
  · trivial
  · trivial
  · exact fun _ _ _ _ _ => trivial

/-- All that a contract pass writes is added. -/
theorem contractWrites_grows : ContractWrites (fun _ => True) Grows where
  refl := Grows.refl
  trans := Grows.trans
  putEdge := fun g e _ => Grows.of_quiet (Quiet.putEdge g e)
  setShape := fun g r shape => Grows.of_keepsOff (KeepsOff.setShape g r shape)
  putNode := fun g _ _ => Grows.putNode g _

/-! ### Full index -/

/-- The store of a full index when its search index is built. -/
def searched (idx : Indexer) (ce : ContractExtractors) (ords : Orders) (disk : Disk) (s : Store)
    (root : String) : Store :=
  idx.buildSearchIndex ords.graph
    (resolveAll ords.graph { s with graph := (idx.parsed ce ords disk s root).graph })

/-- **A full index** keeps the stores together: it takes nothing from the graph. -/
theorem documented_indexCtx (h : s.Documented) (hg : Weak s.graph) (root : String) :
    (idx.IndexCtx ce ords mods disk s root).2.1.Documented ∧
      Weak (idx.IndexCtx ce ords mods disk s root).2.1.graph := by
  have hparsed : Grows s.graph (idx.parsed ce ords disk s root).graph :=
    List.foldl_invariant (P := fun p : Parsing => Grows s.graph p.graph)
      (fun p path _ hp => hp.trans (grows_parseFile _ p path)) (Grows.refl _)
  have hweak := hparsed.weak hg
  have hquiet := quiet_resolveAll ords.graph
    { s with graph := (idx.parsed ce ords disk s root).graph }
  have hres : (resolveAll ords.graph
      { s with graph := (idx.parsed ce ords disk s root).graph }).Documented :=
    (h.grows hg hparsed).grows hweak (Grows.of_quiet hquiet)
  have hbuilt : (idx.searched ce ords disk s root).Documented :=
    documented_buildSearchIndex hres (hquiet.weak hweak) ords.graph
  have hbweak : Weak (idx.searched ce ords disk s root).graph := hquiet.weak hweak
  have hgrow : Grows (idx.searched ce ords disk s root).graph
      (idx.IndexCtx ce ords mods disk s root).2.1.graph :=
    contractWrites_grows.commit_extractDI (findOnly_true ce disk) ords
      (fun _ _ _ _ => trivial) fun _ _ _ _ _ => trivial
  exact ⟨hbuilt.grows hbweak hgrow, hgrow.weak hbweak⟩

/-! ### Incremental index -/

theorem Alike.graphPathOf {idx' : Indexer} (h : Alike idx idx') (filePath : String) :
    idx'.graphPathOf disk filePath = idx.graphPathOf disk filePath := by
  rw [Indexer.graphPathOf, Indexer.graphPathOf, h.prefixPath, h.relPathOf]

/-- **Evicting the deleted files** keeps the stores together if none of their nodes has a
document. -/
theorem documented_evictDeleted (h : s.Documented) (hg : Weak s.graph) {deleted : List String}
    (hun : s.Unlisted fun n => n.filePath ∈ deleted.map idx.prefixPath) :
    (deleted.foldl (evictDeleted ord) (idx, s)).2.Documented ∧
      ∀ n, (deleted.foldl (evictDeleted ord) (idx, s)).2.Lists n → s.Lists n := by
  obtain ⟨-, -, hat⟩ := foldl_evictDeleted hg ord idx deleted
  have hsearch : (deleted.foldl (evictDeleted ord) (idx, s)).2.search = s.search :=
    List.foldl_frame (f := evictDeleted ord) (π := fun p : Indexer × Store => p.2.search)
      (fun _ _ => rfl) _ _
  constructor
  · intro id hid
    rw [hsearch] at hid
    obtain ⟨n, hn⟩ := Option.isSome_iff_exists.mp (h id hid)
    obtain rfl := hg.nodes.id_eq hn
    have hout : n.filePath ∉ deleted.map idx.prefixPath := hun n ⟨hn, hid⟩
    rw [hat, hn, Option.filter, if_pos (decide_eq_true hout)]
    rfl
  · rintro n ⟨hn, hid⟩
    rw [hsearch] at hid
    rw [hat] at hn
    exact ⟨(Option.filter_eq_some_iff.mp hn).1, hid⟩

/-- **Indexing the stale files** keeps the stores together, if evicting each of them does
at the start. -/
theorem documented_reindexStale (hr : idx.registry.Lawful) (h : s.Documented) (hg : Weak s.graph)
    {stale : List String} (hnodup : (stale.map (idx.graphPathOf disk)).Nodup)
    (hclean : ∀ path ∈ stale, s.Clean (idx.graphPathOf disk path)) :
    (stale.foldl (reindexStale disk ord) (idx, s)).2.Documented ∧
      Weak (stale.foldl (reindexStale disk ord) (idx, s)).2.graph ∧
      Alike idx (stale.foldl (reindexStale disk ord) (idx, s)).1 := by
  induction stale generalizing idx s with
  | nil => exact ⟨h, hg, Alike.refl idx⟩
  | cons path stale ih =>
    have halike := @alike_indexFile idx ord disk s path true
    have hpath : ∀ q, (idx.indexFile ord disk s path true).1.graphPathOf disk q =
        idx.graphPathOf disk q := halike.graphPathOf
    rw [List.map_cons, List.nodup_cons] at hnodup
    have hrest := @ih (idx.indexFile ord disk s path true).1
      (idx.indexFile ord disk s path true).2.1
      (by rw [halike.registry]; exact hr)
      (documented_indexFile h hg ord true (hclean path List.mem_cons_self))
      (weak_indexFile hg ord disk path true)
      (by rw [funext hpath]; exact hnodup.2)
      (fun q hq n hn hnq => by
        rw [hpath] at hnq
        -- the path of another file: the document was there at the start
        have hne : idx.graphPathOf disk q ≠ idx.graphPathOf disk path := fun hc =>
          hnodup.1 (hc ▸ List.mem_map_of_mem hq)
        exact hclean q (List.mem_cons_of_mem _ hq) n (lists_of_indexFile hr hg hn (hnq ▸ hne)) hnq)
    exact ⟨hrest.1, hrest.2.1, halike.trans hrest.2.2⟩

/-- The files of a walk have different paths in the graph. -/
theorem nodup_graphPathOf_staleFiles (idx : Indexer) (disk : Disk) (root : String)
    (hroot : idx.rootPath = root) :
    ((idx.staleFiles disk root).map (idx.graphPathOf disk)).Nodup := by
  have hwalk : ∀ {p}, p ∈ idx.staleFiles disk root → p ∈ idx.walkFiles disk root := fun hp =>
    List.mem_of_mem_filter hp
  have heq : ∀ {p}, p ∈ idx.staleFiles disk root →
      idx.graphPathOf disk p = idx.prefixPath (walkRel root p) := fun hp => by
    obtain ⟨⟨hclean, habs⟩, hunder⟩ := mem_walkFiles (hwalk hp)
    rw [graphPathOf, disk.abs_eq hclean habs, ← hroot,
      relPathOf_of_under (by rw [hroot]; exact hunder)]
  refine List.Nodup.map_on (fun p hp q hq hpq => ?_) (nodup_staleFiles idx disk root)
  rw [heq hp, heq hq] at hpq
  exact walkRel_inj (hwalk hp) (hwalk hq) (prefixPath_inj hpq)

/-- **What an incremental index must find**: no node of a deleted file has a document, and
the eviction of a stale file passes over none that has. -/
structure Undocumented (idx : Indexer) (ords : Orders) (disk : Disk) (s : Store) (root : String) :
    Prop where
  deleted : s.Unlisted fun n => n.filePath ∈
    ((idx.atRoot disk root).deletedFiles ords disk (GoPath.abs disk.cwd root)).map idx.prefixPath
  stale : ∀ path ∈ (idx.atRoot disk root).staleFiles disk (GoPath.abs disk.cwd root),
    s.Clean ((idx.atRoot disk root).graphPathOf disk path)

/-- **An incremental index** keeps the stores together if it finds no such document. -/
theorem documented_incrementalReindex (hr : idx.registry.Lawful) (h : s.Documented)
    (hg : Weak s.graph) {root : String} (hun : Undocumented idx ords disk s root) :
    (idx.IncrementalReindex ce ords mods disk s root).2.1.Documented ∧
      Weak (idx.IncrementalReindex ce ords mods disk s root).2.1.graph ∧
      (idx.IncrementalReindex ce ords mods disk s root).1.registry = idx.registry := by
  obtain ⟨hdoc, hlists⟩ := @documented_evictDeleted (idx.atRoot disk root) s ords.graph
    h hg _ hun.deleted
  obtain ⟨hsame, hweak, -⟩ := foldl_evictDeleted hg ords.graph (idx.atRoot disk root)
    ((idx.atRoot disk root).deletedFiles ords disk (GoPath.abs disk.cwd root))
  have hstale := @documented_reindexStale _ disk _ ords.graph
    (by rw [hsame.alike.registry]; exact hr) hdoc hweak
    ((idx.atRoot disk root).staleFiles disk (GoPath.abs disk.cwd root))
    (by
      simp only [funext hsame.alike.graphPathOf]
      exact nodup_graphPathOf_staleFiles _ _ _ rfl)
    (fun path hpath n hn hnp => by
      rw [hsame.alike.graphPathOf] at hnp
      exact hun.stale path hpath n (hlists n hn) hnp)
  change (idx.rescanned ords disk s root).2.Documented ∧
    Weak (idx.rescanned ords disk s root).2.graph ∧
    Alike _ (idx.rescanned ords disk s root).1 at hstale
  obtain ⟨hdoc', hweak', halike⟩ := hstale
  have hquiet := Quiet.inferImplements ords.graph (idx.rescanned ords disk s root).2.graph
  have hinf := hdoc'.grows hweak' (Grows.of_quiet hquiet)
  have hbuilt : ((idx.rescanned ords disk s root).1.buildSearchIndex ords.graph _).Documented :=
    documented_buildSearchIndex hinf (hquiet.weak hweak') ords.graph
  have hreg : (idx.rescanned ords disk s root).1.registry = idx.registry :=
    halike.registry.trans hsame.alike.registry
  unfold IncrementalReindex
  simp only
  split_ifs
  · have hgrow : Grows ((idx.rescanned ords disk s root).2.graph.inferImplements ords.graph).1
        ((idx.rescanned ords disk s root).1.extractContracts ce ords mods disk
          ((idx.rescanned ords disk s root).2.graph.inferImplements ords.graph).1).2 :=
      contractWrites_grows.extractContracts (findOnly_true ce disk) ords
        (fun _ _ _ _ => trivial) mods fun _ _ _ _ _ => trivial
    exact ⟨hbuilt.grows (hquiet.weak hweak') hgrow, hgrow.weak (hquiet.weak hweak'), hreg⟩
  · exact ⟨hbuilt, hquiet.weak hweak', hreg⟩

end Indexer

/-! ### Operations -/

/-- A call that writes the graph. A repository is named by its prefix. -/
inductive SearchCall
  /-- `IndexCtx` by the indexer of the repository, or by a new one that gives its paths the
  prefix or does not. -/
  | indexCtx (repo root : String) (new : Option Bool)
  | indexFile (repo filePath : String)
  | indexFileNoResolve (repo filePath : String)
  | evictFile (repo filePath : String)
  | incrementalReindex (repo root : String)
  | untrackRepo (repo : String)

/-- A call with the disk it finds, and the modules the tracked repositories declare. -/
structure SearchOp where
  disk : Disk
  mods : GoMap String String := ∅
  call : SearchCall

namespace MultiIndexer

variable (mi : MultiIndexer) (env : RepoEnv)

/-- Let the indexer of a repository work on the store. -/
def withIndexer (repo : String) (f : Indexer → Store → Indexer × Store) : MultiIndexer :=
  match mi.indexers.lookup repo with
  | none => mi
  | some idx =>
    { mi with store := (f idx mi.store).2, indexers := mi.indexers.insert repo (f idx mi.store).1 }

/-- The indexer of a full index, if there is one. -/
def indexerOf (repo : String) : Option Bool → Option Indexer
  | none => mi.indexers.lookup repo
  | some multi => some (mi.newIndexer env repo multi)

/-- Make one call. -/
def call (op : SearchOp) : MultiIndexer :=
  match op.call with
  | .indexCtx repo root new =>
    match mi.indexerOf env repo new with
    | none => mi
    | some idx =>
      let r := idx.IndexCtx env.extractors env.ords op.mods op.disk mi.store root
      mi.registerRepo repo (GoPath.abs op.disk.cwd root) r.1 r.2.1
  | .indexFile repo filePath => mi.withIndexer repo fun idx s =>
    ((idx.IndexFile env.ords.graph op.disk s filePath).1,
      (idx.IndexFile env.ords.graph op.disk s filePath).2.1)
  | .indexFileNoResolve repo filePath => mi.withIndexer repo fun idx s =>
    ((idx.IndexFileNoResolve env.ords.graph op.disk s filePath).1,
      (idx.IndexFileNoResolve env.ords.graph op.disk s filePath).2.1)
  | .evictFile repo filePath => mi.withIndexer repo fun idx s =>
    (idx, idx.evictFile env.ords.graph s filePath)
  | .incrementalReindex repo root => mi.withIndexer repo fun idx s =>
    ((idx.IncrementalReindex env.extractors env.ords op.mods op.disk s root).1,
      (idx.IncrementalReindex env.extractors env.ords op.mods op.disk s root).2.1)
  | .untrackRepo repo => (mi.UntrackRepo env op.disk repo).1

/-- Make calls one after the other. -/
def calls (ops : List SearchOp) : MultiIndexer := ops.foldl (fun mi op => mi.call env op) mi

/-- **The call leaves no document behind**: what it evicts has none, or it removes them. -/
def Suits (op : SearchOp) : Prop :=
  match op.call with
  | .indexCtx _ _ _ => True
  | .indexFile repo filePath | .indexFileNoResolve repo filePath =>
    ∀ idx, mi.indexers.lookup repo = some idx → mi.store.Clean (idx.graphPathOf op.disk filePath)
  | .evictFile repo filePath => ∀ idx, mi.indexers.lookup repo = some idx →
    mi.store.Clean (idx.prefixPath (idx.relPathOf filePath filePath))
  | .incrementalReindex repo root => ∀ idx, mi.indexers.lookup repo = some idx →
    idx.Undocumented env.ords op.disk mi.store root
  | .untrackRepo repo => mi.store.Unlisted fun n => repo ≠ "" ∧ n.repoPrefix = repo

/-! ### Runs -/

/-- **What a call keeps**: the two stores together, the tables of the graph right, and one
registry of extractors for all indexers. -/
structure Together (registry : Registry) (mi : MultiIndexer) : Prop where
  documented : mi.store.Documented
  weak : Weak mi.store.graph
  registry_eq : mi.registry = registry
  indexers : ∀ repo idx, mi.indexers.lookup repo = some idx → idx.registry = registry

variable {mi env} {registry : Registry}

theorem Together.withIndexer (h : mi.Together registry) {repo : String}
    {f : Indexer → Store → Indexer × Store}
    (hf : ∀ idx, mi.indexers.lookup repo = some idx → (f idx mi.store).2.Documented ∧
      Weak (f idx mi.store).2.graph ∧ (f idx mi.store).1.registry = idx.registry) :
    (mi.withIndexer repo f).Together registry := by
  unfold MultiIndexer.withIndexer
  split
  · exact h
  · rename_i idx hidx
    obtain ⟨hdoc, hweak, hreg⟩ := hf idx hidx
    refine ⟨hdoc, hweak, h.registry_eq, fun repo' idx' h' => ?_⟩
    change (mi.indexers.insert _ _).lookup repo' = _ at h'
    rw [GoMap.lookup_insert] at h'
    split at h'
    · rw [← Option.some.inj h', hreg]
      exact h.indexers repo idx hidx
    · exact h.indexers repo' idx' h'

/-- Linking contracts changes no indexer but for its contracts. -/
theorem registry_keepInlined {indexers : GoMap String Indexer}
    (h : ∀ repo idx, indexers.lookup repo = some idx → idx.registry = registry) (c : Contract) :
    ∀ repo idx, (keepInlined indexers c).lookup repo = some idx → idx.registry = registry := by
  unfold keepInlined
  split
  · exact h
  · rename_i old hold
    split
    · exact h
    · split
      · exact h
      · intro repo idx hidx
        rw [GoMap.lookup_insert] at hidx
        split at hidx
        · rw [← Option.some.inj hidx]
          exact h _ old hold
        · exact h repo idx hidx

theorem Together.reconcileContractEdges (h : mi.Together registry) (disk : Disk) :
    (mi.reconcileContractEdges env disk).Together registry where
  documented := h.documented.grows h.weak (Grows.of_quiet (quiet_reconcileContractEdges mi env disk))
  weak := (quiet_reconcileContractEdges mi env disk).weak h.weak
  registry_eq := h.registry_eq
  indexers := List.foldl_invariant
    (P := fun t : GoMap String Indexer => ∀ repo idx, t.lookup repo = some idx → idx.registry = registry)
    (fun _ c _ ht => registry_keepInlined ht c) h.indexers

/-- **Untracking** keeps the stores together if no node of the repository has a document. -/
theorem Together.untrackRepo (h : mi.Together registry) (disk : Disk) {repo : String}
    (hun : mi.store.Unlisted fun n => repo ≠ "" ∧ n.repoPrefix = repo) :
    (mi.UntrackRepo env disk repo).1.Together registry := by
  unfold UntrackRepo
  split
  · exact h
  · rename_i info _
    have hevicted : Together registry
        { mi with
          store := { mi.store with graph := (Graph.evictRepo env.ords.graph mi.store.graph repo).graph }
          repos := mi.repos.erase repo
          indexers := mi.indexers.erase repo
          configRepos := if info.rootPath ≠ "" then removeRepo disk.cwd mi.configRepos info.rootPath
            else mi.configRepos } := by
      refine ⟨fun id hid => ?_, h.weak.evictRepo _ _, h.registry_eq, fun repo' idx hidx => ?_⟩
      · obtain ⟨n, hn⟩ := Option.isSome_iff_exists.mp (h.documented id hid)
        obtain rfl := h.weak.nodes.id_eq hn
        have hout : ¬(repo ≠ "" ∧ n.repoPrefix = repo) := hun n ⟨hn, hid⟩
        rw [h.weak.nodes.nodeAt_evictRepo_eq, hn, Option.filter, if_pos (decide_eq_true hout)]
        rfl
      · rw [GoMap.lookup_erase] at hidx
        split at hidx
        · cases hidx
        · exact h.indexers repo' idx hidx
    exact hevicted.reconcileContractEdges disk

/-- **One call** keeps what holds of the stores, if it leaves no document behind. -/
theorem Together.call (hr : registry.Lawful) (h : mi.Together registry) {op : SearchOp}
    (hop : mi.Suits env op) : (mi.call env op).Together registry := by
  unfold Suits at hop
  unfold MultiIndexer.call
  -- every call keeps the search index and the graph in step, and the parsers as they are
  cases hcall : op.call with
  | indexCtx repo root new =>
    simp only
    cases hidx : mi.indexerOf env repo new with
    | none => exact h
    | some idx =>
      have hreg : idx.registry = registry := by
        cases new with
        | none => exact h.indexers repo idx hidx
        | some multi =>
          rw [← Option.some.inj hidx]
          exact h.registry_eq
      obtain ⟨hdoc, hweak⟩ := @Indexer.documented_indexCtx idx env.extractors env.ords op.mods
        op.disk mi.store h.documented h.weak root
      refine ⟨hdoc, hweak, h.registry_eq, fun repo' idx' h' => ?_⟩
      change (mi.indexers.insert _ _).lookup repo' = _ at h'
      rw [GoMap.lookup_insert] at h'
      split at h'
      · rw [← Option.some.inj h', ← hreg]
        rfl
      · exact h.indexers repo' idx' h'
  | indexFile repo filePath =>
    rw [hcall] at hop
    exact h.withIndexer fun idx hidx =>
      ⟨Indexer.documented_indexFile h.documented h.weak _ true (hop idx hidx),
        Indexer.weak_indexFile h.weak _ _ _ _, (Indexer.alike_indexFile _ _ _ _ _).registry⟩
  | indexFileNoResolve repo filePath =>
    rw [hcall] at hop
    exact h.withIndexer fun idx hidx =>
      ⟨Indexer.documented_indexFile h.documented h.weak _ false (hop idx hidx),
        Indexer.weak_indexFile h.weak _ _ _ _, (Indexer.alike_indexFile _ _ _ _ _).registry⟩
  | evictFile repo filePath =>
    rw [hcall] at hop
    exact h.withIndexer fun idx hidx =>
      ⟨Indexer.documented_evictPath h.documented h.weak _ (hop idx hidx),
        Indexer.weak_evictPath h.weak _ _, rfl⟩
  | incrementalReindex repo root =>
    rw [hcall] at hop
    exact h.withIndexer fun idx hidx =>
      Indexer.documented_incrementalReindex (by rw [h.indexers repo idx hidx]; exact hr)
        h.documented h.weak (hop idx hidx)
  | untrackRepo repo =>
    rw [hcall] at hop
    exact h.untrackRepo op.disk hop

/-- A multi-indexer that has indexed nothing keeps its stores together. -/
theorem together_new (registry : Registry) (configRepos : List RepoEntry) :
    ({ registry := registry, configRepos := configRepos } : MultiIndexer).Together registry :=
  ⟨Store.documented_new, Weak.new, rfl, fun _ _ h => nomatch h⟩

/-- **The search index over a run**: if no call of the run leaves a document behind, every
document is that of a stored node after each of them. -/
theorem documented_run (env : RepoEnv) (registry : Registry) (hr : registry.Lawful)
    (configRepos : List RepoEntry) (ops : List SearchOp)
    (h : ∀ before op after, ops = before ++ op :: after →
      (calls { registry := registry, configRepos := configRepos } env before).Suits env op) :
    ∀ before after, ops = before ++ after →
      (calls { registry := registry, configRepos := configRepos } env before).store.Documented := by
  have htogether : ∀ before after, ops = before ++ after →
      (calls { registry := registry, configRepos := configRepos } env before).Together registry := by
    intro before
    induction before using List.reverseRecOn with
    | nil => exact fun _ _ => together_new registry configRepos
    | append_singleton before op ih =>
      intro after hops
      rw [List.append_assoc, List.singleton_append] at hops
      have hcalls : calls { registry := registry, configRepos := configRepos } env (before ++ [op]) =
          (calls { registry := registry, configRepos := configRepos } env before).call env op := by
        rw [calls, List.foldl_append]
        rfl
      rw [hcalls]
      exact (ih _ hops).call hr (h before op after hops)
  exact fun before after hops => (htogether before after hops).documented

end MultiIndexer

/-! ### Two repositories -/

namespace TwoRepos

open MultiIndexer

theorem isClean_bareDisk : ∀ p ∈ (∅ : GoMap String DiskFile).keys,
    GoPath.IsClean p ∧ GoPath.isAbs p = true := by
  intro p hp
  cases hp

/-- The disk when the two files are gone. -/
def bareDisk : Disk where
  files := ∅
  cwd := "/w"
  dirs := ["/w/a", "/w/b"]
  isClean := isClean_bareDisk

/-- The first repository is indexed, with its prefix. -/
def indexed : List SearchOp := [{ disk := disk, call := .indexCtx "a" "/w/a" (some true) }]

/-- Its file is evicted as a watcher does it. -/
def evicted : List SearchOp := indexed ++ [{ disk := disk, call := .evictFile "a" "/w/a/x.go" }]

/-- Its file is deleted, and an incremental index finds that. -/
def deleted : List SearchOp := indexed ++ [{ disk := bareDisk, call := .incrementalReindex "a" "/w/a" }]

/-- It is untracked. -/
def untracked : List SearchOp := indexed ++ [{ disk := disk, call := .untrackRepo "a" }]

/-- The store after a run. -/
def storeAfter (ops : List SearchOp) : Store :=
  (calls { registry := Watcher.sizeIndexer.registry, configRepos := [repoA, repoB] } env ops).store

/-- **Deleting a file and untracking its repository** both leave the document of its
function. -/
theorem not_documented_deleted :
    ¬(storeAfter deleted).Documented ∧ ¬(storeAfter untracked).Documented := by
  have hghost : ∀ {s : Store}, (s.search.lookup "a/x.go::Old").isSome = true →
      (s.graph.nodeAt "a/x.go::Old").isSome = false → ¬s.Documented := fun hdoc hnode h => by
    have hsome := h _ hdoc
    rw [hnode] at hsome
    cases hsome
  exact ⟨hghost (by decide +kernel) (by decide +kernel),
    hghost (by decide +kernel) (by decide +kernel)⟩

/-- Evicting the file alone leaves none. -/
theorem documented_evicted : (storeAfter evicted).Documented := by
  refine documented_run env Watcher.sizeIndexer.registry Watcher.sizeIndexer_lawful [repoA, repoB]
    evicted (fun before op after hops => ?_) evicted [] (List.append_nil _).symm
  cases before with
  | nil =>
    obtain ⟨rfl, -⟩ := List.cons.inj hops
    exact trivial
  | cons op₁ before =>
    obtain ⟨rfl, hrest⟩ := List.cons.inj hops
    cases before with
    | cons op₂ before => simp at hrest
    | nil =>
      obtain ⟨rfl, -⟩ := List.cons.inj hrest
      intro idx _ n hn _
      -- the nodes stored are all functions
      have hweak : Weak (storeAfter indexed).graph :=
        ((together_new Watcher.sizeIndexer.registry [repoA, repoB]).call Watcher.sizeIndexer_lawful
          (show Suits _ env { disk := disk, call := .indexCtx "a" "/w/a" (some true) } from trivial)).weak
      have hall : ∀ m ∈ ((storeAfter indexed).graph.allNodes GoMap.RangeOrder.default).map
          (storeAfter indexed).graph.node, m.kind ≠ .kindFile ∧ m.kind ≠ .kindImport := by
        decide +kernel
      exact hall n ((hweak.mem_allNodes GoMap.RangeOrder.default).mpr hn.1)

end TwoRepos

end Gortex
