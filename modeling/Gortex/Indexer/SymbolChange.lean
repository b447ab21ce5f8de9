import Gortex.Indexer.Convergence

/-!
# The report of a patch

Who asks the watcher for changes of symbols is called after a patch with two lists: the symbols
of the file before, as copies that keep the signature, and the nodes of the file after. The
watcher looks them up under the path of the file relative to the root. The patch itself writes
the graph under that path with the prefix of the repository, and a file that is created need
not be new to the graph.

The lists hold the symbols of the file before and after the patch exactly if the two paths are
one, or there are no symbols to be told, and a file that is created had none
(`Gortex.Indexer.symbolChange_right_iff`).
-/

namespace Gortex

open Graph

/-! ### Symbols of a file -/

namespace Node

/-- A symbol of the code: neither a file nor an import. -/
def isSymbol (n : Node) : Bool := n.kind ≠ .kindFile ∧ n.kind ≠ .kindImport

/-- The copy of a symbol that is kept over a patch. -/
def snapshot (n : Node) : Node where
  id := n.id
  kind := n.kind
  name := n.name
  qualName := n.qualName
  filePath := n.filePath
  metadata :=
    match n.metadata.lookup "signature" with
    | some sig => (∅ : Metadata).insert "signature" sig
    | none => ∅

end Node

namespace Graph

/-- The nodes of a file. -/
def fileNodesAt (g : Graph) (filePath : String) : List Node := (g.getFileNodes filePath).map g.node

/-- The symbols of a file. -/
def fileSymbols (g : Graph) (filePath : String) : List Node :=
  (g.fileNodesAt filePath).filter Node.isSymbol

/-- **snapshotSymbols** copies the symbols of a file. -/
def snapshotSymbols (g : Graph) (relPath : String) : List Node :=
  (g.fileSymbols relPath).map Node.snapshot

end Graph

/-! ### The callback -/

/-- What the callback is called with. -/
structure SymbolChange where
  filePath : String
  oldSymbols : List Node
  newSymbols : List Node

namespace Indexer

variable (idx : Indexer) (ord : MapOrder) (disk : Disk) (s : Store)

/-- The path under which the watcher looks for the symbols of a file. -/
def snapshotPath (path : String) : String :=
  if idx.rootPath ≠ "" then idx.relPathOf path path else path

/-- **patchGraph**, as far as it calls the callback: not for a file that it cannot index. -/
def symbolChange (path : String) (kind : ChangeKind) : Option SymbolChange :=
  let relPath := idx.snapshotPath path
  match kind with
  | .created =>
    let r := idx.IndexFile ord disk s path
    if r.2.2.isSome then none else some ⟨relPath, [], r.2.1.graph.fileNodesAt relPath⟩
  | .modified =>
    let oldSymbols := s.graph.snapshotSymbols relPath
    let r := idx.IndexFile ord disk (idx.evictFile ord s path) path
    if r.2.2.isSome then none else some ⟨relPath, oldSymbols, r.2.1.graph.fileNodesAt relPath⟩
  | .deleted | .renamed => some ⟨relPath, s.graph.snapshotSymbols relPath, []⟩

end Indexer

/-- **The report is right** about the file of a path: it has the symbols of the first graph as
copies, and those of the second. The new list has the file and its imports as well, which
who is called leaves out. -/
structure SymbolChange.Right (c : SymbolChange) (g g' : Graph) (graphPath : String) : Prop where
  old : c.oldSymbols = g.snapshotSymbols graphPath
  new : c.newSymbols.filter Node.isSymbol = g'.fileSymbols graphPath

/-! ### What there is to be told -/

/-- There is no symbol among the nodes. -/
def SymbolFree (nodes : Set Node) : Prop := ∀ n ∈ nodes, ¬n.isSymbol = true

namespace Graph

variable {g g' : Graph}

theorem NodeInv.mem_fileNodesAt (h : NodeInv g) {filePath : String} {n : Node} :
    n ∈ g.fileNodesAt filePath ↔ n ∈ g.nodesIn filePath := by
  unfold fileNodesAt
  rw [List.mem_map]
  constructor
  · rintro ⟨r, hr, rfl⟩
    obtain ⟨hst, hf⟩ := h.mem_getFileNodes.mp hr
    exact ⟨hst.nodeAt, hf⟩
  · rintro ⟨hn, hf⟩
    obtain ⟨r, hr, rfl⟩ := nodeAt_eq_some.mp hn
    exact ⟨r, h.mem_getFileNodes.mpr ⟨h.storedNode hr, hf⟩, rfl⟩

theorem NodeInv.fileSymbols_eq_nil (h : NodeInv g) {filePath : String} :
    g.fileSymbols filePath = [] ↔ SymbolFree (g.nodesIn filePath) := by
  unfold fileSymbols
  rw [List.filter_eq_nil_iff]
  exact forall_congr' fun n => imp_congr_left h.mem_fileNodesAt

/-- The copies tell the file. -/
theorem NodeInv.filePath_of_mem_snapshotSymbols (h : NodeInv g) {filePath : String} {n : Node}
    (hn : n ∈ g.snapshotSymbols filePath) : n.filePath = filePath := by
  obtain ⟨m, hm, rfl⟩ := List.mem_map.mp hn
  exact (h.mem_fileNodesAt.mp (List.mem_filter.mp hm).1).2

theorem NodeInv.filePath_of_mem_fileSymbols (h : NodeInv g) {filePath : String} {n : Node}
    (hn : n ∈ g.fileSymbols filePath) : n.filePath = filePath :=
  (h.mem_fileNodesAt.mp (List.mem_filter.mp hn).1).2

end Graph

/-- Two lists of nodes of different files are the same only if both are empty. -/
theorem eq_iff_of_filePath_ne {l l' : List Node} {p p' : String} (hne : p ≠ p')
    (hl : ∀ n ∈ l, n.filePath = p) (hl' : ∀ n ∈ l', n.filePath = p') :
    l = l' ↔ l = [] ∧ l' = [] := by
  constructor
  · rintro rfl
    have hnil : l = [] := List.eq_nil_iff_forall_not_mem.mpr fun n hn =>
      hne ((hl n hn).symm.trans (hl' n hn))
    exact ⟨hnil, hnil⟩
  · rintro ⟨rfl, rfl⟩
    rfl

namespace Graph

variable {g : Graph}

/-- **The symbols of two paths are the same** only if the paths are, or neither has any. -/
theorem NodeInv.fileSymbols_eq_iff (h : NodeInv g) {p p' : String} :
    g.fileSymbols p = g.fileSymbols p' ↔
      (p ≠ p' → SymbolFree (g.nodesIn p') ∧ SymbolFree (g.nodesIn p)) := by
  rw [← h.fileSymbols_eq_nil, ← h.fileSymbols_eq_nil]
  by_cases hp : p = p'
  · rw [hp]
    exact iff_of_true rfl fun hc => absurd rfl hc
  · rw [eq_iff_of_filePath_ne hp (fun n => h.filePath_of_mem_fileSymbols)
      fun n => h.filePath_of_mem_fileSymbols]
    exact ⟨fun hn _ => hn.symm, fun hn => (hn hp).symm⟩

/-- The copies are the same only if the symbols are. -/
theorem NodeInv.snapshotSymbols_eq_iff (h : NodeInv g) {p p' : String} :
    g.snapshotSymbols p = g.snapshotSymbols p' ↔
      (p ≠ p' → SymbolFree (g.nodesIn p') ∧ SymbolFree (g.nodesIn p)) := by
  rw [← h.fileSymbols_eq_nil, ← h.fileSymbols_eq_nil]
  by_cases hp : p = p'
  · rw [hp]
    exact iff_of_true rfl fun hc => absurd rfl hc
  · rw [eq_iff_of_filePath_ne hp (fun n => h.filePath_of_mem_snapshotSymbols)
      fun n => h.filePath_of_mem_snapshotSymbols, snapshotSymbols, snapshotSymbols,
      List.map_eq_nil_iff, List.map_eq_nil_iff]
    exact ⟨fun hn _ => hn.symm, fun hn => (hn hp).symm⟩

end Graph

/-! ### What a patch leaves -/

namespace Indexer

variable {idx : Indexer} {disk : Disk} {s : Store} {root : String}

/-- What the file is extracted to: nothing if no extractor is registered for it. -/
def extraction (idx : Indexer) (disk : Disk) (path : TreePath root) :
    Except String ExtractionResult :=
  (idx.extractFile disk path (idx.relPathOf path path)).map fun res => res.getD ⟨[], []⟩

/-- **The nodes of a path after the file of `graphPath` is replaced** by what was extracted. -/
def replacedNodes (g : Graph) (graphPath : String) (res : ExtractionResult) (p : String) :
    Set Node :=
  {n | n.filePath = p ∧ (res.nodeAt n.id = some n ∨
    (res.nodeAt n.id = none ∧ p ≠ graphPath ∧ g.nodeAt n.id = some n))}

/-- **Indexing a file replaces its nodes**, unless it cannot be read or parsed. -/
theorem indexFile_cases (idx : Indexer) (disk : Disk) (h : Weak s.graph) (ord : MapOrder) (path : TreePath root)
    (resolve : Bool) :
    (∃ err, idx.extraction disk path = .error err ∧
      (idx.indexFile ord disk s path resolve).2.2 = some err) ∨
    ∃ res, idx.extraction disk path = .ok res ∧ (idx.indexFile ord disk s path resolve).2.2 = none ∧
      NodeInv (idx.indexFile ord disk s path resolve).2.1.graph ∧
      ∀ p, (idx.indexFile ord disk s path resolve).2.1.graph.nodesIn p =
        replacedNodes s.graph (idx.treePath path) res p := by
  have habs : GoPath.abs disk.cwd path = path.1 := disk.abs_eq path.2.1 path.2.2.1
  have hevict : Weak (evictPath ord s (idx.treePath path)).graph := weak_evictPath h ord _
  -- the nodes left by the eviction, by the ID
  have hat : ∀ n, (evictPath ord s (idx.treePath path)).graph.nodeAt n.id = some n ↔
      n.filePath ≠ idx.treePath path ∧ s.graph.nodeAt n.id = some n := fun n => by
    rw [evictPath, h.nodes.nodeAt_evictFile ord, Option.filter_eq_some_iff, and_comm]
    exact and_congr_left fun _ => by simp
  have hset : ∀ {g' : Graph} {res : ExtractionResult}, (∀ id, g'.nodeAt id =
      (res.nodeAt id).or ((evictPath ord s (idx.treePath path)).graph.nodeAt id)) →
        ∀ p, g'.nodesIn p = replacedNodes s.graph (idx.treePath path) res p := by
    intro g' res hg' p
    ext n
    refine and_comm.trans (and_congr_right fun hp => ?_)
    rw [hg', Option.or_eq_some_iff, hat, hp]
  unfold indexFile extraction
  simp only [habs]
  cases hext : idx.extractFile disk path (idx.relPathOf path path) with
  | error err => exact Or.inl ⟨err, rfl, rfl⟩
  | ok o =>
    refine Or.inr ⟨o.getD ⟨[], []⟩, rfl, ?_⟩
    cases o with
    | none => exact ⟨rfl, hevict.nodes, hset fun _ => rfl⟩
    | some res =>
      have hadd : Quiet (idx.addExtracted (evictPath ord s (idx.treePath path)) res).graph
          (if resolve then
            { idx.addExtracted (evictPath ord s (idx.treePath path)) res with
              graph := ((idx.addExtracted (evictPath ord s (idx.treePath path))
                res).graph.resolveFile ord (idx.treePath path)).1 }
          else idx.addExtracted (evictPath ord s (idx.treePath path)) res).graph := by
        split
        · exact Quiet.resolveFile ord _ _
        · exact Quiet.refl _
      refine ⟨rfl, (hadd.weak (weak_addResult hevict res)).nodes, hset fun id => ?_⟩
      exact (hadd.nodes.nodeAt id).trans (nodeAt_addResult hevict.nodes res id)

/-- Evicting the file first changes nothing. -/
theorem replacedNodes_evictFile (h : Weak s.graph) (ord : MapOrder) (path : TreePath root)
    (res : ExtractionResult) (p : String) :
    replacedNodes (idx.evictFile ord s path).graph (idx.treePath path) res p =
      replacedNodes s.graph (idx.treePath path) res p := by
  ext n
  refine and_congr_right fun hp => or_congr_right (and_congr_right fun _ =>
    and_congr_right fun hne => ?_)
  rw [show idx.evictFile ord s path = evictPath ord s (idx.treePath path) from rfl, evictPath,
    h.nodes.nodeAt_evictFile ord, Option.filter_eq_some_iff]
  refine and_iff_left ?_
  simpa [hp] using hne

/-! ### When the report is right -/

/-- **The report shows the change**, by what is stored and what is extracted: a file that is
created had no symbols; and if the repository has a prefix, there are no symbols under the path
that the file has in the graph, nor under the one without the prefix, before or after. -/
def ShowsChange (idx : Indexer) (disk : Disk) (g : Graph) (path : TreePath root) : ChangeKind → Prop
  | .created => ∀ res, idx.extraction disk path = .ok res →
      SymbolFree (g.nodesIn (idx.treePath path)) ∧
        (idx.repoPrefix ≠ "" →
          SymbolFree (replacedNodes g (idx.treePath path) res (idx.treePath path)) ∧
          SymbolFree (replacedNodes g (idx.treePath path) res (idx.relPathOf path path)))
  | .modified => ∀ res, idx.extraction disk path = .ok res → idx.repoPrefix ≠ "" →
      (SymbolFree (g.nodesIn (idx.treePath path)) ∧
        SymbolFree (g.nodesIn (idx.relPathOf path path))) ∧
      SymbolFree (replacedNodes g (idx.treePath path) res (idx.treePath path)) ∧
        SymbolFree (replacedNodes g (idx.treePath path) res (idx.relPathOf path path))
  | .deleted | .renamed => idx.repoPrefix ≠ "" →
      SymbolFree (g.nodesIn (idx.treePath path)) ∧
        SymbolFree (g.nodesIn (idx.relPathOf path path))

/-- The watcher looks under the path relative to the root. -/
theorem snapshotPath_eq (path : TreePath root) :
    idx.snapshotPath path = idx.relPathOf path path := by
  unfold snapshotPath
  by_cases hroot : idx.rootPath ≠ ""
  · rw [if_pos hroot]
  · rw [if_neg hroot, relPathOf, not_not.mp hroot, GoPath.rel_empty_of_isAbs path.2.2.1]

/-- Without a prefix the two paths are one, and with one they are not. -/
theorem relPathOf_ne_treePath (path : TreePath root) :
    idx.relPathOf path path ≠ idx.treePath path ↔ idx.repoPrefix ≠ "" := by
  unfold treePath prefixPath
  by_cases hp : idx.repoPrefix = ""
  · rw [if_pos hp]
    exact iff_of_false (fun hc => hc rfl) (fun hc => hc hp)
  · rw [if_neg hp]
    refine iff_of_true (fun hc => ?_) hp
    have hlen := congrArg String.length hc
    rw [String.length_append, String.length_append] at hlen
    have hslash : "/".length = 1 := rfl
    omega

/-- The report of a file that was indexed. -/
theorem right_iff_of_indexed {g g' : Graph} (hinv : NodeInv g') (path : TreePath root)
    {res : ExtractionResult} (oldSymbols : List Node)
    (hnodes : ∀ p, g'.nodesIn p = replacedNodes g (idx.treePath path) res p) :
    SymbolChange.Right
        ⟨idx.relPathOf path path, oldSymbols, g'.fileNodesAt (idx.relPathOf path path)⟩ g g'
        (idx.treePath path) ↔
      oldSymbols = g.snapshotSymbols (idx.treePath path) ∧ (idx.repoPrefix ≠ "" →
        SymbolFree (replacedNodes g (idx.treePath path) res (idx.treePath path)) ∧
          SymbolFree (replacedNodes g (idx.treePath path) res (idx.relPathOf path path))) := by
  rw [← hnodes, ← hnodes, ← relPathOf_ne_treePath path, ← hinv.fileSymbols_eq_iff]
  exact ⟨fun h => ⟨h.old, h.new⟩, fun h => ⟨h.1, h.2⟩⟩

/-- The report of a file that is gone. -/
theorem right_iff_of_evicted (g : Graph) {g' : Graph} (hinv : NodeInv g') (path : TreePath root)
    (oldSymbols : List Node) (hnodes : g'.nodesIn (idx.treePath path) = ∅) :
    SymbolChange.Right ⟨idx.relPathOf path path, oldSymbols, []⟩ g g' (idx.treePath path) ↔
      oldSymbols = g.snapshotSymbols (idx.treePath path) := by
  refine ⟨fun h => h.old, fun h => ⟨h, (hinv.fileSymbols_eq_nil.mpr ?_).symm⟩⟩
  rw [hnodes]
  exact fun n hn => absurd hn (Set.notMem_empty n)

/-- No report is made of a file that cannot be indexed. -/
theorem forall_report_iff {err : Option String} {x : SymbolChange} {P : SymbolChange → Prop} :
    (∀ c, (if err.isSome = true then none else some x) = some c → P c) ↔ (err = none → P x) := by
  cases err with
  | some e => exact iff_of_true (fun c hc => absurd hc (by simp)) fun hc => absurd hc (by simp)
  | none => exact ⟨fun h _ => h x rfl, fun h c hc => Option.some.inj hc ▸ h rfl⟩

/-- **The report of a patch is right exactly if it shows the change.** -/
theorem symbolChange_right_iff (h : Reachable s.graph) (ord : MapOrder) (path : TreePath root)
    (kind : ChangeKind) :
    (∀ c, idx.symbolChange ord disk s path kind = some c →
      c.Right s.graph (idx.patchGraph ord disk s path kind).2.graph (idx.treePath path)) ↔
        idx.ShowsChange disk s.graph path kind := by
  have hinv := h.weak.nodes
  have hevict : Weak (idx.evictFile ord s path).graph := weak_evictPath h.weak ord _
  have hold : s.graph.snapshotSymbols (idx.relPathOf path path) =
      s.graph.snapshotSymbols (idx.treePath path) ↔ (idx.repoPrefix ≠ "" →
        SymbolFree (s.graph.nodesIn (idx.treePath path)) ∧
          SymbolFree (s.graph.nodesIn (idx.relPathOf path path))) := by
    rw [hinv.snapshotSymbols_eq_iff, relPathOf_ne_treePath]
  have hgone : (idx.evictFile ord s path).graph.nodesIn (idx.treePath path) = ∅ :=
    (nodesIn_evictPath h.weak ord _ _).trans (if_pos rfl)
  -- a new file is compared with nothing, the others with what was under the bare path
  cases kind with
  | created =>
    refine forall_report_iff.trans ?_
    rw [snapshotPath_eq]
    rcases indexFile_cases idx disk h.weak ord path true with
      ⟨err, hext, herr⟩ | ⟨res, hext, hnone, hafter, hnodes⟩
    · refine iff_of_true (fun hc => ?_) (fun res hres => ?_)
      · exact absurd (herr.symm.trans hc) (Option.some_ne_none err)
      · rw [hext] at hres
        cases hres
    · have hright := right_iff_of_indexed hafter path [] hnodes
      have hnil : [] = s.graph.snapshotSymbols (idx.treePath path) ↔
          SymbolFree (s.graph.nodesIn (idx.treePath path)) := by
        rw [eq_comm, snapshotSymbols, List.map_eq_nil_iff, hinv.fileSymbols_eq_nil]
      rw [hnil] at hright
      unfold ShowsChange
      simp only [hext, Except.ok.injEq, forall_eq']
      exact (forall_prop_of_true hnone).trans hright
  | modified =>
    refine forall_report_iff.trans ?_
    rw [snapshotPath_eq]
    rcases indexFile_cases idx disk hevict ord path true with
      ⟨err, hext, herr⟩ | ⟨res, hext, hnone, hafter, hnodes⟩
    · refine iff_of_true (fun hc => ?_) (fun res hres => ?_)
      · exact absurd (herr.symm.trans hc) (Option.some_ne_none err)
      · rw [hext] at hres
        cases hres
    · simp only [replacedNodes_evictFile h.weak] at hnodes
      have hright := right_iff_of_indexed hafter path
        (s.graph.snapshotSymbols (idx.relPathOf path path)) hnodes
      rw [hold, ← forall_and] at hright
      unfold ShowsChange
      simp only [hext, Except.ok.injEq, forall_eq']
      exact (forall_prop_of_true hnone).trans hright
  | deleted | renamed =>
    have hright := right_iff_of_evicted s.graph hevict.nodes path
      (s.graph.snapshotSymbols (idx.relPathOf path path)) hgone
    unfold symbolChange patchGraph
    simp only [snapshotPath_eq, Option.some.injEq, forall_eq']
    exact hright.trans hold

/-! ### A repository with a prefix -/

open Watcher (sizeIndexer fileA emptyDisk)

/-- A store with one function, of the file `a.go` of a repository with this prefix. -/
def oneFunction (repoPrefix : String) : Store where
  graph := Graph.new.putNode (({ sizeIndexer with repoPrefix := repoPrefix } : Indexer).prefixNode
    { id := "a.go::Old", kind := .kindFunction, name := "Old", filePath := "a.go" })

theorem reachable_oneFunction (repoPrefix : String) : Reachable (oneFunction repoPrefix).graph :=
  ⟨[.addNode _], .cons ⟨trivial, rfl⟩ (.nil _)⟩

/-- Without a prefix the report of a file that is deleted is right. -/
theorem symbolChange_right_deleted :
    ∃ c, sizeIndexer.symbolChange .default emptyDisk (oneFunction "") fileA .deleted = some c ∧
      c.Right (oneFunction "").graph
        (sizeIndexer.patchGraph .default emptyDisk (oneFunction "") fileA .deleted).2.graph
          (sizeIndexer.treePath fileA) :=
  ⟨_, rfl, (symbolChange_right_iff (reachable_oneFunction "") .default fileA .deleted).mpr
    (fun hprefix => absurd rfl hprefix) _ rfl⟩

/-- **With a prefix the function of a deleted file is not reported.** -/
theorem not_symbolChange_right :
    ¬∀ (idx : Indexer) (ord : MapOrder) (disk : Disk) (s : Store) (root : String)
      (path : TreePath root) (kind : ChangeKind), Reachable s.graph →
        ∀ c, idx.symbolChange ord disk s path kind = some c →
          c.Right s.graph (idx.patchGraph ord disk s path kind).2.graph (idx.treePath path) := by
  intro h
  have hold := (h { sizeIndexer with repoPrefix := "web" } GoMap.RangeOrder.default emptyDisk
    (oneFunction "web") "/r" fileA .deleted (reachable_oneFunction "web") _ rfl).old
  have hpath : Indexer.treePath { sizeIndexer with repoPrefix := "web" } fileA = "web/a.go" := by
    decide +kernel
  have hthere : ((oneFunction "web").graph.snapshotSymbols "web/a.go").length = 1 := by
    decide +kernel
  have hnone : ((oneFunction "web").graph.snapshotSymbols
      (Indexer.snapshotPath { sizeIndexer with repoPrefix := "web" } fileA)).length = 0 := by
    decide +kernel
  rw [hpath] at hold
  exact absurd (hthere.symm.trans ((congrArg List.length hold).symm.trans hnone)) Nat.one_ne_zero

end Indexer

end Gortex
