import Mathlib.Data.Set.Basic
import Gortex.Indexer.Index
import Gortex.Resolver.Passes

/-!
# The nodes of a file

What the steps of indexing one file do to the nodes of the graph: evicting a path
leaves it without nodes and the other paths as they are, adding what was extracted
gives the path exactly the extracted nodes, and resolving leaves the nodes alone.

All extractors write the path they are given into their nodes and begin the IDs with
it; that is what `Gortex.Registry.Lawful` says of a registry.
-/

namespace Gortex

open Graph GoString

/-! ### Extraction -/

namespace Registry

variable (r : Registry)

/-- Some extractor of the registry gives the result for the path and the bytes. -/
def Extracts (p : String) (src : ByteArray) (res : ExtractionResult) : Prop :=
  ∃ lang ext, r.getByLanguage lang = some ext ∧ ext.extract p src = .ok res

/-- **What an extractor promises**: its nodes are in the file it was given, and their
IDs tell the file. -/
structure Lawful : Prop where
  filePath : ∀ {p src res n}, r.Extracts p src res → n ∈ res.nodes → n.filePath = p
  apart : ∀ {p src res n p' src' res' n'}, r.Extracts p src res → n ∈ res.nodes →
    r.Extracts p' src' res' → n' ∈ res'.nodes → n.id = n'.id → p = p'

end Registry

namespace ExtractionResult

variable (res : ExtractionResult)

/-- The node of an ID, the last one if there are several. -/
def nodeAt (id : String) : Option Node := res.nodes.reverse.find? fun n => n.id = id

/-- The nodes that are left when all are stored. -/
def nodeSet : Set Node := {n | res.nodeAt n.id = some n}

variable {res}

theorem mem_of_nodeAt {id : String} {n : Node} (h : res.nodeAt id = some n) :
    n ∈ res.nodes ∧ n.id = id :=
  ⟨List.mem_reverse.mp (List.mem_of_find?_eq_some h), by simpa using List.find?_some h⟩

theorem nodeAt_eq_none {id : String} : res.nodeAt id = none ↔ ∀ n ∈ res.nodes, n.id ≠ id := by
  simp [nodeAt, List.find?_eq_none]

end ExtractionResult

namespace Graph

variable {g g' : Graph}

/-- The nodes of a file. -/
def nodesIn (g : Graph) (filePath : String) : Set Node :=
  {n | g.nodeAt n.id = some n ∧ n.filePath = filePath}

theorem nodesIn_congr (h : ∀ id, g'.nodeAt id = g.nodeAt id) (filePath : String) :
    g'.nodesIn filePath = g.nodesIn filePath := by
  ext n
  exact and_congr_left fun _ => by rw [h]

theorem SameNodes.nodesIn (h : SameNodes g g') (filePath : String) :
    g'.nodesIn filePath = g.nodesIn filePath :=
  nodesIn_congr h.nodeAt filePath

/-- **EvictFile** takes the nodes of the file, and leaves those of the others. -/
theorem NodeInv.nodesIn_evictFile (h : NodeInv g) (ord : MapOrder) (filePath p : String) :
    (Graph.evictFile ord g filePath).graph.nodesIn p =
      if p = filePath then ∅ else g.nodesIn p := by
  have hat : ∀ n, (Graph.evictFile ord g filePath).graph.nodeAt n.id = some n ↔
      g.nodeAt n.id = some n ∧ n.filePath ≠ filePath := fun n => by
    rw [h.nodeAt_evictFile ord, Option.filter_eq_some_iff]
    exact and_congr_right fun _ => by simp
  by_cases hp : p = filePath
  · rw [if_pos hp]
    refine Set.eq_empty_of_forall_notMem fun n hn => ?_
    exact ((hat n).mp hn.1).2 (hn.2.trans hp)
  · rw [if_neg hp]
    ext n
    refine ⟨fun hn => ⟨((hat n).mp hn.1).1, hn.2⟩, fun hn => ⟨(hat n).mpr ⟨hn.1, ?_⟩, hn.2⟩⟩
    exact fun hc => hp (hn.2.symm.trans hc)

end Graph

/-! ### Adding what was extracted -/

namespace Indexer

variable {g : Graph} {res : ExtractionResult}

theorem weak_addResult (h : Weak g) (res : ExtractionResult) : Weak (addResult g res) :=
  List.foldl_invariant (P := Weak) (fun _ e _ hg => hg.putEdge e)
    (List.foldl_invariant (P := Weak) (fun _ n _ hg => hg.putNode n) h)

theorem nodeAt_foldl_putNode (h : NodeInv g) (l : List Node) (id : String) :
    (l.foldl Graph.putNode g).nodeAt id =
      (l.reverse.find? fun n => n.id = id).or (g.nodeAt id) := by
  induction l generalizing g with
  | nil => rfl
  | cons n l ih =>
    have hn : NodeInv (g.putNode n) := (h.newNode n).addNode (Nat.lt_succ_self _)
    rw [List.foldl_cons, ih hn, h.nodeAt_putNode, List.reverse_cons, List.find?_append]
    cases l.reverse.find? fun n => n.id = id with
    | some m => rfl
    | none =>
      by_cases hid : id = n.id
      · rw [if_pos hid, List.find?_cons_of_pos (by simp [hid])]
        rfl
      · rw [if_neg hid, List.find?_cons_of_neg (by simp [Ne.symm hid])]
        rfl

/-- **Adding** stores the extracted nodes over what was there. -/
theorem nodeAt_addResult (h : NodeInv g) (res : ExtractionResult) (id : String) :
    (addResult g res).nodeAt id = (res.nodeAt id).or (g.nodeAt id) := by
  have hframe : (addResult g res).nodeAt id = (res.nodes.foldl Graph.putNode g).nodeAt id :=
    List.foldl_frame (π := fun g => g.nodeAt id) (fun g e => nodeAt_putEdge g e id) _ _
  rw [hframe, nodeAt_foldl_putNode h]
  rfl

/-- The path added to has the extracted nodes, if it had none. -/
theorem nodesIn_addResult (h : NodeInv g) {p : String} (hp : ∀ n ∈ res.nodes, n.filePath = p)
    (hnone : g.nodesIn p = ∅) : (addResult g res).nodesIn p = res.nodeSet := by
  ext n
  constructor
  · rintro ⟨hn, hf⟩
    rw [nodeAt_addResult h] at hn
    rcases Option.or_eq_some_iff.mp hn with hr | ⟨-, hg⟩
    · exact hr
    · exact absurd (show n ∈ g.nodesIn p from ⟨hg, hf⟩) (by rw [hnone]; exact Set.notMem_empty n)
  · intro hn
    have hn' : res.nodeAt n.id = some n := hn
    refine ⟨?_, hp n (ExtractionResult.mem_of_nodeAt hn').1⟩
    rw [nodeAt_addResult h, hn']
    rfl

/-- Another path keeps its nodes, if no ID of theirs is extracted. -/
theorem nodesIn_addResult_of_ne (h : NodeInv g) {p q : String}
    (hp : ∀ n ∈ res.nodes, n.filePath = p) (hq : q ≠ p)
    (hfree : ∀ n ∈ g.nodesIn q, res.nodeAt n.id = none) :
    (addResult g res).nodesIn q = g.nodesIn q := by
  ext n
  constructor
  · rintro ⟨hn, hf⟩
    rw [nodeAt_addResult h] at hn
    rcases Option.or_eq_some_iff.mp hn with hr | ⟨-, hg⟩
    · exact absurd (hf.symm.trans (hp n (ExtractionResult.mem_of_nodeAt hr).1)) hq
    · exact ⟨hg, hf⟩
  · intro hn
    refine ⟨?_, hn.2⟩
    rw [nodeAt_addResult h, hfree n hn]
    exact hn.1

/-! ### One file -/

variable {idx idx' : Indexer}

/-- The two indexers are of one repository: they differ in what they have recorded. -/
structure Alike (idx idx' : Indexer) : Prop where
  registry : idx'.registry = idx.registry
  config : idx'.config = idx.config
  rootPath : idx'.rootPath = idx.rootPath
  repoPrefix : idx'.repoPrefix = idx.repoPrefix

theorem Alike.refl (idx : Indexer) : Alike idx idx := ⟨rfl, rfl, rfl, rfl⟩

theorem Alike.trans {idx'' : Indexer} (h : Alike idx idx') (h' : Alike idx' idx'') :
    Alike idx idx'' :=
  ⟨h'.registry.trans h.registry, h'.config.trans h.config, h'.rootPath.trans h.rootPath,
    h'.repoPrefix.trans h.repoPrefix⟩

theorem Alike.prefixPath (h : Alike idx idx') (p : String) :
    idx'.prefixPath p = idx.prefixPath p := by
  rw [Indexer.prefixPath, Indexer.prefixPath, h.repoPrefix]

theorem Alike.relPathOf (h : Alike idx idx') (p q : String) :
    idx'.relPathOf p q = idx.relPathOf p q := by
  rw [Indexer.relPathOf, Indexer.relPathOf, h.rootPath]

theorem Alike.extractFile (h : Alike idx idx') (disk : Disk) (p q : String) :
    idx'.extractFile disk p q = idx.extractFile disk p q := by
  have hn : idx'.prefixNode = idx.prefixNode := by
    funext n
    rw [prefixNode, prefixNode, h.repoPrefix]
  have he : idx'.prefixEdge = idx.prefixEdge := by
    funext e
    rw [prefixEdge, prefixEdge, h.repoPrefix]
  have hpre : idx'.applyRepoPrefix = idx.applyRepoPrefix := by
    funext res
    rw [applyRepoPrefix, applyRepoPrefix, hn, he]
  simp only [Indexer.extractFile, h.registry, hpre]

theorem alike_recordMtime (idx : Indexer) (disk : Disk) (p q : String) :
    Alike idx (idx.recordMtime disk p q) := by
  unfold recordMtime
  split
  · exact ⟨rfl, rfl, rfl, rfl⟩
  · exact Alike.refl idx

theorem prefixPath_inj {p q : String} (h : idx.prefixPath p = idx.prefixPath q) : p = q := by
  unfold prefixPath at h
  split at h
  · exact h
  · exact String.append_right_inj _ |>.mp h

/-- What a file of a lawful registry gives, under the prefix: nodes in the file, whose
IDs tell it. -/
theorem extracts_of_extractFile {disk : Disk} {p rel : String} {res : ExtractionResult}
    (h : idx.extractFile disk p rel = .ok (some res)) :
    ∃ src raw, idx.registry.Extracts rel src raw ∧ res = idx.applyRepoPrefix raw := by
  unfold extractFile at h
  split at h
  · cases h
  · rename_i src _
    split at h
    · cases h
    · rename_i ext hext
      split at h
      · cases h
      · rename_i raw hraw
        cases h
        obtain ⟨lang, -, hlang⟩ := Option.bind_eq_some_iff.mp hext
        exact ⟨src, raw, ⟨lang, ext, hlang, hraw⟩, rfl⟩

theorem filePath_prefixNode (n : Node) :
    (idx.prefixNode n).filePath = idx.prefixPath n.filePath := by
  unfold prefixNode prefixPath
  split <;> rfl

theorem id_prefixNode (n : Node) : (idx.prefixNode n).id = idx.prefixPath n.id := by
  unfold prefixNode prefixPath
  split <;> rfl

theorem filePath_of_extractFile (hr : idx.registry.Lawful) {disk : Disk} {p rel : String}
    {res : ExtractionResult} (h : idx.extractFile disk p rel = .ok (some res)) :
    ∀ n ∈ res.nodes, n.filePath = idx.prefixPath rel := by
  obtain ⟨src, raw, hraw, rfl⟩ := extracts_of_extractFile h
  intro n hn
  obtain ⟨m, hm, rfl⟩ := List.mem_map.mp hn
  rw [filePath_prefixNode, hr.filePath hraw hm]

/-- Two files of a repository have no extracted ID in common. -/
theorem apart_of_extractFile (hr : idx.registry.Lawful) {disk disk' : Disk} {p p' rel rel' : String}
    {res res' : ExtractionResult} (h : idx.extractFile disk p rel = .ok (some res))
    (h' : idx.extractFile disk' p' rel' = .ok (some res')) {n n' : Node} (hn : n ∈ res.nodes)
    (hn' : n' ∈ res'.nodes) (hid : n.id = n'.id) : rel = rel' := by
  obtain ⟨src, raw, hraw, rfl⟩ := extracts_of_extractFile h
  obtain ⟨src', raw', hraw', rfl⟩ := extracts_of_extractFile h'
  obtain ⟨m, hm, rfl⟩ := List.mem_map.mp hn
  obtain ⟨m', hm', rfl⟩ := List.mem_map.mp hn'
  rw [id_prefixNode, id_prefixNode] at hid
  exact hr.apart hraw hm hraw' hm' (prefixPath_inj hid)

/-- The nodes the extraction of a file gives, none if it cannot be read or parsed. -/
def extractedNodes (idx : Indexer) (disk : Disk) (p rel : String) : Set Node :=
  match idx.extractFile disk p rel with
  | .ok (some res) => res.nodeSet
  | _ => ∅

variable {s : Store}

theorem weak_evictPath (h : Weak s.graph) (ord : MapOrder) (p : String) :
    Weak (evictPath ord s p).graph := h.evictFile ord p

theorem nodesIn_evictPath (h : Weak s.graph) (ord : MapOrder) (p q : String) :
    (evictPath ord s p).graph.nodesIn q = if q = p then ∅ else s.graph.nodesIn q :=
  h.nodes.nodesIn_evictFile ord p q

/-- `ResolveAll` and what infers the interfaces leave the nodes alone. -/
theorem quiet_resolveAll (ord : MapOrder) (s : Store) :
    Quiet s.graph (resolveAll ord s).graph :=
  (Quiet.resolveAll ord s.graph).trans (Quiet.inferImplements ord _)

end Indexer

end Gortex
