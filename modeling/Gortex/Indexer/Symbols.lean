import Gortex.Indexer.Nodes

/-!
# What an index run does to the nodes

The contract passes write nodes of their own and the shapes of types; off the IDs of
contracts they keep every node but for its shape (`Gortex.Graph.KeepsOff`). So what a
full index and an incremental one do to the nodes of the files is what their loops do:
the nodes of the files they extract replace what was there, and an incremental index
takes the nodes of the paths it has found stale or deleted.
-/

namespace Gortex

open Graph GoString

/-! ### Nodes without their shape -/

/-- A node without the shape a contract pass may attach to it. -/
def Node.bare (n : Node) : Node := { n with metadata := n.metadata.erase "shape" }

namespace Graph

variable {g g' g'' : Graph} {C : String → Prop}

/-- The node stored under an ID, without its shape. -/
def bareAt (g : Graph) (id : String) : Option Node := (g.nodeAt id).map Node.bare

theorem bareAt_congr {id : String} (h : g'.nodeAt id = g.nodeAt id) : g'.bareAt id = g.bareAt id :=
  congrArg (Option.map Node.bare) h

/-- The graph after the shape of a node is written. -/
def setShape (g : Graph) (r : NodeRef) (shape : MetaValue) : Graph :=
  g.setNode r { g.node r with metadata := (g.node r).metadata.insert "shape" shape }

theorem bare_setShape (g : Graph) (r : NodeRef) (shape : MetaValue) (r' : NodeRef) :
    ((g.setShape r shape).node r').bare = (g.node r').bare := by
  have hm : ∀ m : Metadata, (m.insert "shape" shape).erase "shape" = m.erase "shape" := fun m => by
    refine AList.ext ?_
    change List.kerase "shape" (m.insert "shape" shape).entries = List.kerase "shape" m.entries
    rw [AList.entries_insert]
    exact List.kerase_cons_eq rfl
  change Node.bare (if r' = r then _ else _) = _
  by_cases hr : r' = r
  · rw [if_pos hr, hr]
    exact congrArg (fun m => { g.node r with metadata := m }) (hm _)
  · rw [if_neg hr]

/-- Writing the shape of a node keeps its place in every table. -/
theorem Weak.setShape (h : Weak g) (r : NodeRef) (shape : MetaValue) :
    Weak (g.setShape r shape) := by
  have hnode := bare_setShape g r shape
  have hid : ∀ r', ((g.setShape r shape).node r').id = (g.node r').id := fun r' => by
    have h := congrArg Node.id (hnode r')
    exact h
  have hrepo : ∀ r', repoKey ((g.setShape r shape).node r') = repoKey (g.node r') := fun r' => by
    have h := congrArg repoKey (hnode r')
    exact h
  refine ⟨fun i => ?_, h.out.of_tables rfl rfl rfl⟩
  have hi := h.nodes i
  refine ⟨fun hl => ?_, hi.file.of_keys hid fun r' => ?_, hi.name.of_keys hid fun r' => ?_,
    hi.repo.of_keys hid hrepo, fun hq => ?_⟩
  · have hn := hi.home hl
    exact ⟨(hid _).trans hn.1, hn.2⟩
  · exact congrArg (fun n => some n.filePath) (hnode r')
  · exact congrArg (fun n => some n.name) (hnode r')
  · have hn := hi.qual hq
    refine ⟨?_, (congrArg Node.qualName (hnode _)).trans hn.2.1, hn.2.2⟩
    rw [hid]
    exact hn.1

theorem bareAt_setShape (g : Graph) (r : NodeRef) (shape : MetaValue) (id : String) :
    (g.setShape r shape).bareAt id = g.bareAt id := by
  unfold bareAt nodeAt
  change ((g.getNode id).map _).map _ = _
  rw [Option.map_map, Option.map_map]
  exact congrArg (fun f => (g.getNode id).map f) (funext fun r' => bare_setShape g r shape r')

/-- **The nodes off the IDs in `C` are kept**, but for their shapes. -/
structure KeepsOff (C : String → Prop) (g g' : Graph) : Prop where
  weak : Weak g → Weak g'
  bareAt : Weak g → ∀ id, ¬C id → g'.bareAt id = g.bareAt id

theorem KeepsOff.refl (g : Graph) : KeepsOff C g g := ⟨id, fun _ _ _ => rfl⟩

theorem KeepsOff.trans (h : KeepsOff C g g') (h' : KeepsOff C g' g'') : KeepsOff C g g'' :=
  ⟨fun hg => h'.weak (h.weak hg), fun hg id hid =>
    (h'.bareAt (h.weak hg) id hid).trans (h.bareAt hg id hid)⟩

theorem KeepsOff.of_quiet (h : Quiet g g') : KeepsOff C g g' :=
  ⟨h.weak, fun _ id _ => bareAt_congr (h.nodes.nodeAt id)⟩

theorem KeepsOff.setShape (g : Graph) (r : NodeRef) (shape : MetaValue) :
    KeepsOff C g (g.setShape r shape) :=
  ⟨fun hg => hg.setShape r shape, fun _ id _ => bareAt_setShape g r shape id⟩

theorem KeepsOff.putNode {n : Node} (hn : C n.id) : KeepsOff C g (g.putNode n) :=
  ⟨fun hg => hg.putNode n, fun hg id hid => bareAt_congr <| by
    have hne : id ≠ n.id := fun hc => hid (by rwa [hc])
    rw [hg.nodes.nodeAt_putNode, if_neg hne]⟩

theorem KeepsOff.putEdge (g : Graph) (e : Edge) : KeepsOff C g (g.putEdge e) :=
  KeepsOff.of_quiet (Quiet.putEdge g e)

end Graph

/-! ### The contracts of a registry -/

namespace ContractRegistry

/-- All contracts of the registry have the property. -/
def All (P : Contract → Prop) (r : ContractRegistry) : Prop :=
  ∀ id l, r.byID.lookup id = some l → ∀ c ∈ l, P c

variable {P : Contract → Prop} {r : ContractRegistry}

theorem All.empty : ({} : ContractRegistry).All P := fun _ _ h => nomatch h

theorem All.add (h : r.All P) {c : Contract} (hc : P c) : (r.add c).All P := by
  intro id l hl d hd
  change (append r.byID c.id c).lookup id = some l at hl
  rw [append, GoMap.lookup_insert] at hl
  split at hl
  · cases hl
    rcases List.mem_append.mp hd with hd | hd
    · cases hold : r.byID.lookup c.id with
      | none =>
        rw [hold] at hd
        cases hd
      | some l₀ =>
        rw [hold] at hd
        exact h _ _ hold d hd
    · rwa [List.mem_singleton.mp hd]
  · exact h id l hl d hd

theorem All.foldl_add (h : r.All P) {l : List Contract} (hl : ∀ c ∈ l, P c) :
    (l.foldl ContractRegistry.add r).All P :=
  List.foldl_invariant (P := All P) (fun _ c hc hr => hr.add (hl c hc)) h

theorem All.addAll (h : r.All P) {l : List Contract} {repoPrefix : String}
    (hl : ∀ c ∈ l, P { c with repoPrefix := repoPrefix }) : (r.addAll l repoPrefix).All P :=
  List.foldl_invariant (P := All P) (fun _ c hc hr => hr.add (hl c hc)) h

theorem mem_foldl_keepFirst {l out : List Contract} {c : Contract}
    (hc : c ∈ l.foldl keepFirst out) : c ∈ out ∨ c ∈ l := by
  refine List.foldl_invariant (P := fun s => c ∈ s → c ∈ out ∨ c ∈ l) (fun s a ha hs hm => ?_)
    Or.inl hc
  unfold keepFirst at hm
  split at hm
  · exact hs hm
  · rcases List.mem_append.mp hm with hm | hm
    · exact hs hm
    · exact Or.inr (List.mem_singleton.mp hm ▸ ha)

theorem All.mem_all (h : r.All P) (ord : GoMap.RangeOrder ContractRegistry) {c : Contract}
    (hc : c ∈ r.all ord) : P c := by
  rcases mem_foldl_keepFirst hc with hc | hc
  · cases hc
  · obtain ⟨p, hp, hc⟩ := List.mem_flatMap.mp hc
    exact h p.1 p.2 (GoMap.mem_pairs.mp (ord.mem.mp hp)) c hc

end ContractRegistry

/-! ### The contract passes -/

/-- **What a pass finds on the disk** has the property. -/
structure ContractExtractors.FindOnly (ce : ContractExtractors) (disk : Disk)
    (P : Contract → Prop) : Prop where
  /-- It does not depend on the repository a contract is noted for. -/
  rename : ∀ {c repoPrefix}, P c → P { c with repoPrefix := repoPrefix }
  perFile : ∀ {lang extract}, ce.perFile lang = some extract → ∀ {path src},
    disk.readFile path = .ok src → ∀ {p ns es c}, c ∈ extract p src ns es → P c
  goMod : ∀ {path src}, disk.readFile path = .ok src → ∀ {mods p c}, c ∈ ce.goMod mods p src → P c
  refine : ∀ {rootPath repoPrefix g reg}, reg.All P →
    (ce.refine rootPath repoPrefix disk g reg).All P

/-- **The IDs of contracts** are among the IDs in `C`. -/
structure ContractIDs (ce : ContractExtractors) (disk : Disk) (C : String → Prop) : Prop where
  found : ce.FindOnly disk fun c => C c.id
  di : ∀ {e c}, Indexer.diContractFromEdge e = some c → C c.id

namespace Indexer

variable {idx idx' : Indexer} {ce : ContractExtractors} {disk : Disk} {P : Contract → Prop}
  {C : String → Prop} {g : Graph}

/-- The cached contracts have the property. -/
def CacheAll (P : Contract → Prop) (cache : GoMap String ContractCacheEntry) : Prop :=
  ∀ p e, cache.lookup p = some e → ∀ c ∈ e.contracts, P c

theorem CacheAll.insert {cache : GoMap String ContractCacheEntry} (h : CacheAll P cache)
    {e : ContractCacheEntry} (he : ∀ c ∈ e.contracts, P c) (p : String) :
    CacheAll P (cache.insert p e) := by
  intro p' e' h'
  rw [GoMap.lookup_insert] at h'
  split at h'
  · cases h'
    exact he
  · exact h p' e' h'

theorem forall_mem_runContractExtractors (hce : ce.FindOnly disk P) {path : String}
    {src : ByteArray} (hsrc : disk.readFile path = .ok src) {lang p : String} {ns : List Node}
    {es : List Edge} : ∀ c ∈ idx.runContractExtractorsForFile ce lang p src ns es, P c := by
  intro c hc
  unfold runContractExtractorsForFile at hc
  split at hc
  · cases hc
  · rename_i extract hl
    obtain ⟨d, hd, rfl⟩ := List.mem_map.mp hc
    exact hce.rename (hce.perFile hl hsrc hd)

theorem CacheAll.scanFile (hce : ce.FindOnly disk P) {s : ContractScan}
    (hs : CacheAll P s.cache ∧ s.reg.All P) (fileNode : Node) :
    CacheAll P (idx.scanFile ce disk g s fileNode).cache ∧
      (idx.scanFile ce disk g s fileNode).reg.All P := by
  unfold Indexer.scanFile
  split
  · exact hs
  · split
    · exact hs
    · simp only
      split
      · rename_i cached hcached
        refine ⟨hs.1, hs.2.foldl_add ?_⟩
        exact hs.1 _ _ (Option.filter_eq_some_iff.mp hcached).1
      · split
        · exact hs
        · rename_i src hsrc
          exact ⟨hs.1.insert (forall_mem_runContractExtractors hce hsrc) _,
            hs.2.foldl_add (forall_mem_runContractExtractors hce hsrc)⟩

/-- The scan of the files of a graph finds contracts with the property. -/
theorem CacheAll.foldl_scanFile (hce : ce.FindOnly disk P) (hcache : CacheAll P idx.contractCache)
    (l : List Node) :
    CacheAll P (l.foldl (idx.scanFile ce disk g) { cache := idx.contractCache }).cache ∧
      (l.foldl (idx.scanFile ce disk g) { cache := idx.contractCache }).reg.All P :=
  List.foldl_invariant (P := fun s : ContractScan => CacheAll P s.cache ∧ s.reg.All P)
    (fun _ n _ hs => CacheAll.scanFile hce hs n) ⟨hcache, ContractRegistry.All.empty⟩

theorem CacheAll.pruneCache {cache : GoMap String ContractCacheEntry} (h : CacheAll P cache)
    (seenFiles : List String) : CacheAll P (pruneCache cache seenFiles) := by
  refine List.foldl_invariant (P := CacheAll P) (fun cache path _ hc => ?_) h
  split
  · exact hc
  · intro p e he
    rw [GoMap.lookup_erase] at he
    split at he
    · cases he
    · exact hc p e he

/-- The pass over the files leaves such contracts in the cache. -/
theorem CacheAll.extractContracts (hce : ce.FindOnly disk P) (hcache : CacheAll P idx.contractCache)
    (ords : Orders) (mods : GoMap String String) (g : Graph) :
    CacheAll P (idx.extractContracts ce ords mods disk g).1.contractCache :=
  (CacheAll.foldl_scanFile hce hcache _).1.pruneCache _

theorem all_extractGoModContracts (hce : ce.FindOnly disk P) {reg : ContractRegistry}
    (h : reg.All P) (mods : GoMap String String) :
    (idx.extractGoModContracts ce mods disk reg).All P := by
  unfold extractGoModContracts
  split
  · exact h
  · rename_i src hsrc
    exact h.addAll fun c hc => hce.rename (hce.goMod hsrc hc)

end Indexer

/-! ### What a contract pass writes -/

/-- **A relation of the graphs before and after** that holds of all a contract pass writes:
edges of three kinds, the shapes of types, and the nodes of contracts with the property. -/
structure Graph.ContractWrites (P : Contract → Prop) (R : Graph → Graph → Prop) : Prop where
  refl : ∀ g, R g g
  trans : ∀ {g g' g''}, R g g' → R g' g'' → R g g''
  putEdge : ∀ g e, e.kind ∈ [EdgeKind.edgeCalls, .edgeProvides, .edgeConsumes] → R g (g.putEdge e)
  setShape : ∀ g r shape, R g (g.setShape r shape)
  putNode : ∀ g {c}, P c → R g (g.putNode (Indexer.contractNode c))

/-- The edges of the graph, the beans linked, give contracts with the property only. -/
def Indexer.DIOnly (P : Contract → Prop) (ord : MapOrder) (g : Graph) : Prop :=
  ∀ e ∈ ((linkSpringBeans ord g).allEdges ord).map (linkSpringBeans ord g).edge,
    ∀ c, diContractFromEdge e = some c → P c

namespace Graph.ContractWrites

open Indexer

variable {idx : Indexer} {ce : ContractExtractors} {disk : Disk} {P : Contract → Prop}
  {C : String → Prop} {g : Graph} {R : Graph → Graph → Prop}

theorem foldl (hR : ContractWrites P R) {α : Type} {f : Graph → α → Graph} {l : List α}
    (hf : ∀ g, ∀ a ∈ l, R g (f g a)) (g : Graph) : R g (l.foldl f g) :=
  List.foldl_invariant (P := R g) (fun g' a ha hg => hR.trans hg (hf g' a ha)) (hR.refl g)

theorem linkSpringBeans (hR : ContractWrites P R) (ord : MapOrder) (g : Graph) :
    R g (linkSpringBeans ord g) := by
  have hbean : ∀ bean (s : Graph × List String) n, R s.1 (linkBean bean s n).1 := by
    intro bean s n
    unfold linkBean
    simp only
    split_ifs
    all_goals first | exact hR.refl _ | exact hR.putEdge _ _ (List.mem_cons_self ..)
  have hloop : ∀ (l : List Node) bean (s : Graph × List String),
      R s.1 (l.foldl (linkBean bean) s).1 := fun l bean s =>
    List.foldl_invariant (P := fun t : Graph × List String => R s.1 t.1)
      (fun t n _ ht => hR.trans ht (hbean bean t n)) (hR.refl s.1)
  exact List.foldl_invariant (P := fun t : Graph × List String => R g t.1)
    (fun t bean _ ht => hR.trans ht (hloop _ bean t)) (hR.refl g)

theorem attachShape (hR : ContractWrites P R) (g : Graph) (id : String) :
    R g (idx.attachShape ce disk g id) := by
  unfold Indexer.attachShape
  split
  · exact hR.refl g
  · simp only
    split_ifs
    · exact hR.refl g
    · split
      · exact hR.refl g
      · split
        · exact hR.refl g
        · exact hR.setShape g _ _

theorem commitContract (hR : ContractWrites P R) {c : Contract} (hc : P c) (g : Graph) :
    R g (commitContract g c) := by
  have hkind : (contractEdge c).kind ∈ [EdgeKind.edgeCalls, .edgeProvides, .edgeConsumes] := by
    unfold contractEdge
    simp only
    split <;> decide
  unfold Indexer.commitContract
  simp only
  split
  · exact hR.trans (hR.putNode g hc) (hR.putEdge _ _ hkind)
  · exact hR.putNode g hc

/-- **Committing** writes the nodes of the contracts. -/
theorem commitContracts (hR : ContractWrites P R) (hce : ce.FindOnly disk P) (ords : Orders)
    (g : Graph) {reg : ContractRegistry} (h : reg.All P) :
    R g (idx.commitContracts ce ords disk g reg).2 := by
  have hall : (ce.refine idx.rootPath idx.repoPrefix disk g reg).All P := hce.refine h
  exact hR.trans (hR.foldl (fun g' id _ => hR.attachShape g' id) g)
    (hR.foldl (fun g' c hc => hR.commitContract (hall.mem_all _ hc) g') _)

/-- What the end of a contract pass does with a registry. -/
theorem commit_extractDI (hR : ContractWrites P R) (hce : ce.FindOnly disk P) (ords : Orders)
    (hdi : DIOnly P ords.graph g) {reg : ContractRegistry} (h : reg.All P) :
    R g (idx.commitContracts ce ords disk (idx.extractDIContracts ords.graph g reg).1
      (idx.extractDIContracts ords.graph g reg).2).2 := by
  refine hR.trans (hR.linkSpringBeans ords.graph g) (hR.commitContracts hce ords _ ?_)
  refine h.addAll fun c hc => hce.rename ?_
  obtain ⟨e, he, hc⟩ := List.mem_filterMap.mp hc
  exact hdi e he c hc

/-- **The pass over the files of the graph** writes the nodes of contracts. -/
theorem extractContracts (hR : ContractWrites P R) (hce : ce.FindOnly disk P) (ords : Orders)
    (hdi : DIOnly P ords.graph g) (mods : GoMap String String)
    (hcache : CacheAll P idx.contractCache) :
    R g (idx.extractContracts ce ords mods disk g).2 := by
  have hr := (@CacheAll.foldl_scanFile idx ce disk P g hce hcache (g.fileNodes ords.graph)).2
  unfold Indexer.extractContracts
  simp only
  exact hR.commit_extractDI hce ords hdi (all_extractGoModContracts hce hr mods)

/-- Off the IDs of the contracts, the nodes are kept. -/
theorem keepsOff (hPC : ∀ c, P c → C c.id) : ContractWrites P (KeepsOff C) where
  refl := KeepsOff.refl
  trans := KeepsOff.trans
  putEdge := fun g e _ => KeepsOff.putEdge g e
  setShape := KeepsOff.setShape
  putNode := fun _ c hc => KeepsOff.putNode (hPC c hc)

end Graph.ContractWrites

namespace Indexer

variable {idx idx' : Indexer} {ce : ContractExtractors} {disk : Disk} {P : Contract → Prop}
  {C : String → Prop} {g : Graph}

/-! ### The loop of a full index -/

variable {root : String} {files : List String}

/-- The node a file gives for an ID. -/
def extractedAt (idx : Indexer) (disk : Disk) (path rel id : String) : Option Node :=
  match idx.extractFile disk path rel with
  | .ok (some res) => res.nodeAt id
  | _ => none

/-- **Some of the files gives the node for the ID.** -/
def Produces (idx : Indexer) (disk : Disk) (root : String) (files : List String) (id : String)
    (n : Node) : Prop :=
  ∃ path ∈ files, idx.extractedAt disk path (walkRel root path) id = some n

theorem extractedAt_eq_some {path rel id : String} {n : Node} :
    idx.extractedAt disk path rel id = some n ↔
      ∃ res, idx.extractFile disk path rel = .ok (some res) ∧ res.nodeAt id = some n := by
  unfold extractedAt
  split
  · rename_i res hres
    rw [hres]
    exact ⟨fun h => ⟨res, rfl, h⟩, fun ⟨res', hr, h⟩ => by cases hr; exact h⟩
  · rename_i hno
    refine iff_of_false (fun h => nomatch h) fun ⟨res, hr, _⟩ => hno res hr

/-- The node is in the file. -/
theorem filePath_of_extractedAt (hr : idx.registry.Lawful) {path rel id : String} {n : Node}
    (h : idx.extractedAt disk path rel id = some n) : n.filePath = idx.prefixPath rel := by
  obtain ⟨res, hres, hn⟩ := extractedAt_eq_some.mp h
  exact filePath_of_extractFile hr hres n (ExtractionResult.mem_of_nodeAt hn).1

theorem Alike.extractedAt (h : Alike idx idx') (disk : Disk) (path rel id : String) :
    idx'.extractedAt disk path rel id = idx.extractedAt disk path rel id := by
  unfold Indexer.extractedAt
  rw [h.extractFile]

/-- **Parsing** a file stores what it gives. -/
theorem nodeAt_parseFile (p : Parsing) (hp : NodeInv p.graph) (path id : String) :
    (idx.parseFile ce disk root p path).graph.nodeAt id =
      (idx.extractedAt disk path (walkRel root path) id).or (p.graph.nodeAt id) := by
  unfold parseFile extractedAt
  rcases hx : idx.extractFile disk path (walkRel root path) with err | (- | res)
  · rfl
  · rfl
  · simp only
    split <;> exact nodeAt_addResult hp res id

theorem weak_parseFile {p : Parsing} (hp : Weak p.graph) (path : String) :
    Weak (idx.parseFile ce disk root p path).graph := by
  unfold parseFile
  split
  · exact hp
  · exact hp
  · simp only
    split <;> exact weak_addResult hp _

/-- The contracts of parsing have the property. -/
def Parsing.All (P : Contract → Prop) (p : Parsing) : Prop :=
  CacheAll P p.cache ∧ ∀ l ∈ p.contracts, ∀ c ∈ l, P c

theorem Parsing.All.parseFile (hce : ce.FindOnly disk P) {p : Parsing} (h : p.All P)
    (path : String) : (idx.parseFile ce disk root p path).All P := by
  unfold Indexer.parseFile
  split
  · exact h
  · exact h
  · simp only
    split
    · exact h
    · rename_i graphPath contracts hc
      have hfound : ∀ c ∈ contracts, P c := by
        unfold inlineContracts at hc
        split at hc
        · rename_i fileNode src _ hsrc
          simp only at hc
          split at hc
          · cases hc
          · cases hc
            exact forall_mem_runContractExtractors hce hsrc
        · cases hc
      refine ⟨?_, fun l hl => ?_⟩
      · simp only
        split
        · exact h.1.insert hfound _
        · exact h.1
      · rcases List.mem_append.mp hl with hl | hl
        · exact h.2 l hl
        · rw [List.mem_singleton.mp hl]
          exact hfound

/-- **Parsing the files** stores what they give, and leaves the other IDs as they are. -/
theorem nodeAt_foldl_parseFile (p : Parsing) (hp : Weak p.graph) (files : List String) (id : String) :
    (files.foldl (idx.parseFile ce disk root) p).graph.nodeAt id =
      (files.reverse.findSome? fun path => idx.extractedAt disk path (walkRel root path) id).or
        (p.graph.nodeAt id) := by
  induction files generalizing p with
  | nil => rfl
  | cons path files ih =>
    rw [List.foldl_cons, ih _ (weak_parseFile hp path), nodeAt_parseFile p hp.nodes,
      List.reverse_cons, List.findSome?_append, List.findSome?_singleton, Option.or_assoc]

/-! ### The files of a walk -/

theorem mem_walkFiles {path : String} (h : path ∈ idx.walkFiles disk root) :
    (GoPath.IsClean path ∧ GoPath.isAbs path = true) ∧ GoPath.Under root path := by
  have hw := disk.mem_walkDir.mp (List.mem_of_mem_filter h)
  exact ⟨disk.isClean path hw.1, hw.2⟩

theorem rel_eq_walkRel {path : String} (h : GoPath.Under root path) :
    GoPath.rel root path = .ok (walkRel root path) := by
  obtain ⟨ws, -, hrel⟩ := h.rel_eq
  rw [walkRel, hrel]

theorem walkRel_inj {p q : String} (hp : p ∈ idx.walkFiles disk root)
    (hq : q ∈ idx'.walkFiles disk root) (h : walkRel root p = walkRel root q) : p = q := by
  obtain ⟨⟨hpc, -⟩, hpu⟩ := mem_walkFiles hp
  obtain ⟨⟨hqc, -⟩, hqu⟩ := mem_walkFiles hq
  refine GoPath.rel_inj hpc hqc hpu hqu ?_
  rw [rel_eq_walkRel hpu, rel_eq_walkRel hqu, h]

/-- **A node of the walked files is given by one of them.** -/
theorem Produces.unique (hr : idx.registry.Lawful) (hf : ∀ p ∈ files, p ∈ idx.walkFiles disk root)
    {id : String} {n n' : Node} (h : idx.Produces disk root files id n)
    (h' : idx.Produces disk root files id n') : n = n' := by
  obtain ⟨p, hp, he⟩ := h
  obtain ⟨p', hp', he'⟩ := h'
  obtain ⟨res, hres, hn⟩ := extractedAt_eq_some.mp he
  obtain ⟨res', hres', hn'⟩ := extractedAt_eq_some.mp he'
  obtain ⟨hm, hid⟩ := ExtractionResult.mem_of_nodeAt hn
  obtain ⟨hm', hid'⟩ := ExtractionResult.mem_of_nodeAt hn'
  have hrel := apart_of_extractFile hr hres hres' hm hm' (hid.trans hid'.symm)
  obtain rfl := walkRel_inj (hf p hp) (hf p' hp') hrel
  rw [hres] at hres'
  cases hres'
  exact Option.some.inj (hn.symm.trans hn')

end Indexer

end Gortex
