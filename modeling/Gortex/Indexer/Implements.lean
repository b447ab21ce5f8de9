import Gortex.Indexer.Reindex
import Gortex.Resolver.Implements

/-!
# Inferred interfaces over time

An index infers the interfaces once its files are in the graph, and an incremental one does
it again, without taking back what it has inferred before. Still the edges stay exactly the
pairs that are satisfied (`Gortex.Indexer.implements_iff_satisfies`), and the reason is where
the methods of a type are: an extractor writes the edge from a method to a type of its own
file, so that whatever takes a method away evicts the file of the type, and with it all the
edges of the type.
-/

namespace Gortex

open Graph GoString

/-! ### Types in their files -/

/-- The kinds of the edges that the pass over the interfaces reads and writes. -/
def Typing (k : EdgeKind) : Prop := k = .edgeImplements ∨ k = .edgeMemberOf

/-- **What a file gives**: nodes at home in it, edges from its methods to its types, and no
edge to an interface. -/
structure ExtractionResult.AtHome (Home : String → String → Prop) (p : String)
    (res : ExtractionResult) : Prop where
  node : ∀ n ∈ res.nodes, Home n.id p ∧ n.filePath = p
  settledNode : ∀ n ∈ res.nodes, ¬hasPrefix n.id unresolvedPrefix = true
  edge : ∀ e ∈ res.edges, e.kind ≠ .edgeImplements
  settled : ∀ e ∈ res.edges, e.kind = .edgeMemberOf → ¬e.IsUnresolved
  member : ∀ e ∈ res.edges, e.kind = .edgeMemberOf → ∀ q, Home e.fromID q ∨ Home e.toID q → q = p

namespace Graph

variable {Home : String → String → Prop} {g g' g'' : Graph} {C : String → Prop} {p : String}
  {res : ExtractionResult}

/-- **The types are in their files**: a node but for those of contracts lies where its ID is
at home, and an edge from a method to a type stays in one file. -/
structure Typed (Home : String → String → Prop) (g : Graph) : Prop where
  right : RightOn Typing g
  home : ∀ {id n}, g.nodeAt id = some n → n.kind ≠ .kindContract → Home id n.filePath
  member : ∀ {e}, g.StoredEdge e → e.kind = .edgeMemberOf → ∀ {q q'}, Home e.fromID q →
    Home e.toID q' → q = q'

/-- **Every inferred edge is justified.** -/
def Sound (g : Graph) : Prop := ∀ t i, g.Implements t i → g.Satisfies t i

theorem Typed.new : Typed Home Graph.new where
  right := RightOn.new
  home := fun h => by
    rw [show Graph.new.nodeAt _ = none from rfl] at h
    cases h
  member := fun ⟨_, hr, _⟩ => absurd hr List.not_mem_nil

theorem Implements.congr {t i : String}
    (he : ∀ e, Typing e.kind → (g'.StoredEdge e ↔ g.StoredEdge e)) :
    g'.Implements t i ↔ g.Implements t i := by
  constructor
  · rintro ⟨e, hst, hk, hrest⟩
    exact ⟨e, (he e (Or.inl hk)).mp hst, hk, hrest⟩
  · rintro ⟨e, hst, hk, hrest⟩
    exact ⟨e, (he e (Or.inl hk)).mpr hst, hk, hrest⟩

/-! ### Nodes as the pass reads them -/

/-- The node of an ID as a pass over the interfaces reads it: without its shape, and none if
it is that of a contract. -/
def typeNode (g : Graph) (id : String) : Option Node :=
  (g.bareAt id).filter fun n => n.kind ≠ .kindContract

theorem typeNode_eq_some {id : String} {m : Node} :
    g.typeNode id = some m ↔
      ∃ n, g.nodeAt id = some n ∧ n.kind ≠ .kindContract ∧ n.bare = m := by
  unfold typeNode bareAt
  rw [Option.filter_eq_some_iff]
  constructor
  · rintro ⟨hm, hk⟩
    obtain ⟨n, hn, rfl⟩ := Option.map_eq_some_iff.mp hm
    exact ⟨n, hn, of_decide_eq_true hk, rfl⟩
  · rintro ⟨n, hn, hk, rfl⟩
    exact ⟨by rw [hn, Option.map_some], decide_eq_true hk⟩

theorem typeNode_congr {id : String} (h : g'.bareAt id = g.bareAt id) :
    g'.typeNode id = g.typeNode id := by
  rw [typeNode, typeNode, h]

/-- What a pass asks of a node that is none of a contract. -/
theorem exists_nodeAt_congr {id : String} (h : g'.typeNode id = g.typeNode id) {Q : Node → Prop}
    (hbare : ∀ n, Q n.bare ↔ Q n) (hQ : ∀ n, Q n → n.kind ≠ .kindContract) :
    (∃ n, g'.nodeAt id = some n ∧ Q n) ↔ ∃ n, g.nodeAt id = some n ∧ Q n := by
  have hview : ∀ g : Graph, (∃ n, g.nodeAt id = some n ∧ Q n) ↔
      ∃ m, g.typeNode id = some m ∧ Q m := fun g => by
    constructor
    · rintro ⟨n, hn, hq⟩
      exact ⟨n.bare, typeNode_eq_some.mpr ⟨n, hn, hQ n hq, rfl⟩, (hbare n).mpr hq⟩
    · rintro ⟨m, hm, hq⟩
      obtain ⟨n, hn, -, rfl⟩ := typeNode_eq_some.mp hm
      exact ⟨n, hn, (hbare n).mp hq⟩
  rw [hview, hview, h]

theorem requiredMethods_bare (n : Node) : requiredMethods n.bare = requiredMethods n := by
  have hlookup : n.bare.metadata.lookup "methods" = n.metadata.lookup "methods" := by
    change (n.metadata.erase "shape").lookup "methods" = _
    rw [GoMap.lookup_erase, if_neg (by decide)]
  unfold requiredMethods
  rw [hlookup]

/-- The pass finds the same in two graphs whose nodes it reads alike. -/
theorem Satisfies.of_typeNode {t i : String} (hn : ∀ id, g'.typeNode id = g.typeNode id)
    (he : ∀ e, Typing e.kind → (g'.StoredEdge e ↔ g.StoredEdge e)) :
    g'.Satisfies t i ↔ g.Satisfies t i := by
  have hmethod : ∀ m, g'.HasMethod t m ↔ g.HasMethod t m := by
    intro m
    refine exists_congr fun e => ?_
    have hfrom := exists_nodeAt_congr (hn e.fromID)
      (Q := fun n => n.kind = .kindMethod ∧ n.name = m) (fun _ => Iff.rfl)
      fun n hq hc => by
        rw [hq.1] at hc
        cases hc
    constructor
    · rintro ⟨n, hst, hk, ht, hnode, hq⟩
      obtain ⟨n', hn', hq'⟩ := hfrom.mp ⟨n, hnode, hq⟩
      exact ⟨n', (he e (Or.inr hk)).mp hst, hk, ht, hn', hq'⟩
    · rintro ⟨n, hst, hk, ht, hnode, hq⟩
      obtain ⟨n', hn', hq'⟩ := hfrom.mpr ⟨n, hnode, hq⟩
      exact ⟨n', (he e (Or.inr hk)).mpr hst, hk, ht, hn', hq'⟩
  have htype := exists_nodeAt_congr (hn t) (Q := fun n => n.isTypeLike = true) (fun _ => Iff.rfl)
    fun n hq hc => by
      rw [Node.isTypeLike, hc] at hq
      cases hq
  have hiface := exists_nodeAt_congr (hn i)
    (Q := fun n => n.kind = .kindInterface ∧ requiredMethods n ≠ [] ∧
      ∀ m ∈ requiredMethods n, g.HasMethod t m)
    (fun n => by rw [requiredMethods_bare]; exact Iff.rfl)
    fun n hq hc => by
      rw [hq.1] at hc
      cases hc
  constructor
  · rintro ⟨hne, ht, hi⟩
    simp only [hmethod] at hi
    exact ⟨hne, htype.mp ht, hiface.mp hi⟩
  · rintro ⟨hne, ht, hi⟩
    refine ⟨hne, htype.mpr ht, ?_⟩
    simp only [hmethod]
    exact hiface.mpr hi

/-! ### One operation -/

/-- A pass that keeps the edges of the kinds, and the nodes as the pass over the interfaces
reads them. -/
structure KeepsTypes (C : String → Prop) (g g' : Graph) : Prop where
  edges : KeepsOf Typing g g'
  weak : Weak g → Weak g'
  nodes : Weak g → (∀ id, C id → g.typeNode id = none) → ∀ id, g'.typeNode id = g.typeNode id

theorem KeepsTypes.refl (g : Graph) : KeepsTypes C g g :=
  ⟨KeepsOf.refl g, id, fun _ _ _ => rfl⟩

theorem KeepsTypes.trans (h : KeepsTypes C g g') (h' : KeepsTypes C g' g'') :
    KeepsTypes C g g'' where
  edges := h.edges.trans h'.edges
  weak := fun hg => h'.weak (h.weak hg)
  nodes := fun hg hC id => by
    have hfirst := h.nodes hg hC
    rw [h'.nodes (h.weak hg) (fun id hid => by rw [hfirst, hC id hid]), hfirst]

theorem KeepsTypes.of_quiet (he : KeepsOf Typing g g') (h : Quiet g g') : KeepsTypes C g g' :=
  ⟨he, h.weak, fun _ _ id => typeNode_congr (bareAt_congr (h.nodes.nodeAt id))⟩

/-- **Such a pass** keeps the types in their files, and what is inferred. -/
theorem Typed.of_keepsTypes (h : Typed Home g) (hk : KeepsTypes C g g')
    (hC : ∀ {id q}, Home id q → ¬C id) :
    Typed Home g' ∧ (∀ t i, g'.Implements t i ↔ g.Implements t i) ∧
      ∀ t i, g'.Satisfies t i ↔ g.Satisfies t i := by
  have hnone : ∀ id, C id → g.typeNode id = none := by
    intro id hid
    rw [Option.eq_none_iff_forall_ne_some]
    intro m hm
    obtain ⟨n, hn, hkind, -⟩ := typeNode_eq_some.mp hm
    exact hC (h.home hn hkind) hid
  have hnodes := hk.nodes h.right.weak hnone
  have hstored := hk.edges.stored h.right
  refine ⟨⟨hk.edges.right h.right, fun {id n} hn hkind => ?_, fun {e} hst he => ?_⟩,
    fun t i => Implements.congr hstored, fun t i => Satisfies.of_typeNode hnodes hstored⟩
  · have hview := typeNode_eq_some.mpr ⟨n, hn, hkind, rfl⟩
    rw [hnodes] at hview
    obtain ⟨m, hm, hmkind, hbare⟩ := typeNode_eq_some.mp hview
    have hpath := congrArg Node.filePath hbare
    exact (show m.filePath = n.filePath from hpath) ▸ h.home hm hmkind
  · exact h.member ((hstored e (Or.inr he)).mp hst) he

/-- **Evicting a file** takes no method of a type that is left. -/
theorem Typed.evictFile (h : Typed Home g) (ord : MapOrder) (filePath : String) :
    Typed Home (Graph.evictFile ord g filePath).graph ∧
      (g.Sound → (Graph.evictFile ord g filePath).graph.Sound) := by
  obtain ⟨hright, hstored⟩ := h.right.evictFile ord filePath
  have hnode := h.right.weak.nodes.nodeAt_evictFile ord filePath
  have hkept : ∀ {id n}, g.nodeAt id = some n → n.filePath ≠ filePath →
      (Graph.evictFile ord g filePath).graph.nodeAt id = some n := fun hn hp => by
    rw [hnode, hn, Option.filter, if_pos (by simp [hp])]
  have hout : ∀ {id n}, g.nodeAt id = some n → ¬g.InFile filePath id → n.filePath ≠ filePath :=
    fun hn hid hp => hid ⟨_, hn, hp⟩
  refine ⟨⟨hright, fun hn => ?_, fun hst he => ?_⟩, fun hsound t i himp => ?_⟩
  · rw [hnode] at hn
    exact h.home (Option.filter_eq_some_iff.mp hn).1
  · exact h.member ((hstored _ (Or.inr he)).mp hst).1 he
  · obtain ⟨e, hst, hk, rfl, rfl⟩ := himp
    obtain ⟨hst, hfrom, hto⟩ := (hstored e (Or.inl hk)).mp hst
    obtain ⟨hne, ⟨n, hn, hlike⟩, m, hm, hkind, hreq, hall⟩ := hsound _ _ ⟨e, hst, hk, rfl, rfl⟩
    refine ⟨hne, ⟨n, hkept hn (hout hn hfrom), hlike⟩, m, hkept hm (hout hm hto), hkind, hreq,
      fun name hname => ?_⟩
    obtain ⟨e', m', hst', hk', ht', hm', hkind', hname'⟩ := hall name hname
    -- the method lies in the file of the type, and that is another one
    have hmethod : m'.filePath = n.filePath := by
      refine h.member hst' hk' (h.home hm' fun hc => ?_) (ht' ▸ h.home hn fun hc => ?_)
      · rw [hkind'] at hc
        cases hc
      · rw [Node.isTypeLike, hc] at hlike
        cases hlike
    have hpath : m'.filePath ≠ filePath := hmethod ▸ hout hn hfrom
    refine ⟨e', m', (hstored e' (Or.inr hk')).mpr ⟨hst', ?_, ht' ▸ hfrom⟩, hk', ht',
      hkept hm' hpath, hkind', hname'⟩
    rintro ⟨m'', hm'', hp⟩
    rw [hm'] at hm''
    exact hpath (Option.some.inj hm'' ▸ hp)

/-- What a file gives is added to the types in their files. -/
theorem Typed.addResult (h : Typed Home g) (hres : res.AtHome Home p) :
    Typed Home (Indexer.addResult g res) ∧
      ∀ t i, (Indexer.addResult g res).Implements t i ↔ g.Implements t i := by
  have hnodes : KeepsOf Typing g (res.nodes.foldl Graph.putNode g) :=
    KeepsOf.foldl (fun g n hn => KeepsOf.putNode (hres.settledNode n hn) g) g
  have hsettled : ∀ e ∈ res.edges, Typing e.kind → ¬e.IsUnresolved := fun e he hk =>
    hres.settled e he (hk.resolve_left (hres.edge e he))
  obtain ⟨hright, hnew, hold⟩ := (hnodes.right h.right).foldl_putEdge hsettled
  have hstored := hnodes.stored h.right
  refine ⟨⟨hright, fun {id n} hn hkind => ?_, fun {e} hst he {q q'} hq hq' => ?_⟩, fun t i => ?_⟩
  · rw [Indexer.nodeAt_addResult h.right.weak.nodes] at hn
    rcases Option.or_eq_some_iff.mp hn with hx | ⟨-, hx⟩
    · obtain ⟨hmem, rfl⟩ := ExtractionResult.mem_of_nodeAt hx
      obtain ⟨hhome, hpath⟩ := hres.node n hmem
      rwa [hpath]
    · exact h.home hx hkind
  · rcases hnew e (Or.inr he) hst with hmem | hst
    · rw [hres.member e hmem he q (Or.inl hq), hres.member e hmem he q' (Or.inr hq')]
    · exact h.member ((hstored e (Or.inr he)).mp hst) he hq hq'
  · constructor
    · rintro ⟨e, hst, hk, hrest⟩
      rcases hnew e (Or.inl hk) hst with hmem | hst
      · exact absurd hk (hres.edge e hmem)
      · exact ⟨e, (hstored e (Or.inl hk)).mp hst, hk, hrest⟩
    · rintro ⟨e, hst, hk, hrest⟩
      refine ⟨e, hold e (Or.inl hk) ((hstored e (Or.inl hk)).mpr hst) fun e' he' hkey => ?_, hk, hrest⟩
      have hkind : e.kind = e'.kind := congrArg EdgeKey.kind hkey
      exact hres.edge e' he' (hkind ▸ hk)

/-- **Adding what a file gives**, none of whose nodes are left, takes no method of a type. -/
theorem Typed.sound_addResult (h : Typed Home g) (hres : res.AtHome Home p)
    (hgone : ∀ {id n}, g.nodeAt id = some n → n.kind ≠ .kindContract → n.filePath ≠ p)
    (hunique : ∀ id q q', Home id q → Home id q' → q = q') (hsound : g.Sound) :
    (Indexer.addResult g res).Sound := by
  have hnodes : KeepsOf Typing g (res.nodes.foldl Graph.putNode g) :=
    KeepsOf.foldl (fun g n hn => KeepsOf.putNode (hres.settledNode n hn) g) g
  have hsettled : ∀ e ∈ res.edges, Typing e.kind → ¬e.IsUnresolved := fun e he hk =>
    hres.settled e he (hk.resolve_left (hres.edge e he))
  obtain ⟨-, -, hold⟩ := (hnodes.right h.right).foldl_putEdge hsettled
  have hstored := hnodes.stored h.right
  have hkept : ∀ {id n}, g.nodeAt id = some n → n.kind ≠ .kindContract →
      (Indexer.addResult g res).nodeAt id = some n := by
    intro id n hn hkind
    rw [Indexer.nodeAt_addResult h.right.weak.nodes]
    cases hx : res.nodeAt id with
    | none => exact hn
    | some m =>
      obtain ⟨hmem, rfl⟩ := ExtractionResult.mem_of_nodeAt hx
      exact absurd (hunique _ _ _ (h.home hn hkind) (hres.node m hmem).1) (hgone hn hkind)
  intro t i himp
  obtain ⟨hne, ⟨n, hn, hlike⟩, m, hm, hkind, hreq, hall⟩ :=
    hsound t i (((h.addResult hres).2 t i).mp himp)
  refine ⟨hne, ⟨n, hkept hn fun hc => ?_, hlike⟩, m, hkept hm fun hc => ?_, hkind, hreq,
    fun name hname => ?_⟩
  · rw [Node.isTypeLike, hc] at hlike
    cases hlike
  · rw [hkind] at hc
    cases hc
  · obtain ⟨e', m', hst', hk', ht', hm', hkind', hname'⟩ := hall name hname
    have hmethod : m'.kind ≠ .kindContract := fun hc => by
      rw [hkind'] at hc
      cases hc
    refine ⟨e', m', hold e' (Or.inr hk') ((hstored e' (Or.inr hk')).mpr hst') fun e he hkey => ?_,
      hk', ht', hkept hm' hmethod, hkind', hname'⟩
    -- an edge of its identity would come from a method of the file
    have hsame : e'.kind = e.kind := congrArg EdgeKey.kind hkey
    have hfrom : e'.fromID = e.fromID := congrArg EdgeKey.fromID hkey
    exact hgone hm' hmethod
      (hres.member e he (hsame ▸ hk') _ (Or.inl (hfrom ▸ h.home hm' hmethod)))

/-- **InferImplements** makes the inferred edges those that are satisfied. -/
theorem Typed.inferImplements (h : Typed Home g) (hsound : g.Sound) (ord : MapOrder) :
    Typed Home (g.inferImplements ord).1 ∧
      ∀ t i, (g.inferImplements ord).1.Implements t i ↔ (g.inferImplements ord).1.Satisfies t i := by
  have hinf := infers_inferImplements (Or.inl rfl) h.right ord
  have hmember : ∀ e, e.kind = .edgeMemberOf →
      ((g.inferImplements ord).1.StoredEdge e ↔ g.StoredEdge e) := fun e he =>
    hinf.other e (Or.inr he) fun hc => by
      rw [he] at hc
      cases hc
  refine ⟨⟨hinf.right, fun hn => ?_, fun hst he => ?_⟩, fun t i => ?_⟩
  · rw [hinf.nodes.nodeAt] at hn
    exact h.home hn
  · exact h.member ((hmember _ he).mp hst) he
  · rw [hinf.pairs, Satisfies.congr hinf.nodes.nodeAt hmember]
    exact or_iff_right_of_imp (hsound t i)

end Graph

/-! ### What the extractors promise -/

/-- **What the extractors promise of types**, for files of the paths: nodes are in the file
they were given and their IDs tell it and are no placeholders, there are no edges to
interfaces, and an edge from a method to its type names no node of another file. -/
structure Registry.Typed (r : Registry) (Paths : String → Prop) : Prop where
  filePath : ∀ {p src res n}, Paths p → r.Extracts p src res → n ∈ res.nodes → n.filePath = p
  apart : ∀ {p src res n p' src' res' n'}, Paths p → r.Extracts p src res → n ∈ res.nodes →
    Paths p' → r.Extracts p' src' res' → n' ∈ res'.nodes → n.id = n'.id → p = p'
  settledNode : ∀ {p src res n}, Paths p → r.Extracts p src res → n ∈ res.nodes →
    ¬hasPrefix n.id unresolvedPrefix = true
  edge : ∀ {p src res e}, Paths p → r.Extracts p src res → e ∈ res.edges →
    e.kind ≠ .edgeImplements
  settled : ∀ {p src res e}, Paths p → r.Extracts p src res → e ∈ res.edges →
    e.kind = .edgeMemberOf → ¬e.IsUnresolved
  member : ∀ {p src res e p' src' res' n'}, Paths p → r.Extracts p src res → e ∈ res.edges →
    e.kind = .edgeMemberOf → Paths p' → r.Extracts p' src' res' → n' ∈ res'.nodes →
    n'.id = e.fromID ∨ n'.id = e.toID → p' = p

namespace Indexer

variable {idx idx' : Indexer} {ce : ContractExtractors} {ords : Orders}
  {mods : GoMap String String} {disk : Disk} {Paths C : String → Prop} {s : Store} {root : String}

/-- **The ID is at home in the path**: some content of the file gives a node of this ID. -/
def Home (idx : Indexer) (Paths : String → Prop) (id p : String) : Prop :=
  ∃ rel src res n, Paths rel ∧ idx.registry.Extracts rel src res ∧ n ∈ res.nodes ∧
    id = idx.prefixPath n.id ∧ p = idx.prefixPath rel

/-- What the indexers of a repository share. -/
structure SameNames (idx idx' : Indexer) : Prop where
  registry : idx'.registry = idx.registry
  repoPrefix : idx'.repoPrefix = idx.repoPrefix

theorem Home.unique (hr : idx.registry.Typed Paths) {id q q' : String} (h : idx.Home Paths id q)
    (h' : idx.Home Paths id q') : q = q' := by
  obtain ⟨rel, src, res, n, hp, hx, hn, rfl, rfl⟩ := h
  obtain ⟨rel', src', res', n', hp', hx', hn', hid, rfl⟩ := h'
  rw [hr.apart hp hx hn hp' hx' hn' (prefixPath_inj hid)]

theorem SameNames.home (h : SameNames idx idx') {id p : String} :
    idx'.Home Paths id p ↔ idx.Home Paths id p := by
  unfold Home prefixPath
  rw [h.registry, h.repoPrefix]

theorem not_hasPrefix_prefixPath (hpre : ¬hasPrefix idx.repoPrefix unresolvedPrefix = true)
    {id : String} (hid : ¬hasPrefix id unresolvedPrefix = true) :
    ¬hasPrefix (idx.prefixPath id) unresolvedPrefix = true := by
  unfold prefixPath
  split
  · exact hid
  · exact fun hc => hpre (hasPrefix_of_hasPrefix_slash (by decide) hc)

/-- The edges that are no placeholders go under the prefix with both ends. -/
theorem prefixEdge_eq {e : Edge} (he : ¬e.IsUnresolved) :
    (idx.prefixEdge e).fromID = idx.prefixPath e.fromID ∧
      (idx.prefixEdge e).toID = idx.prefixPath e.toID ∧ (idx.prefixEdge e).kind = e.kind := by
  unfold prefixEdge prefixPath
  split
  · exact ⟨rfl, rfl, rfl⟩
  · exact ⟨rfl, if_neg he, rfl⟩

theorem kind_prefixEdge (e : Edge) : (idx.prefixEdge e).kind = e.kind := by
  unfold prefixEdge
  split <;> rfl

/-- **What a file gives is at home in it.** -/
theorem atHome_extractFile (hr : idx.registry.Typed Paths)
    (hpre : ¬hasPrefix idx.repoPrefix unresolvedPrefix = true) {path rel : String}
    {res : ExtractionResult} (hp : Paths rel) (h : idx.extractFile disk path rel = .ok (some res)) :
    res.AtHome (idx.Home Paths) (idx.prefixPath rel) := by
  obtain ⟨src, raw, hraw, rfl⟩ := extracts_of_extractFile h
  refine ⟨fun n hn => ?_, fun n hn => ?_, fun e he => ?_, fun e he hk => ?_, fun e he hk q hq => ?_⟩
  · obtain ⟨m, hm, rfl⟩ := List.mem_map.mp hn
    refine ⟨⟨rel, src, raw, m, hp, hraw, hm, id_prefixNode m, rfl⟩, ?_⟩
    rw [filePath_prefixNode, hr.filePath hp hraw hm]
  · obtain ⟨m, hm, rfl⟩ := List.mem_map.mp hn
    rw [id_prefixNode]
    exact not_hasPrefix_prefixPath hpre (hr.settledNode hp hraw hm)
  · obtain ⟨e, hmem, rfl⟩ := List.mem_map.mp he
    rw [kind_prefixEdge]
    exact hr.edge hp hraw hmem
  · obtain ⟨e, hmem, rfl⟩ := List.mem_map.mp he
    rw [kind_prefixEdge] at hk
    have hset := hr.settled hp hraw hmem hk
    unfold Edge.IsUnresolved
    rw [(prefixEdge_eq hset).2.1]
    exact not_hasPrefix_prefixPath hpre hset
  · obtain ⟨e, hmem, rfl⟩ := List.mem_map.mp he
    rw [kind_prefixEdge] at hk
    obtain ⟨hfrom, hto, -⟩ := @prefixEdge_eq idx e (hr.settled hp hraw hmem hk)
    rw [hfrom, hto] at hq
    obtain ⟨rel', src', res', n', hp', hx', hn', hid, rfl⟩ | ⟨rel', src', res', n', hp', hx', hn', hid, rfl⟩ := hq
    · rw [hr.member hp hraw hmem hk hp' hx' hn' (Or.inl (prefixPath_inj hid).symm)]
    · rw [hr.member hp hraw hmem hk hp' hx' hn' (Or.inr (prefixPath_inj hid).symm)]

/-! ### Runs of the indexer -/

/-- The types are in their files, and what is inferred is justified. -/
def Sounds (idx : Indexer) (Paths : String → Prop) (g : Graph) : Prop := Typed (idx.Home Paths) g ∧ g.Sound

/-- **The inferred edges are the pairs that are satisfied.** -/
def Exact (idx : Indexer) (Paths : String → Prop) (g : Graph) : Prop :=
  Typed (idx.Home Paths) g ∧ ∀ t i, g.Implements t i ↔ g.Satisfies t i

theorem Exact.sounds {g : Graph} (h : idx.Exact Paths g) : idx.Sounds Paths g :=
  ⟨h.1, fun t i => (h.2 t i).mp⟩

theorem Sounds.resolveFile {g : Graph} (h : idx.Sounds Paths g) (ord : MapOrder) (filePath : String) :
    idx.Sounds Paths (g.resolveFile ord filePath).1 := by
  obtain ⟨htyped, himp, hsat⟩ := h.1.of_keepsTypes (C := fun _ => False)
    (KeepsTypes.of_quiet (KeepsOf.resolveFile ord g filePath) (Quiet.resolveFile ord g filePath))
    fun _ hc => hc
  exact ⟨htyped, fun t i hi => (hsat t i).mpr (h.2 t i ((himp t i).mp hi))⟩

/-- **Evicting a file** keeps the inferred edges justified. -/
theorem Sounds.evictFile {g : Graph} (h : idx.Sounds Paths g) (ord : MapOrder) (filePath : String) :
    idx.Sounds Paths (Graph.evictFile ord g filePath).graph :=
  ⟨(h.1.evictFile ord filePath).1, (h.1.evictFile ord filePath).2 h.2⟩

/-- **Indexing a file** keeps them justified, with all that takes its old nodes away first. -/
theorem Sounds.indexFile (hr : idx.registry.Typed Paths)
    (hpre : ¬hasPrefix idx.repoPrefix unresolvedPrefix = true) (h : idx.Sounds Paths s.graph)
    (ord : MapOrder) (disk : Disk) (filePath : String) (resolve : Bool)
    (hp : Paths (idx.relPathOf filePath (GoPath.abs disk.cwd filePath))) :
    idx.Sounds Paths (idx.indexFile ord disk s filePath resolve).2.1.graph := by
  have hev := h.evictFile ord
    (idx.prefixPath (idx.relPathOf filePath (GoPath.abs disk.cwd filePath)))
  have hgone := h.1.right.weak.nodes.nodeAt_evictFile ord
    (idx.prefixPath (idx.relPathOf filePath (GoPath.abs disk.cwd filePath)))
  unfold Indexer.indexFile
  simp only
  rcases hx : idx.extractFile disk (GoPath.abs disk.cwd filePath)
    (idx.relPathOf filePath (GoPath.abs disk.cwd filePath)) with err | (- | res)
  · exact hev
  · exact hev
  · have hhome := atHome_extractFile hr hpre hp hx
    have hadd : idx.Sounds Paths (addResult (Graph.evictFile ord s.graph
        (idx.prefixPath (idx.relPathOf filePath (GoPath.abs disk.cwd filePath)))).graph res) := by
      refine ⟨(hev.1.addResult hhome).1, hev.1.sound_addResult hhome
        (fun hn _ => ?_) (fun _ _ _ => Home.unique hr) hev.2⟩
      rw [hgone] at hn
      exact of_decide_eq_true (Option.filter_eq_some_iff.mp hn).2
    simp only
    split
    · exact hadd.resolveFile ord _
    · exact hadd

theorem SameNames.sounds (h : SameNames idx idx') {g : Graph} : idx'.Sounds Paths g ↔ idx.Sounds Paths g := by
  have hhome : idx'.Home Paths = idx.Home Paths := funext fun id => funext fun p => propext h.home
  unfold Sounds
  rw [hhome]

/-- The files below a root are of the paths. -/
def Within (Paths : String → Prop) (disk : Disk) (root : String) : Prop :=
  ∀ path ∈ disk.walkDir root, Paths (walkRel root path)

/-- **The loops of an incremental index** keep the inferred edges justified. -/
theorem Sounds.rescanned (hr : idx.registry.Typed Paths)
    (hpre : ¬hasPrefix idx.repoPrefix unresolvedPrefix = true) (h : idx.Sounds Paths s.graph)
    (ords : Orders) (hw : Within Paths disk (GoPath.abs disk.cwd root)) :
    idx.Sounds Paths (idx.rescanned ords disk s root).2.graph ∧
      SameNames idx (idx.rescanned ords disk s root).1 ∧
      (idx.rescanned ords disk s root).1.contractCache = idx.contractCache := by
  let P : Indexer × Store → Prop := fun p => idx.Sounds Paths p.2.graph ∧ SameNames idx p.1 ∧
    p.1.contractCache = idx.contractCache ∧ p.1.rootPath = GoPath.abs disk.cwd root
  have hstart : P (idx.atRoot disk root, s) := ⟨h, ⟨rfl, rfl⟩, rfl, rfl⟩
  have hevict : ∀ (p : Indexer × Store) rel, P p → P (evictDeleted ords.graph p rel) := by
    rintro p rel ⟨hs, hsame, hcache, hroot⟩
    exact ⟨hs.evictFile ords.graph _, ⟨hsame.registry, hsame.repoPrefix⟩, hcache, hroot⟩
  have hindex : ∀ (p : Indexer × Store), ∀ path ∈ (idx.atRoot disk root).staleFiles disk
      (GoPath.abs disk.cwd root), P p → P (reindexStale disk ords.graph p path) := by
    rintro p path hpath ⟨hs, hsame, hcache, hroot⟩
    have hwalk := List.mem_of_mem_filter hpath
    obtain ⟨⟨hclean, habs⟩, hunder⟩ := mem_walkFiles hwalk
    have halike := @alike_indexFile p.1 ords.graph disk p.2 path true
    refine ⟨?_, ⟨halike.registry.trans hsame.registry, halike.repoPrefix.trans hsame.repoPrefix⟩,
      (contractCache_indexFile ords.graph disk p.2 path true).trans hcache,
      halike.rootPath.trans hroot⟩
    refine hsame.sounds.mp (Sounds.indexFile ?_ ?_ (hsame.sounds.mpr hs) ords.graph disk path true ?_)
    · rw [hsame.registry]
      exact hr
    · rw [hsame.repoPrefix]
      exact hpre
    · rw [disk.abs_eq hclean habs, relPathOf_of_under (hroot ▸ hunder), hroot]
      exact hw path (List.mem_of_mem_filter hwalk)
  obtain ⟨hs, hsame, hcache, -⟩ := List.foldl_invariant (P := P) hindex
    (List.foldl_invariant (P := P) (fun p rel _ hp => hevict p rel hp) hstart)
  exact ⟨hs, hsame, hcache⟩

/-! ### The contract passes -/

end Indexer

theorem Graph.KeepsOf.setShape {K : EdgeKind → Prop} (g : Graph) (r : NodeRef)
    (shape : MetaValue) : KeepsOf K g (g.setShape r shape) where
  right := fun h =>
    { weak := h.weak.setShape r shape
      edges := h.edges.of_tables rfl rfl rfl rfl
      settled := h.settled
      ids := fun {id n} hn => by
        have hsome : (g.bareAt id).isSome = true := by
          rw [← bareAt_setShape g r shape, bareAt, hn]
          rfl
        obtain ⟨m, hm⟩ := Option.isSome_iff_exists.mp hsome
        obtain ⟨m, hm, -⟩ := Option.map_eq_some_iff.mp hm
        exact h.ids hm }
  stored := fun _ _ _ => Iff.rfl

/-- **A contract pass** keeps the types, if its IDs are no placeholders. -/
theorem Graph.ContractWrites.keepsTypes {P : Contract → Prop} {C : String → Prop}
    (hPC : ∀ c, P c → C c.id) (hC : ∀ id, C id → ¬hasPrefix id unresolvedPrefix = true) :
    ContractWrites P (KeepsTypes C) where
  refl := KeepsTypes.refl
  trans := KeepsTypes.trans
  putEdge := fun g e he => KeepsTypes.of_quiet
    (KeepsOf.putEdge (fun hk => by
      rcases hk with hk | hk
      · rw [hk] at he
        exact absurd he (by decide)
      · rw [hk] at he
        exact absurd he (by decide)) g) (Quiet.putEdge g e)
  setShape := fun g r shape => ⟨KeepsOf.setShape g r shape, fun hg => hg.setShape r shape,
    fun _ _ id => typeNode_congr (bareAt_setShape g r shape id)⟩
  putNode := fun g {c} hc => ⟨KeepsOf.putNode (hC _ (hPC c hc)) g, fun hg => hg.putNode _,
    fun hg hnone id => by
      by_cases hid : id = c.id
      · -- the node of the contract is read as none
        rw [hid, hnone _ (hPC c hc), typeNode, bareAt, hg.nodes.nodeAt_putNode]
        exact congrArg (fun o => Option.filter _ (Option.map Node.bare o)) (if_pos rfl)
      · refine typeNode_congr (bareAt_congr ?_)
        rw [hg.nodes.nodeAt_putNode]
        exact if_neg hid⟩

namespace Indexer

variable {idx idx' : Indexer} {ce : ContractExtractors} {ords : Orders}
  {mods : GoMap String String} {disk : Disk} {C : String → Prop} {s : Store} {root : String}

theorem Exact.of_keepsTypes {g g' : Graph} (h : idx.Exact Paths g) (hk : KeepsTypes C g g')
    (hC : ∀ {id q}, idx.Home Paths id q → ¬C id) : idx.Exact Paths g' := by
  obtain ⟨htyped, himp, hsat⟩ := h.1.of_keepsTypes hk hC
  exact ⟨htyped, fun t i => by rw [himp, hsat, h.2]⟩

/-- **The IDs of a repository do not clash**: those of contracts are none of its nodes, and no
placeholders. -/
structure Unclashing (idx : Indexer) (Paths : String → Prop) (C : String → Prop) : Prop where
  home : ∀ {id q}, idx.Home Paths id q → ¬C id
  settled : ∀ id, C id → ¬hasPrefix id unresolvedPrefix = true

/-- **A full index of nothing but its files** infers the pairs that are satisfied. -/
theorem exact_indexCtx (hr : idx.registry.Typed Paths)
    (hpre : ¬hasPrefix idx.repoPrefix unresolvedPrefix = true) (hce : ContractIDs ce disk C)
    (hC : idx.Unclashing Paths C) (hcache : CacheAll (fun c => C c.id) idx.contractCache)
    (hw : Within Paths disk (GoPath.abs disk.cwd root)) (hs : Typed (idx.Home Paths) s.graph)
    (hnone : ∀ t i, ¬s.graph.Implements t i) :
    idx.Exact Paths (idx.IndexCtx ce ords mods disk s root).2.1.graph := by
  have hparsed : Typed (idx.Home Paths) (idx.parsed ce ords disk s root).graph ∧
      ∀ t i, ¬(idx.parsed ce ords disk s root).graph.Implements t i := by
    refine List.foldl_invariant (P := fun p : Parsing => Typed (idx.Home Paths) p.graph ∧
      ∀ t i, ¬p.graph.Implements t i) (fun p path hpath hp => ?_) ⟨hs, hnone⟩
    have hwalk := mem_walkFiles_of_mem_indexFiles (ords.workers.mem.mp hpath)
    have hadd : ∀ res, idx.extractFile disk path (walkRel (GoPath.abs disk.cwd root) path) =
        .ok (some res) → Typed (idx.Home Paths) (addResult p.graph res) ∧
          ∀ t i, ¬(addResult p.graph res).Implements t i := fun res hx => by
      obtain ⟨htyped, himp⟩ := hp.1.addResult
        (atHome_extractFile hr hpre (hw path (List.mem_of_mem_filter hwalk)) hx)
      exact ⟨htyped, fun t i hi => hp.2 t i ((himp t i).mp hi)⟩
    unfold parseFile
    split
    · exact hp
    · exact hp
    · rename_i res hx
      simp only
      split <;> exact hadd res hx
  obtain ⟨htyped, himp, -⟩ := hparsed.1.of_keepsTypes (C := C)
    (KeepsTypes.of_quiet (KeepsOf.resolveAll ords.graph _) (Quiet.resolveAll ords.graph _)) hC.home
  have hinf : idx.Exact Paths (resolveAll ords.graph
      { s with graph := (idx.parsed ce ords disk s root).graph }).graph :=
    htyped.inferImplements (fun t i hi => absurd ((himp t i).mp hi) (hparsed.2 t i)) ords.graph
  exact hinf.of_keepsTypes (contractWrites_indexCtx (ContractWrites.keepsTypes (fun _ hc => hc)
    hC.settled) hce.found hcache fun _ _ _ => hce.di) hC.home

/-- **An incremental index** infers the pairs that are satisfied, and takes back what is no
more. -/
theorem Sounds.incrementalReindex (hr : idx.registry.Typed Paths)
    (hpre : ¬hasPrefix idx.repoPrefix unresolvedPrefix = true) (hce : ContractIDs ce disk C)
    (hC : idx.Unclashing Paths C) (hcache : CacheAll (fun c => C c.id) idx.contractCache)
    (hw : Within Paths disk (GoPath.abs disk.cwd root)) (h : idx.Sounds Paths s.graph) :
    idx.Exact Paths (idx.IncrementalReindex ce ords mods disk s root).2.1.graph := by
  obtain ⟨hs, hsame, hcache'⟩ := h.rescanned hr hpre ords hw
  have hinf : idx.Exact Paths ((idx.rescanned ords disk s root).2.graph.inferImplements ords.graph).1 :=
    hs.1.inferImplements hs.2 ords.graph
  refine hinf.of_keepsTypes (contractWrites_incrementalReindex (ContractWrites.keepsTypes
    (fun _ hc => hc) hC.settled) hce.found ?_ fun _ _ _ => hce.di) hC.home
  rw [hcache']
  exact hcache

/-! ### An index and the later ones -/

/-- A call of an indexer, and what it finds. -/
structure IndexCall where
  ords : Orders
  trackedRepoModules : GoMap String String
  disk : Disk
  root : String

/-- The graph is freshly indexed. -/
def indexed (ce : ContractExtractors) (idx : Indexer) (c : IndexCall) : Indexer × Store :=
  let r := idx.IndexCtx ce c.ords c.trackedRepoModules c.disk {} c.root
  (r.1, r.2.1)

/-- The graph is indexed again. -/
def reindexed (ce : ContractExtractors) (p : Indexer × Store) (c : IndexCall) : Indexer × Store :=
  let r := p.1.IncrementalReindex ce c.ords c.trackedRepoModules c.disk p.2 c.root
  (r.1, r.2.1)

/-- What is asked of what a call finds: its files are of the paths, and its contracts have
the IDs. -/
structure IndexCall.Fits (ce : ContractExtractors) (Paths C : String → Prop) (c : IndexCall) :
    Prop where
  within : Within Paths c.disk (GoPath.abs c.disk.cwd c.root)
  ids : ContractIDs ce c.disk C

/-- **What is true between two calls**: the inferred edges are the pairs that are satisfied,
and the indexer is the one of the first call but for what it has recorded. -/
structure Current (idx : Indexer) (Paths : String → Prop) (C : String → Prop) (p : Indexer × Store) : Prop where
  names : SameNames idx p.1
  cache : CacheAll (fun c => C c.id) p.1.contractCache
  graph : idx.Exact Paths p.2.graph

theorem SameNames.unclashing (h : SameNames idx idx') (hC : idx.Unclashing Paths C) :
    idx'.Unclashing Paths C := ⟨fun hq => hC.home (h.home.mp hq), hC.settled⟩

theorem SameNames.exact (h : SameNames idx idx') {g : Graph} : idx'.Exact Paths g ↔ idx.Exact Paths g := by
  have hhome : idx'.Home Paths = idx.Home Paths := funext fun id => funext fun p => propext h.home
  unfold Exact
  rw [hhome]

theorem current_indexed (hr : idx.registry.Typed Paths)
    (hpre : ¬hasPrefix idx.repoPrefix unresolvedPrefix = true) (hC : idx.Unclashing Paths C)
    (hcache : idx.contractCache = ∅) {c : IndexCall} (hc : c.Fits ce Paths C) :
    idx.Current Paths C (indexed ce idx c) := by
  have hempty : CacheAll (fun c => C c.id) idx.contractCache := fun p e he => by
    rw [hcache] at he
    cases he
  have hnone : ∀ t i, ¬({} : Store).graph.Implements t i := fun _ _ ⟨_, ⟨_, hr, _⟩, _⟩ =>
    absurd hr List.not_mem_nil
  have hparsed : (idx.parsed ce c.ords c.disk {} c.root).All fun c => C c.id :=
    all_parsed hc.ids.found hempty
  exact ⟨⟨rfl, rfl⟩, hparsed.1, exact_indexCtx hr hpre hc.ids hC hempty hc.within Typed.new hnone⟩

/-- **One call** more. -/
theorem Current.reindexed (hr : idx.registry.Typed Paths)
    (hpre : ¬hasPrefix idx.repoPrefix unresolvedPrefix = true) (hC : idx.Unclashing Paths C)
    {p : Indexer × Store} (h : idx.Current Paths C p) {c : IndexCall} (hc : c.Fits ce Paths C) :
    idx.Current Paths C (reindexed ce p c) := by
  have hr' : p.1.registry.Typed Paths := by
    rw [h.names.registry]
    exact hr
  have hpre' : ¬hasPrefix p.1.repoPrefix unresolvedPrefix = true := by
    rw [h.names.repoPrefix]
    exact hpre
  have hsounds : p.1.Sounds Paths p.2.graph := (h.names.exact.mpr h.graph).sounds
  obtain ⟨-, hnames, hcache⟩ := hsounds.rescanned hr' hpre' c.ords hc.within
  have hscanned : CacheAll (fun c => C c.id) (p.1.rescanned c.ords c.disk p.2 c.root).1.contractCache := by
    rw [hcache]
    exact h.cache
  have hgraph : p.1.Exact Paths (Indexer.reindexed ce p c).2.graph :=
    hsounds.incrementalReindex hr' hpre' hc.ids (h.names.unclashing hC) h.cache hc.within
  have hindexer : SameNames p.1 (Indexer.reindexed ce p c).1 ∧
      CacheAll (fun c => C c.id) (Indexer.reindexed ce p c).1.contractCache := by
    unfold Indexer.reindexed IncrementalReindex
    simp only
    split_ifs
    · exact ⟨⟨hnames.registry, hnames.repoPrefix⟩,
        CacheAll.extractContracts hc.ids.found hscanned c.ords c.trackedRepoModules _⟩
    · exact ⟨hnames, hscanned⟩
  exact ⟨⟨hindexer.1.registry.trans h.names.registry, hindexer.1.repoPrefix.trans h.names.repoPrefix⟩,
    hindexer.2, h.names.exact.mp hgraph⟩

/-- **The inferred edges are the pairs that are satisfied**, on a freshly indexed graph and
after every later incremental index. -/
theorem implements_iff_satisfies (hr : idx.registry.Typed Paths)
    (hpre : ¬hasPrefix idx.repoPrefix unresolvedPrefix = true) (hC : idx.Unclashing Paths C)
    (hcache : idx.contractCache = ∅) (first : IndexCall) (later : List IndexCall)
    (hfits : ∀ c ∈ first :: later, c.Fits ce Paths C) (typeID ifaceID : String) :
    (later.foldl (reindexed ce) (indexed ce idx first)).2.graph.Implements typeID ifaceID ↔
      (later.foldl (reindexed ce) (indexed ce idx first)).2.graph.Satisfies typeID ifaceID := by
  have hcurrent : idx.Current Paths C (later.foldl (reindexed ce) (indexed ce idx first)) :=
    List.foldl_invariant (P := idx.Current Paths C)
      (fun _ c hc hp => hp.reindexed hr hpre hC (hfits c (List.mem_cons_of_mem _ hc)))
      (current_indexed hr hpre hC hcache (hfits first List.mem_cons_self))
  exact hcurrent.graph.2 typeID ifaceID

end Indexer

/-! ### A type that loses its method -/

namespace OneType

open Indexer

/-- What a file gives by its size: an interface, a type with the method it requires, or the
type alone. -/
def typeResult (p : String) (src : ByteArray) : ExtractionResult :=
  let iface : Node :=
    { id := p ++ "::I", kind := .kindInterface, name := "I", filePath := p
      metadata := (∅ : Metadata).insert "methods" (.strs ["M"]) }
  let typeNode : Node := { id := p ++ "::T", kind := .kindType, name := "T", filePath := p }
  let method : Node := { id := p ++ "::T.M", kind := .kindMethod, name := "M", filePath := p }
  let member : Edge := { fromID := method.id, toID := typeNode.id, kind := .edgeMemberOf, filePath := p }
  if src.size = 1 then ⟨[iface], []⟩
  else if src.size = 2 then ⟨[typeNode, method], [member]⟩
  else ⟨[typeNode], []⟩

/-- The extractor that gives it. -/
def typeExtractor : Extractor where
  language := "go"
  extensions := [".go"]
  extract := fun p src => .ok (typeResult p src)

/-- An indexer with this extractor. -/
def typeIndexer : Indexer where
  registry := ({} : Registry).register typeExtractor

/-- The paths of the two files. -/
def IsPath (p : String) : Prop := p = "i.go" ∨ p = "t.go"

/-- A file of so many bytes. -/
def fileOf (size : ℕ) : DiskFile := ⟨⟨(List.replicate size 0).toArray⟩, size, none⟩

/-- The disk when the type has its method. -/
def before : Disk where
  files := ((∅ : GoMap String DiskFile).insert "/r/i.go" (fileOf 1)).insert "/r/t.go" (fileOf 2)
  cwd := "/r"
  isClean := by decide +kernel

/-- The disk when the method is deleted. -/
def after : Disk where
  files := ((∅ : GoMap String DiskFile).insert "/r/i.go" (fileOf 1)).insert "/r/t.go" (fileOf 3)
  cwd := "/r"
  isClean := by decide +kernel

/-- Contract passes that find nothing. -/
def extractors : ContractExtractors where
  perFile := fun _ => none
  goMod := fun _ _ _ => []
  refine := fun _ _ _ _ reg => reg
  extractShape := fun _ _ _ _ => none

/-- The IDs of the contracts of dependency injection. -/
def IsDI (id : String) : Prop := hasPrefix id "di::" = true

theorem contractIDs (disk : Disk) : ContractIDs extractors disk IsDI where
  found :=
    { rename := fun h => h
      perFile := fun h => by cases h
      goMod := fun _ _ _ _ h => by cases h
      refine := fun h => h }
  di := fun {e c} h => by
    have hid : ∀ token role metadata, IsDI (diContract e token role metadata).id :=
      fun token _ _ => hasPrefix_append "di::" token
    unfold diContractFromEdge at h
    simp only at h
    split_ifs at h
    all_goals
      cases h
      exact hid _ _ _

/-- A call that indexes the directory. -/
def call (disk : Disk) : IndexCall :=
  ⟨⟨GoMap.RangeOrder.default, GoMap.RangeOrder.default, GoMap.RangeOrder.default,
    GoMap.RangeOrder.default⟩, ∅, disk, "/r"⟩

theorem eq_typeResult {p : String} {src : ByteArray} {res : ExtractionResult}
    (h : typeIndexer.registry.Extracts p src res) : res = typeResult p src := by
  obtain ⟨lang, ext, hlang, hres⟩ := h
  have hlookup : typeIndexer.registry.getByLanguage lang =
      if lang = "go" then some typeExtractor else none :=
    (GoMap.lookup_insert _ _ _ _).trans rfl
  rw [hlookup] at hlang
  split at hlang
  · cases hlang
    cases hres
    rfl
  · cases hlang

/-- The IDs of what a file gives start with its path. -/
theorem id_typeResult (p : String) (src : ByteArray) :
    (∀ n ∈ (typeResult p src).nodes, n.filePath = p ∧ ∃ name, n.id = p ++ name) ∧
      ∀ e ∈ (typeResult p src).edges, e.kind = .edgeMemberOf ∧ (∃ name, e.fromID = p ++ name) ∧
        ∃ name, e.toID = p ++ name := by
  unfold typeResult
  simp only
  split_ifs
  · simp
  · simp
  · simp

theorem isPath_inj {p p' x x' : String} (hp : IsPath p) (hp' : IsPath p') (h : p ++ x = p' ++ x') :
    p = p' := by
  have hlen : ∀ {p}, IsPath p → p.toList.length = 4 := by
    rintro p (rfl | rfl) <;> rfl
  have hl := congrArg String.toList h
  rw [String.toList_append, String.toList_append] at hl
  exact String.toList_inj.mp (List.append_inj_left hl ((hlen hp).trans (hlen hp').symm))

theorem not_hasPrefix_of_isPath {p label : String} (hp : IsPath p)
    (hl : label = "di::" ∨ label = unresolvedPrefix) (name : String) :
    ¬hasPrefix (p ++ name) label = true := by
  unfold hasPrefix
  rw [String.toList_append]
  rcases hp with rfl | rfl <;> rcases hl with rfl | rfl <;> exact Bool.false_ne_true

theorem typed_typeIndexer : typeIndexer.registry.Typed IsPath where
  filePath := fun _ hx hn => by
    rw [eq_typeResult hx] at hn
    exact ((id_typeResult _ _).1 _ hn).1
  apart := fun hp hx hn hp' hx' hn' hid => by
    rw [eq_typeResult hx] at hn
    rw [eq_typeResult hx'] at hn'
    obtain ⟨name, hname⟩ := ((id_typeResult _ _).1 _ hn).2
    obtain ⟨name', hname'⟩ := ((id_typeResult _ _).1 _ hn').2
    exact isPath_inj hp hp' (hname.symm.trans (hid.trans hname'))
  settledNode := fun hp hx hn => by
    rw [eq_typeResult hx] at hn
    obtain ⟨name, hname⟩ := ((id_typeResult _ _).1 _ hn).2
    rw [hname]
    exact not_hasPrefix_of_isPath hp (Or.inr rfl) name
  edge := fun _ hx he hk => by
    rw [eq_typeResult hx] at he
    rw [((id_typeResult _ _).2 _ he).1] at hk
    cases hk
  settled := fun hp hx he _ => by
    rw [eq_typeResult hx] at he
    obtain ⟨-, -, name, hname⟩ := (id_typeResult _ _).2 _ he
    unfold Edge.IsUnresolved
    rw [hname]
    exact not_hasPrefix_of_isPath hp (Or.inr rfl) name
  member := fun hp hx he _ hp' hx' hn' hid => by
    rw [eq_typeResult hx] at he
    rw [eq_typeResult hx'] at hn'
    obtain ⟨-, ⟨name, hname⟩, name', hname'⟩ := (id_typeResult _ _).2 _ he
    obtain ⟨name'', hname''⟩ := ((id_typeResult _ _).1 _ hn').2
    rcases hid with hid | hid
    · exact isPath_inj hp' hp (hname''.symm.trans (hid.trans hname))
    · exact isPath_inj hp' hp (hname''.symm.trans (hid.trans hname'))

theorem unclashing_typeIndexer : typeIndexer.Unclashing IsPath IsDI where
  home := fun {id q} hid => by
    obtain ⟨rel, src, res, n, hp, hx, hn, rfl, rfl⟩ := hid
    rw [eq_typeResult hx] at hn
    obtain ⟨name, hname⟩ := ((id_typeResult _ _).1 _ hn).2
    have hpre : typeIndexer.prefixPath n.id = n.id := if_pos rfl
    rw [hpre, hname]
    exact not_hasPrefix_of_isPath hp (Or.inl rfl) name
  settled := fun id hid hc => by
    obtain ⟨rest, rfl⟩ := hasPrefix_iff.mp hid
    unfold hasPrefix at hc
    rw [String.toList_append] at hc
    exact Bool.false_ne_true hc

theorem fits_before : (call before).Fits extractors IsPath IsDI :=
  ⟨by unfold Within IsPath; decide +kernel, contractIDs before⟩

theorem fits_after : (call after).Fits extractors IsPath IsDI :=
  ⟨by unfold Within IsPath; decide +kernel, contractIDs after⟩

/-- The graph that is freshly indexed. -/
def first : Graph := (indexed extractors typeIndexer (call before)).2.graph

/-- The graph when the method is deleted. -/
def later : Graph :=
  ([call after].foldl (reindexed extractors) (indexed extractors typeIndexer (call before))).2.graph

/-- **The type implements the interface** as long as it has the method. -/
theorem implements_while_method :
    first.Implements "t.go::T" "i.go::I" ∧ ¬later.Implements "t.go::T" "i.go::I" := by
  have hno : ¬hasPrefix typeIndexer.repoPrefix unresolvedPrefix = true := by decide
  have hfits : ∀ c ∈ [call before, call after], c.Fits extractors IsPath IsDI := by
    simp [fits_before, fits_after]
  have hcurrent := current_indexed typed_typeIndexer hno unclashing_typeIndexer rfl fits_before
  have hfirst : Weak first := hcurrent.graph.1.right.weak
  have hlater : Weak later :=
    (hcurrent.reindexed typed_typeIndexer hno unclashing_typeIndexer fits_after).graph.1.right.weak
  constructor
  · have htype : (first.nodeAt "t.go::T").map Node.isTypeLike = some true := by decide +kernel
    have hiface : (first.nodeAt "i.go::I").map (fun n => (n.kind, requiredMethods n)) =
        some (.kindInterface, ["M"]) := by decide +kernel
    have hmethod : "M" ∈ ((first.typeMethods GoMap.RangeOrder.default).lookup "t.go::T").getD [] := by
      decide +kernel
    obtain ⟨n, hn, hlike⟩ := Option.map_eq_some_iff.mp htype
    obtain ⟨m, hm, hm'⟩ := Option.map_eq_some_iff.mp hiface
    obtain ⟨hkind, hreq⟩ := Prod.mk.inj hm'
    refine (implements_iff_satisfies typed_typeIndexer hno unclashing_typeIndexer rfl (call before) []
      (fun c hc => hfits c (List.mem_cons.mpr (Or.inl (List.mem_singleton.mp hc)))) _ _).mpr
      ⟨by decide, ⟨n, hn, hlike⟩, m, hm, hkind, ?_, ?_⟩
    · rw [hreq]
      exact List.cons_ne_nil _ _
    · rw [hreq]
      intro name hname
      rw [List.mem_singleton.mp hname]
      exact (mem_typeMethods hfirst _).mp hmethod
  · intro himp
    have hiface : (later.nodeAt "i.go::I").map requiredMethods = some ["M"] := by decide +kernel
    have hmethod : "M" ∉ ((later.typeMethods GoMap.RangeOrder.default).lookup "t.go::T").getD [] := by
      decide +kernel
    obtain ⟨-, -, m, hm, -, -, hall⟩ := (implements_iff_satisfies typed_typeIndexer hno
      unclashing_typeIndexer rfl (call before) [call after] hfits _ _).mp himp
    obtain ⟨m', hm', hreq⟩ := Option.map_eq_some_iff.mp hiface
    have hsame : some m' = some m := hm'.symm.trans hm
    rw [Option.some.inj hsame] at hreq
    exact hmethod ((mem_typeMethods hlater _).mpr (hall "M" (hreq ▸ List.mem_singleton_self "M")))

end OneType

end Gortex
