import Gortex.Semantic.Enrich

/-!
# Enriching the graph a second time

A run of the SCIP enrichment writes the edges between two nodes in two loops
(`Gortex.Semantic.Scip.between_enrichFromIndex`): the references raise the first edge, whatever it
is, and the implementations confirm the first `implements` edge; each adds an edge where there is
none to write. Which nodes are looked at is read off the nodes, which no run changes but for their
metadata. So a second run goes over the same nodes, and finds every edge that it would raise or add
as the first run has left it.
-/

namespace Gortex

namespace Semantic

open Graph

namespace Scip

variable {g g' : Graph} {text : List UInt8 → String} {p : Provider} {symMap : SymbolMap (List UInt8)}
  {index : SCIPIndex}

variable (text index) in
theorem mapDefinitions_kept (h : NodesKept g g') :
    mapDefinitions text g' index = mapDefinitions text g index := by
  have hstep : definitionStep text g' = definitionStep text g := by
    funext s o
    have hmatch : matchDefinition text g' o = matchDefinition text g o := by
      unfold matchDefinition
      simp only [h.getFileNodes, matchNodeByFileLine_kept h, matchNodeByNameInFile_kept h]
    unfold definitionStep
    simp only [hmatch, h.idOf]
  rw [mapDefinitions, hstep, mapDefinitions]

/-! ### The sites of a run -/

/-- What phase 2 looks at for a reference. -/
def referenceSite (text : List UInt8 → String) (p : Provider) (symMap : SymbolMap (List UInt8))
    (g : Graph) (o : SCIPDocument × SCIPOccurrence) : Option Site :=
  let relPath := text o.1.relativePath
  (findContainingNode g (g.getFileNodes relPath) o.2.startLine).bind fun refNode =>
    (symMap.gortexID o.2.symbol).map fun defNodeID =>
      { ends := (g.idOf refNode, defNodeID)
        new := (inferEdgeKind ((g.getNode defNodeID).map g.node)).map fun kind =>
          semanticEdge (g.idOf refNode) defNodeID kind relPath o.2.startLine p.name }

/-- What phase 3 looks at for an implementation. -/
def implementationSite (p : Provider) (symMap : SymbolMap (List UInt8)) (g : Graph)
    (i : SCIPSymbolInfo × SCIPRelationship) : Option Site :=
  (symMap.gortexID i.1.symbol).bind fun implID =>
    (symMap.gortexID i.2.symbol).map fun ifaceID =>
      { ends := (implID, ifaceID)
        new := implementsEdge g p.name implID ifaceID }

theorem inferEdgeKind_kept (h : NodesKept g g') (id : String) :
    inferEdgeKind ((g'.getNode id).map g'.node) = inferEdgeKind ((g.getNode id).map g.node) := by
  rw [h.getNode, inferEdgeKind, inferEdgeKind, Option.map_map, Option.map_map]
  refine congrArg (fun f => (g.getNode id).map f) (funext fun r => ?_)
  exact h.read (f := fun n => if n.kind = .kindFunction ∨ n.kind = .kindMethod then
    EdgeKind.edgeCalls else .edgeReferences) (fun _ => rfl) r

theorem referenceSite_kept (h : NodesKept g g') (o : SCIPDocument × SCIPOccurrence) :
    referenceSite text p symMap g' o = referenceSite text p symMap g o := by
  unfold referenceSite findContainingNode
  simp only [h.getFileNodes, innermost_kept h, h.idOf, inferEdgeKind_kept h]

theorem implementationSite_kept (h : NodesKept g g') (i : SCIPSymbolInfo × SCIPRelationship) :
    implementationSite p symMap g' i = implementationSite p symMap g i := by
  unfold implementationSite
  simp only [implementsEdge_kept h]

variable (text p symMap) in
/-- **A turn of phase 2** is at its site. -/
theorem referenceStep_site {s : Graph × EnrichResult} (hs : Kept g s.1)
    (o : SCIPDocument × SCIPOccurrence) :
    (referenceSite text p symMap g o = none ∧ referenceStep text p symMap s o = s) ∨
      ∃ t, referenceSite text p symMap g o = some t ∧
        Touches (fun _ => True) (raised p.name) t.ends t.new s.1
          (referenceStep text p symMap s o).1 := by
  rw [← referenceSite_kept hs.nodes, referenceSite, referenceStep]
  cases findContainingNode s.1 (s.1.getFileNodes (text o.1.relativePath)) o.2.startLine with
  | none => exact .inl ⟨rfl, rfl⟩
  | some refNode =>
    cases symMap.gortexID o.2.symbol with
    | none => exact .inl ⟨rfl, rfl⟩
    | some defNodeID => exact .inr ⟨_, rfl, touches_confirmOrAdd _ _ _ hs.inv _ _ _⟩

variable (p symMap) in
/-- **A turn of phase 3** is at its site. -/
theorem implementationStep_site {s : Graph × EnrichResult} (hs : Kept g s.1)
    (i : SCIPSymbolInfo × SCIPRelationship) :
    (implementationSite p symMap g i = none ∧ implementationStep p symMap s i = s) ∨
      ∃ t, implementationSite p symMap g i = some t ∧
        Touches (fun e => e.kind = .edgeImplements) (confirmed p.name) t.ends t.new s.1
          (implementationStep p symMap s i).1 := by
  rw [← implementationSite_kept hs.nodes, implementationSite, implementationStep]
  cases symMap.gortexID i.1.symbol with
  | none => exact .inl ⟨rfl, rfl⟩
  | some implID =>
    cases symMap.gortexID i.2.symbol with
    | none => exact .inl ⟨rfl, rfl⟩
    | some ifaceID => exact .inr ⟨_, rfl, touches_confirmImplements _ _ _ hs.inv⟩

variable (text p symMap) in
/-- Phase 4 leaves the edges alone. -/
theorem documentation_kept {s : Graph × EnrichResult} (hs : Kept g s.1)
    (l : List SCIPSymbolInfo) :
    Kept g (l.foldl (documentationStep text p symMap) s).1 ∧
      ∀ i : String × String, (l.foldl (documentationStep text p symMap) s).1.between i.1 i.2 =
        s.1.between i.1 i.2 := by
  induction l generalizing s with
  | nil => exact ⟨hs, fun _ => rfl⟩
  | cons sym l ih =>
    have hstep : Kept g (documentationStep text p symMap s sym).1 ∧
        ∀ i : String × String, (documentationStep text p symMap s sym).1.between i.1 i.2 =
          s.1.between i.1 i.2 := by
      unfold documentationStep
      split
      · exact ⟨hs, fun _ => rfl⟩
      · split
        · exact ⟨hs, fun _ => rfl⟩
        · simp only
          split_ifs
          · exact ⟨⟨hs.inv.enrichNodeMeta .., hs.nodes.trans (NodesKept.enrichNodeMeta ..)⟩,
              fun _ => rfl⟩
          · exact ⟨hs, fun _ => rfl⟩
    obtain ⟨hkept, hbetween⟩ := ih hstep.1
    exact ⟨hkept, fun i => (hbetween i).trans (hstep.2 i)⟩

/-! ### What a run leaves between two nodes -/

/-- What the references of an index have to add between two nodes. -/
def referencesAt (text : List UInt8 → String) (p : Provider) (g : Graph) (index : SCIPIndex)
    (i : String × String) : List (Option Edge) :=
  newsAt ((references index).filterMap
    (referenceSite text p (mapDefinitions text g index).1 g)) i

/-- What the implementations of an index have to add between two nodes. -/
def implementationsAt (text : List UInt8 → String) (p : Provider) (g : Graph) (index : SCIPIndex)
    (i : String × String) : List (Option Edge) :=
  newsAt ((implementations index).filterMap
    (implementationSite p (mapDefinitions text g index).1 g)) i

/-- The edges between two nodes after the references. -/
def raisedBy (provider : String) (news : List (Option Edge)) (l : List Edge) : List Edge :=
  news.foldl (fun l new => l.upsert (fun _ => True) (raised provider) new) l

/-- The edges between two nodes after the implementations. -/
def confirmedBy (provider : String) (news : List (Option Edge)) (l : List Edge) : List Edge :=
  news.foldl (fun l new => l.upsert (fun e => e.kind = .edgeImplements) (confirmed provider) new) l

variable (text p index) in
/-- **What a run leaves between two nodes.** -/
theorem between_enrichFromIndex (h : Inv g) (ord : MapOrder) :
    Kept g (enrichFromIndex text ord p g index).1 ∧
      ∀ i : String × String, (enrichFromIndex text ord p g index).1.between i.1 i.2 =
        confirmedBy p.name (implementationsAt text p g index i)
          (raisedBy p.name (referencesAt text p g index i) (g.between i.1 i.2)) := by
  obtain ⟨hkept₂, hbetween₂⟩ := Kept.foldl (l := references index)
    (fun _ hs o _ => referenceStep_site text p (mapDefinitions text g index).1 hs o)
    (s := (g, coverage (mapDefinitions text g index).2 (countedNodes p ord g).length))
    (Kept.refl h)
  obtain ⟨hkept₃, hbetween₃⟩ := Kept.foldl (l := implementations index)
    (fun _ hs i _ => implementationStep_site p (mapDefinitions text g index).1 hs i) hkept₂
  obtain ⟨hkept₄, hbetween₄⟩ :=
    documentation_kept text p (mapDefinitions text g index).1 hkept₃ (symbols index)
  refine ⟨hkept₄, fun i => ?_⟩
  rw [enrichFromIndex, hbetween₄, hbetween₃, hbetween₂]
  rfl

/-- The references add edges that need not be raised. -/
theorem raised_of_mem_referencesAt {i : String × String} {e : Edge}
    (he : some e ∈ referencesAt text p g index i) : raised p.name e = e := by
  obtain ⟨t, ht, hnew⟩ := exists_of_mem_newsAt he
  obtain ⟨o, -, ho⟩ := List.mem_filterMap.mp ht
  simp only [referenceSite, Option.bind_eq_some_iff, Option.map_eq_some_iff] at ho
  obtain ⟨refNode, -, defNodeID, -, rfl⟩ := ho
  obtain ⟨kind, -, rfl⟩ := Option.map_eq_some_iff.mp hnew
  rw [← confirmed_semanticEdge, raised_confirmed]

/-- The implementations add confirmed `implements` edges. -/
theorem confirmed_of_mem_implementationsAt {i : String × String} {e : Edge}
    (he : some e ∈ implementationsAt text p g index i) :
    e.kind = .edgeImplements ∧ confirmed p.name e = e := by
  obtain ⟨t, ht, hnew⟩ := exists_of_mem_newsAt he
  obtain ⟨o, -, ho⟩ := List.mem_filterMap.mp ht
  simp only [implementationSite, Option.bind_eq_some_iff, Option.map_eq_some_iff] at ho
  obtain ⟨implID, -, ifaceID, -, rfl⟩ := ho
  obtain ⟨r, -, rfl⟩ := Option.map_eq_some_iff.mp hnew
  exact ⟨rfl, confirmed_semanticEdge ..⟩

section Again

variable {provider : String} {refs impls : List (Option Edge)}
  (hrefs : ∀ e, some e ∈ refs → raised provider e = e)
  (himpls : ∀ e, some e ∈ impls → e.kind = .edgeImplements ∧ confirmed provider e = e)

include hrefs in
theorem raisedBy_eq (l : List Edge) : raisedBy provider refs l =
    if refs = [] then l
    else l.upsert (fun _ => True) (raised provider) (refs.findSome? id) :=
  List.foldl_upsert (p := fun _ => True) (f := raised provider) (fun _ => Iff.rfl)
    (raised_raised provider) (fun e he => ⟨trivial, hrefs e he⟩) l

include himpls in
theorem confirmedBy_eq (l : List Edge) : confirmedBy provider impls l =
    if impls = [] then l
    else l.upsert (fun e => e.kind = .edgeImplements) (confirmed provider)
      (impls.findSome? id) :=
  List.foldl_upsert (p := fun e : Edge => e.kind = .edgeImplements) (f := confirmed provider)
    (fun _ => Iff.rfl) (confirmed_confirmed provider) himpls l

include himpls in
/-- The implementations write what is first between two nodes to an edge that is certain, or not
at all; and where there is nothing, they add a certain edge or none. -/
theorem head?_confirmedBy (l : List Edge) :
    (confirmedBy provider impls l).head? = l.head? ∨
      ∃ e, (confirmedBy provider impls l).head? = some e ∧ raised provider e = e := by
  rw [confirmedBy_eq himpls]
  split_ifs with hnil
  · exact .inl rfl
  · cases l with
    | nil =>
      rw [List.upsert_nil]
      cases hnew : impls.findSome? id with
      | none => exact .inl rfl
      | some e =>
        obtain ⟨o, ho, rfl⟩ := List.exists_of_findSome?_eq_some hnew
        refine .inr ⟨e, rfl, ?_⟩
        rw [← (himpls e ho).2, raised_confirmed]
    | cons a l =>
      by_cases ha : a.kind = .edgeImplements
      · rw [List.upsert_cons_pos (p := fun e : Edge => e.kind = .edgeImplements) ha]
        exact .inr ⟨_, rfl, raised_confirmed provider a⟩
      · rw [List.upsert_cons_neg (p := fun e : Edge => e.kind = .edgeImplements) ha]
        exact .inl rfl

include hrefs in
/-- **References that find their edges as they would leave them** leave everything as it is. -/
theorem raisedBy_eq_self {l : List Edge} (hhead : ∀ e ∈ l.head?, raised provider e = e)
    (hnil : l = [] → refs.findSome? id = none) : raisedBy provider refs l = l := by
  rw [raisedBy_eq hrefs]
  split_ifs with hrefs'
  · rfl
  · cases l with
    | nil => rw [List.upsert_nil, hnil rfl, Option.toList_none]
    | cons a l => rw [List.upsert_cons_pos (p := fun _ => True) trivial, hhead a rfl]

include hrefs himpls in
/-- **Both loops again**: nothing changes. -/
theorem raisedBy_confirmedBy_raisedBy (l : List Edge) :
    raisedBy provider refs (confirmedBy provider impls (raisedBy provider refs l)) =
      confirmedBy provider impls (raisedBy provider refs l) := by
  by_cases hnil : refs = []
  · subst hnil
    rfl
  -- what is first after the references is as they leave it, and so it is after the implementations
  have hfirst : ∀ e ∈ (raisedBy provider refs l).head?, raised provider e = e := by
    rw [raisedBy_eq hrefs, if_neg hnil]
    intro e he
    cases l with
    | nil =>
      rw [List.upsert_nil] at he
      cases hnew : refs.findSome? id with
      | none =>
        rw [hnew] at he
        cases he
      | some e' =>
        rw [hnew] at he
        obtain rfl := Option.some.inj he
        obtain ⟨o, ho, rfl⟩ := List.exists_of_findSome?_eq_some hnew
        exact hrefs e' ho
    | cons a l =>
      rw [List.upsert_cons_pos (p := fun _ => True) trivial] at he
      obtain rfl := Option.some.inj he
      exact raised_raised provider a
  have hempty : raisedBy provider refs l = [] → refs.findSome? id = none := by
    rw [raisedBy_eq hrefs, if_neg hnil]
    cases l with
    | nil =>
      rw [List.upsert_nil]
      exact Option.toList_eq_nil_iff.mp
    | cons a l =>
      rw [List.upsert_cons_pos (p := fun _ => True) trivial]
      exact fun h => absurd h (List.cons_ne_nil _ _)
  refine raisedBy_eq_self hrefs ?_ fun hnone => ?_
  · rcases head?_confirmedBy himpls (raisedBy provider refs l) with hsame | ⟨e, he, hfix⟩
    · rwa [hsame]
    · rw [he]
      rintro e' he'
      obtain rfl := Option.some.inj he'
      exact hfix
  · rcases head?_confirmedBy himpls (raisedBy provider refs l) with hsame | ⟨e, he, -⟩
    · rw [hnone, List.head?_nil] at hsame
      exact hempty (List.head?_eq_none_iff.mp hsame.symm)
    · rw [hnone] at he
      cases he

end Again

/-- **A second run changes nothing**: on what a run on the same index has left, it adds no node and
no edge, and every edge is as it was. -/
theorem enrichFromIndex_again (text : List UInt8 → String) (ord ord' : MapOrder) (p : Provider)
    (index : SCIPIndex) (h : Inv g) :
    let once := (enrichFromIndex text ord p g index).1
    let twice := (enrichFromIndex text ord' p once index).1
    (∀ id, twice.getNode id = once.getNode id) ∧ ∀ e, twice.StoredEdge e ↔ once.StoredEdge e := by
  intro once twice
  obtain ⟨hkept, hbetween⟩ := between_enrichFromIndex text p index h ord
  obtain ⟨hkept', hbetween'⟩ := between_enrichFromIndex text p index hkept.inv ord'
  have hmap := mapDefinitions_kept text index hkept.nodes
  -- the sites depend on the nodes only, and these stay
  have hrefs : ∀ i, referencesAt text p once index i = referencesAt text p g index i := by
    intro i
    unfold referencesAt
    rw [hmap]
    exact congrArg (fun f => newsAt ((references index).filterMap f) i)
      (funext fun o => referenceSite_kept hkept.nodes o)
  have himpls : ∀ i, implementationsAt text p once index i =
      implementationsAt text p g index i := by
    intro i
    unfold implementationsAt
    rw [hmap]
    exact congrArg (fun f => newsAt ((implementations index).filterMap f) i)
      (funext fun o => implementationSite_kept hkept.nodes o)
  -- between two symbols the second run confirms what the first has confirmed
  have hsame : ∀ i : String × String, twice.between i.1 i.2 = once.between i.1 i.2 := by
    intro i
    have hr : ∀ e, some e ∈ referencesAt text p g index i → raised p.name e = e :=
      fun e he => raised_of_mem_referencesAt he
    have hi : ∀ e, some e ∈ implementationsAt text p g index i →
        e.kind = .edgeImplements ∧ confirmed p.name e = e :=
      fun e he => confirmed_of_mem_implementationsAt he
    calc twice.between i.1 i.2
        = confirmedBy p.name (implementationsAt text p once index i)
            (raisedBy p.name (referencesAt text p once index i) (once.between i.1 i.2)) :=
          hbetween' i
      _ = confirmedBy p.name (implementationsAt text p g index i)
            (raisedBy p.name (referencesAt text p g index i)
              (confirmedBy p.name (implementationsAt text p g index i)
                (raisedBy p.name (referencesAt text p g index i) (g.between i.1 i.2)))) := by
          rw [hrefs, himpls, hbetween]
      _ = confirmedBy p.name (implementationsAt text p g index i)
            (confirmedBy p.name (implementationsAt text p g index i)
              (raisedBy p.name (referencesAt text p g index i) (g.between i.1 i.2))) := by
          rw [raisedBy_confirmedBy_raisedBy hr hi]
      _ = confirmedBy p.name (implementationsAt text p g index i)
            (raisedBy p.name (referencesAt text p g index i) (g.between i.1 i.2)) :=
          List.foldl_upsert_twice (p := fun e : Edge => e.kind = .edgeImplements)
            (f := confirmed p.name) (fun _ => Iff.rfl) (confirmed_confirmed p.name) hi _
      _ = once.between i.1 i.2 := (hbetween i).symm
  refine ⟨hkept'.nodes.getNode, fun e => ?_⟩
  rw [hkept'.inv.storedEdge_iff, hkept.inv.storedEdge_iff]
  exact iff_of_eq (congrArg (fun l => e ∈ l) (hsame (e.fromID, e.toID)))

namespace ThreeSymbols

/-- A type, an interface and a function, with a reference to the type. -/
def graph : Graph :=
  (((Graph.new.putNode
    { id := "a.go::File", kind := .kindType, name := "File", filePath := "a.go", startLine := 1,
      endLine := 5, language := "go" }).putNode
    { id := "a.go::Reader", kind := .kindInterface, name := "Reader", filePath := "a.go",
      startLine := 10, endLine := 12, language := "go" }).putNode
    { id := "a.go::Open", kind := .kindFunction, name := "Open", filePath := "a.go",
      startLine := 20, endLine := 25, language := "go" }).putEdge
    { fromID := "a.go::Open", toID := "a.go::File", kind := .edgeReferences, filePath := "a.go",
      line := 21, confidence := 1 / 2 }

def file : List UInt8 := "File".toUTF8.toList

def reader : List UInt8 := "Reader".toUTF8.toList

/-- Both types are defined, the function refers to both, and the one implements the other. -/
def scipIndex : SCIPIndex where
  documents := [{
    relativePath := "a.go".toUTF8.toList
    occurrences := [⟨[0], file, 1⟩, ⟨[9], reader, 1⟩, ⟨[20], file, 0⟩, ⟨[21], reader, 0⟩]
    symbols := [{ symbol := file, relationships := [{ symbol := reader, isImplementation := true }] }]
  }]

end ThreeSymbols

open ThreeSymbols in
/-- A second run where the first has confirmed an edge and added two. -/
theorem enrichFromIndex_again_three :
    let once := (enrichFromIndex OneFunction.ascii .default OneFunction.provider graph scipIndex).1
    let twice := (enrichFromIndex OneFunction.ascii .default OneFunction.provider once scipIndex).1
    ((once.allEdges .default).map fun r => ((once.edge r).toID, (once.edge r).confidence)) =
        [("a.go::Reader", 1), ("a.go::File", 1), ("a.go::Reader", 1)] ∧
      (∀ id, twice.getNode id = once.getNode id) ∧ ∀ e, twice.StoredEdge e ↔ once.StoredEdge e :=
  ⟨by decide +kernel, enrichFromIndex_again _ _ _ _ _
    ((((Inv.new.putNode _).putNode _).putNode _).putEdge _)⟩

end Scip

end Semantic

end Gortex
