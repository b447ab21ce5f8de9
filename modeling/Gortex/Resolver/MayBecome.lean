import Gortex.Resolver.Choice

/-!
# What may become of an edge

The candidates of a placeholder come out of the graph shard by shard, and within a shard in any
order: in that of their insertion, reshuffled by every removal, or in that of a map. So any
candidate of the lowest shard of those that pass the test that decides may be the target. An import
of a path that is the qualified name of a node may find the node, or not, since the slot of a
qualified name is emptied when any node that has held it goes. And a call that reads the classes
that are bound to a type may read them off edges that are resolved, or not yet.

All this is a matter of the nodes and edges that are stored (`Gortex.MayBecome`). Whatever order
they came in and a pass takes them in, an edge becomes what it may become
(`Gortex.Graph.mayBecome_resolveAll`).
-/

namespace Gortex

open GoString Graph

attribute [local irreducible] cutLast

/-- **A candidate for the edge**: a file for an import, and else a node of the name that the
placeholder ends with. -/
def Edge.Seeks (e : Edge) (c : Node) : Prop :=
  let target := trimPrefix e.toID unresolvedPrefix
  if hasPrefix target "import::" then c.kind = .kindFile
  else if hasPrefix target "extern::" then
    ∃ importPath, cutLast (trimPrefix target "extern::") "::" = some (importPath, c.name)
  else if hasPrefix target "*." then c.name = trimPrefix target "*."
  else c.name = target

/-- The lookups of nodes by their IDs and of edges. The others are not read by the tests. -/
def Lookup.ofEdges (nodeAt : String → Option Node) (l : List Edge) : Lookup where
  getNode := nodeAt
  findNodesByName := fun _ => []
  getNodeByQualName := fun _ => none
  fileNodes := []
  allEdges := l

/-- **What an edge may be answered**: what can be chosen of the candidates, or what is answered if
no candidate passes a test. -/
def Lookup.MayAnswer (v : Lookup) (e : Edge) (x : Edge × Outcome) : Prop :=
  let candidate := fun c => v.getNode c.id = some c ∧ e.Seeks c
  FirstFit.Possible (fun c : Node => shardIdx c.id) candidate (v.passes e) x ∨
    (∀ p ∈ v.passes e, ∀ c, candidate c → ¬p.1 c = true) ∧ x = otherwise e

/-- **Edges in the course of a pass**: each is as it is stored, or has become another, which binds
to what it has bound to. -/
structure Reworked (stored : Edge → Prop) (T : Edge → Edge → Prop) (l : List Edge) : Prop where
  mem : ∀ p', p' ∈ l ↔ ∃ p, stored p ∧ T p p'
  total : ∀ p, stored p → ∃ p', T p p'
  unresolved : ∀ p p', T p p' → p' ≠ p → p.IsUnresolved
  binding : ∀ p p', T p p' → p.SameBinding p'

/-- The classes bound to a type that no edge still to be resolved binds to. -/
theorem Reworked.exists_boundAs {stored : Edge → Prop} {T : Edge → Edge → Prop}
    {l : List Edge} (h : Reworked stored T l) {a x : String}
    (hb : ∀ p, stored p → p.IsUnresolved → p.boundAs a = none) :
    (∃ p' ∈ l, p'.boundAs a = some x) ↔ ∃ p, stored p ∧ p.boundAs a = some x := by
  have hkept : ∀ p p', stored p → T p p' → (p'.boundAs a = some x ↔ p.boundAs a = some x) := by
    intro p p' hp hT
    by_cases heq : p' = p
    · rw [heq]
    · have hnone := hb p hp (h.unresolved p p' hT heq)
      rw [hnone, (h.binding p p' hT).boundAs_eq_none hnone]
  constructor
  · rintro ⟨p', hp', hx⟩
    obtain ⟨p, hp, hT⟩ := (h.mem p').mp hp'
    exact ⟨p, hp, (hkept p p' hp hT).mp hx⟩
  · rintro ⟨p, hp, hx⟩
    obtain ⟨p', hT⟩ := h.total p hp
    exact ⟨p', (h.mem p').mpr ⟨p, hp, hT⟩, (hkept p p' hp hT).mpr hx⟩

/-- **What may become of an edge**, with these nodes and edges stored: it goes to a node that the
imported path is the qualified name of, or it gets what it may be answered, some of the edges
having become what may become of them. -/
inductive MayBecome (nodeAt : String → Option Node) (stored : Edge → Prop) : Edge → Edge → Prop
  | qualified {e : Edge} {n : Node} :
    hasPrefix (trimPrefix e.toID unresolvedPrefix) "import::" = true → nodeAt n.id = some n →
    n.qualName = trimPrefix (trimPrefix e.toID unresolvedPrefix) "import::" → n.qualName ≠ "" →
    MayBecome nodeAt stored e
      (e.resolveAcross ((Lookup.ofEdges nodeAt []).callerRepoPrefix e) n).1
  | answered {e : Edge} {x : Edge × Outcome} {T : Edge → Edge → Prop} {l : List Edge} :
    Reworked stored T l → (∀ p p', T p p' → p' ≠ p → MayBecome nodeAt stored p p') →
    (Lookup.ofEdges nodeAt l).MayAnswer e x → MayBecome nodeAt stored e x.1

namespace Graph

variable {g g' s : Graph}

/-- What may become of an edge of the graph. -/
def MayBecome (g : Graph) : Edge → Edge → Prop := Gortex.MayBecome g.nodeAt g.StoredEdge

/-! ### The candidates of a graph -/

theorem NodeInv.mem_map_findNodesByName (h : NodeInv g) {name : String} {c : Node} :
    c ∈ (g.findNodesByName name).map g.node ↔ g.nodeAt c.id = some c ∧ c.name = name := by
  refine ⟨h.of_mem_map_findNodesByName, fun ⟨hc, hname⟩ => ?_⟩
  obtain ⟨r, hr, rfl⟩ := nodeAt_eq_some.mp hc
  exact List.mem_map.mpr ⟨r, h.mem_findNodesByName.mpr ⟨h.storedNode hr, hname⟩, rfl⟩

theorem Weak.mem_candidates (hg : Weak g) (ord : MapOrder) {e : Edge} {c : Node} :
    c ∈ (g.lookup ord (g.fileNodes ord)).candidates e ↔ g.nodeAt c.id = some c ∧ e.Seeks c := by
  unfold Lookup.candidates Edge.Seeks
  simp only
  split_ifs
  · exact hg.mem_fileNodes ord
  · cases hcut : cutLast (trimPrefix (trimPrefix e.toID unresolvedPrefix) "extern::") "::" with
    | none => exact iff_of_false List.not_mem_nil fun h => nomatch h.2.choose_spec
    | some parts =>
      refine hg.nodes.mem_map_findNodesByName.trans (and_congr_right fun _ => ⟨fun h => ?_, ?_⟩)
      · exact ⟨parts.1, by rw [h]⟩
      · rintro ⟨importPath, heq⟩
        rw [Option.some.inj heq]
  · exact hg.nodes.mem_map_findNodesByName
  · exact hg.nodes.mem_map_findNodesByName

/-- The candidates come shard by shard. -/
theorem Weak.pairwise_candidates (hg : Weak g) (ord : MapOrder) (e : Edge) :
    ((g.lookup ord (g.fileNodes ord)).candidates e).Pairwise fun a b =>
      shardIdx a.id ≤ shardIdx b.id := by
  have hname : ∀ name, ((g.findNodesByName name).map g.node).Pairwise fun a b =>
      shardIdx a.id ≤ shardIdx b.id := fun name => by
    rw [List.pairwise_map]
    refine FirstFit.pairwise_flatMap_finRange fun i r hr => ?_
    exact ((hg.nodes i).home (((hg.nodes i).name.mem name r).mp hr).1).2.1
  unfold Lookup.candidates
  simp only
  split_ifs
  · refine List.Pairwise.filter _ (List.pairwise_map.mpr ?_)
    refine FirstFit.pairwise_flatMap_finRange fun i r hr => ?_
    obtain ⟨⟨id, r'⟩, hm, rfl⟩ := List.mem_map.mp hr
    obtain ⟨hid, hshard, -⟩ := (hg.nodes i).home (GoMap.mem_pairs.mp (ord.mem.mp hm))
    rwa [hid]
  · split
    · exact List.Pairwise.nil
    · exact hname _
  · exact hname _
  · exact hname _

/-! ### A pass -/

/-- The answer of the resolver in a state of the graph. -/
def answer (ord : MapOrder) (files : List Node) (s : Graph) (e : Edge) : Edge :=
  ((s.lookup ord files).resolveEdge e).1

/-- **The answer without a qualified name** is one that the edge may get. -/
theorem mayAnswer_of_notQualified (hg : Weak g) (ord : MapOrder) {l : List Edge} {e : Edge}
    (hq : (g.lookup ord (g.fileNodes ord)).NotQualified e) :
    (Lookup.ofEdges g.nodeAt l).MayAnswer e
      (({ g.lookup ord (g.fileNodes ord) with allEdges := l } : Lookup).resolveEdge e) := by
  set v : Lookup := { g.lookup ord (g.fileNodes ord) with allEdges := l } with hv
  have hpasses : v.passes e = (Lookup.ofEdges g.nodeAt l).passes e :=
    Lookup.passes_congr rfl fun _ _ => Iff.rfl
  have hmem : ∀ c, c ∈ v.candidates e ↔ g.nodeAt c.id = some c ∧ e.Seeks c := fun c =>
    hg.mem_candidates ord
  have hsame : (fun c => g.nodeAt c.id = some c ∧ e.Seeks c) = (· ∈ v.candidates e) :=
    funext fun c => propext (hmem c).symm
  rw [Lookup.resolveEdge_eq_choose (show v.NotQualified e from hq)]
  cases hc : FirstFit.choose (v.candidates e) (v.passes e) with
  | some y =>
    refine Or.inl ?_
    rw [← hpasses]
    change FirstFit.Possible _ (fun c => g.nodeAt c.id = some c ∧ e.Seeks c) _ y
    rw [hsame]
    exact FirstFit.possible_of_choose (hg.pairwise_candidates ord e) hc
  | none =>
    refine Or.inr ⟨fun p hp c hcand => ?_, rfl⟩
    rw [← hpasses] at hp
    exact FirstFit.choose_eq_none_iff.mp hc p hp c ((hmem c).mpr hcand)

/-- **What a pass keeps**: the nodes, and which pointers are stored. An edge is as it was, or it
has become what may become of it. -/
structure Passing (g s : Graph) : Prop where
  nodes : SameNodes g s
  weak : Weak s
  stored : ∀ r, s.StoredOut r ↔ g.StoredOut r
  edge : ∀ r, s.edge r = g.edge r ∨ (g.edge r).IsUnresolved ∧ ¬(s.edge r).IsUnresolved ∧
    g.MayBecome (g.edge r) (s.edge r)
  binding : ∀ r, (g.edge r).SameBinding (s.edge r)

theorem Passing.refl (hg : Weak g) : Passing g g :=
  ⟨SameNodes.refl g, hg, fun _ => Iff.rfl, fun _ => Or.inl rfl, fun _ => ⟨rfl, rfl, rfl⟩⟩

/-- The edges of a state of the pass. -/
theorem Passing.reworked (h : Passing g s) (ord : MapOrder) : Reworked g.StoredEdge
    (fun p p' => ∃ r, g.StoredOut r ∧ g.edge r = p ∧ s.edge r = p')
    ((s.allEdges ord).map s.edge) where
  mem := fun p' => by
    rw [h.weak.mem_map_allEdges ord]
    constructor
    · rintro ⟨r, hr, rfl⟩
      have hst := (h.stored r).mp hr
      exact ⟨_, hst.storedEdge, r, hst, rfl, rfl⟩
    · rintro ⟨-, -, r, hr, -, rfl⟩
      exact ⟨r, (h.stored r).mpr hr, rfl⟩
  total := fun _ ⟨r, hr, he⟩ => ⟨s.edge r, r, hr, he, rfl⟩
  unresolved := by
    rintro - - ⟨r, -, rfl, rfl⟩ hne
    exact ((h.edge r).resolve_left hne).1
  binding := by
    rintro - - ⟨r, -, rfl, rfl⟩
    exact h.binding r

/-- **What the resolver answers in a state of the pass** may become of the edge. -/
theorem Passing.mayBecome (h : Passing g s) (hg : Weak g) (ord : MapOrder) (e : Edge) :
    g.MayBecome e (answer ord (g.fileNodes ord) s e) := by
  unfold answer
  rw [h.nodes.lookup_eq]
  by_cases hq : (g.lookup ord (g.fileNodes ord)).NotQualified e
  · refine .answered (h.reworked ord) ?_ (mayAnswer_of_notQualified hg ord hq)
    rintro - - ⟨r, -, rfl, rfl⟩ hne
    exact ((h.edge r).resolve_left hne).2.2
  · obtain ⟨himport, n, hn⟩ := Lookup.exists_qualified_of_not hq
    obtain ⟨r, hr, rfl⟩ := Option.map_eq_some_iff.mp hn
    obtain ⟨i, -, hi⟩ := List.exists_of_findSome?_eq_some hr
    obtain ⟨-, hqual, hne⟩ := (hg.nodes i).qual hi
    have hmay : g.MayBecome e _ := .qualified himport
      (hg.nodes.of_getNodeByQualName hr) hqual (hqual ▸ hne)
    have hres := Lookup.resolveEdge_of_import (v := ({ g.lookup ord (g.fileNodes ord) with
      allEdges := (s.allEdges ord).map s.edge } : Lookup)) himport hn
    rw [hres]
    exact hmay

theorem Passing.noPlaceholders (h : Passing g s) (hg : Weak g)
    (hp : ∀ {id n}, g.nodeAt id = some n → ¬hasPrefix id unresolvedPrefix = true) (ord : MapOrder) :
    (s.lookup ord (g.fileNodes ord)).NoPlaceholders := by
  rw [h.nodes.lookup_eq]
  exact (hg.noPlaceholders hp ord).edges _

theorem Passing.turn (h : Passing g s) (hg : Weak g)
    (hp : ∀ {id n}, g.nodeAt id = some n → ¬hasPrefix id unresolvedPrefix = true)
    (ord : MapOrder) (r : EdgeRef) : Passing g (turn (answer ord (g.fileNodes ord)) s r) := by
  unfold Graph.turn
  split
  · rename_i hun
    have hsite : SameSite (s.edge r) (answer ord (g.fileNodes ord) s (s.edge r)) :=
      Lookup.sameSite_resolveEdge _ _
    have hold : s.edge r = g.edge r := (h.edge r).resolve_right fun hn => hn.2.1 hun
    refine ⟨h.nodes.trans (SameNodes.retarget s r _), (Quiet.retarget hsite).weak h.weak,
      fun r' => (storedOut_retarget hsite r').trans (h.stored r'), fun r' => ?_, fun r' => ?_⟩
    · rw [edge_retarget]
      by_cases hrr : r' = r
      · rw [if_pos hrr, hrr, hold]
        rcases Lookup.settles_resolveEdge (h.noPlaceholders hg hp ord) (g.edge r) with heq | hdone
        · exact Or.inl heq
        · exact Or.inr ⟨hold ▸ hun, hdone, h.mayBecome hg ord _⟩
      · rw [if_neg hrr]
        exact h.edge r'
    · rw [edge_retarget]
      by_cases hrr : r' = r
      · rw [if_pos hrr, hrr, hold]
        exact Lookup.sameBinding_resolveEdge (g.edge r)
      · rw [if_neg hrr]
        exact h.binding r'
  · exact h

theorem passing_resolveAll (hg : Weak g)
    (hp : ∀ {id n}, g.nodeAt id = some n → ¬hasPrefix id unresolvedPrefix = true)
    (ord : MapOrder) : Passing g (g.resolveAll ord).1 := by
  unfold resolveAll
  rw [fst_foldl_resolveRef]
  exact List.foldl_invariant (P := Passing g) (fun s r _ hs => hs.turn hg hp ord r)
    (Passing.refl hg)

/-- **What becomes of an edge in a pass** may become of it. -/
theorem mayBecome_resolveAll (hg : Weak g)
    (hp : ∀ {id n}, g.nodeAt id = some n → ¬hasPrefix id unresolvedPrefix = true)
    (ord : MapOrder) {r : EdgeRef} (hr : g.StoredOut r) (hun : (g.edge r).IsUnresolved) :
    g.MayBecome (g.edge r) ((g.resolveAll ord).1.edge r) := by
  unfold resolveAll
  rw [fst_foldl_resolveRef]
  refine of_eq_true (edge_foldl_turn (π := g.MayBecome (g.edge r)) (I := Passing g)
    (Passing.refl hg) (fun s r' _ hs => hs.turn hg hp ord r') (fun s hs => eq_true ?_)
    (fun s hs => ?_) ((hg.mem_allEdges ord).mpr hr) hun)
  · exact hs.mayBecome hg ord _
  · exact Lookup.settles_resolveEdge (hs.noPlaceholders hg hp ord) _

end Graph

end Gortex
