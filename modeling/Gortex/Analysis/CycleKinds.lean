import Mathlib.Data.Finset.Card
import Mathlib.Data.List.Rotate
import Gortex.Analysis.Cycles
import Gortex.Lib.TarjanOrder

/-!
# The kind of a component

`DetectCycles` classifies a component by the one cycle it reports for it, and which cycle it
reports depends on the member that the loop over the nodes comes to first: that is a loop
over a map of Go. The order of the edges has no say in it, since a bucket of out-edges is a
slice.

`Gortex.Analysis.Found` says which cycles there are to report, in terms of the graph: a
depth-first search within the component lists its members, and a second one starts at the
member that the first one has come to last. Each of them is reported in some order
(`Gortex.Analysis.Found.gives`), and nothing else is (`Gortex.Analysis.Gives.found`). So
`Gortex.Analysis.classifiedAlike_iff` says exactly when the orders agree.
-/

namespace Gortex

namespace Analysis

open GoString Relation

variable {g : Graph}

/-! ### The adjacency is that of the graph -/

instance instDecidableInScope (g : Graph) (scope id : String) : Decidable (InScope g scope id) :=
  decidable_of_iff (((g.nodeAt id).any fun n => n.kind ≠ .kindFile ∧ n.kind ≠ .kindImport ∧
    (scope = "" ∨ hasPrefix n.filePath scope = true)) = true) (by
      simp only [Option.any_eq_true, decide_eq_true_eq, InScope])

/-- A call or an import between two nodes in scope. -/
def DependencyIn (g : Graph) (scope : String) (e : Edge) : Prop :=
  Dependency e ∧ InScope g scope e.fromID ∧ InScope g scope e.toID

instance instDecidablePredDependencyIn (g : Graph) (scope : String) :
    DecidablePred (DependencyIn g scope) := fun e =>
  inferInstanceAs (Decidable (Dependency e ∧ InScope g scope e.fromID ∧ InScope g scope e.toID))

/-- **The dependencies of a node in scope**: the targets of its out-edges, in their order and
each target once. -/
def dependencies (g : Graph) (scope a : String) : List String :=
  ((((g.getOutEdges a).map g.edge).filter fun e => DependencyIn g scope e).map Edge.toID).firsts id

theorem admitted_iff (hg : g.Weak) (ord : MapOrder) (scope : String) (e : Edge) :
    admitted (inScopeSet ord g scope) e ↔ DependencyIn g scope e := by
  unfold admitted DependencyIn
  rw [has_inScopeSet hg, has_inScopeSet hg]

/-- **The adjacency lists do not depend on the order.** -/
theorem slice_adjacency (hg : g.Weak) (ord : MapOrder) (scope a : String) :
    Grouped.slice (adjacency ord g scope).adj a = dependencies g scope a := by
  have hof := adjacencyOf_foldl (inScopeSet ord g scope) ((g.allEdges ord).map g.edge) [] ⟨∅, ∅⟩
    AdjacencyOf.empty
  have hedges : ((g.allEdges ord).map g.edge).filter (fun e => e.fromID = a) =
      (g.getOutEdges a).map g.edge := by
    rw [← hg.out.filter_allEdges ord a, List.filter_map]
    rfl
  refine (hof.lists a).trans ?_
  unfold targets dependencies
  rw [List.nil_append, List.filter_filter, ← hedges, List.filter_filter]
  refine congrArg (fun l => List.firsts id (List.map Edge.toID l)) (List.filter_congr fun e _ => ?_)
  rw [Bool.and_comm]
  exact congrArg (· && decide (e.fromID = a)) (decide_eq_decide.mpr (admitted_iff hg ord scope e))

/-- The neighbours that `tarjanSCC` follows. -/
theorem neighbours_eq (hg : g.Weak) (ord : MapOrder) (scope : String) :
    neighbours ord g scope = dependencies g scope := by
  funext a
  unfold neighbours
  rw [slice_adjacency hg]
  refine List.filter_eq_self.mpr fun b hb => ?_
  rw [← slice_adjacency hg ord, mem_adjacency hg] at hb
  exact (has_inScopeSet hg ord scope b).mpr hb.2.2

/-! ### The kind of a cycle -/

/-- An import from one node to another. -/
def Imports (g : Graph) (a b : String) : Prop :=
  ∃ e, g.StoredEdge e ∧ e.kind = .edgeImports ∧ e.fromID = a ∧ e.toID = b

/-- **A cycle of imports**: one of its steps is an import. -/
def HasImport (g : Graph) (path : List String) : Prop :=
  ∃ pair ∈ pathPairs path, Imports g pair.fromID pair.toID

/-- **A cycle across communities**: two of its nodes are in two communities. -/
def Spans (communities : Option (GoMap String String)) (path : List String) : Prop :=
  ∃ nodeToComm, communities = some nodeToComm ∧ ∃ a ∈ path, ∃ b ∈ path, ∃ c c',
    nodeToComm.lookup a = some c ∧ nodeToComm.lookup b = some c' ∧ c ≠ c'

theorem exists_of_mem_pathPairs {path : List String} {pair : EdgePair} (h : pair ∈ pathPairs path) :
    ∃ i j, ∃ (hi : i < path.length) (hj : j < path.length),
      j = (i + 1) % path.length ∧ pair = ⟨path[i], path[j]⟩ := by
  unfold pathPairs at h
  obtain ⟨i, hi, rfl⟩ := List.mem_iff_getElem.mp h
  have hlt : i < path.length := by
    rw [List.length_zipWith, List.length_rotate, min_self] at hi
    exact hi
  have hmod : (i + 1) % path.length < path.length := Nat.mod_lt _ (Nat.zero_lt_of_lt hlt)
  refine ⟨i, (i + 1) % path.length, hlt, hmod, rfl, ?_⟩
  rw [List.getElem_zipWith, List.getElem_rotate]

theorem mem_pathPairs {path : List String} {pair : EdgePair} (h : pair ∈ pathPairs path) :
    pair.fromID ∈ path ∧ pair.toID ∈ path := by
  obtain ⟨i, j, hi, hj, -, rfl⟩ := exists_of_mem_pathPairs h
  exact ⟨List.getElem_mem hi, List.getElem_mem hj⟩

/-- The steps of a path of two nodes, none twice, lead from one node to another. -/
theorem pathPairs_ne {path : List String} (hnodup : path.Nodup) (htwo : 2 ≤ path.length)
    {pair : EdgePair} (h : pair ∈ pathPairs path) : pair.fromID ≠ pair.toID := by
  obtain ⟨i, j, hi, hj, hnext, rfl⟩ := exists_of_mem_pathPairs h
  intro hc
  have hidx : i = j := (hnodup.getElem_inj_iff).mp hc
  by_cases hlast : i + 1 < path.length
  · rw [Nat.mod_eq_of_lt hlast] at hnext
    omega
  · have heq : i + 1 = path.length := by omega
    rw [heq, Nat.mod_self] at hnext
    omega

/-- **The test for an import**, on a path of nodes in scope. -/
theorem any_edgeKinds (hg : g.Weak) (ord : MapOrder) {scope : String} {path : List String}
    (hpath : ∀ a ∈ path, InScope g scope a) :
    ((pathPairs path).any fun pair => (Grouped.slice (adjacency ord g scope).edgeKinds pair).any
      fun kind => kind = .edgeImports) = true ↔ HasImport g path := by
  have hof := adjacencyOf_foldl (inScopeSet ord g scope) ((g.allEdges ord).map g.edge) [] ⟨∅, ∅⟩
    AdjacencyOf.empty
  rw [List.nil_append] at hof
  have hslice : ∀ pair, Grouped.slice (adjacency ord g scope).edgeKinds pair = _ := hof.kinds
  rw [List.any_eq_true]
  unfold HasImport
  refine exists_congr fun pair => and_congr_right fun hpair => ?_
  have hscope := mem_pathPairs hpair
  rw [hslice, List.any_eq_true]
  simp only [List.mem_map (f := Edge.kind), List.mem_filter, decide_eq_true_eq]
  simp only [hg.mem_map_allEdges, admitted_iff hg]
  constructor
  · rintro ⟨kind, ⟨e, ⟨⟨he, -⟩, rfl⟩, hkind⟩, himp⟩
    exact ⟨e, he, hkind.trans himp, rfl, rfl⟩
  · rintro ⟨e, he, himp, hfrom, hto⟩
    have hdep : DependencyIn g scope e :=
      ⟨Or.inl himp, hfrom ▸ hpath _ hscope.1, hto ▸ hpath _ hscope.2⟩
    exact ⟨_, ⟨e, ⟨⟨he, hdep⟩, by rw [hfrom, hto]⟩, rfl⟩, himp⟩

/-- Two members of a list differ, if it is not empty or of one element over and over. -/
theorem one_lt_length_dedup {α : Type} [DecidableEq α] {l : List α} :
    1 < l.dedup.length ↔ ∃ a ∈ l, ∃ b ∈ l, a ≠ b := by
  rw [← List.card_toFinset, Finset.one_lt_card]
  simp only [List.mem_toFinset]

/-- **The kind and the severity of a path** of nodes in scope. -/
theorem classifyCycle_spec (hg : g.Weak) (ord : MapOrder) {scope : String} {path : List String}
    (hpath : ∀ a ∈ path, InScope g scope a) (communities : Option (GoMap String String)) :
    let k := classifyCycle path (adjacency ord g scope).edgeKinds communities
    (HasImport g path ∧ k = (.importCycle, 3)) ∨
      (¬HasImport g path ∧ Spans communities path ∧ k = (.crossCommunityCycle, 2)) ∨
      (¬HasImport g path ∧ ¬Spans communities path ∧ k = (.callCycle, 1)) := by
  have hany := any_edgeKinds hg ord hpath
  unfold classifyCycle
  by_cases himp : HasImport g path
  · rw [if_pos (hany.mpr himp)]
    exact Or.inl ⟨himp, rfl⟩
  · rw [if_neg (mt hany.mp himp)]
    refine Or.inr ?_
    cases communities with
    | none =>
      refine Or.inr ⟨himp, ?_, rfl⟩
      rintro ⟨nodeToComm, hc, -⟩
      exact absurd hc (by simp)
    | some nodeToComm =>
      have hspans : 1 < ((path.filterMap nodeToComm.lookup).dedup).length ↔
          Spans (some nodeToComm) path := by
        rw [one_lt_length_dedup]
        simp only [List.mem_filterMap]
        constructor
        · rintro ⟨c, ⟨a, ha, hac⟩, c', ⟨b, hb, hbc⟩, hne⟩
          exact ⟨nodeToComm, rfl, a, ha, b, hb, c, c', hac, hbc, hne⟩
        · rintro ⟨_, hc, a, ha, b, hb, c, c', hac, hbc, hne⟩
          obtain rfl := Option.some.inj hc
          exact ⟨c, ⟨a, ha, hac⟩, c', ⟨b, hb, hbc⟩, hne⟩
      by_cases hs : Spans (some nodeToComm) path
      · exact Or.inl ⟨himp, hs, if_pos (hspans.mpr hs)⟩
      · exact Or.inr ⟨himp, hs, if_neg (mt hspans.mp hs)⟩

/-! ### The cycles of a component -/

/-- **A component** of two nodes or more, listed in some order. -/
structure Component (g : Graph) (scope : String) (C : List String) : Prop where
  two : ∃ a ∈ C, ∃ b ∈ C, a ≠ b
  inScope : ∀ a ∈ C, InScope g scope a
  isClass : ∀ a ∈ C, ∀ b, b ∈ C ↔
    ReflTransGen (DependsIn g scope) a b ∧ ReflTransGen (DependsIn g scope) b a

/-- **A cycle that there is to find** in a component: a depth-first search from one of the
members lists them, the one it has come to last first, and the cycle is the first one that a
search from there closes. Both searches stay in the component and follow the edges in their
order. -/
structure Found (g : Graph) (scope : String) (c path : List String) : Prop where
  component : Component g scope c
  entered : ∃ e ∈ c, Tarjan.Entered (dependencies g scope) c e
  first : ∃ start, c.head? = some start ∧
    Dfs.FirstCycle (Tarjan.within (dependencies g scope) c) (fun _ => "") c.length start path

/-- **What DetectCycles gives a component**: the kind and the severity of a cycle it reports
whose path lies in the component. -/
def Gives (ord : MapOrder) (sortSlice : SortSlice Cycle) (g : Graph)
    (communities : Option (GoMap String String)) (scope : String) (C : List String)
    (k : CycleKind × ℕ) : Prop :=
  ∃ cycles cycle, detectCycles ord sortSlice g communities scope = some cycles ∧
    cycle ∈ cycles ∧ cycle.path ⊆ C ∧ (cycle.kind, cycle.severity) = k

/-- Two components with a common member have the same members. -/
theorem Component.mem_iff {C c : List String} (hC : Component g scope C)
    (hc : ∀ a ∈ c, ∀ b, b ∈ c ↔
      ReflTransGen (DependsIn g scope) a b ∧ ReflTransGen (DependsIn g scope) b a)
    {a : String} (ha : a ∈ C) (ha' : a ∈ c) (b : String) : b ∈ c ↔ b ∈ C :=
  (hc a ha' b).trans (hC.isClass a ha b).symm

/-- A list with the members of a component is one. -/
theorem Component.congr {C c : List String} (hC : Component g scope C)
    (hmem : ∀ b, b ∈ c ↔ b ∈ C) : Component g scope c := by
  obtain ⟨a, ha, b, hb, hne⟩ := hC.two
  exact ⟨⟨a, (hmem a).mpr ha, b, (hmem b).mpr hb, hne⟩,
    fun a ha => hC.inScope a ((hmem a).mp ha),
    fun a ha b => (hmem b).trans (hC.isClass a ((hmem a).mp ha) b)⟩

/-- What is given to a component does not depend on how it is listed. -/
theorem Gives.congr {ord : MapOrder} {sortSlice : SortSlice Cycle}
    {communities : Option (GoMap String String)} {scope : String} {C c : List String}
    {k : CycleKind × ℕ} (h : Gives ord sortSlice g communities scope C k)
    (hmem : ∀ b, b ∈ c ↔ b ∈ C) : Gives ord sortSlice g communities scope c k := by
  obtain ⟨cycles, cycle, hrun, hin, hpath, hk⟩ := h
  exact ⟨cycles, cycle, hrun, hin, fun a ha => (hmem a).mpr (hpath ha), hk⟩

/-- **What is given comes from one of the lists of members** that `tarjanSCC` returns. -/
theorem gives_iff (hg : g.Weak) {ord : MapOrder} {sortSlice : SortSlice Cycle}
    {communities : Option (GoMap String String)} {scope : String} {C : List String}
    (hC : Component g scope C) {k : CycleKind × ℕ} :
    Gives ord sortSlice g communities scope C k ↔
      ∃ sccs c path, tarjanSCC ((ord.order g (inScopeSet ord g scope).pairs).map Prod.fst)
          (inScopeSet ord g scope) (adjacency ord g scope).adj = some sccs ∧ c ∈ sccs ∧
        (∀ b, b ∈ c ↔ b ∈ C) ∧ orderCyclePath c (adjacency ord g scope).adj = some path ∧
        k = classifyCycle path (adjacency ord g scope).edgeKinds communities := by
  obtain ⟨sccs, heq, hsccs, cycles, reported, hrun, hperm, hall⟩ :=
    detectCycles_spec hg ord sortSlice communities scope
  constructor
  · rintro ⟨cycles', cycle, hrun', hmem, hsub, rfl⟩
    obtain rfl := Option.some.inj (hrun.symm.trans hrun')
    obtain ⟨c, hc, hpath, hkind, hsub', hsimple⟩ :=
      List.exists_mem_left hall (hperm.mem_iff.mp hmem)
    obtain ⟨a, ha⟩ := List.exists_mem_of_length_pos (Nat.lt_of_lt_of_le Nat.two_pos hsimple.two_le)
    have hc' := (List.mem_filter.mp hc).1
    exact ⟨sccs, c, cycle.path, heq, hc',
      hC.mem_iff (hsccs.component c hc') (hsub ha) (hsub' ha), hpath, hkind⟩
  · rintro ⟨sccs', c, path, heq', hc, hmem, hpath, rfl⟩
    obtain rfl := Option.some.inj (heq.symm.trans heq')
    have htwo : 2 ≤ c.length := by
      obtain ⟨a, ha, b, hb, hne⟩ := hC.two
      have hlt : 1 < c.dedup.length :=
        one_lt_length_dedup.mpr ⟨a, (hmem a).mpr ha, b, (hmem b).mpr hb, hne⟩
      exact hlt.trans_le (List.dedup_sublist c).length_le
    obtain ⟨cycle, hcycle, hpath', hkind, hsub, -⟩ :=
      List.exists_mem_right hall (List.mem_filter.mpr ⟨hc, decide_eq_true htwo⟩)
    obtain rfl := Option.some.inj (hpath.symm.trans hpath')
    exact ⟨cycles, cycle, hrun, hperm.mem_iff.mpr hcycle,
      fun a ha => (hmem a).mp (hsub ha), hkind⟩

/-- The lists that `tarjanSCC` returns are listed as searches mark them, and that of the node
the loop comes to first as the search from this node. -/
theorem tarjanSCC_entered (hg : g.Weak) {ord : MapOrder} {scope : String}
    {sccs : List (List String)}
    (heq : tarjanSCC ((ord.order g (inScopeSet ord g scope).pairs).map Prod.fst)
      (inScopeSet ord g scope) (adjacency ord g scope).adj = some sccs) :
    Tarjan.AllEntered (dependencies g scope) sccs ∧
      ∀ e, ((ord.order g (inScopeSet ord g scope).pairs).map Prod.fst).head? = some e →
        ∃ c ∈ sccs, e ∈ c ∧ Tarjan.Entered (dependencies g scope) c e := by
  obtain ⟨s, hs, rfl⟩ := Option.map_eq_some_iff.mp heq
  have hclosed : ∀ v ∈ (ord.order g (inScopeSet ord g scope).pairs).map Prod.fst,
      ∀ w ∈ neighbours ord g scope v,
        w ∈ (ord.order g (inScopeSet ord g scope).pairs).map Prod.fst := fun v _ w hw => by
    rw [mem_scopeOrder hg, ← has_inScopeSet hg ord]
    exact (List.mem_filter.mp hw).2
  rw [← neighbours_eq hg ord]
  exact Tarjan.run_entered hclosed hs

/-- **What is reported for a list is there to find.** -/
theorem orderCyclePath_found (hg : g.Weak) {ord : MapOrder} {scope : String}
    {sccs : List (List String)}
    (heq : tarjanSCC ((ord.order g (inScopeSet ord g scope).pairs).map Prod.fst)
      (inScopeSet ord g scope) (adjacency ord g scope).adj = some sccs) {c : List String}
    (hc : c ∈ sccs) (hcomp : Component g scope c) :
    ∃ path, orderCyclePath c (adjacency ord g scope).adj = some path ∧ Found g scope c path ∧
      path ⊆ c ∧ Dfs.SimpleCycle (DependsIn g scope) path := by
  obtain ⟨sccs', heq', hsccs⟩ := tarjanSCC_spec hg ord scope
  obtain rfl := Option.some.inj (heq.symm.trans heq')
  have htwo : 2 ≤ c.length := by
    have hlt : 1 < c.dedup.length := one_lt_length_dedup.mpr hcomp.two
    exact hlt.trans_le (List.dedup_sublist c).length_le
  obtain ⟨start, path, hstart, hpath, hsub, hsimple, hfirst⟩ :=
    orderCyclePath_spec hg ord scope hsccs hc htwo
  simp only [slice_adjacency hg] at hfirst
  exact ⟨path, hpath, ⟨hcomp, (tarjanSCC_entered hg heq).1 c hc, start, hstart, hfirst⟩, hsub,
    hsimple⟩

/-- **Nothing else is given** than the kind of a cycle there is to find. -/
theorem Gives.found (hg : g.Weak) {ord : MapOrder} {sortSlice : SortSlice Cycle}
    {communities : Option (GoMap String String)} {scope : String} {C : List String}
    {k : CycleKind × ℕ} (h : Gives ord sortSlice g communities scope C k)
    (hC : Component g scope C) :
    ∃ c path, Found g scope c path ∧ (∀ b, b ∈ c ↔ b ∈ C) ∧
      path ⊆ c ∧ Dfs.SimpleCycle (DependsIn g scope) path ∧
      k = classifyCycle path (adjacency ord g scope).edgeKinds communities := by
  obtain ⟨sccs, c, path, heq, hc, hmem, hpath, rfl⟩ := (gives_iff hg hC).mp h
  obtain ⟨path', hpath', hfound, hsub, hsimple⟩ :=
    orderCyclePath_found hg heq hc (hC.congr hmem)
  obtain rfl := Option.some.inj (hpath.symm.trans hpath')
  exact ⟨c, path, hfound, hmem, hsub, hsimple, rfl⟩

/-- **Whatever there is to find, is found** if the loop over the nodes comes to the right one
first. -/
theorem Found.gives (hg : g.Weak) {scope : String} {c path : List String}
    (h : Found g scope c path) (sortSlice : SortSlice Cycle)
    (communities : Option (GoMap String String)) :
    ∃ ord : MapOrder, Gives ord sortSlice g communities scope c
        (classifyCycle path (adjacency ord g scope).edgeKinds communities) ∧
      path ⊆ c ∧ Dfs.SimpleCycle (DependsIn g scope) path := by
  obtain ⟨e, he, hentered⟩ := h.entered
  let ord : MapOrder := GoMap.RangeOrder.first (e, true)
  have hhead : ((ord.order g (inScopeSet ord g scope).pairs).map Prod.fst).head? = some e := by
    have hin : (e, true) ∈ (inScopeSet ord g scope).pairs := by
      have hlist := (mem_scopeOrder hg ord scope e).mpr (h.component.inScope e he)
      obtain ⟨⟨e', b⟩, hb, rfl⟩ := List.mem_map.mp hlist
      rw [ord.mem] at hb
      have htrue : b = true :=
        (lookup_inScopeSet g scope (g.allNodes ord) ∅ (by simp) e').1 b (GoMap.mem_pairs.mp hb)
      rwa [htrue] at hb
    rw [List.head?_map, GoMap.RangeOrder.head?_first hin]
    rfl
  obtain ⟨sccs, heq, hsccs⟩ := tarjanSCC_spec hg ord scope
  obtain ⟨c', hc', he', hentered'⟩ := (tarjanSCC_entered hg heq).2 e hhead
  -- the list is the one that the search from `e` marks
  obtain rfl : c' = c := hentered'.unique hentered
    (h.component.mem_iff (hsccs.component c' hc') he he')
  obtain ⟨path', hpath', hfound, hsub, hsimple⟩ := orderCyclePath_found hg heq hc' h.component
  obtain rfl : path' = path := by
    obtain ⟨start, hstart, hfirst⟩ := h.first
    obtain ⟨start', hstart', hfirst'⟩ := hfound.first
    obtain rfl := Option.some.inj (hstart.symm.trans hstart')
    exact hfirst'.unique hfirst
  exact ⟨ord, (gives_iff hg h.component).mpr ⟨sccs, c', path', heq, hc', fun _ => Iff.rfl, hpath',
    rfl⟩, hsub, hsimple⟩

/-! ### When the orders agree -/

/-- An import between two members of a component. -/
def ImportWithin (g : Graph) (c : List String) : Prop := ∃ a ∈ c, ∃ b ∈ c, a ≠ b ∧ Imports g a b

/-- **The classification does not depend on the order**: any two orders give a component the
same kind and severity, and a component with an import between two members is a cycle of
imports. -/
def ClassifiedAlike (g : Graph) (communities : Option (GoMap String String)) (scope : String) :
    Prop :=
  ∀ C, Component g scope C →
    (∀ ord ord' sortSlice sortSlice' k k', Gives ord sortSlice g communities scope C k →
      Gives ord' sortSlice' g communities scope C k' → k = k') ∧
    (ImportWithin g C → ∀ ord sortSlice k, Gives ord sortSlice g communities scope C k →
      k = (.importCycle, 3))

/-- **The cycles of each component are of one kind**: if there is an import between two
members, each of the cycles there is to find has an import; if there is none, all of them are
across communities or none is. -/
def OfOneKind (g : Graph) (communities : Option (GoMap String String)) (scope : String) : Prop :=
  (∀ c path, Found g scope c path → ImportWithin g c → HasImport g path) ∧
    ∀ c path c' path', Found g scope c path → Found g scope c' path' →
      (∀ b, b ∈ c ↔ b ∈ c') → ¬ImportWithin g c → Spans communities path →
        Spans communities path'

theorem HasImport.within {scope : String} {c path : List String} (h : HasImport g path)
    (hsub : path ⊆ c) (hsimple : Dfs.SimpleCycle (DependsIn g scope) path) : ImportWithin g c := by
  obtain ⟨pair, hpair, himp⟩ := h
  have hmem := mem_pathPairs hpair
  exact ⟨_, hsub hmem.1, _, hsub hmem.2, pathPairs_ne hsimple.nodup hsimple.two_le hpair, himp⟩

theorem ImportWithin.congr {c C : List String} (hmem : ∀ b, b ∈ c ↔ b ∈ C) :
    ImportWithin g c ↔ ImportWithin g C := by
  simp only [ImportWithin, hmem]

/-- **The kind of a cycle there is to find** in a component. -/
theorem classifyCycle_within (hg : g.Weak) (ord : MapOrder) {scope : String} {c path : List String}
    (hc : Component g scope c) (hsub : path ⊆ c)
    (hsimple : Dfs.SimpleCycle (DependsIn g scope) path)
    (communities : Option (GoMap String String)) :
    let k := classifyCycle path (adjacency ord g scope).edgeKinds communities
    (k = (.importCycle, 3) ↔ HasImport g path) ∧
      (¬ImportWithin g c → (Spans communities path → k = (.crossCommunityCycle, 2)) ∧
        (¬Spans communities path → k = (.callCycle, 1))) := by
  intro k
  have hnone : ¬ImportWithin g c → ¬HasImport g path := mt fun h => h.within hsub hsimple
  rcases classifyCycle_spec hg ord (fun a ha => hc.inScope a (hsub ha)) communities with
    ⟨himp, hk⟩ | ⟨himp, hspan, hk⟩ | ⟨himp, hspan, hk⟩
  · exact ⟨iff_of_true hk himp, fun h => absurd himp (hnone h)⟩
  · have hne : k ≠ (.importCycle, 3) := fun hc => by
      rw [show k = _ from hk] at hc
      exact absurd hc (by decide)
    exact ⟨iff_of_false hne himp, fun _ => ⟨fun _ => hk, fun h => absurd hspan h⟩⟩
  · have hne : k ≠ (.importCycle, 3) := fun hc => by
      rw [show k = _ from hk] at hc
      exact absurd hc (by decide)
    exact ⟨iff_of_false hne himp, fun _ => ⟨fun h => absurd h hspan, fun _ => hk⟩⟩

/-- **When the classification does not depend on the order**: if and only if the cycles there
are to find in each component are of one kind. -/
theorem classifiedAlike_iff (hg : g.Weak) (communities : Option (GoMap String String))
    (scope : String) :
    ClassifiedAlike g communities scope ↔ OfOneKind g communities scope := by
  constructor
  · intro h
    refine ⟨fun c path hfound himp => ?_, fun c path c' path' hfound hfound' hmem hnone hspan => ?_⟩
    · obtain ⟨ord, hgives, hsub, hsimple⟩ := hfound.gives hg TwoCycles.unsorted communities
      have hk := (h c hfound.component).2 himp ord _ _ hgives
      exact (classifyCycle_within hg ord hfound.component hsub hsimple communities).1.mp hk
    · obtain ⟨ord, hgives, hsub, hsimple⟩ := hfound.gives hg TwoCycles.unsorted communities
      obtain ⟨ord', hgives', hsub', hsimple'⟩ := hfound'.gives hg TwoCycles.unsorted communities
      have hk := (h c hfound.component).1 _ _ _ _ _ _ hgives (hgives'.congr hmem)
      have hnone' : ¬ImportWithin g c' := mt (ImportWithin.congr hmem).mpr hnone
      have hkind := (classifyCycle_within hg ord hfound.component hsub hsimple communities).2 hnone
      have hkind' :=
        (classifyCycle_within hg ord' hfound'.component hsub' hsimple' communities).2 hnone'
      by_contra hspan'
      rw [hkind.1 hspan, hkind'.2 hspan'] at hk
      exact absurd hk (by decide)
  · rintro ⟨himport, hspans⟩ C hC
    refine ⟨fun ord ord' sortSlice sortSlice' k k' h h' => ?_, fun himp ord sortSlice k h => ?_⟩
    · obtain ⟨c, path, hfound, hmem, hsub, hsimple, rfl⟩ := h.found hg hC
      obtain ⟨c', path', hfound', hmem', hsub', hsimple', rfl⟩ := h'.found hg hC
      have hkind := classifyCycle_within hg ord hfound.component hsub hsimple communities
      have hkind' := classifyCycle_within hg ord' hfound'.component hsub' hsimple' communities
      have hboth : ∀ b, b ∈ c ↔ b ∈ c' := fun b => (hmem b).trans (hmem' b).symm
      by_cases himp : ImportWithin g c
      · rw [hkind.1.mpr (himport c path hfound himp),
          hkind'.1.mpr (himport c' path' hfound' ((ImportWithin.congr hboth).mp himp))]
      · have himp' : ¬ImportWithin g c' := mt (ImportWithin.congr hboth).mpr himp
        by_cases hspan : Spans communities path
        · rw [(hkind.2 himp).1 hspan,
            (hkind'.2 himp').1 (hspans c path c' path' hfound hfound' hboth himp hspan)]
        · have hspan' : ¬Spans communities path' :=
            mt (hspans c' path' c path hfound' hfound (fun b => (hboth b).symm) himp') hspan
          rw [(hkind.2 himp).2 hspan, (hkind'.2 himp').2 hspan']
    · obtain ⟨c, path, hfound, hmem, hsub, hsimple, rfl⟩ := h.found hg hC
      have hkind := classifyCycle_within hg ord hfound.component hsub hsimple communities
      exact hkind.1.mpr (himport c path hfound ((ImportWithin.congr hmem).mpr himp))

namespace MixedCycle

/-- Two functions that call each other, and a third one that the second imports and that
calls the second. -/
def graph : Graph :=
  let fn (id : String) : Node := { id := id, kind := .kindFunction, name := id, filePath := "a.go" }
  let edge (fromID toID : String) (kind : EdgeKind) : Edge :=
    { fromID := fromID, toID := toID, kind := kind, filePath := "a.go" }
  ((((((Graph.new.putNode (fn "a")).putNode (fn "b")).putNode (fn "c")).putEdge
    (edge "a" "b" .edgeCalls)).putEdge (edge "b" "a" .edgeCalls)).putEdge
    (edge "b" "c" .edgeImports)).putEdge (edge "c" "b" .edgeCalls)

theorem weak_graph : graph.Weak :=
  ((((((Graph.Weak.new.putNode _).putNode _).putNode _).putEdge _).putEdge _).putEdge _).putEdge _

/-- The order of the representation, backwards. -/
def backwards : MapOrder := ⟨fun _ l => l.reverse, fun _ l => l.reverse_perm⟩

/-- The three functions are one component. -/
theorem component_graph : Component graph "" ["c", "b", "a"] := by
  have hrun : tarjanSCC ((GoMap.RangeOrder.default.order graph
      (inScopeSet .default graph "").pairs).map Prod.fst) (inScopeSet .default graph "")
      (adjacency .default graph "").adj = some [["c", "b", "a"]] := by
    decide +kernel
  obtain ⟨sccs, heq, hsccs⟩ := tarjanSCC_spec weak_graph .default ""
  obtain rfl := Option.some.inj (hrun.symm.trans heq)
  have hc : ["c", "b", "a"] ∈ [["c", "b", "a"]] := List.mem_singleton_self _
  exact ⟨⟨"c", by simp, "b", by simp, by decide⟩,
    fun a ha => (hsccs.mem_iff a).mp (List.mem_flatten.mpr ⟨_, hc, ha⟩), hsccs.component _ hc⟩

/-- In the one order the component is a cycle of imports. -/
theorem gives_default :
    Gives .default TwoCycles.unsorted graph none "" ["c", "b", "a"] (.importCycle, 3) := by
  have hrun : (detectCycles .default TwoCycles.unsorted graph none "").map
      (List.map fun c => (c.path, c.kind, c.severity)) = some [(["c", "b"], .importCycle, 3)] := by
    decide +kernel
  obtain ⟨cycles, hcycles, hmap⟩ := Option.map_eq_some_iff.mp hrun
  obtain ⟨cycle, rfl, hcycle⟩ := List.map_eq_singleton_iff.mp hmap
  obtain ⟨hpath, hkind⟩ := Prod.mk.inj hcycle
  exact ⟨_, cycle, hcycles, List.mem_singleton_self _, by rw [hpath]; simp, hkind⟩

/-- In the other order it is a cycle of calls. -/
theorem gives_backwards :
    Gives backwards TwoCycles.unsorted graph none "" ["c", "b", "a"] (.callCycle, 1) := by
  have hrun : (detectCycles backwards TwoCycles.unsorted graph none "").map
      (List.map fun c => (c.path, c.kind, c.severity)) = some [(["a", "b"], .callCycle, 1)] := by
    decide +kernel
  obtain ⟨cycles, hcycles, hmap⟩ := Option.map_eq_some_iff.mp hrun
  obtain ⟨cycle, rfl, hcycle⟩ := List.map_eq_singleton_iff.mp hmap
  obtain ⟨hpath, hkind⟩ := Prod.mk.inj hcycle
  exact ⟨_, cycle, hcycles, List.mem_singleton_self _, by rw [hpath]; simp, hkind⟩

/-- **The kind of the component depends on the order**, and in one of the orders the import
in it is missed. -/
theorem not_classifiedAlike : ¬ClassifiedAlike graph none "" := fun h =>
  absurd ((h _ component_graph).1 _ _ _ _ _ _ gives_default gives_backwards) (by decide)

/-- So the cycles that there are to find in it are not of one kind. -/
theorem classifiedAlike_iff_graph : ¬OfOneKind graph none "" := fun h =>
  absurd (((classifiedAlike_iff weak_graph none "").mpr h _ component_graph).1 _ _ _ _ _ _
    gives_default gives_backwards) (by decide)

end MixedCycle

end Analysis

end Gortex
