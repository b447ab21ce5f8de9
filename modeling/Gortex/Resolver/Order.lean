import Gortex.Graph.Content
import Gortex.Resolver.MayBecome

/-!
# Resolution and the order of the nodes

The nodes and edges of a graph do not say in which order they were inserted, nor what was there
before and is evicted. Whatever it was, and in whatever order a pass takes the edges, an edge has
one answer if only one thing may become of it (`Gortex.Graph.TieFree`).

Conversely, an edge that has one answer has nothing else that may become of it. A candidate that
is inserted again comes last in its shard (`Gortex.Graph.Reachable.exists_lastOfRank`): if it is chosen still,
no other can be. And a node that has the path of an import for its qualified name is found or not
(`Gortex.Graph.Reachable.exists_unqualified`): it takes the slot of the name when it is inserted, and another
node that takes the slot and is evicted leaves it empty.

What this leaves out are the edges that wait for others (`Gortex.Graph.Steady`): the calls of a
method that read the classes bound to a type off edges that are still to be resolved.
-/

namespace Gortex

open GoString Graph

attribute [local irreducible] cutLast

namespace Graph

variable {g g' g₁ g₂ s : Graph}

/-- What may become of an edge is a matter of what is stored. -/
theorem SameContent.mayBecome (h : SameContent g g') : g'.MayBecome = g.MayBecome := by
  unfold Graph.MayBecome
  rw [funext h.nodeAt, funext fun e => propext (h.storedEdge e)]

/-- **Only one thing may become of the edge.** -/
def TieFree (g : Graph) (e : Edge) : Prop := ∀ y y', g.MayBecome e y → g.MayBecome e y' → y' = y

/-- **The edge is resolved alike**, in whatever order the nodes and edges came, whatever was evicted
before, and in whatever order the maps are looped over. -/
def ResolvesAlike (g : Graph) (e : Edge) : Prop :=
  ∀ (g₁ g₂ : Graph) (ord₁ ord₂ : MapOrder) (r₁ r₂ : EdgeRef), Reachable g₁ → Reachable g₂ →
    SameContent g g₁ → SameContent g g₂ → g₁.StoredOut r₁ → g₂.StoredOut r₂ →
    g₁.edge r₁ = e → g₂.edge r₂ = e →
      (g₂.resolveAll ord₂).1.edge r₂ = (g₁.resolveAll ord₁).1.edge r₁

/-- **The edge does not wait for others**: if it is a call of a method with a hint at the type of
its receiver, a stored method of the name is of that type, or no edge that is still to be resolved
binds a class to it. -/
def Steady (g : Graph) (e : Edge) : Prop :=
  hasPrefix (trimPrefix e.toID unresolvedPrefix) "*." = true → edgeReceiverType e ≠ "" →
    (∃ c, (g.nodeAt c.id = some c ∧ e.Seeks c) ∧ c.kind = .kindMethod ∧
      nodeReceiverType c = edgeReceiverType e) ∨
    ∀ p, g.StoredEdge p → p.IsUnresolved → p.boundAs (edgeReceiverType e) = none

/-! ### One thing may become of the edge -/

theorem resolvesAlike_of_tieFree {e : Edge}
    (hp : ∀ {id n}, g.nodeAt id = some n → ¬hasPrefix id unresolvedPrefix = true)
    (ht : e.IsUnresolved → g.TieFree e) : g.ResolvesAlike e := by
  intro g₁ g₂ ord₁ ord₂ r₁ r₂ hg₁ hg₂ h₁ h₂ hr₁ hr₂ he₁ he₂
  by_cases hun : e.IsUnresolved
  · have hbecomes : ∀ {g' : Graph} {ord : MapOrder} {r : EdgeRef}, Reachable g' → SameContent g g' →
        g'.StoredOut r → g'.edge r = e → g.MayBecome e ((g'.resolveAll ord).1.edge r) := by
      intro g' ord r hg' h' hr he
      have hmay := mayBecome_resolveAll hg'.weak (fun hn => hp ((h'.nodeAt _).symm.trans hn)) ord hr
        (by rwa [he])
      rwa [h'.mayBecome, he] at hmay
    exact ht hun _ _ (hbecomes hg₁ h₁ hr₁ he₁) (hbecomes hg₂ h₂ hr₂ he₂)
  · rw [edge_resolveAll_of_not ord₁ (by rwa [he₁]), edge_resolveAll_of_not ord₂ (by rwa [he₂]), he₁,
      he₂]

/-- **The passes of an edge that does not wait** choose alike in the course of any two passes over
the graph. -/
theorem Steady.alike {e : Edge} (h : g.Steady e) {T T' : Edge → Edge → Prop} {l l' : List Edge}
    (hl : Reworked g.StoredEdge T l) (hl' : Reworked g.StoredEdge T' l') :
    FirstFit.Alike (fun c => g.nodeAt c.id = some c ∧ e.Seeks c)
      ((Lookup.ofEdges g.nodeAt l).passes e) ((Lookup.ofEdges g.nodeAt l').passes e) := by
  refine Lookup.alike_passes rfl fun hm hne => (h hm hne).imp id fun hb x => ?_
  rw [Lookup.mem_boundImplsFor, Lookup.mem_boundImplsFor]
  exact and_congr_right fun _ => (hl.exists_boundAs hb).trans (hl'.exists_boundAs hb).symm

/-! ### What a pass over a graph of the same content chooses -/

theorem SameContent.mem_candidates (h : SameContent g g') (hg' : Weak g') (ord : MapOrder) {e : Edge}
    {c : Node} : c ∈ (g'.lookup ord (g'.fileNodes ord)).candidates e ↔
      g.nodeAt c.id = some c ∧ e.Seeks c := by
  rw [hg'.mem_candidates ord, h.nodeAt]

/-- **What becomes of an edge** is answered in some state of the pass. -/
theorem SameContent.exists_resolveEdge {e : Edge} (h : SameContent g g') (hg' : Weak g')
    (hp : ∀ {id n}, g.nodeAt id = some n → ¬hasPrefix id unresolvedPrefix = true) (ord : MapOrder)
    {r : EdgeRef} (hr : g'.StoredOut r) (he : g'.edge r = e) (hun : e.IsUnresolved) :
    ∃ T l, Reworked g.StoredEdge T l ∧ (g'.resolveAll ord).1.edge r =
      (({ g'.lookup ord (g'.fileNodes ord) with allEdges := l } : Lookup).resolveEdge e).1 := by
  have hp' : ∀ {id n}, g'.nodeAt id = some n → ¬hasPrefix id unresolvedPrefix = true :=
    fun hn => hp ((h.nodeAt _).symm.trans hn)
  have hstored : g'.StoredEdge = g.StoredEdge := funext fun e => propext (h.storedEdge e)
  subst he
  rw [← hstored]
  unfold resolveAll
  rw [fst_foldl_resolveRef]
  refine of_eq_true (edge_foldl_turn (π := fun y => ∃ T l, Reworked g'.StoredEdge T l ∧
      y = (({ g'.lookup ord (g'.fileNodes ord) with allEdges := l } : Lookup).resolveEdge
        (g'.edge r)).1) (I := Passing g') (Passing.refl hg')
    (fun s r' _ hs => hs.turn hg' hp' ord r') (fun s hs => eq_true ?_) (fun s hs => ?_)
    ((hg'.mem_allEdges ord).mpr hr) hun)
  · refine ⟨_, _, hs.reworked ord, ?_⟩
    unfold answer
    rw [hs.nodes.lookup_eq]
  · exact Lookup.settles_resolveEdge (hs.noPlaceholders hg' hp' ord) _

/-- **What is chosen for an edge**, by the passes in some state. -/
theorem SameContent.exists_choose {e : Edge} (h : SameContent g g') (hg' : Weak g')
    (hp : ∀ {id n}, g.nodeAt id = some n → ¬hasPrefix id unresolvedPrefix = true) (ord : MapOrder)
    {r : EdgeRef} (hr : g'.StoredOut r) (he : g'.edge r = e) (hun : e.IsUnresolved)
    (hq : (g'.lookup ord (g'.fileNodes ord)).NotQualified e) :
    ∃ T l, Reworked g.StoredEdge T l ∧ (g'.resolveAll ord).1.edge r =
      ((FirstFit.choose ((g'.lookup ord (g'.fileNodes ord)).candidates e)
        ((Lookup.ofEdges g.nodeAt l).passes e)).getD (Lookup.otherwise e)).1 := by
  obtain ⟨T, l, hl, hfinal⟩ := h.exists_resolveEdge hg' hp ord hr he hun
  refine ⟨T, l, hl, ?_⟩
  set v : Lookup := { g'.lookup ord (g'.fileNodes ord) with allEdges := l } with hv
  have hpasses : (Lookup.ofEdges g.nodeAt l).passes e = v.passes e :=
    Lookup.passes_congr (funext fun id => (h.nodeAt id).symm) fun _ _ => Iff.rfl
  rw [hfinal, hpasses, Lookup.resolveEdge_eq_choose (show v.NotQualified e from hq)]
  rfl

/-- **A candidate can come last** of its shard. -/
theorem Reachable.exists_last_candidate (hg : Reachable g) {e : Edge} {c : Node}
    (hc : g.nodeAt c.id = some c) (hseeks : e.Seeks c)
    (hq : ∀ ord, (g.lookup ord (g.fileNodes ord)).NotQualified e) :
    ∃ g' ord, Reachable g' ∧ SameContent g g' ∧
      (g'.lookup ord (g'.fileNodes ord)).NotQualified e ∧
      FirstFit.LastOfRank (fun c : Node => shardIdx c.id)
        ((g'.lookup ord (g'.fileNodes ord)).candidates e) c := by
  have hs := hseeks
  unfold Edge.Seeks at hs
  simp only at hs
  by_cases himport : hasPrefix (trimPrefix e.toID unresolvedPrefix) "import::" = true
  · -- the files, in the order of a map
    rw [if_pos himport] at hs
    obtain ⟨r, hr, hrc⟩ := nodeAt_eq_some.mp hc
    refine ⟨g, GoMap.RangeOrder.last (c.id, r), hg, SameContent.refl g, hq _, ?_⟩
    have hlast := (hg.weak.nodes.lastOfRank_allNodes hr).filter
      (q := fun n => decide (n.kind = .kindFile)) (by rw [hrc]; exact decide_eq_true hs)
    rw [hrc] at hlast
    unfold Lookup.candidates
    simp only [if_pos himport]
    exact hlast
  · -- the nodes of a name, in the order they came
    obtain ⟨g', hg', hsame, hlast⟩ := hg.exists_lastOfRank hc
    refine ⟨g', GoMap.RangeOrder.default, hg', hsame, fun hc => absurd hc himport, ?_⟩
    have hlist : (g'.lookup GoMap.RangeOrder.default
        (g'.fileNodes GoMap.RangeOrder.default)).candidates e =
          (g'.findNodesByName c.name).map g'.node := by
      unfold Lookup.candidates
      simp only [if_neg himport]
      rw [if_neg himport] at hs
      split_ifs at hs ⊢
      · obtain ⟨importPath, hcut⟩ := hs
        rw [hcut]
        rfl
      · rw [← hs]
        rfl
      · rw [← hs]
        rfl
    rwa [hlist]

/-! ### An edge that is resolved alike -/

/-- **Nothing else may become of an edge that is resolved alike.** -/
theorem tieFree_of_resolvesAlike {e : Edge} (hg : Reachable g)
    (hp : ∀ {id n}, g.nodeAt id = some n → ¬hasPrefix id unresolvedPrefix = true)
    (he : g.StoredEdge e) (hun : e.IsUnresolved) (hs : g.Steady e) (h : g.ResolvesAlike e) :
    g.TieFree e := by
  obtain ⟨g₀, hg₀, hsame₀, hnone⟩ :=
    hg.exists_unqualified (trimPrefix (trimPrefix e.toID unresolvedPrefix) "import::")
  have hq₀ : ∀ ord, (g₀.lookup ord (g₀.fileNodes ord)).NotQualified e := fun ord _ => by
    change (g₀.getNodeByQualName _).map g₀.node = none
    rw [hnone, Option.map_none]
  let ord₀ : MapOrder := GoMap.RangeOrder.default
  obtain ⟨r₀, hr₀, he₀⟩ := (hsame₀.storedEdge e).mpr he
  obtain ⟨T₀, l₀, hl₀, hy₀⟩ := hsame₀.exists_choose hg₀.weak hp ord₀ hr₀ he₀ hun (hq₀ ord₀)
  have hfinal : ∀ (g' : Graph) (ord : MapOrder) (r : EdgeRef), Reachable g' → SameContent g g' →
      g'.StoredOut r → g'.edge r = e →
        (g'.resolveAll ord).1.edge r = (g₀.resolveAll ord₀).1.edge r₀ :=
    fun g' ord r hg' hsame hr hre => h g₀ g' ord₀ ord r₀ r hg₀ hg' hsame₀ hsame hr₀ hr he₀ hre
  suffices hall : ∀ y, g.MayBecome e y → y = (g₀.resolveAll ord₀).1.edge r₀ from
    fun y y' hy hy' => (hall y' hy').trans (hall y hy).symm
  intro y hy
  cases hy with
  | qualified himport hn hqn hne =>
    rename_i n
    obtain ⟨g₁, hg₁, hsame₁, hnode⟩ := hg.exists_qualified hn hne
    obtain ⟨r₁, hr₁, he₁⟩ := (hsame₁.storedEdge e).mpr he
    obtain ⟨T, l, -, hy⟩ := hsame₁.exists_resolveEdge hg₁.weak hp ord₀ hr₁ he₁ hun
    rw [← hfinal g₁ ord₀ r₁ hg₁ hsame₁ hr₁ he₁, hy]
    have hfound : ({ g₁.lookup ord₀ (g₁.fileNodes ord₀) with allEdges := l } :
        Lookup).getNodeByQualName (trimPrefix (trimPrefix e.toID unresolvedPrefix) "import::") =
          some n := hqn ▸ hnode
    rw [Lookup.resolveEdge_of_import himport hfound]
    unfold Lookup.callerRepoPrefix
    rw [show (Lookup.ofEdges g.nodeAt []).getNode = g₁.nodeAt from (funext hsame₁.nodeAt).symm]
    rfl
  | answered hl hrest hans =>
    rename_i x T l
    set cand := fun c : Node => g.nodeAt c.id = some c ∧ e.Seeks c with hcand
    -- a listing of the candidates and the passes of any state choose as those of `g₀`
    have halike : ∀ {T' : Edge → Edge → Prop} {l' : List Edge}, Reworked g.StoredEdge T' l' →
        FirstFit.Alike cand ((Lookup.ofEdges g.nodeAt l').passes e)
          ((Lookup.ofEdges g.nodeAt l₀).passes e) := fun hl' => hs.alike hl' hl₀
    have hlisting : ∀ {g' : Graph} (ord : MapOrder), Reachable g' → SameContent g g' →
        cand = (· ∈ (g'.lookup ord (g'.fileNodes ord)).candidates e) := fun ord hg' hsame =>
      funext fun c => propext (hsame.mem_candidates hg'.weak ord).symm
    have hchoose : ∀ {g' : Graph} {T' : Edge → Edge → Prop} {l' : List Edge} (ord : MapOrder),
        Reachable g' → SameContent g g' → Reworked g.StoredEdge T' l' →
          FirstFit.choose ((g'.lookup ord (g'.fileNodes ord)).candidates e)
            ((Lookup.ofEdges g.nodeAt l').passes e) =
          FirstFit.choose ((g'.lookup ord (g'.fileNodes ord)).candidates e)
            ((Lookup.ofEdges g.nodeAt l₀).passes e) := by
      intro g' T' l' ord hg' hsame hl'
      have hal := halike hl'
      rw [hlisting ord hg' hsame] at hal
      exact hal.choose_eq
    have hpossible : ∀ {T' : Edge → Edge → Prop} {l' : List Edge}, Reworked g.StoredEdge T' l' →
        (FirstFit.choose ((g₀.lookup ord₀ (g₀.fileNodes ord₀)).candidates e)
          ((Lookup.ofEdges g.nodeAt l').passes e) = none ↔
            ∀ p ∈ (Lookup.ofEdges g.nodeAt l').passes e, ∀ c, cand c → ¬p.1 c = true) := by
      intro T' l' _
      rw [FirstFit.choose_eq_none_iff, hlisting ord₀ hg₀ hsame₀]
    rw [hy₀]
    cases hc₀ : FirstFit.choose ((g₀.lookup ord₀ (g₀.fileNodes ord₀)).candidates e)
        ((Lookup.ofEdges g.nodeAt l₀).passes e) with
    | none =>
      rcases hans with hans | ⟨-, rfl⟩
      · obtain ⟨p, hpm, c, hc, hpc⟩ := ((halike hl).possible_iff.mp hans).exists_passes
        exact absurd hpc ((hpossible hl₀).mp hc₀ p hpm c hc)
      · rfl
    | some x₀ =>
      have hnot : ¬∀ p ∈ (Lookup.ofEdges g.nodeAt l).passes e, ∀ c, cand c → ¬p.1 c = true := by
        intro hno
        have hnone' := (hpossible hl).mpr hno
        rw [hchoose ord₀ hg₀ hsame₀ hl, hc₀] at hnone'
        cases hnone'
      have hans' := (halike hl).possible_iff.mp (hans.resolve_right fun hc => hnot hc.1)
      -- the one that is chosen is made the last of its shard, and is chosen still
      obtain ⟨p, hpm, c, hcm, hpc, rfl⟩ := FirstFit.of_choose_eq_some hc₀
      obtain ⟨hc, hseeks⟩ := (hg₀.weak.mem_candidates ord₀).mp hcm
      obtain ⟨g₁, ord₁, hg₁, hsame, hq₁, hlast⟩ := hg₀.exists_last_candidate hc hseeks hq₀
      have hsame₁ := hsame₀.trans hsame
      obtain ⟨r₁, hr₁, he₁⟩ := (hsame₁.storedEdge e).mpr he
      obtain ⟨T₁, l₁, hl₁, hy₁⟩ := hsame₁.exists_choose hg₁.weak hp ord₁ hr₁ he₁ hun hq₁
      rw [hfinal g₁ ord₁ r₁ hg₁ hsame₁ hr₁ he₁, hy₀, hc₀, hchoose ord₁ hg₁ hsame₁ hl₁] at hy₁
      have hcand₁ : cand c := ⟨(hsame₀.nodeAt _).symm.trans hc, hseeks⟩
      rw [hlisting ord₁ hg₁ hsame₁] at hans' hcand₁
      cases hc₁ : FirstFit.choose ((g₁.lookup ord₁ (g₁.fileNodes ord₁)).candidates e)
          ((Lookup.ofEdges g.nodeAt l₀).passes e) with
      | none => exact absurd hpc (FirstFit.choose_eq_none_iff.mp hc₁ p hpm c hcand₁)
      | some x₁ =>
        rw [hc₁] at hy₁
        have hto : x₁.1.toID = c.id := by
          rw [← (Lookup.of_mem_passes e p hpm c).1]
          exact (congrArg Edge.toID hy₁).symm
        have heq := hans'.eq_of_last hlast (f := fun y => y.1.toID)
          (fun p' hp' a => (Lookup.of_mem_passes e p' hp' a).1) (fun a ha hid => ?_) hc₁ hto
        · rw [heq]
          exact hy₁.symm
        · have ha' := ((hsame₁.mem_candidates hg₁.weak ord₁).mp ha).1
          rw [hid] at ha'
          exact Option.some.inj (ha'.symm.trans ((hsame₀.nodeAt _).symm.trans hc))

/-- **The order does not matter for an edge** if only one thing may become of it; and that is so
of every edge for which it does not matter, unless it waits for others. -/
theorem resolvesAlike_iff {g : Graph} (hg : Reachable g)
    (hp : ∀ {id n}, g.nodeAt id = some n → ¬hasPrefix id unresolvedPrefix = true) {e : Edge}
    (he : g.StoredEdge e) :
    ((e.IsUnresolved → g.TieFree e) → g.ResolvesAlike e) ∧
      (g.Steady e → (g.ResolvesAlike e ↔ (e.IsUnresolved → g.TieFree e))) :=
  ⟨resolvesAlike_of_tieFree hp, fun hs =>
    ⟨fun h hun => tieFree_of_resolvesAlike hg hp he hun hs h, resolvesAlike_of_tieFree hp⟩⟩

namespace TwoFunctions

/-! ### Two functions -/

/-- A function in a directory. -/
def function (dir name : String) : Node :=
  { id := dir ++ "/x.go::" ++ name, kind := .kindFunction, name := name, filePath := dir ++ "/x.go" }

/-- The function that calls. -/
def main : Node :=
  { id := "main.go::main", kind := .kindFunction, name := "main", filePath := "main.go" }

/-- A call of `F`. -/
def call : Edge :=
  { fromID := "main.go::main", toID := "unresolved::F", kind := .edgeCalls, filePath := "main.go" }

/-- Two functions, inserted in this order, and the call. -/
def inserted (a b : Node) : Graph := (((Graph.new.putNode a).putNode b).putNode main).putEdge call

theorem reachable (a b : Node) : Reachable (inserted a b) :=
  ⟨[.addNode a, .addNode b, .addNode main, .addEdge call],
    .cons ⟨trivial, rfl⟩ (.cons ⟨trivial, rfl⟩ (.cons ⟨trivial, rfl⟩ (.cons ⟨trivial, rfl⟩ (.nil _))))⟩

theorem nodeAt_inserted (a b : Node) (id : String) : (inserted a b).nodeAt id =
    if id = main.id then some main
    else if id = b.id then some b else if id = a.id then some a else none := by
  have hinv := ((Weak.new.putNode a).putNode b).nodes
  rw [inserted, nodeAt_putEdge, hinv.nodeAt_putNode, (Weak.new.putNode a).nodes.nodeAt_putNode,
    NodeInv.new.nodeAt_putNode]
  rfl

theorem storedEdge_inserted (a b : Node) (e : Edge) : (inserted a b).StoredEdge e ↔ e = call := by
  have hnone : ¬(((Graph.new.putNode a).putNode b).putNode main).StoredEdge e := by
    rw [storedEdge_putNode, storedEdge_putNode, storedEdge_putNode]
    rintro ⟨r, hr, -⟩
    exact absurd hr List.not_mem_nil
  rw [inserted, (((Inv.new.putNode a).putNode b).putNode main).storedEdge_putEdge]
  exact ⟨fun h => h.resolve_right fun hc => hnone hc.1, Or.inl⟩

/-- The order of insertion does not show in what is stored. -/
theorem sameContent {a b : Node} (hne : a.id ≠ b.id) : SameContent (inserted a b) (inserted b a) where
  nodeAt := fun id => by
    rw [nodeAt_inserted, nodeAt_inserted]
    by_cases ha : id = a.id
    · rw [if_pos ha, if_neg (fun hb => hne (ha.symm.trans hb)), if_pos ha]
    · rw [if_neg ha, if_neg ha]
  storedEdge := fun e => (storedEdge_inserted b a e).trans (storedEdge_inserted a b e).symm

theorem not_hasPrefix {a b : Node} (ha : ¬hasPrefix a.id unresolvedPrefix = true)
    (hb : ¬hasPrefix b.id unresolvedPrefix = true) {id : String} {n : Node}
    (hn : (inserted a b).nodeAt id = some n) : ¬hasPrefix id unresolvedPrefix = true := by
  rw [nodeAt_inserted] at hn
  split_ifs at hn with h₁ h₂ h₃
  · rw [h₁]
    decide
  · rwa [h₂]
  · rwa [h₃]

theorem edge_inserted (a b : Node) : (inserted a b).edge ⟨0⟩ = call := rfl

theorem storedOut_inserted (a b : Node) : (inserted a b).StoredOut ⟨0⟩ := by
  obtain ⟨r, hr, -⟩ := (storedEdge_inserted a b call).mpr rfl
  have hlt := ((Inv.new.putNode a).putNode b).putNode main |>.putEdge call |>.edges.out_lt hr
  have hnext : (inserted a b).nextEdge = 1 := rfl
  obtain rfl : r = ⟨0⟩ := congrArg EdgeRef.mk (Nat.lt_one_iff.mp (hnext ▸ hlt))
  exact hr

/-- One function of the name: nothing else may become of the call. -/
theorem tieFree_one : TieFree (inserted (function "a" "F") (function "q" "G")) call := by
  set g := inserted (function "a" "F") (function "q" "G") with hg
  have hform : trimPrefix call.toID unresolvedPrefix = "F" := by decide
  have hcand : ∀ c, g.nodeAt c.id = some c ∧ call.Seeks c → c = function "a" "F" := by
    rintro c ⟨hn, hseeks⟩
    unfold Edge.Seeks at hseeks
    simp only [hform] at hseeks
    rw [if_neg (by decide), if_neg (by decide), if_neg (by decide)] at hseeks
    rw [hg, nodeAt_inserted] at hn
    split_ifs at hn
    · rw [← Option.some.inj hn] at hseeks
      exact absurd hseeks (by decide)
    · rw [← Option.some.inj hn] at hseeks
      exact absurd hseeks (by decide)
    · exact (Option.some.inj hn).symm
  have hpasses : ∀ l, (Lookup.ofEdges g.nodeAt l).passes call =
      (Lookup.ofEdges g.nodeAt l).sameDirPasses call Node.isCallable := fun l => by
    unfold Lookup.passes
    simp only [hform]
    rw [if_neg (by decide), if_neg (by decide), if_neg (by decide), if_neg (by decide),
      if_neg (by decide)]
  suffices hone : ∀ y, g.MayBecome call y →
      y = (call.resolveAcross ((Lookup.ofEdges g.nodeAt []).callerRepoPrefix call)
        (function "a" "F")).1 from fun y y' hy hy' => (hone y' hy').trans (hone y hy).symm
  intro y hy
  cases hy with
  | qualified himport => exact absurd himport (by rw [hform]; decide)
  | @answered _ x _ l _ _ hans =>
    unfold Lookup.MayAnswer Lookup.sameDirPasses at *
    rw [hpasses] at hans
    rcases hans with hans | ⟨hno, -⟩
    · cases hans with
      | here hlead =>
        -- the function is in another directory
        have hdir := hlead.1.2
        rw [hcand _ hlead.1.1] at hdir
        exact absurd hdir (by decide)
      | later _ hans =>
        cases hans with
        | here hlead =>
          rw [hcand _ hlead.1.1]
          rfl
        | later _ hans => cases hans
    · have hstored : g.nodeAt (function "a" "F").id = some (function "a" "F") := by
        rw [hg, nodeAt_inserted, if_neg (by decide), if_neg (by decide), if_pos rfl]
      have hseeks : call.Seeks (function "a" "F") := by
        unfold Edge.Seeks
        simp only [hform]
        rw [if_neg (by decide), if_neg (by decide), if_neg (by decide)]
        rfl
      exact absurd rfl (hno _ (List.mem_cons_of_mem _ List.mem_cons_self) _ ⟨hstored, hseeks⟩)

/-- The call is resolved alike, and waits for nothing. -/
theorem resolvesAlike_one : ResolvesAlike (inserted (function "a" "F") (function "q" "G")) call := by
  have hsteady : Steady (inserted (function "a" "F") (function "q" "G")) call := fun hm =>
    absurd hm (by decide)
  exact ((resolvesAlike_iff (reachable _ _) (not_hasPrefix (by decide) (by decide))
    ((storedEdge_inserted _ _ _).mpr rfl)).2 hsteady).mpr fun _ => tieFree_one

/-- **Two functions of the name in one shard**: the call goes to the one that was inserted
first. -/
theorem not_resolveAll_eq_of_tied :
    ¬∀ (g g' : Graph) (ord ord' : MapOrder) (r r' : EdgeRef), Reachable g → Reachable g' →
      SameContent g g' →
      (∀ id n, g.nodeAt id = some n → ¬hasPrefix id unresolvedPrefix = true) →
      g.StoredOut r → g'.StoredOut r' → g'.edge r' = g.edge r →
        ((g'.resolveAll ord').1.edge r').toID = ((g.resolveAll ord).1.edge r).toID := by
  intro h
  have heq := h (inserted (function "a" "F") (function "q" "F"))
    (inserted (function "q" "F") (function "a" "F")) GoMap.RangeOrder.default
    GoMap.RangeOrder.default ⟨0⟩ ⟨0⟩ (reachable _ _) (reachable _ _) (sameContent (by decide))
    (fun _ _ => not_hasPrefix (by decide) (by decide)) (storedOut_inserted _ _)
    (storedOut_inserted _ _) ((edge_inserted _ _).trans (edge_inserted _ _).symm)
  have hne : (((inserted (function "q" "F") (function "a" "F")).resolveAll
      GoMap.RangeOrder.default).1.edge ⟨0⟩).toID ≠
        (((inserted (function "a" "F") (function "q" "F")).resolveAll
          GoMap.RangeOrder.default).1.edge ⟨0⟩).toID := by decide +kernel
  exact hne heq

end TwoFunctions

end Graph

end Gortex
