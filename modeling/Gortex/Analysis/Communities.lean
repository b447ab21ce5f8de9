import Mathlib.Algebra.Order.Floor.Defs
import Mathlib.Data.Rat.Floor
import Gortex.Analysis.Cycles
import Gortex.Lib.Modularity
import Gortex.Lib.Totals

/-!
# Communities

`internal/analysis/communities.go`: the clustering of the symbols by the local moves of
Louvain. The floats of the source are rationals here; its weights are multiples of one half.

A run of the loop is a sequence of visits to nodes (`Gortex.Analysis.visit`). Every loop over a
map comes in some order, which the point of the run determines, and each visit is an action of
`Gortex.Analysis.Moves.Step`. In every state that such a run leads to, the three maps the
loop updates agree (`Gortex.Analysis.Bookkeeping`), for any weights, and the result
says the same twice (`Gortex.Analysis.bookkeeping_reachable`).
-/

namespace Gortex

namespace Analysis

/-! ### The model -/

/-- The weight of an edge of a kind. -/
def edgeWeight : EdgeKind → ℚ
  | .edgeCalls => 3
  | .edgeMemberOf => 2
  | .edgeReferences => 3 / 2
  | .edgeImplements => 2
  | .edgeExtends => 2
  | .edgeImports => 1 / 2
  | .edgeInstantiates => 1
  | .edgeDefines => 0
  | .edgeProvides => 0
  | .edgeConsumes => 0
  | .edgeMatches => 0

/-- What is clustered: the symbols, the weights to their neighbours, the degrees and the total
weight. -/
structure Network where
  symbolNodes : GoMap String Bool
  neighbors : GoMap String (GoMap String ℚ)
  degree : GoMap String ℚ
  totalWeight : ℚ

/-- The state of the loop. -/
structure LocalMoves where
  comm : GoMap String String
  commNodes : GoMap String (List String)
  sigmaIn : GoMap String ℚ
  sigmaTot : GoMap String ℚ

/-- The loops over maps. -/
inductive MapLoop
  | start
  | nodes
  | neighborsOf (id : String)
  | commWeightsOf (id : String)
  | renumber
  | nodeToComm
  | result
  | modularity
deriving DecidableEq

/-- A point of the run: the pass, the loop and the state. -/
structure Point where
  pass : ℕ
  loop : MapLoop
  moves : LocalMoves

/-- The order of each loop over a map. -/
abbrev VisitOrder := GoMap.RangeOrder Point

namespace Network

variable (N : Network)

/-- The neighbours of a node, with the weights to them. -/
def neighborsOf (id : String) : GoMap String ℚ := (N.neighbors.lookup id).getD ∅

/-- Every symbol alone. -/
def initMoves (ids : List String) : LocalMoves :=
  ids.foldl (fun s id =>
    { comm := s.comm.insert id id
      commNodes := s.commNodes.insert id [id]
      sigmaIn := s.sigmaIn
      sigmaTot := s.sigmaTot.insert id (N.degree.total id) }) ⟨∅, ∅, ∅, ∅⟩

end Network

/-- The community of a node: `comm[id]`. -/
def LocalMoves.commOf (s : LocalMoves) (id : String) : String := (s.comm.lookup id).getD ""

variable (ord : VisitOrder) (N : Network)

/-- The weight from a node to each community with a neighbour in it. -/
def commWeights (pass : ℕ) (s : LocalMoves) (id : String) : GoMap String ℚ :=
  (ord.order ⟨pass, .neighborsOf id, s⟩ (N.neighborsOf id).pairs).foldl
    (fun weights p => weights.addTo (s.commOf p.1) p.2) ∅

/-- What a node gains in a community over the one it is in. -/
def gain (s : LocalMoves) (id : String) (weights : GoMap String ℚ) (c : String) (wc : ℚ) : ℚ :=
  let ki := N.degree.total id
  let removeDelta := weights.total (s.commOf id) -
    s.sigmaTot.total (s.commOf id) * ki / (2 * N.totalWeight)
  wc - s.sigmaTot.total c * ki / (2 * N.totalWeight) - removeDelta

/-- The community with the best gain, and the gain. -/
def bestMove (pass : ℕ) (s : LocalMoves) (id : String) (weights : GoMap String ℚ) : String × ℚ :=
  (ord.order ⟨pass, .commWeightsOf id, s⟩ weights.pairs).foldl (fun best p =>
    if p.1 = s.commOf id then best
    else if best.2 < gain N s id weights p.1 p.2 then (p.1, gain N s id weights p.1 p.2)
    else best) (s.commOf id, 0)

/-- Take a node out of the community it is in. -/
def LocalMoves.leave (s : LocalMoves) (id : String) (ki kiIn : ℚ) : LocalMoves where
  comm := s.comm
  commNodes :=
    if id ∈ Grouped.slice s.commNodes (s.commOf id) then
      s.commNodes.insert (s.commOf id) ((Grouped.slice s.commNodes (s.commOf id)).erase id)
    else s.commNodes
  sigmaIn := s.sigmaIn.addTo (s.commOf id) (-(2 * kiIn))
  sigmaTot := s.sigmaTot.addTo (s.commOf id) (-ki)

/-- Put a node into a community. -/
def LocalMoves.enter (s : LocalMoves) (id c : String) (ki kiIn : ℚ) : LocalMoves where
  comm := s.comm.insert id c
  commNodes := Grouped.push s.commNodes c id
  sigmaIn := s.sigmaIn.addTo c (2 * kiIn)
  sigmaTot := s.sigmaTot.addTo c ki

/-- Clean up a community, if it is empty. -/
def LocalMoves.cleanUp (s : LocalMoves) (c : String) : LocalMoves :=
  if (Grouped.slice s.commNodes c).length = 0 then
    { comm := s.comm
      commNodes := s.commNodes.erase c
      sigmaIn := s.sigmaIn.erase c
      sigmaTot := s.sigmaTot.erase c }
  else s

/-- Move a node. -/
def LocalMoves.move (s : LocalMoves) (id c : String) (ki : ℚ) (weights : GoMap String ℚ) :
    LocalMoves :=
  ((s.leave id ki (weights.total (s.commOf id))).enter id c ki (weights.total c)).cleanUp
    (s.commOf id)

/-- **The visit to a node**: it moves to the community with the best gain, if that is another
one. -/
def visit (pass : ℕ) (s : LocalMoves) (id : String) : LocalMoves × Bool :=
  let weights := commWeights ord N pass s id
  let bestComm := (bestMove ord N pass s id weights).1
  if bestComm = s.commOf id then (s, false)
  else (s.move id bestComm (N.degree.total id) weights, true)

/-- A pass over the symbols, and whether a node has moved. -/
def visitAll (pass : ℕ) (s : LocalMoves) : LocalMoves × Bool :=
  ((ord.order ⟨pass, .nodes, s⟩ N.symbolNodes.pairs).map Prod.fst).foldl
    (fun r id => ((visit ord N pass r.1 id).1, r.2 || (visit ord N pass r.1 id).2)) (s, false)

/-- The passes that are left, until one improves nothing. -/
def passes : ℕ → ℕ → LocalMoves → LocalMoves
  | 0, _, s => s
  | left + 1, pass, s =>
    if (visitAll ord N pass s).2 = true then passes left (pass + 1) (visitAll ord N pass s).1
    else (visitAll ord N pass s).1

/-- **The local moves**, ten passes at most. -/
def localMoves : LocalMoves :=
  passes ord N 10 0 (N.initMoves
    ((ord.order ⟨0, .start, ⟨∅, ∅, ∅, ∅⟩⟩ N.symbolNodes.pairs).map Prod.fst))

/-- A community of the result. -/
structure Community where
  id : String
  members : List String
  size : ℕ

/-- The result. -/
structure CommunityResult where
  communities : List Community
  nodeToComm : GoMap String String
  modularity : ℚ

/-- The names of the communities that are reported, those of two members at least. -/
def renumber (s : LocalMoves) (cids : List String) : GoMap String String :=
  (cids.foldl (fun (r : ℕ × GoMap String String) cid =>
    if (Grouped.slice s.commNodes cid).length < 2 then r
    else (r.1 + 1, r.2.insert cid ("community-" ++ r.1.repr))) (0, ∅)).2

/-- The modularity that is computed, before it is rounded. -/
def modularitySum (comm : GoMap String String) (order : List (String × String)) : ℚ :=
  (order.map fun p => ((N.neighborsOf p.1).pairs.map fun q =>
    if (comm.lookup q.1).getD "" = p.2 then
      q.2 - N.degree.total p.1 * N.degree.total q.1 / (2 * N.totalWeight)
    else 0).sum).sum / (2 * N.totalWeight)

/-- `math.Round`: half away from zero. -/
def round (q : ℚ) : ℤ := if q < 0 then -⌊-q + 1 / 2⌋ else ⌊q + 1 / 2⌋

/-- **computeModularity.** -/
def computeModularity (comm : GoMap String String) (order : List (String × String)) : ℚ :=
  if N.totalWeight = 0 then 0 else round (modularitySum N comm order * 1000) / 1000

/-- The result of a final state. -/
def resultOf (sortSlice : SortSlice Community) (s : LocalMoves) : CommunityResult :=
  let commRemap := renumber s ((ord.order ⟨10, .renumber, s⟩ s.commNodes.pairs).map Prod.fst)
  { communities := sortSlice.sort (fun c c' => c'.size < c.size)
      ((ord.order ⟨10, .result, s⟩ s.commNodes.pairs).filterMap fun p =>
        (commRemap.lookup p.1).map fun newID =>
          { id := newID, members := p.2, size := p.2.length })
    nodeToComm := (ord.order ⟨10, .nodeToComm, s⟩ s.comm.pairs).foldl (fun m p =>
      (commRemap.lookup p.2).elim m fun newID => m.insert p.1 newID) ∅
    modularity := computeModularity N s.comm (ord.order ⟨10, .modularity, s⟩ s.comm.pairs) }

/-- The symbols of a graph. -/
def symbolNodes (mapOrd : MapOrder) (g : Graph) : GoMap String Bool :=
  (g.allNodes mapOrd).foldl (fun m r =>
    if (g.node r).kind ≠ .kindFile ∧ (g.node r).kind ≠ .kindImport then m.insert (g.node r).id true
    else m) ∅

/-- The weights between the symbols: each edge counts in both directions. -/
def weightsOf (symbols : GoMap String Bool) (edges : List Edge) : GoMap EdgePair ℚ :=
  edges.foldl (fun weights e =>
    if has symbols e.fromID = false ∨ has symbols e.toID = false then weights
    else if edgeWeight e.kind = 0 then weights
    else (weights.addTo ⟨e.fromID, e.toID⟩ (edgeWeight e.kind)).addTo ⟨e.toID, e.fromID⟩
      (edgeWeight e.kind)) ∅

/-- The network of some weights. In which order the maps are visited makes no difference to
what is read from the result: the sums are exact. -/
def networkOf (symbols : GoMap String Bool) (weights : GoMap EdgePair ℚ) : Network :=
  let neighbors := weights.pairs.foldl (fun (m : GoMap String (GoMap String ℚ)) p =>
    m.insert p.1.fromID (((m.lookup p.1.fromID).getD ∅).insert p.1.toID p.2)) ∅
  { symbolNodes := symbols
    neighbors := neighbors
    degree := symbols.pairs.foldl (fun m p =>
      ((neighbors.lookup p.1).getD ∅).pairs.foldl (fun m q => m.addTo p.1 q.2) m) ∅
    totalWeight := (weights.pairs.map Prod.snd).sum / 2 }

/-- The network of a graph. -/
def network (mapOrd : MapOrder) (g : Graph) : Network :=
  networkOf (symbolNodes mapOrd g)
    (weightsOf (symbolNodes mapOrd g) ((g.allEdges mapOrd).map g.edge))

/-- **DetectCommunities.** -/
def detectCommunities (mapOrd : MapOrder) (sortSlice : SortSlice Community) (g : Graph) :
    CommunityResult :=
  let N := network mapOrd g
  if N.totalWeight = 0 then ⟨[], ∅, 0⟩ else resultOf ord N sortSlice (localMoves ord N)

/-! ### The bookkeeping -/

/-- **The bookkeeping**: the member sets are the classes of `comm`, none of them is empty, and
the totals are the sums of the degrees of the members. -/
structure Bookkeeping (N : Network) (s : LocalMoves) : Prop where
  nodes : ∀ id, (s.comm.lookup id).isSome = true ↔ (N.symbolNodes.lookup id).isSome = true
  mem_iff : ∀ c id, id ∈ Grouped.slice s.commNodes c ↔ s.comm.lookup id = some c
  nodup : ∀ c, (Grouped.slice s.commNodes c).Nodup
  nonempty : ∀ c members, s.commNodes.lookup c = some members → members ≠ []
  sigmaTot : ∀ c, s.sigmaTot.total c = ((Grouped.slice s.commNodes c).map N.degree.total).sum

/-- A visit by the loop: the order of the maps, the pass and the node. -/
structure Visit where
  ord : VisitOrder
  pass : ℕ
  node : String

/-- **A step of the loop** is a visit to a symbol. -/
def Moves.Step (N : Network) (s : LocalMoves) (a : Visit) (s' : LocalMoves) : Prop :=
  (N.symbolNodes.lookup a.node).isSome = true ∧ s' = (visit a.ord N a.pass s a.node).1

section Bookkeeping

variable {ord : VisitOrder} {N : Network} {s s' : LocalMoves} {id c : String} {pass : ℕ}

/-! #### What a move writes -/

theorem slice_move (hc : c ≠ s.commOf id) (ki : ℚ) (weights : GoMap String ℚ) (x : String) :
    Grouped.slice (s.move id c ki weights).commNodes x =
      if x = c then Grouped.slice s.commNodes c ++ [id]
      else if x = s.commOf id then (Grouped.slice s.commNodes x).erase id
      else Grouped.slice s.commNodes x := by
  have hleave : ∀ x, Grouped.slice (s.leave id ki (weights.total (s.commOf id))).commNodes x =
      if x = s.commOf id then (Grouped.slice s.commNodes x).erase id
      else Grouped.slice s.commNodes x := fun x => by
    unfold LocalMoves.leave
    by_cases hid : id ∈ Grouped.slice s.commNodes (s.commOf id)
    · rw [if_pos hid, Grouped.slice_insert]
      by_cases hx : x = s.commOf id
      · rw [if_pos hx, if_pos hx, hx]
      · rw [if_neg hx, if_neg hx]
    · rw [if_neg hid]
      by_cases hx : x = s.commOf id
      · rw [if_pos hx, hx, List.erase_of_not_mem hid]
      · rw [if_neg hx]
  have henter : Grouped.slice ((s.leave id ki (weights.total (s.commOf id))).enter id c ki
      (weights.total c)).commNodes x = if x = c then Grouped.slice s.commNodes c ++ [id]
        else if x = s.commOf id then (Grouped.slice s.commNodes x).erase id
        else Grouped.slice s.commNodes x := by
    unfold LocalMoves.enter Grouped.push
    rw [Grouped.slice_insert, hleave, hleave, if_neg hc]
  unfold LocalMoves.move LocalMoves.cleanUp
  split
  · rename_i hnil
    -- an empty list that goes is read as the same
    rw [Grouped.slice_erase]
    by_cases hx : x = s.commOf id
    · rw [if_pos hx, ← henter, hx, List.eq_nil_of_length_eq_zero hnil]
    · rw [if_neg hx, henter]
  · exact henter

theorem comm_move (ki : ℚ) (weights : GoMap String ℚ) (x : String) :
    (s.move id c ki weights).comm.lookup x = if x = id then some c else s.comm.lookup x := by
  have h : (s.move id c ki weights).comm = s.comm.insert id c := by
    unfold LocalMoves.move LocalMoves.cleanUp
    split <;> rfl
  rw [h, GoMap.lookup_insert]

/-- **A move keeps the books**, whatever its reason. -/
theorem Bookkeeping.move (h : Bookkeeping N s) (hid : (s.comm.lookup id).isSome = true)
    (hc : c ≠ s.commOf id) (weights : GoMap String ℚ) :
    Bookkeeping N (s.move id c (N.degree.total id) weights) := by
  have hold : s.comm.lookup id = some (s.commOf id) := by
    obtain ⟨c', hc'⟩ := Option.isSome_iff_exists.mp hid
    rw [LocalMoves.commOf, hc', Option.getD_some]
  have hmem : id ∈ Grouped.slice s.commNodes (s.commOf id) := (h.mem_iff _ _).mpr hold
  have hnew : id ∉ Grouped.slice s.commNodes c := fun hin =>
    hc (Option.some.inj (((h.mem_iff c id).mp hin).symm.trans hold))
  constructor
  case nodes =>
    intro x
    rw [comm_move, ← h.nodes]
    by_cases hx : x = id
    · rw [if_pos hx, hx]
      exact iff_of_true rfl hid
    · rw [if_neg hx]
  case mem_iff =>
    -- the new community gets the node, the old one loses it, and the others stay
    intro x y
    rw [slice_move hc, comm_move]
    by_cases hy : y = id
    · rw [if_pos hy, hy]
      by_cases hx : x = c
      · rw [if_pos hx, hx]
        exact iff_of_true (List.mem_append_right _ (List.mem_singleton_self id)) rfl
      · rw [if_neg hx]
        refine iff_of_false ?_ fun heq => hx (Option.some.inj heq).symm
        by_cases hx' : x = s.commOf id
        · rw [if_pos hx']
          exact fun hin => ((h.nodup x).mem_erase_iff.mp hin).1 rfl
        · rw [if_neg hx', h.mem_iff, hold]
          exact fun heq => hx' (Option.some.inj heq).symm
    · rw [if_neg hy, ← h.mem_iff]
      by_cases hx : x = c
      · rw [if_pos hx, hx, List.mem_append, List.mem_singleton]
        exact or_iff_left hy
      · rw [if_neg hx]
        by_cases hx' : x = s.commOf id
        · rw [if_pos hx', (h.nodup x).mem_erase_iff]
          exact and_iff_right hy
        · rw [if_neg hx']
  case nodup =>
    intro x
    rw [slice_move hc]
    by_cases hx : x = c
    · rw [if_pos hx]
      exact List.nodup_append'.mpr ⟨h.nodup c, List.nodup_singleton id, fun y hy hy' =>
        hnew (List.mem_singleton.mp hy' ▸ hy)⟩
    · rw [if_neg hx]
      by_cases hx' : x = s.commOf id
      · rw [if_pos hx']
        exact (h.nodup x).erase id
      · rw [if_neg hx']
        exact h.nodup x
  case nonempty =>
    intro x members hlookup hnil
    have hslice : Grouped.slice (s.move id c (N.degree.total id) weights).commNodes x = [] := by
      rw [Grouped.slice, hlookup, Option.getD_some, hnil]
    by_cases hx : x = s.commOf id
    · -- the old community is cleaned up if it is empty
      rw [hx] at hlookup hslice
      unfold LocalMoves.move LocalMoves.cleanUp at hlookup
      split at hlookup
      · rw [GoMap.lookup_erase, if_pos rfl] at hlookup
        exact absurd hlookup (by simp)
      · rename_i hlen
        refine hlen ?_
        rw [Grouped.slice, hlookup, Option.getD_some, hnil, List.length_nil]
    · have hsame : (s.move id c (N.degree.total id) weights).commNodes.lookup x =
          if x = c then some (Grouped.slice s.commNodes c ++ [id]) else s.commNodes.lookup x := by
        have hleave : ∀ y, y ≠ s.commOf id → (s.leave id (N.degree.total id)
            (weights.total (s.commOf id))).commNodes.lookup y = s.commNodes.lookup y :=
          fun y hy => by
            unfold LocalMoves.leave
            rw [if_pos hmem, GoMap.lookup_insert, if_neg hy]
        have henter : ((s.leave id (N.degree.total id) (weights.total (s.commOf id))).enter id c
            (N.degree.total id) (weights.total c)).commNodes.lookup x =
              if x = c then some (Grouped.slice s.commNodes c ++ [id])
              else s.commNodes.lookup x := by
          unfold LocalMoves.enter Grouped.push
          rw [GoMap.lookup_insert, Grouped.slice, hleave c hc, hleave x hx]
          rfl
        unfold LocalMoves.move LocalMoves.cleanUp
        split
        · rw [GoMap.lookup_erase, if_neg hx, henter]
        · exact henter
      -- another list of members is empty only if it was before
      rw [hsame] at hlookup
      by_cases hxc : x = c
      · rw [if_pos hxc] at hlookup
        have := Option.some.inj hlookup
        rw [hnil] at this
        exact absurd this (by simp)
      · rw [if_neg hxc] at hlookup
        exact h.nonempty x members hlookup hnil
  case sigmaTot =>
    intro x
    have hsum : ∀ x, ((s.leave id (N.degree.total id) (weights.total (s.commOf id))).enter id c
        (N.degree.total id) (weights.total c)).sigmaTot.total x =
          ((Grouped.slice (s.move id c (N.degree.total id) weights).commNodes x).map
            N.degree.total).sum := fun x => by
      unfold LocalMoves.enter LocalMoves.leave
      rw [GoMap.total_addTo, GoMap.total_addTo, h.sigmaTot, slice_move hc]
      by_cases hx : x = c
      · have hx' : x ≠ s.commOf id := fun heq => hc (hx.symm.trans heq)
        rw [if_neg hx', if_pos hx, if_pos hx, hx, List.map_append, List.sum_append, add_zero]
        simp
      · rw [if_neg hx, if_neg hx]
        by_cases hx' : x = s.commOf id
        · rw [if_pos hx', if_pos hx', hx', ← List.sum_map_erase N.degree.total hmem]
          ring
        · rw [if_neg hx', if_neg hx', add_zero, add_zero]
    -- the clean-up erases the total of a community without members, which is zero
    have hkeep := hsum x
    unfold LocalMoves.move LocalMoves.cleanUp at hkeep ⊢
    split at hkeep
    · rename_i hnil
      rw [if_pos hnil]
      by_cases hx : x = s.commOf id
      · rw [GoMap.total_erase, if_pos hx, Grouped.slice_erase, if_pos hx]
        rfl
      · rw [GoMap.total_erase, if_neg hx]
        exact hkeep
    · rename_i hlen
      rw [if_neg hlen]
      exact hkeep

/-! #### The run -/

/-- **What a visit does**: nothing, or it moves the node to another community. -/
theorem visit_cases (ord : VisitOrder) (N : Network) (pass : ℕ) (s : LocalMoves) (id : String) :
    visit ord N pass s id = (s, false) ∨
      ∃ c, c = (bestMove ord N pass s id (commWeights ord N pass s id)).1 ∧ c ≠ s.commOf id ∧
        visit ord N pass s id =
          (s.move id c (N.degree.total id) (commWeights ord N pass s id), true) := by
  unfold visit
  by_cases hbest : (bestMove ord N pass s id (commWeights ord N pass s id)).1 = s.commOf id
  · exact Or.inl (if_pos hbest)
  · exact Or.inr ⟨_, rfl, hbest, if_neg hbest⟩

theorem Bookkeeping.step {a : Visit} (h : Bookkeeping N s) (hstep : Moves.Step N s a s') :
    Bookkeeping N s' := by
  obtain ⟨hnode, rfl⟩ := hstep
  rcases visit_cases a.ord N a.pass s a.node with heq | ⟨c, -, hc, heq⟩
  · rw [heq]
    exact h
  · rw [heq]
    exact h.move ((h.nodes _).mpr hnode) hc _

/-- What the loops before the passes leave. -/
theorem initMoves_read (N : Network) (ids : List String) (x : String) :
    (N.initMoves ids).comm.lookup x = (if x ∈ ids then some x else none) ∧
      (N.initMoves ids).commNodes.lookup x = (if x ∈ ids then some [x] else none) ∧
      (N.initMoves ids).sigmaTot.total x = if x ∈ ids then N.degree.total x else 0 := by
  unfold Network.initMoves
  have hgen : ∀ (s : LocalMoves),
      let t := ids.foldl (fun s id =>
        { comm := s.comm.insert id id
          commNodes := s.commNodes.insert id [id]
          sigmaIn := s.sigmaIn
          sigmaTot := s.sigmaTot.insert id (N.degree.total id) }) s
      t.comm.lookup x = (if x ∈ ids then some x else s.comm.lookup x) ∧
        t.commNodes.lookup x = (if x ∈ ids then some [x] else s.commNodes.lookup x) ∧
        t.sigmaTot.total x = if x ∈ ids then N.degree.total x else s.sigmaTot.total x := by
    induction ids with
    | nil => exact fun s => ⟨rfl, rfl, rfl⟩
    | cons id ids ih =>
      intro s
      simp only [List.foldl_cons]
      obtain ⟨h₁, h₂, h₃⟩ := ih
        { comm := s.comm.insert id id
          commNodes := s.commNodes.insert id [id]
          sigmaIn := s.sigmaIn
          sigmaTot := s.sigmaTot.insert id (N.degree.total id) }
      rw [h₁, h₂, h₃, GoMap.lookup_insert, GoMap.lookup_insert, GoMap.total_insert]
      by_cases hin : x ∈ ids
      · simp [hin]
      · by_cases hx : x = id
        · simp [hx]
        · simp [hin, hx]
  exact hgen ⟨∅, ∅, ∅, ∅⟩

/-- **The books are right at the start.** -/
theorem Bookkeeping.init {ids : List String}
    (hids : ∀ id, id ∈ ids ↔ (N.symbolNodes.lookup id).isSome = true) :
    Bookkeeping N (N.initMoves ids) := by
  have hread := initMoves_read N ids
  have hslice : ∀ c, Grouped.slice (N.initMoves ids).commNodes c = if c ∈ ids then [c] else [] :=
    fun c => by
      rw [Grouped.slice, (hread c).2.1]
      split <;> rfl
  -- every node is alone in a community of its own name
  constructor
  case nodes =>
    intro id
    rw [(hread id).1, ← hids]
    by_cases hin : id ∈ ids
    · exact iff_of_true (by rw [if_pos hin]; rfl) hin
    · exact iff_of_false (by rw [if_neg hin]; exact Bool.false_ne_true) hin
  case mem_iff =>
    intro c id
    rw [hslice, (hread id).1]
    by_cases hc : c ∈ ids
    · rw [if_pos hc, List.mem_singleton]
      constructor
      · rintro rfl
        rw [if_pos hc]
      · intro h
        split at h
        · exact Option.some.inj h
        · exact absurd h (by simp)
    · rw [if_neg hc]
      refine iff_of_false List.not_mem_nil fun h => ?_
      split at h
      · rename_i hid
        exact hc (Option.some.inj h ▸ hid)
      · exact absurd h (by simp)
  case nodup =>
    intro c
    rw [hslice]
    split
    · exact List.nodup_singleton c
    · exact List.nodup_nil
  case nonempty =>
    intro c members hlookup hnil
    rw [(hread c).2.1] at hlookup
    split at hlookup
    · rw [← Option.some.inj hlookup] at hnil
      exact absurd hnil (by simp)
    · exact absurd hlookup (by simp)
  case sigmaTot =>
    intro c
    rw [(hread c).2.2, hslice]
    split
    · simp
    · rfl

/-- The order of the loop over the symbols has all of them. -/
theorem mem_symbolOrder (ord : VisitOrder) (N : Network) (p : Point) (id : String) :
    id ∈ (ord.order p N.symbolNodes.pairs).map Prod.fst ↔
      (N.symbolNodes.lookup id).isSome = true := by
  simp only [List.mem_map, ord.mem, Prod.exists, exists_and_right, exists_eq_right,
    GoMap.mem_pairs, Option.isSome_iff_exists]

/-- **A pass is a run.** -/
theorem visitAll_run (ord : VisitOrder) (N : Network) (pass : ℕ) (s : LocalMoves) :
    ∃ l, Run (Moves.Step N) s l (visitAll ord N pass s).1 := by
  unfold visitAll
  have hgen : ∀ (ids : List String) (r : LocalMoves × Bool),
      (∀ id ∈ ids, (N.symbolNodes.lookup id).isSome = true) →
      ∃ l, Run (Moves.Step N) r.1 l (ids.foldl
        (fun r id => ((visit ord N pass r.1 id).1, r.2 || (visit ord N pass r.1 id).2)) r).1 := by
    intro ids
    induction ids with
    | nil => exact fun r _ => ⟨[], Run.nil _⟩
    | cons id ids ih =>
      intro r hids
      rw [List.foldl_cons]
      obtain ⟨l, hl⟩ := ih ((visit ord N pass r.1 id).1, r.2 || (visit ord N pass r.1 id).2)
        fun id' hid' => hids id' (List.mem_cons_of_mem id hid')
      exact ⟨⟨ord, pass, id⟩ :: l, Run.cons ⟨hids id List.mem_cons_self, rfl⟩ hl⟩
  exact hgen _ (s, false) fun id hid => (mem_symbolOrder ord N _ id).mp hid

theorem passes_run (ord : VisitOrder) (N : Network) (left pass : ℕ) (s : LocalMoves) :
    ∃ l, Run (Moves.Step N) s l (passes ord N left pass s) := by
  induction left generalizing pass s with
  | zero => exact ⟨[], Run.nil s⟩
  | succ left ih =>
    obtain ⟨l, hl⟩ := visitAll_run ord N pass s
    unfold passes
    split
    · obtain ⟨l', hl'⟩ := ih (pass + 1) (visitAll ord N pass s).1
      exact ⟨l ++ l', hl.append hl'⟩
    · exact ⟨l, hl⟩

/-- **The local moves are a run** from the state in which every symbol is alone. -/
theorem localMoves_run (ord : VisitOrder) (N : Network) :
    ∃ ids, (∀ id, id ∈ ids ↔ (N.symbolNodes.lookup id).isSome = true) ∧
      ∃ l, Run (Moves.Step N) (N.initMoves ids) l (localMoves ord N) :=
  ⟨_, mem_symbolOrder ord N _, passes_run ord N 10 0 _⟩

/-- **The books are right after every run.** -/
theorem Bookkeeping.run {ids : List String} {l : List Visit}
    (hids : ∀ id, id ∈ ids ↔ (N.symbolNodes.lookup id).isSome = true)
    (h : Run (Moves.Step N) (N.initMoves ids) l s) : Bookkeeping N s :=
  h.invariant (fun hs hstep => hs.step hstep) (Bookkeeping.init hids)

/-! #### The result -/

/-- The name of the community of a number. -/
theorem name_injective {i j : ℕ} (h : "community-" ++ i.repr = "community-" ++ j.repr) : i = j := by
  have hlist : i.repr.toList = j.repr.toList := by
    have := congrArg String.toList h
    rw [String.toList_append, String.toList_append] at this
    exact List.append_cancel_left this
  rw [Nat.toList_repr, Nat.toList_repr] at hlist
  rw [← @Nat.ofDigitChars_ten_toDigits i, hlist, Nat.ofDigitChars_ten_toDigits]

/-- **What the renumbering has named**: the communities of two members it has seen, each with
a name of its own. -/
structure Renumbered (s : LocalMoves) (seen : List String) (r : ℕ × GoMap String String) : Prop where
  isSome : ∀ c, (r.2.lookup c).isSome = true ↔
    c ∈ seen ∧ 2 ≤ (Grouped.slice s.commNodes c).length
  name : ∀ c name, r.2.lookup c = some name → ∃ i < r.1, name = "community-" ++ i.repr
  inj : ∀ c c' name, r.2.lookup c = some name → r.2.lookup c' = some name → c = c'

theorem Renumbered.concat {seen : List String} {r : ℕ × GoMap String String}
    (h : Renumbered s seen r) (c : String) (hc : c ∉ seen) :
    Renumbered s (seen ++ [c]) (if (Grouped.slice s.commNodes c).length < 2 then r
      else (r.1 + 1, r.2.insert c ("community-" ++ r.1.repr))) := by
  by_cases hlen : (Grouped.slice s.commNodes c).length < 2
  · rw [if_pos hlen]
    refine ⟨fun x => ?_, h.name, h.inj⟩
    rw [h.isSome, List.mem_append, List.mem_singleton]
    refine and_congr_left fun htwo => (or_iff_left ?_).symm
    rintro rfl
    omega
  · rw [if_neg hlen]
    -- the next number is above all that have been given
    have hnew : ∀ x name, r.2.lookup x = some name → name ≠ "community-" ++ r.1.repr :=
      fun x name hx heq => by
        obtain ⟨i, hi, rfl⟩ := h.name x name hx
        have := name_injective heq
        omega
    refine ⟨fun x => ?_, fun x name hx => ?_, fun x x' name hx hx' => ?_⟩
    · rw [GoMap.lookup_insert, List.mem_append, List.mem_singleton]
      by_cases hxc : x = c
      · rw [if_pos hxc, hxc]
        exact iff_of_true rfl ⟨Or.inr rfl, Nat.le_of_not_lt hlen⟩
      · rw [if_neg hxc, h.isSome]
        exact and_congr_left fun _ => (or_iff_left hxc).symm
    · rw [GoMap.lookup_insert] at hx
      by_cases hxc : x = c
      · rw [if_pos hxc] at hx
        exact ⟨r.1, Nat.lt_succ_self _, (Option.some.inj hx).symm⟩
      · rw [if_neg hxc] at hx
        obtain ⟨i, hi, rfl⟩ := h.name x name hx
        exact ⟨i, Nat.lt_succ_of_lt hi, rfl⟩
    · rw [GoMap.lookup_insert] at hx hx'
      by_cases hxc : x = c
      · rw [if_pos hxc] at hx
        by_cases hxc' : x' = c
        · rw [hxc, hxc']
        · rw [if_neg hxc'] at hx'
          exact absurd (Option.some.inj hx).symm (hnew x' name hx')
      · rw [if_neg hxc] at hx
        by_cases hxc' : x' = c
        · rw [if_pos hxc'] at hx'
          exact absurd (Option.some.inj hx').symm (hnew x name hx)
        · rw [if_neg hxc'] at hx'
          exact h.inj x x' name hx hx'

theorem renumbered_renumber (s : LocalMoves) {cids : List String} (hnodup : cids.Nodup) :
    ∃ i, Renumbered s cids (i, renumber s cids) := by
  have hgen : ∀ (rest seen : List String) (r : ℕ × GoMap String String), (seen ++ rest).Nodup →
      Renumbered s seen r → Renumbered s (seen ++ rest) (rest.foldl (fun r cid =>
        if (Grouped.slice s.commNodes cid).length < 2 then r
        else (r.1 + 1, r.2.insert cid ("community-" ++ r.1.repr))) r) := by
    intro rest
    induction rest with
    | nil =>
      intro seen r _ hr
      rwa [List.append_nil]
    | cons c rest ih =>
      intro seen r hnodup hr
      have hc : c ∉ seen := fun hin =>
        (List.nodup_append'.mp hnodup).2.2 hin List.mem_cons_self
      rw [List.append_cons] at hnodup ⊢
      exact ih _ _ hnodup (hr.concat c hc)
  have hempty : Renumbered s [] (0, (∅ : GoMap String String)) :=
    ⟨fun c => iff_of_false Bool.false_ne_true fun h => absurd h.1 List.not_mem_nil,
      fun c name hc => absurd hc (by simp), fun c c' name hc => absurd hc (by simp)⟩
  exact ⟨_, hgen cids [] _ (by simpa using hnodup) hempty⟩

/-- **The result says the same twice**: a node is assigned to a community exactly if it is
reported as a member of it, which it is of one at most, and the communities that are reported
have two members at least. -/
structure CommunityResult.Agrees (r : CommunityResult) : Prop where
  nodeToComm : ∀ id cid, r.nodeToComm.lookup id = some cid ↔
    ∃ c ∈ r.communities, c.id = cid ∧ id ∈ c.members
  once : ∀ c ∈ r.communities, ∀ c' ∈ r.communities, ∀ id, id ∈ c.members → id ∈ c'.members → c = c'
  nodup : ∀ c ∈ r.communities, c.members.Nodup
  size : ∀ c ∈ r.communities, c.size = c.members.length ∧ 2 ≤ c.size

/-- **Right books give a result that agrees with itself.** -/
theorem Bookkeeping.agrees (h : Bookkeeping N s) (ord : VisitOrder)
    (sortSlice : SortSlice Community) : (resultOf ord N sortSlice s).Agrees := by
  have hkeys : ((ord.order ⟨10, .renumber, s⟩ s.commNodes.pairs).map Prod.fst).Nodup :=
    ((ord.perm _ _).map _).nodup_iff.mpr s.commNodes.nodup_pairs_fst
  obtain ⟨i, hrenum⟩ := renumbered_renumber s hkeys
  let commRemap := renumber s ((ord.order ⟨10, .renumber, s⟩ s.commNodes.pairs).map Prod.fst)
  have hrenum : Renumbered s _ (i, commRemap) := hrenum
  -- a node has the new number of its community, if that has got one
  have hcomm : ∀ id, (resultOf ord N sortSlice s).nodeToComm.lookup id =
      (s.comm.lookup id).bind commRemap.lookup := fun id => by
    have hpairs : (ord.order ⟨10, .nodeToComm, s⟩ s.comm.pairs).Perm s.comm.pairs := ord.perm _ _
    have hnodup : ((ord.order ⟨10, .nodeToComm, s⟩ s.comm.pairs).map Prod.fst).Nodup :=
      (hpairs.map _).nodup_iff.mpr s.comm.nodup_pairs_fst
    refine (GoMap.lookup_foldl_elim commRemap.lookup _ ∅ hnodup id).trans ?_
    rw [GoMap.find?_pairs hpairs]
    cases s.comm.lookup id with
    | none => rfl
    | some c => exact Option.or_none
  -- the communities are the old lists of members under their new numbers
  have hmem : ∀ c, c ∈ (resultOf ord N sortSlice s).communities ↔
      ∃ cid, s.commNodes.lookup cid = some c.members ∧ commRemap.lookup cid = some c.id ∧
        c.size = c.members.length := fun c => by
    refine (sortSlice.perm _ _).mem_iff.trans ?_
    simp only [List.mem_filterMap, ord.mem, Option.map_eq_some_iff, Prod.exists, GoMap.mem_pairs]
    constructor
    · rintro ⟨cid, members, hlookup, name, hname, rfl⟩
      exact ⟨cid, hlookup, hname, rfl⟩
    · rintro ⟨cid, hlookup, hname, hsize⟩
      refine ⟨cid, c.members, hlookup, c.id, hname, ?_⟩
      rw [← hsize]
  have hslice : ∀ {cid members}, s.commNodes.lookup cid = some members →
      Grouped.slice s.commNodes cid = members := fun hl => by
    rw [Grouped.slice, hl, Option.getD_some]
  constructor
  case nodeToComm =>
    intro id cid
    rw [hcomm, Option.bind_eq_some_iff]
    constructor
    · rintro ⟨c, hc, hname⟩
      have hin := (h.mem_iff c id).mpr hc
      have hlookup : s.commNodes.lookup c = some (Grouped.slice s.commNodes c) := by
        cases hl : s.commNodes.lookup c with
        | none =>
          rw [Grouped.slice, hl] at hin
          exact absurd hin List.not_mem_nil
        | some members => rw [Grouped.slice, hl, Option.getD_some]
      exact ⟨⟨cid, Grouped.slice s.commNodes c, (Grouped.slice s.commNodes c).length⟩,
        (hmem _).mpr ⟨c, hlookup, hname, rfl⟩, rfl, hin⟩
    · rintro ⟨c, hc, rfl, hin⟩
      obtain ⟨old, hlookup, hname, -⟩ := (hmem c).mp hc
      exact ⟨old, (h.mem_iff old id).mp (hslice hlookup ▸ hin), hname⟩
  case once =>
    intro c hc c' hc' id hin hin'
    obtain ⟨old, hlookup, hname, hsize⟩ := (hmem c).mp hc
    obtain ⟨old', hlookup', hname', hsize'⟩ := (hmem c').mp hc'
    have hold := (h.mem_iff old id).mp (hslice hlookup ▸ hin)
    have hold' := (h.mem_iff old' id).mp (hslice hlookup' ▸ hin')
    obtain rfl := Option.some.inj (hold.symm.trans hold')
    have hmembers := Option.some.inj (hlookup.symm.trans hlookup')
    have hid := Option.some.inj (hname.symm.trans hname')
    rcases c with ⟨cid, members, size⟩
    rcases c' with ⟨cid', members', size'⟩
    simp only at hmembers hid hsize hsize'
    rw [hid, hsize, hsize', hmembers]
  case nodup =>
    intro c hc
    obtain ⟨old, hlookup, -⟩ := (hmem c).mp hc
    exact hslice hlookup ▸ h.nodup old
  case size =>
    intro c hc
    obtain ⟨old, hlookup, hname, hsize⟩ := (hmem c).mp hc
    refine ⟨hsize, ?_⟩
    have htwo := ((hrenum.isSome old).mp (by rw [hname]; rfl)).2
    rwa [hslice hlookup, ← hsize] at htwo

/-- **The states of the loop**: those that visits lead to from the state in which every symbol
is alone. -/
def Moves.Reachable (N : Network) (s : LocalMoves) : Prop :=
  ∃ ids l, (∀ id, id ∈ ids ↔ (N.symbolNodes.lookup id).isSome = true) ∧
    Run (Moves.Step N) (N.initMoves ids) l s

theorem Moves.reachable_localMoves (ord : VisitOrder) (N : Network) :
    Moves.Reachable N (localMoves ord N) := by
  obtain ⟨ids, hids, l, hl⟩ := localMoves_run ord N
  exact ⟨ids, l, hids, hl⟩

theorem Moves.Reachable.bookkeeping (h : Moves.Reachable N s) : Bookkeeping N s := by
  obtain ⟨ids, l, hids, hl⟩ := h
  exact Bookkeeping.run hids hl

end Bookkeeping

/-- **The books are right in every state of the loop**, for any weights and any orders, and
what DetectCommunities returns agrees with itself. -/
theorem bookkeeping_reachable :
    (∀ (N : Network) (s : LocalMoves), Moves.Reachable N s → Bookkeeping N s) ∧
      ∀ (ord : VisitOrder) (mapOrd : MapOrder) (sortSlice : SortSlice Community) (g : Graph),
        (detectCommunities ord mapOrd sortSlice g).Agrees := by
  refine ⟨fun N s h => h.bookkeeping, fun ord mapOrd sortSlice g => ?_⟩
  unfold detectCommunities
  simp only
  by_cases hzero : (network mapOrd g).totalWeight = 0
  · rw [if_pos hzero]
    exact
      { nodeToComm := fun id cid => iff_of_false (by simp) (by
          rintro ⟨c, hc, -⟩
          exact absurd hc List.not_mem_nil)
        once := fun c hc => absurd hc List.not_mem_nil
        nodup := fun c hc => absurd hc List.not_mem_nil
        size := fun c hc => absurd hc List.not_mem_nil }
  · rw [if_neg hzero]
    exact (Moves.reachable_localMoves ord _).bookkeeping.agrees ord sortSlice

namespace Recursive

/-- A function that calls itself and a second one, which instantiates a third one. -/
def graph : Graph :=
  let fn (id : String) : Node := { id := id, kind := .kindFunction, name := id, filePath := "a.go" }
  let edge (fromID toID : String) (kind : EdgeKind) : Edge :=
    { fromID := fromID, toID := toID, kind := kind, filePath := "a.go" }
  (((((Graph.new.putNode (fn "a")).putNode (fn "b")).putNode (fn "c")).putEdge
    (edge "a" "a" .edgeCalls)).putEdge (edge "a" "b" .edgeCalls)).putEdge
    (edge "b" "c" .edgeInstantiates)

/-- Without a change of the order, as a sort may leave the elements. -/
def unsorted : SortSlice Community := ⟨fun _ l => l, fun _ _ => List.Perm.refl _⟩

/-- The three functions end in one community. -/
theorem bookkeeping_reachable_graph :
    Bookkeeping (network .default graph) (localMoves .default (network .default graph)) ∧
      (detectCommunities .default .default unsorted graph).Agrees ∧
      (detectCommunities .default .default unsorted graph).communities.map
        (fun c => (c.id, c.members, c.size)) = [("community-0", ["a", "b", "c"], 3)] :=
  ⟨bookkeeping_reachable.1 _ _ (Moves.reachable_localMoves _ _),
    bookkeeping_reachable.2 .default .default unsorted graph, by decide +kernel⟩

end Recursive

end Analysis

end Gortex
