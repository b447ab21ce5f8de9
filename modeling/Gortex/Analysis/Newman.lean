import Gortex.Analysis.Communities

/-!
# Communities and modularity

The network that `DetectCommunities` clusters is a weighted undirected graph
(`Gortex.Analysis.WeightedGraph`), and the maps it is given by read as the degrees and the total
weight of this graph. So the clustering can be compared with the modularity of Newman.

The value that is reported leaves out the pairs of nodes that have no edge, among them every
node with itself; it is Newman's exactly if nothing is left out that counts
(`Gortex.Analysis.modularitySum_eq_iff`).
-/

namespace Gortex

namespace Analysis

/-- **A weighted undirected graph** over the symbols, as the code holds it. -/
structure WeightedGraph where
  symbols : GoMap String Bool
  weights : GoMap EdgePair ℚ
  symm : ∀ a b, weights.lookup ⟨a, b⟩ = weights.lookup ⟨b, a⟩
  closed : ∀ a b w, weights.lookup ⟨a, b⟩ = some w → (symbols.lookup b).isSome = true
  pos : ∀ pair w, weights.lookup pair = some w → 0 < w

namespace WeightedGraph

variable (G : WeightedGraph)

/-- Its network. -/
def network : Network := networkOf G.symbols G.weights

/-- The graph itself. -/
def graph : Modularity.Weighted String where
  vertices := G.symbols.keys.toFinset
  weight i j := G.weights.total ⟨i, j⟩
  symm i j := by rw [GoMap.total, GoMap.total, G.symm]

theorem mem_vertices {id : String} :
    id ∈ G.graph.vertices ↔ (G.symbols.lookup id).isSome = true := by
  change id ∈ G.symbols.keys.toFinset ↔ _
  rw [List.mem_toFinset, ← AList.mem_keys, AList.lookup_isSome]

/-! ### What the network reads -/

/-- The neighbours of a node are those of the weights. -/
theorem lookup_neighborsOf (i j : String) :
    (G.network.neighborsOf i).lookup j = G.weights.lookup ⟨i, j⟩ := by
  have hwrite : ∀ (m : GoMap String (GoMap String ℚ)) (p : EdgePair × ℚ) (k : EdgePair),
      (((m.insert p.1.fromID (((m.lookup p.1.fromID).getD ∅).insert p.1.toID p.2)).lookup
        k.fromID).getD ∅).lookup k.toID =
          if k = p.1 then some p.2 else ((m.lookup k.fromID).getD ∅).lookup k.toID := by
    rintro m ⟨⟨a, b⟩, w⟩ ⟨a', b'⟩
    simp only [GoMap.lookup_insert, EdgePair.mk.injEq]
    by_cases hfrom : a' = a
    · rw [if_pos hfrom, Option.getD_some, GoMap.lookup_insert, hfrom]
      exact if_congr (and_iff_right rfl).symm rfl rfl
    · rw [if_neg hfrom, if_neg fun h => hfrom h.1]
  have hread := List.foldl_read
    (fun (m : GoMap String (GoMap String ℚ)) (k : EdgePair) =>
      ((m.lookup k.fromID).getD ∅).lookup k.toID) (Prod.fst : EdgePair × ℚ → EdgePair)
    (fun _ p => some p.2) hwrite G.weights.pairs ∅ ⟨i, j⟩
  refine hread.trans ?_
  rw [GoMap.filter_pairs (List.Perm.refl _)]
  cases G.weights.lookup ⟨i, j⟩ <;> rfl

theorem total_neighborsOf (i j : String) :
    (G.network.neighborsOf i).total j = G.graph.weight i j := by
  rw [GoMap.total, lookup_neighborsOf]
  rfl

theorem mem_of_neighbor {i j : String} {w : ℚ} (h : (G.network.neighborsOf i).lookup j = some w) :
    j ∈ G.graph.vertices := by
  rw [lookup_neighborsOf] at h
  exact G.mem_vertices.mpr (G.closed i j w h)

/-- The sum over the neighbours of a node. -/
theorem sum_neighborsOf (i : String) {l : List (String × ℚ)}
    (hl : l.Perm (G.network.neighborsOf i).pairs) {f : String → ℚ → ℚ} (hf : ∀ j, f j 0 = 0) :
    (l.map fun q => f q.1 q.2).sum = ∑ j ∈ G.graph.vertices, f j (G.graph.weight i j) := by
  rw [GoMap.sum_pairs hl (fun j w h => G.mem_of_neighbor h) hf]
  simp only [total_neighborsOf]

/-- **The degrees** are those of the graph. -/
theorem total_degree {i : String} (hi : i ∈ G.graph.vertices) :
    G.network.degree.total i = G.graph.degree i := by
  have hflat : G.network.degree = (G.symbols.pairs.flatMap fun p =>
      (G.network.neighborsOf p.1).pairs.map fun q => (p.1, q.2)).foldl
        (fun m a => m.addTo a.1 a.2) ∅ := by
    rw [List.foldl_flatMap]
    simp only [List.foldl_map]
    rfl
  have hrow : ∀ k, (((G.network.neighborsOf k).pairs.map fun q => (k, q.2)).map fun a =>
      if i = a.1 then a.2 else 0).sum = if i = k then G.graph.degree i else 0 := fun k => by
    rw [List.map_map]
    by_cases hk : i = k
    · subst hk
      simp only [Function.comp_def, if_true]
      exact G.sum_neighborsOf i (List.Perm.refl _) (f := fun _ w => w) fun _ => rfl
    · simp only [Function.comp_def, if_neg hk, List.map_const', List.sum_replicate, nsmul_zero]
  rw [hflat, GoMap.total_foldl_addTo, GoMap.total_empty, zero_add, List.map_flatMap,
    List.flatMap, List.sum_flatten, List.map_map]
  simp only [Function.comp_def] at hrow ⊢
  simp only [hrow]
  have hkeys : (G.symbols.pairs.map fun p => if i = p.1 then G.graph.degree i else 0) =
      G.symbols.keys.map fun k => if i = k then G.graph.degree i else 0 := by
    simp [GoMap.pairs, AList.keys, List.keys, Function.comp_def]
  rw [hkeys, ← List.sum_toFinset _ G.symbols.keys_nodup]
  exact (Finset.sum_ite_eq _ i _).trans (if_pos hi)

/-- **The total weight** is half the sum of the degrees. -/
theorem total_eq : G.graph.total = 2 * G.network.totalWeight := by
  let pair : String × String ↪ EdgePair :=
    ⟨fun p => ⟨p.1, p.2⟩, fun p q h => Prod.ext (EdgePair.mk.inj h).1 (EdgePair.mk.inj h).2⟩
  have hS : ∀ k w, G.weights.lookup k = some w →
      k ∈ (G.graph.vertices ×ˢ G.graph.vertices).map pair := fun k w h => by
    have hto := G.closed k.fromID k.toID w h
    have hfrom := G.closed k.toID k.fromID w ((G.symm _ _).trans h)
    exact Finset.mem_map.mpr ⟨(k.fromID, k.toID), Finset.mem_product.mpr
      ⟨G.mem_vertices.mpr hfrom, G.mem_vertices.mpr hto⟩, rfl⟩
  have hsum := GoMap.sum_pairs (List.Perm.refl G.weights.pairs) hS (f := fun _ w => w)
    fun _ => rfl
  have htwice : 2 * G.network.totalWeight = (G.weights.pairs.map Prod.snd).sum := by
    change 2 * ((G.weights.pairs.map Prod.snd).sum / 2) = _
    ring
  rw [htwice]
  refine Eq.trans ?_ hsum.symm
  rw [Finset.sum_map, Finset.sum_product]
  rfl

theorem weight_nonneg (i j : String) : 0 ≤ G.graph.weight i j := by
  change 0 ≤ (G.weights.lookup ⟨i, j⟩).getD 0
  cases h : G.weights.lookup ⟨i, j⟩ with
  | none => exact le_rfl
  | some w => exact (G.pos _ w h).le

theorem degree_nonneg (i : String) : 0 ≤ G.graph.degree i :=
  Finset.sum_nonneg fun j _ => G.weight_nonneg i j

theorem total_nonneg : 0 ≤ G.graph.total := Finset.sum_nonneg fun i _ => G.degree_nonneg i

end WeightedGraph

/-! ### The network of a graph -/

/-- What an edge adds, it adds in both directions. -/
theorem lookup_addTo_swap {weights : GoMap EdgePair ℚ}
    (hsymm : ∀ a b, weights.lookup ⟨a, b⟩ = weights.lookup ⟨b, a⟩) (fromID toID : String) (w : ℚ)
    (a b : String) : ((weights.addTo ⟨fromID, toID⟩ w).addTo ⟨toID, fromID⟩ w).lookup ⟨a, b⟩ =
      ((weights.addTo ⟨fromID, toID⟩ w).addTo ⟨toID, fromID⟩ w).lookup ⟨b, a⟩ := by
  have htotal : ∀ x y, weights.total ⟨x, y⟩ = weights.total ⟨y, x⟩ := fun x y => by
    rw [GoMap.total, GoMap.total, hsymm]
  simp only [GoMap.addTo, GoMap.lookup_insert, GoMap.total_insert, EdgePair.mk.injEq,
    htotal toID fromID]
  -- a loop is met by both writes, another pair by one of them in each direction
  by_cases hloop : fromID = toID
  · subst hloop
    simp only [and_comm (a := b = fromID), hsymm b a]
  · have hne : ¬(toID = fromID ∧ fromID = toID) := fun h => hloop h.2
    simp only [if_neg hne, hsymm b a]
    by_cases hab : a = toID ∧ b = fromID
    · have hba : ¬(b = toID ∧ a = fromID) := fun h => hloop (hab.2.symm.trans h.1)
      rw [if_pos hab, if_neg hba, if_pos hab.symm]
    · rw [if_neg hab]
      by_cases hba : a = fromID ∧ b = toID
      · rw [if_pos hba, if_pos hba.symm]
      · rw [if_neg hba, if_neg fun h => hba h.symm, if_neg fun h => hab h.symm]

/-- **The weights of a graph** are symmetric and positive, and lead to symbols. -/
theorem weightsOf_spec (symbols : GoMap String Bool) (edges : List Edge) :
    (∀ a b, (weightsOf symbols edges).lookup ⟨a, b⟩ = (weightsOf symbols edges).lookup ⟨b, a⟩) ∧
      (∀ a b w, (weightsOf symbols edges).lookup ⟨a, b⟩ = some w →
        (symbols.lookup b).isSome = true) ∧
      ∀ pair w, (weightsOf symbols edges).lookup pair = some w → 0 < w := by
  have hsome : ∀ id, ¬has symbols id = false → (symbols.lookup id).isSome = true := fun id hid => by
    rw [has] at hid
    cases hlookup : symbols.lookup id with
    | none => exact absurd (by rw [hlookup]; rfl) hid
    | some _ => rfl
  have hpos : ∀ k, edgeWeight k ≠ 0 → 0 < edgeWeight k := by
    intro k hk
    cases k <;> first | exact absurd rfl hk | norm_num [edgeWeight]
  unfold weightsOf
  -- both directions of an edge get the same weight, which is positive
  refine List.foldl_invariant (P := fun weights : GoMap EdgePair ℚ =>
    (∀ a b, weights.lookup ⟨a, b⟩ = weights.lookup ⟨b, a⟩) ∧
      (∀ a b w, weights.lookup ⟨a, b⟩ = some w → (symbols.lookup b).isSome = true) ∧
      ∀ pair w, weights.lookup pair = some w → 0 < w) ?_ ?_
  · rintro weights e - ⟨hsymm, hclosed, hweights⟩
    split
    · exact ⟨hsymm, hclosed, hweights⟩
    · rename_i hends
      rw [not_or] at hends
      split
      · exact ⟨hsymm, hclosed, hweights⟩
      · rename_i hkind
        have hadd : 0 < edgeWeight e.kind := hpos e.kind hkind
        have htotal : ∀ pair, 0 ≤ weights.total pair := fun pair => by
          rw [GoMap.total]
          cases hlookup : weights.lookup pair with
          | none => exact le_rfl
          | some w => exact (hweights pair w hlookup).le
        refine ⟨lookup_addTo_swap hsymm _ _ _, fun a b w h => ?_, fun pair w h => ?_⟩
        · simp only [GoMap.addTo, GoMap.lookup_insert, EdgePair.mk.injEq] at h
          split at h
          · rename_i hb
            exact hb.2 ▸ hsome _ hends.1
          · split at h
            · rename_i hb
              exact hb.2 ▸ hsome _ hends.2
            · exact hclosed a b w h
        · simp only [GoMap.addTo, GoMap.lookup_insert, GoMap.total_insert] at h
          split at h
          · obtain rfl := Option.some.inj h
            split
            · exact add_pos (add_pos_of_nonneg_of_pos (htotal _) hadd) hadd
            · exact add_pos_of_nonneg_of_pos (htotal _) hadd
          · split at h
            · obtain rfl := Option.some.inj h
              exact add_pos_of_nonneg_of_pos (htotal _) hadd
            · exact hweights pair w h
  · exact ⟨fun _ _ => rfl, fun a b w h => absurd h (by simp), fun pair w h => absurd h (by simp)⟩

/-- The weighted graph that is clustered. -/
def weightedGraph (mapOrd : MapOrder) (g : Graph) : WeightedGraph where
  symbols := symbolNodes mapOrd g
  weights := weightsOf (symbolNodes mapOrd g) ((g.allEdges mapOrd).map g.edge)
  symm := (weightsOf_spec _ _).1
  closed := (weightsOf_spec _ _).2.1
  pos := (weightsOf_spec _ _).2.2

/-! ### The reported modularity -/

/-- The assignment of the nodes to communities. -/
def assigned (comm : GoMap String String) (id : String) : String := (comm.lookup id).getD ""

/-- **Every pair of a community counts**: two symbols of one community that both have a
neighbour have an edge between them, and so has each of them with itself. -/
def WeightedGraph.AllAdjacent (G : WeightedGraph) (part : String → String) : Prop :=
  ∀ i ∈ G.graph.vertices, ∀ j ∈ G.graph.vertices, part i = part j → G.graph.degree i ≠ 0 →
    G.graph.degree j ≠ 0 → 0 < G.graph.weight i j

section Modularity

variable {G : WeightedGraph} {comm : GoMap String String} {order : List (String × String)}

/-- The sum of the code, over all pairs of symbols. -/
theorem modularitySum_eq
    (hcomm : ∀ id, (comm.lookup id).isSome = true ↔ (G.symbols.lookup id).isSome = true)
    (horder : order.Perm comm.pairs) :
    modularitySum G.network comm order = (∑ i ∈ G.graph.vertices, ∑ j ∈ G.graph.vertices,
      if assigned comm i = assigned comm j ∧ 0 < G.graph.weight i j then G.graph.excess i j
      else 0) / G.graph.total := by
  -- the row of a node: what is not adjacent has no weight and drops out on both sides
  have hrow : ∀ i ∈ G.graph.vertices, ∀ c, ((G.network.neighborsOf i).pairs.map fun q =>
      if (comm.lookup q.1).getD "" = c then
        q.2 - G.network.degree.total i * G.network.degree.total q.1 / G.graph.total
      else 0).sum = ∑ j ∈ G.graph.vertices,
        if c = assigned comm j ∧ 0 < G.graph.weight i j then G.graph.excess i j else 0 := by
    intro i hi c
    have hsum := G.sum_neighborsOf i (List.Perm.refl _) (f := fun j w =>
      if (comm.lookup j).getD "" = c ∧ 0 < w then
        w - G.network.degree.total i * G.network.degree.total j / G.graph.total
      else 0) fun j => if_neg fun h => lt_irrefl _ h.2
    have hpos : ∀ q ∈ (G.network.neighborsOf i).pairs, 0 < q.2 := fun q hq => by
      have hq : (q.1, q.2) ∈ (G.network.neighborsOf i).pairs := hq
      rw [GoMap.mem_pairs, G.lookup_neighborsOf] at hq
      exact G.pos _ _ hq
    have hall : ((G.network.neighborsOf i).pairs.map fun q =>
        if (comm.lookup q.1).getD "" = c then
          q.2 - G.network.degree.total i * G.network.degree.total q.1 / G.graph.total
        else 0) = (G.network.neighborsOf i).pairs.map fun q =>
          if (comm.lookup q.1).getD "" = c ∧ 0 < q.2 then
            q.2 - G.network.degree.total i * G.network.degree.total q.1 / G.graph.total
          else 0 :=
      List.map_congr_left fun q hq => if_congr (and_iff_left (hpos q hq)).symm rfl rfl
    rw [hall, hsum]
    refine Finset.sum_congr rfl fun j hj => ?_
    rw [G.total_degree hi, G.total_degree hj]
    exact if_congr (and_congr_left fun _ => eq_comm) rfl rfl
  have hkeys : ∀ k c, comm.lookup k = some c → k ∈ G.graph.vertices := fun k c h =>
    G.mem_vertices.mpr ((hcomm k).mp (by rw [h]; rfl))
  unfold modularitySum
  rw [← G.total_eq]
  congr 1
  have hnodup : (order.map Prod.fst).Nodup := (horder.map _).nodup_iff.mpr comm.nodup_pairs_fst
  -- the outer sum runs over all vertices, once each
  have hset : (order.map Prod.fst).toFinset = G.graph.vertices := by
    ext id
    rw [List.mem_toFinset, G.mem_vertices, ← hcomm, Option.isSome_iff_exists]
    constructor
    · intro hid
      obtain ⟨p, hp, rfl⟩ := List.mem_map.mp hid
      exact ⟨p.2, GoMap.mem_pairs.mp (horder.mem_iff.mp hp)⟩
    · rintro ⟨c, hc⟩
      exact List.mem_map.mpr ⟨(id, c), horder.mem_iff.mpr (GoMap.mem_pairs.mpr hc), rfl⟩
  rw [← hset, List.sum_toFinset _ hnodup, List.map_map]
  refine congrArg List.sum (List.map_congr_left fun p hp => ?_)
  have hp : comm.lookup p.1 = some p.2 := GoMap.mem_pairs.mp (horder.mem_iff.mp hp)
  have hassigned : assigned comm p.1 = p.2 := by rw [assigned, hp, Option.getD_some]
  rw [hrow p.1 (hkeys _ _ hp), Function.comp_apply, hassigned, hset]

/-- What the code leaves out. -/
theorem modularitySum_sub
    (hcomm : ∀ id, (comm.lookup id).isSome = true ↔ (G.symbols.lookup id).isSome = true)
    (horder : order.Perm comm.pairs) :
    modularitySum G.network comm order - G.graph.modularity (assigned comm) =
      (∑ i ∈ G.graph.vertices, ∑ j ∈ G.graph.vertices,
        if assigned comm i = assigned comm j ∧ ¬0 < G.graph.weight i j then
          G.graph.degree i * G.graph.degree j / G.graph.total else 0) / G.graph.total := by
  rw [modularitySum_eq hcomm horder, Modularity.Weighted.modularity, ← sub_div,
    ← Finset.sum_sub_distrib]
  congr 1
  refine Finset.sum_congr rfl fun i _ => ?_
  rw [← Finset.sum_sub_distrib]
  refine Finset.sum_congr rfl fun j _ => ?_
  by_cases hpart : assigned comm i = assigned comm j
  · by_cases hw : 0 < G.graph.weight i j
    · rw [if_pos ⟨hpart, hw⟩, if_pos hpart, if_neg fun h => h.2 hw, sub_self]
    · have hzero : G.graph.weight i j = 0 := le_antisymm (not_lt.mp hw) (G.weight_nonneg i j)
      rw [if_neg fun h => hw h.2, if_pos hpart, if_pos ⟨hpart, hw⟩, Modularity.Weighted.excess,
        hzero]
      ring
  · rw [if_neg fun h => hpart h.1, if_neg hpart, if_neg fun h => hpart h.1, sub_self]

end Modularity

/-- **When the reported modularity is Newman's**: for any partition of the symbols of a graph,
the value before the rounding is Newman's exactly if every pair of a community counts. -/
theorem modularitySum_eq_iff (mapOrd : MapOrder) (g : Graph) (comm : GoMap String String)
    (order : List (String × String))
    (hcomm : ∀ id, (comm.lookup id).isSome = true ↔
      ((symbolNodes mapOrd g).lookup id).isSome = true)
    (horder : order.Perm comm.pairs) :
    modularitySum (network mapOrd g) comm order =
        (weightedGraph mapOrd g).graph.modularity (assigned comm) ↔
      (weightedGraph mapOrd g).AllAdjacent (assigned comm) := by
  have hsub := modularitySum_sub (G := weightedGraph mapOrd g) hcomm horder
  generalize hG : weightedGraph mapOrd g = G at hsub ⊢
  have hnet : network mapOrd g = G.network := by rw [← hG]; rfl
  have hterm : ∀ i ∈ G.graph.vertices, ∀ j ∈ G.graph.vertices,
      0 ≤ if assigned comm i = assigned comm j ∧ ¬0 < G.graph.weight i j then
        G.graph.degree i * G.graph.degree j / G.graph.total else 0 := fun i _ j _ => by
    split
    · exact div_nonneg (mul_nonneg (G.degree_nonneg i) (G.degree_nonneg j)) G.total_nonneg
    · exact le_rfl
  rw [hnet, ← sub_eq_zero, hsub, div_eq_zero_iff,
    Finset.sum_eq_zero_iff_of_nonneg fun i hi => Finset.sum_nonneg (hterm i hi)]
  constructor
  · intro h i hi j hj hpart hki hkj
    have htotal : G.graph.total ≠ 0 := fun hzero =>
      hki ((Finset.sum_eq_zero_iff_of_nonneg fun i _ => G.degree_nonneg i).mp hzero i hi)
    have hrow := (Finset.sum_eq_zero_iff_of_nonneg (hterm i hi)).mp (h.resolve_right htotal i hi) j hj
    by_contra hw
    rw [if_pos ⟨hpart, hw⟩] at hrow
    exact div_ne_zero (mul_ne_zero hki hkj) htotal hrow
  · intro h
    refine Or.inl fun i hi => Finset.sum_eq_zero fun j hj => ?_
    split
    · rename_i hleft
      rw [div_eq_zero_iff, mul_eq_zero]
      by_contra hne
      rw [not_or, not_or] at hne
      exact hleft.2 (h i hi j hj hleft.1 hne.1.1 hne.1.2)
    · rfl

namespace Recursive

/-- The final assignment of the three functions. -/
def comm : GoMap String String := (localMoves .default (network .default graph)).comm

theorem modularitySum_eq_iff_graph :
    modularitySum (network .default graph) comm comm.pairs =
        (weightedGraph .default graph).graph.modularity (assigned comm) ↔
      (weightedGraph .default graph).AllAdjacent (assigned comm) :=
  modularitySum_eq_iff .default graph comm comm.pairs
    (Moves.reachable_localMoves .default (network .default graph)).bookkeeping.nodes
    (List.Perm.refl _)

/-- **A partition into one class has modularity zero**, but what is reported for it is more. -/
theorem modularitySum_ne :
    modularitySum (network .default graph) comm comm.pairs = 5 / 28 ∧
      (weightedGraph .default graph).graph.modularity (assigned comm) = 0 := by
  decide +kernel

end Recursive

end Analysis

end Gortex
