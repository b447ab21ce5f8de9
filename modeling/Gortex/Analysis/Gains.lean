import Gortex.Analysis.Newman

/-!
# The gains of the local moves

What a visit computes for a community is its offer: the weight toward it less its share. The
node moves to the best offer that exceeds the offer of the community it is in, and this offer is
computed with the node still in it. So a move is an improvement exactly if the best offer
exceeds what the rest of the old community offers (`Gortex.Analysis.Fair`,
`Gortex.Analysis.improves_iff`); and if every visit of a run is fair, the modularity grows with
every move and no partition comes back.
-/

namespace Gortex

namespace Analysis

variable (G : WeightedGraph)

/-! ### Offers -/

namespace WeightedGraph

/-- What a community offers to a node. -/
def offer (part : String → String) (x c : String) : ℚ :=
  G.graph.toward part x c - G.graph.degree x * G.graph.volume part c / G.graph.total

/-- What the rest of its own community offers to a node. -/
def restOffer (part : String → String) (x : String) : ℚ :=
  G.graph.toward part x (part x) - G.graph.weight x x -
    G.graph.degree x * (G.graph.volume part (part x) - G.graph.degree x) / G.graph.total

/-- A community with a neighbour of the node in it. -/
def Near (part : String → String) (x c : String) : Prop := 0 < G.graph.toward part x c

end WeightedGraph

/-- **A fair visit**: if another community with a neighbour in it offers more than the community
of the node does with the node in it, then one of them offers more than the rest of it. -/
def Fair (s : LocalMoves) (a : Visit) : Prop :=
  let part := assigned s.comm
  (∃ c, c ≠ part a.node ∧ G.Near part a.node c ∧
      G.offer part a.node (part a.node) < G.offer part a.node c) →
    ∃ c, c ≠ part a.node ∧ G.Near part a.node c ∧ G.restOffer part a.node < G.offer part a.node c

/-- The modularity of the partition of a state. -/
def quality (s : LocalMoves) : ℚ := G.graph.modularity (assigned s.comm)

/-- **A step that improves**: the node stays where it is, or the modularity grows. -/
def Improves (s : LocalMoves) (a : Visit) (s' : LocalMoves) : Prop :=
  Moves.Step G.network s a s' ∧ (s' = s ∨ quality G s < quality G s')

/-- Two states with one partition. -/
def SamePartition (s s' : LocalMoves) : Prop :=
  ∀ i ∈ G.graph.vertices, ∀ j ∈ G.graph.vertices,
    assigned s.comm i = assigned s.comm j ↔ assigned s'.comm i = assigned s'.comm j

/-- **No partition comes back** in a run: not after a move away from it. -/
def NeverRevisits (s : LocalMoves) (l : List Visit) : Prop :=
  ∀ pre a post u v w, pre ++ a :: post <+: l → Run (Moves.Step G.network) s pre u →
    Moves.Step G.network u a v → v ≠ u → Run (Moves.Step G.network) v post w → ¬SamePartition G u w

/-! ### What a visit chooses -/

section Visit

variable {G : WeightedGraph} {ord : VisitOrder} {s s' : LocalMoves} {x : String} {pass : ℕ}

variable (ord) in
/-- What the loop over the neighbours adds up. -/
theorem total_commWeights (pass : ℕ) (s : LocalMoves) (x c : String) :
    (commWeights ord G.network pass s x).total c = G.graph.toward (assigned s.comm) x c := by
  unfold commWeights
  rw [GoMap.total_foldl_addTo, GoMap.total_empty, zero_add]
  have hsum := G.sum_neighborsOf x (ord.perm ⟨pass, .neighborsOf x, s⟩ _)
    (f := fun j w => if c = s.commOf j then w else 0) fun j => ite_self 0
  refine hsum.trans ?_
  rw [Modularity.Weighted.toward, Finset.sum_filter]
  exact Finset.sum_congr rfl fun j _ => if_congr eq_comm rfl rfl

variable (ord) in
/-- The communities of the loop are those with a neighbour. -/
theorem isSome_commWeights (pass : ℕ) (s : LocalMoves) (x c : String) :
    ((commWeights ord G.network pass s x).lookup c).isSome = true ↔
      G.Near (assigned s.comm) x c := by
  rw [WeightedGraph.Near, ← total_commWeights ord pass]
  refine GoMap.isSome_foldl_addTo _ _ _ (fun p hp => ?_) c
  have hp : (p.1, p.2) ∈ (G.network.neighborsOf x).pairs := ord.mem.mp hp
  rw [GoMap.mem_pairs, G.lookup_neighborsOf] at hp
  exact G.pos _ _ hp

/-- **The totals are the volumes.** -/
theorem Bookkeeping.volume (h : Bookkeeping G.network s) (c : String) :
    s.sigmaTot.total c = G.graph.volume (assigned s.comm) c := by
  rw [h.sigmaTot, Modularity.Weighted.volume]
  have hset : (Grouped.slice s.commNodes c).toFinset =
      {j ∈ G.graph.vertices | assigned s.comm j = c} := by
    ext j
    rw [List.mem_toFinset, h.mem_iff, Finset.mem_filter, G.mem_vertices]
    have hnode := h.nodes j
    constructor
    · intro hj
      rw [assigned, hj]
      exact ⟨hnode.mp (by rw [hj]; rfl), rfl⟩
    · rintro ⟨hin, hj⟩
      obtain ⟨c', hc'⟩ := Option.isSome_iff_exists.mp (hnode.mpr hin)
      rw [assigned, hc', Option.getD_some] at hj
      rw [hc', hj]
  rw [← hset, List.sum_toFinset _ (h.nodup c)]
  refine congrArg List.sum (List.map_congr_left fun j hj => G.total_degree ?_)
  rw [G.mem_vertices]
  exact (h.nodes j).mp (by rw [(h.mem_iff c j).mp hj]; rfl)

/-- **The gain is the difference of the offers.** -/
theorem gain_eq (h : Bookkeeping G.network s) (hx : x ∈ G.graph.vertices) {c : String} {wc : ℚ}
    (hc : (commWeights ord G.network pass s x).lookup c = some wc) :
    gain G.network s x (commWeights ord G.network pass s x) c wc =
      G.offer (assigned s.comm) x c - G.offer (assigned s.comm) x (assigned s.comm x) := by
  have hwc : wc = G.graph.toward (assigned s.comm) x c := by
    rw [← total_commWeights ord pass, GoMap.total, hc, Option.getD_some]
  unfold gain WeightedGraph.offer
  simp only
  rw [total_commWeights, h.volume, h.volume, G.total_degree hx, ← G.total_eq, hwc]
  change _ - G.graph.volume _ c * _ / _ - (G.graph.toward _ x (assigned s.comm x) -
    G.graph.volume _ (assigned s.comm x) * _ / _) = _
  ring

/-- The loop for the best gain. -/
theorem foldl_best {own : String} (value : String × ℚ → ℚ) (l : List (String × ℚ))
    (best : String × ℚ) :
    let r := l.foldl (fun best p => if p.1 = own then best
      else if best.2 < value p then (p.1, value p) else best) best
    (r = best ∨ ∃ p ∈ l, p.1 ≠ own ∧ best.2 < value p ∧ r = (p.1, value p)) ∧
      best.2 ≤ r.2 ∧ ∀ p ∈ l, p.1 ≠ own → value p ≤ r.2 := by
  induction l generalizing best with
  | nil => exact ⟨Or.inl rfl, le_rfl, fun p hp => absurd hp List.not_mem_nil⟩
  | cons p l ih =>
    simp only [List.foldl_cons]
    by_cases hown : p.1 = own
    · rw [if_pos hown]
      obtain ⟨hr, hle, hall⟩ := ih best
      refine ⟨hr.imp id fun ⟨q, hq, h⟩ => ⟨q, List.mem_cons_of_mem p hq, h⟩, hle, fun q hq hne => ?_⟩
      rcases List.mem_cons.mp hq with rfl | hq
      · exact absurd hown hne
      · exact hall q hq hne
    · rw [if_neg hown]
      by_cases hlt : best.2 < value p
      · rw [if_pos hlt]
        obtain ⟨hr, hle, hall⟩ := ih (p.1, value p)
        refine ⟨Or.inr ?_, hlt.le.trans hle, fun q hq hne => ?_⟩
        · rcases hr with hr | ⟨q, hq, hne, hbest, hr⟩
          · exact ⟨p, List.mem_cons_self, hown, hlt, hr⟩
          · exact ⟨q, List.mem_cons_of_mem p hq, hne, hlt.trans hbest, hr⟩
        · rcases List.mem_cons.mp hq with rfl | hq
          · exact hle
          · exact hall q hq hne
      · rw [if_neg hlt]
        obtain ⟨hr, hle, hall⟩ := ih best
        refine ⟨hr.imp id fun ⟨q, hq, h⟩ => ⟨q, List.mem_cons_of_mem p hq, h⟩, hle,
          fun q hq hne => ?_⟩
        rcases List.mem_cons.mp hq with rfl | hq
        · exact (not_lt.mp hlt).trans hle
        · exact hall q hq hne

variable (ord pass) in
/-- **The choice of a visit**: the node stays if no other community near it offers more, and
otherwise it moves to one of those that offer the most. -/
theorem visit_choice (h : Bookkeeping G.network s) (hx : x ∈ G.graph.vertices) :
    (visit ord G.network pass s x = (s, false) ∧ ∀ c, c ≠ assigned s.comm x →
      G.Near (assigned s.comm) x c →
        G.offer (assigned s.comm) x c ≤ G.offer (assigned s.comm) x (assigned s.comm x)) ∨
      ∃ c, c ≠ assigned s.comm x ∧ G.Near (assigned s.comm) x c ∧
        G.offer (assigned s.comm) x (assigned s.comm x) < G.offer (assigned s.comm) x c ∧
        (∀ c', c' ≠ assigned s.comm x → G.Near (assigned s.comm) x c' →
          G.offer (assigned s.comm) x c' ≤ G.offer (assigned s.comm) x c) ∧
        visit ord G.network pass s x = (s.move x c (G.network.degree.total x)
          (commWeights ord G.network pass s x), true) := by
  let weights := commWeights ord G.network pass s x
  have hspec : (bestMove ord G.network pass s x weights = (s.commOf x, 0) ∨
      ∃ p ∈ ord.order ⟨pass, .commWeightsOf x, s⟩ weights.pairs, p.1 ≠ s.commOf x ∧
        0 < gain G.network s x weights p.1 p.2 ∧ bestMove ord G.network pass s x weights =
          (p.1, gain G.network s x weights p.1 p.2)) ∧
      0 ≤ (bestMove ord G.network pass s x weights).2 ∧
        ∀ p ∈ ord.order ⟨pass, .commWeightsOf x, s⟩ weights.pairs, p.1 ≠ s.commOf x →
          gain G.network s x weights p.1 p.2 ≤ (bestMove ord G.network pass s x weights).2 :=
    foldl_best (fun p => gain G.network s x weights p.1 p.2) _ _
  -- the loop keeps the best gain, and a gain is the difference of two offers
  obtain ⟨hr, -, hall⟩ := hspec
  have hgain : ∀ p ∈ ord.order ⟨pass, .commWeightsOf x, s⟩ weights.pairs,
      gain G.network s x weights p.1 p.2 = G.offer (assigned s.comm) x p.1 -
        G.offer (assigned s.comm) x (assigned s.comm x) ∧ G.Near (assigned s.comm) x p.1 :=
    fun p hp => by
      have hp : weights.lookup p.1 = some p.2 := GoMap.mem_pairs.mp (ord.mem.mp hp)
      exact ⟨gain_eq h hx hp, (isSome_commWeights ord pass s x p.1).mp (by rw [hp]; rfl)⟩
  have hnear : ∀ c, G.Near (assigned s.comm) x c →
      ∃ wc, (c, wc) ∈ ord.order ⟨pass, .commWeightsOf x, s⟩ weights.pairs := fun c hc => by
    obtain ⟨wc, hwc⟩ := Option.isSome_iff_exists.mp
      ((isSome_commWeights ord pass s x c).mpr hc)
    exact ⟨wc, ord.mem.mpr (GoMap.mem_pairs.mpr hwc)⟩
  rcases visit_cases ord G.network pass s x with heq | ⟨c, hbest, hc, heq⟩
  · refine Or.inl ⟨heq, fun c hc hcnear => ?_⟩
    have hstay : bestMove ord G.network pass s x weights = (s.commOf x, 0) := by
      rcases hr with hr | ⟨p, hp, hne, -, hr⟩
      · exact hr
      · -- a move would have been made
        have hmove : (bestMove ord G.network pass s x weights).1 = p.1 := by rw [hr]
        have htrue : (visit ord G.network pass s x).2 = true := by
          unfold visit
          simp only
          rw [if_neg fun h => hne (hmove.symm.trans h)]
        rw [heq] at htrue
        exact absurd htrue Bool.false_ne_true
    obtain ⟨wc, hwc⟩ := hnear c hcnear
    have hle := hall _ hwc hc
    rw [(hgain _ hwc).1] at hle
    have hzero : (bestMove ord G.network pass s x weights).2 = 0 := congrArg Prod.snd hstay
    rw [hzero] at hle
    exact sub_nonpos.mp hle
  · rcases hr with hr | ⟨p, hp, hne, hlt, hr⟩
    · exact absurd (hbest.trans (congrArg Prod.fst hr)) hc
    · have hcp : c = p.1 := hbest.trans (by rw [hr])
      subst hcp
      obtain ⟨hp1, hp2⟩ := hgain p hp
      refine Or.inr ⟨p.1, hne, hp2, sub_pos.mp (hp1 ▸ hlt), fun c' hc' hnear' => ?_, heq⟩
      obtain ⟨wc, hwc⟩ := hnear c' hnear'
      have hle := hall _ hwc hc'
      have hle : gain G.network s x weights c' wc ≤ gain G.network s x weights p.1 p.2 :=
        hle.trans_eq (by rw [hr])
      rw [(hgain _ hwc).1, hp1] at hle
      exact (sub_le_sub_iff_right _).mp hle

/-- **A visit improves exactly if it is fair.** -/
theorem improves_iff {a : Visit} (h : Bookkeeping G.network s)
    (hstep : Moves.Step G.network s a s') : (s' = s ∨ quality G s < quality G s') ↔ Fair G s a := by
  obtain ⟨hnode, rfl⟩ := hstep
  have hx : a.node ∈ G.graph.vertices := G.mem_vertices.mpr hnode
  rcases visit_choice a.ord a.pass h hx with
    ⟨heq, hall⟩ | ⟨c, hc, hnear, hmore, hall, heq⟩
  · rw [heq]
    refine iff_of_true (Or.inl rfl) ?_
    rintro ⟨c, hc, hnear, hlt⟩
    exact absurd hlt (not_lt.mpr (hall c hc hnear))
  · rw [heq]
    simp only
    have hpart : assigned (s.move a.node c (G.network.degree.total a.node)
        (commWeights a.ord G.network a.pass s a.node)).comm =
          Function.update (assigned s.comm) a.node c := funext fun y => by
      rw [assigned, comm_move, Function.update_apply]
      split <;> rfl
    have hne : s.move a.node c (G.network.degree.total a.node)
        (commWeights a.ord G.network a.pass s a.node) ≠ s := fun hsame => by
      rw [hsame] at hpart
      refine hc (Eq.symm ?_)
      exact (congrFun hpart a.node).trans (Function.update_self _ _ _)
    have htotal : 0 < G.graph.total := by
      have hle : G.graph.toward (assigned s.comm) a.node c ≤ G.graph.degree a.node :=
        Finset.sum_le_sum_of_subset_of_nonneg (Finset.filter_subset _ _)
          fun j _ _ => G.weight_nonneg _ _
      exact (hnear.trans_le hle).trans_le
        (Finset.single_le_sum (fun i _ => G.degree_nonneg i) hx)
    have hmove := G.graph.modularity_lt_move_iff (assigned s.comm) htotal hx (Ne.symm hc)
    rw [or_iff_right hne, quality, quality, hpart, hmove]
    constructor
    · intro hlt _
      exact ⟨c, hc, hnear, hlt⟩
    · intro hfair
      obtain ⟨c', hc', hnear', hlt⟩ := hfair ⟨c, hc, hnear, hmore⟩
      exact hlt.trans_le (hall c' hc' hnear')

end Visit

/-! ### Runs -/

section Runs

variable {G : WeightedGraph} {s t : LocalMoves} {l : List Visit}

theorem Moves.step_unique {N : Network} {s t t' : LocalMoves} {a : Visit} (h : Moves.Step N s a t)
    (h' : Moves.Step N s a t') : t = t' :=
  h.2.trans h'.2.symm

/-- One partition has one modularity. -/
theorem SamePartition.quality_eq (h : SamePartition G s t) : quality G s = quality G t :=
  G.graph.modularity_congr _ h

/-- **A run that improves with every move visits no partition twice.** -/
theorem neverRevisits_of_improves (h : Run (Improves G) s l t) : NeverRevisits G s l := by
  rintro pre a post u v w hpre hu ha hmoved hw hsame
  have hdet : ∀ {s : LocalMoves} {a : Visit} {t t' : LocalMoves}, Moves.Step G.network s a t →
      Moves.Step G.network s a t' → t = t' := Moves.step_unique
  have hrun : Run (Improves G) s (pre ++ a :: post) w :=
    h.of_prefix (@hdet) And.left hpre (hu.append (Run.cons ha hw))
  obtain ⟨u', hu', hrest⟩ := hrun.split
  have hu' : Run (Moves.Step G.network) s pre u' := hu'.mono And.left
  obtain rfl := hu'.unique (@hdet) hu
  cases hrest with
  | cons h1 htail =>
    obtain rfl := Moves.step_unique h1.1 ha
    have hlt := h1.2.resolve_left hmoved
    have hle := htail.le_of_improving And.right
    exact absurd (hlt.trans_le hle) (hsame.quality_eq ▸ lt_irrefl _)

end Runs

/-- **When the local moves only improve**: in every run of the loop over a weighted graph, for
any orders of the loops, the modularity grows with every move, and no partition comes back,
exactly if every visit is fair. -/
theorem localMoves_improve_iff (ids : List String) (l : List Visit) (s : LocalMoves)
    (hids : ∀ id, id ∈ ids ↔ (G.symbols.lookup id).isSome = true) :
    (Run (Improves G) (G.network.initMoves ids) l s ∧
        NeverRevisits G (G.network.initMoves ids) l) ↔
      Run (fun s a t => Moves.Step G.network s a t ∧ Fair G s a) (G.network.initMoves ids) l s := by
  have hinit : Bookkeeping G.network (G.network.initMoves ids) := Bookkeeping.init hids
  constructor
  · rintro ⟨hrun, -⟩
    exact hrun.mono_of (fun hs h1 => hs.step h1.1)
      (fun hs h1 => ⟨h1.1, (improves_iff hs h1.1).mp h1.2⟩) hinit
  · intro hrun
    have himproves : Run (Improves G) (G.network.initMoves ids) l s :=
      hrun.mono_of (fun hs h1 => hs.step h1.1)
        (fun hs h1 => ⟨h1.1, (improves_iff hs h1.1).mpr h1.2⟩) hinit
    exact ⟨himproves, neverRevisits_of_improves himproves⟩

namespace Recursive

/-- The network of the three functions. -/
def net : Network := (weightedGraph .default graph).network

/-- The three functions alone. -/
def start : LocalMoves :=
  net.initMoves (((GoMap.RangeOrder.default : VisitOrder).order ⟨0, .start, ⟨∅, ∅, ∅, ∅⟩⟩
    net.symbolNodes.pairs).map Prod.fst)

/-- What some visits lead to. -/
def after (l : List Visit) (s : LocalMoves) : LocalMoves :=
  l.foldl (fun s a => (visit a.ord net a.pass s a.node).1) s

/-- A pass, and the first two visits of the next one. -/
def visits : List Visit :=
  [⟨.default, 0, "a"⟩, ⟨.default, 0, "b"⟩, ⟨.default, 0, "c"⟩, ⟨.default, 1, "a"⟩,
    ⟨.default, 1, "b"⟩]

theorem run_after {l : List Visit} (hl : ∀ a ∈ l, (net.symbolNodes.lookup a.node).isSome = true)
    (s : LocalMoves) : Run (Moves.Step net) s l (after l s) := by
  induction l generalizing s with
  | nil => exact Run.nil s
  | cons a l ih =>
    exact Run.cons ⟨hl a List.mem_cons_self, rfl⟩ (ih (fun b hb => hl b (List.mem_cons_of_mem a hb)) _)

/-- **A move that makes it worse**: the second function leaves the third one for the first one
it has come from, and the partition of the first move is back. -/
theorem not_neverRevisits :
    quality (weightedGraph .default graph) (after (visits.take 5) start) <
        quality (weightedGraph .default graph) (after (visits.take 4) start) ∧
      ¬NeverRevisits (weightedGraph .default graph) start visits := by
  refine ⟨by decide +kernel, fun h => ?_⟩
  have hmoved : after (visits.take 2) start ≠ after (visits.take 1) start := fun heq =>
    absurd (congrArg (quality (weightedGraph .default graph)) heq) (by decide +kernel)
  have hsame : SamePartition (weightedGraph .default graph) (after (visits.take 1) start)
      (after visits start) := by
    unfold SamePartition
    decide +kernel
  exact h (visits.take 1) ⟨.default, 0, "b"⟩ (visits.drop 2) _ _ _ (List.prefix_refl _)
    (run_after (by decide +kernel) _) ⟨by decide +kernel, rfl⟩ hmoved
    (run_after (by decide +kernel) _) hsame

theorem localMoves_improve_iff_graph :
    (Run (Improves (weightedGraph .default graph)) start visits (after visits start) ∧
        NeverRevisits (weightedGraph .default graph) start visits) ↔
      Run (fun s a t => Moves.Step net s a t ∧ Fair (weightedGraph .default graph) s a) start visits
        (after visits start) :=
  localMoves_improve_iff (weightedGraph .default graph) _ visits (after visits start)
    (mem_symbolOrder .default net _)

end Recursive

end Analysis

end Gortex
