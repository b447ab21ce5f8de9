import Mathlib.Data.Set.Finite.Basic
import Gortex.Graph.QualNames
import Gortex.Lib.FirstFit

/-!
# What the content of a graph leaves open

Two graphs that store the same nodes and edges (`Gortex.Graph.SameContent`) may still list them in
another order, and look up another node by a qualified name. Here are three things that are left
open, each shown by a run of operations that leads to a graph of the same content:

* a node comes last in the bucket of its name when it has been given another name and its own
  again (`Gortex.Graph.Reachable.exists_lastOfRank`), and last in the loop over the map of its
  shard in some order of the map (`Gortex.Graph.NodeInv.lastOfRank_allNodes`);
* a qualified name is looked up in vain when a node of another file has taken the slot in every
  shard, and the file is evicted (`Gortex.Graph.Reachable.exists_unqualified`); there is such a node
  because every shard has as many IDs as one likes (`Gortex.Graph.infinite_shardIdx`);
* any node of a qualified name can be the one that is looked up by it
  (`Gortex.Graph.Reachable.exists_qualified`).
-/

namespace Gortex

namespace Graph

variable {g g' : Graph}

/-- **The two graphs store the same nodes and edges.** -/
structure SameContent (g g' : Graph) : Prop where
  nodeAt : ∀ id, g'.nodeAt id = g.nodeAt id
  storedEdge : ∀ e, g'.StoredEdge e ↔ g.StoredEdge e

theorem SameContent.refl (g : Graph) : SameContent g g := ⟨fun _ => rfl, fun _ => Iff.rfl⟩

theorem SameContent.trans {g'' : Graph} (h : SameContent g g') (h' : SameContent g' g'') :
    SameContent g g'' :=
  ⟨fun id => (h'.nodeAt id).trans (h.nodeAt id),
    fun e => (h'.storedEdge e).trans (h.storedEdge e)⟩

theorem Reachable.step (h : Reachable g) {op : Op} (hs : Op.Step g op g') : Reachable g' := by
  obtain ⟨ops, hrun⟩ := h
  exact ⟨ops ++ [op], hrun.append (.cons hs (.nil _))⟩

theorem Reachable.putNode (h : Reachable g) (n : Node) : Reachable (g.putNode n) :=
  h.step (show Op.Step g (.addNode n) (g.putNode n) from ⟨trivial, rfl⟩)

/-- Adding a stored node once more changes nothing of what is stored. -/
theorem NodeInv.sameContent_putNode (h : NodeInv g) {n : Node} (hn : g.nodeAt n.id = some n) :
    SameContent g (g.putNode n) where
  nodeAt := fun id => by
    rw [h.nodeAt_putNode]
    split
    · rename_i hid
      rw [hid, hn]
    · rfl
  storedEdge := storedEdge_putNode g n

/-! ### The last of a shard -/

/-- The bucket of its name once a node has come whose ID is not in it. -/
theorem NodeInv.slice_addNode (h : NodeInv g) {r : NodeRef}
    (hn : ∀ m, g.nodeAt (g.idOf r) = some m → m.name ≠ (g.node r).name) :
    ((g.addNode r).shards (shardIdx (g.idOf r))).byName.slice (g.node r).name =
      (g.shards (shardIdx (g.idOf r))).byName.slice (g.node r).name ++ [r] := by
  rw [Graph.addNode, shards_modifyShard, if_pos rfl]
  set i := shardIdx (g.idOf r) with hi
  have hprev : ((g.shards i).nodes.lookup (g.node r).id).map g.node = g.nodeAt (g.idOf r) := rfl
  change (reindexNode g.idOf (g.shards i).byName
    ((((g.shards i).nodes.lookup (g.node r).id).map g.node).map Node.name) (some (g.node r).name)
      (g.node r).id r).slice (g.node r).name = _
  rw [hprev]
  -- the node that had the ID leaves another bucket
  have hleave : (leaveBucket g.idOf (g.shards i).byName ((g.nodeAt (g.idOf r)).map Node.name)
      (some (g.node r).name) (g.node r).id).slice (g.node r).name =
        (g.shards i).byName.slice (g.node r).name := by
    cases hm : g.nodeAt (g.idOf r) with
    | none => rfl
    | some m =>
      unfold leaveBucket
      simp only [Option.map_some]
      rw [if_neg fun hc => hn m hm (Option.some.inj hc).symm]
      exact Buckets.slice_remove_of_ne _ _ _ (hn m hm).symm
  have hexact : (leaveBucket g.idOf (g.shards i).byName ((g.nodeAt (g.idOf r)).map Node.name)
      (some (g.node r).name) (g.node r).id).Exact g.idOf := ((h i).name.mem_leave _ _ _).1
  have hfree : ∀ a ∈ (g.shards i).byName.slice (g.node r).name, g.idOf a ≠ (g.node r).id := by
    intro a ha hid
    obtain ⟨hl, hname⟩ := ((h i).name.mem _ a).mp ha
    have hat : g.nodeAt (g.idOf r) = some (g.node a) := by
      rw [← hprev, ← hid, idOf, hl, Option.map_some]
    exact hn _ hat (Option.some.inj hname)
  have hnone : (leaveBucket g.idOf (g.shards i).byName ((g.nodeAt (g.idOf r)).map Node.name)
      (some (g.node r).name) (g.node r).id).pos? (g.node r).name (g.node r).id = none := by
    refine (Buckets.SliceOn.lookup_eq_none (Buckets.exact_iff.mp hexact _) trivial).mpr ?_
    rw [hleave]
    exact hfree
  unfold reindexNode
  simp only
  rw [Buckets.slice_add, if_pos rfl, hnone, hleave]

/-- **The last of its name**: the node that was added last, if its ID was not of the name before. -/
theorem NodeInv.lastOfRank_addNode (h : NodeInv g) {r : NodeRef} (hr : r.addr < g.nextNode)
    (hn : ∀ m, g.nodeAt (g.idOf r) = some m → m.name ≠ (g.node r).name) :
    FirstFit.LastOfRank (fun c : Node => shardIdx c.id)
      (((g.addNode r).findNodesByName (g.node r).name).map g.node) (g.node r) := by
  have hinv : NodeInv (g.addNode r) := h.addNode hr
  have hlast : FirstFit.LastOfRank (fun a => shardIdx (g.idOf a))
      ((g.addNode r).findNodesByName (g.node r).name) r := by
    refine FirstFit.lastOfRank_flatMap_finRange (fun i a ha => ?_) (h.slice_addNode hn) ?_
    · exact ((hinv i).home (((hinv i).name.mem _ a).mp ha).1).2.1
    · exact (hinv.nodup_flatMap_slice (b := NodeTables.byName) (fun i => (hinv i).name) _).of_map
  refine hlast.map (fun _ _ => rfl) fun a ha heq => ?_
  have hst := (hinv.mem_findNodesByName.mp ha).1
  have hself : (g.addNode r).getNode ((g.addNode r).idOf r) = some r := by
    rw [getNode_addNode]
    exact if_pos rfl
  exact hst.eq_of_id hself (congrArg Node.id heq)

/-- **A stored node can come last of its name.** -/
theorem Reachable.exists_lastOfRank (hg : Reachable g) {c : Node} (hc : g.nodeAt c.id = some c) :
    ∃ g', Reachable g' ∧ SameContent g g' ∧ FirstFit.LastOfRank (fun c : Node => shardIdx c.id)
      ((g'.findNodesByName c.name).map g'.node) c := by
  -- it is given another name, and its own again
  set c' : Node := { c with name := c.name ++ "'" } with hc'
  have hne : c'.name ≠ c.name := fun heq => by
    have hlen := congrArg String.length heq
    rw [hc', String.length_append] at hlen
    exact absurd hlen (Nat.ne_of_gt (Nat.lt_succ_self _))
  have hg' := hg.putNode c'
  have hinv := hg'.weak.nodes
  have hat : (g.putNode c').nodeAt c.id = some c' := by
    rw [hg.weak.nodes.nodeAt_putNode]
    exact if_pos rfl
  refine ⟨(g.putNode c').putNode c, hg'.putNode c, ⟨fun id => ?_, fun e => ?_⟩, ?_⟩
  · rw [hinv.nodeAt_putNode, hg.weak.nodes.nodeAt_putNode]
    by_cases hid : id = c.id
    · rw [if_pos hid, hid, hc]
    · rw [if_neg hid, if_neg hid]
  · rw [storedEdge_putNode, storedEdge_putNode]
  · have hself := node_newNode_self (g.putNode c') c
    have hnew := hinv.newNode c
    have hlast := hnew.lastOfRank_addNode (r := ((g.putNode c').newNode c).1) (Nat.lt_succ_self _)
      fun m hm => ?_
    · rwa [hself] at hlast
    · have hm' : (g.putNode c').nodeAt c.id = some m := by
        obtain ⟨r, hr, hrm⟩ := nodeAt_eq_some.mp hm
        rw [idOf, hself, getNode_newNode] at hr
        refine nodeAt_eq_some.mpr ⟨r, hr, ?_⟩
        rw [← hrm, node_newNode_of_lt _ _ (hinv.home hr).2]
      rw [hat] at hm'
      rw [hself, ← Option.some.inj hm']
      exact hne

/-- **A stored node can come last of its shard** in the loop over the map. -/
theorem NodeInv.lastOfRank_allNodes (h : NodeInv g) {id : String} {r : NodeRef}
    (hr : g.getNode id = some r) : FirstFit.LastOfRank (fun c : Node => shardIdx c.id)
      ((g.allNodes (GoMap.RangeOrder.last (id, r))).map g.node) (g.node r) := by
  set ord : MapOrder := GoMap.RangeOrder.last (id, r) with hord
  obtain ⟨hid, -⟩ := h.home hr
  have hin : (id, r) ∈ (g.shards (shardIdx (g.idOf r))).nodes.pairs := by
    rw [GoMap.mem_pairs, hid]
    exact hr
  obtain ⟨l, hl⟩ := GoMap.RangeOrder.exists_append_last (s := g) hin
  have hlast : FirstFit.LastOfRank (fun a => shardIdx (g.idOf a)) (g.allNodes ord) r := by
    refine FirstFit.lastOfRank_flatMap_finRange (s := l.map Prod.snd) (fun i a ha => ?_) ?_ ?_
    · obtain ⟨⟨id', a'⟩, hm, rfl⟩ := List.mem_map.mp ha
      obtain ⟨hid', hshard, -⟩ := (h i).home (GoMap.mem_pairs.mp (ord.mem.mp hm))
      exact (congrArg shardIdx hid').trans hshard
    · rw [hl, List.map_append, List.map_singleton]
    · exact (h.nodup_allNodes ord).of_map
  refine hlast.map (fun _ _ => rfl) fun a ha heq => ?_
  exact ((h.mem_allNodes ord).mp ha).eq_of_id (h.storedNode hr) (congrArg Node.id heq)

/-! ### IDs of a shard -/

/-- The bytes of an array from an index on, in front of those that are read already. -/
theorem toList_loop (b : ByteArray) (i : ℕ) (r : List UInt8) :
    ByteArray.toList.loop b i r = r.reverse ++ b.data.toList.drop i := by
  fun_induction ByteArray.toList.loop b i r with
  | case1 i r h ih =>
    have hi : i < b.data.toList.length := h
    rw [ih, List.drop_eq_getElem_cons hi]
    simp [ByteArray.get!, getElem!_pos, h]
  | case2 i r h =>
    have hi : b.data.toList.length ≤ i := not_lt.mp h
    rw [List.drop_of_length_le hi, List.append_nil]

/-- Sixteen letters, whose codes end in all the values of four bits. -/
def letter (k : Fin 16) : Char := Char.ofNat (96 + k.val)

theorem toUTF8_append_letter (s : String) (k : Fin 16) :
    (s ++ String.singleton (letter k)).toUTF8.toList =
      s.toUTF8.toList ++ [UInt8.ofNat (96 + k.val)] := by
  have hone : ∀ k : Fin 16, [letter k].utf8Encode.data.toList = [UInt8.ofNat (96 + k.val)] := by
    decide
  simp only [ByteArray.toList, toList_loop, String.toUTF8_eq_toByteArray, String.toByteArray_append,
    String.toByteArray_singleton, ByteArray.data_append, Array.toList_append, List.drop_zero, hone,
    List.reverse_nil, List.nil_append]

/-- **The shard of an ID with one more letter** depends on the shard of the ID and the letter: the
multiplication by the prime of the hash keeps the last four bits apart from the others. -/
theorem shardIdx_append_letter (s : String) (k : Fin 16) :
    (shardIdx (s ++ String.singleton (letter k))).val =
      ((shardIdx s).val ^^^ k.val) * 3 % 16 := by
  have hbyte : ∀ k : Fin 16, (UInt8.ofNat (96 + k.val)).toUInt32.toNat % 16 = k.val := by decide
  unfold shardIdx fnv32a
  rw [toUTF8_append_letter, List.foldl_append]
  generalize (s.toUTF8.toList.foldl _ _ : UInt32) = h
  change (((h ^^^ (UInt8.ofNat (96 + k.val)).toUInt32) * 16777619).toNat) % 16 =
    (h.toNat % 16 ^^^ k.val) * 3 % 16
  rw [UInt32.toNat_mul, UInt32.toNat_xor]
  have hx := @Nat.xor_mod_two_pow h.toNat (UInt8.ofNat (96 + k.val)).toUInt32.toNat 4
  rw [show (2 : ℕ) ^ 4 = 16 from rfl, hbyte k] at hx
  rw [← hx]
  have h3 : (16777619 : UInt32).toNat = 16777619 := rfl
  rw [h3]
  omega

/-- **Every shard has infinitely many IDs.** -/
theorem infinite_shardIdx (i : Fin numShards) : {id | shardIdx id = i}.Infinite := by
  have hsolve : ∀ a i : Fin 16, ∃ k : Fin 16, (a.val ^^^ k.val) * 3 % 16 = i.val := by
    decide +kernel
  have hlen : ∀ n : ℕ, ∃ id : String, shardIdx id = i ∧ id.length = n + 1 := fun n => by
    obtain ⟨k, hk⟩ := hsolve (shardIdx (String.ofList (List.replicate n 'a'))) i
    refine ⟨String.ofList (List.replicate n 'a') ++ String.singleton (letter k), Fin.ext ?_, ?_⟩
    · rw [shardIdx_append_letter, hk]
    · simp
  choose f hf using hlen
  refine Set.infinite_of_injective_forall_mem (f := f) (fun n m hnm => ?_) fun n => (hf n).1
  have hn := (hf n).2
  rw [hnm, (hf m).2] at hn
  omega
/-- **A string that nothing of the graph is stored under**, and that is an ID of the shard. -/
theorem exists_fresh (g : Graph) (i : Fin numShards) : ∃ d, shardIdx d = i ∧
    g.getNode d = none ∧ g.getFileNodes d = [] ∧ g.getOutEdges d = [] ∧ g.getInEdges d = [] := by
  let keys := fun j => (g.shards j).nodes.keys ++ (g.shards j).byFile.bucket.keys ++
    (g.shards j).outEdges.bucket.keys ++ (g.shards j).inEdges.bucket.keys
  obtain ⟨d, hd, hfresh⟩ := (infinite_shardIdx i).exists_notMem_finite
    (List.finite_toSet ((List.finRange numShards).flatMap keys))
  have hno : ∀ j, d ∉ keys j := fun j hj =>
    hfresh (List.mem_flatMap.mpr ⟨j, List.mem_finRange j, hj⟩)
  simp only [keys, List.mem_append, not_or] at hno
  have hslice : ∀ {κ α : Type} [DecidableEq κ] (b : Buckets String κ α), d ∉ b.bucket.keys →
      b.slice d = [] := fun b hb => by
    rw [Buckets.slice, AList.lookup_eq_none.mpr (fun hc => hb (AList.mem_keys.mp hc))]
    rfl
  refine ⟨d, hd, ?_, ?_, hslice _ (hno _).1.2, hslice _ (hno _).2⟩
  · exact AList.lookup_eq_none.mpr fun hc => (hno _).1.1.1 (AList.mem_keys.mp hc)
  · exact List.flatMap_eq_nil_iff.mpr fun j _ => hslice _ (hno j).1.1.2

/-! ### A name that is looked up in vain -/

/-- An eviction of IDs that no edge is stored at leaves the edges. -/
theorem storedOut_evictEdgesLocked (ord : MapOrder) {ids : List String}
    (h : ∀ id ∈ ids, g.getOutEdges id = [] ∧ g.getInEdges id = []) (r : EdgeRef) :
    (Graph.evictEdgesLocked ord g ids).1.StoredOut r ↔ g.StoredOut r := by
  -- the buckets that are dropped are empty
  have hdrop : ∀ (B : Fin numShards → Buckets String EdgeKey EdgeRef) (id k : String),
      Buckets.sliceAt shardIdx B id = [] → Buckets.sliceAt shardIdx (Buckets.write B (shardIdx id)
        ((B (shardIdx id)).drop id)) k = Buckets.sliceAt shardIdx B k := by
    intro B id k hid
    rw [Buckets.sliceAt_write fun _ hk => by rw [Buckets.slice_drop, if_neg hk], Buckets.slice_drop]
    split
    · rename_i hk
      rw [if_pos rfl, hk, hid]
    · rfl
  let Same := fun s : Graph => s.edge = g.edge ∧ (∀ k, s.getOutEdges k = g.getOutEdges k) ∧
    ∀ k, s.getInEdges k = g.getInEdges k
  have hsame : Same (Graph.evictEdgesLocked ord g ids).1 := by
    rw [evictEdgesLocked_fst]
    refine List.foldl_invariant (P := Same) (fun s id hid hs => ?_)
      (List.foldl_invariant (P := Same) (fun s id hid hs => ?_) ⟨rfl, fun _ => rfl, fun _ => rfl⟩)
    · obtain ⟨hedge, hout, hin⟩ := hs
      have hnil := (h id (ord.mem.mp hid)).2
      rw [← hin] at hnil
      unfold Graph.evictInEdges
      rw [hnil]
      refine ⟨hedge, fun k => ?_, fun k => ?_⟩
      · rw [← hout, getOutEdges_eq, getOutEdges_eq, List.foldl_nil, outTables_modifyIn]
      · rw [← hin, getInEdges_eq, getInEdges_eq, List.foldl_nil, inTables_modifyIn]
        exact hdrop _ id k hnil
    · obtain ⟨hedge, hout, hin⟩ := hs
      have hnil := (h id (ord.mem.mp hid)).1
      rw [← hout] at hnil
      unfold Graph.evictOutEdges
      rw [hnil]
      refine ⟨hedge, fun k => ?_, fun k => ?_⟩
      · rw [← hout, getOutEdges_eq, getOutEdges_eq, List.foldl_nil, outTables_modifyOut]
        exact hdrop _ id k hnil
      · rw [← hin, getInEdges_eq, getInEdges_eq, List.foldl_nil, inTables_modifyOut]
  obtain ⟨hedge, hout, -⟩ := hsame
  rw [StoredOut, StoredOut, hedge, hout]

/-- Two nodes that hold one name in one shard are one. -/
theorem HoldsQual.eq {n m : Node} (hn : g.HoldsQual n) (hm : g.HoldsQual m)
    (hi : shardIdx n.id = shardIdx m.id) (hq : n.qualName = m.qualName) : n = m := by
  unfold HoldsQual at hn hm
  rw [hi, hq, hm] at hn
  exact (Option.some.inj hn).symm

/-- **The slot of a name in a shard can be emptied.** -/
theorem Reachable.exists_released (hg : Reachable g) {q : String} (hq : q ≠ "")
    (i : Fin numShards) : ∃ g', Reachable g' ∧ SameContent g g' ∧ ∀ n, g'.HoldsQual n →
      g.HoldsQual n ∧ ¬(shardIdx n.id = i ∧ n.qualName = q) := by
  obtain ⟨d, hd, hnode, hfile, hout, hin⟩ := g.exists_fresh i
  -- a node of a file of its own takes the slot, and the file is evicted
  let m : Node := { id := d, kind := .kindFile, name := d, qualName := q, filePath := d }
  let ord : MapOrder := GoMap.RangeOrder.default
  have hadd : Op.Step g (.addNode m) (g.putNode m) := ⟨trivial, rfl⟩
  have hg₁ : Reachable (g.putNode m) := hg.step hadd
  have hevict : Op.Step (g.putNode m) (.evictFile ord d)
      (Graph.evictFile ord (g.putNode m) d).graph := ⟨trivial, rfl⟩
  have hinv := hg.weak.nodes
  have hinv₁ := hg₁.weak.nodes
  have hat₁ : ∀ id, (g.putNode m).nodeAt id = if id = d then some m else g.nodeAt id :=
    hinv.nodeAt_putNode m
  have hinFile : ∀ id, (g.putNode m).InFile d id ↔ id = d := by
    intro id
    constructor
    · rintro ⟨n, hn, hf⟩
      by_contra hid
      rw [hat₁, if_neg hid] at hn
      have hmem := hinv.mem_map_getFileNodes.mpr ⟨n, hn, hf⟩
      rw [hfile] at hmem
      cases hmem
    · rintro rfl
      exact ⟨m, by rw [hat₁, if_pos rfl], rfl⟩
  obtain ⟨hnodup, hl⟩ := hinv₁.evictFile_nodes d
  refine ⟨_, hg₁.step hevict, ⟨fun id => ?_, fun e => ?_⟩, fun n hn => ?_⟩
  · rw [hinv₁.nodeAt_evictFile, hat₁]
    by_cases hid : id = d
    · have hnone : g.nodeAt d = none := by rw [nodeAt, hnode, Option.map_none]
      rw [if_pos hid, hid, hnone]
      exact Option.filter_eq_none_iff.mpr fun a ha => by simp [← Option.some.inj ha, m]
    · rw [if_neg hid]
      cases hn : g.nodeAt id with
      | none => rfl
      | some n =>
        refine Option.filter_eq_some_iff.mpr ⟨rfl, decide_eq_true fun hf => ?_⟩
        exact hid ((hinFile id).mp ⟨n, by rw [hat₁, if_neg hid, hn], hf⟩)
  · refine Iff.trans ?_ (storedEdge_putNode g m e)
    have hids : ∀ id ∈ ((g.putNode m).getFileNodes d).map (g.putNode m).idOf, id = d :=
      fun id hid => (hinFile id).mp (hinv₁.mem_map_getFileNodes.mp hid)
    unfold Graph.evictFile Graph.evictNodes
    split
    · exact Iff.rfl
    · have hnodes := NodeTablesOnly.foldl_evictNode (fun n => (d, repoKey n))
        ((g.putNode m).getFileNodes d) (g.putNode m)
      have hput := NodeTablesOnly.addNode (g.newNode m).2 (g.newNode m).1
      refine exists_congr fun r => ?_
      rw [storedOut_evictEdgesLocked ord fun id hid => ?_, hnodes.storedOut,
        (EdgeTablesOnly.evictEdgesLocked _ ord _).edge, hnodes.edge]
      rw [hids id (List.mem_dedup.mp hid), getOutEdges_eq, getInEdges_eq, hnodes.outTables,
        hnodes.inTables]
      change Buckets.sliceAt shardIdx ((g.newNode m).2.addNode (g.newNode m).1).outTables d = [] ∧
        Buckets.sliceAt shardIdx ((g.newNode m).2.addNode (g.newNode m).1).inTables d = []
      rw [hput.outTables, hput.inTables]
      exact ⟨hout, hin⟩
  · obtain ⟨hn₁, hid⟩ := (hinv₁.holdsQual_evictNodes ord hnodup hl n).mp hn
    have hne : n.id ≠ d := fun hc => hid (hinv₁.mem_map_getFileNodes.mpr ((hinFile _).mpr hc))
    have hex := hadd.exchange hinv
    refine ⟨((hex.held n hn₁).resolve_right fun hc => hne (congrArg Node.id hc)).1, ?_⟩
    rintro ⟨hi, hnq⟩
    have hm : (g.putNode m).HoldsQual m := hex.put m rfl (by
      rw [qualKey, if_pos hq]
      exact Option.some_ne_none _)
    exact hne (congrArg Node.id (hn₁.eq hm (hi.trans hd.symm) hnq))

/-- **A qualified name can be looked up in vain**, whatever nodes have it. -/
theorem Reachable.exists_unqualified (hg : Reachable g) (q : String) :
    ∃ g', Reachable g' ∧ SameContent g g' ∧ g'.getNodeByQualName q = none := by
  by_cases hq : q = ""
  · refine ⟨g, hg, SameContent.refl g, Option.eq_none_iff_forall_ne_some.mpr fun r hr => ?_⟩
    obtain ⟨n, hn, hnq⟩ := hg.weak.nodes.exists_getNodeByQualName.mp ⟨r, hr⟩
    exact (hg.weak.nodes.of_holdsQual hn).2 (hnq.trans hq)
  -- one shard after the other
  have hshards : ∀ is : List (Fin numShards), ∃ g', Reachable g' ∧ SameContent g g' ∧
      ∀ n, g'.HoldsQual n → n.qualName = q → shardIdx n.id ∉ is := by
    intro is
    induction is with
    | nil => exact ⟨g, hg, SameContent.refl g, fun _ _ _ => List.not_mem_nil⟩
    | cons i is ih =>
      obtain ⟨g₁, hg₁, hsame, hfree⟩ := ih
      obtain ⟨g₂, hg₂, hsame₂, hreleased⟩ := hg₁.exists_released hq i
      refine ⟨g₂, hg₂, hsame.trans hsame₂, fun n hn hnq hmem => ?_⟩
      obtain ⟨hn₁, hnot⟩ := hreleased n hn
      rcases List.mem_cons.mp hmem with hi | hmem
      · exact hnot ⟨hi, hnq⟩
      · exact hfree n hn₁ hnq hmem
  obtain ⟨g', hg', hsame, hfree⟩ := hshards (List.finRange numShards)
  refine ⟨g', hg', hsame, Option.eq_none_iff_forall_ne_some.mpr fun r hr => ?_⟩
  obtain ⟨n, hn, hnq⟩ := hg'.weak.nodes.exists_getNodeByQualName.mp ⟨r, hr⟩
  exact hfree n hn hnq (List.mem_finRange _)

/-- **Any node of a qualified name can be looked up** by it. -/
theorem Reachable.exists_qualified (hg : Reachable g) {n : Node} (hn : g.nodeAt n.id = some n)
    (hq : n.qualName ≠ "") : ∃ g', Reachable g' ∧ SameContent g g' ∧
      (g'.getNodeByQualName n.qualName).map g'.node = some n := by
  obtain ⟨g₁, hg₁, hsame, hnone⟩ := hg.exists_unqualified n.qualName
  have hadd : Op.Step g₁ (.addNode n) (g₁.putNode n) := ⟨trivial, rfl⟩
  have hex := hadd.exchange hg₁.weak.nodes
  have hg₂ : Reachable (g₁.putNode n) := hg₁.step hadd
  have hat : g₁.nodeAt n.id = some n := (hsame.nodeAt _).trans hn
  refine ⟨g₁.putNode n, hg₂, hsame.trans (hg₁.weak.nodes.sameContent_putNode hat), ?_⟩
  have hholds : (g₁.putNode n).HoldsQual n := hex.put n rfl (by
    rw [qualKey, if_pos hq]
    exact Option.some_ne_none _)
  obtain ⟨r, hr⟩ := hg₂.weak.nodes.exists_getNodeByQualName.mpr ⟨n, hholds, rfl⟩
  obtain ⟨i, -, hi⟩ := List.exists_of_findSome?_eq_some hr
  have hheld := hg₂.weak.nodes.holdsQual hi
  rw [hr, Option.map_some]
  -- nothing else has held the name
  rcases hex.held _ hheld with ⟨hold, -⟩ | heq
  · have hname := (hg₂.weak.nodes.of_byQual hi).2.2.1
    obtain ⟨r', hr'⟩ := hg₁.weak.nodes.exists_getNodeByQualName.mpr ⟨_, hold, hname⟩
    rw [hnone] at hr'
    cases hr'
  · exact congrArg some heq

end Graph

end Gortex
