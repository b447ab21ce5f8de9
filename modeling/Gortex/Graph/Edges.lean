import Gortex.Lib.Fold
import Gortex.Graph.Store

/-!
# The edge tables

What the edge tables of a graph satisfy between two operations
(`Gortex.Graph.EdgeInv`), and what each operation on edges does to the set of
stored edges.

An edge is stored twice, in the out-edges of its source and in the in-edges of its
target, and an operation writes the two sides one after the other. So the facts
about one side, `Gortex.Graph.EdgeBase`, hold at every point of an operation, and
that the two sides agree is a separate clause of `Gortex.Graph.EdgeInv`, which
holds when the operation is through. The two sides of a pointer are
`Gortex.Graph.StoredOut` and `Gortex.Graph.StoredIn`; every operation is described
by what it does to these two predicates.
-/

namespace Gortex

namespace Graph

variable {g g' g'' : Graph}

/-! ### The tables of all shards -/

/-- The out-edge tables of all shards. -/
def outTables (g : Graph) : Fin numShards → Buckets String EdgeKey EdgeRef :=
  fun i => (g.shards i).outEdges

/-- The in-edge tables of all shards. -/
def inTables (g : Graph) : Fin numShards → Buckets String EdgeKey EdgeRef :=
  fun i => (g.shards i).inEdges

theorem getOutEdges_eq (g : Graph) (id : String) :
    g.getOutEdges id = Buckets.sliceAt shardIdx g.outTables id := rfl

theorem getInEdges_eq (g : Graph) (id : String) :
    g.getInEdges id = Buckets.sliceAt shardIdx g.inTables id := rfl

theorem outTables_modifyOut (g : Graph) (id : String)
    (f : Buckets String EdgeKey EdgeRef → Buckets String EdgeKey EdgeRef) :
    (g.modifyOut id f).outTables =
      Buckets.write g.outTables (shardIdx id) (f (g.outTables (shardIdx id))) := by
  funext i
  unfold modifyOut modifyShard outTables Buckets.write
  by_cases hi : i = shardIdx id <;> simp [hi]

theorem inTables_modifyOut (g : Graph) (id : String)
    (f : Buckets String EdgeKey EdgeRef → Buckets String EdgeKey EdgeRef) :
    (g.modifyOut id f).inTables = g.inTables := by
  funext i
  unfold modifyOut modifyShard inTables
  by_cases hi : i = shardIdx id <;> simp [hi]

theorem inTables_modifyIn (g : Graph) (id : String)
    (f : Buckets String EdgeKey EdgeRef → Buckets String EdgeKey EdgeRef) :
    (g.modifyIn id f).inTables =
      Buckets.write g.inTables (shardIdx id) (f (g.inTables (shardIdx id))) := by
  funext i
  unfold modifyIn modifyShard inTables Buckets.write
  by_cases hi : i = shardIdx id <;> simp [hi]

theorem outTables_modifyIn (g : Graph) (id : String)
    (f : Buckets String EdgeKey EdgeRef → Buckets String EdgeKey EdgeRef) :
    (g.modifyIn id f).outTables = g.outTables := by
  funext i
  unfold modifyIn modifyShard outTables
  by_cases hi : i = shardIdx id <;> simp [hi]

/-! ### Writes that touch edge tables only -/

/-- **Only the edge tables differ**: the memory and the node tables of the two
graphs are the same. -/
structure EdgeTablesOnly (g g' : Graph) : Prop where
  node : g'.node = g.node
  edge : g'.edge = g.edge
  nextNode : g'.nextNode = g.nextNode
  nextEdge : g'.nextEdge = g.nextEdge
  tables : ∀ i, (g'.shards i).toNodeTables = (g.shards i).toNodeTables

theorem EdgeTablesOnly.refl (g : Graph) : EdgeTablesOnly g g := ⟨rfl, rfl, rfl, rfl, fun _ => rfl⟩

theorem EdgeTablesOnly.trans (h : EdgeTablesOnly g g') (h' : EdgeTablesOnly g' g'') :
    EdgeTablesOnly g g'' :=
  ⟨h'.node.trans h.node, h'.edge.trans h.edge, h'.nextNode.trans h.nextNode,
    h'.nextEdge.trans h.nextEdge, fun i => (h'.tables i).trans (h.tables i)⟩

theorem EdgeTablesOnly.edgeKeyOf (h : EdgeTablesOnly g g') : g'.edgeKeyOf = g.edgeKeyOf := by
  unfold Graph.edgeKeyOf
  rw [h.edge]

theorem EdgeTablesOnly.modifyOut (g : Graph) (id : String)
    (f : Buckets String EdgeKey EdgeRef → Buckets String EdgeKey EdgeRef) :
    EdgeTablesOnly g (g.modifyOut id f) := by
  refine ⟨rfl, rfl, rfl, rfl, fun i => ?_⟩
  unfold Graph.modifyOut modifyShard
  by_cases hi : i = shardIdx id <;> simp [hi]

theorem EdgeTablesOnly.modifyIn (g : Graph) (id : String)
    (f : Buckets String EdgeKey EdgeRef → Buckets String EdgeKey EdgeRef) :
    EdgeTablesOnly g (g.modifyIn id f) := by
  refine ⟨rfl, rfl, rfl, rfl, fun i => ?_⟩
  unfold Graph.modifyIn modifyShard
  by_cases hi : i = shardIdx id <;> simp [hi]

theorem EdgeTablesOnly.removeOut (g : Graph) (id : String) (k : EdgeKey) :
    EdgeTablesOnly g (g.removeOut id k) :=
  EdgeTablesOnly.modifyOut ..

theorem EdgeTablesOnly.removeIn (g : Graph) (id : String) (k : EdgeKey) :
    EdgeTablesOnly g (g.removeIn id k) :=
  EdgeTablesOnly.modifyIn ..

/-- A loop whose every round touches edge tables only. -/
theorem EdgeTablesOnly.foldl {α : Type} {f : Graph → α → Graph}
    (hf : ∀ g a, EdgeTablesOnly g (f g a)) (l : List α) (g : Graph) :
    EdgeTablesOnly g (l.foldl f g) := by
  induction l generalizing g with
  | nil => exact EdgeTablesOnly.refl g
  | cons a l ih => exact (hf g a).trans (ih _)

/-! ### The invariant -/

/-- The edge behind `r` is among the out-edges of its source. -/
def StoredOut (g : Graph) (r : EdgeRef) : Prop := r ∈ g.getOutEdges (g.edge r).fromID

/-- The edge behind `r` is among the in-edges of its target. -/
def StoredIn (g : Graph) (r : EdgeRef) : Prop := r ∈ g.getInEdges (g.edge r).toID

instance (g : Graph) (r : EdgeRef) : Decidable (g.StoredOut r) :=
  inferInstanceAs (Decidable (r ∈ g.getOutEdges (g.edge r).fromID))

/-- **One side of the edge tables**: the sidecars are exact, and a bucket holds
allocated edges at its own ID. -/
structure EdgeBase (g : Graph) : Prop where
  out : Buckets.Sharded shardIdx g.edgeKeyOf g.outTables
  inn : Buckets.Sharded shardIdx g.edgeKeyOf g.inTables
  fromID_eq : ∀ {f r}, r ∈ g.getOutEdges f → (g.edge r).fromID = f
  toID_eq : ∀ {t r}, r ∈ g.getInEdges t → (g.edge r).toID = t
  out_lt : ∀ {f r}, r ∈ g.getOutEdges f → r.addr < g.nextEdge
  in_lt : ∀ {t r}, r ∈ g.getInEdges t → r.addr < g.nextEdge

/-- **The edge tables between two operations**: the two sides hold the same
pointers. -/
structure EdgeInv (g : Graph) : Prop extends EdgeBase g where
  both : ∀ r, g.StoredOut r ↔ g.StoredIn r

/-- **One side of the edge tables on the identities in `P`**: the sidecars are right, and
complete for the edges of these identities. -/
structure EdgeBaseOn (P : EdgeKey → Prop) (g : Graph) : Prop where
  out : Buckets.ShardedOn P shardIdx g.edgeKeyOf g.outTables
  inn : Buckets.ShardedOn P shardIdx g.edgeKeyOf g.inTables
  fromID_eq : ∀ {f r}, r ∈ g.getOutEdges f → (g.edge r).fromID = f
  toID_eq : ∀ {t r}, r ∈ g.getInEdges t → (g.edge r).toID = t
  out_lt : ∀ {f r}, r ∈ g.getOutEdges f → r.addr < g.nextEdge
  in_lt : ∀ {t r}, r ∈ g.getInEdges t → r.addr < g.nextEdge

/-- **The edge tables on the identities in `P`, between two operations.** -/
structure EdgeInvOn (P : EdgeKey → Prop) (g : Graph) : Prop extends EdgeBaseOn P g where
  both : ∀ r, P (g.edgeKeyOf r) → (g.StoredOut r ↔ g.StoredIn r)

variable {P : EdgeKey → Prop}

theorem edgeBase_iff : EdgeBase g ↔ EdgeBaseOn (fun _ => True) g :=
  ⟨fun h => ⟨Buckets.sharded_iff.mp h.out, Buckets.sharded_iff.mp h.inn, h.fromID_eq, h.toID_eq,
    h.out_lt, h.in_lt⟩,
    fun h => ⟨Buckets.sharded_iff.mpr h.out, Buckets.sharded_iff.mpr h.inn, h.fromID_eq, h.toID_eq,
    h.out_lt, h.in_lt⟩⟩

theorem edgeInv_iff : EdgeInv g ↔ EdgeInvOn (fun _ => True) g :=
  ⟨fun h => ⟨edgeBase_iff.mp h.toEdgeBase, fun r _ => h.both r⟩,
    fun h => ⟨edgeBase_iff.mpr h.toEdgeBaseOn, fun r => h.both r trivial⟩⟩

theorem EdgeBaseOn.mem_getOutEdges (h : EdgeBaseOn P g) {f : String} {r : EdgeRef} :
    r ∈ g.getOutEdges f ↔ (g.edge r).fromID = f ∧ g.StoredOut r := by
  constructor
  · intro hr
    obtain rfl := h.fromID_eq hr
    exact ⟨rfl, hr⟩
  · rintro ⟨rfl, hr⟩
    exact hr

theorem EdgeBaseOn.mem_getInEdges (h : EdgeBaseOn P g) {t : String} {r : EdgeRef} :
    r ∈ g.getInEdges t ↔ (g.edge r).toID = t ∧ g.StoredIn r := by
  constructor
  · intro hr
    obtain rfl := h.toID_eq hr
    exact ⟨rfl, hr⟩
  · rintro ⟨rfl, hr⟩
    exact hr

/-- **Two stored edges of one identity in `P` are one pointer.** -/
theorem EdgeBaseOn.eq_of_key (h : EdgeBaseOn P g) {r r' : EdgeRef} (hr : g.StoredOut r)
    (hr' : g.StoredOut r') (hP : P (g.edgeKeyOf r)) (hk : g.edgeKeyOf r = g.edgeKeyOf r') :
    r = r' := by
  have hf : (g.edge r').fromID = (g.edge r).fromID := (congrArg EdgeKey.fromID hk).symm
  have hmem : r' ∈ g.getOutEdges (g.edge r).fromID := h.mem_getOutEdges.mpr ⟨hf, hr'⟩
  exact (h.out.exact _ _).eq_of_ident hr hmem hP hk

/-- A graph whose edge memory and edge tables are those of another one. -/
theorem EdgeBaseOn.of_tables (h : EdgeBaseOn P g) (hedge : g'.edge = g.edge)
    (hnext : g'.nextEdge = g.nextEdge) (hout : g'.outTables = g.outTables)
    (hin : g'.inTables = g.inTables) : EdgeBaseOn P g' := by
  have hkey : g'.edgeKeyOf = g.edgeKeyOf := by
    unfold edgeKeyOf
    rw [hedge]
  have ho : ∀ f, g'.getOutEdges f = g.getOutEdges f := fun f => by
    rw [getOutEdges_eq, getOutEdges_eq, hout]
  have hi : ∀ t, g'.getInEdges t = g.getInEdges t := fun t => by
    rw [getInEdges_eq, getInEdges_eq, hin]
  refine ⟨?_, ?_, ?_, ?_, ?_, ?_⟩
  · rw [hkey, hout]
    exact h.out
  · rw [hkey, hin]
    exact h.inn
  · intro f r hr
    rw [hedge]
    rw [ho] at hr
    exact h.fromID_eq hr
  · intro t r hr
    rw [hedge]
    rw [hi] at hr
    exact h.toID_eq hr
  · intro f r hr
    rw [hnext]
    rw [ho] at hr
    exact h.out_lt hr
  · intro t r hr
    rw [hnext]
    rw [hi] at hr
    exact h.in_lt hr

theorem EdgeInvOn.of_tables (h : EdgeInvOn P g) (hedge : g'.edge = g.edge)
    (hnext : g'.nextEdge = g.nextEdge) (hout : g'.outTables = g.outTables)
    (hin : g'.inTables = g.inTables) : EdgeInvOn P g' := by
  refine ⟨h.toEdgeBaseOn.of_tables hedge hnext hout hin, fun r hP => ?_⟩
  rw [edgeKeyOf, hedge] at hP
  rw [StoredOut, StoredIn, hedge, getOutEdges_eq, getInEdges_eq, hout, hin]
  exact h.both r hP

theorem EdgeInv.of_tables (h : EdgeInv g) (hedge : g'.edge = g.edge)
    (hnext : g'.nextEdge = g.nextEdge) (hout : g'.outTables = g.outTables)
    (hin : g'.inTables = g.inTables) : EdgeInv g' :=
  edgeInv_iff.mpr ((edgeInv_iff.mp h).of_tables hedge hnext hout hin)

theorem EdgeBase.mem_getOutEdges (h : EdgeBase g) {f : String} {r : EdgeRef} :
    r ∈ g.getOutEdges f ↔ (g.edge r).fromID = f ∧ g.StoredOut r :=
  (edgeBase_iff.mp h).mem_getOutEdges

theorem EdgeBase.mem_getInEdges (h : EdgeBase g) {t : String} {r : EdgeRef} :
    r ∈ g.getInEdges t ↔ (g.edge r).toID = t ∧ g.StoredIn r :=
  (edgeBase_iff.mp h).mem_getInEdges

/-- **Two stored edges of one key are one pointer.** -/
theorem EdgeBase.eq_of_key (h : EdgeBase g) {r r' : EdgeRef} (hr : g.StoredOut r)
    (hr' : g.StoredOut r') (hk : g.edgeKeyOf r = g.edgeKeyOf r') : r = r' :=
  (edgeBase_iff.mp h).eq_of_key hr hr' trivial hk

theorem EdgeBaseOn.new : EdgeBaseOn P Graph.new :=
  ⟨Buckets.ShardedOn.empty, Buckets.ShardedOn.empty,
    fun hr => absurd hr List.not_mem_nil, fun hr => absurd hr List.not_mem_nil,
    fun hr => absurd hr List.not_mem_nil, fun hr => absurd hr List.not_mem_nil⟩

theorem EdgeInvOn.new : EdgeInvOn P Graph.new :=
  ⟨EdgeBaseOn.new, fun _ _ => iff_of_false List.not_mem_nil List.not_mem_nil⟩

theorem EdgeInv.new : EdgeInv Graph.new := edgeInv_iff.mpr EdgeInvOn.new

/-! ### Writing one side

Each of the four writes keeps `EdgeBaseOn`, and touches one of the two predicates
only. -/

/-- A write of the out-side that leaves the in-side and the memory alone. -/
theorem EdgeBaseOn.writeOut (h : EdgeBaseOn P g) {id : String}
    {f : Buckets String EdgeKey EdgeRef → Buckets String EdgeKey EdgeRef}
    (hsh : Buckets.ShardedOn P shardIdx g.edgeKeyOf (g.modifyOut id f).outTables)
    (hmem : ∀ {k r}, r ∈ (g.modifyOut id f).getOutEdges k →
      (g.edge r).fromID = k ∧ r.addr < g.nextEdge) :
    EdgeBaseOn P (g.modifyOut id f) := by
  have hi : ∀ t, (g.modifyOut id f).getInEdges t = g.getInEdges t := fun t => by
    rw [getInEdges_eq, getInEdges_eq, inTables_modifyOut]
  refine ⟨hsh, ?_, fun hr => (hmem hr).1, ?_, fun hr => (hmem hr).2, ?_⟩
  · rw [inTables_modifyOut]
    exact h.inn
  · intro t r hr
    exact h.toID_eq (hi t ▸ hr)
  · intro t r hr
    exact h.in_lt (hi t ▸ hr)

/-- A write of the in-side that leaves the out-side and the memory alone. -/
theorem EdgeBaseOn.writeIn (h : EdgeBaseOn P g) {id : String}
    {f : Buckets String EdgeKey EdgeRef → Buckets String EdgeKey EdgeRef}
    (hsh : Buckets.ShardedOn P shardIdx g.edgeKeyOf (g.modifyIn id f).inTables)
    (hmem : ∀ {k r}, r ∈ (g.modifyIn id f).getInEdges k →
      (g.edge r).toID = k ∧ r.addr < g.nextEdge) :
    EdgeBaseOn P (g.modifyIn id f) := by
  have ho : ∀ t, (g.modifyIn id f).getOutEdges t = g.getOutEdges t := fun t => by
    rw [getOutEdges_eq, getOutEdges_eq, outTables_modifyIn]
  refine ⟨?_, hsh, ?_, fun hr => (hmem hr).1, ?_, fun hr => (hmem hr).2⟩
  · rw [outTables_modifyIn]
    exact h.out
  · intro t r hr
    exact h.fromID_eq (ho t ▸ hr)
  · intro t r hr
    exact h.out_lt (ho t ▸ hr)

theorem storedIn_modifyOut (g : Graph) (id : String)
    (f : Buckets String EdgeKey EdgeRef → Buckets String EdgeKey EdgeRef) (r : EdgeRef) :
    (g.modifyOut id f).StoredIn r ↔ g.StoredIn r := by
  unfold StoredIn
  rw [getInEdges_eq, inTables_modifyOut]
  rfl

theorem storedOut_modifyIn (g : Graph) (id : String)
    (f : Buckets String EdgeKey EdgeRef → Buckets String EdgeKey EdgeRef) (r : EdgeRef) :
    (g.modifyIn id f).StoredOut r ↔ g.StoredOut r := by
  unfold StoredOut
  rw [getOutEdges_eq, outTables_modifyIn]
  rfl

section Add

variable {r : EdgeRef}

/-- The out-side of an insertion. -/
def addOut (g : Graph) (r : EdgeRef) : Graph :=
  g.modifyOut (g.edge r).fromID fun out => out.add (g.edge r).fromID (g.edgeKeyOf r) r

/-- The in-side of an insertion. -/
def addIn (g : Graph) (r : EdgeRef) : Graph :=
  g.modifyIn (g.edge r).toID fun inn => inn.add (g.edge r).toID (g.edgeKeyOf r) r

theorem addEdge_eq (g : Graph) (r : EdgeRef) : g.addEdge r = (g.addOut r).addIn r := rfl

theorem EdgeBaseOn.storedOut_addOut_self (h : EdgeBaseOn P g) (r : EdgeRef) :
    (g.addOut r).StoredOut r := by
  change r ∈ (g.addOut r).getOutEdges (g.edge r).fromID
  rw [getOutEdges_eq, addOut, outTables_modifyOut]
  exact h.out.mem_add_self _ _

theorem EdgeBaseOn.storedOut_addOut (h : EdgeBaseOn P g) {r' : EdgeRef} (hP : P (g.edgeKeyOf r')) :
    (g.addOut r).StoredOut r' ↔ r' = r ∨ (g.StoredOut r' ∧ g.edgeKeyOf r' ≠ g.edgeKeyOf r) := by
  change r' ∈ (g.addOut r).getOutEdges (g.edge r').fromID ↔ _
  rw [getOutEdges_eq, addOut, outTables_modifyOut, h.out.mem_add hP]
  constructor
  · rintro (⟨-, rfl⟩ | ⟨hm, hn⟩)
    · exact Or.inl rfl
    · exact Or.inr ⟨hm, fun hk => hn ⟨congrArg EdgeKey.fromID hk, hk⟩⟩
  · rintro (rfl | ⟨hm, hn⟩)
    · exact Or.inl ⟨rfl, rfl⟩
    · exact Or.inr ⟨hm, fun hk => hn hk.2⟩

theorem EdgeBaseOn.storedIn_addIn (h : EdgeBaseOn P g) {r' : EdgeRef} (hP : P (g.edgeKeyOf r')) :
    (g.addIn r).StoredIn r' ↔ r' = r ∨ (g.StoredIn r' ∧ g.edgeKeyOf r' ≠ g.edgeKeyOf r) := by
  change r' ∈ (g.addIn r).getInEdges (g.edge r').toID ↔ _
  rw [getInEdges_eq, addIn, inTables_modifyIn, h.inn.mem_add hP]
  constructor
  · rintro (⟨-, rfl⟩ | ⟨hm, hn⟩)
    · exact Or.inl rfl
    · exact Or.inr ⟨hm, fun hk => hn ⟨congrArg EdgeKey.toID hk, hk⟩⟩
  · rintro (rfl | ⟨hm, hn⟩)
    · exact Or.inl ⟨rfl, rfl⟩
    · exact Or.inr ⟨hm, fun hk => hn hk.2⟩

theorem EdgeBaseOn.addOut (h : EdgeBaseOn P g) (hr : r.addr < g.nextEdge) :
    EdgeBaseOn P (g.addOut r) := by
  refine h.writeOut ?_ fun {k r'} hr' => ?_
  · rw [outTables_modifyOut]
    exact h.out.add _ _
  · rw [getOutEdges_eq, outTables_modifyOut] at hr'
    rcases Buckets.mem_sliceAt_of_mem_add hr' with ⟨rfl, rfl⟩ | hm
    · exact ⟨rfl, hr⟩
    · exact ⟨h.fromID_eq hm, h.out_lt hm⟩

theorem EdgeBaseOn.addIn (h : EdgeBaseOn P g) (hr : r.addr < g.nextEdge) :
    EdgeBaseOn P (g.addIn r) := by
  refine h.writeIn ?_ fun {k r'} hr' => ?_
  · rw [inTables_modifyIn]
    exact h.inn.add _ _
  · rw [getInEdges_eq, inTables_modifyIn] at hr'
    rcases Buckets.mem_sliceAt_of_mem_add hr' with ⟨rfl, rfl⟩ | hm
    · exact ⟨rfl, hr⟩
    · exact ⟨h.toID_eq hm, h.in_lt hm⟩

end Add

section Remove

theorem EdgeBaseOn.storedOut_removeOut (h : EdgeBaseOn P g) (id : String) (k : EdgeKey)
    (hid : k.fromID = id) {r : EdgeRef} (hP : P (g.edgeKeyOf r)) :
    (g.removeOut id k).StoredOut r ↔ g.StoredOut r ∧ g.edgeKeyOf r ≠ k := by
  subst hid
  change r ∈ (g.removeOut k.fromID k).getOutEdges (g.edge r).fromID ↔ _
  rw [getOutEdges_eq, removeOut, outTables_modifyOut, h.out.mem_remove hP]
  refine and_congr_right fun _ => not_congr ⟨And.right, fun hk => ⟨?_, hk⟩⟩
  exact congrArg EdgeKey.fromID hk

theorem EdgeBaseOn.storedIn_removeIn (h : EdgeBaseOn P g) (id : String) (k : EdgeKey)
    (hid : k.toID = id) {r : EdgeRef} (hP : P (g.edgeKeyOf r)) :
    (g.removeIn id k).StoredIn r ↔ g.StoredIn r ∧ g.edgeKeyOf r ≠ k := by
  subst hid
  change r ∈ (g.removeIn k.toID k).getInEdges (g.edge r).toID ↔ _
  rw [getInEdges_eq, removeIn, inTables_modifyIn, h.inn.mem_remove hP]
  refine and_congr_right fun _ => not_congr ⟨And.right, fun hk => ⟨?_, hk⟩⟩
  exact congrArg EdgeKey.toID hk

theorem EdgeBaseOn.removeOut (h : EdgeBaseOn P g) (id : String) (k : EdgeKey) :
    EdgeBaseOn P (g.removeOut id k) := by
  refine h.writeOut ?_ fun {k' r} hr => ?_
  · rw [outTables_modifyOut]
    exact h.out.remove _ _
  · rw [getOutEdges_eq, outTables_modifyOut] at hr
    have hm := Buckets.mem_sliceAt_of_mem_remove hr
    exact ⟨h.fromID_eq hm, h.out_lt hm⟩

theorem EdgeBaseOn.removeIn (h : EdgeBaseOn P g) (id : String) (k : EdgeKey) :
    EdgeBaseOn P (g.removeIn id k) := by
  refine h.writeIn ?_ fun {k' r} hr => ?_
  · rw [inTables_modifyIn]
    exact h.inn.remove _ _
  · rw [getInEdges_eq, inTables_modifyIn] at hr
    have hm := Buckets.mem_sliceAt_of_mem_remove hr
    exact ⟨h.toID_eq hm, h.in_lt hm⟩

end Remove

section Drop

variable {id : String}

theorem storedOut_drop {r : EdgeRef} :
    (g.modifyOut id fun out => out.drop id).StoredOut r ↔
      g.StoredOut r ∧ (g.edge r).fromID ≠ id := by
  change r ∈ (g.modifyOut id fun out => out.drop id).getOutEdges (g.edge r).fromID ↔ _
  rw [getOutEdges_eq, outTables_modifyOut, Buckets.mem_sliceAt_drop]
  rfl

theorem storedIn_drop {r : EdgeRef} :
    (g.modifyIn id fun inn => inn.drop id).StoredIn r ↔ g.StoredIn r ∧ (g.edge r).toID ≠ id := by
  change r ∈ (g.modifyIn id fun inn => inn.drop id).getInEdges (g.edge r).toID ↔ _
  rw [getInEdges_eq, inTables_modifyIn, Buckets.mem_sliceAt_drop]
  rfl

theorem EdgeBaseOn.dropOut (h : EdgeBaseOn P g) (id : String) :
    EdgeBaseOn P (g.modifyOut id fun out => out.drop id) := by
  refine h.writeOut ?_ fun {k' r} hr => ?_
  · rw [outTables_modifyOut]
    exact h.out.drop _
  · rw [getOutEdges_eq, outTables_modifyOut, Buckets.mem_sliceAt_drop] at hr
    exact ⟨h.fromID_eq hr.1, h.out_lt hr.1⟩

theorem EdgeBaseOn.dropIn (h : EdgeBaseOn P g) (id : String) :
    EdgeBaseOn P (g.modifyIn id fun inn => inn.drop id) := by
  refine h.writeIn ?_ fun {k' r} hr => ?_
  · rw [inTables_modifyIn]
    exact h.inn.drop _
  · rw [getInEdges_eq, inTables_modifyIn, Buckets.mem_sliceAt_drop] at hr
    exact ⟨h.toID_eq hr.1, h.in_lt hr.1⟩

end Drop

/-! ### The operations -/

/-- Allocating an edge stores nothing. -/
theorem EdgeInvOn.newEdge (h : EdgeInvOn P g) (e : Edge) : EdgeInvOn P (g.newEdge e).2 := by
  have hne : ∀ {r : EdgeRef}, r.addr < g.nextEdge → r ≠ ⟨g.nextEdge⟩ := fun hlt hc => by
    rw [hc] at hlt
    exact lt_irrefl _ hlt
  have hedge : ∀ {r : EdgeRef}, r.addr < g.nextEdge → (g.newEdge e).2.edge r = g.edge r :=
    fun hlt => if_neg (hne hlt)
  have hout : ∀ {f r}, r ∈ g.getOutEdges f → (g.newEdge e).2.edge r = g.edge r :=
    fun hr => hedge (h.out_lt hr)
  have hin : ∀ {t r}, r ∈ g.getInEdges t → (g.newEdge e).2.edge r = g.edge r :=
    fun hr => hedge (h.in_lt hr)
  have hlt : ∀ {n}, n < g.nextEdge → n < (g.newEdge e).2.nextEdge := fun hn => Nat.lt_succ_of_lt hn
  refine ⟨⟨?_, ?_, ?_, ?_, fun hr => hlt (h.out_lt hr), fun hr => hlt (h.in_lt hr)⟩, ?_⟩
  · exact h.out.congr fun k r hr => congrArg keyOf (hout hr)
  · exact h.inn.congr fun k r hr => congrArg keyOf (hin hr)
  · intro f r hr
    rw [hout hr]
    exact h.fromID_eq hr
  · intro t r hr
    rw [hin hr]
    exact h.toID_eq hr
  · intro r hP
    by_cases hr : r.addr < g.nextEdge
    · rw [edgeKeyOf, hedge hr] at hP
      change r ∈ g.getOutEdges _ ↔ r ∈ g.getInEdges _
      rw [hedge hr]
      exact h.both r hP
    · exact iff_of_false (fun hm => hr (h.out_lt hm)) fun hm => hr (h.in_lt hm)

theorem EdgeInvOn.storedOut_addEdge_self (h : EdgeInvOn P g) (r : EdgeRef) :
    (g.addEdge r).StoredOut r := by
  rw [addEdge_eq, addIn, storedOut_modifyIn]
  exact h.storedOut_addOut_self r

/-- **What AddEdge stores**: the edge, in the place of the one of its key. -/
theorem EdgeInvOn.storedOut_addEdge (h : EdgeInvOn P g) {r r' : EdgeRef} (hP : P (g.edgeKeyOf r')) :
    (g.addEdge r).StoredOut r' ↔ r' = r ∨ (g.StoredOut r' ∧ g.edgeKeyOf r' ≠ g.edgeKeyOf r) := by
  rw [addEdge_eq, addIn, storedOut_modifyIn]
  exact h.storedOut_addOut hP

theorem EdgeInvOn.addEdge (h : EdgeInvOn P g) {r : EdgeRef} (hr : r.addr < g.nextEdge) :
    EdgeInvOn P (g.addEdge r) := by
  have hb : EdgeBaseOn P (g.addOut r) := h.toEdgeBaseOn.addOut hr
  refine ⟨hb.addIn hr, fun r' hP => ?_⟩
  have hP' : P (g.edgeKeyOf r') := hP
  rw [h.storedOut_addEdge hP', addEdge_eq, hb.storedIn_addIn hP', Graph.addOut, storedIn_modifyOut,
    h.both r' hP']
  rfl

/-- **What RemoveEdge leaves**: every edge of another key than the one found. -/
theorem EdgeInvOn.removeEdge (h : EdgeInvOn P g) (fromID toID : String) (kind : EdgeKind) :
    EdgeInvOn P (g.removeEdge fromID toID kind).1 ∧
      EdgeTablesOnly g (g.removeEdge fromID toID kind).1 := by
  unfold Graph.removeEdge
  split
  · exact ⟨h, EdgeTablesOnly.refl g⟩
  · rename_i target hfind
    have hmem := List.mem_of_find?_eq_some hfind
    have hto : (g.edge target).toID = toID := by
      have := List.find?_some hfind
      simp only [decide_eq_true_eq] at this
      exact this.1
    obtain rfl := h.fromID_eq hmem
    subst hto
    refine ⟨⟨(h.toEdgeBaseOn.removeOut _ _).removeIn _ _, fun r hP => ?_⟩,
      (EdgeTablesOnly.removeOut ..).trans (EdgeTablesOnly.removeIn ..)⟩
    have hb := h.toEdgeBaseOn.removeOut (g.edge target).fromID (g.edgeKeyOf target)
    have hkey := (EdgeTablesOnly.removeOut g (g.edge target).fromID (g.edgeKeyOf target)).edgeKeyOf
    simp only
    have hP' : P (g.edgeKeyOf r) := hP
    rw [hb.storedIn_removeIn (g.edge target).toID (g.edgeKeyOf target) rfl hP', hkey, Graph.removeIn,
      storedOut_modifyIn, h.storedOut_removeOut (g.edge target).fromID (g.edgeKeyOf target) rfl hP',
      Graph.removeOut, storedIn_modifyOut, h.both r hP']

/-! ### Retargeting a stored edge

The resolvers write the target of a stored edge and call ReindexEdge with the
target before. Between the two the tables are not those of the memory, so the two
writes are one operation here. -/

/-- Write the edge behind `r` and reindex it. -/
def retarget (g : Graph) (r : EdgeRef) (e : Edge) : Graph :=
  (g.setEdge r e).reindexEdge r (g.edge r).toID

/-- The two edges differ at most in their target and outside their identity, as
the edge before and after a resolver has seen it. -/
structure SameSite (e e' : Edge) : Prop where
  fromID : e'.fromID = e.fromID
  kind : e'.kind = e.kind
  filePath : e'.filePath = e.filePath
  line : e'.line = e.line

theorem SameSite.keyOf_eq {e e' : Edge} (h : SameSite e e') :
    keyOf e = { keyOf e' with toID := e.toID } := by
  simp [keyOf, h.fromID, h.kind, h.filePath, h.line]

section Retarget

variable {r : EdgeRef} {e : Edge}

theorem setEdge_edge_self (g : Graph) (r : EdgeRef) (e : Edge) : (g.setEdge r e).edge r = e :=
  if_pos rfl

theorem setEdge_edge_of_ne (g : Graph) {r r' : EdgeRef} (e : Edge) (h : r' ≠ r) :
    (g.setEdge r e).edge r' = g.edge r' :=
  if_neg h

/-- Retargeting writes the memory of its own edge, and edge tables. -/
theorem EdgeTablesOnly.retarget (g : Graph) (r : EdgeRef) (e : Edge) :
    EdgeTablesOnly (g.setEdge r e) (g.retarget r e) := by
  unfold Graph.retarget reindexEdge
  simp only
  split
  · exact EdgeTablesOnly.refl _
  · exact ((EdgeTablesOnly.modifyOut ..).trans (EdgeTablesOnly.removeIn ..)).trans
      (EdgeTablesOnly.modifyIn ..)

/-- Writing an edge whose identity stays. -/
theorem EdgeInvOn.setEdge_of_key (h : EdgeInvOn P g) (hk : keyOf e = g.edgeKeyOf r) :
    EdgeInvOn P (g.setEdge r e) := by
  have hkey : (g.setEdge r e).edgeKeyOf = g.edgeKeyOf := by
    funext r'
    by_cases hr : r' = r
    · rw [hr, ← hk, edgeKeyOf, setEdge_edge_self]
    · rw [edgeKeyOf, setEdge_edge_of_ne g e hr, edgeKeyOf]
  have hfrom : ∀ r', ((g.setEdge r e).edge r').fromID = (g.edge r').fromID := fun r' =>
    congrArg EdgeKey.fromID (congrFun hkey r')
  have hto : ∀ r', ((g.setEdge r e).edge r').toID = (g.edge r').toID := fun r' =>
    congrArg EdgeKey.toID (congrFun hkey r')
  refine ⟨⟨?_, ?_, fun hr => ?_, fun hr => ?_, h.out_lt, h.in_lt⟩, fun r' hP => ?_⟩
  · rw [hkey]
    exact h.out
  · rw [hkey]
    exact h.inn
  · rw [hfrom]
    exact h.fromID_eq hr
  · rw [hto]
    exact h.toID_eq hr
  · rw [hkey] at hP
    rw [StoredOut, StoredIn, hfrom, hto]
    exact h.both r' hP

/-- The point of ReindexEdge at which the out-side is rekeyed and the edge is out
of the in-edges of its old target. -/
def unlink (g : Graph) (r : EdgeRef) (e : Edge) : Graph :=
  ((g.setEdge r e).modifyOut (g.edge r).fromID fun out =>
    out.rekey (g.edge r).fromID (g.edgeKeyOf r) (keyOf e)).removeIn (g.edge r).toID (g.edgeKeyOf r)

theorem unlink_edge (g : Graph) (r : EdgeRef) (e : Edge) :
    (g.unlink r e).edge = (g.setEdge r e).edge := rfl

theorem retarget_eq_unlink (hs : SameSite (g.edge r) e) (hto : (g.edge r).toID ≠ e.toID) :
    g.retarget r e = (g.unlink r e).addIn r := by
  have hold : { keyOf e with toID := (g.edge r).toID } = g.edgeKeyOf r := hs.keyOf_eq.symm
  rw [retarget, reindexEdge, addIn, edgeKeyOf, unlink_edge, setEdge_edge_self]
  simp only
  rw [if_neg hto, hold, hs.fromID, unlink]

theorem edgeKeyOf_unlink_self : (g.unlink r e).edgeKeyOf r = keyOf e :=
  congrArg keyOf (setEdge_edge_self g r e)

theorem edgeKeyOf_unlink_of_ne {r' : EdgeRef} (h : r' ≠ r) :
    (g.unlink r e).edgeKeyOf r' = g.edgeKeyOf r' :=
  congrArg keyOf (setEdge_edge_of_ne g e h)

theorem outTables_unlink (g : Graph) (r : EdgeRef) (e : Edge) :
    (g.unlink r e).outTables = Buckets.write g.outTables (shardIdx (g.edge r).fromID)
      ((g.outTables (shardIdx (g.edge r).fromID)).rekey (g.edge r).fromID (g.edgeKeyOf r)
        (keyOf e)) := by
  rw [unlink, removeIn, outTables_modifyIn, outTables_modifyOut]
  rfl

theorem EdgeBaseOn.inTables_unlink (h : EdgeBaseOn P g) (hP : P (g.edgeKeyOf r)) :
    (g.unlink r e).inTables = Buckets.write g.inTables (shardIdx (g.edge r).toID)
      ((g.inTables (shardIdx (g.edge r).toID)).remove g.edgeKeyOf (g.edge r).toID
        (g.edgeKeyOf r)) := by
  rw [unlink, Graph.removeIn, inTables_modifyIn, inTables_modifyOut]
  congr 1
  refine (h.inn.exact _).remove_congr hP fun a _ hne => ?_
  refine edgeKeyOf_unlink_of_ne (e := e) fun hc => hne ?_
  rw [hc]

theorem getOutEdges_unlink (f : String) : (g.unlink r e).getOutEdges f = g.getOutEdges f := by
  rw [getOutEdges_eq, outTables_unlink, Buckets.sliceAt_rekey]
  rfl

/-- The edge is out of the in-edges, and no other edge of an identity in `P`. -/
theorem EdgeInvOn.mem_getInEdges_unlink (h : EdgeInvOn P g) (hr : g.StoredOut r)
    (hP : P (g.edgeKeyOf r)) {t : String} {r' : EdgeRef} (hP' : P (g.edgeKeyOf r')) :
    r' ∈ (g.unlink r e).getInEdges t ↔ r' ∈ g.getInEdges t ∧ r' ≠ r := by
  rw [getInEdges_eq, h.inTables_unlink hP, h.inn.mem_remove hP']
  refine and_congr_right fun hm => not_congr ⟨fun hc => ?_, fun hc => ?_⟩
  · exact h.eq_of_key ((h.both r' hP').mpr (h.mem_getInEdges.mp hm).2) hr hP' hc.2
  · rw [hc] at hm ⊢
    exact ⟨(h.toID_eq hm).symm, rfl⟩

/-- What is left in the in-edges was there, and is not the edge. -/
theorem EdgeInvOn.of_mem_getInEdges_unlink (h : EdgeInvOn P g) (hr : g.StoredOut r)
    (hP : P (g.edgeKeyOf r)) {t : String} {r' : EdgeRef} (hm : r' ∈ (g.unlink r e).getInEdges t) :
    r' ∈ g.getInEdges t ∧ r' ≠ r := by
  have hm' := hm
  rw [getInEdges_eq, h.inTables_unlink hP] at hm'
  refine ⟨Buckets.mem_sliceAt_of_mem_remove hm', fun hc => ?_⟩
  rw [hc] at hm
  exact ((h.mem_getInEdges_unlink hr hP hP).mp hm).2 rfl

theorem EdgeInvOn.unlink (h : EdgeInvOn P g) (hr : g.StoredOut r) (hP : P (g.edgeKeyOf r))
    (hs : SameSite (g.edge r) e)
    (hnew : P (keyOf e) → ∀ r', g.StoredOut r' → g.edgeKeyOf r' ≠ keyOf e) :
    EdgeBaseOn P (g.unlink r e) := by
  refine ⟨?_, ?_, fun {f r'} hm => ?_, fun {t r'} hm => ?_, fun {f r'} hm => ?_,
    fun {t r'} hm => h.in_lt (h.of_mem_getInEdges_unlink hr hP hm).1⟩
  · rw [outTables_unlink]
    have hkey : keyOf e = (g.unlink r e).edgeKeyOf r := edgeKeyOf_unlink_self.symm
    rw [hkey]
    refine h.out.rekey hr hP (fun hPe c hc => ?_) (fun c hc => edgeKeyOf_unlink_of_ne hc)
      fun f hf hm => hf (h.fromID_eq hm).symm
    rw [← hkey] at hPe ⊢
    exact hnew hPe c (h.mem_getOutEdges.mp hc).2
  · rw [h.inTables_unlink hP]
    refine (h.inn.remove _ _).congr fun t r' hm => edgeKeyOf_unlink_of_ne ?_
    rw [← h.inTables_unlink (e := e) hP] at hm
    exact (h.of_mem_getInEdges_unlink hr hP hm).2
  · rw [getOutEdges_unlink] at hm
    rw [unlink_edge]
    by_cases hne : r' = r
    · rw [hne, setEdge_edge_self, hs.fromID, ← hne]
      exact h.fromID_eq hm
    · rw [setEdge_edge_of_ne g e hne]
      exact h.fromID_eq hm
  · obtain ⟨hm', hne⟩ := h.of_mem_getInEdges_unlink hr hP hm
    rw [unlink_edge, setEdge_edge_of_ne g e hne]
    exact h.toID_eq hm'
  · rw [getOutEdges_unlink] at hm
    exact h.out_lt hm

theorem storedOut_unlink (hs : SameSite (g.edge r) e) (r' : EdgeRef) :
    (g.unlink r e).StoredOut r' ↔ g.StoredOut r' := by
  rw [StoredOut, getOutEdges_unlink, unlink_edge]
  by_cases hne : r' = r
  · rw [hne, setEdge_edge_self, hs.fromID]
    rfl
  · rw [setEdge_edge_of_ne g e hne]
    rfl

theorem EdgeInvOn.storedIn_unlink (h : EdgeInvOn P g) (hr : g.StoredOut r)
    (hP : P (g.edgeKeyOf r)) (r' : EdgeRef) (hP' : P (g.edgeKeyOf r')) (hne : r' ≠ r) :
    (g.unlink r e).StoredIn r' ↔ g.StoredIn r' := by
  rw [StoredIn, unlink_edge, setEdge_edge_of_ne g e hne, h.mem_getInEdges_unlink hr hP hP']
  exact and_iff_left hne

/-- Retargeting stores the pointers that were stored. -/
theorem storedOut_retarget (hs : SameSite (g.edge r) e) (r' : EdgeRef) :
    (g.retarget r e).StoredOut r' ↔ g.StoredOut r' := by
  by_cases hto : (g.edge r).toID = e.toID
  · have heq : g.retarget r e = g.setEdge r e := by
      rw [Graph.retarget, reindexEdge, setEdge_edge_self]
      exact if_pos hto
    rw [heq]
    by_cases hne : r' = r
    · rw [StoredOut, hne, setEdge_edge_self, hs.fromID]
      rfl
    · rw [StoredOut, setEdge_edge_of_ne g e hne]
      rfl
  · rw [retarget_eq_unlink hs hto, Graph.addIn, storedOut_modifyIn]
    exact storedOut_unlink hs r'

/-- **Retargeting keeps the edge tables right** if the old identity is in `P`, and no other
stored edge has the new one already in case that is in `P` too. -/
theorem EdgeInvOn.retarget (h : EdgeInvOn P g) (hr : g.StoredOut r) (hP : P (g.edgeKeyOf r))
    (hs : SameSite (g.edge r) e)
    (hfree : P (keyOf e) → ∀ r', g.StoredOut r' → r' ≠ r → g.edgeKeyOf r' ≠ keyOf e) :
    EdgeInvOn P (g.retarget r e) := by
  by_cases hto : (g.edge r).toID = e.toID
  · -- the target stays, and so does the identity
    have hk : keyOf e = g.edgeKeyOf r := by
      rw [edgeKeyOf, hs.keyOf_eq, hto]
      rfl
    have heq : g.retarget r e = g.setEdge r e := by
      rw [Graph.retarget, reindexEdge, setEdge_edge_self]
      exact if_pos hto
    rw [heq]
    exact h.setEdge_of_key hk
  · have hnew : P (keyOf e) → ∀ r', g.StoredOut r' → g.edgeKeyOf r' ≠ keyOf e :=
      fun hPe r' hst => by
        by_cases hne : r' = r
        · rw [hne]
          exact fun hc => hto (congrArg EdgeKey.toID hc)
        · exact hfree hPe r' hst hne
    have hbase : EdgeBaseOn P (g.unlink r e) := h.unlink hr hP hs hnew
    have hlt : r.addr < (g.unlink r e).nextEdge := h.out_lt hr
    have hso : ∀ r', ((g.unlink r e).addIn r).StoredOut r' ↔ g.StoredOut r' := fun r' => by
      rw [Graph.addIn, storedOut_modifyIn]
      exact storedOut_unlink hs r'
    rw [retarget_eq_unlink hs hto]
    refine ⟨hbase.addIn hlt, fun r' hP' => ?_⟩
    have hPu : P ((g.unlink r e).edgeKeyOf r') := hP'
    rw [hso, hbase.storedIn_addIn hPu]
    by_cases hne : r' = r
    · exact iff_of_true (hne ▸ hr) (Or.inl hne)
    · rw [edgeKeyOf_unlink_of_ne hne] at hPu
      rw [h.storedIn_unlink hr hP r' hPu hne, edgeKeyOf_unlink_of_ne hne, edgeKeyOf_unlink_self,
        ← h.both r' hPu]
      refine ⟨fun hst => Or.inr ⟨hst, fun hc => ?_⟩, fun hst => hst.elim (absurd · hne) And.left⟩
      exact hfree (hc ▸ hPu) r' hst hne hc

end Retarget

/-! ### Eviction

Phase 1 empties the out-edges of every evicted node, and takes those of its edges
whose target stays out of the in-edges of the target; phase 2 is the same with
the two sides exchanged. Between the phases the two sides disagree on the edges
between an evicted node and another one, so what each phase needs to know of the
two sides is stated for the edges it visits. -/

section Evict

variable (evictedIDs : List String)

/-- The inner loop of phase 1 over some edges. -/
theorem EdgeBaseOn.foldl_removeIn (l : List EdgeRef) (h : EdgeBaseOn P g) :
    let g' := l.foldl (fun g r =>
      if (g.edge r).toID ∈ evictedIDs then g else g.removeIn (g.edge r).toID (g.edgeKeyOf r)) g
    EdgeTablesOnly g g' ∧ EdgeBaseOn P g' ∧ (∀ r, g'.StoredOut r ↔ g.StoredOut r) ∧
      ∀ r, P (g.edgeKeyOf r) → (g'.StoredIn r ↔ g.StoredIn r ∧
        ∀ r' ∈ l, (g.edge r').toID ∉ evictedIDs → g.edgeKeyOf r ≠ g.edgeKeyOf r') := by
  induction l generalizing g with
  | nil => exact ⟨EdgeTablesOnly.refl g, h, fun _ => Iff.rfl, fun r _ => by simp⟩
  | cons a l ih =>
    simp only [List.foldl_cons]
    by_cases ha : (g.edge a).toID ∈ evictedIDs
    · rw [if_pos ha]
      obtain ⟨h1, h2, h3, h4⟩ := ih h
      refine ⟨h1, h2, h3, fun r hP => ?_⟩
      rw [h4 r hP, List.forall_mem_cons]
      exact and_congr_right fun _ => ⟨fun hl => ⟨fun hc => absurd ha hc, hl⟩, And.right⟩
    · rw [if_neg ha]
      have hone : EdgeTablesOnly g (g.removeIn (g.edge a).toID (g.edgeKeyOf a)) :=
        EdgeTablesOnly.removeIn ..
      obtain ⟨h1, h2, h3, h4⟩ := ih (h.removeIn (g.edge a).toID (g.edgeKeyOf a))
      refine ⟨hone.trans h1, h2, fun r => ?_, fun r hP => ?_⟩
      · rw [h3, Graph.removeIn, storedOut_modifyIn]
      · have hin : (g.removeIn (g.edge a).toID (g.edgeKeyOf a)).StoredIn r ↔
            g.StoredIn r ∧ g.edgeKeyOf r ≠ g.edgeKeyOf a :=
          h.storedIn_removeIn _ (g.edgeKeyOf a) rfl hP
        rw [h4 r hP, hin, List.forall_mem_cons, hone.edge, hone.edgeKeyOf, and_assoc,
          imp_iff_right ha]

/-- The inner loop of phase 2 over some edges. -/
theorem EdgeBaseOn.foldl_removeOut (l : List EdgeRef) (h : EdgeBaseOn P g) :
    let g' := l.foldl (fun g r =>
      if (g.edge r).fromID ∈ evictedIDs then g
      else g.removeOut (g.edge r).fromID (g.edgeKeyOf r)) g
    EdgeTablesOnly g g' ∧ EdgeBaseOn P g' ∧ (∀ r, g'.StoredIn r ↔ g.StoredIn r) ∧
      ∀ r, P (g.edgeKeyOf r) → (g'.StoredOut r ↔ g.StoredOut r ∧
        ∀ r' ∈ l, (g.edge r').fromID ∉ evictedIDs → g.edgeKeyOf r ≠ g.edgeKeyOf r') := by
  induction l generalizing g with
  | nil => exact ⟨EdgeTablesOnly.refl g, h, fun _ => Iff.rfl, fun r _ => by simp⟩
  | cons a l ih =>
    simp only [List.foldl_cons]
    by_cases ha : (g.edge a).fromID ∈ evictedIDs
    · rw [if_pos ha]
      obtain ⟨h1, h2, h3, h4⟩ := ih h
      refine ⟨h1, h2, h3, fun r hP => ?_⟩
      rw [h4 r hP, List.forall_mem_cons]
      exact and_congr_right fun _ => ⟨fun hl => ⟨fun hc => absurd ha hc, hl⟩, And.right⟩
    · rw [if_neg ha]
      have hone : EdgeTablesOnly g (g.removeOut (g.edge a).fromID (g.edgeKeyOf a)) :=
        EdgeTablesOnly.removeOut ..
      obtain ⟨h1, h2, h3, h4⟩ := ih (h.removeOut (g.edge a).fromID (g.edgeKeyOf a))
      refine ⟨hone.trans h1, h2, fun r => ?_, fun r hP => ?_⟩
      · rw [h3, Graph.removeOut, storedIn_modifyOut]
      · have hout : (g.removeOut (g.edge a).fromID (g.edgeKeyOf a)).StoredOut r ↔
            g.StoredOut r ∧ g.edgeKeyOf r ≠ g.edgeKeyOf a :=
          h.storedOut_removeOut _ (g.edgeKeyOf a) rfl hP
        rw [h4 r hP, hout, List.forall_mem_cons, hone.edge, hone.edgeKeyOf, and_assoc,
          imp_iff_right ha]

theorem EdgeTablesOnly.evictOutEdges (g : Graph) (id : String) :
    EdgeTablesOnly g (g.evictOutEdges evictedIDs id) := by
  unfold Graph.evictOutEdges
  refine EdgeTablesOnly.trans (EdgeTablesOnly.foldl (fun g r => ?_) _ _)
    (EdgeTablesOnly.modifyOut ..)
  split
  · exact EdgeTablesOnly.refl g
  · exact EdgeTablesOnly.removeIn ..

theorem EdgeTablesOnly.evictInEdges (g : Graph) (id : String) :
    EdgeTablesOnly g (g.evictInEdges evictedIDs id) := by
  unfold Graph.evictInEdges
  refine EdgeTablesOnly.trans (EdgeTablesOnly.foldl (fun g r => ?_) _ _)
    (EdgeTablesOnly.modifyIn ..)
  split
  · exact EdgeTablesOnly.refl g
  · exact EdgeTablesOnly.removeOut ..

/-- **Phase 1 for one node.** -/
theorem EdgeBaseOn.evictOutEdges (h : EdgeBaseOn P g) (id : String)
    (hboth : ∀ r, P (g.edgeKeyOf r) → (g.edge r).fromID = id → (g.edge r).toID ∉ evictedIDs →
      g.StoredIn r → g.StoredOut r) :
    EdgeBaseOn P (g.evictOutEdges evictedIDs id) ∧
      (∀ r, (g.evictOutEdges evictedIDs id).StoredOut r ↔
        g.StoredOut r ∧ (g.edge r).fromID ≠ id) ∧
      ∀ r, P (g.edgeKeyOf r) → ((g.evictOutEdges evictedIDs id).StoredIn r ↔
        g.StoredIn r ∧ ¬((g.edge r).fromID = id ∧ (g.edge r).toID ∉ evictedIDs)) := by
  obtain ⟨h1, h2, h3, h4⟩ :=
    EdgeBaseOn.foldl_removeIn evictedIDs (g.getOutEdges id) h
  refine ⟨h2.dropOut id, fun r => ?_, fun r hP => ?_⟩
  · rw [Graph.evictOutEdges, storedOut_drop, h3, h1.edge]
  · rw [Graph.evictOutEdges, storedIn_modifyOut, h4 r hP]
    refine and_congr_right fun hst => ⟨?_, ?_⟩
    · rintro hl ⟨hf, ht⟩
      exact hl r (h.mem_getOutEdges.mpr ⟨hf, hboth r hP hf ht hst⟩) ht rfl
    · intro hn r' hr' ht hk
      refine hn ⟨?_, ?_⟩
      · exact (congrArg EdgeKey.fromID hk).trans (h.fromID_eq hr')
      · have hto : (g.edge r).toID = (g.edge r').toID := congrArg EdgeKey.toID hk
        rwa [hto]

/-- **Phase 2 for one node.** -/
theorem EdgeBaseOn.evictInEdges (h : EdgeBaseOn P g) (id : String)
    (hboth : ∀ r, P (g.edgeKeyOf r) → (g.edge r).toID = id → (g.edge r).fromID ∉ evictedIDs →
      g.StoredOut r → g.StoredIn r) :
    EdgeBaseOn P (g.evictInEdges evictedIDs id) ∧
      (∀ r, (g.evictInEdges evictedIDs id).StoredIn r ↔ g.StoredIn r ∧ (g.edge r).toID ≠ id) ∧
      ∀ r, P (g.edgeKeyOf r) → ((g.evictInEdges evictedIDs id).StoredOut r ↔
        g.StoredOut r ∧ ¬((g.edge r).toID = id ∧ (g.edge r).fromID ∉ evictedIDs)) := by
  obtain ⟨h1, h2, h3, h4⟩ :=
    EdgeBaseOn.foldl_removeOut evictedIDs (g.getInEdges id) h
  refine ⟨h2.dropIn id, fun r => ?_, fun r hP => ?_⟩
  · rw [Graph.evictInEdges, storedIn_drop, h3, h1.edge]
  · rw [Graph.evictInEdges, storedOut_modifyIn, h4 r hP]
    refine and_congr_right fun hst => ⟨?_, ?_⟩
    · rintro hl ⟨ht, hf⟩
      exact hl r (h.mem_getInEdges.mpr ⟨ht, hboth r hP ht hf hst⟩) hf rfl
    · intro hn r' hr' hf hk
      refine hn ⟨?_, ?_⟩
      · exact (congrArg EdgeKey.toID hk).trans (h.toID_eq hr')
      · have hfrom : (g.edge r).fromID = (g.edge r').fromID := congrArg EdgeKey.fromID hk
        rwa [hfrom]

/-- **Phase 1 over some evicted nodes.** -/
theorem EdgeBaseOn.foldl_evictOutEdges (l : List String) (h : EdgeBaseOn P g)
    (hboth : ∀ r, P (g.edgeKeyOf r) → (g.edge r).fromID ∈ l → (g.edge r).toID ∉ evictedIDs →
      g.StoredIn r → g.StoredOut r) :
    let g' := l.foldl (fun g id => g.evictOutEdges evictedIDs id) g
    EdgeBaseOn P g' ∧ (∀ r, g'.StoredOut r ↔ g.StoredOut r ∧ (g.edge r).fromID ∉ l) ∧
      ∀ r, P (g.edgeKeyOf r) → (g'.StoredIn r ↔
        g.StoredIn r ∧ ¬((g.edge r).fromID ∈ l ∧ (g.edge r).toID ∉ evictedIDs)) := by
  induction l generalizing g with
  | nil => exact ⟨h, fun r => by simp, fun r _ => by simp⟩
  | cons id l ih =>
    simp only [List.foldl_cons]
    obtain ⟨b1, b2, b3⟩ := h.evictOutEdges evictedIDs id fun r hP hf =>
      hboth r hP (hf ▸ List.mem_cons_self)
    have honly := EdgeTablesOnly.evictOutEdges evictedIDs g id
    have hedge := honly.edge
    have hkey := honly.edgeKeyOf
    obtain ⟨c1, c2, c3⟩ := ih b1 fun r hP hf ht hst => by
      rw [hkey] at hP
      rw [hedge] at hf ht
      obtain ⟨hst', hn⟩ := (b3 r hP).mp hst
      have hne : (g.edge r).fromID ≠ id := fun hc => hn ⟨hc, ht⟩
      exact (b2 r).mpr ⟨hboth r hP (List.mem_cons_of_mem _ hf) ht hst', hne⟩
    refine ⟨c1, fun r => ?_, fun r hP => ?_⟩
    · rw [c2, b2, hedge, List.mem_cons, not_or, and_assoc]
    · rw [c3 r (hkey ▸ hP), b3 r hP, hedge, List.mem_cons]
      tauto

/-- **Phase 2 over some evicted nodes.** -/
theorem EdgeBaseOn.foldl_evictInEdges (l : List String) (h : EdgeBaseOn P g)
    (hboth : ∀ r, P (g.edgeKeyOf r) → (g.edge r).toID ∈ l → (g.edge r).fromID ∉ evictedIDs →
      g.StoredOut r → g.StoredIn r) :
    let g' := l.foldl (fun g id => g.evictInEdges evictedIDs id) g
    EdgeBaseOn P g' ∧ (∀ r, g'.StoredIn r ↔ g.StoredIn r ∧ (g.edge r).toID ∉ l) ∧
      ∀ r, P (g.edgeKeyOf r) → (g'.StoredOut r ↔
        g.StoredOut r ∧ ¬((g.edge r).toID ∈ l ∧ (g.edge r).fromID ∉ evictedIDs)) := by
  induction l generalizing g with
  | nil => exact ⟨h, fun r => by simp, fun r _ => by simp⟩
  | cons id l ih =>
    simp only [List.foldl_cons]
    obtain ⟨b1, b2, b3⟩ := h.evictInEdges evictedIDs id fun r hP ht =>
      hboth r hP (ht ▸ List.mem_cons_self)
    have honly := EdgeTablesOnly.evictInEdges evictedIDs g id
    have hedge := honly.edge
    have hkey := honly.edgeKeyOf
    obtain ⟨c1, c2, c3⟩ := ih b1 fun r hP ht hf hst => by
      rw [hkey] at hP
      rw [hedge] at hf ht
      obtain ⟨hst', hn⟩ := (b3 r hP).mp hst
      have hne : (g.edge r).toID ≠ id := fun hc => hn ⟨hc, hf⟩
      exact (b2 r).mpr ⟨hboth r hP (List.mem_cons_of_mem _ ht) hf hst', hne⟩
    refine ⟨c1, fun r => ?_, fun r hP => ?_⟩
    · rw [c2, b2, hedge, List.mem_cons, not_or, and_assoc]
    · rw [c3 r (hkey ▸ hP), b3 r hP, hedge, List.mem_cons]
      tauto

/-- The graph of the two phases, without the counts. -/
theorem evictEdgesLocked_fst (ord : MapOrder) (g : Graph) (evictedIDs : List String) :
    (evictEdgesLocked ord g evictedIDs).1 =
      let g1 := (ord.order g evictedIDs).foldl (fun g id => g.evictOutEdges evictedIDs id) g
      (ord.order g1 evictedIDs).foldl (fun g id => g.evictInEdges evictedIDs id) g1 := by
  rw [evictEdgesLocked,
    List.foldl_fst (fun (g : Graph) (id : String) => g.evictInEdges evictedIDs id) fun g id =>
      ((g.getInEdges id).filter fun r => (g.edge r).fromID ∉ evictedIDs).length,
    List.foldl_fst (fun (g : Graph) (id : String) => g.evictOutEdges evictedIDs id) fun g id =>
      (g.getOutEdges id).length]

theorem EdgeTablesOnly.evictEdgesLocked (ord : MapOrder) (g : Graph) :
    EdgeTablesOnly g (Graph.evictEdgesLocked ord g evictedIDs).1 := by
  rw [evictEdgesLocked_fst]
  exact (EdgeTablesOnly.foldl (fun g id => EdgeTablesOnly.evictOutEdges evictedIDs g id) _ _).trans
    (EdgeTablesOnly.foldl (fun g id => EdgeTablesOnly.evictInEdges evictedIDs g id) _ _)

/-- **What an eviction leaves** of the edges of identities in `P`: those neither of whose
ends is evicted. -/
theorem EdgeInvOn.evictEdgesLocked (h : EdgeInvOn P g) (ord : MapOrder) :
    EdgeInvOn P (Graph.evictEdgesLocked ord g evictedIDs).1 ∧
      ∀ r, P (g.edgeKeyOf r) → ((Graph.evictEdgesLocked ord g evictedIDs).1.StoredOut r ↔
        g.StoredOut r ∧ (g.edge r).fromID ∉ evictedIDs ∧ (g.edge r).toID ∉ evictedIDs) := by
  rw [evictEdgesLocked_fst]
  simp only
  obtain ⟨b1, b2, b3⟩ := h.toEdgeBaseOn.foldl_evictOutEdges evictedIDs
    (ord.order g evictedIDs) fun r hP _ _ hst => (h.both r hP).mpr hst
  have honly := EdgeTablesOnly.foldl
    (fun g id => EdgeTablesOnly.evictOutEdges evictedIDs g id) (ord.order g evictedIDs) g
  have hedge := honly.edge
  have hkey := honly.edgeKeyOf
  generalize (ord.order g evictedIDs).foldl (fun g id => g.evictOutEdges evictedIDs id) g = g1 at *
  simp only [ord.mem] at b2 b3
  obtain ⟨c1, c2, c3⟩ := b1.foldl_evictInEdges evictedIDs
    (ord.order g1 evictedIDs) fun r hP _ hf hst => by
      rw [hkey] at hP
      rw [hedge] at hf
      exact (b3 r hP).mpr ⟨(h.both r hP).mp ((b2 r).mp hst).1, fun hc => hf hc.1⟩
  have honly' := EdgeTablesOnly.foldl
    (fun g id => EdgeTablesOnly.evictInEdges evictedIDs g id) (ord.order g1 evictedIDs) g1
  simp only [ord.mem] at c2 c3
  have hout : ∀ r, P (g.edgeKeyOf r) → ((List.foldl (fun g id => g.evictInEdges evictedIDs id) g1
      (ord.order g1 evictedIDs)).StoredOut r ↔
        g.StoredOut r ∧ (g.edge r).fromID ∉ evictedIDs ∧ (g.edge r).toID ∉ evictedIDs) := by
    intro r hP
    rw [c3 r (hkey ▸ hP), b2, hedge]
    tauto
  refine ⟨⟨c1, fun r hP => ?_⟩, hout⟩
  rw [honly'.edgeKeyOf, hkey] at hP
  rw [hout r hP, c2, b3 r hP, hedge, h.both r hP]
  tauto

end Evict

/-! ### All edges

When all identities are in `P` the tables are exact, and what an operation does is said of
every edge. -/

section All

theorem EdgeInv.newEdge (h : EdgeInv g) (e : Edge) : EdgeInv (g.newEdge e).2 :=
  edgeInv_iff.mpr ((edgeInv_iff.mp h).newEdge e)

/-- **What AddEdge stores**: the edge, in the place of the one of its key. -/
theorem EdgeInv.storedOut_addEdge (h : EdgeInv g) {r r' : EdgeRef} :
    (g.addEdge r).StoredOut r' ↔ r' = r ∨ (g.StoredOut r' ∧ g.edgeKeyOf r' ≠ g.edgeKeyOf r) :=
  (edgeInv_iff.mp h).storedOut_addEdge trivial

theorem EdgeInv.addEdge (h : EdgeInv g) {r : EdgeRef} (hr : r.addr < g.nextEdge) :
    EdgeInv (g.addEdge r) :=
  edgeInv_iff.mpr ((edgeInv_iff.mp h).addEdge hr)

theorem EdgeInv.removeEdge (h : EdgeInv g) (fromID toID : String) (kind : EdgeKind) :
    EdgeInv (g.removeEdge fromID toID kind).1 ∧
      EdgeTablesOnly g (g.removeEdge fromID toID kind).1 := by
  obtain ⟨hinv, honly⟩ := (edgeInv_iff.mp h).removeEdge fromID toID kind
  exact ⟨edgeInv_iff.mpr hinv, honly⟩

/-- **Retargeting keeps the edge tables exact** as long as no other stored edge
has the new identity already; it stores the pointers that were stored. -/
theorem EdgeInv.retarget {r : EdgeRef} {e : Edge} (h : EdgeInv g) (hr : g.StoredOut r)
    (hs : SameSite (g.edge r) e)
    (hfree : ∀ r', g.StoredOut r' → r' ≠ r → g.edgeKeyOf r' ≠ keyOf e) :
    EdgeInv (g.retarget r e) ∧ ∀ r', (g.retarget r e).StoredOut r' ↔ g.StoredOut r' :=
  ⟨edgeInv_iff.mpr ((edgeInv_iff.mp h).retarget hr trivial hs fun _ => hfree),
    storedOut_retarget hs⟩

variable (evictedIDs : List String)

theorem EdgeBase.evictOutEdges (h : EdgeBase g) (id : String)
    (hboth : ∀ r, (g.edge r).fromID = id → (g.edge r).toID ∉ evictedIDs →
      g.StoredIn r → g.StoredOut r) :
    EdgeBase (g.evictOutEdges evictedIDs id) ∧
      (∀ r, (g.evictOutEdges evictedIDs id).StoredOut r ↔
        g.StoredOut r ∧ (g.edge r).fromID ≠ id) ∧
      ∀ r, (g.evictOutEdges evictedIDs id).StoredIn r ↔
        g.StoredIn r ∧ ¬((g.edge r).fromID = id ∧ (g.edge r).toID ∉ evictedIDs) := by
  obtain ⟨hbase, hout, hin⟩ := (edgeBase_iff.mp h).evictOutEdges evictedIDs id fun r _ => hboth r
  exact ⟨edgeBase_iff.mpr hbase, hout, fun r => hin r trivial⟩

theorem EdgeBase.evictInEdges (h : EdgeBase g) (id : String)
    (hboth : ∀ r, (g.edge r).toID = id → (g.edge r).fromID ∉ evictedIDs →
      g.StoredOut r → g.StoredIn r) :
    EdgeBase (g.evictInEdges evictedIDs id) ∧
      (∀ r, (g.evictInEdges evictedIDs id).StoredIn r ↔ g.StoredIn r ∧ (g.edge r).toID ≠ id) ∧
      ∀ r, (g.evictInEdges evictedIDs id).StoredOut r ↔
        g.StoredOut r ∧ ¬((g.edge r).toID = id ∧ (g.edge r).fromID ∉ evictedIDs) := by
  obtain ⟨hbase, hin, hout⟩ := (edgeBase_iff.mp h).evictInEdges evictedIDs id fun r _ => hboth r
  exact ⟨edgeBase_iff.mpr hbase, hin, fun r => hout r trivial⟩

theorem EdgeBase.foldl_evictOutEdges (l : List String) (h : EdgeBase g)
    (hboth : ∀ r, (g.edge r).fromID ∈ l → (g.edge r).toID ∉ evictedIDs →
      g.StoredIn r → g.StoredOut r) :
    let g' := l.foldl (fun g id => g.evictOutEdges evictedIDs id) g
    EdgeBase g' ∧ (∀ r, g'.StoredOut r ↔ g.StoredOut r ∧ (g.edge r).fromID ∉ l) ∧
      ∀ r, g'.StoredIn r ↔
        g.StoredIn r ∧ ¬((g.edge r).fromID ∈ l ∧ (g.edge r).toID ∉ evictedIDs) := by
  obtain ⟨hbase, hout, hin⟩ :=
    (edgeBase_iff.mp h).foldl_evictOutEdges evictedIDs l fun r _ => hboth r
  exact ⟨edgeBase_iff.mpr hbase, hout, fun r => hin r trivial⟩

end All

end Graph

end Gortex
