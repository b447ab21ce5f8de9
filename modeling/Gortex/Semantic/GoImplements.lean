import Mathlib.Algebra.Order.Ring.Unbundled.Rat
import Gortex.Semantic.GoTypes

/-!
# The implementations the type checker vouches for

`enrichImplements` raises the `implements` edges that the resolver has inferred from names, and
`addMissingImplements` adds those that it has missed. The first asks whether the target of an edge
is a mapped interface, and nothing else: it raises an edge to the interface whatever the type checker
says of its source (`Gortex.Semantic.GoTypes.enrichImplements_eq`). The second asks the type checker
(`Gortex.Semantic.GoTypes.hasImplements_addMissingImplements`).

So what is raised is verified, exactly if there is nothing to weed out
(`Gortex.Semantic.GoTypes.compilerVerified_iff`).
-/

namespace Gortex

namespace Semantic

open Graph

namespace GoTypes

variable {Obj : Type} {chk : Checker Obj} {ord : Orders}
  {objToNode : GoMap Obj String} {g : Graph} {s : Graph × EnrichResult}

/-! ### What is mapped -/

section Mapped

variable [DecidableEq Obj]

/-- A type name that is mapped to a node. -/
def MapsType (chk : Checker Obj) (objToNode : GoMap Obj String) (interfaces : Bool) (obj : Obj)
    (id : String) : Prop :=
  objToNode.lookup obj = some id ∧ chk.kind obj = .typeName ∧ chk.isInterface obj = interfaces

theorem mem_mappedTypes {interfaces : Bool} {p : Obj × String} :
    p ∈ mappedTypes chk ord objToNode interfaces ↔ MapsType chk objToNode interfaces p.1 p.2 := by
  obtain ⟨obj, id⟩ := p
  simp only [mappedTypes, MapsType, List.mem_filter, ord.loops.mem, GoMap.mem_pairs,
    Bool.and_eq_true, decide_eq_true_eq, beq_iff_eq]

theorem isSome_ifaceTypes {id : String} :
    ((ifaceTypes chk ord objToNode).lookup id).isSome = true ↔
      ∃ obj, MapsType chk objToNode true obj id := by
  have hloop : ∀ (l : List (Obj × String)) (m : GoMap String Obj),
      ((l.foldl (fun m p => if chk.kind p.1 = .typeName ∧ chk.isInterface p.1 = true then
        m.insert p.2 p.1 else m) m).lookup id).isSome = true ↔
      (∃ p ∈ l, p.2 = id ∧ chk.kind p.1 = .typeName ∧ chk.isInterface p.1 = true) ∨
        (m.lookup id).isSome = true := by
    intro l
    induction l with
    | nil => exact fun m => by simp
    | cons p l ih =>
      intro m
      rw [List.foldl_cons, ih, List.exists_mem_cons_iff]
      split_ifs with hp
      · rw [GoMap.lookup_insert]
        split_ifs with hid
        · simp [hid, hp]
        · simp [Ne.symm hid]
      · simp only [hp, and_false, false_or]
  rw [ifaceTypes, hloop, AList.lookup_empty]
  simp only [ord.loops.mem, Prod.exists, GoMap.mem_pairs, MapsType, Option.isSome_none,
    Bool.false_eq_true, or_false]
  constructor
  · rintro ⟨obj, id', hl, rfl, hobj⟩
    exact ⟨obj, hl, hobj⟩
  · rintro ⟨obj, hl, hobj⟩
    exact ⟨obj, id, hl, rfl, hobj⟩

/-- **A pair that the type checker accepts**, of a type and an interface. -/
theorem mem_acceptedPairs {t u : String} : (t, u) ∈ acceptedPairs chk ord objToNode ↔
    t ≠ u ∧ ∃ c i, MapsType chk objToNode false c t ∧ MapsType chk objToNode true i u ∧
      chk.accepts c i = true := by
  simp only [acceptedPairs, List.mem_flatMap, List.mem_map, List.mem_filter, mem_mappedTypes,
    Prod.exists, Prod.mk.injEq, Bool.and_eq_true, decide_eq_true_eq]
  constructor
  · rintro ⟨c, t, hc, i, u, ⟨hi, hne, hacc⟩, rfl, rfl⟩
    exact ⟨hne, c, i, hc, hi, hacc⟩
  · rintro ⟨hne, c, i, hc, hi, hacc⟩
    exact ⟨c, t, hc, i, u, ⟨hi, hne, hacc⟩, rfl, rfl⟩

end Mapped

/-! ### Raising what is there -/

/-- An edge that `enrichImplements` raises. -/
def Raises (g : Graph) (ifaces : GoMap String Obj) (e : Edge) : Prop :=
  e.kind = .edgeImplements ∧ (∃ n ∈ g.getNode e.fromID, (g.node n).language = "go") ∧
    e.confidence < 1 ∧ (ifaces.lookup e.toID).isSome = true

instance (g : Graph) (ifaces : GoMap String Obj) : DecidablePred (Raises g ifaces) := fun e =>
  inferInstanceAs (Decidable (_ ∧ (∃ n ∈ g.getNode e.fromID, _) ∧ _ ∧ _))

theorem confirmStep_eq (ifaces : GoMap String Obj) (s : Graph × EnrichResult) (r : EdgeRef) :
    confirmStep ifaces s r =
      if Raises s.1 ifaces (s.1.edge r) then
        (confirmEdge s.1 r providerName, { s.2 with edgesConfirmed := s.2.edgesConfirmed + 1 })
      else s := by
  unfold confirmStep
  simp only
  by_cases hr : Raises s.1 ifaces (s.1.edge r)
  · rw [if_pos hr]
    obtain ⟨hkind, ⟨n, hn, hgo⟩, hc, hiface⟩ := hr
    rw [if_neg (not_not.mpr hkind), Option.mem_def.mp hn]
    simp only
    rw [if_neg (not_not.mpr hgo), if_neg (not_le.mpr hc), if_pos hiface]
  · rw [if_neg hr]
    by_cases hkind : (s.1.edge r).kind = .edgeImplements
    · rw [if_neg (not_not.mpr hkind)]
      cases hn : s.1.getNode (s.1.edge r).fromID with
      | none => rfl
      | some n =>
        simp only
        split_ifs with hgo hc hiface
        · rfl
        · rfl
        · exact absurd ⟨hkind, ⟨n, hn, not_not.mp hgo⟩, not_le.mp hc, hiface⟩ hr
        · rfl
    · exact if_pos hkind

/-- The memory after edges have been raised. -/
def raiseAll (g : Graph) (ifaces : GoMap String Obj) (l : List EdgeRef) : Graph :=
  { g with edge := fun r =>
      if r ∈ l ∧ Raises g ifaces (g.edge r) then confirmed providerName (g.edge r) else g.edge r }

/-- **What the loop over the edges does**: it raises those of the property, and counts them. -/
theorem foldl_confirmStep (ifaces : GoMap String Obj) {l : List EdgeRef} (hl : l.Nodup)
    (s : Graph × EnrichResult) :
    l.foldl (confirmStep ifaces) s = (raiseAll s.1 ifaces l,
      { s.2 with edgesConfirmed := s.2.edgesConfirmed +
          l.countP fun r => Raises s.1 ifaces (s.1.edge r) }) := by
  induction l generalizing s with
  | nil =>
    have hnone : raiseAll s.1 ifaces [] = s.1 := by simp [raiseAll]
    rw [hnone]
    rfl
  | cons a l ih =>
    obtain ⟨ha, hl⟩ := List.nodup_cons.mp hl
    rw [List.foldl_cons, ih hl, confirmStep_eq]
    split_ifs with hr
    · -- the turn writes one edge, that is not met again
      have hother : ∀ r, r ≠ a → (confirmEdge s.1 a providerName).edge r = s.1.edge r :=
        fun r hne => setEdge_edge_of_ne s.1 _ hne
      have hself : (confirmEdge s.1 a providerName).edge a = confirmed providerName (s.1.edge a) :=
        setEdge_edge_self s.1 a _
      have hmem : ∀ r ∈ l, r ≠ a := fun r hrl hc => ha (hc ▸ hrl)
      have hcount : (l.countP fun r => Raises (confirmEdge s.1 a providerName) ifaces
          ((confirmEdge s.1 a providerName).edge r)) =
          l.countP fun r => Raises s.1 ifaces (s.1.edge r) := by
        refine List.countP_congr fun r hrl => ?_
        rw [hother r (hmem r hrl)]
        rfl
      have hgraph : raiseAll (confirmEdge s.1 a providerName) ifaces l =
          raiseAll s.1 ifaces (a :: l) := by
        unfold raiseAll
        refine congrArg (fun edge => { s.1 with edge := edge }) (funext fun r => ?_)
        by_cases hra : r = a
        · subst hra
          rw [if_neg fun h => ha h.1, hself, if_pos ⟨List.mem_cons_self, hr⟩]
        · rw [hother r hra]
          refine if_congr ?_ rfl rfl
          rw [List.mem_cons, or_iff_right hra]
          rfl
      rw [hgraph, hcount, List.countP_cons, if_pos (decide_eq_true hr)]
      refine congrArg (fun n => (raiseAll s.1 ifaces (a :: l),
        { s.2 with edgesConfirmed := n })) ?_
      exact (Nat.add_assoc ..).trans (congrArg _ (Nat.add_comm ..))
    · have hgraph : raiseAll s.1 ifaces l = raiseAll s.1 ifaces (a :: l) := by
        unfold raiseAll
        refine congrArg (fun edge => { s.1 with edge := edge }) (funext fun r => ?_)
        by_cases hra : r = a
        · subst hra
          rw [if_neg fun h => ha h.1, if_neg fun h => hr h.2]
        · refine if_congr ?_ rfl rfl
          rw [List.mem_cons, or_iff_right hra]
      rw [hgraph, List.countP_cons, if_neg (by simpa using hr), Nat.add_zero]

/-- **`enrichImplements` raises every edge into a mapped interface** that comes from a Go node and
is not certain. -/
theorem enrichImplements_eq (h : Inv s.1) : enrichImplements chk ord objToNode s =
    (raiseAll s.1 (ifaceTypes chk ord objToNode) (s.1.allEdges ord.graph),
      { s.2 with edgesConfirmed := s.2.edgesConfirmed +
          (s.1.allEdges ord.graph).countP fun r =>
            Raises s.1 (ifaceTypes chk ord objToNode) (s.1.edge r) }) :=
  foldl_confirmStep _ (h.edges.nodup_allEdges ord.graph) s

theorem edge_raiseAll (ifaces : GoMap String Obj) (l : List EdgeRef) (r : EdgeRef) :
    (raiseAll g ifaces l).edge r =
      if r ∈ l ∧ Raises g ifaces (g.edge r) then confirmed providerName (g.edge r)
      else g.edge r := rfl

theorem edgeKeyOf_raiseAll (ifaces : GoMap String Obj) (l : List EdgeRef) :
    (raiseAll g ifaces l).edgeKeyOf = g.edgeKeyOf := by
  funext r
  rw [edgeKeyOf, edge_raiseAll]
  split_ifs <;> rfl

variable (chk ord objToNode) in
/-- Raising edges keeps the invariant, and the nodes. -/
theorem kept_enrichImplements (h : Inv s.1) :
    Kept s.1 (enrichImplements chk ord objToNode s).1 := by
  refine List.foldl_invariant (P := fun s' : Graph × EnrichResult => Kept s.1 s'.1)
    (fun s' r _ hs => ?_) (Kept.refl h)
  rw [confirmStep_eq]
  split_ifs
  · exact ⟨hs.inv.setEdge_of_key rfl, hs.nodes.trans (NodesKept.setEdge ..)⟩
  · exact hs

/-! ### Adding what is missing -/

/-- There is an `implements` edge between two nodes. -/
def HasImplements (g : Graph) (t u : String) : Prop :=
  ∃ e, g.StoredEdge e ∧ e.fromID = t ∧ e.toID = u ∧ e.kind = .edgeImplements

theorem hasImplements_iff (h : Inv g) {t u : String} :
    HasImplements g t u ↔ ∃ e ∈ g.between t u, e.kind = .edgeImplements := by
  simp only [HasImplements, h.mem_between, and_assoc]

theorem hasImplements_enrichImplements (h : Inv s.1) {t u : String} :
    HasImplements (enrichImplements chk ord objToNode s).1 t u ↔ HasImplements s.1 t u := by
  have hkey : (enrichImplements chk ord objToNode s).1.edgeKeyOf = s.1.edgeKeyOf := by
    rw [enrichImplements_eq h]
    exact edgeKeyOf_raiseAll ..
  have hout : ∀ id, (enrichImplements chk ord objToNode s).1.getOutEdges id =
      s.1.getOutEdges id := by
    intro id
    rw [enrichImplements_eq h]
    rfl
  have hstored : ∀ r, (enrichImplements chk ord objToNode s).1.StoredOut r ↔ s.1.StoredOut r := by
    intro r
    have hfrom : ((enrichImplements chk ord objToNode s).1.edge r).fromID = (s.1.edge r).fromID :=
      congrArg EdgeKey.fromID (congrFun hkey r)
    rw [StoredOut, hout, hfrom, StoredOut]
  have hends : ∀ g : Graph, HasImplements g t u ↔
      ∃ r, g.StoredOut r ∧ (g.edgeKeyOf r).fromID = t ∧ (g.edgeKeyOf r).toID = u ∧
        (g.edgeKeyOf r).kind = .edgeImplements := by
    intro g
    constructor
    · rintro ⟨e, ⟨r, hr, rfl⟩, hends⟩
      exact ⟨r, hr, hends⟩
    · rintro ⟨r, hr, hends⟩
      exact ⟨g.edge r, hr.storedEdge, hends⟩
  rw [hends, hends, hkey]
  simp only [hstored]

/-- The sites of `addMissingImplements`. -/
def missingSite (g : Graph) (p : String × String) : Option Site :=
  some ⟨p, implementsEdge g providerName p.1 p.2⟩

/-- What `addMissingImplements` has to add between two nodes. -/
def missingAt (chk : Checker Obj) (ord : Orders) (objToNode : GoMap Obj String) (g : Graph)
    (i : String × String) : List (Option Edge) :=
  newsAt ((acceptedPairs chk ord objToNode).filterMap (missingSite g)) i

theorem mem_missingAt {i : String × String} {new : Option Edge} :
    new ∈ missingAt chk ord objToNode g i ↔
      i ∈ acceptedPairs chk ord objToNode ∧ implementsEdge g providerName i.1 i.2 = new := by
  simp only [missingAt, newsAt, missingSite, List.mem_filterMap, List.mem_map, List.mem_filter,
    decide_eq_true_eq, Option.some.injEq]
  constructor
  · rintro ⟨t, ⟨⟨p, hp, rfl⟩, rfl⟩, rfl⟩
    exact ⟨hp, rfl⟩
  · rintro ⟨hi, rfl⟩
    exact ⟨_, ⟨⟨i, hi, rfl⟩, rfl⟩, rfl⟩

/-- Nothing is to be added between two nodes that are no accepted pair. -/
theorem missingAt_eq_nil {i : String × String} :
    missingAt chk ord objToNode g i = [] ↔ i ∉ acceptedPairs chk ord objToNode := by
  constructor
  · intro hnil hmem
    have hnew := mem_missingAt (g := g).mpr ⟨hmem, rfl⟩
    rw [hnil] at hnew
    exact List.not_mem_nil hnew
  · intro hnot
    exact List.eq_nil_iff_forall_not_mem.mpr fun new hnew => hnot (mem_missingAt.mp hnew).1

variable (chk ord objToNode) in
/-- **What `addMissingImplements` leaves between two nodes.** -/
theorem between_addMissingImplements (h : Inv s.1) :
    Kept s.1 (addMissingImplements chk ord objToNode s).1 ∧
      ∀ i : String × String, (addMissingImplements chk ord objToNode s).1.between i.1 i.2 =
        if i ∈ acceptedPairs chk ord objToNode then
          (s.1.between i.1 i.2).upsert (fun e => e.kind = .edgeImplements) id
            (implementsEdge s.1 providerName i.1 i.2)
        else s.1.between i.1 i.2 := by
  have hturn : ∀ s' : Graph × EnrichResult, Kept s.1 s'.1 → ∀ p ∈ acceptedPairs chk ord objToNode,
      (missingSite s.1 p = none ∧ addMissing providerName p.1 p.2 s' = s') ∨
        ∃ t, missingSite s.1 p = some t ∧ Touches (fun e => e.kind = .edgeImplements) id t.ends t.new
          s'.1 (addMissing providerName p.1 p.2 s').1 := by
    intro s' hs p _
    have htouch := touches_addMissing providerName p.1 p.2 hs.inv
    rw [implementsEdge_kept hs.nodes] at htouch
    exact .inr ⟨_, rfl, htouch⟩
  obtain ⟨hkept, hbetween⟩ := Kept.foldl hturn (Kept.refl h)
  refine ⟨hkept, fun i => (hbetween i).trans ?_⟩
  have hnew : ∀ e, some e ∈ missingAt chk ord objToNode s.1 i →
      e.kind = .edgeImplements ∧ id e = e := by
    intro e he
    obtain ⟨-, hmade⟩ := mem_missingAt.mp he
    obtain ⟨r, -, rfl⟩ := Option.map_eq_some_iff.mp hmade
    exact ⟨rfl, rfl⟩
  refine (List.foldl_upsert (fun _ => Iff.rfl) (fun _ => rfl) hnew _).trans ?_
  by_cases hi : i ∈ acceptedPairs chk ord objToNode
  · -- all the turns at the two nodes have the same edge to add
    rw [if_pos hi]
    refine (if_neg fun hnil => missingAt_eq_nil.mp hnil hi).trans ?_
    refine congrArg (fun new => (s.1.between i.1 i.2).upsert _ id new) ?_
    cases hmade : implementsEdge s.1 providerName i.1 i.2 with
    | none =>
      refine List.findSome?_eq_none_iff.mpr fun new hnew => ?_
      exact ((mem_missingAt.mp hnew).2.symm.trans hmade)
    | some e =>
      have hsome := mem_missingAt.mpr ⟨hi, hmade⟩
      cases hfirst : (missingAt chk ord objToNode s.1 i).findSome? id with
      | none => exact absurd (List.findSome?_eq_none_iff.mp hfirst _ hsome) (by simp)
      | some e' =>
        obtain ⟨o, ho, rfl⟩ := List.exists_of_findSome?_eq_some hfirst
        rw [← hmade]
        exact (mem_missingAt.mp ho).2.symm
  · rw [if_neg hi]
    exact if_pos (missingAt_eq_nil.mpr hi)

/-- **Where there is an `implements` edge in the end**: where there was one, and between the nodes
of an accepted pair, if the type has a node. -/
theorem hasImplements_addMissingImplements (h : Inv s.1) {t u : String} :
    HasImplements (addMissingImplements chk ord objToNode s).1 t u ↔
      HasImplements s.1 t u ∨
        ((t, u) ∈ acceptedPairs chk ord objToNode ∧ (s.1.getNode t).isSome = true) := by
  obtain ⟨hkept, hbetween⟩ := between_addMissingImplements chk ord objToNode h
  rw [hasImplements_iff hkept.inv, hasImplements_iff h]
  have hat := hbetween (t, u)
  simp only at hat
  rw [hat]
  split_ifs with hmem
  · rw [List.exists_mem_upsert (p := fun e : Edge => e.kind = .edgeImplements) (f := id)
      fun _ => Iff.rfl]
    · rw [implementsEdge, Option.isSome_map, and_iff_right hmem]
    · intro e he
      obtain ⟨r, -, rfl⟩ := Option.map_eq_some_iff.mp he
      rfl
  · rw [iff_self_or]
    exact fun hacc => absurd hacc.1 hmem

/-! ### Whether the type checker has been asked -/

section Asked

variable [DecidableEq Obj]

/-- **The type checker says so**: a type of the one node, or the pointer to it, implements an
interface of the other. -/
def Verified (chk : Checker Obj) (objToNode : GoMap Obj String) (t u : String) : Prop :=
  ∃ c i concrete, MapsType chk objToNode concrete c t ∧ MapsType chk objToNode true i u ∧
    chk.accepts c i = true

/-- **Compiler-verified**: what `enrichImplements` raises the type checker has accepted, and after
both passes there is an edge for every type and every interface that it accepts. -/
structure CompilerVerified (chk : Checker Obj) (ord : Orders) (objToNode : GoMap Obj String)
    (s : Graph × EnrichResult) : Prop where
  sound : ∀ r, s.1.StoredOut r → (s.1.edge r).kind = .edgeImplements →
    (s.1.edge r).confidence < 1 →
    1 ≤ ((enrichImplements chk ord objToNode s).1.edge r).confidence →
    Verified chk objToNode (s.1.edge r).fromID (s.1.edge r).toID
  complete : ∀ c i t u, MapsType chk objToNode false c t → MapsType chk objToNode true i u →
    chk.accepts c i = true →
    HasImplements
      (addMissingImplements chk ord objToNode (enrichImplements chk ord objToNode s)).1 t u

/-- **Nothing to weed out, and nothing out of reach**: every edge that is not certain, from a Go
node into a mapped interface, is one that the type checker accepts; and a type and an interface that
it accepts are on two nodes, of which that of the type is in the graph, unless there is an edge
already. -/
structure NothingToWeedOut (chk : Checker Obj) (objToNode : GoMap Obj String) (g : Graph) :
    Prop where
  verified : ∀ e, g.StoredEdge e → e.kind = .edgeImplements → e.confidence < 1 →
    (∃ n ∈ g.getNode e.fromID, (g.node n).language = "go") →
    (∃ i, MapsType chk objToNode true i e.toID) → Verified chk objToNode e.fromID e.toID
  reached : ∀ c i t u, MapsType chk objToNode false c t → MapsType chk objToNode true i u →
    chk.accepts c i = true → (t ≠ u ∧ (g.getNode t).isSome = true) ∨ HasImplements g t u

/-- **Compiler confirmation is sound and complete, exactly if there is nothing to weed out.** -/
theorem compilerVerified_iff (h : Inv s.1) :
    CompilerVerified chk ord objToNode s ↔ NothingToWeedOut chk objToNode s.1 := by
  have hkept := kept_enrichImplements chk ord objToNode h
  have hraised : ∀ r, s.1.StoredOut r → (s.1.edge r).confidence < 1 →
      (1 ≤ ((enrichImplements chk ord objToNode s).1.edge r).confidence ↔
        Raises s.1 (ifaceTypes chk ord objToNode) (s.1.edge r)) := by
    intro r hr hc
    rw [enrichImplements_eq h, edge_raiseAll]
    by_cases hraise : Raises s.1 (ifaceTypes chk ord objToNode) (s.1.edge r)
    · rw [if_pos ⟨(h.edges.mem_allEdges ord.graph).mpr hr, hraise⟩]
      exact iff_of_true (le_refl 1) hraise
    · rw [if_neg fun hand => hraise hand.2]
      exact iff_of_false (not_le.mpr hc) hraise
  have hends : ∀ t u, HasImplements
      (addMissingImplements chk ord objToNode (enrichImplements chk ord objToNode s)).1 t u ↔
      HasImplements s.1 t u ∨
        ((t, u) ∈ acceptedPairs chk ord objToNode ∧ (s.1.getNode t).isSome = true) := by
    intro t u
    rw [hasImplements_addMissingImplements hkept.inv, hasImplements_enrichImplements h,
      hkept.nodes.getNode]
  constructor
  · intro hv
    refine ⟨?_, fun c i t u hc hi hacc => ?_⟩
    · rintro e ⟨r, hr, rfl⟩ hkind hconf hgo hiface
      refine hv.sound r hr hkind hconf ((hraised r hr hconf).mpr ?_)
      exact ⟨hkind, hgo, hconf, isSome_ifaceTypes.mpr hiface⟩
    · rcases (hends t u).mp (hv.complete c i t u hc hi hacc) with hedge | ⟨hpair, hnode⟩
      · exact .inr hedge
      · exact .inl ⟨(mem_acceptedPairs.mp hpair).1, hnode⟩
  · intro hw
    refine ⟨fun r hr hkind hconf hone => ?_, fun c i t u hc hi hacc => ?_⟩
    · obtain ⟨-, hgo, -, hiface⟩ := (hraised r hr hconf).mp hone
      exact hw.verified _ hr.storedEdge hkind hconf hgo (isSome_ifaceTypes.mp hiface)
    · refine (hends t u).mpr ?_
      rcases hw.reached c i t u hc hi hacc with ⟨hne, hnode⟩ | hedge
      · exact .inr ⟨mem_acceptedPairs.mpr ⟨hne, c, i, hc, hi, hacc⟩, hnode⟩
      · exact .inl hedge

end Asked

/-! ### A type and an interface -/

namespace OneEdge

/-- An edge from a type to an interface, as it is inferred from names. -/
def inferred : Edge where
  fromID := "a.go::Buffer"
  toID := "a.go::Writer"
  kind := .edgeImplements
  filePath := "a.go"
  line := 3
  confidence := 7 / 10

/-- A type. -/
def buffer : Node where
  id := "a.go::Buffer"
  kind := .kindType
  name := "Buffer"
  filePath := "a.go"
  language := "go"

/-- An interface. -/
def writer : Node where
  id := "a.go::Writer"
  kind := .kindInterface
  name := "Writer"
  filePath := "a.go"
  language := "go"

/-- The two nodes, and the edge. -/
def graph : Graph := ((Graph.new.putNode buffer).putNode writer).putEdge inferred

theorem inv_graph : Inv graph := ((Inv.new.putNode _).putNode _).putEdge _

/-- The objects of the two nodes: `true` is the interface. -/
def mapped : GoMap Bool String :=
  ((∅ : GoMap Bool String).insert true "a.go::Writer").insert false "a.go::Buffer"

/-- A type checker that knows both, and says whether the type implements the interface. -/
def checker (implements : Bool) : Checker Bool where
  kind := fun _ => .typeName
  isInterface := id
  implements := fun _ _ => implements
  pointerImplements := fun _ _ => implements
  pkgPath := fun _ => some "a"
  name := fun obj => if obj then "Writer" else "Buffer"
  typeString := fun _ => ""
  returnType := fun _ => none

/-- Any orders. -/
def orders : Orders := ⟨.default, .default, .default⟩

/-- The edge is right, and it is confirmed. -/
theorem compilerVerified_implements :
    CompilerVerified (checker true) orders mapped (graph, {}) := by
  refine (compilerVerified_iff inv_graph).mpr ⟨fun e he _ _ _ _ => ?_, fun c i t u hc hi _ => ?_⟩
  · rcases ((Inv.new.putNode _).putNode _).storedEdge_putEdge inferred e |>.mp he with rfl | hold
    · exact ⟨false, true, false, ⟨rfl, rfl, rfl⟩, ⟨rfl, rfl, rfl⟩, rfl⟩
    · obtain ⟨⟨r, hr, -⟩, -⟩ := hold
      rw [storedOut_putNode, storedOut_putNode] at hr
      exact absurd hr List.not_mem_nil
  · obtain ⟨htc, -, hc⟩ := hc
    obtain ⟨hti, -, hi⟩ := hi
    obtain rfl : c = false := hc
    obtain rfl : i = true := hi
    obtain rfl : "a.go::Buffer" = t := Option.some.inj htc
    obtain rfl : "a.go::Writer" = u := Option.some.inj hti
    exact .inl ⟨by decide, by decide +kernel⟩

/-- **The edge is wrong, and it is confirmed all the same.** -/
theorem not_compilerVerified :
    ¬CompilerVerified (checker false) orders mapped (graph, {}) := by
  intro hv
  obtain ⟨c, i, concrete, -, -, hacc⟩ := hv.sound ⟨0⟩ (by decide +kernel) (by decide +kernel)
    (by decide +kernel) (by decide +kernel)
  exact absurd hacc (by simp [Checker.accepts, checker])

end OneEdge

end GoTypes

end Semantic

end Gortex
