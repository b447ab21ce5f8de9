import Gortex.Semantic.GoImplements

/-!
# What a run of the Go enrichment leaves

A run of the `go-types` provider changes the edges in three loops. What it leaves between two nodes
is put together from what each loop does there (`Gortex.Semantic.GoTypes.between_enrich`): the uses
raise the first edge or add one, the edges into mapped interfaces are raised, and an implementation
is added where there is none.

The counters of a run follow from its edges: what is added is what the graph has grown by, and what
is confirmed is what the uncertain edges have become fewer by
(`Gortex.Semantic.GoTypes.Tally.enrich`).
-/

namespace Gortex

namespace Semantic

open Graph

/-! ### The edges of a graph and their number -/

section Tally

variable {g g' : Graph} {s s' : Graph × EnrichResult} {e : Edge}

/-- The stored edges. -/
def edgeList (g : Graph) : List Edge := (g.allEdges .default).map g.edge

/-- An edge that is not certain. -/
def Uncertain (e : Edge) : Prop := e.confidence < 1

instance : DecidablePred Uncertain := fun e => inferInstanceAs (Decidable (e.confidence < 1))

theorem mem_edgeList (h : Inv g) : e ∈ edgeList g ↔ g.StoredEdge e := by
  simp only [edgeList, List.mem_map, h.edges.mem_allEdges]
  rfl

theorem nodup_edgeList (h : Inv g) : (edgeList g).Nodup := by
  refine List.Nodup.map_on (fun r hr r' hr' heq => ?_) (h.edges.nodup_allEdges _)
  exact h.edges.eq_of_key ((h.edges.mem_allEdges _).mp hr) ((h.edges.mem_allEdges _).mp hr')
    (congrArg keyOf heq)

/-- **The numbers of a run add up**: what is added is what the graph has grown by, and what is
confirmed is not uncertain any more. -/
structure Tally (g : Graph) (s : Graph × EnrichResult) : Prop where
  added : s.2.edgesAdded + (edgeList g).length = (edgeList s.1).length
  confirmed : s.2.edgesConfirmed + (edgeList s.1).countP (fun e => Uncertain e) =
    (edgeList g).countP fun e => Uncertain e

/-- An uncertain edge is confirmed. -/
theorem Tally.confirmEdge (h : Tally g s) (hs : Inv s.1) {r : EdgeRef} (hr : s.1.StoredOut r)
    (hc : (s.1.edge r).confidence < 1) (provider : String) :
    Tally g (confirmEdge s.1 r provider,
      { s.2 with edgesConfirmed := s.2.edgesConfirmed + 1 }) := by
  have hlist : edgeList (Semantic.confirmEdge s.1 r provider) = (s.1.allEdges .default).map
      fun r' => if r' = r then Semantic.confirmed provider (s.1.edge r) else s.1.edge r' := rfl
  refine ⟨?_, ?_⟩
  · rw [hlist, List.length_map, h.added, edgeList, List.length_map]
  · -- one entry of the list changes, and it is the only one behind the pointer
    obtain ⟨l, l', hsplit⟩ := List.append_of_mem ((hs.edges.mem_allEdges .default).mpr hr)
    have hnodup : (l ++ r :: l').Nodup := hsplit ▸ hs.edges.nodup_allEdges .default
    have hnot : ∀ r' ∈ l ++ l', r' ≠ r := by
      rintro r' hr' rfl
      exact (List.nodup_middle.mp hnodup).notMem hr'
    have hsame : ∀ k : List EdgeRef, (∀ r' ∈ k, r' ≠ r) →
        (k.map fun r' => if r' = r then Semantic.confirmed provider (s.1.edge r)
          else s.1.edge r') = k.map s.1.edge :=
      fun k hk => List.map_congr_left fun r' hr' => if_neg (hk r' hr')
    have hold : edgeList s.1 = l.map s.1.edge ++ s.1.edge r :: l'.map s.1.edge := by
      rw [edgeList, hsplit, List.map_append, List.map_cons]
    have hcount := h.confirmed
    have hun : Uncertain (s.1.edge r) := hc
    rw [hold, List.countP_append, List.countP_cons, if_pos (decide_eq_true hun)] at hcount
    rw [hlist, hsplit, List.map_append, List.map_cons, if_pos rfl,
      hsame l fun r' hr' => hnot r' (List.mem_append_left _ hr'),
      hsame l' fun r' hr' => hnot r' (List.mem_append_right _ hr'), List.countP_append,
      List.countP_cons, if_neg (by simp [Uncertain])]
    simp only
    omega

/-- A certain edge of a new identity is added. -/
theorem Tally.putEdge (h : Tally g s) (hs : Inv s.1) (hnew : ¬s.1.HasEdge (keyOf e))
    (hc : ¬Uncertain e) :
    Tally g (s.1.putEdge e, { s.2 with edgesAdded := s.2.edgesAdded + 1 }) := by
  have hperm : (edgeList (s.1.putEdge e)).Perm (e :: edgeList s.1) := by
    refine (List.perm_ext_iff_of_nodup (nodup_edgeList (hs.putEdge e)) ?_).mpr fun e' => ?_
    · refine List.nodup_cons.mpr ⟨fun hmem => hnew ?_, nodup_edgeList hs⟩
      exact ((mem_edgeList hs).mp hmem).hasEdge
    · rw [mem_edgeList (hs.putEdge e), hs.storedEdge_putEdge, List.mem_cons, mem_edgeList hs]
      refine or_congr_right (and_iff_left_of_imp fun hst hk => hnew ?_)
      exact hk ▸ hst.hasEdge
  refine ⟨?_, ?_⟩
  · have hadded := h.added
    rw [hperm.length_eq, List.length_cons]
    simp only
    omega
  · rw [hperm.countP_eq, List.countP_cons, if_neg (by simpa using hc)]
    exact h.confirmed

/-- No edge between two nodes has the property, so none has the identity of the new one. -/
theorem not_hasEdge_of_none (h : Inv g) {p : Edge → Prop} [DecidablePred p]
    (hkind : ∀ e', e'.kind = e.kind → p e') (hnone : g.firstEdge e.fromID e.toID p = none) :
    ¬g.HasEdge (keyOf e) := by
  rintro ⟨e', he', hk⟩
  refine firstEdge_eq_none.mp hnone e' (h.mem_between.mpr ⟨he', ?_, ?_⟩) (hkind e' ?_)
  · exact congrArg EdgeKey.fromID hk
  · exact congrArg EdgeKey.toID hk
  · exact congrArg EdgeKey.kind hk

theorem not_uncertain_semanticEdge (fromID toID : String) (kind : EdgeKind) (filePath : String)
    (line : ℤ) (provider : String) :
    ¬Uncertain (semanticEdge fromID toID kind filePath line provider) := by
  simp [Uncertain, semanticEdge]

theorem Tally.confirmOrAdd (h : Tally g s) (hs : Inv s.1) (provider fromID toID : String)
    (kind : Option EdgeKind) (filePath : String) (line : ℤ) :
    Tally g (confirmOrAdd provider fromID toID kind filePath line s) := by
  unfold Semantic.confirmOrAdd
  rw [findEdgeByTarget_eq]
  cases hfound : s.1.firstEdge fromID toID fun _ => True with
  | some r =>
    simp only
    split_ifs with hc
    · exact h.confirmEdge hs (hs.of_firstEdge hfound).1 hc provider
    · exact h
  | none =>
    cases kind with
    | none => exact h
    | some kind =>
      exact h.putEdge hs (not_hasEdge_of_none hs
        (e := semanticEdge fromID toID kind filePath line provider) (fun _ _ => trivial) hfound)
        (not_uncertain_semanticEdge _ _ _ _ _ _)

theorem Tally.addMissing (h : Tally g s) (hs : Inv s.1) (provider implID ifaceID : String) :
    Tally g (addMissing provider implID ifaceID s) := by
  unfold Semantic.addMissing addImplements
  cases hfound : findMatchingEdge s.1 implID ifaceID .edgeImplements with
  | some r => exact h
  | none =>
    cases s.1.getNode implID with
    | none => exact h
    | some r =>
      exact h.putEdge hs (not_hasEdge_of_none hs (p := fun e => e.kind = .edgeImplements)
        (e := semanticEdge implID ifaceID .edgeImplements (s.1.node r).filePath
          (s.1.node r).startLine provider) (fun _ hk => hk) hfound)
        (not_uncertain_semanticEdge _ _ _ _ _ _)

end Tally

namespace GoTypes

variable {Obj : Type} {chk : Checker Obj} {ord : Orders} {objToNode : GoMap Obj String}
  {absRoot : String} {g : Graph} {s : Graph × EnrichResult}

/-! ### What raising the edges leaves between two nodes -/

/-- An edge after `enrichImplements`. -/
def raisedIf (g : Graph) (ifaces : GoMap String Obj) (e : Edge) : Edge :=
  if Raises g ifaces e then confirmed providerName e else e

theorem between_raiseAll (h : Inv g) (ifaces : GoMap String Obj) (ord : MapOrder)
    (i : String × String) :
    (raiseAll g ifaces (g.allEdges ord)).between i.1 i.2 =
      (g.between i.1 i.2).map (raisedIf g ifaces) := by
  have hto : ∀ e, (raisedIf g ifaces e).toID = e.toID := by
    intro e
    unfold raisedIf
    split_ifs <;> rfl
  have hat : (raiseAll g ifaces (g.allEdges ord)).edgesAt i.1 =
      (g.edgesAt i.1).map (raisedIf g ifaces) := by
    rw [edgesAt, edgesAt, List.map_map]
    refine List.map_congr_left fun r hr => ?_
    have hmem : r ∈ g.allEdges ord :=
      (h.edges.mem_allEdges ord).mpr (h.edges.mem_getOutEdges.mp hr).2
    rw [edge_raiseAll, Function.comp_apply, raisedIf]
    exact if_congr (and_iff_right hmem) rfl rfl
  rw [between, hat, List.filter_map, between]
  refine congrArg _ (List.filter_congr fun e _ => ?_)
  rw [Function.comp_apply, hto]

/-! ### The uses -/

section Uses

variable [DecidableEq Obj]

/-- The two nodes of a use: the function it is in and the node of its object. -/
def useEnds (ord : Orders) (absRoot : String) (objToNode : GoMap Obj String) (g : Graph)
    (u : Ident × Option Obj) : Option (String × String) :=
  u.2.bind fun obj => (place absRoot u.1).bind fun at_ =>
    (findContainingFunc g (ord.fileNodes g at_.1) at_.2).bind fun callerNode =>
      (objToNode.lookup obj).bind fun targetNodeID =>
        if g.idOf callerNode = targetNodeID then none
        else some (g.idOf callerNode, targetNodeID)

/-- The edge of a use between two nodes, if its object gives one. -/
def useEdge (chk : Checker Obj) (absRoot : String) (u : Ident × Option Obj)
    (ends : String × String) : Option Edge :=
  u.2.bind fun obj => (place absRoot u.1).bind fun at_ =>
    (inferEdgeKindFromObj (chk.kind obj)).map fun kind =>
      semanticEdge ends.1 ends.2 kind at_.1 at_.2 providerName

/-- What phase 2 looks at for a use. -/
def useSite (chk : Checker Obj) (ord : Orders) (absRoot : String) (objToNode : GoMap Obj String)
    (g : Graph) (u : Ident × Option Obj) : Option Site :=
  (useEnds ord absRoot objToNode g u).map fun ends => ⟨ends, useEdge chk absRoot u ends⟩

theorem useEnds_kept {g' : Graph} (h : NodesKept g g') (u : Ident × Option Obj) :
    useEnds ord absRoot objToNode g' u = useEnds ord absRoot objToNode g u := by
  unfold useEnds findContainingFunc Orders.fileNodes
  simp only [h.getFileNodes, innermost_kept h, h.idOf]

variable (chk ord absRoot objToNode) in
/-- A turn of phase 2 looks at the two nodes of the use. -/
theorem useStep_eq (s : Graph × EnrichResult) (u : Ident × Option Obj) :
    useStep chk ord absRoot objToNode s u = s ∧
        useEnds ord absRoot objToNode s.1 u = none ∨
      ∃ obj at_ ends, u.2 = some obj ∧ place absRoot u.1 = some at_ ∧
        useEnds ord absRoot objToNode s.1 u = some ends ∧
        useStep chk ord absRoot objToNode s u = confirmOrAdd providerName ends.1 ends.2
          (inferEdgeKindFromObj (chk.kind obj)) at_.1 at_.2 s := by
  unfold useStep useEnds
  cases hobj : u.2 with
  | none => exact .inl ⟨rfl, rfl⟩
  | some obj =>
    cases hplace : place absRoot u.1 with
    | none => exact .inl ⟨rfl, rfl⟩
    | some at_ =>
      simp only [Option.bind_some]
      cases findContainingFunc s.1 (ord.fileNodes s.1 at_.1) at_.2 with
      | none => exact .inl ⟨rfl, rfl⟩
      | some callerNode =>
        simp only [Option.bind_some]
        cases objToNode.lookup obj with
        | none => exact .inl ⟨rfl, rfl⟩
        | some targetNodeID =>
          simp only [Option.bind_some]
          split_ifs with hself
          · exact .inl ⟨rfl, rfl⟩
          · exact .inr ⟨obj, at_, _, rfl, rfl, rfl, rfl⟩

variable (chk ord absRoot objToNode) in
/-- **A turn of phase 2** is at its site. -/
theorem useStep_site (hs : Kept g s.1) (u : Ident × Option Obj) :
    (useSite chk ord absRoot objToNode g u = none ∧
        useStep chk ord absRoot objToNode s u = s) ∨
      ∃ t, useSite chk ord absRoot objToNode g u = some t ∧
        Touches (fun _ => True) (raised providerName) t.ends t.new s.1
          (useStep chk ord absRoot objToNode s u).1 := by
  rw [useSite, ← useEnds_kept hs.nodes]
  rcases useStep_eq chk ord objToNode absRoot s u with ⟨heq, hnone⟩ | ⟨obj, at_, ends, hobj, hplace, hends, heq⟩
  · rw [hnone]
    exact .inl ⟨rfl, heq⟩
  · rw [hends, heq]
    refine .inr ⟨_, rfl, ?_⟩
    have htouch := touches_confirmOrAdd providerName ends.1 ends.2 hs.inv
      (inferEdgeKindFromObj (chk.kind obj)) at_.1 at_.2
    simp only [useEdge, hobj, hplace, Option.bind_some]
    exact htouch

/-! ### A whole run -/

/-- What the uses have to add between two nodes. -/
def usesAt (chk : Checker Obj) (ord : Orders) (absRoot : String) (pkgs : List (Package Obj))
    (objToNode : GoMap Obj String) (g : Graph) (i : String × String) : List (Option Edge) :=
  newsAt ((entries ord pkgs .uses Info.uses).filterMap
    (useSite chk ord absRoot objToNode g)) i

/-- **What a run leaves between two nodes**, of what was there: the uses, the edges into mapped
interfaces and the missing implementations, one after the other. -/
def leaves (chk : Checker Obj) (ord : Orders) (objToNode : GoMap Obj String) (g : Graph)
    (uses : List (Option Edge)) (i : String × String) (l : List Edge) : List Edge :=
  let l := if uses = [] then l
    else l.upsert (fun _ => True) (raised providerName) (uses.findSome? id)
  let l := l.map (raisedIf g (ifaceTypes chk ord objToNode))
  if i ∈ acceptedPairs chk ord objToNode then
    l.upsert (fun e => e.kind = .edgeImplements) id (implementsEdge g providerName i.1 i.2)
  else l

/-- The uses add edges that need not be raised. -/
theorem raised_of_mem_usesAt {pkgs : List (Package Obj)} {i : String × String} {e : Edge}
    (he : some e ∈ usesAt chk ord absRoot pkgs objToNode g i) : raised providerName e = e := by
  obtain ⟨t, ht, hnew⟩ := exists_of_mem_newsAt he
  obtain ⟨u, -, hu⟩ := List.mem_filterMap.mp ht
  obtain ⟨ends, -, rfl⟩ := Option.map_eq_some_iff.mp hu
  simp only [useEdge, Option.bind_eq_some_iff, Option.map_eq_some_iff] at hnew
  obtain ⟨obj, -, at_, -, kind, -, rfl⟩ := hnew
  rw [← confirmed_semanticEdge, raised_confirmed]

omit [DecidableEq Obj] in
theorem raisedIf_kept {g' : Graph} (h : NodesKept g g') (ifaces : GoMap String Obj) :
    raisedIf g' ifaces = raisedIf g ifaces := by
  funext e
  unfold raisedIf Raises
  have hgo : (∃ n ∈ g'.getNode e.fromID, (g'.node n).language = "go") ↔
      ∃ n ∈ g.getNode e.fromID, (g.node n).language = "go" := by
    rw [h.getNode]
    refine exists_congr fun n => and_congr_right fun _ => ?_
    rw [h.read (f := Node.language) fun _ => rfl]
  exact if_congr (and_congr_right fun _ => and_congr_left fun _ => hgo) rfl rfl

variable (chk objToNode) in
/-- Phase 4 leaves the edges alone. -/
theorem metaStep_kept (hs : Kept g s.1) (l : List (Ident × Option Obj)) :
    Kept g (l.foldl (metaStep chk objToNode) s).1 ∧
      (l.foldl (metaStep chk objToNode) s).1.shards = s.1.shards ∧
      (l.foldl (metaStep chk objToNode) s).1.edge = s.1.edge := by
  refine List.foldl_invariant (P := fun s' : Graph × EnrichResult => Kept g s'.1 ∧
    s'.1.shards = s.1.shards ∧ s'.1.edge = s.1.edge) (fun s' d _ hs' => ?_) ⟨hs, rfl, rfl⟩
  -- what is written is the metadata of a node
  have hwrite : ∀ {g' : Graph} (r : NodeRef) (key : String) (value : MetaValue),
      Kept g g' ∧ g'.shards = s.1.shards ∧ g'.edge = s.1.edge →
      Kept g (enrichNodeMeta g' r key value providerName) ∧
        (enrichNodeMeta g' r key value providerName).shards = s.1.shards ∧
        (enrichNodeMeta g' r key value providerName).edge = s.1.edge :=
    fun r key value h => ⟨⟨h.1.inv.enrichNodeMeta .., h.1.nodes.trans
      (NodesKept.enrichNodeMeta ..)⟩, h.2⟩
  unfold metaStep
  split
  · exact hs'
  · rename_i obj _
    split
    · exact hs'
    · rename_i node _
      simp only
      have htype : ∀ t : Graph × EnrichResult,
          Kept g t.1 ∧ t.1.shards = s.1.shards ∧ t.1.edge = s.1.edge →
          Kept g (putReturnType chk t node obj).1 ∧
            (putReturnType chk t node obj).1.shards = s.1.shards ∧
            (putReturnType chk t node obj).1.edge = s.1.edge := by
        intro t ht
        unfold putReturnType
        split
        · exact hwrite _ _ _ ht
        · exact ht
      refine htype _ ?_
      split_ifs
      · exact hwrite _ _ _ hs'
      · exact hs'

variable {pkgs : List (Package Obj)}

/-- The state of a run after the uses, of the objects that are mapped. -/
def afterUses (chk : Checker Obj) (ord : Orders) (absRoot : String) (pkgs : List (Package Obj))
    (g : Graph) : Graph × EnrichResult :=
  let mapped := mapDefinitions chk ord absRoot pkgs g
  (entries ord pkgs .uses Info.uses).foldl (useStep chk ord absRoot mapped.objToNode)
    (g, coverage mapped.symbolsCovered (countedNodes ord g).length)

/-- The state of a run after the implementations. -/
def afterImplements (chk : Checker Obj) (ord : Orders) (absRoot : String)
    (pkgs : List (Package Obj)) (g : Graph) : Graph × EnrichResult :=
  let objToNode := (mapDefinitions chk ord absRoot pkgs g).objToNode
  addMissingImplements chk ord objToNode
    (enrichImplements chk ord objToNode (afterUses chk ord absRoot pkgs g))

theorem enrich_eq (chk : Checker Obj) (ord : Orders) (absRoot : String)
    (pkgs : List (Package Obj)) (g : Graph) : enrich chk ord absRoot pkgs g =
      (entries ord pkgs .metadata Info.defs).foldl
        (metaStep chk (mapDefinitions chk ord absRoot pkgs g).objToNode)
        (afterImplements chk ord absRoot pkgs g) := rfl

variable (chk ord absRoot pkgs) in
/-- What the uses leave between two nodes. -/
theorem between_afterUses (h : Inv g) (i : String × String) :
    Kept g (afterUses chk ord absRoot pkgs g).1 ∧
      (afterUses chk ord absRoot pkgs g).1.between i.1 i.2 =
        let uses := usesAt chk ord absRoot pkgs (mapDefinitions chk ord absRoot pkgs g).objToNode
          g i
        if uses = [] then g.between i.1 i.2
        else (g.between i.1 i.2).upsert (fun _ => True) (raised providerName)
          (uses.findSome? id) := by
  obtain ⟨hkept, hbetween⟩ := Kept.foldl (l := entries ord pkgs .uses Info.uses)
    (fun _ hs u _ => useStep_site chk ord
      (mapDefinitions chk ord absRoot pkgs g).objToNode absRoot hs u)
    (s := (g, coverage (mapDefinitions chk ord absRoot pkgs g).symbolsCovered
      (countedNodes ord g).length)) (Kept.refl h)
  refine ⟨hkept, (hbetween i).trans ?_⟩
  exact List.foldl_upsert (p := fun _ => True) (f := raised providerName) (fun _ => Iff.rfl)
    (raised_raised providerName) (fun e he => ⟨trivial, raised_of_mem_usesAt he⟩) _

variable (chk ord absRoot pkgs) in
/-- **What a run leaves between two nodes.** -/
theorem between_enrich (h : Inv g) (i : String × String) :
    Kept g (enrich chk ord absRoot pkgs g).1 ∧
      (enrich chk ord absRoot pkgs g).1.between i.1 i.2 =
        leaves chk ord (mapDefinitions chk ord absRoot pkgs g).objToNode g
          (usesAt chk ord absRoot pkgs (mapDefinitions chk ord absRoot pkgs g).objToNode g i) i
          (g.between i.1 i.2) := by
  obtain ⟨hkept₂, hbetween₂⟩ := between_afterUses chk ord absRoot pkgs h i
  have hkept₃ := kept_enrichImplements chk ord (mapDefinitions chk ord absRoot pkgs g).objToNode
    hkept₂.inv
  obtain ⟨hkept₄, hbetween₄⟩ := between_addMissingImplements chk ord
    (mapDefinitions chk ord absRoot pkgs g).objToNode hkept₃.inv
  have hnodes₃ := hkept₂.nodes.trans hkept₃.nodes
  obtain ⟨hkept₅, hshards, hedge⟩ := metaStep_kept chk
    (mapDefinitions chk ord absRoot pkgs g).objToNode
    (s := afterImplements chk ord absRoot pkgs g) ⟨hkept₄.inv, hnodes₃.trans hkept₄.nodes⟩
    (entries ord pkgs .metadata Info.defs)
  rw [enrich_eq]
  refine ⟨hkept₅, ?_⟩
  have hlast : ((entries ord pkgs .metadata Info.defs).foldl
      (metaStep chk (mapDefinitions chk ord absRoot pkgs g).objToNode)
      (afterImplements chk ord absRoot pkgs g)).1.between i.1 i.2 =
      (afterImplements chk ord absRoot pkgs g).1.between i.1 i.2 := by
    unfold Graph.between edgesAt getOutEdges shardFor
    rw [hshards, hedge]
  have hraised : (enrichImplements chk ord (mapDefinitions chk ord absRoot pkgs g).objToNode
      (afterUses chk ord absRoot pkgs g)).1.between i.1 i.2 =
      ((afterUses chk ord absRoot pkgs g).1.between i.1 i.2).map (raisedIf g
        (ifaceTypes chk ord (mapDefinitions chk ord absRoot pkgs g).objToNode)) := by
    rw [enrichImplements_eq hkept₂.inv, ← raisedIf_kept hkept₂.nodes]
    exact between_raiseAll hkept₂.inv _ _ i
  rw [hlast, afterImplements]
  refine (hbetween₄ i).trans ?_
  rw [implementsEdge_kept hnodes₃, hraised, hbetween₂]
  rfl

/-! ### The numbers of a run -/

/-- The uses are accounted for. -/
theorem tally_afterUses (h : Inv g) : Tally g (afterUses chk ord absRoot pkgs g) := by
  refine (List.foldl_invariant (P := fun s : Graph × EnrichResult => Kept g s.1 ∧ Tally g s)
    (fun s u _ hs => ?_) ⟨Kept.refl h, Nat.zero_add _, Nat.zero_add _⟩).2
  rcases useStep_site chk ord (mapDefinitions chk ord absRoot pkgs g).objToNode absRoot hs.1 u with
    ⟨-, heq⟩ | ⟨t, -, htouch⟩
  · rw [heq]
    exact hs
  · refine ⟨⟨htouch.inv, hs.1.nodes.trans htouch.nodes⟩, ?_⟩
    rcases useStep_eq chk ord (mapDefinitions chk ord absRoot pkgs g).objToNode absRoot s u with
      ⟨heq, -⟩ | ⟨obj, at_, ends, -, -, -, heq⟩
    · rw [heq]
      exact hs.2
    · rw [heq]
      exact hs.2.confirmOrAdd hs.1.inv _ _ _ _ _ _

omit [DecidableEq Obj] in
/-- The raised edges are accounted for. -/
theorem tally_enrichImplements (ht : Tally g s) (hs : Inv s.1) :
    Tally g (enrichImplements chk ord objToNode s) := by
  refine (List.foldl_invariant (P := fun s' : Graph × EnrichResult => Kept s.1 s'.1 ∧
    Tally g s' ∧ ∀ r, s.1.StoredOut r → s'.1.StoredOut r) (fun s' r hr hs' => ?_)
    ⟨Kept.refl hs, ht, fun _ hr => hr⟩).2.1
  obtain ⟨hkept, htally, hstored⟩ := hs'
  rw [confirmStep_eq]
  split_ifs with hraise
  · refine ⟨⟨hkept.inv.setEdge_of_key rfl, hkept.nodes.trans (NodesKept.setEdge ..)⟩,
      htally.confirmEdge hkept.inv (hstored r ((hs.edges.mem_allEdges _).mp hr)) hraise.2.2.1 _,
      fun r' hr' => ?_⟩
    have hfrom : ((confirmEdge s'.1 r providerName).edge r').fromID = (s'.1.edge r').fromID := by
      by_cases hrr : r' = r
      · rw [hrr]
        have hself : (confirmEdge s'.1 r providerName).edge r =
            confirmed providerName (s'.1.edge r) := setEdge_edge_self ..
        exact (congrArg Edge.fromID hself).trans rfl
      · exact congrArg Edge.fromID (setEdge_edge_of_ne s'.1 _ hrr)
    rw [StoredOut, hfrom]
    exact hstored r' hr'
  · exact ⟨hkept, htally, hstored⟩

omit [DecidableEq Obj] in
/-- The added implementations are accounted for. -/
theorem tally_addMissingImplements (ht : Tally g s) (hs : Inv s.1) :
    Tally g (addMissingImplements chk ord objToNode s) :=
  (List.foldl_invariant (P := fun s' : Graph × EnrichResult => Inv s'.1 ∧ Tally g s')
    (fun _ _ _ hs' => ⟨(touches_addMissing _ _ _ hs'.1).inv, hs'.2.addMissing hs'.1 _ _ _⟩)
    ⟨hs, ht⟩).2

variable (chk ord absRoot pkgs) in
/-- **The numbers of a run add up**, before the metadata is written. -/
theorem tally_afterImplements (h : Inv g) : Tally g (afterImplements chk ord absRoot pkgs g) := by
  have hkept₂ := (between_afterUses chk ord absRoot pkgs h ("", "")).1
  have hkept₃ := kept_enrichImplements chk ord (mapDefinitions chk ord absRoot pkgs g).objToNode
    hkept₂.inv
  exact tally_addMissingImplements (tally_enrichImplements (tally_afterUses h) hkept₂.inv)
    hkept₃.inv

end Uses

end GoTypes

end Semantic

end Gortex
