import Gortex.Semantic.Matcher

/-!
# Looking at a reference

The bodies of the loops in which the semantic providers go over the references and over the
implementations of their indexes: an edge between two nodes is looked for, raised if it is there,
and else added.

Each body is one `List.upsert` on the edges between two nodes and leaves everything else alone
(`Gortex.Semantic.Touches`). So what a whole loop leaves between two nodes comes from the turns at
these two nodes only (`Gortex.Semantic.Kept.foldl`).
-/

namespace Gortex

namespace Semantic

open Graph

/-! ### The bodies -/

/-- **A reference**: the edge to the target is confirmed if it is not certain, and a new edge is
added if there is none and the kind of the target gives one. -/
def confirmOrAdd (provider fromID toID : String) (kind : Option EdgeKind) (filePath : String)
    (line : ℤ) (s : Graph × EnrichResult) : Graph × EnrichResult :=
  match findEdgeByTarget s.1 fromID toID with
  | some existing =>
    if (s.1.edge existing).confidence < 1 then
      (confirmEdge s.1 existing provider, { s.2 with edgesConfirmed := s.2.edgesConfirmed + 1 })
    else s
  | none =>
    match kind with
    | some kind =>
      (addSemanticEdge s.1 fromID toID kind filePath line provider,
        { s.2 with edgesAdded := s.2.edgesAdded + 1 })
    | none => s

/-- The edge that is added for an implementation: it is at the type. -/
def addImplements (provider implID ifaceID : String) (s : Graph × EnrichResult) :
    Graph × EnrichResult :=
  match s.1.getNode implID with
  | some implNode =>
    (addSemanticEdge s.1 implID ifaceID .edgeImplements (s.1.node implNode).filePath
        (s.1.node implNode).startLine provider,
      { s.2 with edgesAdded := s.2.edgesAdded + 1 })
  | none => s

/-- **An implementation in an index**: the edge is confirmed, or added if there is none. -/
def confirmImplements (provider implID ifaceID : String) (s : Graph × EnrichResult) :
    Graph × EnrichResult :=
  match findMatchingEdge s.1 implID ifaceID .edgeImplements with
  | some existing =>
    (confirmEdge s.1 existing provider, { s.2 with edgesConfirmed := s.2.edgesConfirmed + 1 })
  | none => addImplements provider implID ifaceID s

/-- **An implementation that a type checker has found**: the edge is added if there is none. -/
def addMissing (provider implID ifaceID : String) (s : Graph × EnrichResult) :
    Graph × EnrichResult :=
  match findMatchingEdge s.1 implID ifaceID .edgeImplements with
  | some _ => s
  | none => addImplements provider implID ifaceID s

/-! ### What a body does -/

/-- An edge that is raised if it is not certain. -/
def raised (provider : String) (e : Edge) : Edge :=
  if e.confidence < 1 then confirmed provider e else e

theorem keyOf_raised (provider : String) (e : Edge) : keyOf (raised provider e) = keyOf e := by
  unfold raised
  split_ifs <;> rfl

theorem raised_of_certain (provider : String) {e : Edge} (h : ¬e.confidence < 1) :
    raised provider e = e := if_neg h

theorem raised_confirmed (provider : String) (e : Edge) :
    raised provider (confirmed provider e) = confirmed provider e :=
  raised_of_certain provider (by simp)

theorem raised_raised (provider : String) (e : Edge) :
    raised provider (raised provider e) = raised provider e := by
  by_cases h : e.confidence < 1
  · have hraised : raised provider e = confirmed provider e := if_pos h
    rw [hraised, raised_confirmed]
  · rw [raised_of_certain provider h, raised_of_certain provider h]

variable {g g' : Graph} {p : Edge → Prop} [DecidablePred p] {f : Edge → Edge}

/-- **The first edge with a property between two nodes is written, or one is appended**, and the
rest is as it was. -/
structure Touches (p : Edge → Prop) [DecidablePred p] (f : Edge → Edge) (i : String × String)
    (new : Option Edge) (g g' : Graph) : Prop where
  inv : Inv g'
  nodes : NodesKept g g'
  between : ∀ j : String × String, g'.between j.1 j.2 =
    if j = i then (g.between i.1 i.2).upsert p f new else g.between j.1 j.2

/-- Nothing happens, and nothing was to happen. -/
theorem Touches.refl (h : Inv g) {i : String × String} {new : Option Edge}
    (hid : (g.between i.1 i.2).upsert p f new = g.between i.1 i.2) : Touches p f i new g g :=
  ⟨h, NodesKept.refl g, fun j => by
    split_ifs with hj
    · rw [hid, hj]
    · rfl⟩

/-- The edge that is found is written. -/
theorem Touches.setEdge (h : Inv g) (hf : ∀ e, keyOf (f e) = keyOf e) {fromID toID : String}
    {r : EdgeRef} (hr : g.firstEdge fromID toID p = some r) (new : Option Edge) :
    Touches p f (fromID, toID) new g (g.setEdge r (f (g.edge r))) :=
  ⟨h.setEdge_of_key (hf _), NodesKept.setEdge .., h.between_setEdge hf hr new⟩

/-- No edge is found, and one is added. -/
theorem Touches.putEdge (h : Inv g) {e : Edge} (hkind : ∀ e', e'.kind = e.kind → p e')
    (hnone : g.firstEdge e.fromID e.toID p = none) :
    Touches p f (e.fromID, e.toID) (some e) g (g.putEdge e) :=
  ⟨h.putEdge e, NodesKept.putEdge .., h.between_putEdge_of_none hkind hnone⟩

/-- No edge is found, and none is added. -/
theorem Touches.of_none (h : Inv g) {fromID toID : String}
    (hnone : g.firstEdge fromID toID p = none) : Touches p f (fromID, toID) none g g :=
  Touches.refl h <| by
    rw [List.upsert_of_forall (firstEdge_eq_none.mp hnone), Option.toList_none, List.append_nil]

section Bodies

variable {s : Graph × EnrichResult} (provider fromID toID : String)

theorem findEdgeByTarget_eq (g : Graph) (fromID toID : String) :
    findEdgeByTarget g fromID toID = g.firstEdge fromID toID fun _ => True := by
  simp only [findEdgeByTarget, firstEdge, and_true]

/-- **What looking at a reference does.** -/
theorem touches_confirmOrAdd (h : Inv s.1) (kind : Option EdgeKind) (filePath : String) (line : ℤ) :
    Touches (fun _ => True) (raised provider) (fromID, toID)
      (kind.map fun kind => semanticEdge fromID toID kind filePath line provider) s.1
      (confirmOrAdd provider fromID toID kind filePath line s).1 := by
  unfold confirmOrAdd
  rw [findEdgeByTarget_eq]
  cases hfound : s.1.firstEdge fromID toID fun _ => True with
  | some r =>
    have hset := Touches.setEdge h (keyOf_raised provider) hfound
      (kind.map fun kind => semanticEdge fromID toID kind filePath line provider)
    simp only
    split_ifs with hc
    · rwa [raised, if_pos hc] at hset
    · rw [raised_of_certain provider hc, setEdge_self] at hset
      exact hset
  | none =>
    cases kind with
    | some kind =>
      exact Touches.putEdge (e := semanticEdge fromID toID kind filePath line provider) h
        (fun _ _ => trivial) hfound
    | none => exact Touches.of_none h hfound

/-- The edge that `addImplements` adds, if the type has a node. -/
def implementsEdge (g : Graph) (provider implID ifaceID : String) : Option Edge :=
  (g.getNode implID).map fun r => semanticEdge implID ifaceID .edgeImplements
    (g.node r).filePath (g.node r).startLine provider

theorem implementsEdge_kept (h : NodesKept g g') (provider implID ifaceID : String) :
    implementsEdge g' provider implID ifaceID = implementsEdge g provider implID ifaceID := by
  have hedge : (fun r => semanticEdge implID ifaceID .edgeImplements (g'.node r).filePath
      (g'.node r).startLine provider) = fun r => semanticEdge implID ifaceID .edgeImplements
        (g.node r).filePath (g.node r).startLine provider :=
    funext fun r => h.read (f := fun n => semanticEdge implID ifaceID .edgeImplements n.filePath
      n.startLine provider) (fun _ => rfl) r
  rw [implementsEdge, h.getNode, hedge, implementsEdge]

theorem touches_addImplements (h : Inv s.1)
    (hnone : findMatchingEdge s.1 fromID toID .edgeImplements = none) :
    Touches (fun e => e.kind = .edgeImplements) f (fromID, toID)
      (implementsEdge s.1 provider fromID toID) s.1 (addImplements provider fromID toID s).1 := by
  rw [addImplements, implementsEdge]
  cases s.1.getNode fromID with
  | some r =>
    exact Touches.putEdge (p := fun e : Edge => e.kind = .edgeImplements)
      (e := semanticEdge fromID toID .edgeImplements (s.1.node r).filePath
        (s.1.node r).startLine provider) h (fun _ hk => hk) hnone
  | none => exact Touches.of_none h hnone

/-- **What an implementation in an index does.** -/
theorem touches_confirmImplements (h : Inv s.1) :
    Touches (fun e => e.kind = .edgeImplements) (confirmed provider) (fromID, toID)
      (implementsEdge s.1 provider fromID toID) s.1
      (confirmImplements provider fromID toID s).1 := by
  rw [confirmImplements]
  cases hfound : findMatchingEdge s.1 fromID toID .edgeImplements with
  | some r =>
    exact Touches.setEdge (p := fun e : Edge => e.kind = .edgeImplements) h
      (keyOf_confirmed provider) hfound _
  | none => exact touches_addImplements provider fromID toID h hfound

/-- **What an implementation that a type checker has found does.** -/
theorem touches_addMissing (h : Inv s.1) :
    Touches (fun e => e.kind = .edgeImplements) id (fromID, toID)
      (implementsEdge s.1 provider fromID toID) s.1 (addMissing provider fromID toID s).1 := by
  rw [addMissing]
  cases hfound : findMatchingEdge s.1 fromID toID .edgeImplements with
  | some r =>
    have hset := Touches.setEdge (p := fun e : Edge => e.kind = .edgeImplements) (f := id) h
      (fun _ => rfl) hfound (implementsEdge s.1 provider fromID toID)
    rwa [id, setEdge_self] at hset
  | none => exact touches_addImplements provider fromID toID h hfound

end Bodies

/-! ### Whole loops -/

/-- Two nodes that a turn of a loop looks at, with the edge it has to add. -/
structure Site where
  ends : String × String
  new : Option Edge

/-- What a list of sites has to add between two nodes, turn by turn. -/
def newsAt (sites : List Site) (i : String × String) : List (Option Edge) :=
  (sites.filter fun t => t.ends = i).map Site.new

/-- The new edges of a list of sites are those of its sites. -/
theorem exists_of_mem_newsAt {sites : List Site} {i : String × String} {new : Option Edge}
    (h : new ∈ newsAt sites i) : ∃ t ∈ sites, t.new = new := by
  obtain ⟨t, ht, rfl⟩ := List.mem_map.mp h
  exact ⟨t, (List.mem_filter.mp ht).1, rfl⟩

/-- A graph that a provider has come to from another one. -/
structure Kept (g g' : Graph) : Prop where
  inv : Inv g'
  nodes : NodesKept g g'

theorem Kept.refl (h : Inv g) : Kept g g := ⟨h, NodesKept.refl g⟩

/-- **What a loop leaves between two nodes** comes from its turns at these two nodes: each is the
write of the first edge with the property, or the append. -/
theorem Kept.foldl {α : Type} {step : Graph × EnrichResult → α → Graph × EnrichResult}
    {site : α → Option Site} {l : List α}
    (hstep : ∀ s, Kept g s.1 → ∀ a ∈ l,
      (site a = none ∧ step s a = s) ∨
        ∃ t, site a = some t ∧ Touches p f t.ends t.new s.1 (step s a).1)
    {s : Graph × EnrichResult} (hs : Kept g s.1) :
    Kept g (l.foldl step s).1 ∧
      ∀ i : String × String, (l.foldl step s).1.between i.1 i.2 =
        (newsAt (l.filterMap site) i).foldl (fun l new => l.upsert p f new)
          (s.1.between i.1 i.2) := by
  induction l generalizing s with
  | nil => exact ⟨hs, fun _ => rfl⟩
  | cons a l ih =>
    have hrest : ∀ s, Kept g s.1 → ∀ b ∈ l, (site b = none ∧ step s b = s) ∨
        ∃ t, site b = some t ∧ Touches p f t.ends t.new s.1 (step s b).1 :=
      fun s hs b hb => hstep s hs b (List.mem_cons_of_mem a hb)
    rw [List.foldl_cons]
    rcases hstep s hs a List.mem_cons_self with ⟨hnone, heq⟩ | ⟨t, hsome, htouch⟩
    · rw [List.filterMap_cons_none hnone, heq]
      exact ih hrest hs
    · obtain ⟨hkept, hbetween⟩ := ih hrest (s := step s a) ⟨htouch.inv, hs.nodes.trans htouch.nodes⟩
      refine ⟨hkept, fun i => ?_⟩
      rw [List.filterMap_cons_some hsome, hbetween, htouch.between]
      by_cases hi : t.ends = i
      · rw [if_pos hi.symm, newsAt, newsAt, List.filter_cons, if_pos (decide_eq_true hi),
          List.map_cons, List.foldl_cons, hi]
      · rw [if_neg (Ne.symm hi), newsAt, newsAt, List.filter_cons, if_neg (by simpa using hi)]

end Semantic

end Gortex
