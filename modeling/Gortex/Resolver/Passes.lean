import Gortex.Graph.Reachable
import Gortex.Resolver.Resolver

/-!
# What the resolver leaves alone

Resolving an edge writes its target, and fields outside its identity
(`Gortex.Lookup.sameSite_resolveEdge`); so a pass over the graph leaves the nodes as
they are, and leads from a reachable graph to a reachable one, whatever it finds.
-/

namespace Gortex

open Graph GoString

/-! ### One edge -/

theorem Graph.SameSite.refl (e : Edge) : SameSite e e := ⟨rfl, rfl, rfl, rfl⟩

namespace Edge

variable (e : Edge)

theorem sameSite_resolveTo (c : Node) : SameSite e (e.resolveTo c).1 := ⟨rfl, rfl, rfl, rfl⟩

theorem sameSite_resolveScored (confidence : ℚ) (c : Node) :
    SameSite e (e.resolveScored confidence c).1 := ⟨rfl, rfl, rfl, rfl⟩

theorem sameSite_resolveAcross (callerRepo : String) (c : Node) :
    SameSite e (e.resolveAcross callerRepo c).1 := ⟨rfl, rfl, rfl, rfl⟩

theorem sameSite_resolveExternal (label : String) : SameSite e (e.resolveExternal label).1 :=
  ⟨rfl, rfl, rfl, rfl⟩

/-- What a pass answers, if it does, is the edge at its site. -/
def Keeps {ω : Type} (x : Option (Edge × ω)) : Prop := ∀ y, x = some y → SameSite e y.1

variable {e} {ω : Type}

theorem Keeps.none : e.Keeps (none : Option (Edge × ω)) := fun _ h => nomatch h

theorem Keeps.map {x : Option Node} {f : Node → Edge × ω} (h : ∀ c, SameSite e (f c).1) :
    e.Keeps (x.map f) := fun y hy => by
  obtain ⟨c, -, rfl⟩ := Option.map_eq_some_iff.mp hy
  exact h c

theorem Keeps.orElse {x y : Option (Edge × ω)} (hx : e.Keeps x) (hy : e.Keeps y) :
    e.Keeps (x <|> y) := by
  cases x with
  | none => exact hy
  | some x => exact hx

theorem Keeps.getD {x : Option (Edge × ω)} (hx : e.Keeps x) (o : ω) :
    SameSite e (x.getD (e, o)).1 := by
  cases x with
  | none => exact SameSite.refl e
  | some x => exact hx x rfl

end Edge

namespace Lookup

open Edge

variable (v : Lookup) (e : Edge)

theorem sameSite_resolveExtern (spec : String) : SameSite e (v.resolveExtern e spec).1 := by
  unfold resolveExtern
  split
  · exact sameSite_resolveExternal ..
  · simp only
    split
    · exact sameSite_resolveAcross ..
    · exact sameSite_resolveExternal ..

theorem sameSite_resolveImport (importPath : String) :
    SameSite e (v.resolveImport e importPath).1 := by
  unfold resolveImport
  simp only
  split
  · exact sameSite_resolveAcross ..
  · split
    · exact sameSite_resolveTo ..
    · split
      · exact sameSite_resolveAcross ..
      · exact sameSite_resolveExternal ..

theorem keeps_sameDirFirst (candidates : List Node) (fits : Node → Bool) :
    e.Keeps (v.sameDirFirst e candidates fits) :=
  (Keeps.map (sameSite_resolveTo e)).orElse (Keeps.map (sameSite_resolveAcross e _))

theorem keeps_resolveByHint (candidates : List Node) : e.Keeps (v.resolveByHint e candidates) := by
  unfold resolveByHint
  simp only
  split
  · exact Keeps.none
  · exact (Keeps.map (sameSite_resolveScored e _)).orElse
      ((Keeps.map (sameSite_resolveScored e _)).orElse (Keeps.map fun _ => ⟨rfl, rfl, rfl, rfl⟩))

theorem keeps_resolveByCaller (candidates : List Node) :
    e.Keeps (v.resolveByCaller e candidates) := by
  unfold resolveByCaller
  simp only
  split
  · exact Keeps.none
  · exact (Keeps.map (sameSite_resolveScored e _)).orElse (Keeps.map (sameSite_resolveScored e _))

theorem keeps_resolveByName (candidates : List Node) : e.Keeps (resolveByName e candidates) :=
  (Keeps.map (sameSite_resolveTo e)).orElse ((Keeps.map (sameSite_resolveTo e)).orElse
    ((Keeps.map (sameSite_resolveTo e)).orElse (Keeps.map (sameSite_resolveTo e))))

theorem keeps_applyBuiltinIfKnown (methodName : String) :
    e.Keeps (applyBuiltinIfKnown e methodName) := by
  unfold applyBuiltinIfKnown
  simp only
  split
  · exact Keeps.none
  · intro y hy
    obtain ⟨category, -, rfl⟩ := Option.map_eq_some_iff.mp hy
    exact sameSite_resolveExternal ..

/-- **A resolver writes the target of an edge, and nothing else of its identity.** -/
theorem sameSite_resolveEdge : SameSite e (v.resolveEdge e).1 := by
  unfold resolveEdge
  simp only
  split_ifs
  · exact v.sameSite_resolveImport e _
  · exact v.sameSite_resolveExtern e _
  · exact (((v.keeps_resolveByHint e _).orElse ((v.keeps_resolveByCaller e _).orElse
      ((keeps_resolveByName e _).orElse (keeps_applyBuiltinIfKnown e _)))).getD _)
  · exact ((Keeps.map (sameSite_resolveScored e _)).orElse
      (Keeps.map (sameSite_resolveScored e _))).getD _
  · exact ((v.keeps_sameDirFirst e _ _).orElse (v.keeps_sameDirFirst e _ _)).getD _
  · exact (v.keeps_sameDirFirst e _ _).getD _

end Lookup

/-! ### Passes -/

namespace Graph

variable {g g' : Graph}

/-- **The nodes stay**: the node memory and the node tables of the two graphs are the
same. -/
structure SameNodes (g g' : Graph) : Prop where
  node : g'.node = g.node
  nextNode : g'.nextNode = g.nextNode
  tables : ∀ i, (g'.shards i).toNodeTables = (g.shards i).toNodeTables

theorem SameNodes.refl (g : Graph) : SameNodes g g := ⟨rfl, rfl, fun _ => rfl⟩

theorem SameNodes.trans {g'' : Graph} (h : SameNodes g g') (h' : SameNodes g' g'') :
    SameNodes g g'' :=
  ⟨h'.node.trans h.node, h'.nextNode.trans h.nextNode, fun i => (h'.tables i).trans (h.tables i)⟩

theorem SameNodes.getNode (h : SameNodes g g') (id : String) : g'.getNode id = g.getNode id := by
  unfold Graph.getNode shardFor
  exact congrArg (fun t : NodeTables => t.nodes.lookup id) (h.tables _)

theorem SameNodes.nodeAt (h : SameNodes g g') (id : String) : g'.nodeAt id = g.nodeAt id := by
  unfold Graph.nodeAt
  rw [h.getNode, h.node]

theorem SameNodes.nodeInv (h : SameNodes g g') (hg : NodeInv g) : NodeInv g' :=
  hg.of_tables h.node h.nextNode h.tables

theorem EdgeTablesOnly.sameNodes (h : EdgeTablesOnly g g') : SameNodes g g' :=
  ⟨h.node, h.nextNode, h.tables⟩

theorem SameNodes.retarget (g : Graph) (r : EdgeRef) (e : Edge) : SameNodes g (g.retarget r e) :=
  have h := EdgeTablesOnly.retarget g r e
  ⟨h.node, h.nextNode, h.tables⟩

theorem SameNodes.putEdge (g : Graph) (e : Edge) : SameNodes g (g.putEdge e) :=
  have h := EdgeTablesOnly.addEdge (g.newEdge e).2 (g.newEdge e).1
  ⟨h.node, h.nextNode, h.tables⟩

/-- A pass keeps the nodes, and what is left of the invariant of a reachable graph. -/
structure Quiet (g g' : Graph) : Prop where
  nodes : SameNodes g g'
  weak : Weak g → Weak g'

theorem Quiet.refl (g : Graph) : Quiet g g := ⟨SameNodes.refl g, id⟩

theorem Quiet.trans {g'' : Graph} (h : Quiet g g') (h' : Quiet g' g'') : Quiet g g'' :=
  ⟨h.nodes.trans h'.nodes, fun hg => h'.weak (h.weak hg)⟩

theorem Quiet.retarget {r : EdgeRef} {e : Edge} (hs : SameSite (g.edge r) e) :
    Quiet g (g.retarget r e) :=
  ⟨SameNodes.retarget g r e, fun hg =>
    ⟨(SameNodes.retarget g r e).nodeInv hg.nodes, hg.out.retarget hs⟩⟩

theorem Quiet.putEdge (g : Graph) (e : Edge) : Quiet g (g.putEdge e) :=
  ⟨SameNodes.putEdge g e, fun hg => hg.putEdge e⟩

theorem Quiet.resolveRef (ord : MapOrder) (files : List Node) (s : Graph × ResolveStats)
    (r : EdgeRef) : Quiet s.1 (resolveRef ord files s r).1 := by
  unfold Graph.resolveRef
  split
  · exact Quiet.retarget (Lookup.sameSite_resolveEdge _ _)
  · exact Quiet.refl _

/-- A loop of quiet turns is quiet. -/
theorem Quiet.foldl {α β : Type} {f : Graph × β → α → Graph × β}
    (hf : ∀ s a, Quiet s.1 (f s a).1) (l : List α) (s : Graph × β) :
    Quiet s.1 (l.foldl f s).1 :=
  List.foldl_invariant (P := fun t => Quiet s.1 t.1) (fun t a _ ht => ht.trans (hf t a))
    (Quiet.refl s.1)

theorem Quiet.resolveAll (ord : MapOrder) (g : Graph) : Quiet g (g.resolveAll ord).1 :=
  Quiet.foldl (Quiet.resolveRef ord _) _ (g, {})

theorem Quiet.resolveFile (ord : MapOrder) (g : Graph) (filePath : String) :
    Quiet g (g.resolveFile ord filePath).1 :=
  Quiet.foldl (fun s _ => Quiet.foldl (Quiet.resolveRef ord _) _ s) _ (g, {})

theorem Quiet.addImplements (ifaces : List Node) (s : Graph × ℕ) (p : String × List String) :
    Quiet s.1 (addImplements ifaces s p).1 := by
  unfold Graph.addImplements
  split
  · exact Quiet.refl _
  · split
    · refine Quiet.foldl (fun s iface => ?_) _ s
      split_ifs
      · exact Quiet.refl _
      · exact Quiet.putEdge _ _
      · exact Quiet.refl _
    · exact Quiet.refl _

theorem Quiet.inferImplements (ord : MapOrder) (g : Graph) : Quiet g (g.inferImplements ord).1 := by
  unfold Graph.inferImplements
  simp only
  split
  · exact Quiet.refl g
  · exact Quiet.foldl (Quiet.addImplements _) _ (g, 0)

end Graph

end Gortex
