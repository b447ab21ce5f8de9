import Gortex.Resolver.CrossRepo

/-!
# What a pass makes of an edge

A pass over the graph takes the edges one after the other, and what it answers for one may
depend on the ones before. Where it does not, what becomes of an edge in a whole pass is the
answer for the edge alone (`Gortex.Graph.edge_foldl_turn`). This needs that an answer is no
placeholder, which holds of both resolvers if no node has one for its ID
(`Gortex.Lookup.settles_resolveEdge` and `Gortex.CrossRepoResolver.settles_resolveEdge`).
-/

namespace Gortex

open GoString Graph

/-- The target of the edge is a placeholder. -/
def Edge.IsUnresolved (e : Edge) : Prop := hasPrefix e.toID unresolvedPrefix = true

instance (e : Edge) : Decidable e.IsUnresolved := inferInstanceAs (Decidable (_ = true))

/-! ### Answers -/

namespace Edge

variable {e : Edge} {ω : Type}

/-- The edge is left as it is, or its target is no placeholder any more. -/
def Settles (e e' : Edge) : Prop := e' = e ∨ ¬e'.IsUnresolved

/-- What a pass answers, if it does, has a target that is no placeholder. -/
def Answers (x : Option (Edge × ω)) : Prop := ∀ y, x = some y → ¬y.1.IsUnresolved

theorem Answers.none : Answers (none : Option (Edge × ω)) := fun _ h => nomatch h

theorem Answers.map {x : Option Node} {f : Node → Edge × ω}
    (h : ∀ c, x = some c → ¬(f c).1.IsUnresolved) : Answers (x.map f) := fun y hy => by
  obtain ⟨c, hc, rfl⟩ := Option.map_eq_some_iff.mp hy
  exact h c hc

theorem Answers.orElse {x y : Option (Edge × ω)} (hx : Answers x) (hy : Answers y) :
    Answers (x <|> y) := by
  cases x with
  | none => exact hy
  | some x => exact hx

theorem Answers.getD {x : Option (Edge × ω)} (hx : Answers x) (o : ω) :
    e.Settles (x.getD (e, o)).1 := by
  cases x with
  | none => exact Or.inl rfl
  | some x => exact Or.inr (hx x rfl)

theorem not_isUnresolved_of_label {e : Edge} {label : String} (ht : hasPrefix e.toID label = true)
    (hl : label ∈ ["external::", "stdlib::", "dep::", "builtin::"]) : ¬e.IsUnresolved := by
  obtain ⟨rest, hrest⟩ := hasPrefix_iff.mp ht
  unfold IsUnresolved
  rw [hrest, hasPrefix, String.toList_append]
  simp only [List.mem_cons, List.not_mem_nil, or_false] at hl
  rcases hl with rfl | rfl | rfl | rfl <;> simp [unresolvedPrefix]

theorem not_isUnresolved_of_node {e : Edge} {c : Node} (hc : ¬hasPrefix c.id unresolvedPrefix = true)
    (ht : e.toID = c.id) : ¬e.IsUnresolved := by
  unfold IsUnresolved
  rwa [ht]

end Edge

/-- What the lookup finds has no placeholder for its ID. -/
structure Lookup.NoPlaceholders (v : Lookup) : Prop where
  byName : ∀ {name c}, c ∈ v.findNodesByName name → ¬hasPrefix c.id unresolvedPrefix = true
  byQual : ∀ {qualName c}, v.getNodeByQualName qualName = some c →
    ¬hasPrefix c.id unresolvedPrefix = true
  files : ∀ {c}, c ∈ v.fileNodes → ¬hasPrefix c.id unresolvedPrefix = true

theorem Lookup.NoPlaceholders.edges {v : Lookup} (hv : v.NoPlaceholders) (l : List Edge) :
    ({ v with allEdges := l } : Lookup).NoPlaceholders := ⟨hv.byName, hv.byQual, hv.files⟩

namespace Lookup

open Edge

variable {v : Lookup} (hv : v.NoPlaceholders) (e : Edge)

/-- The files a lookup of an import finds are file nodes. -/
theorem mem_fileNodes_of_mem_dirs {importPath : String} {c : Node}
    (h : c ∈ v.dirIndex importPath ++ v.lastDirIndex (lastPathComponent importPath)) :
    c ∈ v.fileNodes := by
  rcases List.mem_append.mp h with h | h
  · exact List.mem_of_mem_filter h
  · exact List.mem_of_mem_filter h

/-- The file of an import that is preferred is one of those found. -/
theorem mem_dirs_of_find? {importPath : String} {p : Node → Bool} {c : Node}
    (h : ((v.dirIndex importPath).find? p <|>
      (v.lastDirIndex (lastPathComponent importPath)).find? p) = some c) :
    c ∈ v.dirIndex importPath ++ v.lastDirIndex (lastPathComponent importPath) := by
  cases hd : (v.dirIndex importPath).find? p with
  | some c' =>
    rw [hd] at h
    cases h
    exact List.mem_append_left _ (List.mem_of_find?_eq_some hd)
  | none =>
    rw [hd] at h
    exact List.mem_append_right _ (List.mem_of_find?_eq_some h)

theorem answers_applyBuiltinIfKnown (methodName : String) :
    Answers (applyBuiltinIfKnown e methodName) := by
  unfold applyBuiltinIfKnown
  simp only
  split
  · exact Answers.none
  · intro y hy
    obtain ⟨category, -, rfl⟩ := Option.map_eq_some_iff.mp hy
    refine not_isUnresolved_of_label (hasPrefix_iff.mpr ⟨langFromFilePath e.filePath ++ "::" ++
      category ++ "::" ++ methodName, ?_⟩) (List.mem_of_getElem? (i := 3) rfl)
    simp only [resolveExternal, String.append_assoc]

include hv

theorem answers_find? {ω : Type} {name : String} {p : Node → Bool} {f : Node → Edge × ω}
    (h : ∀ c, (f c).1.toID = c.id) : Answers (((v.findNodesByName name).find? p).map f) :=
  Answers.map fun c hc =>
    not_isUnresolved_of_node (hv.byName (List.mem_of_find?_eq_some hc)) (h c)

theorem answers_sameDirFirst (name : String) (fits : Node → Bool) :
    Answers (v.sameDirFirst e (v.findNodesByName name) fits) :=
  (answers_find? hv fun _ => rfl).orElse (answers_find? hv fun _ => rfl)

theorem answers_resolveMethodCall (methodName : String) :
    Answers (v.resolveByHint e (v.findNodesByName methodName) <|>
      v.resolveByCaller e (v.findNodesByName methodName) <|>
      resolveByName e (v.findNodesByName methodName) <|> applyBuiltinIfKnown e methodName) := by
  refine Answers.orElse ?_ (Answers.orElse ?_ (Answers.orElse ?_ ?_))
  · unfold resolveByHint
    simp only
    split
    · exact Answers.none
    · exact (answers_find? hv fun _ => rfl).orElse ((answers_find? hv fun _ => rfl).orElse
        (answers_find? hv fun _ => rfl))
  · unfold resolveByCaller
    simp only
    split
    · exact Answers.none
    · exact (answers_find? hv fun _ => rfl).orElse (answers_find? hv fun _ => rfl)
  · exact (answers_find? hv fun _ => rfl).orElse ((answers_find? hv fun _ => rfl).orElse
      ((answers_find? hv fun _ => rfl).orElse (answers_find? hv fun _ => rfl)))
  · exact answers_applyBuiltinIfKnown e methodName

theorem settles_resolveImport (importPath : String) :
    e.Settles (v.resolveImport e importPath).1 := by
  unfold resolveImport
  simp only
  split
  · rename_i c hc
    exact Or.inr (not_isUnresolved_of_node (hv.byQual hc) rfl)
  · split
    · rename_i c hc
      exact Or.inr (not_isUnresolved_of_node
        (hv.files (mem_fileNodes_of_mem_dirs (mem_dirs_of_find? hc))) rfl)
    · split
      · rename_i c hc
        exact Or.inr (not_isUnresolved_of_node
          (hv.files (mem_fileNodes_of_mem_dirs (List.mem_of_mem_head? hc))) rfl)
      · exact Or.inr (not_isUnresolved_of_label (hasPrefix_append _ _) List.mem_cons_self)

/-- A qualified call is always given a target. -/
theorem not_isUnresolved_resolveExtern (spec : String) : ¬(v.resolveExtern e spec).1.IsUnresolved := by
  unfold resolveExtern
  split
  · exact not_isUnresolved_of_label (hasPrefix_append _ _) List.mem_cons_self
  · simp only
    split
    · rename_i c hc
      exact not_isUnresolved_of_node (hv.byName (List.mem_of_find?_eq_some hc)) rfl
    · rename_i importPath symbol _ _ _
      split
      · exact not_isUnresolved_of_label (hasPrefix_iff.mpr ⟨importPath ++ "::" ++ symbol,
          by simp only [resolveExternal, String.append_assoc]⟩) (List.mem_of_getElem? (i := 1) rfl)
      · exact not_isUnresolved_of_label (hasPrefix_iff.mpr ⟨importPath ++ "::" ++ symbol,
          by simp only [resolveExternal, String.append_assoc]⟩) (List.mem_of_getElem? (i := 2) rfl)

/-- **The resolver leaves an edge as it is, or gives it a target that is no placeholder.** -/
theorem settles_resolveEdge : e.Settles (v.resolveEdge e).1 := by
  unfold resolveEdge
  simp only
  split_ifs
  · exact settles_resolveImport hv e _
  · exact Or.inr (not_isUnresolved_resolveExtern hv e _)
  · exact (answers_resolveMethodCall hv e _).getD _
  · refine ((answers_find? hv fun _ => rfl).orElse (Answers.map fun c hc => ?_)).getD _
    exact not_isUnresolved_of_node (hv.byName (List.mem_of_mem_head? hc)) rfl
  · exact ((answers_sameDirFirst hv e _ _).orElse (answers_sameDirFirst hv e _ _)).getD _
  · exact (answers_sameDirFirst hv e _ _).getD _

end Lookup

namespace CrossRepoResolver

open Edge

variable {v : Lookup} (hv : v.NoPlaceholders) (e : Edge)

include hv

/-- **So does the resolver across repositories.** -/
theorem settles_resolveEdge : e.Settles (resolveEdge v e).1 := by
  unfold resolveEdge
  simp only
  split_ifs
  · unfold resolveImport
    simp only
    split
    · rename_i c hc
      split <;> exact Or.inr (not_isUnresolved_of_node (hv.byQual hc) rfl)
    · split
      · rename_i c hc
        exact Or.inr (not_isUnresolved_of_node
          (hv.files (Lookup.mem_fileNodes_of_mem_dirs (Lookup.mem_dirs_of_find? hc))) rfl)
      · split
        · rename_i c hc
          exact Or.inr (not_isUnresolved_of_node
            (hv.files (Lookup.mem_fileNodes_of_mem_dirs (List.mem_of_mem_head? hc))) rfl)
        · exact Or.inr (not_isUnresolved_of_label (hasPrefix_append _ _) List.mem_cons_self)
  · refine Answers.getD (Answers.orElse ?_ ?_) _
    · unfold resolveByHint
      simp only
      split
      · exact Answers.none
      · exact (Lookup.answers_find? hv fun _ => rfl).orElse (Lookup.answers_find? hv fun _ => rfl)
    · exact (Lookup.answers_find? hv fun _ => rfl).orElse
        ((Lookup.answers_find? hv fun _ => rfl).orElse
          ((Lookup.answers_find? hv fun _ => rfl).orElse (Lookup.answers_find? hv fun _ => rfl)))
  · exact ((Lookup.answers_find? hv fun _ => rfl).orElse
      (Lookup.answers_find? hv fun _ => rfl)).getD _

end CrossRepoResolver

/-! ### The lookups of a graph -/

namespace Graph

variable {g g' : Graph}

theorem NodeInv.of_mem_map_findNodesByName (h : NodeInv g) {name : String} {c : Node}
    (hc : c ∈ (g.findNodesByName name).map g.node) : g.nodeAt c.id = some c ∧ c.name = name := by
  obtain ⟨r, hr, rfl⟩ := List.mem_map.mp hc
  obtain ⟨hst, hname⟩ := h.mem_findNodesByName.mp hr
  exact ⟨hst.nodeAt, hname⟩

theorem NodeInv.of_getNodeByQualName (h : NodeInv g) {qualName : String} {r : NodeRef}
    (hr : g.getNodeByQualName qualName = some r) : g.nodeAt (g.node r).id = some (g.node r) := by
  obtain ⟨i, -, hi⟩ := List.exists_of_findSome?_eq_some hr
  obtain ⟨hl, -⟩ := (h i).qual hi
  obtain ⟨-, hshard, -⟩ := (h i).home hl
  refine StoredNode.nodeAt ?_
  rw [StoredNode, getNode, shardFor, idOf, hshard]
  exact hl

theorem Weak.mem_fileNodes (h : Weak g) (ord : MapOrder) {c : Node} :
    c ∈ g.fileNodes ord ↔ g.nodeAt c.id = some c ∧ c.kind = .kindFile := by
  unfold fileNodes
  rw [List.mem_filter, h.mem_allNodes, decide_eq_true_eq]

theorem SameNodes.lookup_eq (h : SameNodes g g') (ord : MapOrder) (files : List Node) :
    g'.lookup ord files =
      { g.lookup ord files with allEdges := (g'.allEdges ord).map g'.edge } := by
  have hname : ∀ name, g'.findNodesByName name = g.findNodesByName name := fun name =>
    congrArg (fun f => (List.finRange numShards).flatMap f) (funext fun i =>
      congrArg (fun t : NodeTables => t.byName.slice name) (h.tables i))
  have hqual : ∀ q, g'.getNodeByQualName q = g.getNodeByQualName q := fun q =>
    congrArg (fun f => (List.finRange numShards).findSome? f) (funext fun i =>
      congrArg (fun t : NodeTables => t.byQual.lookup q) (h.tables i))
  unfold lookup
  simp only [Lookup.mk.injEq, and_true]
  refine ⟨funext h.nodeAt, funext fun name => ?_, funext fun q => ?_⟩
  · rw [hname, h.node]
  · rw [hqual, h.node]

theorem Weak.noPlaceholders (hg : Weak g) (hp : ∀ {id n}, g.nodeAt id = some n →
    ¬hasPrefix id unresolvedPrefix = true) (ord : MapOrder) :
    (g.lookup ord (g.fileNodes ord)).NoPlaceholders where
  byName := fun hc => hp (hg.nodes.of_mem_map_findNodesByName hc).1
  byQual := fun hc => by
    obtain ⟨r, hr, rfl⟩ := Option.map_eq_some_iff.mp hc
    exact hp (hg.nodes.of_getNodeByQualName hr)
  files := fun hc => hp ((hg.mem_fileNodes ord).mp hc).1

end Graph

/-! ### Passes -/

namespace Graph

/-- One turn of a pass: an edge with a placeholder gets what `ans` answers. -/
def turn (ans : Graph → Edge → Edge) (g : Graph) (r : EdgeRef) : Graph :=
  if hasPrefix (g.edge r).toID unresolvedPrefix then g.retarget r (ans g (g.edge r)) else g

variable {ans : Graph → Edge → Edge}

theorem fst_foldl_resolveRef (ord : MapOrder) (files : List Node) (l : List EdgeRef)
    (s : Graph × ResolveStats) : (l.foldl (resolveRef ord files) s).1 =
      l.foldl (turn fun g e => ((g.lookup ord files).resolveEdge e).1) s.1 := by
  induction l generalizing s with
  | nil => rfl
  | cons r l ih =>
    rw [List.foldl_cons, List.foldl_cons, ih]
    unfold resolveRef turn
    split <;> rfl

theorem fst_foldl_crossResolveRef (ord : MapOrder) (files : List Node) (l : List EdgeRef)
    (s : Graph × CrossRepoStats) : (l.foldl (crossResolveRef ord files) s).1 =
      l.foldl (turn fun g e => (CrossRepoResolver.resolveEdge (g.lookup ord files) e).1) s.1 := by
  induction l generalizing s with
  | nil => rfl
  | cons r l ih =>
    rw [List.foldl_cons, List.foldl_cons, ih]
    unfold crossResolveRef turn
    split <;> rfl

theorem edge_retarget (g : Graph) (r : EdgeRef) (e : Edge) (r' : EdgeRef) :
    (g.retarget r e).edge r' = if r' = r then e else g.edge r' :=
  congrFun (EdgeTablesOnly.retarget g r e).edge r'

theorem SameNodes.turn (ans : Graph → Edge → Edge) (g : Graph) (r : EdgeRef) :
    SameNodes g (Graph.turn ans g r) := by
  unfold Graph.turn
  split
  · exact SameNodes.retarget g r _
  · exact SameNodes.refl g

theorem SameNodes.foldl_turn (ans : Graph → Edge → Edge) (l : List EdgeRef) (g : Graph) :
    SameNodes g (l.foldl (Graph.turn ans) g) :=
  List.foldl_invariant (P := SameNodes g) (fun g' r _ hg => hg.trans (SameNodes.turn ans g' r))
    (SameNodes.refl g)

/-- **What becomes of an edge in a pass**: what is read off its answer, if that is the same
in every state of the pass. -/
theorem edge_foldl_turn {τ : Type} {π : Edge → τ} {A : τ} {I : Graph → Prop} {g : Graph}
    {l : List EdgeRef} (hI : I g) (hturn : ∀ s, ∀ r ∈ l, I s → I (turn ans s r)) {r : EdgeRef}
    (hans : ∀ s, I s → π (ans s (g.edge r)) = A)
    (hset : ∀ s, I s → (g.edge r).Settles (ans s (g.edge r))) (hr : r ∈ l)
    (hun : (g.edge r).IsUnresolved) : π ((l.foldl (turn ans) g).edge r) = A := by
  -- the edge is as it was, or it has its answer and is not taken again
  have hinv : ∀ l' : List EdgeRef, (∀ r ∈ l', r ∈ l) → I (l'.foldl (turn ans) g) ∧
      (((l'.foldl (turn ans) g).edge r = g.edge r ∧ (r ∈ l' → π (g.edge r) = A)) ∨
      (π ((l'.foldl (turn ans) g).edge r) = A ∧
        ¬((l'.foldl (turn ans) g).edge r).IsUnresolved)) := by
    intro l'
    induction l' using List.reverseRecOn with
    | nil => exact fun _ => ⟨hI, Or.inl ⟨rfl, fun h => nomatch h⟩⟩
    | append_singleton l' r' ih =>
      intro hl
      obtain ⟨hs, ih⟩ := ih fun r hr => hl r (List.mem_append_left _ hr)
      rw [List.foldl_append]
      refine ⟨hturn _ r' (hl r' (List.mem_append_right _ List.mem_cons_self)) hs, ?_⟩
      change ((turn ans (l'.foldl (turn ans) g) r').edge r = g.edge r ∧ _) ∨
        (π ((turn ans (l'.foldl (turn ans) g) r').edge r) = A ∧
          ¬((turn ans (l'.foldl (turn ans) g) r').edge r).IsUnresolved)
      generalize l'.foldl (turn ans) g = s at ih hs
      by_cases hrr : r = r'
      · subst hrr
        rcases ih with ⟨heq, -⟩ | hdone
        · have hturn : (turn ans s r).edge r = ans s (g.edge r) := by
            unfold turn
            rw [heq, if_pos (show hasPrefix (g.edge r).toID unresolvedPrefix = true from hun),
              edge_retarget, if_pos rfl]
          rw [hturn]
          rcases hset s hs with hstill | hnot
          · refine Or.inl ⟨hstill, fun _ => ?_⟩
            rw [← hans s hs, hstill]
          · exact Or.inr ⟨hans s hs, hnot⟩
        · have hturn : turn ans s r = s := if_neg hdone.2
          rw [hturn]
          exact Or.inr hdone
      · have hturn : (turn ans s r').edge r = s.edge r := by
          unfold turn
          split
          · rw [edge_retarget, if_neg hrr]
          · rfl
        rw [hturn]
        refine ih.imp (And.imp_right fun h hm => h ?_) id
        rcases List.mem_append.mp hm with hm | hm
        · exact hm
        · exact absurd (List.mem_singleton.mp hm) hrr
  rcases (hinv l fun _ h => h).2 with ⟨heq, h⟩ | ⟨h, -⟩
  · rw [heq]
    exact h hr
  · exact h

/-- An edge that is resolved is left as it is. -/
theorem edge_foldl_turn_of_not {g : Graph} {r : EdgeRef} (hr : ¬(g.edge r).IsUnresolved)
    (l : List EdgeRef) : (l.foldl (turn ans) g).edge r = g.edge r := by
  refine List.foldl_invariant (P := fun s : Graph => s.edge r = g.edge r) (fun s r' _ hs => ?_) rfl
  unfold turn
  split
  · rename_i hun
    rw [edge_retarget, if_neg, hs]
    rintro rfl
    exact hr (hs ▸ hun)
  · exact hs

theorem edge_resolveAll_of_not {g : Graph} (ord : MapOrder) {r : EdgeRef}
    (hr : ¬(g.edge r).IsUnresolved) : (g.resolveAll ord).1.edge r = g.edge r := by
  unfold resolveAll
  rw [fst_foldl_resolveRef]
  exact edge_foldl_turn_of_not hr _

end Graph

end Gortex
