import Gortex.Resolver.Passes

/-!
# The resolver across repositories

`internal/resolver/cross_repo.go` replaces placeholders as well, after the resolver of one
repository or before it. It knows three forms: an import, a call of a method, and a name
that is a function's. In each it takes a node of the repository of the caller if there is
one, and else the first of another, which it marks on the edge.

What it reads is a `Lookup`, and like the other resolver it leaves the nodes alone.
-/

namespace Gortex

open GoString

/-- What becomes of an edge: it goes to a node of the repository of its caller, to one of
the repository `repo`, or stays unresolved. -/
inductive CrossOutcome
  | sameRepo
  | crossRepo (repo : String)
  | unresolved
deriving DecidableEq, Repr

/-- The counters of a pass. -/
structure CrossRepoStats where
  resolved : ℕ := 0
  unresolved : ℕ := 0
  crossRepoEdges : ℕ := 0
  byRepo : GoMap String ℕ := ∅

/-- Count one edge. -/
def CrossRepoStats.count (stats : CrossRepoStats) : CrossOutcome → CrossRepoStats
  | .sameRepo => { stats with resolved := stats.resolved + 1 }
  | .crossRepo repo =>
    { stats with
      resolved := stats.resolved + 1
      crossRepoEdges := stats.crossRepoEdges + 1
      byRepo := stats.byRepo.insert repo ((stats.byRepo.lookup repo).getD 0 + 1) }
  | .unresolved => { stats with unresolved := stats.unresolved + 1 }

namespace Edge

/-- The edge goes to a node of the repository of its caller. -/
def crossToSame (e : Edge) (c : Node) : Edge × CrossOutcome := ({ e with toID := c.id }, .sameRepo)

/-- The edge goes to a node of another repository. -/
def crossToOther (e : Edge) (c : Node) : Edge × CrossOutcome :=
  ({ e with toID := c.id, crossRepo := true }, .crossRepo c.repoPrefix)

end Edge

namespace CrossRepoResolver

variable (v : Lookup)

/-! ### The passes -/

/-- **A call of a function.** -/
def resolveFunctionCall (e : Edge) (funcName : String) : Edge × CrossOutcome :=
  let candidates := v.findNodesByName funcName
  let callerRepo := v.callerRepoPrefix e
  ((candidates.find? fun c => c.isCallable && decide (c.repoPrefix = callerRepo)).map e.crossToSame
    <|> (candidates.find? Node.isCallable).map e.crossToOther).getD (e, .unresolved)

/-- **An import.** -/
def resolveImport (e : Edge) (importPath : String) : Edge × CrossOutcome :=
  let callerRepo := v.callerRepoPrefix e
  match v.getNodeByQualName importPath with
  | some node => if node.repoPrefix ≠ callerRepo then e.crossToOther node else e.crossToSame node
  | none =>
    let same := fun n : Node => decide (n.repoPrefix = callerRepo)
    let dirs := v.dirIndex importPath
    let lastDirs := v.lastDirIndex (lastPathComponent importPath)
    match dirs.find? same <|> lastDirs.find? same with
    | some n => e.crossToSame n
    | none =>
      match (dirs ++ lastDirs).head? with
      | some n => e.crossToOther n
      | none => ({ e with toID := "external::" ++ importPath }, .unresolved)

/-- The edge goes to a method of the type the hint names, with the confidence of a match
by type. -/
def resolveByHint (e : Edge) (candidates : List Node) : Option (Edge × CrossOutcome) :=
  let receiverType := edgeReceiverType e
  let callerRepo := v.callerRepoPrefix e
  let ofType := fun c : Node => decide (c.kind = .kindMethod ∧ nodeReceiverType c = receiverType)
  if receiverType = "" then none
  else
    (candidates.find? fun c => ofType c && decide (c.repoPrefix = callerRepo)).map
        ({ e with confidence := 95 / 100 } : Edge).crossToSame
      <|> (candidates.find? ofType).map ({ e with confidence := 85 / 100 } : Edge).crossToOther

/-- The edge goes to a method of the name, or else to a function of it. -/
def resolveByName (e : Edge) (candidates : List Node) : Option (Edge × CrossOutcome) :=
  let callerRepo := v.callerRepoPrefix e
  let same := fun c : Node => decide (c.repoPrefix = callerRepo)
  let isMethod := fun c : Node => decide (c.kind = .kindMethod)
  let isFunction := fun c : Node => decide (c.kind = .kindFunction)
  (candidates.find? fun c => isMethod c && same c).map e.crossToSame
    <|> (candidates.find? isMethod).map e.crossToOther
    <|> (candidates.find? fun c => isFunction c && same c).map e.crossToSame
    <|> (candidates.find? isFunction).map e.crossToOther

/-- **A call of a method**, `*.name`. -/
def resolveMethodCall (e : Edge) (methodName : String) : Edge × CrossOutcome :=
  let candidates := v.findNodesByName methodName
  (resolveByHint v e candidates <|> resolveByName v e candidates).getD (e, .unresolved)

/-- **The pass for the form of the placeholder.** -/
def resolveEdge (e : Edge) : Edge × CrossOutcome :=
  let target := trimPrefix e.toID unresolvedPrefix
  if hasPrefix target "import::" then resolveImport v e (trimPrefix target "import::")
  else if hasPrefix target "*." then resolveMethodCall v e (trimPrefix target "*.")
  else resolveFunctionCall v e target

end CrossRepoResolver

/-! ### Passes over the graph -/

namespace Graph

/-- Resolve the edge behind a pointer, if its target is a placeholder, and reindex it. -/
def crossResolveRef (ord : MapOrder) (files : List Node) (s : Graph × CrossRepoStats) (r : EdgeRef) :
    Graph × CrossRepoStats :=
  if hasPrefix (s.1.edge r).toID unresolvedPrefix then
    let res := CrossRepoResolver.resolveEdge (s.1.lookup ord files) (s.1.edge r)
    (s.1.retarget r res.1, s.2.count res.2)
  else s

/-- **ResolveAll** resolves the edges of the graph. -/
def crossResolveAll (ord : MapOrder) (g : Graph) : Graph × CrossRepoStats :=
  (g.allEdges ord).foldl (crossResolveRef ord (g.fileNodes ord)) (g, {})

/-- **ResolveForRepo** resolves the edges that start at a node of the repository. -/
def resolveForRepo (ord : MapOrder) (g : Graph) (repoPrefix : String) : Graph × CrossRepoStats :=
  (g.getRepoNodes repoPrefix).foldl (fun s n =>
    (s.1.getOutEdges (s.1.idOf n)).foldl (crossResolveRef ord (g.fileNodes ord)) s) (g, {})

end Graph

/-! ### What it leaves alone -/

open Graph

theorem Edge.sameSite_crossToSame {e e' : Edge} (h : SameSite e e') (c : Node) :
    SameSite e (e'.crossToSame c).1 := ⟨h.fromID, h.kind, h.filePath, h.line⟩

theorem Edge.sameSite_crossToOther {e e' : Edge} (h : SameSite e e') (c : Node) :
    SameSite e (e'.crossToOther c).1 := ⟨h.fromID, h.kind, h.filePath, h.line⟩

namespace CrossRepoResolver

open Edge

variable (v : Lookup) (e : Edge)

theorem sameSite_resolveImport (importPath : String) :
    SameSite e (resolveImport v e importPath).1 := by
  have hsite := SameSite.refl e
  unfold resolveImport
  simp only
  split
  · split
    · exact sameSite_crossToOther hsite _
    · exact sameSite_crossToSame hsite _
  · split
    · exact sameSite_crossToSame hsite _
    · split
      · exact sameSite_crossToOther hsite _
      · exact ⟨rfl, rfl, rfl, rfl⟩

theorem keeps_resolveByHint (candidates : List Node) : e.Keeps (resolveByHint v e candidates) := by
  have hsite : ∀ q : ℚ, SameSite e { e with confidence := q } := fun _ => ⟨rfl, rfl, rfl, rfl⟩
  unfold resolveByHint
  simp only
  split
  · exact Keeps.none
  · exact (Keeps.map (sameSite_crossToSame (hsite _))).orElse
      (Keeps.map (sameSite_crossToOther (hsite _)))

theorem keeps_resolveByName (candidates : List Node) : e.Keeps (resolveByName v e candidates) :=
  have hsame := sameSite_crossToSame (SameSite.refl e)
  have hother := sameSite_crossToOther (SameSite.refl e)
  (Keeps.map hsame).orElse ((Keeps.map hother).orElse ((Keeps.map hsame).orElse (Keeps.map hother)))

theorem sameSite_resolveFunctionCall (funcName : String) :
    SameSite e (resolveFunctionCall v e funcName).1 :=
  ((Keeps.map (sameSite_crossToSame (SameSite.refl e))).orElse
    (Keeps.map (sameSite_crossToOther (SameSite.refl e)))).getD _

/-- **It writes the target of an edge, and nothing else of its identity.** -/
theorem sameSite_resolveEdge : SameSite e (resolveEdge v e).1 := by
  unfold resolveEdge
  simp only
  split_ifs
  · exact sameSite_resolveImport v e _
  · exact ((keeps_resolveByHint v e _).orElse (keeps_resolveByName v e _)).getD _
  · exact sameSite_resolveFunctionCall v e _

end CrossRepoResolver

namespace Graph

theorem Quiet.crossResolveRef (ord : MapOrder) (files : List Node) (s : Graph × CrossRepoStats)
    (r : EdgeRef) : Quiet s.1 (crossResolveRef ord files s r).1 := by
  unfold Graph.crossResolveRef
  split
  · exact Quiet.retarget (CrossRepoResolver.sameSite_resolveEdge _ _)
  · exact Quiet.refl _

theorem Quiet.resolveForRepo (ord : MapOrder) (g : Graph) (repoPrefix : String) :
    Quiet g (g.resolveForRepo ord repoPrefix).1 :=
  Quiet.foldl (fun s _ => Quiet.foldl (Quiet.crossResolveRef ord _) _ s) _ (g, {})

end Graph

end Gortex
