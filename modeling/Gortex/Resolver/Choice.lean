import Gortex.Lib.FirstFit
import Gortex.Resolver.Pass

/-!
# The resolver chooses

The passes of the resolver over the candidates of a placeholder as a list, one for each test, and
what each makes of a candidate: the answer is a `Gortex.FirstFit.choose`
(`Gortex.Lookup.resolveEdge_eq_choose`), but for an import of a path that is found as a qualified
name.

Of the edges of the graph the passes read the classes that are bound to a type, for a call of a
method with a hint at the type of its receiver. An edge that binds a class is resolved itself,
which leaves what it binds to (`Gortex.Lookup.sameBinding_resolveEdge`), not the name of the class.
-/

namespace Gortex

open GoString Graph

attribute [local irreducible] cutLast

namespace Lookup

variable (v : Lookup)

/-! ### The passes as a list -/

/-- The passes of `sameDirFirst`. -/
def sameDirPasses (e : Edge) (fits : Node → Bool) : List ((Node → Bool) × (Node → Edge × Outcome)) :=
  [(fun c => fits c && decide (GoPath.dir c.filePath = GoPath.dir e.filePath), e.resolveTo),
    (fits, e.resolveAcross (v.callerRepoPrefix e))]

/-- The pass of a qualified call. -/
def externPasses (e : Edge) (importPath : String) : List ((Node → Bool) × (Node → Edge × Outcome)) :=
  [(fun c =>
      let dir := GoPath.dir c.filePath
      (c.isCallable || c.isTypeLike) && (hasSuffix dir ("/" ++ lastPathComponent importPath) ||
        decide (dir = importPath) || hasSuffix dir importPath),
    e.resolveAcross (v.callerRepoPrefix e))]

/-- The passes of an import over the files. -/
def importPasses (e : Edge) (importPath : String) : List ((Node → Bool) × (Node → Edge × Outcome)) :=
  let callerRepo := v.callerRepoPrefix e
  let same := fun n : Node => decide (callerRepo = "" ∨ n.repoPrefix = callerRepo)
  let inDir := fun n : Node => decide (GoPath.dir n.filePath = importPath)
  let last := lastPathComponent importPath
  let inLastDir := fun n : Node =>
    let dir := GoPath.dir n.filePath
    decide (lastPathComponent dir = last ∧ last ≠ "" ∧ last ≠ dir)
  [(fun n => inDir n && same n, e.resolveTo), (fun n => inLastDir n && same n, e.resolveTo),
    (inDir, e.resolveAcross callerRepo), (inLastDir, e.resolveAcross callerRepo)]

/-- The passes of `resolveByHint`. -/
def hintPasses (e : Edge) : List ((Node → Bool) × (Node → Edge × Outcome)) :=
  let receiverType := edgeReceiverType e
  let here := fun c : Node => decide (GoPath.dir c.filePath = GoPath.dir e.filePath)
  let ofType := fun c : Node => decide (c.kind = .kindMethod ∧ nodeReceiverType c = receiverType)
  let bound := v.boundImplsFor receiverType
  if receiverType = "" then []
  else
    [(fun c => ofType c && here c, e.resolveScored (95 / 100)), (ofType, e.resolveScored (85 / 100)),
      (fun c => decide (c.kind = .kindMethod ∧ nodeReceiverType c ∈ bound), fun c =>
        ({ e with
            toID := c.id
            confidence := 9 / 10
            metadata := e.metadata.insert "resolution" (.str "useClass_binding") }, .resolved))]

/-- The passes of `resolveByCaller`. -/
def callerPasses (e : Edge) : List ((Node → Bool) × (Node → Edge × Outcome)) :=
  let callerRecv := v.callerReceiverType e
  let here := fun c : Node => decide (GoPath.dir c.filePath = GoPath.dir e.filePath)
  let ofType := fun c : Node => decide (c.kind = .kindMethod ∧ nodeReceiverType c = callerRecv)
  if callerRecv = "" then []
  else [(fun c => ofType c && here c, e.resolveScored (9 / 10)), (ofType, e.resolveScored (8 / 10))]

/-- The passes of `resolveByName`. -/
def namePasses (e : Edge) : List ((Node → Bool) × (Node → Edge × Outcome)) :=
  let here := fun c : Node => decide (GoPath.dir c.filePath = GoPath.dir e.filePath)
  let isMethod := fun c : Node => decide (c.kind = .kindMethod)
  let isFunction := fun c : Node => decide (c.kind = .kindFunction)
  [(fun c => isMethod c && here c, e.resolveTo), (isMethod, e.resolveTo),
    (fun c => isFunction c && here c, e.resolveTo), (isFunction, e.resolveTo)]

/-- The passes of `resolveTokenRef`. -/
def tokenPasses (e : Edge) : List ((Node → Bool) × (Node → Edge × Outcome)) :=
  [(fun c => decide (GoPath.dir c.filePath = GoPath.dir e.filePath), e.resolveScored (9 / 10)),
    (fun _ => true, e.resolveScored (7 / 10))]

/-- **The passes for the form of the placeholder.** -/
def passes (e : Edge) : List ((Node → Bool) × (Node → Edge × Outcome)) :=
  let target := trimPrefix e.toID unresolvedPrefix
  if hasPrefix target "import::" then v.importPasses e (trimPrefix target "import::")
  else if hasPrefix target "extern::" then
    match cutLast (trimPrefix target "extern::") "::" with
    | none => []
    | some (importPath, _) => v.externPasses e importPath
  else if hasPrefix target "*." then v.hintPasses e ++ (v.callerPasses e ++ namePasses e)
  else if e.kind = .edgeProvides ∨ e.kind = .edgeConsumes then tokenPasses e
  else if e.kind = .edgeInstantiates ∨ e.kind = .edgeReferences then
    v.sameDirPasses e Node.isTypeLike ++ v.sameDirPasses e Node.isCallable
  else v.sameDirPasses e Node.isCallable

/-- **The candidates they search.** -/
def candidates (e : Edge) : List Node :=
  let target := trimPrefix e.toID unresolvedPrefix
  if hasPrefix target "import::" then v.fileNodes
  else if hasPrefix target "extern::" then
    match cutLast (trimPrefix target "extern::") "::" with
    | none => []
    | some (_, symbol) => v.findNodesByName symbol
  else if hasPrefix target "*." then v.findNodesByName (trimPrefix target "*.")
  else v.findNodesByName target

/-- What becomes of the edge if they find none. -/
def otherwise (e : Edge) : Edge × Outcome :=
  let target := trimPrefix e.toID unresolvedPrefix
  if hasPrefix target "import::" then e.resolveExternal ("external::" ++ trimPrefix target "import::")
  else if hasPrefix target "extern::" then
    let spec := trimPrefix target "extern::"
    match cutLast spec "::" with
    | none => e.resolveExternal ("external::" ++ spec)
    | some (importPath, symbol) =>
      let label := if isStdlibLike importPath then "stdlib::" else "dep::"
      e.resolveExternal (label ++ importPath ++ "::" ++ symbol)
  else if hasPrefix target "*." then
    (applyBuiltinIfKnown e (trimPrefix target "*.")).getD (e, .unresolved)
  else (e, .unresolved)

/-- An import is not of a path that is found as a qualified name. -/
def NotQualified (e : Edge) : Prop :=
  let target := trimPrefix e.toID unresolvedPrefix
  hasPrefix target "import::" = true → v.getNodeByQualName (trimPrefix target "import::") = none

open FirstFit

variable {v}

theorem sameDirFirst_eq_choose (e : Edge) (candidates : List Node) (fits : Node → Bool) :
    v.sameDirFirst e candidates fits = choose candidates (v.sameDirPasses e fits) := by
  simp only [sameDirFirst, sameDirPasses, choose, Option.orElse_eq_orElse, Option.orElse_eq_or,
    Option.or_none]

theorem resolveByHint_eq_choose (e : Edge) (candidates : List Node) :
    v.resolveByHint e candidates = choose candidates (v.hintPasses e) := by
  unfold resolveByHint hintPasses
  simp only
  split
  · rfl
  · simp only [choose, Option.orElse_eq_orElse, Option.orElse_eq_or, Option.or_none]

theorem resolveByCaller_eq_choose (e : Edge) (candidates : List Node) :
    v.resolveByCaller e candidates = choose candidates (v.callerPasses e) := by
  unfold resolveByCaller callerPasses
  simp only
  split
  · rfl
  · simp only [choose, Option.orElse_eq_orElse, Option.orElse_eq_or, Option.or_none]

theorem resolveByName_eq_choose (e : Edge) (candidates : List Node) :
    resolveByName e candidates = choose candidates (namePasses e) := by
  simp only [resolveByName, namePasses, choose, Option.orElse_eq_orElse, Option.orElse_eq_or,
    Option.or_none]

theorem resolveTokenRef_eq_choose (e : Edge) (name : String) : v.resolveTokenRef e name =
    (choose (v.findNodesByName name) (tokenPasses e)).getD (e, .unresolved) := by
  have hhead : (v.findNodesByName name).head? = (v.findNodesByName name).find? fun _ => true := by
    cases v.findNodesByName name <;> rfl
  simp only [resolveTokenRef, tokenPasses, choose, hhead, Option.orElse_eq_orElse,
    Option.orElse_eq_or, Option.or_none]

theorem resolveImport_eq_choose (e : Edge) (importPath : String)
    (hq : v.getNodeByQualName importPath = none) : v.resolveImport e importPath =
      (choose v.fileNodes (v.importPasses e importPath)).getD
        (e.resolveExternal ("external::" ++ importPath)) := by
  unfold resolveImport importPasses
  simp only [hq, choose, dirIndex, lastDirIndex, List.find?_filter, List.head?_append,
    List.head?_filter, Option.orElse_eq_orElse, Option.orElse_eq_or, Option.or_none,
    Bool.decide_eq_true, Bool.decide_and]
  generalize v.fileNodes.find? _ = a
  generalize v.fileNodes.find? _ = b
  generalize v.fileNodes.find? _ = c
  generalize v.fileNodes.find? _ = d
  cases a with
  | some n => rfl
  | none =>
    cases b with
    | some n => rfl
    | none =>
      cases c with
      | some n => rfl
      | none => cases d <;> rfl

/-- **The resolver chooses.** -/
theorem resolveEdge_eq_choose {e : Edge} (hq : v.NotQualified e) :
    v.resolveEdge e = (choose (v.candidates e) (v.passes e)).getD (otherwise e) := by
  unfold resolveEdge candidates passes otherwise
  unfold NotQualified at hq
  simp only at hq ⊢
  generalize trimPrefix e.toID unresolvedPrefix = target at hq
  by_cases himport : hasPrefix target "import::" = true
  · simp only [himport, if_true]
    exact resolveImport_eq_choose e _ (hq himport)
  by_cases hqualified : hasPrefix target "extern::" = true
  · simp only [if_neg himport, if_pos hqualified]
    unfold resolveExtern
    cases hcut : cutLast (trimPrefix target "extern::") "::" with
    | none => rfl
    | some p =>
      simp only [externPasses, choose, Option.orElse_eq_orElse, Option.orElse_eq_or, Option.or_none]
      split
      · rename_i c hc
        rw [hc]
        rfl
      · rename_i hc
        rw [hc]
        rfl
  by_cases hmethod : hasPrefix target "*." = true
  · simp only [if_neg himport, if_neg hqualified, if_pos hmethod]
    simp only [resolveMethodCall, resolveByHint_eq_choose, resolveByCaller_eq_choose,
      resolveByName_eq_choose, choose_append, Option.orElse_eq_orElse, Option.orElse_eq_or]
    simp only [← Option.or_assoc, Option.getD_or]
  simp only [if_neg himport, if_neg hqualified, if_neg hmethod]
  by_cases htoken : e.kind = .edgeProvides ∨ e.kind = .edgeConsumes
  · simp only [if_pos htoken]
    exact resolveTokenRef_eq_choose e target
  simp only [if_neg htoken]
  by_cases htype : e.kind = .edgeInstantiates ∨ e.kind = .edgeReferences
  · simp only [if_pos htype]
    rw [choose_append, ← sameDirFirst_eq_choose, ← sameDirFirst_eq_choose]
    rfl
  · simp only [if_neg htype]
    rw [← sameDirFirst_eq_choose]
    rfl

/-- An import of a path that is found as a qualified name goes to the node. -/
theorem resolveEdge_of_import {e : Edge} {n : Node}
    (himport : hasPrefix (trimPrefix e.toID unresolvedPrefix) "import::" = true)
    (hn : v.getNodeByQualName (trimPrefix (trimPrefix e.toID unresolvedPrefix) "import::") =
      some n) : v.resolveEdge e = e.resolveAcross (v.callerRepoPrefix e) n := by
  unfold resolveEdge
  simp only
  rw [if_pos himport]
  unfold resolveImport
  simp only [hn]

theorem exists_qualified_of_not {e : Edge} (hq : ¬v.NotQualified e) :
    hasPrefix (trimPrefix e.toID unresolvedPrefix) "import::" = true ∧ ∃ n,
      v.getNodeByQualName (trimPrefix (trimPrefix e.toID unresolvedPrefix) "import::") = some n := by
  unfold NotQualified at hq
  simp only [Classical.not_imp] at hq
  exact hq.imp id Option.ne_none_iff_exists'.mp

/-! ### What the passes read -/

/-- The passes depend on the edges of the graph by the classes that are bound to the type the
hint names. -/
theorem passes_congr {v' : Lookup} {e : Edge} (hnode : v'.getNode = v.getNode)
    (hbound : hasPrefix (trimPrefix e.toID unresolvedPrefix) "*." = true →
      ∀ x, x ∈ v'.boundImplsFor (edgeReceiverType e) ↔
        x ∈ v.boundImplsFor (edgeReceiverType e)) : v'.passes e = v.passes e := by
  have hrepo : v'.callerRepoPrefix e = v.callerRepoPrefix e := by
    unfold callerRepoPrefix
    rw [hnode]
  have hcaller : v'.callerPasses e = v.callerPasses e := by
    unfold callerPasses callerReceiverType
    rw [hnode]
  have hhint : hasPrefix (trimPrefix e.toID unresolvedPrefix) "*." = true →
      v'.hintPasses e = v.hintPasses e := fun hm => by
    unfold hintPasses
    simp only [hbound hm]
  unfold passes importPasses externPasses sameDirPasses
  rw [hcaller, hrepo]
  simp only
  by_cases hm : hasPrefix (trimPrefix e.toID unresolvedPrefix) "*." = true
  · rw [hhint hm]
  · simp only [if_neg hm]

/-- The lookup without the edges. -/
def withoutEdges (v : Lookup) : Lookup := { v with allEdges := [] }

theorem candidates_withoutEdges (e : Edge) : v.withoutEdges.candidates e = v.candidates e := by
  unfold candidates
  rfl

/-- **Passes that choose as those without the edges** give an edge the answer that it gets
without. -/
theorem resolveEdge_of_alike {l : List Edge} {e : Edge}
    (h : FirstFit.Alike (· ∈ v.candidates e) (({ v with allEdges := l } : Lookup).passes e)
      (v.withoutEdges.passes e)) :
    ({ v with allEdges := l } : Lookup).resolveEdge e = v.withoutEdges.resolveEdge e := by
  by_cases hq : v.NotQualified e
  · rw [resolveEdge_eq_choose (v := { v with allEdges := l }) hq,
      resolveEdge_eq_choose (v := v.withoutEdges) hq]
    exact congrArg (fun o => o.getD (otherwise e)) h.choose_eq
  · obtain ⟨himport, n, hn⟩ := exists_qualified_of_not hq
    rw [resolveEdge_of_import (v := { v with allEdges := l }) himport hn,
      resolveEdge_of_import (v := v.withoutEdges) himport hn]
    rfl

/-- **The passes choose alike** over two lookups of the same nodes, if a candidate is a method of
the type that the hint names, or the same classes are bound to the type. -/
theorem alike_passes {v' : Lookup} {e : Edge} {P : Node → Prop} (hnode : v'.getNode = v.getNode)
    (h : hasPrefix (trimPrefix e.toID unresolvedPrefix) "*." = true → edgeReceiverType e ≠ "" →
      (∃ c, P c ∧ c.kind = .kindMethod ∧ nodeReceiverType c = edgeReceiverType e) ∨
        ∀ x, x ∈ v'.boundImplsFor (edgeReceiverType e) ↔
          x ∈ v.boundImplsFor (edgeReceiverType e)) :
    FirstFit.Alike P (v'.passes e) (v.passes e) := by
  by_cases hne : edgeReceiverType e = ""
  · refine Or.inl (passes_congr hnode fun _ x => ?_)
    unfold boundImplsFor
    rw [if_pos hne, if_pos hne]
  by_cases hm : hasPrefix (trimPrefix e.toID unresolvedPrefix) "*." = true
  swap
  · exact Or.inl (passes_congr hnode fun hc => absurd hc hm)
  rcases h hm hne with ⟨c, hc, hkind, hof⟩ | hbound
  swap
  · exact Or.inl (passes_congr hnode fun _ => hbound)
  by_cases himport : hasPrefix (trimPrefix e.toID unresolvedPrefix) "import::" = true
  · refine Or.inl ?_
    unfold passes importPasses callerRepoPrefix
    simp only [if_pos himport, hnode]
  by_cases hextern : hasPrefix (trimPrefix e.toID unresolvedPrefix) "extern::" = true
  · refine Or.inl ?_
    unfold passes externPasses callerRepoPrefix
    simp only [if_neg himport, if_pos hextern, hnode]
  -- the first two passes go by the type itself, and the method passes the second
  have hpasses : ∀ w : Lookup, ∃ us, w.passes e =
      [(fun c : Node => decide (c.kind = .kindMethod ∧ nodeReceiverType c = edgeReceiverType e) &&
          decide (GoPath.dir c.filePath = GoPath.dir e.filePath), e.resolveScored (95 / 100)),
        (fun c => decide (c.kind = .kindMethod ∧ nodeReceiverType c = edgeReceiverType e),
          e.resolveScored (85 / 100))] ++ us := by
    intro w
    unfold passes hintPasses
    simp only [if_neg himport, if_neg hextern, if_pos hm, if_neg hne]
    exact ⟨_, rfl⟩
  obtain ⟨us, hus⟩ := hpasses v'
  obtain ⟨us', hus'⟩ := hpasses v
  exact Or.inr ⟨_, us, us', hus, hus', _, List.mem_cons_of_mem _ List.mem_cons_self, c, hc,
    decide_eq_true ⟨hkind, hof⟩⟩

end Lookup

/-! ### Bindings -/

namespace Edge

variable {e : Edge}

/-- The class that the edge binds to the abstract type. -/
def boundAs (abstractName : String) (e : Edge) : Option String :=
  if e.kind = .edgeProvides ∧ e.metadata.getStr "provides_for" = abstractName ∧
    e.metadata.getStr "binding" = "useClass" then some (Lookup.boundName e.toID) else none

/-- The two edges bind to the same types, if they bind at all. -/
structure SameBinding (e e' : Edge) : Prop where
  kind : e'.kind = e.kind
  providesFor : e'.metadata.getStr "provides_for" = e.metadata.getStr "provides_for"
  binding : e'.metadata.getStr "binding" = e.metadata.getStr "binding"

theorem SameBinding.boundAs_eq_none {e' : Edge} (h : SameBinding e e') {a : String}
    (he : e.boundAs a = none) : e'.boundAs a = none := by
  unfold Edge.boundAs at he ⊢
  rw [h.kind, h.providesFor, h.binding]
  split at he
  · cases he
  · rename_i hb
    exact if_neg hb

end Edge

namespace Lookup

variable {v : Lookup}

theorem mem_boundImplsFor {abstractName x : String} : x ∈ v.boundImplsFor abstractName ↔
    abstractName ≠ "" ∧ ∃ e ∈ v.allEdges, e.boundAs abstractName = some x := by
  unfold boundImplsFor Edge.boundAs
  by_cases ha : abstractName = ""
  · rw [if_pos ha]
    exact iff_of_false List.not_mem_nil fun h => h.1 ha
  · rw [if_neg ha, and_iff_right ha]
    simp only [List.mem_map, List.mem_filter, decide_eq_true_eq, Option.ite_none_right_eq_some,
      Option.some.injEq, and_assoc]

/-- **What a pass makes of the edge** goes to the candidate, and binds to what the edge binds to. -/
theorem of_mem_passes (e : Edge) :
    ∀ p ∈ v.passes e, ∀ c, (p.2 c).1.toID = c.id ∧ e.SameBinding (p.2 c).1 := by
  have hto : ∀ c, (e.resolveTo c).1.toID = c.id ∧ e.SameBinding (e.resolveTo c).1 :=
    fun _ => ⟨rfl, rfl, rfl, rfl⟩
  have hscored : ∀ q c, (e.resolveScored q c).1.toID = c.id ∧
      e.SameBinding (e.resolveScored q c).1 := fun _ _ => ⟨rfl, rfl, rfl, rfl⟩
  have hacross : ∀ repo c, (e.resolveAcross repo c).1.toID = c.id ∧
      e.SameBinding (e.resolveAcross repo c).1 := fun _ _ => ⟨rfl, rfl, rfl, rfl⟩
  have hstr : ∀ k : String, k ≠ "resolution" → Metadata.getStr
      (e.metadata.insert "resolution" (.str "useClass_binding")) k = e.metadata.getStr k :=
    fun k hk => by
      unfold Metadata.getStr
      rw [AList.lookup_insert_ne hk]
  have hdir : ∀ fits, ∀ p ∈ v.sameDirPasses e fits, ∀ c, (p.2 c).1.toID = c.id ∧
      e.SameBinding (p.2 c).1 := by
    intro fits p hp c
    simp only [sameDirPasses, List.mem_cons, List.not_mem_nil, or_false] at hp
    rcases hp with rfl | rfl
    · exact hto c
    · exact hacross _ c
  have hhint : ∀ p ∈ v.hintPasses e, ∀ c, (p.2 c).1.toID = c.id ∧
      e.SameBinding (p.2 c).1 := by
    intro p hp c
    unfold hintPasses at hp
    simp only at hp
    split at hp
    · cases hp
    · simp only [List.mem_cons, List.not_mem_nil, or_false] at hp
      rcases hp with rfl | rfl | rfl
      · exact hscored _ c
      · exact hscored _ c
      · exact ⟨rfl, rfl, hstr "provides_for" (by decide), hstr "binding" (by decide)⟩
  have hcaller : ∀ p ∈ v.callerPasses e, ∀ c, (p.2 c).1.toID = c.id ∧
      e.SameBinding (p.2 c).1 := by
    intro p hp c
    unfold callerPasses at hp
    simp only at hp
    split at hp
    · cases hp
    · simp only [List.mem_cons, List.not_mem_nil, or_false] at hp
      rcases hp with rfl | rfl
      · exact hscored _ c
      · exact hscored _ c
  have hname : ∀ p ∈ namePasses e, ∀ c, (p.2 c).1.toID = c.id ∧
      e.SameBinding (p.2 c).1 := by
    intro p hp c
    simp only [namePasses, List.mem_cons, List.not_mem_nil, or_false] at hp
    rcases hp with rfl | rfl | rfl | rfl <;> exact hto c
  intro p hp c
  -- by the form of the placeholder
  unfold passes at hp
  simp only at hp
  split_ifs at hp
  · simp only [importPasses, List.mem_cons, List.not_mem_nil, or_false] at hp
    rcases hp with rfl | rfl | rfl | rfl
    · exact hto c
    · exact hto c
    · exact hacross _ c
    · exact hacross _ c
  · split at hp
    · cases hp
    · obtain rfl := List.mem_singleton.mp hp
      exact hacross _ c
  · rcases List.mem_append.mp hp with hp | hp
    · exact hhint p hp c
    · rcases List.mem_append.mp hp with hp | hp
      · exact hcaller p hp c
      · exact hname p hp c
  · simp only [tokenPasses, List.mem_cons, List.not_mem_nil, or_false] at hp
    rcases hp with rfl | rfl <;> exact hscored _ c
  · rcases List.mem_append.mp hp with hp | hp
    · exact hdir _ p hp c
    · exact hdir _ p hp c
  · exact hdir _ p hp c

theorem sameBinding_resolveEdge (e : Edge) : e.SameBinding (v.resolveEdge e).1 := by
  have hlabel : ∀ label, e.SameBinding (e.resolveExternal label).1 := fun _ => ⟨rfl, rfl, rfl⟩
  by_cases hq : v.NotQualified e
  · rw [resolveEdge_eq_choose hq]
    cases hc : FirstFit.choose (v.candidates e) (v.passes e) with
    | some y =>
      obtain ⟨p, hp, c, -, -, rfl⟩ := FirstFit.of_choose_eq_some hc
      exact (of_mem_passes e p hp c).2
    | none =>
      rw [Option.getD_none]
      unfold otherwise applyBuiltinIfKnown
      simp only
      split_ifs
      · exact hlabel _
      · split <;> exact hlabel _
      · exact ⟨rfl, rfl, rfl⟩
      · cases classifyBuiltin (trimPrefix (trimPrefix e.toID unresolvedPrefix) "*.")
          (langFromFilePath e.filePath) with
        | none => exact ⟨rfl, rfl, rfl⟩
        | some category => exact hlabel _
      · exact ⟨rfl, rfl, rfl⟩
  · obtain ⟨himport, n, hn⟩ := exists_qualified_of_not hq
    rw [resolveEdge_of_import himport hn]
    exact ⟨rfl, rfl, rfl⟩

end Lookup

end Gortex
