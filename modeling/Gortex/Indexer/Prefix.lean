import Gortex.Indexer.Indexer
import Gortex.Resolver.Order

/-!
# Resolution under the prefix of a repository

With more than one repository, the IDs and paths of each are written with its prefix before
them. The resolver compares names, receivers and directories, and for most placeholders the
prefix makes no difference: two files are in one directory with it exactly if they are in one
without. It does where a directory is compared with an import path: the path may name the
directory with its prefix, and a directory at the root of the repository, which has one
component only, is not looked up by its last component, but is with a prefix before it.

For an edge the two do the same if the file or symbol that comes first with the prefix is the one
that is found without (`Gortex.Indexer.Kept`), and then only
(`Gortex.Indexer.IsRepoPrefix.kept_of_toID_eq`).
-/

namespace Gortex

open GoString Graph

attribute [local irreducible] cutLast

/-- Whether an ID is a placeholder or a label of something outside the graph. -/
def isStubID (id : String) : Bool :=
  [unresolvedPrefix, "external::", "stdlib::", "dep::", "builtin::"].any (hasPrefix id)

theorem isStubID_of_mem {label rest : String}
    (hl : label ∈ [unresolvedPrefix, "external::", "stdlib::", "dep::", "builtin::"]) :
    isStubID (label ++ rest) = true := by
  unfold isStubID
  rw [List.any_eq_true]
  exact ⟨label, hl, hasPrefix_append _ _⟩

/-- With a path before it no ID becomes a placeholder. -/
theorem isStubID_under {p : String} (hp : isStubID p = false) (id : String) :
    isStubID (p ++ "/" ++ id) = false := by
  unfold isStubID at hp ⊢
  rw [List.any_eq_false] at hp ⊢
  intro label hl hid
  refine hp label hl (hasPrefix_of_hasPrefix_slash ?_ hid)
  simp only [List.mem_cons, List.not_mem_nil, or_false] at hl
  rcases hl with rfl | rfl | rfl | rfl | rfl <;> decide

theorem isStubID_of_isUnresolved {e : Edge} (hun : e.IsUnresolved) : isStubID e.toID = true := by
  obtain ⟨rest, hrest⟩ := hasPrefix_iff.mp hun
  rw [hrest]
  exact isStubID_of_mem List.mem_cons_self

theorem not_hasPrefix_of_isStubID {id : String} (hid : isStubID id = false) :
    ¬hasPrefix id unresolvedPrefix = true := fun hc => by
  unfold isStubID at hid
  rw [List.any_eq_false] at hid
  exact hid _ List.mem_cons_self hc

namespace Indexer

variable (idx : Indexer)

/-- A resolved edge under the prefix: its target, too, if that is in the repository. -/
def prefixResolved (e : Edge) : Edge :=
  { e with
    fromID := idx.repoPrefix ++ "/" ++ e.fromID
    toID := if isStubID e.toID then e.toID else idx.repoPrefix ++ "/" ++ e.toID
    filePath := idx.repoPrefix ++ "/" ++ e.filePath }

/-- A prefix that a repository can have: a path inside the current directory that is the start
of no placeholder. -/
structure IsRepoPrefix (p : String) : Prop where
  isLocal : GoPath.IsLocal p
  notStub : isStubID p = false

/-- **What the extractors make of a repository**: the files are inside it, and no ID is a
placeholder. -/
structure InRepository (v : Lookup) : Prop where
  getNode : ∀ {id n}, v.getNode id = some n → GoPath.IsLocal n.filePath ∧ n.repoPrefix = "" ∧
    isStubID n.id = false
  byName : ∀ {name c}, c ∈ v.findNodesByName name → v.getNode c.id = some c
  byQual : ∀ {qualName c}, v.getNodeByQualName qualName = some c → v.getNode c.id = some c
  files : ∀ {c}, c ∈ v.fileNodes → v.getNode c.id = some c

/-- **The second lookup is of the same nodes under the prefix.** -/
structure PrefixedLookup (v v' : Lookup) : Prop where
  getNode : ∀ id, v'.getNode (idx.repoPrefix ++ "/" ++ id) = (v.getNode id).map idx.prefixNode
  byName : ∀ name c', c' ∈ v'.findNodesByName name ↔
    ∃ c ∈ v.findNodesByName name, idx.prefixNode c = c'
  byQual : ∀ q, v'.getNodeByQualName q = (v.getNodeByQualName q).map idx.prefixNode
  files : ∀ c', c' ∈ v'.fileNodes ↔ ∃ c ∈ v.fileNodes, idx.prefixNode c = c'

/-! ### What the prefix keeps -/

/-- The directory is found for an import by its last component. -/
def InLastDir (dir importPath : String) : Prop :=
  lastPathComponent dir = lastPathComponent importPath ∧ lastPathComponent importPath ≠ "" ∧
    lastPathComponent importPath ≠ dir

instance (dir importPath : String) : Decidable (InLastDir dir importPath) := by
  unfold InLastDir
  infer_instance

/-- The directory is one of the import path of a qualified call. -/
def InExternDir (dir importPath : String) : Prop :=
  hasSuffix dir ("/" ++ lastPathComponent importPath) = true ∨ dir = importPath ∨
    hasSuffix dir importPath = true

instance (dir importPath : String) : Decidable (InExternDir dir importPath) := by
  unfold InExternDir
  infer_instance

/-- The file is found for an import: it is in the directory of the path, or in none is, and it is
in one of its last component. -/
def Finds (v : Lookup) (importPath : String) (n : Node) : Prop :=
  GoPath.dir n.filePath = importPath ∨
    ((∀ m ∈ v.fileNodes, GoPath.dir m.filePath ≠ importPath) ∧
      InLastDir (GoPath.dir n.filePath) importPath)

/-- The file is in the directory of the path. -/
def inDir (importPath : String) (n : Node) : Bool := GoPath.dir n.filePath = importPath

/-- The file is in a directory of its last component. -/
def inLastDir (importPath : String) (n : Node) : Bool := InLastDir (GoPath.dir n.filePath) importPath

/-- The file that comes first for an import: of those in the directory of the path, or, where none
is, of those in a directory of its last component. -/
def firstFile (v : Lookup) (importPath : String) : Option Node :=
  v.fileNodes.find? (inDir importPath) <|> v.fileNodes.find? (inLastDir importPath)

/-- The test of a qualified call. -/
def fitsExtern (importPath : String) (c : Node) : Bool :=
  (c.isCallable || c.isTypeLike) && decide (InExternDir (GoPath.dir c.filePath) importPath)

/-- The symbol of the name that comes first for a qualified call. -/
def firstSymbol (v : Lookup) (importPath symbol : String) : Option Node :=
  (v.findNodesByName symbol).find? (fitsExtern importPath)

/-- **The prefix keeps what the edge finds.** For an import that is not of a qualified name, the
file that comes first among the paths with the prefix is the one that is found without; for a
qualified call, the symbol that comes first is the one that fits without. Other placeholders are
not compared with directories. -/
def Kept (v v' : Lookup) (e : Edge) : Prop :=
  let target := trimPrefix e.toID unresolvedPrefix
  if hasPrefix target "import::" then
    let importPath := trimPrefix target "import::"
    v.getNodeByQualName importPath = none → ∀ n ∈ v.fileNodes,
      (firstFile v' importPath = some (idx.prefixNode n) ↔ Finds v importPath n)
  else if hasPrefix target "extern::" then
    ∀ importPath symbol, cutLast (trimPrefix target "extern::") "::" = some (importPath, symbol) →
      ∀ c ∈ v.findNodesByName symbol,
        (firstSymbol v' importPath symbol = some (idx.prefixNode c) ↔ fitsExtern importPath c = true)
  else True

/-- **No two candidates fit one pass** for the edge. -/
def Unique (v : Lookup) (e : Edge) : Prop :=
  FirstFit.Decided (fun _ : Node => ()) (· ∈ v.candidates e) ((v.passes e).map Prod.fst)

variable {idx} {v v' : Lookup} {e : Edge}

theorem InRepository.withoutEdges (h : InRepository v) : InRepository v.withoutEdges :=
  ⟨h.getNode, h.byName, h.byQual, h.files⟩

theorem PrefixedLookup.withoutEdges (h : PrefixedLookup idx v v') :
    PrefixedLookup idx v.withoutEdges v'.withoutEdges :=
  ⟨h.getNode, h.byName, h.byQual, h.files⟩

theorem kept_withoutEdges : idx.Kept v.withoutEdges v'.withoutEdges e ↔ idx.Kept v v' e := Iff.rfl

section

variable (hp : IsRepoPrefix idx.repoPrefix)

include hp

theorem IsRepoPrefix.ne : idx.repoPrefix ≠ "" := fun hc => by
  have hlocal := hp.isLocal.comps
  rw [hc] at hlocal
  exact hlocal rfl

theorem IsRepoPrefix.prefixNode_eq (n : Node) : idx.prefixNode n =
    { n with
      id := idx.repoPrefix ++ "/" ++ n.id
      filePath := idx.repoPrefix ++ "/" ++ n.filePath
      repoPrefix := idx.repoPrefix } :=
  if_neg hp.ne

theorem IsRepoPrefix.prefixEdge_eq (hun : e.IsUnresolved) : idx.prefixEdge e =
    { e with
      fromID := idx.repoPrefix ++ "/" ++ e.fromID
      filePath := idx.repoPrefix ++ "/" ++ e.filePath } := by
  unfold prefixEdge
  rw [if_neg hp.ne, if_pos (show hasPrefix e.toID unresolvedPrefix = true from hun)]

theorem IsRepoPrefix.prefixEdge_of_not (hun : ¬e.IsUnresolved) : idx.prefixEdge e =
    { e with
      fromID := idx.repoPrefix ++ "/" ++ e.fromID
      toID := idx.repoPrefix ++ "/" ++ e.toID
      filePath := idx.repoPrefix ++ "/" ++ e.filePath } := by
  unfold prefixEdge
  rw [if_neg hp.ne, if_neg (show ¬hasPrefix e.toID unresolvedPrefix = true from hun)]

omit hp in
/-- The prefix keeps IDs apart. -/
theorem prefix_inj {a b : String}
    (h : idx.repoPrefix ++ "/" ++ a = idx.repoPrefix ++ "/" ++ b) : a = b := by
  have hlist := congrArg String.toList h
  rw [String.toList_append, String.toList_append (t := b)] at hlist
  exact String.toList_inj.mp (List.append_cancel_left hlist)

/-! ### One pass -/

/-- What a pass answers, under the prefix. -/
def underPrefix (idx : Indexer) (y : Edge × Outcome) : Edge × Outcome :=
  (idx.prefixResolved y.1, y.2)

section Makers

variable (hun : e.IsUnresolved) {c : Node} (hc : isStubID c.id = false)

include hun hc

theorem IsRepoPrefix.resolveTo : (idx.prefixEdge e).resolveTo (idx.prefixNode c) =
    underPrefix idx (e.resolveTo c) := by
  rw [hp.prefixEdge_eq hun, hp.prefixNode_eq]
  unfold underPrefix prefixResolved Edge.resolveTo
  simp only [hc, Bool.false_eq_true, if_false]

theorem IsRepoPrefix.resolveScored (confidence : ℚ) :
    (idx.prefixEdge e).resolveScored confidence (idx.prefixNode c) =
      underPrefix idx (e.resolveScored confidence c) := by
  rw [hp.prefixEdge_eq hun, hp.prefixNode_eq]
  unfold underPrefix prefixResolved Edge.resolveScored
  simp only [hc, Bool.false_eq_true, if_false]

/-- No node of the repository is of another one. -/
theorem IsRepoPrefix.resolveAcross (hrepo : c.repoPrefix = "") {callerRepo callerRepo' : String}
    (hcaller : callerRepo' = "" ∨ callerRepo' = idx.repoPrefix) :
    (idx.prefixEdge e).resolveAcross callerRepo' (idx.prefixNode c) =
      underPrefix idx (e.resolveAcross callerRepo c) := by
  rw [hp.prefixEdge_eq hun, hp.prefixNode_eq]
  unfold underPrefix prefixResolved Edge.resolveAcross
  have hcross : ¬(callerRepo' ≠ "" ∧ idx.repoPrefix ≠ "" ∧ idx.repoPrefix ≠ callerRepo') := by
    rintro ⟨hne, -, hne'⟩
    exact hcaller.elim hne fun h => hne' h.symm
  simp only [hc, hcross, hrepo, ne_eq, not_true_eq_false, false_and, and_false, Bool.false_eq_true,
    if_false]

theorem IsRepoPrefix.resolveBound : (({ idx.prefixEdge e with
        toID := (idx.prefixNode c).id
        confidence := 9 / 10
        metadata := (idx.prefixEdge e).metadata.insert "resolution" (.str "useClass_binding") } : Edge),
      Outcome.resolved) = underPrefix idx ({ e with
        toID := c.id
        confidence := 9 / 10
        metadata := e.metadata.insert "resolution" (.str "useClass_binding") }, .resolved) := by
  rw [hp.prefixEdge_eq hun, hp.prefixNode_eq]
  unfold underPrefix prefixResolved
  simp only [hc, Bool.false_eq_true, if_false]

end Makers

/-- An edge to a label stays one. -/
theorem IsRepoPrefix.resolveExternal (hun : e.IsUnresolved) {label : String}
    (hl : isStubID label = true) :
    (idx.prefixEdge e).resolveExternal label = underPrefix idx (e.resolveExternal label) := by
  rw [hp.prefixEdge_eq hun]
  unfold underPrefix prefixResolved Edge.resolveExternal
  simp only [hl, if_true]

theorem IsRepoPrefix.self (hun : e.IsUnresolved) (o : Outcome) :
    (idx.prefixEdge e, o) = underPrefix idx (e, o) := by
  have hstub := isStubID_of_isUnresolved hun
  rw [hp.prefixEdge_eq hun]
  unfold underPrefix prefixResolved
  simp only [hstub, if_true]

/-- The passes do with a node under the prefix what the others do with the node. -/
def Corresponds (idx : Indexer) (l : List Node) (p' p : (Node → Bool) × (Node → Edge × Outcome)) :
    Prop :=
  ∀ c ∈ l, p'.1 (idx.prefixNode c) = p.1 c ∧ p'.2 (idx.prefixNode c) = underPrefix idx (p.2 c)

/-- The edge is of a file inside the repository, and so are the candidates. -/
structure Inside (e : Edge) (l : List Node) : Prop where
  unresolved : e.IsUnresolved
  file : GoPath.IsLocal e.filePath
  nodes : ∀ c ∈ l, GoPath.IsLocal c.filePath ∧ c.repoPrefix = "" ∧ isStubID c.id = false

theorem IsRepoPrefix.here {l : List Node} (hi : Inside e l) {c : Node} (hc : c ∈ l) :
    decide (GoPath.dir (idx.prefixNode c).filePath = GoPath.dir (idx.prefixEdge e).filePath) =
      decide (GoPath.dir c.filePath = GoPath.dir e.filePath) := by
  rw [hp.prefixNode_eq, hp.prefixEdge_eq hi.unresolved]
  exact decide_eq_decide.mpr (hp.isLocal.dir_join_eq_iff (hi.nodes c hc).1 hi.file)

section Groups

variable {l : List Node} (hi : Inside e l)

include hi

theorem corresponds_sameDirPasses (hcaller : v'.callerRepoPrefix (idx.prefixEdge e) = "" ∨
      v'.callerRepoPrefix (idx.prefixEdge e) = idx.repoPrefix) {fits : Node → Bool}
    (hfits : ∀ c, fits (idx.prefixNode c) = fits c) :
    List.Forall₂ (Corresponds idx l) (v'.sameDirPasses (idx.prefixEdge e) fits)
      (v.sameDirPasses e fits) := by
  refine .cons (fun c hc => ⟨?_, ?_⟩) (.cons (fun c hc => ⟨hfits c, ?_⟩) .nil)
  · exact congrArg₂ (· && ·) (hfits c) (hp.here hi hc)
  · exact hp.resolveTo hi.unresolved (hi.nodes c hc).2.2
  · exact hp.resolveAcross hi.unresolved (hi.nodes c hc).2.2 (hi.nodes c hc).2.1 hcaller

theorem corresponds_namePasses :
    List.Forall₂ (Corresponds idx l) (Lookup.namePasses (idx.prefixEdge e)) (Lookup.namePasses e) := by
  have hkind : ∀ c, (idx.prefixNode c).kind = c.kind := fun c => by rw [hp.prefixNode_eq]
  have hto := fun c hc => hp.resolveTo hi.unresolved (hi.nodes c hc).2.2
  refine .cons (fun c hc => ⟨?_, hto c hc⟩) (.cons (fun c hc => ⟨?_, hto c hc⟩)
    (.cons (fun c hc => ⟨?_, hto c hc⟩) (.cons (fun c hc => ⟨?_, hto c hc⟩) .nil)))
  · exact congrArg₂ (· && ·) (decide_eq_decide.mpr (by rw [hkind])) (hp.here hi hc)
  · exact decide_eq_decide.mpr (by rw [hkind])
  · exact congrArg₂ (· && ·) (decide_eq_decide.mpr (by rw [hkind])) (hp.here hi hc)
  · exact decide_eq_decide.mpr (by rw [hkind])

theorem corresponds_tokenPasses :
    List.Forall₂ (Corresponds idx l) (Lookup.tokenPasses (idx.prefixEdge e))
      (Lookup.tokenPasses e) := by
  have hscored := fun q c hc => hp.resolveScored hi.unresolved (hi.nodes c hc).2.2 q
  refine .cons (fun c hc => ?_) (.cons (fun c hc => ⟨rfl, hscored _ c hc⟩) .nil)
  have hhere := hp.here hi hc
  exact ⟨hhere, hscored _ c hc⟩

theorem corresponds_callerPasses
    (hcaller : v'.callerReceiverType (idx.prefixEdge e) = v.callerReceiverType e) :
    List.Forall₂ (Corresponds idx l) (v'.callerPasses (idx.prefixEdge e)) (v.callerPasses e) := by
  have hkind : ∀ c, (idx.prefixNode c).kind = c.kind := fun c => by rw [hp.prefixNode_eq]
  have hrecv : ∀ c, nodeReceiverType (idx.prefixNode c) = nodeReceiverType c := fun c => by
    rw [hp.prefixNode_eq]
    rfl
  have hscored := fun q c hc => hp.resolveScored hi.unresolved (hi.nodes c hc).2.2 q
  unfold Lookup.callerPasses
  simp only [hcaller]
  split
  · exact .nil
  · refine .cons (fun c hc => ⟨?_, hscored _ c hc⟩) (.cons (fun c hc => ⟨?_, hscored _ c hc⟩) .nil)
    · exact congrArg₂ (· && ·) (decide_eq_decide.mpr (by rw [hkind, hrecv])) (hp.here hi hc)
    · exact decide_eq_decide.mpr (by rw [hkind, hrecv])

theorem corresponds_hintPasses (hbound : ∀ x, x ∈ v'.boundImplsFor (edgeReceiverType e) ↔
      x ∈ v.boundImplsFor (edgeReceiverType e)) :
    List.Forall₂ (Corresponds idx l) (v'.hintPasses (idx.prefixEdge e)) (v.hintPasses e) := by
  have hkind : ∀ c, (idx.prefixNode c).kind = c.kind := fun c => by rw [hp.prefixNode_eq]
  have hrecv : ∀ c, nodeReceiverType (idx.prefixNode c) = nodeReceiverType c := fun c => by
    rw [hp.prefixNode_eq]
    rfl
  have htype : edgeReceiverType (idx.prefixEdge e) = edgeReceiverType e := by
    rw [hp.prefixEdge_eq hi.unresolved]
    rfl
  have hscored := fun q c hc => hp.resolveScored hi.unresolved (hi.nodes c hc).2.2 q
  unfold Lookup.hintPasses
  simp only [htype]
  split
  · exact .nil
  · refine .cons (fun c hc => ⟨?_, hscored _ c hc⟩) (.cons (fun c hc => ⟨?_, hscored _ c hc⟩)
      (.cons (fun c hc => ⟨?_, hp.resolveBound hi.unresolved (hi.nodes c hc).2.2⟩) .nil))
    · exact congrArg₂ (· && ·) (decide_eq_decide.mpr (by rw [hkind, hrecv])) (hp.here hi hc)
    · exact decide_eq_decide.mpr (by rw [hkind, hrecv])
    · exact decide_eq_decide.mpr (by rw [hkind, hrecv, hbound])

end Groups

/-! ### Imports -/

omit hp in
theorem inDir_iff {importPath : String} {n : Node} :
    inDir importPath n = true ↔ GoPath.dir n.filePath = importPath := decide_eq_true_iff

omit hp in
theorem inLastDir_iff {importPath : String} {n : Node} :
    inLastDir importPath n = true ↔ InLastDir (GoPath.dir n.filePath) importPath := decide_eq_true_iff

omit hp in
theorem mem_of_firstFile {importPath : String} {n : Node} (h : firstFile v importPath = some n) :
    n ∈ v.fileNodes := by
  unfold firstFile at h
  rw [Option.orElse_eq_orElse, Option.orElse_eq_or, Option.or_eq_some_iff] at h
  rcases h with h | ⟨-, h⟩
  · exact List.mem_of_find?_eq_some h
  · exact List.mem_of_find?_eq_some h

omit hp in
theorem resolveImport_eq_firstFile {importPath : String} (hq : v.getNodeByQualName importPath = none)
    (hsame : ∀ n ∈ v.fileNodes, v.callerRepoPrefix e = "" ∨ n.repoPrefix = v.callerRepoPrefix e) :
    v.resolveImport e importPath = ((firstFile v importPath).map e.resolveTo).getD
      (e.resolveExternal ("external::" ++ importPath)) := by
  have hand : ∀ q : Node → Bool, v.fileNodes.find? (fun n => q n &&
      decide (v.callerRepoPrefix e = "" ∨ n.repoPrefix = v.callerRepoPrefix e)) =
        v.fileNodes.find? q := fun q => by
    have hcongr : ∀ l : List Node, (∀ n ∈ l, v.callerRepoPrefix e = "" ∨
        n.repoPrefix = v.callerRepoPrefix e) → l.find? (fun n => q n &&
          decide (v.callerRepoPrefix e = "" ∨ n.repoPrefix = v.callerRepoPrefix e)) = l.find? q := by
      intro l hl
      induction l with
      | nil => rfl
      | cons n l ih =>
        rw [List.find?_cons, List.find?_cons, decide_eq_true (hl n List.mem_cons_self),
          Bool.and_true, ih fun m hm => hl m (List.mem_cons_of_mem n hm)]
    exact hcongr _ hsame
  rw [Lookup.resolveImport_eq_choose e importPath hq]
  have hlast : (fun n : Node =>
      decide (lastPathComponent (GoPath.dir n.filePath) = lastPathComponent importPath ∧
        lastPathComponent importPath ≠ "" ∧ lastPathComponent importPath ≠ GoPath.dir n.filePath)) =
      inLastDir importPath := funext fun n => decide_eq_decide.mpr Iff.rfl
  have hdir : (fun n : Node => decide (GoPath.dir n.filePath = importPath)) = inDir importPath := rfl
  unfold Lookup.importPasses firstFile
  simp only [FirstFit.choose, hand, Option.orElse_eq_orElse, Option.orElse_eq_or, Option.or_none]
  rw [hlast, hdir]
  cases v.fileNodes.find? (inDir importPath) with
  | some n => rfl
  | none => cases v.fileNodes.find? (inLastDir importPath) <;> rfl

omit hp in
/-- What is found is what `Finds` says, if nothing is tied. -/
theorem firstFile_eq_some {importPath : String}
    (hu : FirstFit.Decided (fun _ : Node => ()) (· ∈ v.fileNodes)
      [inDir importPath, inLastDir importPath]) {n : Node} :
    firstFile v importPath = some n ↔ n ∈ v.fileNodes ∧ Finds v importPath n := by
  obtain ⟨hu₁, hu₂⟩ := (FirstFit.decided_cons _).mp hu
  unfold firstFile Finds
  rw [Option.orElse_eq_orElse, Option.orElse_eq_or]
  cases hd : v.fileNodes.find? (inDir importPath) with
  | some m =>
    have hm := List.mem_of_find?_eq_some hd
    have hmd := List.find?_some hd
    rw [Option.some_or, Option.some.injEq]
    constructor
    · rintro rfl
      exact ⟨hm, Or.inl (inDir_iff.mp hmd)⟩
    · rintro ⟨hn, hdir | ⟨hnone, -⟩⟩
      · exact hu₁ m n ⟨⟨hm, hmd⟩, fun _ _ => le_refl _⟩
          ⟨⟨hn, inDir_iff.mpr hdir⟩, fun _ _ => le_refl _⟩
      · exact absurd (inDir_iff.mp hmd) (hnone m hm)
  | none =>
    have hnone := List.find?_eq_none.mp hd
    have hnone' : ∀ m ∈ v.fileNodes, GoPath.dir m.filePath ≠ importPath := fun m hm hdir =>
      hnone m hm (inDir_iff.mpr hdir)
    obtain ⟨hu₂, -⟩ := (FirstFit.decided_cons _).mp (hu₂ hnone)
    rw [Option.none_or]
    constructor
    · intro hl
      exact ⟨List.mem_of_find?_eq_some hl, Or.inr ⟨hnone', inLastDir_iff.mp (List.find?_some hl)⟩⟩
    · rintro ⟨hn, hdir | ⟨-, hlast⟩⟩
      · exact absurd hdir (hnone' n hn)
      · obtain ⟨m, hm⟩ := Option.isSome_iff_exists.mp (List.find?_isSome.mpr
          ⟨n, hn, inLastDir_iff.mpr hlast⟩)
        rw [hm]
        exact congrArg some (hu₂ m n ⟨⟨List.mem_of_find?_eq_some hm, List.find?_some hm⟩,
          fun _ _ => le_refl _⟩ ⟨⟨hn, inLastDir_iff.mpr hlast⟩, fun _ _ => le_refl _⟩)

/-! ### One edge -/

omit hp in
/-- The test of a qualified call. -/
theorem externTest_eq (c : Node) (dir importPath : String) :
    ((c.isCallable || c.isTypeLike) && (hasSuffix dir ("/" ++ lastPathComponent importPath) ||
      decide (dir = importPath) || hasSuffix dir importPath)) =
        ((c.isCallable || c.isTypeLike) && decide (InExternDir dir importPath)) := by
  refine congrArg _ (Bool.eq_iff_iff.mpr ?_)
  rw [Bool.or_eq_true, Bool.or_eq_true, decide_eq_true_iff, decide_eq_true_iff, or_assoc]
  rfl

section Edge

variable (hv : InRepository v) (hvv : PrefixedLookup idx v v') (hun : e.IsUnresolved)
  (hfile : GoPath.IsLocal e.filePath)

include hv in
omit hp in
/-- Without the prefix no node is of a repository. -/
theorem InRepository.callerRepoPrefix (e : Edge) : v.callerRepoPrefix e = "" := by
  unfold Lookup.callerRepoPrefix
  cases hn : v.getNode e.fromID with
  | none => rfl
  | some n => exact (hv.getNode hn).2.1

include hvv hun in
theorem IsRepoPrefix.callerRepoPrefix : v'.callerRepoPrefix (idx.prefixEdge e) = "" ∨
    v'.callerRepoPrefix (idx.prefixEdge e) = idx.repoPrefix := by
  unfold Lookup.callerRepoPrefix
  rw [hp.prefixEdge_eq hun]
  simp only [hvv.getNode]
  cases v.getNode e.fromID with
  | none => exact Or.inl rfl
  | some n => exact Or.inr (by rw [Option.map_some, hp.prefixNode_eq]; rfl)

include hvv hun in
theorem IsRepoPrefix.callerReceiverType :
    v'.callerReceiverType (idx.prefixEdge e) = v.callerReceiverType e := by
  unfold Lookup.callerReceiverType
  rw [hp.prefixEdge_eq hun]
  simp only [hvv.getNode]
  cases v.getNode e.fromID with
  | none => rfl
  | some n =>
    rw [Option.map_some, hp.prefixNode_eq]
    rfl

include hun in
theorem IsRepoPrefix.target : trimPrefix (idx.prefixEdge e).toID unresolvedPrefix =
    trimPrefix e.toID unresolvedPrefix := by
  rw [hp.prefixEdge_eq hun]

include hun in
theorem IsRepoPrefix.kind : (idx.prefixEdge e).kind = e.kind := by
  rw [hp.prefixEdge_eq hun]

include hv hvv hun in
/-- An import, under the prefix and without it. -/
theorem IsRepoPrefix.resolveImport_eq {importPath : String}
    (hq : v.getNodeByQualName importPath = none) :
    v.resolveImport e importPath = ((firstFile v importPath).map e.resolveTo).getD
        (e.resolveExternal ("external::" ++ importPath)) ∧
      v'.resolveImport (idx.prefixEdge e) importPath =
        ((firstFile v' importPath).map (idx.prefixEdge e).resolveTo).getD
          ((idx.prefixEdge e).resolveExternal ("external::" ++ importPath)) := by
  constructor
  · exact resolveImport_eq_firstFile hq fun _ _ => Or.inl (hv.callerRepoPrefix e)
  · refine resolveImport_eq_firstFile (by rw [hvv.byQual, hq]; rfl) fun n' hn' => ?_
    obtain ⟨n, -, rfl⟩ := (hvv.files n').mp hn'
    rcases hp.callerRepoPrefix hvv hun with hcaller | hcaller
    · exact Or.inl hcaller
    · exact Or.inr (by rw [hcaller, hp.prefixNode_eq])

include hv in
omit hp in
theorem decided_import {importPath : String}
    (himport : hasPrefix (trimPrefix e.toID unresolvedPrefix) "import::" = true)
    (hpath : trimPrefix (trimPrefix e.toID unresolvedPrefix) "import::" = importPath)
    (hu : Unique v e) : FirstFit.Decided (fun _ : Node => ()) (· ∈ v.fileNodes)
      [inDir importPath, inLastDir importPath] := by
  have hdir : ∀ n : Node, (decide (GoPath.dir n.filePath = importPath) &&
      decide (v.callerRepoPrefix e = "" ∨ n.repoPrefix = v.callerRepoPrefix e)) =
        inDir importPath n := fun n => by
    rw [decide_eq_true (Or.inl (hv.callerRepoPrefix e)), Bool.and_true]
    rfl
  have hlast' : ∀ n : Node, decide (lastPathComponent (GoPath.dir n.filePath) =
      lastPathComponent importPath ∧ lastPathComponent importPath ≠ "" ∧
        lastPathComponent importPath ≠ GoPath.dir n.filePath) = inLastDir importPath n :=
    fun n => decide_eq_decide.mpr Iff.rfl
  have hlast : ∀ n : Node, (inLastDir importPath n &&
      decide (v.callerRepoPrefix e = "" ∨ n.repoPrefix = v.callerRepoPrefix e)) =
        inLastDir importPath n := fun n => by
    rw [decide_eq_true (Or.inl (hv.callerRepoPrefix e)), Bool.and_true]
  have htests : (v.importPasses e importPath).map Prod.fst =
      [inDir importPath, inLastDir importPath, inDir importPath, inLastDir importPath] := by
    simp only [Lookup.importPasses, List.map_cons, List.map_nil, hdir, hlast', List.cons.injEq,
      and_true, true_and]
    exact ⟨funext hlast, rfl⟩
  unfold Unique Lookup.candidates Lookup.passes at hu
  simp only [himport, if_true, hpath, htests] at hu
  obtain ⟨hu₁, hu₂⟩ := (FirstFit.decided_cons _).mp hu
  exact (FirstFit.decided_cons _).mpr ⟨hu₁, fun hnone => (FirstFit.decided_cons _).mpr
    ⟨((FirstFit.decided_cons _).mp (hu₂ hnone)).1, fun _ => FirstFit.decided_nil _⟩⟩

/-- The label of a qualified call that no symbol matches. -/
def externLabel (importPath symbol : String) : String :=
  (if Lookup.isStdlibLike importPath then "stdlib::" else "dep::") ++ importPath ++ "::" ++ symbol

omit hp in
theorem isStubID_externLabel (importPath symbol : String) :
    isStubID (externLabel importPath symbol) = true := by
  unfold externLabel
  split
  · rw [String.append_assoc, String.append_assoc]
    exact isStubID_of_mem (List.mem_of_getElem? (i := 2) rfl)
  · rw [String.append_assoc, String.append_assoc]
    exact isStubID_of_mem (List.mem_of_getElem? (i := 3) rfl)

omit hp in
/-- A qualified call goes to the symbol that comes first. -/
theorem resolveExtern_eq {spec importPath symbol : String}
    (hcut : cutLast spec "::" = some (importPath, symbol)) : v.resolveExtern e spec =
      ((firstSymbol v importPath symbol).map (e.resolveAcross (v.callerRepoPrefix e))).getD
        (e.resolveExternal (externLabel importPath symbol)) := by
  have hfits : (fun c : Node => (c.isCallable || c.isTypeLike) &&
      (hasSuffix (GoPath.dir c.filePath) ("/" ++ lastPathComponent importPath) ||
        decide (GoPath.dir c.filePath = importPath) || hasSuffix (GoPath.dir c.filePath) importPath)) =
          fitsExtern importPath := funext fun c => externTest_eq c _ _
  unfold Lookup.resolveExtern firstSymbol
  rw [hcut]
  simp only
  rw [hfits]
  cases (v.findNodesByName symbol).find? (fitsExtern importPath) <;> rfl

omit hp in
theorem decided_of_external {importPath symbol : String}
    (himport : ¬hasPrefix (trimPrefix e.toID unresolvedPrefix) "import::" = true)
    (hqualified : hasPrefix (trimPrefix e.toID unresolvedPrefix) "extern::" = true)
    (hcut : cutLast (trimPrefix (trimPrefix e.toID unresolvedPrefix) "extern::") "::" =
      some (importPath, symbol)) (hu : Unique v e) :
    FirstFit.Decided (fun _ : Node => ()) (· ∈ v.findNodesByName symbol)
      [fitsExtern importPath] := by
  unfold Unique Lookup.candidates Lookup.passes at hu
  simp only [if_neg himport, if_pos hqualified, hcut] at hu
  have hfits' : (v.externPasses e importPath).map Prod.fst = [fitsExtern importPath] :=
    congrArg₂ List.cons (funext fun c => externTest_eq c _ _) rfl
  rwa [hfits'] at hu

omit hp in
theorem mem_of_firstSymbol {importPath symbol : String} {c : Node}
    (h : firstSymbol v importPath symbol = some c) : c ∈ v.findNodesByName symbol :=
  List.mem_of_find?_eq_some h

omit hp in
/-- The symbol that comes first is the one that fits, if nothing is tied. -/
theorem firstSymbol_eq_some {importPath symbol : String}
    (hu : FirstFit.Decided (fun _ : Node => ()) (· ∈ v.findNodesByName symbol)
      [fitsExtern importPath]) {c : Node} (hc : c ∈ v.findNodesByName symbol) :
    firstSymbol v importPath symbol = some c ↔ fitsExtern importPath c = true := by
  refine ⟨fun h => List.find?_some h, fun hfit => ?_⟩
  obtain ⟨d, hd⟩ := Option.isSome_iff_exists.mp (List.find?_isSome.mpr ⟨c, hc, hfit⟩)
  rw [firstSymbol, hd]
  exact congrArg some (((FirstFit.decided_cons _).mp hu).1 d c ⟨⟨List.mem_of_find?_eq_some hd, List.find?_some hd⟩,
    fun _ _ => le_refl _⟩ ⟨⟨hc, hfit⟩, fun _ _ => le_refl _⟩)

omit hp in
/-- An ID under the prefix is no placeholder, and determines the node. -/
theorem eq_of_prefixed {c c' : Node}
    (hc : v.getNode c.id = some c) (hc' : v.getNode c'.id = some c')
    (heq : idx.repoPrefix ++ "/" ++ c'.id = idx.repoPrefix ++ "/" ++ c.id) : c' = c := by
  have hid : c'.id = c.id := prefix_inj heq
  rw [hid, hc] at hc'
  exact (Option.some.inj hc').symm

omit hp in
theorem toID_prefixResolved_node {c : Node} (hc : isStubID c.id = false) {e' : Edge}
    (he : e'.toID = c.id) : (idx.prefixResolved e').toID = idx.repoPrefix ++ "/" ++ c.id := by
  unfold prefixResolved
  simp only [he, hc, Bool.false_eq_true, if_false]

omit hp in
theorem toID_prefixResolved_stub {e' : Edge} (hl : isStubID e'.toID = true) :
    (idx.prefixResolved e').toID = e'.toID := if_pos hl

theorem IsRepoPrefix.ne_of_stub {label id : String} (hl : isStubID label = true) :
    label ≠ idx.repoPrefix ++ "/" ++ id := fun heq => by
  rw [heq, isStubID_under hp.notStub] at hl
  cases hl

section First

variable {l : List Node} {o o' : Option Node} (hl : ∀ c ∈ l, v.getNode c.id = some c)
  (ho : ∀ c, o = some c → c ∈ l) (ho' : ∀ b, o' = some b → ∃ c ∈ l, idx.prefixNode c = b)

include hl ho ho'

/-- **What comes first is kept**, node by node, exactly if it is the same under the prefix. -/
theorem IsRepoPrefix.forall_iff_eq_map :
    (∀ c ∈ l, (o' = some (idx.prefixNode c) ↔ o = some c)) ↔ o' = o.map idx.prefixNode := by
  constructor
  · intro h
    cases hc : o with
    | some c => exact (h c (ho c hc)).mpr hc
    | none =>
      refine Option.eq_none_iff_forall_ne_some.mpr fun b hb => ?_
      obtain ⟨c, hmem, rfl⟩ := ho' b hb
      have hsome := (h c hmem).mp hb
      rw [hc] at hsome
      cases hsome
  · rintro rfl c hc
    refine ⟨fun h => ?_, fun h => by rw [h, Option.map_some]⟩
    obtain ⟨d, hd, heq⟩ := Option.map_eq_some_iff.mp h
    have hid := congrArg Node.id heq
    rw [hp.prefixNode_eq, hp.prefixNode_eq] at hid
    rw [hd, eq_of_prefixed (hl c hc) (hl d (ho d hd)) hid]

include hv in
/-- An edge that gets the target it gets without the prefix, or the label: the same comes
first. -/
theorem IsRepoPrefix.eq_map_of_toID {label : String} (hlabel : isStubID label = true) {y : Edge}
    (hy : y.toID = (o.map Node.id).getD label)
    (heq : (o'.map Node.id).getD label = (idx.prefixResolved y).toID) :
    o' = o.map idx.prefixNode := by
  cases hc : o with
  | none =>
    rw [hc] at hy
    have hy : y.toID = label := hy
    rw [toID_prefixResolved_stub (by rw [hy]; exact hlabel), hy] at heq
    refine Option.eq_none_iff_forall_ne_some.mpr fun b hb => ?_
    obtain ⟨c, -, rfl⟩ := ho' b hb
    rw [hb, hp.prefixNode_eq] at heq
    exact hp.ne_of_stub hlabel heq.symm
  | some c =>
    rw [hc] at hy
    have hstored := hl c (ho c hc)
    rw [toID_prefixResolved_node (hv.getNode hstored).2.2 hy] at heq
    cases hb : o' with
    | none =>
      rw [hb] at heq
      exact absurd heq (hp.ne_of_stub hlabel)
    | some b =>
      obtain ⟨d, hd, rfl⟩ := ho' b hb
      rw [hb, hp.prefixNode_eq] at heq
      rw [eq_of_prefixed hstored (hl d hd) heq]
      rfl

end First

include hv hvv in
omit hun in
/-- **What is kept for an import.** -/
theorem IsRepoPrefix.kept_import_iff (hu : Unique v e)
    (himport : hasPrefix (trimPrefix e.toID unresolvedPrefix) "import::" = true)
    (hq : v.getNodeByQualName (trimPrefix (trimPrefix e.toID unresolvedPrefix) "import::") = none) :
    idx.Kept v v' e ↔
      firstFile v' (trimPrefix (trimPrefix e.toID unresolvedPrefix) "import::") =
        (firstFile v (trimPrefix (trimPrefix e.toID unresolvedPrefix) "import::")).map
          idx.prefixNode := by
  have hfirst := fun n => @firstFile_eq_some v _ (decided_import hv himport rfl hu) n
  rw [← hp.forall_iff_eq_map (fun _ => hv.files) (fun n hn => ((hfirst n).mp hn).1) fun b hb =>
    (hvv.files b).mp (mem_of_firstFile hb)]
  unfold Kept
  simp only [himport, if_true]
  rw [imp_iff_right hq]
  refine forall₂_congr fun n hn => ?_
  rw [hfirst, and_iff_right hn]

include hv hvv in
omit hun in
/-- **What is kept for a qualified call.** -/
theorem IsRepoPrefix.kept_extern_iff (hu : Unique v e)
    (himport : ¬hasPrefix (trimPrefix e.toID unresolvedPrefix) "import::" = true)
    (hqualified : hasPrefix (trimPrefix e.toID unresolvedPrefix) "extern::" = true) :
    idx.Kept v v' e ↔ ∀ importPath symbol, cutLast (trimPrefix (trimPrefix e.toID unresolvedPrefix)
      "extern::") "::" = some (importPath, symbol) → firstSymbol v' importPath symbol =
        (firstSymbol v importPath symbol).map idx.prefixNode := by
  unfold Kept
  simp only [himport, hqualified, if_true, Bool.false_eq_true, if_false]
  refine forall₃_congr fun importPath symbol hcut => ?_
  rw [← hp.forall_iff_eq_map (fun _ => hv.byName) (fun _ => mem_of_firstSymbol) fun b hb =>
    (hvv.byName symbol b).mp (mem_of_firstSymbol hb)]
  refine forall₂_congr fun c hc => ?_
  rw [firstSymbol_eq_some (decided_of_external himport hqualified hcut hu) hc]

include hun in
theorem IsRepoPrefix.otherwise_eq :
    Lookup.otherwise (idx.prefixEdge e) = underPrefix idx (Lookup.otherwise e) := by
  have hlang : langFromFilePath (idx.prefixEdge e).filePath = langFromFilePath e.filePath := by
    unfold langFromFilePath
    rw [hp.prefixEdge_eq hun]
    simp only [GoPath.ext_append_slash]
  unfold Lookup.otherwise
  simp only [hp.target hun]
  split_ifs
  · exact hp.resolveExternal hun (isStubID_of_mem (List.mem_of_getElem? (i := 1) rfl))
  · split
    · exact hp.resolveExternal hun (isStubID_of_mem (List.mem_of_getElem? (i := 1) rfl))
    · rename_i importPath symbol _
      refine hp.resolveExternal hun ?_
      split
      · rw [String.append_assoc, String.append_assoc]
        exact isStubID_of_mem (List.mem_of_getElem? (i := 2) rfl)
      · rw [String.append_assoc, String.append_assoc]
        exact isStubID_of_mem (List.mem_of_getElem? (i := 3) rfl)
  · unfold Lookup.applyBuiltinIfKnown
    simp only [hlang]
    split
    · exact hp.self hun _
    · cases classifyBuiltin (trimPrefix (trimPrefix e.toID unresolvedPrefix) "*.")
          (langFromFilePath e.filePath) with
      | none => exact hp.self hun _
      | some category =>
        refine hp.resolveExternal hun ?_
        rw [String.append_assoc, String.append_assoc, String.append_assoc, String.append_assoc]
        exact isStubID_of_mem (List.mem_of_getElem? (i := 4) rfl)
  · exact hp.self hun _

include hv hvv hun hfile in
/-- **Under the prefix the resolver gives an edge the answer that it gives without**, prefixed, if
the prefix keeps what the edge finds. -/
theorem IsRepoPrefix.resolveEdge_eq (hbound : ∀ x, x ∈ v'.boundImplsFor (edgeReceiverType e) ↔
      x ∈ v.boundImplsFor (edgeReceiverType e)) (hu : Unique v e) (hk : idx.Kept v v' e) :
    v'.resolveEdge (idx.prefixEdge e) = underPrefix idx (v.resolveEdge e) := by
  have htarget := hp.target hun
  have hkind := hp.kind hun
  -- an import goes to the node of a qualified name, or to the first file
  by_cases himport : hasPrefix (trimPrefix e.toID unresolvedPrefix) "import::" = true
  · unfold Lookup.resolveEdge
    simp only
    rw [htarget, if_pos himport, if_pos himport]
    cases hq : v.getNodeByQualName (trimPrefix (trimPrefix e.toID unresolvedPrefix) "import::") with
    | some node =>
      unfold Lookup.resolveImport
      simp only [hvv.byQual, hq, Option.map_some]
      have hnode := hv.getNode (hv.byQual hq)
      exact hp.resolveAcross hun hnode.2.2 hnode.2.1 (hp.callerRepoPrefix hvv hun)
    | none =>
      obtain ⟨heq, heq'⟩ := hp.resolveImport_eq hv hvv hun hq
      rw [heq, heq', (hp.kept_import_iff hv hvv hu himport hq).mp hk]
      cases hf : firstFile v (trimPrefix (trimPrefix e.toID unresolvedPrefix) "import::") with
      | none => exact hp.resolveExternal hun (isStubID_of_mem (List.mem_of_getElem? (i := 1) rfl))
      | some n => exact hp.resolveTo hun (hv.getNode (hv.files (mem_of_firstFile hf))).2.2
  -- an extern call goes to the first symbol
  by_cases hqualified : hasPrefix (trimPrefix e.toID unresolvedPrefix) "extern::" = true
  · have hk := (hp.kept_extern_iff hv hvv hu himport hqualified).mp hk
    unfold Lookup.resolveEdge
    simp only [htarget, if_neg himport, if_pos hqualified]
    cases hcut : cutLast (trimPrefix (trimPrefix e.toID unresolvedPrefix) "extern::") "::" with
    | none =>
      unfold Lookup.resolveExtern
      rw [hcut]
      exact hp.resolveExternal hun (isStubID_of_mem (List.mem_of_getElem? (i := 1) rfl))
    | some parts =>
      rw [resolveExtern_eq hcut, resolveExtern_eq hcut, hk _ _ hcut]
      cases hc : firstSymbol v parts.1 parts.2 with
      | none => exact hp.resolveExternal hun (isStubID_externLabel _ _)
      | some c =>
        have hnode := hv.getNode (hv.byName (mem_of_firstSymbol hc))
        exact hp.resolveAcross hun hnode.2.2 hnode.2.1 (hp.callerRepoPrefix hvv hun)
  · have hq : v.NotQualified e := fun hc => absurd hc himport
    have hq' : v'.NotQualified (idx.prefixEdge e) := fun hc => absurd (htarget ▸ hc) himport
    rw [Lookup.resolveEdge_eq_choose hq, Lookup.resolveEdge_eq_choose hq']
    -- all others go through passes, which correspond one by one
    have hcand : ∀ c', c' ∈ v'.candidates (idx.prefixEdge e) ↔
        ∃ c ∈ v.candidates e, idx.prefixNode c = c' := by
      intro c'
      unfold Lookup.candidates
      simp only [htarget, if_neg himport, if_neg hqualified]
      split_ifs
      · exact hvv.byName _ c'
      · exact hvv.byName _ c'
    have hstored : ∀ c ∈ v.candidates e, v.getNode c.id = some c := by
      intro c hc
      unfold Lookup.candidates at hc
      simp only [if_neg himport, if_neg hqualified] at hc
      split_ifs at hc
      · exact hv.byName hc
      · exact hv.byName hc
    have hi : Inside e (v.candidates e) := ⟨hun, hfile, fun c hc => hv.getNode (hstored c hc)⟩
    have hcaller := hp.callerRepoPrefix hvv hun
    have hpasses : List.Forall₂ (Corresponds idx (v.candidates e)) (v'.passes (idx.prefixEdge e))
        (v.passes e) := by
      have hcallable : ∀ c, (idx.prefixNode c).isCallable = c.isCallable := fun c => by
        rw [hp.prefixNode_eq]
        rfl
      have htypeLike : ∀ c, (idx.prefixNode c).isTypeLike = c.isTypeLike := fun c => by
        rw [hp.prefixNode_eq]
        rfl
      unfold Lookup.passes
      simp only [htarget, hkind, if_neg himport, if_neg hqualified]
      split_ifs with hmethod htoken htype
      · exact List.rel_append (corresponds_hintPasses hp hi hbound)
          (List.rel_append (corresponds_callerPasses hp hi (hp.callerReceiverType hvv hun))
            (corresponds_namePasses hp hi))
      · exact corresponds_tokenPasses hp hi
      · exact List.rel_append (corresponds_sameDirPasses hp hi hcaller htypeLike)
          (corresponds_sameDirPasses hp hi hcaller hcallable)
      · exact corresponds_sameDirPasses hp hi hcaller hcallable
    rw [FirstFit.choose_image hcand hpasses hu, hp.otherwise_eq hun, Option.getD_map]

include hv hvv hun in
/-- **An edge that gets the target it gets without the prefix** finds what it finds without. -/
theorem IsRepoPrefix.kept_of_toID_eq (hu : Unique v e)
    (heq : (v'.resolveEdge (idx.prefixEdge e)).1.toID =
      (idx.prefixResolved (v.resolveEdge e).1).toID) : idx.Kept v v' e := by
  unfold Lookup.resolveEdge at heq
  simp only [hp.target hun] at heq
  by_cases himport : hasPrefix (trimPrefix e.toID unresolvedPrefix) "import::" = true
  · cases hq : v.getNodeByQualName (trimPrefix (trimPrefix e.toID unresolvedPrefix) "import::") with
    | some n =>
      unfold Kept
      simp only [himport, if_true]
      intro hnone
      rw [hq] at hnone
      cases hnone
    | none =>
      rw [hp.kept_import_iff hv hvv hu himport hq]
      obtain ⟨hplain, hprefixed⟩ := hp.resolveImport_eq hv hvv hun hq
      rw [if_pos himport, if_pos himport, hplain, hprefixed] at heq
      have hlabel : isStubID ("external::" ++
          trimPrefix (trimPrefix e.toID unresolvedPrefix) "import::") = true :=
        isStubID_of_mem (List.mem_of_getElem? (i := 1) rfl)
      refine hp.eq_map_of_toID hv (fun _ => hv.files) (fun _ => mem_of_firstFile)
        (fun b hb => (hvv.files b).mp (mem_of_firstFile hb)) hlabel ?_ (Eq.trans ?_ heq)
      · cases firstFile v (trimPrefix (trimPrefix e.toID unresolvedPrefix) "import::") <;> rfl
      · cases firstFile v' (trimPrefix (trimPrefix e.toID unresolvedPrefix) "import::") <;> rfl
  by_cases hqualified : hasPrefix (trimPrefix e.toID unresolvedPrefix) "extern::" = true
  · rw [hp.kept_extern_iff hv hvv hu himport hqualified]
    intro importPath symbol hcut
    rw [if_neg himport, if_neg himport, if_pos hqualified, if_pos hqualified, resolveExtern_eq hcut,
      resolveExtern_eq hcut] at heq
    refine hp.eq_map_of_toID hv (fun _ => hv.byName) (fun _ => mem_of_firstSymbol)
      (fun b hb => (hvv.byName symbol b).mp (mem_of_firstSymbol hb))
      (isStubID_externLabel importPath symbol) ?_ (Eq.trans ?_ heq)
    · cases firstSymbol v importPath symbol <;> rfl
    · cases firstSymbol v' importPath symbol <;> rfl
  unfold Kept
  simp only [if_neg himport, if_neg hqualified]

end Edge

end

end Indexer

end Gortex
