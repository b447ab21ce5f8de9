import Gortex.Resolver.Choice

/-!
# The flag of an edge between repositories

An edge whose two nodes are in different repositories is to carry the flag `crossRepo`. A
pass writes the flag together with the target, and how it does depends on the test by which
the target is found: after some tests the repositories are compared, after some the flag is
set without a look at them, and after some it is left as it was (`Gortex.Marks`). So whether
the flag comes out right is a matter of the two repositories and of the flag that the edge
carries (`Gortex.Marks.Suits`).

The candidate is the first that passes the first test that any candidate passes
(`Gortex.CrossPass.First`). The flags of a whole pass are right exactly if at each turn of an
edge with a placeholder the flag suits the candidate (`Gortex.CrossPass.flagsRight_run`).
-/

namespace Gortex

open GoString Graph

attribute [local irreducible] cutLast

/-! ### What a test writes -/

/-- The repositories are known and different. -/
def Differ (callerRepo targetRepo : String) : Prop :=
  callerRepo ≠ "" ∧ targetRepo ≠ "" ∧ targetRepo ≠ callerRepo

instance (callerRepo targetRepo : String) : Decidable (Differ callerRepo targetRepo) :=
  inferInstanceAs (Decidable (_ ∧ _))

/-- What becomes of the flag after a test. -/
inductive Marks
  /-- It is left as the edge carries it. -/
  | carried
  /-- It is set if the candidate is of another repository than the caller. -/
  | ifOther
  /-- It is set. -/
  | always
deriving DecidableEq

namespace Marks

/-- The flag that is written over a flag. -/
def flag (callerRepo targetRepo : String) (old : Bool) : Marks → Bool
  | carried => old
  | ifOther => if Differ callerRepo targetRepo then true else old
  | always => true

/-- **The repositories and the flag suit the test**: where the flag is not written, it has to be
right for the two repositories already; where they are compared, it must not be set for no reason;
where it is set, they have to be known and different. -/
def Suits (callerRepo targetRepo : String) (old : Bool) : Marks → Prop
  | carried => old = true ↔ Differ callerRepo targetRepo
  | ifOther => old = true → Differ callerRepo targetRepo
  | always => Differ callerRepo targetRepo

instance (callerRepo targetRepo : String) (old : Bool) (m : Marks) :
    Decidable (m.Suits callerRepo targetRepo old) := by
  cases m <;> unfold Suits <;> infer_instance

theorem flag_iff_suits (callerRepo targetRepo : String) (old : Bool) (m : Marks) :
    (m.flag callerRepo targetRepo old = true ↔ Differ callerRepo targetRepo) ↔
      m.Suits callerRepo targetRepo old := by
  cases m with
  | carried => exact Iff.rfl
  | ifOther =>
    by_cases hd : Differ callerRepo targetRepo
    · simp [flag, Suits, hd]
    · simp [flag, Suits, hd]
  | always => simp [flag, Suits]

/-- What is written of a candidate after a test. -/
structure Writes (v : Lookup) (e : Edge) {ω : Type} (m : Marks) (c : Node) (y : Edge × ω) : Prop where
  toID : y.1.toID = c.id
  crossRepo : y.1.crossRepo = m.flag (v.callerRepoPrefix e) c.repoPrefix e.crossRepo

end Marks

/-! ### The tests of the resolver -/

/-- What a lookup can find. -/
def Lookup.Finds (v : Lookup) (c : Node) : Prop :=
  (∃ name, c ∈ v.findNodesByName name) ∨ (∃ q, v.getNodeByQualName q = some c) ∨ c ∈ v.fileNodes

namespace Lookup

variable {v : Lookup} {e : Edge}

theorem finds_of_find? {name : String} {p : Node → Bool} {c : Node}
    (h : (v.findNodesByName name).find? p = some c) : v.Finds c :=
  Or.inl ⟨name, List.mem_of_find?_eq_some h⟩

theorem finds_of_mem_dirs {importPath : String} {c : Node}
    (h : c ∈ v.dirIndex importPath ++ v.lastDirIndex (lastPathComponent importPath)) : v.Finds c :=
  Or.inr (Or.inr (mem_fileNodes_of_mem_dirs h))

variable (v e)

/-- The node that has the path of an import for its qualified name. -/
def qualified : Option Node :=
  let target := trimPrefix e.toID unresolvedPrefix
  if hasPrefix target "import::" then v.getNodeByQualName (trimPrefix target "import::") else none

/-- **The tests for the form of the placeholder, with what becomes of the flag after each.** Of a
method call none looks at a repository, nor does the test for the directory of the caller. -/
def tests : List (Marks × (Node → Bool)) :=
  let target := trimPrefix e.toID unresolvedPrefix
  let marked := fun marks : List Marks => marks.zip ((v.passes e).map Prod.fst)
  if hasPrefix target "import::" then marked [.carried, .carried, .ifOther, .ifOther]
  else if hasPrefix target "extern::" then marked [.ifOther]
  else if hasPrefix target "*." then (v.passes e).map fun p => (.carried, p.1)
  else if e.kind = .edgeProvides ∨ e.kind = .edgeConsumes then marked [.carried, .carried]
  else if e.kind = .edgeInstantiates ∨ e.kind = .edgeReferences then
    marked [.carried, .ifOther, .carried, .ifOther]
  else marked [.carried, .ifOther]

/-- **The candidate that comes first**, with what becomes of the flag: the node of the qualified
name, or that of the tests. -/
def First (m : Marks) (c : Node) : Prop :=
  (v.qualified e = some c ∧ m = .ifOther) ∨
    v.qualified e = none ∧ FirstFit.First (v.candidates e) (v.tests e) m c

variable {v e}

theorem notQualified_iff : v.NotQualified e ↔ v.qualified e = none := by
  unfold NotQualified qualified
  simp only
  split
  · exact ⟨fun h => h ‹_›, fun h _ => h⟩
  · exact ⟨fun _ => rfl, fun _ h => absurd h ‹_›⟩

theorem writes_resolveAcross (c : Node) :
    Marks.ifOther.Writes v e c (e.resolveAcross (v.callerRepoPrefix e) c) :=
  ⟨rfl, if_congr Iff.rfl rfl rfl⟩

/-- No pass of a method call writes the flag. -/
theorem writes_methodPasses : ∀ p ∈ v.hintPasses e ++ (v.callerPasses e ++ namePasses e),
    ∀ c, Marks.carried.Writes v e c (p.2 c) := by
  intro p hp c
  rw [List.mem_append, List.mem_append] at hp
  rcases hp with hp | hp | hp
  · unfold hintPasses at hp
    simp only at hp
    split at hp
    · cases hp
    · simp only [List.mem_cons, List.not_mem_nil, or_false] at hp
      rcases hp with rfl | rfl | rfl <;> exact ⟨rfl, rfl⟩
  · unfold callerPasses at hp
    simp only at hp
    split at hp
    · cases hp
    · simp only [List.mem_cons, List.not_mem_nil, or_false] at hp
      rcases hp with rfl | rfl <;> exact ⟨rfl, rfl⟩
  · simp only [namePasses, List.mem_cons, List.not_mem_nil, or_false] at hp
    rcases hp with rfl | rfl | rfl | rfl <;> exact ⟨rfl, rfl⟩

/-- **The passes write what the tests say.** -/
theorem writes_passes (v : Lookup) (e : Edge) : List.Forall₂
    (fun s p => s.2 = p.1 ∧ ∀ c, s.1.Writes v e c (p.2 c)) (v.tests e) (v.passes e) := by
  have hkept : ∀ c, Marks.carried.Writes v e c (e.resolveTo c) := fun _ => ⟨rfl, rfl⟩
  have hscored : ∀ q c, Marks.carried.Writes v e c (e.resolveScored q c) := fun _ _ => ⟨rfl, rfl⟩
  have hacross : ∀ c, Marks.ifOther.Writes v e c (e.resolveAcross (v.callerRepoPrefix e) c) :=
    writes_resolveAcross
  unfold tests passes
  simp only
  split_ifs
  · simp only [importPasses, List.map_cons, List.map_nil, List.zip_cons_cons, List.zip_nil_right,
      List.forall₂_cons, true_and, List.Forall₂.nil, and_true]
    exact ⟨hkept, hkept, hacross, hacross⟩
  · split
    · exact .nil
    · simp only [externPasses, List.map_cons, List.map_nil, List.zip_cons_cons, List.zip_nil_right,
        List.forall₂_cons, true_and, List.Forall₂.nil, and_true]
      exact hacross
  · rw [List.forall₂_map_left_iff, List.forall₂_same]
    exact fun p hp => ⟨rfl, writes_methodPasses p hp⟩
  · simp only [tokenPasses, List.map_cons, List.map_nil, List.zip_cons_cons, List.zip_nil_right,
      List.forall₂_cons, true_and, List.Forall₂.nil, and_true]
    exact ⟨hscored _, hscored _⟩
  · simp only [sameDirPasses, List.cons_append, List.nil_append, List.map_cons, List.map_nil,
      List.zip_cons_cons, List.zip_nil_right, List.forall₂_cons, true_and, List.Forall₂.nil,
      and_true]
    exact ⟨hkept, hacross, hkept, hacross⟩
  · simp only [sameDirPasses, List.map_cons, List.map_nil, List.zip_cons_cons, List.zip_nil_right,
      List.forall₂_cons, true_and, List.Forall₂.nil, and_true]
    exact ⟨hkept, hacross⟩

theorem resolveEdge_of_qualified {n : Node} (h : v.qualified e = some n) :
    v.resolveEdge e = e.resolveAcross (v.callerRepoPrefix e) n := by
  unfold qualified at h
  simp only at h
  split at h
  · rename_i himport
    exact resolveEdge_of_import himport h
  · cases h

theorem crossRepo_resolveExternal (e : Edge) (label : String) :
    (e.resolveExternal label).1.crossRepo = e.crossRepo := rfl

theorem crossRepo_otherwise (e : Edge) : (otherwise e).1.crossRepo = e.crossRepo := by
  unfold otherwise applyBuiltinIfKnown
  simp only
  split_ifs
  · exact crossRepo_resolveExternal ..
  · split
    · exact crossRepo_resolveExternal ..
    · exact crossRepo_resolveExternal ..
  · rfl
  · cases classifyBuiltin (trimPrefix (trimPrefix e.toID unresolvedPrefix) "*.")
      (langFromFilePath e.filePath) <;> rfl
  · rfl

end Lookup

/-! ### The tests of the resolver across repositories -/

namespace CrossRepoResolver

open FirstFit

variable (v : Lookup) (e : Edge)

/-- Two passes: over the candidates of the caller's repository, and over all. -/
def ownFirst (own other : Edge) (fits : Node → Bool) :
    List ((Node → Bool) × (Node → Edge × CrossOutcome)) :=
  [(fun c => fits c && decide (c.repoPrefix = v.callerRepoPrefix e), own.crossToSame),
    (fits, other.crossToOther)]

/-- The passes of an import over the files. -/
def importPasses (importPath : String) : List ((Node → Bool) × (Node → Edge × CrossOutcome)) :=
  let same := fun n : Node => decide (n.repoPrefix = v.callerRepoPrefix e)
  let inDir := fun n : Node => decide (GoPath.dir n.filePath = importPath)
  let last := lastPathComponent importPath
  let inLastDir := fun n : Node =>
    let dir := GoPath.dir n.filePath
    decide (lastPathComponent dir = last ∧ last ≠ "" ∧ last ≠ dir)
  [(fun n => inDir n && same n, e.crossToSame), (fun n => inLastDir n && same n, e.crossToSame),
    (inDir, e.crossToOther), (inLastDir, e.crossToOther)]

/-- The passes of `resolveByHint`. -/
def hintPasses : List ((Node → Bool) × (Node → Edge × CrossOutcome)) :=
  let receiverType := edgeReceiverType e
  if receiverType = "" then []
  else ownFirst v e { e with confidence := 95 / 100 } { e with confidence := 85 / 100 }
    fun c => decide (c.kind = .kindMethod ∧ nodeReceiverType c = receiverType)

/-- The passes of `resolveByName`. -/
def namePasses : List ((Node → Bool) × (Node → Edge × CrossOutcome)) :=
  ownFirst v e e e (fun c => decide (c.kind = .kindMethod)) ++
    ownFirst v e e e fun c => decide (c.kind = .kindFunction)

/-- **The passes for the form of the placeholder.** -/
def passes : List ((Node → Bool) × (Node → Edge × CrossOutcome)) :=
  let target := trimPrefix e.toID unresolvedPrefix
  if hasPrefix target "import::" then importPasses v e (trimPrefix target "import::")
  else if hasPrefix target "*." then hintPasses v e ++ namePasses v e
  else ownFirst v e e e Node.isCallable

/-- **The candidates they search.** -/
def candidates : List Node :=
  let target := trimPrefix e.toID unresolvedPrefix
  if hasPrefix target "import::" then v.fileNodes
  else if hasPrefix target "*." then v.findNodesByName (trimPrefix target "*.")
  else v.findNodesByName target

/-- What becomes of the edge if they find none. -/
def otherwise : Edge × CrossOutcome :=
  let target := trimPrefix e.toID unresolvedPrefix
  if hasPrefix target "import::" then
    ({ e with toID := "external::" ++ trimPrefix target "import::" }, .unresolved)
  else (e, .unresolved)

/-- **The tests for the form of the placeholder, with what becomes of the flag after each**: it is
left for a candidate of the caller's repository, and set for another. -/
def tests : List (Marks × (Node → Bool)) :=
  let target := trimPrefix e.toID unresolvedPrefix
  let marks : List Marks :=
    if hasPrefix target "import::" then [.carried, .carried, .always, .always]
    else [.carried, .always, .carried, .always, .carried, .always]
  marks.zip ((passes v e).map Prod.fst)

/-- **The candidate that comes first**, with what becomes of the flag. -/
def First (m : Marks) (c : Node) : Prop :=
  (v.qualified e = some c ∧ m = if c.repoPrefix = v.callerRepoPrefix e then .carried else .always) ∨
    v.qualified e = none ∧ FirstFit.First (candidates v e) (tests v e) m c

variable {v e}

/-- **The passes write what the tests say.** -/
theorem writes_passes (v : Lookup) (e : Edge) : List.Forall₂
    (fun s p => s.2 = p.1 ∧ ∀ c, s.1.Writes v e c (p.2 c)) (tests v e) (passes v e) := by
  have hsame : ∀ c, Marks.carried.Writes v e c (e.crossToSame c) := fun _ => ⟨rfl, rfl⟩
  have hother : ∀ c, Marks.always.Writes v e c (e.crossToOther c) := fun _ => ⟨rfl, rfl⟩
  have hown : ∀ q c, Marks.carried.Writes v e c
      (({ e with confidence := q } : Edge).crossToSame c) := fun _ _ => ⟨rfl, rfl⟩
  have hset : ∀ q c, Marks.always.Writes v e c
      (({ e with confidence := q } : Edge).crossToOther c) := fun _ _ => ⟨rfl, rfl⟩
  unfold tests passes
  simp only
  split_ifs
  · simp only [importPasses, List.map_cons, List.map_nil, List.zip_cons_cons, List.zip_nil_right,
      List.forall₂_cons, true_and, List.Forall₂.nil, and_true]
    exact ⟨hsame, hsame, hother, hother⟩
  · unfold hintPasses
    simp only
    split
    · simp only [namePasses, ownFirst, List.nil_append, List.cons_append, List.map_cons,
        List.map_nil, List.zip_cons_cons, List.zip_nil_right, List.forall₂_cons, true_and,
        List.Forall₂.nil, and_true]
      exact ⟨hsame, hother, hsame, hother⟩
    · simp only [namePasses, ownFirst, List.nil_append, List.cons_append, List.map_cons,
        List.map_nil, List.zip_cons_cons, List.zip_nil_right, List.forall₂_cons, true_and,
        List.Forall₂.nil, and_true]
      exact ⟨hown _, hset _, hsame, hother, hsame, hother⟩
  · simp only [ownFirst, List.map_cons, List.map_nil, List.zip_cons_cons, List.zip_nil_right,
      List.forall₂_cons, true_and, List.Forall₂.nil, and_true]
    exact ⟨hsame, hother⟩

theorem resolveImport_eq_choose (importPath : String)
    (hq : v.getNodeByQualName importPath = none) : resolveImport v e importPath =
      (choose v.fileNodes (importPasses v e importPath)).getD
        ({ e with toID := "external::" ++ importPath }, .unresolved) := by
  unfold resolveImport importPasses
  simp only [hq, choose, Lookup.dirIndex, Lookup.lastDirIndex, List.find?_filter,
    List.head?_append, List.head?_filter, Option.orElse_eq_orElse, Option.orElse_eq_or,
    Option.or_none, Bool.decide_eq_true, Bool.decide_and]
  generalize v.fileNodes.find? _ = a
  generalize v.fileNodes.find? _ = b
  generalize v.fileNodes.find? _ = c
  generalize v.fileNodes.find? _ = d
  cases a with
  | some n => rfl
  | none =>
    cases b with
    | some n => rfl
    | none =>
      cases c with
      | some n => rfl
      | none => cases d <;> rfl

/-- **The resolver chooses.** -/
theorem resolveEdge_eq_choose (hq : v.qualified e = none) :
    resolveEdge v e = (choose (candidates v e) (passes v e)).getD (otherwise e) := by
  unfold Lookup.qualified at hq
  unfold resolveEdge candidates passes otherwise
  simp only at hq ⊢
  generalize trimPrefix e.toID unresolvedPrefix = target at hq
  by_cases himport : hasPrefix target "import::" = true
  · simp only [himport, if_true] at hq ⊢
    exact resolveImport_eq_choose _ hq
  simp only [if_neg himport]
  by_cases hmethod : hasPrefix target "*." = true
  · simp only [if_pos hmethod, resolveMethodCall, resolveByHint, resolveByName, hintPasses,
      namePasses, ownFirst, choose_append]
    split
    · simp only [choose, Option.orElse_eq_orElse, Option.orElse_eq_or, Option.or_none,
        Option.none_or, Option.or_assoc]
    · simp only [choose, Option.orElse_eq_orElse, Option.orElse_eq_or, Option.or_none,
        Option.or_assoc]
  · simp only [if_neg hmethod, resolveFunctionCall, ownFirst, choose, Option.orElse_eq_orElse,
      Option.orElse_eq_or, Option.or_none]

theorem resolveEdge_of_qualified {n : Node} (h : v.qualified e = some n) : resolveEdge v e =
    if n.repoPrefix ≠ v.callerRepoPrefix e then e.crossToOther n else e.crossToSame n := by
  unfold Lookup.qualified at h
  simp only at h
  split at h
  · rename_i himport
    unfold resolveEdge resolveImport
    simp only [himport, if_true, h]
  · cases h

end CrossRepoResolver

/-! ### The four passes -/

/-- The passes that resolve edges. -/
inductive CrossPass
  | resolveAll
  | resolveFile (filePath : String)
  | crossResolveAll
  | resolveForRepo (repoPrefix : String)

namespace CrossPass

variable (p : CrossPass) (v : Lookup) (e : Edge)

/-- What the pass makes of an edge. -/
def reply : Edge :=
  match p with
  | resolveAll | resolveFile _ => (v.resolveEdge e).1
  | crossResolveAll | resolveForRepo _ => (CrossRepoResolver.resolveEdge v e).1

/-- **The candidate that comes first**, with what becomes of the flag. -/
def First (m : Marks) (c : Node) : Prop :=
  match p with
  | resolveAll | resolveFile _ => v.First e m c
  | crossResolveAll | resolveForRepo _ => CrossRepoResolver.First v e m c

/-- The target of an edge for which there is no candidate: a label, or the placeholder. -/
def label : String :=
  match p with
  | resolveAll | resolveFile _ => (Lookup.otherwise e).1.toID
  | crossResolveAll | resolveForRepo _ => (CrossRepoResolver.otherwise e).1.toID

variable {p v e}

/-- **The edge goes to the candidate that comes first.** -/
theorem reply_of_first {m : Marks} {c : Node} (h : p.First v e m c) :
    (p.reply v e).toID = c.id ∧
      (p.reply v e).crossRepo = m.flag (v.callerRepoPrefix e) c.repoPrefix e.crossRepo := by
  cases p with
  | resolveAll | resolveFile _ =>
    rcases h with ⟨hq, rfl⟩ | ⟨hq, h⟩
    · have hw : Marks.ifOther.Writes v e c (v.resolveEdge e) := by
        rw [Lookup.resolveEdge_of_qualified hq]
        exact Lookup.writes_resolveAcross c
      rw [reply]
      exact ⟨hw.toID, hw.crossRepo⟩
    · obtain ⟨y, hy, hw⟩ := h.choose_eq (Lookup.writes_passes v e)
      have hr : v.resolveEdge e = y := by
        rw [Lookup.resolveEdge_eq_choose (Lookup.notQualified_iff.mpr hq), hy, Option.getD_some]
      rw [reply, hr]
      exact ⟨hw.toID, hw.crossRepo⟩
  | crossResolveAll | resolveForRepo _ =>
    rcases h with ⟨hq, rfl⟩ | ⟨hq, h⟩
    · rw [reply, CrossRepoResolver.resolveEdge_of_qualified hq]
      by_cases hr : c.repoPrefix = v.callerRepoPrefix e
      · rw [if_neg (not_not.mpr hr), if_pos hr]
        exact ⟨rfl, rfl⟩
      · rw [if_pos hr, if_neg hr]
        exact ⟨rfl, rfl⟩
    · obtain ⟨y, hy, hw⟩ := h.choose_eq (CrossRepoResolver.writes_passes v e)
      have hr : CrossRepoResolver.resolveEdge v e = y := by
        rw [CrossRepoResolver.resolveEdge_eq_choose hq, hy, Option.getD_some]
      rw [reply, hr]
      exact ⟨hw.toID, hw.crossRepo⟩

/-- **If no candidate comes first**, the flag is left. -/
theorem exists_first_or (p : CrossPass) (v : Lookup) (e : Edge) : (∃ m c, p.First v e m c) ∨
    (p.reply v e).toID = p.label e ∧ (p.reply v e).crossRepo = e.crossRepo := by
  cases p with
  | resolveAll | resolveFile _ =>
    cases hq : v.qualified e with
    | some c => exact Or.inl ⟨_, c, Or.inl ⟨hq, rfl⟩⟩
    | none =>
      refine (FirstFit.exists_first_or_choose_eq_none _ (Lookup.writes_passes v e)).imp
        (fun ⟨m, c, h⟩ => ⟨m, c, Or.inr ⟨hq, h⟩⟩) fun h => ?_
      rw [reply, Lookup.resolveEdge_eq_choose (Lookup.notQualified_iff.mpr hq), h,
        Option.getD_none]
      exact ⟨rfl, Lookup.crossRepo_otherwise e⟩
  | crossResolveAll | resolveForRepo _ =>
    cases hq : v.qualified e with
    | some c => exact Or.inl ⟨_, c, Or.inl ⟨hq, rfl⟩⟩
    | none =>
      refine (FirstFit.exists_first_or_choose_eq_none _ (CrossRepoResolver.writes_passes v e)).imp
        (fun ⟨m, c, h⟩ => ⟨m, c, Or.inr ⟨hq, h⟩⟩) fun h => ?_
      rw [reply, CrossRepoResolver.resolveEdge_eq_choose hq, h, Option.getD_none]
      refine ⟨rfl, ?_⟩
      unfold CrossRepoResolver.otherwise
      simp only
      split <;> rfl

/-- A candidate is a node that the lookup finds. -/
theorem First.finds {m : Marks} {c : Node} (h : p.First v e m c) : v.Finds c := by
  have hqual : v.qualified e = some c → v.Finds c := fun hq => by
    unfold Lookup.qualified at hq
    simp only at hq
    split at hq
    · exact Or.inr (Or.inl ⟨_, hq⟩)
    · cases hq
  cases p with
  | resolveAll | resolveFile _ =>
    rcases h with ⟨hq, -⟩ | ⟨-, h⟩
    · exact hqual hq
    · have hm := h.mem
      unfold Lookup.candidates at hm
      simp only at hm
      split_ifs at hm
      · exact Or.inr (Or.inr hm)
      · split at hm
        · cases hm
        · exact Or.inl ⟨_, hm⟩
      · exact Or.inl ⟨_, hm⟩
      · exact Or.inl ⟨_, hm⟩
  | crossResolveAll | resolveForRepo _ =>
    rcases h with ⟨hq, -⟩ | ⟨-, h⟩
    · exact hqual hq
    · have hm := h.mem
      unfold CrossRepoResolver.candidates at hm
      simp only at hm
      split_ifs at hm
      · exact Or.inr (Or.inr hm)
      · exact Or.inl ⟨_, hm⟩
      · exact Or.inl ⟨_, hm⟩

end CrossPass

/-! ### One turn -/

namespace Graph

/-- The repository of the node an edge comes from. -/
def callerRepo (g : Graph) (e : Edge) : String := ((g.nodeAt e.fromID).map Node.repoPrefix).getD ""

/-- **The flag of the edge is right**: if its target exists, the flag says whether its two
nodes are of different repositories. -/
def FlagRight (g : Graph) (e : Edge) : Prop :=
  ∀ c, g.nodeAt e.toID = some c → (e.crossRepo = true ↔ Differ (g.callerRepo e) c.repoPrefix)

variable {g g' : Graph} {ord : MapOrder} {files : List Node}

theorem SameNodes.flagRight_iff (h : SameNodes g g') (e : Edge) :
    FlagRight g' e ↔ FlagRight g e := by
  unfold FlagRight callerRepo
  rw [h.nodeAt, h.nodeAt]

/-- What a lookup of the graph finds is stored in the graph. -/
theorem NodeInv.nodeAt_of_finds (hg : NodeInv g) (hfiles : ∀ c ∈ files, g.nodeAt c.id = some c) {c : Node}
    (hc : (g.lookup ord files).Finds c) : g.nodeAt c.id = some c := by
  rcases hc with ⟨name, hname⟩ | ⟨q, hq⟩ | hfile
  · exact (hg.of_mem_map_findNodesByName hname).1
  · obtain ⟨r, hr, rfl⟩ := Option.map_eq_some_iff.mp hq
    exact hg.of_getNodeByQualName hr
  · exact hfiles c hfile

end Graph

namespace CrossPass

/-- **The turn suits the repositories**: the candidate that comes first is of a repository for
which the flag comes out right, by the flag that the edge carries and by what the test makes of
it. If no candidate comes first and the label is the ID of a node, the edge carries the right flag
for that. What keeps a placeholder is not asked for. -/
structure TurnSuits (p : CrossPass) (ord : MapOrder) (files : List Node) (s : Graph) (e : Edge) :
    Prop where
  candidate : ∀ m c, p.First (s.lookup ord files) e m c → ¬hasPrefix c.id unresolvedPrefix = true →
    m.Suits (s.callerRepo e) c.repoPrefix e.crossRepo
  label : (∀ m c, ¬p.First (s.lookup ord files) e m c) →
    ¬hasPrefix (p.label e) unresolvedPrefix = true → ∀ c, s.nodeAt (p.label e) = some c →
      Marks.carried.Suits (s.callerRepo e) c.repoPrefix e.crossRepo

variable {ord : MapOrder} {files : List Node} {s : Graph}

/-- **The flag is right after a turn exactly if the turn suits the repositories.** -/
theorem turnSuits_iff (hs : NodeInv s) (hfiles : ∀ c ∈ files, s.nodeAt c.id = some c) (p : CrossPass)
    (e : Edge) : p.TurnSuits ord files s e ↔ (¬(p.reply (s.lookup ord files) e).IsUnresolved →
      FlagRight s (p.reply (s.lookup ord files) e)) := by
  have hcaller : s.callerRepo (p.reply (s.lookup ord files) e) = s.callerRepo e := by
    have hsite : SameSite e (p.reply (s.lookup ord files) e) := by
      cases p with
      | resolveAll | resolveFile _ => exact Lookup.sameSite_resolveEdge _ e
      | crossResolveAll | resolveForRepo _ => exact CrossRepoResolver.sameSite_resolveEdge _ e
    rw [callerRepo, callerRepo, hsite.fromID]
  unfold FlagRight Edge.IsUnresolved
  rw [hcaller]
  -- of a candidate that comes first
  have hfirst : ∀ {m c}, p.First (s.lookup ord files) e m c →
      ((¬hasPrefix (p.reply (s.lookup ord files) e).toID unresolvedPrefix = true → ∀ d,
          s.nodeAt (p.reply (s.lookup ord files) e).toID = some d →
            ((p.reply (s.lookup ord files) e).crossRepo = true ↔
              Differ (s.callerRepo e) d.repoPrefix)) ↔
        (¬hasPrefix c.id unresolvedPrefix = true →
          m.Suits (s.callerRepo e) c.repoPrefix e.crossRepo)) := fun {m c} h => by
    obtain ⟨hto, hflag⟩ := reply_of_first h
    have hc : s.nodeAt c.id = some c := hs.nodeAt_of_finds hfiles h.finds
    rw [hto, hflag]
    simp only [hc, Option.some_inj, forall_eq']
    exact imp_congr_right fun _ => Marks.flag_iff_suits ..
  rcases p.exists_first_or (s.lookup ord files) e with ⟨m, c, h⟩ | ⟨hto, hflag⟩
  · exact ⟨fun hsuits => (hfirst h).mpr (hsuits.candidate m c h),
      fun hright => ⟨fun m' c' h' => (hfirst h').mp hright, fun hno => absurd h (hno m c)⟩⟩
  · constructor
    · intro hsuits
      by_cases hno : ∀ m c, ¬p.First (s.lookup ord files) e m c
      · rw [hto, hflag]
        exact hsuits.label hno
      · push Not at hno
        obtain ⟨m, c, h⟩ := hno
        exact (hfirst h).mpr (hsuits.candidate m c h)
    · intro hright
      refine ⟨fun m c h => (hfirst h).mp hright, fun _ => ?_⟩
      rw [hto, hflag] at hright
      exact hright

end CrossPass

/-! ### A pass -/

namespace Graph

variable {g : Graph}

/-- **The flags are right after a pass**: those of the edges that had a placeholder before it
and have none after it. -/
def FlagsRight (g g' : Graph) : Prop :=
  ∀ r, (g.edge r).IsUnresolved → ¬(g'.edge r).IsUnresolved → FlagRight g' (g'.edge r)

theorem edge_turn (ans : Graph → Edge → Edge) (s : Graph) (r r' : EdgeRef) :
    (turn ans s r).edge r' =
      if r' = r ∧ (s.edge r).IsUnresolved then ans s (s.edge r) else s.edge r' := by
  unfold turn
  by_cases hun : (s.edge r).IsUnresolved
  · rw [if_pos (show hasPrefix (s.edge r).toID unresolvedPrefix = true from hun), edge_retarget]
    exact if_congr (and_iff_left hun).symm rfl rfl
  · rw [if_neg (show ¬hasPrefix (s.edge r).toID unresolvedPrefix = true from hun),
      if_neg fun hc => hun hc.2]

variable {ans : Graph → Edge → Edge}

/-- The flag is right after the turn of an edge, if it has got a target. -/
def RightAfter (ans : Graph → Edge → Edge) (s : Graph) (r : EdgeRef) : Prop :=
  (s.edge r).IsUnresolved → ¬(ans s (s.edge r)).IsUnresolved → FlagRight s (ans s (s.edge r))

/-- **One turn, and the rest of the pass.** -/
theorem flagsRight_cons (ans : Graph → Edge → Edge) (g : Graph) (r : EdgeRef) (l : List EdgeRef) :
    FlagsRight g (l.foldl (turn ans) (turn ans g r)) ↔
      RightAfter ans g r ∧ FlagsRight (turn ans g r) (l.foldl (turn ans) (turn ans g r)) := by
  have hnodes : SameNodes g (l.foldl (turn ans) (turn ans g r)) :=
    (SameNodes.turn ans g r).trans (SameNodes.foldl_turn ans l _)
  -- an edge that the turn has resolved is not taken again
  have hfrozen : (g.edge r).IsUnresolved → ¬(ans g (g.edge r)).IsUnresolved →
      (l.foldl (turn ans) (turn ans g r)).edge r = ans g (g.edge r) := fun hun hdone => by
    have hnow : (turn ans g r).edge r = ans g (g.edge r) := by
      rw [edge_turn, if_pos ⟨rfl, hun⟩]
    rw [edge_foldl_turn_of_not (by rwa [hnow]), hnow]
  have hother : ∀ r', ¬(r' = r ∧ (g.edge r).IsUnresolved) → (turn ans g r).edge r' = g.edge r' :=
    fun r' hr' => by rw [edge_turn, if_neg hr']
  constructor
  · intro hright
    refine ⟨fun hun hdone => ?_, fun r' hun hdone => ?_⟩
    · have hedge := hright r hun
      rw [hfrozen hun hdone] at hedge
      exact (hnodes.flagRight_iff _).mp (hedge hdone)
    · refine hright r' ?_ hdone
      by_cases hr' : r' = r ∧ (g.edge r).IsUnresolved
      · rw [hr'.1]
        exact hr'.2
      · rwa [hother r' hr'] at hun
  · rintro ⟨hafter, hrest⟩ r' hun hdone
    by_cases hstill : ((turn ans g r).edge r').IsUnresolved
    · exact hrest r' hstill hdone
    · -- the turn has resolved the edge
      have hr' : r' = r ∧ (g.edge r).IsUnresolved := by
        by_contra hc
        rw [hother r' hc] at hstill
        exact hstill hun
      obtain ⟨rfl, hun⟩ := hr'
      rw [edge_turn, if_pos ⟨rfl, hun⟩] at hstill
      rw [hfrozen hun hstill, hnodes.flagRight_iff]
      exact hafter hun hstill

/-- **A pass leaves the flags right exactly if every turn does.** -/
theorem flagsRight_foldl (ans : Graph → Edge → Edge) (g : Graph) (l : List EdgeRef) :
    FlagsRight g (l.foldl (turn ans) g) ↔ ∀ before r after, l = before ++ r :: after →
      RightAfter ans (before.foldl (turn ans) g) r := by
  induction l generalizing g with
  | nil =>
    refine iff_of_true (fun r hun hdone => absurd hun hdone) fun before r after hl => ?_
    exact absurd hl.symm (List.append_ne_nil_of_right_ne_nil _ (List.cons_ne_nil _ _))
  | cons a l ih =>
    rw [List.foldl_cons, flagsRight_cons, ih]
    constructor
    · rintro ⟨hfirst, hrest⟩ before r after hl
      cases before with
      | nil =>
        obtain ⟨rfl, -⟩ := List.cons.inj hl
        exact hfirst
      | cons b before =>
        obtain ⟨rfl, htail⟩ := List.cons.inj hl
        exact hrest before r after htail
    · intro hall
      refine ⟨hall [] a l rfl, fun before r after hl => ?_⟩
      exact hall (a :: before) r after (by rw [hl, List.cons_append])

/-- The edges that a pass over the out-edges of nodes visits. -/
def refsOf (ans : Graph → Edge → Edge) : List NodeRef → Graph → List EdgeRef
  | [], _ => []
  | n :: nodes, g =>
    g.getOutEdges (g.idOf n) ++
      refsOf ans nodes ((g.getOutEdges (g.idOf n)).foldl (turn ans) g)

theorem foldl_refsOf (ans : Graph → Edge → Edge) (nodes : List NodeRef) (g : Graph) :
    nodes.foldl (fun g n => (g.getOutEdges (g.idOf n)).foldl (turn ans) g) g =
      (refsOf ans nodes g).foldl (turn ans) g := by
  induction nodes generalizing g with
  | nil => rfl
  | cons n nodes ih => rw [List.foldl_cons, ih, refsOf, List.foldl_append]

end Graph

namespace CrossPass

variable (ord : MapOrder)

/-- The graph after the pass. -/
def run (g : Graph) : CrossPass → Graph
  | resolveAll => (g.resolveAll ord).1
  | resolveFile filePath => (g.resolveFile ord filePath).1
  | crossResolveAll => (g.crossResolveAll ord).1
  | resolveForRepo repoPrefix => (g.resolveForRepo ord repoPrefix).1

/-- What the pass makes of an edge; `files` are the file nodes at its start. -/
def answer (files : List Node) (p : CrossPass) (g : Graph) (e : Edge) : Edge :=
  p.reply (g.lookup ord files) e

/-- The edges that the pass visits, in their order. -/
def refs (g : Graph) (p : CrossPass) : List EdgeRef :=
  match p with
  | resolveAll | crossResolveAll => g.allEdges ord
  | resolveFile filePath => refsOf (p.answer ord (g.fileNodes ord)) (g.getFileNodes filePath) g
  | resolveForRepo repoPrefix =>
    refsOf (p.answer ord (g.fileNodes ord)) (g.getRepoNodes repoPrefix) g

variable {ord} {g : Graph}

theorem fst_foldl_nodes {σ : Type} {f : Graph × σ → EdgeRef → Graph × σ}
    {ans : Graph → Edge → Edge}
    (hf : ∀ (l : List EdgeRef) (s : Graph × σ), (l.foldl f s).1 = l.foldl (turn ans) s.1)
    (nodes : List NodeRef) (s : Graph × σ) :
    (nodes.foldl (fun s n => (s.1.getOutEdges (s.1.idOf n)).foldl f s) s).1 =
      (refsOf ans nodes s.1).foldl (turn ans) s.1 := by
  rw [← foldl_refsOf]
  induction nodes generalizing s with
  | nil => rfl
  | cons n nodes ih => rw [List.foldl_cons, List.foldl_cons, ih, hf]

/-- **A pass takes its edges one after the other.** -/
theorem run_eq (p : CrossPass) :
    p.run ord g = (p.refs ord g).foldl (turn (p.answer ord (g.fileNodes ord))) g := by
  cases p with
  | resolveAll => exact fst_foldl_resolveRef ord _ _ _
  | resolveFile filePath =>
    exact fst_foldl_nodes (fun l s => fst_foldl_resolveRef ord _ l s) _ (g, {})
  | crossResolveAll => exact fst_foldl_crossResolveRef ord _ _ _
  | resolveForRepo repoPrefix =>
    exact fst_foldl_nodes (fun l s => fst_foldl_crossResolveRef ord _ l s) _ (g, {})

/-- The state of the pass when it has taken these edges. -/
def after (ord : MapOrder) (p : CrossPass) (g : Graph) (l : List EdgeRef) : Graph :=
  l.foldl (turn (p.answer ord (g.fileNodes ord))) g

/-- **The flags are right after a pass exactly if every turn suits the repositories**: whenever
an edge still has its placeholder, the candidate that comes first is of a repository for which the
flag comes out right. -/
theorem flagsRight_run (hg : Weak g) (p : CrossPass) :
    FlagsRight g (p.run ord g) ↔ ∀ l r l', p.refs ord g = l ++ r :: l' →
      ((p.after ord g l).edge r).IsUnresolved →
        p.TurnSuits ord (g.fileNodes ord) (p.after ord g l) ((p.after ord g l).edge r) := by
  rw [run_eq, flagsRight_foldl]
  refine forall_congr' fun l => forall_congr' fun r => forall_congr' fun l' =>
    imp_congr_right fun _ => imp_congr_right fun _ => ?_
  have hnodes : SameNodes g (p.after ord g l) := SameNodes.foldl_turn _ l g
  have hfiles : ∀ c ∈ g.fileNodes ord, (p.after ord g l).nodeAt c.id = some c := fun c hc => by
    rw [hnodes.nodeAt]
    exact ((hg.mem_fileNodes ord).mp hc).1
  exact (turnSuits_iff (hnodes.nodeInv hg.nodes) hfiles p _).symm

namespace TwoRepos

/-! ### Calls from one repository into another -/

def main : Node :=
  { id := "web/main.go::main", kind := .kindFunction, name := "main", filePath := "web/main.go",
    repoPrefix := "web" }

/-- A function of the other repository. -/
def load : Node :=
  { id := "api/user.go::Load", kind := .kindFunction, name := "Load", filePath := "api/user.go",
    repoPrefix := "api" }

/-- A method of the other repository. -/
def save : Node :=
  { id := "api/user.go::User.Save", kind := .kindMethod, name := "Save", filePath := "api/user.go",
    repoPrefix := "api" }

def nodes : Graph := ((Graph.new.putNode main).putNode load).putNode save

/-- The call of the function. -/
def callLoad : Graph :=
  nodes.putEdge { fromID := main.id, toID := "unresolved::Load", kind := .edgeCalls,
                  filePath := main.filePath }

/-- The call of the method. -/
def callSave : Graph :=
  nodes.putEdge { fromID := main.id, toID := "unresolved::*.Save", kind := .edgeCalls,
                  filePath := main.filePath }

def lookupLoad : Lookup :=
  callLoad.lookup GoMap.RangeOrder.default (callLoad.fileNodes GoMap.RangeOrder.default)

theorem weak_callLoad : Weak callLoad :=
  (((Weak.new.putNode main).putNode load).putNode save).putEdge _

/-- The call of the function is flagged. -/
theorem flagsRight_callLoad :
    FlagsRight callLoad (CrossPass.resolveAll.run GoMap.RangeOrder.default callLoad) := by
  refine (flagsRight_run weak_callLoad .resolveAll).mpr fun l r l' hl _ => ?_
  have hrefs : CrossPass.resolveAll.refs GoMap.RangeOrder.default callLoad = [⟨0⟩] := by
    decide +kernel
  rw [hrefs] at hl
  obtain ⟨rfl, rfl, rfl⟩ : l = [] ∧ r = ⟨0⟩ ∧ l' = [] := by
    cases l with
    | nil => simpa [eq_comm] using hl
    | cons b l => simp at hl
  have hto : (CrossPass.resolveAll.reply lookupLoad (callLoad.edge ⟨0⟩)).toID = load.id ∧
      (CrossPass.resolveAll.reply lookupLoad (callLoad.edge ⟨0⟩)).crossRepo = true := by
    decide +kernel
  refine ⟨fun m c h _ => ?_, fun hno => ?_⟩
  · change CrossPass.resolveAll.First lookupLoad (callLoad.edge ⟨0⟩) m c at h
    obtain ⟨hid, hflag⟩ := reply_of_first h
    have hc : callLoad.nodeAt c.id = some c :=
      weak_callLoad.nodes.nodeAt_of_finds
        (fun c hc => ((weak_callLoad.mem_fileNodes _).mp hc).1) h.finds
    have hload : (callLoad.nodeAt load.id).map Node.repoPrefix = some "api" := by decide +kernel
    rw [← hto.1, hid, hc] at hload
    have hrepo : c.repoPrefix = "api" := Option.some.inj hload
    have hweb : lookupLoad.callerRepoPrefix (callLoad.edge ⟨0⟩) = "web" := by decide +kernel
    have hcaller : callLoad.callerRepo (callLoad.edge ⟨0⟩) = "web" := by decide +kernel
    have hnew : (callLoad.edge ⟨0⟩).crossRepo = false := by decide +kernel
    rw [hto.2, hrepo, hweb, hnew] at hflag
    change m.Suits (callLoad.callerRepo (callLoad.edge ⟨0⟩)) c.repoPrefix
      (callLoad.edge ⟨0⟩).crossRepo
    rw [hcaller, hrepo, hnew]
    cases m with
    | carried => cases hflag
    | ifOther => decide
    | always => decide
  · obtain ⟨m, c, h⟩ | ⟨hlabel, -⟩ :=
      CrossPass.resolveAll.exists_first_or lookupLoad (callLoad.edge ⟨0⟩)
    · exact absurd h (hno m c)
    · exact absurd (hlabel.symm.trans hto.1) (by decide +kernel)

/-- **The call of the method is not flagged**, though it leads from one repository into
another. -/
theorem not_flagsRight_callSave :
    ¬FlagsRight callSave (CrossPass.resolveAll.run GoMap.RangeOrder.default callSave) := by
  intro h
  have htarget : ((CrossPass.resolveAll.run GoMap.RangeOrder.default callSave).nodeAt
      ((CrossPass.resolveAll.run GoMap.RangeOrder.default callSave).edge ⟨0⟩).toID).map
        Node.repoPrefix = some "api" := by decide +kernel
  obtain ⟨c, hc, hrepo⟩ := Option.map_eq_some_iff.mp htarget
  have hedge := h ⟨0⟩ (by decide +kernel) (by decide +kernel) c hc
  rw [hrepo] at hedge
  exact absurd (hedge.mpr (by decide +kernel)) (by decide +kernel)

end TwoRepos

end CrossPass

end Gortex
