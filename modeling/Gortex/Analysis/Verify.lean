import Gortex.Analysis.Signature
import Gortex.Graph.Reachable
import Gortex.Lib.Fold
import Gortex.Query.Engine

/-!
# Verification of signature changes

`VerifyChanges` of `internal/analysis/contracts.go`: which callers, and which other implementors
of an interface, some proposed signatures break. The violations are collected change by change,
and the first of each symbol, kind and description is reported.

The verdict that one of them is in another repository compares the repositories of the
violations, which those at implementors do not have, with those of all the changed symbols
together. `Gortex.Analysis.verdict_iff` says when it is right.
-/

namespace Gortex

namespace Analysis

open GoString

/-! ### The model -/

/-- A proposed change of the signature of a symbol. -/
structure SignatureChange where
  symbolID : String
  newSignature : String

/-- The kinds of a violation. -/
inductive ViolationKind
  | callerMismatch
  | removedParam
  | interfaceViolation
deriving DecidableEq

/-- A place that a change breaks. -/
structure ContractViolation where
  symbolID : String
  name : String
  filePath : String
  line : ℤ
  kind : ViolationKind
  description : String
  repoPrefix : String := ""
deriving DecidableEq

/-- The result of the verification. -/
structure VerifyResult where
  violations : List ContractViolation := []
  checkedCallers : ℕ := 0
  checkedImpls : ℕ := 0
  clean : Bool := false
  errors : List String := []
  crossRepoViolations : Bool := false

/-- The signature that is stored with a node; without one, there are no parameters. -/
def signatureOf (n : Node) : ParsedSignature :=
  parseSignature (n.metadata.getStr "signature").toList

/-- The first place where the types of two lists of parameters differ, counted from `i`. -/
def firstDiff (i : ℕ) : List (List Char) → List (List Char) → Option (ℕ × String × String)
  | s :: ss, t :: ts =>
    if s ≠ t then some (i, String.ofList s, String.ofList t) else firstDiff (i + 1) ss ts
  | _, _ => none

/-- The comparison of two lists of parameters, with the texts for another number of them and
for another type. -/
def mismatch (count : ℕ → ℕ → String) (type : ℕ → String → String → String)
    (ss ts : List (List Char)) : Option String :=
  if ss.length ≠ ts.length then some (count ss.length ts.length)
  else (firstDiff 1 ss ts).map fun d => type d.1 d.2.1 d.2.2

/-- A violation at a node. -/
def violationAt (n : Node) (kind : ViolationKind) (description repoPrefix : String) :
    ContractViolation where
  symbolID := n.id
  name := n.name
  filePath := n.filePath
  line := n.startLine
  kind := kind
  description := description
  repoPrefix := repoPrefix

/-- The callers that are checked. -/
def checkedCallers (g : Graph) (symbolID : String) : List Node :=
  let callerSG := (getCallers g symbolID { depth := 2, limit := 500, detail := "" }).2
  (callerSG.nodes.map g.node).filter fun caller => caller.id ≠ symbolID

/-- The callers whose call does not fit. -/
def callerMismatches (g : Graph) (change : SignatureChange) (oldSig newSig : ParsedSignature) :
    List ContractViolation :=
  (checkedCallers g change.symbolID).filterMap fun caller =>
    (mismatch
      (fun m n => "parameter count changed from " ++ toString m ++ " to " ++ toString n ++ " in " ++
        change.symbolID)
      (fun i s t => "parameter " ++ toString i ++ " type changed from " ++ s ++ " to " ++ t ++
        " in " ++ change.symbolID)
      oldSig.params newSig.params).map fun description =>
        violationAt caller .callerMismatch description caller.repoPrefix

/-- The callers that pass a parameter past the last one. -/
def removedParams (g : Graph) (change : SignatureChange) (oldSig newSig : ParsedSignature) :
    List ContractViolation :=
  ((oldSig.params.zipIdx 1).drop newSig.params.length).flatMap fun p =>
    (checkedCallers g change.symbolID).map fun caller =>
      violationAt caller .removedParam
        ("parameter " ++ toString p.2 ++ " (" ++ String.ofList p.1 ++ ") removed from " ++
          change.symbolID)
        caller.repoPrefix

/-- The nodes that the edges of a kind lead to. -/
def targetsOf (g : Graph) (id : String) (kind : EdgeKind) : List Node :=
  ((g.getOutEdges id).filter fun r => (g.edge r).kind = kind).filterMap fun r =>
    g.nodeAt (g.edge r).toID

/-- **findMemberMethods**: the methods of a type. -/
def findMemberMethods (g : Graph) (typeID : String) : List Node :=
  (((g.getInEdges typeID).filter fun r => (g.edge r).kind = .edgeMemberOf).filterMap fun r =>
    g.nodeAt (g.edge r).fromID).filter fun n => n.kind = .kindMethod

/-- The implementors that are checked: from a method to its type, to the interfaces of the type,
and to the other types that implement them. -/
def checkedImpls (g : Graph) (node : Node) : List Node :=
  if node.kind ≠ .kindMethod then []
  else
    (targetsOf g node.id .edgeMemberOf).flatMap fun parentNode =>
      (targetsOf g parentNode.id .edgeImplements).flatMap fun interfaceNode =>
        ((findImplementationsMinTier g interfaceNode.id "").map g.node).filter fun implNode =>
          implNode.id ≠ parentNode.id

/-- **checkInterfaceViolations**: the methods of the name that do not fit. -/
def interfaceViolations (g : Graph) (node : Node) (newSig : ParsedSignature) :
    List ContractViolation :=
  (checkedImpls g node).flatMap fun implNode =>
    ((findMemberMethods g implNode.id).filter fun method => method.name = node.name).filterMap
      fun method =>
        (mismatch
          (fun m n => "implementor " ++ implNode.name ++ " has " ++ toString m ++
            " params but interface method now requires " ++ toString n)
          (fun i s t => "implementor " ++ implNode.name ++ " param " ++ toString i ++ " is " ++ s ++
            " but interface method now requires " ++ t)
          (signatureOf method).params newSig.params).map fun description =>
            -- no repository is set here
            violationAt method .interfaceViolation description ""

/-- All that a change of a node breaks. -/
def violationsOf (g : Graph) (change : SignatureChange) (node : Node) : List ContractViolation :=
  let newSig := parseSignature change.newSignature.toList
  let oldSig := signatureOf node
  callerMismatches g change oldSig newSig ++ removedParams g change oldSig newSig ++
    interfaceViolations g node newSig

/-- One change. -/
def verifyChange (g : Graph) (result : VerifyResult) (change : SignatureChange) : VerifyResult :=
  match g.nodeAt change.symbolID with
  | none => { result with errors := result.errors ++ ["symbol not found: " ++ change.symbolID] }
  | some node =>
    { result with
      violations := result.violations ++ violationsOf g change node
      checkedCallers := result.checkedCallers + (checkedCallers g change.symbolID).length
      checkedImpls := result.checkedImpls + (checkedImpls g node).length }

/-- What two violations have in common of which the first is reported. -/
def ContractViolation.key (v : ContractViolation) : String × ViolationKind × String :=
  (v.symbolID, v.kind, v.description)

/-- The repositories of the changed symbols. -/
def changedRepos (g : Graph) (changes : List SignatureChange) : List String :=
  ((changes.filterMap fun change => g.nodeAt change.symbolID).map Node.repoPrefix).filter
    fun repo => repo ≠ ""

/-- **VerifyChanges.** -/
def verifyChanges (g : Graph) (changes : List SignatureChange) : VerifyResult :=
  let result := changes.foldl (verifyChange g) {}
  let violations := result.violations.firsts ContractViolation.key
  { result with
    violations := violations
    crossRepoViolations :=
      violations.any fun v => v.repoPrefix ≠ "" ∧ v.repoPrefix ∉ changedRepos g changes
    clean := violations = [] }

/-! ### What a change breaks -/

theorem firstDiff_eq_none {i : ℕ} {ss ts : List (List Char)} (hlen : ss.length = ts.length) :
    firstDiff i ss ts = none ↔ ss = ts := by
  induction ss generalizing i ts with
  | nil =>
    rw [List.length_nil] at hlen
    exact iff_of_true rfl (List.length_eq_zero_iff.mp hlen.symm).symm
  | cons s ss ih =>
    obtain ⟨t, ts, rfl⟩ := List.exists_of_length_succ ts hlen.symm
    rw [List.cons_eq_cons]
    by_cases hst : s = t
    · have hlen' : ss.length = ts.length := by simpa using hlen
      simp only [firstDiff, hst, ne_eq, not_true_eq_false, if_false, true_and, ih hlen']
    · simp only [firstDiff, hst, ne_eq, not_false_eq_true, if_true, reduceCtorEq, false_and]

/-- Something is said of two lists of parameters iff they differ. -/
theorem mismatch_eq_none {count : ℕ → ℕ → String} {type : ℕ → String → String → String}
    {ss ts : List (List Char)} : mismatch count type ss ts = none ↔ ss = ts := by
  rw [mismatch]
  by_cases hlen : ss.length = ts.length
  · rw [if_neg (not_not.mpr hlen), Option.map_eq_none_iff, firstDiff_eq_none hlen]
  · rw [if_pos hlen]
    exact iff_of_false (Option.some_ne_none _) fun h => hlen (congrArg List.length h)

theorem exists_mismatch {count : ℕ → ℕ → String} {type : ℕ → String → String → String}
    {ss ts : List (List Char)} : (∃ d, mismatch count type ss ts = some d) ↔ ss ≠ ts := by
  rw [← Option.ne_none_iff_exists', ne_eq, mismatch_eq_none]

/-- A caller whose call the change of the node breaks. -/
def AffectedCaller (g : Graph) (change : SignatureChange) (node caller : Node) : Prop :=
  caller ∈ checkedCallers g change.symbolID ∧
    (signatureOf node).params ≠ (parseSignature change.newSignature.toList).params

/-- A method of another implementor that does not fit the new parameters. -/
def ConflictingMethod (g : Graph) (change : SignatureChange) (node method : Node) : Prop :=
  (∃ implNode ∈ checkedImpls g node, method ∈ findMemberMethods g implNode.id) ∧
    method.name = node.name ∧
      (signatureOf method).params ≠ (parseSignature change.newSignature.toList).params

variable {g : Graph} {change : SignatureChange} {changes : List SignatureChange} {node m : Node}
  {v : ContractViolation}

/-- **What a violation is**: at a caller it has the repository of the caller, at an implementor
none. -/
theorem of_mem_violationsOf (hv : v ∈ violationsOf g change node) :
    (∃ m, AffectedCaller g change node m ∧ v.symbolID = m.id ∧ v.repoPrefix = m.repoPrefix ∧
        v.kind ≠ .interfaceViolation) ∨
      ∃ m, ConflictingMethod g change node m ∧ v.symbolID = m.id ∧ v.repoPrefix = "" ∧
        v.kind = .interfaceViolation := by
  rw [violationsOf, List.mem_append, List.mem_append] at hv
  rcases hv with (hv | hv) | hv
  · obtain ⟨m, hm, hd⟩ := List.mem_filterMap.mp hv
    obtain ⟨d, hmis, rfl⟩ := Option.map_eq_some_iff.mp hd
    exact Or.inl ⟨m, ⟨hm, exists_mismatch.mp ⟨d, hmis⟩⟩, rfl, rfl, ViolationKind.noConfusion⟩
  · obtain ⟨p, hp, hv⟩ := List.mem_flatMap.mp hv
    obtain ⟨m, hm, rfl⟩ := List.mem_map.mp hv
    refine Or.inl ⟨m, ⟨hm, fun heq => ?_⟩, rfl, rfl, ViolationKind.noConfusion⟩
    -- a parameter is left over, so there are fewer of them now
    have hpos := List.length_pos_of_mem hp
    rw [List.length_drop, List.length_zipIdx, heq] at hpos
    omega
  · obtain ⟨impl, himpl, hv⟩ := List.mem_flatMap.mp hv
    obtain ⟨m, hm, hd⟩ := List.mem_filterMap.mp hv
    obtain ⟨hm, hname⟩ := List.mem_filter.mp hm
    obtain ⟨d, hmis, rfl⟩ := Option.map_eq_some_iff.mp hd
    exact Or.inr ⟨m, ⟨⟨impl, himpl, hm⟩, of_decide_eq_true hname, exists_mismatch.mp ⟨d, hmis⟩⟩,
      rfl, rfl, rfl⟩

theorem AffectedCaller.exists_violation (h : AffectedCaller g change node m) :
    ∃ v ∈ violationsOf g change node, v.symbolID = m.id ∧ v.repoPrefix = m.repoPrefix := by
  obtain ⟨d, hd⟩ := exists_mismatch.mpr h.2
  refine ⟨_, List.mem_append_left _ (List.mem_append_left _
    (List.mem_filterMap.mpr ⟨m, h.1, Option.map_eq_some_iff.mpr ⟨d, hd, rfl⟩⟩)), rfl, rfl⟩

theorem ConflictingMethod.exists_violation (h : ConflictingMethod g change node m) :
    ∃ v ∈ violationsOf g change node, v.symbolID = m.id := by
  obtain ⟨⟨impl, himpl, hm⟩, hname, hne⟩ := h
  obtain ⟨d, hd⟩ := exists_mismatch.mpr hne
  have hmem : m ∈ (findMemberMethods g impl.id).filter fun method => method.name = node.name :=
    List.mem_filter.mpr ⟨hm, decide_eq_true hname⟩
  exact ⟨_, List.mem_append_right _ (List.mem_flatMap.mpr ⟨impl, himpl,
    List.mem_filterMap.mpr ⟨m, hmem, Option.map_eq_some_iff.mpr ⟨d, hd, rfl⟩⟩⟩), rfl⟩

theorem nodeAt_of_mem_checkedCallers (hg : g.NodeInv) {symbolID : String}
    (hm : m ∈ checkedCallers g symbolID) : g.nodeAt m.id = some m := by
  obtain ⟨r, hr, rfl⟩ := List.mem_map.mp (List.mem_of_mem_filter hm)
  obtain ⟨id, hid⟩ := bfsWalk_stored g symbolID _ _ r hr
  exact Graph.StoredNode.nodeAt (hg.storedNode hid)

theorem nodeAt_of_mem_findMemberMethods (hg : g.NodeInv) {typeID : String}
    (hm : m ∈ findMemberMethods g typeID) : g.nodeAt m.id = some m := by
  obtain ⟨r, -, hr⟩ := List.mem_filterMap.mp (List.mem_of_mem_filter hm)
  rwa [hg.id_eq hr]

/-- The node of a violation, and its repository as far as the violation has it. -/
theorem nodeAt_of_mem_violationsOf (hg : g.NodeInv) (hv : v ∈ violationsOf g change node) :
    ∃ m, g.nodeAt v.symbolID = some m ∧
      (AffectedCaller g change node m ∨ ConflictingMethod g change node m) ∧
        v.repoPrefix = if v.kind = .interfaceViolation then "" else m.repoPrefix := by
  rcases of_mem_violationsOf hv with ⟨m, hm, hid, hrepo, hkind⟩ | ⟨m, hm, hid, hrepo, hkind⟩
  · refine ⟨m, ?_, Or.inl hm, by rw [hrepo, if_neg hkind]⟩
    rw [hid, nodeAt_of_mem_checkedCallers hg hm.1]
  · obtain ⟨impl, -, hmem⟩ := hm.1
    refine ⟨m, ?_, Or.inr hm, by rw [hrepo, if_pos hkind]⟩
    rw [hid, nodeAt_of_mem_findMemberMethods hg hmem]

/-! ### What is reported -/

/-- The violations of all changes, before the first of each key is taken. -/
def allViolations (g : Graph) (changes : List SignatureChange) : List ContractViolation :=
  (changes.foldl (verifyChange g) {}).violations

theorem violations_foldl (result : VerifyResult) :
    (changes.foldl (verifyChange g) result).violations = result.violations ++
      changes.flatMap fun change => (g.nodeAt change.symbolID).elim [] (violationsOf g change) := by
  induction changes generalizing result with
  | nil => rw [List.flatMap_nil, List.append_nil, List.foldl_nil]
  | cons change changes ih =>
    rw [List.foldl_cons, ih, List.flatMap_cons, ← List.append_assoc]
    congr 1
    rw [verifyChange]
    cases g.nodeAt change.symbolID with
    | none => exact (List.append_nil _).symm
    | some node => rfl

theorem mem_allViolations :
    v ∈ allViolations g changes ↔
      ∃ change ∈ changes, ∃ node, g.nodeAt change.symbolID = some node ∧
        v ∈ violationsOf g change node := by
  rw [allViolations, violations_foldl, List.nil_append, List.mem_flatMap]
  refine exists_congr fun change => and_congr_right fun _ => ?_
  cases g.nodeAt change.symbolID with
  | none => simp
  | some node => simp

theorem mem_changedRepos {repo : String} :
    repo ∈ changedRepos g changes ↔ repo ≠ "" ∧
      ∃ change ∈ changes, ∃ node, g.nodeAt change.symbolID = some node ∧
        node.repoPrefix = repo := by
  simp only [changedRepos, List.mem_filter, List.mem_map, List.mem_filterMap, decide_eq_true_eq]
  constructor
  · rintro ⟨⟨node, ⟨change, hchange, hnode⟩, rfl⟩, hne⟩
    exact ⟨hne, change, hchange, node, hnode, rfl⟩
  · rintro ⟨hne, change, hchange, node, hnode, rfl⟩
    exact ⟨⟨node, ⟨change, hchange, hnode⟩, rfl⟩, hne⟩

/-- Violations of one key are at one node and name one repository, or none. -/
theorem repoPrefix_eq_of_key (hg : g.NodeInv) {w : ContractViolation}
    (hv : v ∈ allViolations g changes) (hw : w ∈ allViolations g changes) (hkey : v.key = w.key) :
    v.repoPrefix = w.repoPrefix := by
  obtain ⟨_, _, _, _, hv⟩ := mem_allViolations.mp hv
  obtain ⟨_, _, _, _, hw⟩ := mem_allViolations.mp hw
  obtain ⟨m, hm, -, hrepo⟩ := nodeAt_of_mem_violationsOf hg hv
  obtain ⟨m', hm', -, hrepo'⟩ := nodeAt_of_mem_violationsOf hg hw
  have hid : v.symbolID = w.symbolID := congrArg Prod.fst hkey
  have hkind : v.kind = w.kind := congrArg (fun k => k.2.1) hkey
  rw [hid, hm', Option.some.injEq] at hm
  rw [hrepo, hrepo', hkind, hm]

/-- For each violation of a change, one of its key is reported. -/
theorem exists_reported (hv : v ∈ allViolations g changes) :
    ∃ w ∈ (verifyChanges g changes).violations, w.key = v.key :=
  List.mem_map.mp (List.mem_map_firsts ContractViolation.key hv)

theorem mem_allViolations_of_reported (hv : v ∈ (verifyChanges g changes).violations) :
    v ∈ allViolations g changes :=
  (List.firsts_sublist ContractViolation.key _).subset hv

/-! ### The verdict -/

/-- The change causes the violation: it has one of the same key. -/
def Causes (g : Graph) (change : SignatureChange) (v : ContractViolation) : Prop :=
  ∃ node, g.nodeAt change.symbolID = some node ∧ ∃ w ∈ violationsOf g change node, w.key = v.key

/-- The violation is at a node of another repository than the changed symbol. -/
def Foreign (g : Graph) (change : SignatureChange) (v : ContractViolation) : Prop :=
  ∃ node m, g.nodeAt change.symbolID = some node ∧ g.nodeAt v.symbolID = some m ∧
    m.repoPrefix ≠ node.repoPrefix

/-- **The verdict is right**: it is set iff a reported violation is in another repository than
the symbol whose change caused it. -/
def VerdictRight (g : Graph) (changes : List SignatureChange) : Prop :=
  (verifyChanges g changes).crossRepoViolations = true ↔
    ∃ v ∈ (verifyChanges g changes).violations, ∃ change ∈ changes,
      Causes g change v ∧ Foreign g change v

/-- A change breaks a caller or an implementor in another repository. -/
def Crosses (g : Graph) (changes : List SignatureChange) : Prop :=
  ∃ change ∈ changes, ∃ node m, g.nodeAt change.symbolID = some node ∧
    (AffectedCaller g change node m ∨ ConflictingMethod g change node m) ∧
      m.repoPrefix ≠ node.repoPrefix

/-- A change breaks a caller in a repository that has a name and none of the changed
symbols. -/
def LeavesChanged (g : Graph) (changes : List SignatureChange) : Prop :=
  ∃ change ∈ changes, ∃ node m, g.nodeAt change.symbolID = some node ∧
    AffectedCaller g change node m ∧ m.repoPrefix ≠ "" ∧
      ∀ change' ∈ changes, ∀ node', g.nodeAt change'.symbolID = some node' →
        node'.repoPrefix ≠ m.repoPrefix

theorem foreign_iff_crosses (hg : g.NodeInv) :
    (∃ v ∈ (verifyChanges g changes).violations, ∃ change ∈ changes,
      Causes g change v ∧ Foreign g change v) ↔ Crosses g changes := by
  constructor
  · rintro ⟨v, -, change, hchange, ⟨node, hnode, w, hw, hkey⟩, ⟨node', m, hnode', hm, hne⟩⟩
    rw [hnode, Option.some.injEq] at hnode'
    subst hnode'
    obtain ⟨m', hm', hbroken, -⟩ := nodeAt_of_mem_violationsOf hg hw
    have hid : w.symbolID = v.symbolID := congrArg Prod.fst hkey
    rw [hid, hm, Option.some.injEq] at hm'
    exact ⟨change, hchange, node, m', hnode, hbroken, hm' ▸ hne⟩
  · rintro ⟨change, hchange, node, m, hnode, hbroken, hne⟩
    -- the violation at the node is reported, or another of its key
    have hat : ∃ w ∈ violationsOf g change node, g.nodeAt w.symbolID = some m := by
      rcases hbroken with hcaller | hmethod
      · obtain ⟨w, hw, hid, -⟩ := hcaller.exists_violation
        exact ⟨w, hw, by rw [hid, nodeAt_of_mem_checkedCallers hg hcaller.1]⟩
      · obtain ⟨w, hw, hid⟩ := hmethod.exists_violation
        obtain ⟨impl, -, hmem⟩ := hmethod.1
        exact ⟨w, hw, by rw [hid, nodeAt_of_mem_findMemberMethods hg hmem]⟩
    obtain ⟨w, hw, hm⟩ := hat
    obtain ⟨v, hv, hkey⟩ :=
      exists_reported (mem_allViolations.mpr ⟨change, hchange, node, hnode, hw⟩)
    have hid : v.symbolID = w.symbolID := congrArg Prod.fst hkey
    exact ⟨v, hv, change, hchange, ⟨node, hnode, w, hw, hkey.symm⟩,
      ⟨node, m, hnode, by rw [hid, hm], hne⟩⟩

theorem crossRepoViolations_iff (hg : g.NodeInv) :
    (verifyChanges g changes).crossRepoViolations = true ↔ LeavesChanged g changes := by
  have hany : (verifyChanges g changes).crossRepoViolations = true ↔
      ∃ v ∈ (verifyChanges g changes).violations,
        v.repoPrefix ≠ "" ∧ v.repoPrefix ∉ changedRepos g changes := by
    refine List.any_eq_true.trans (exists_congr fun v => and_congr_right fun _ => ?_)
    exact decide_eq_true_iff
  rw [hany]
  constructor
  · rintro ⟨v, hv, hne, hnew⟩
    obtain ⟨change, hchange, node, hnode, hv⟩ :=
      mem_allViolations.mp (mem_allViolations_of_reported hv)
    rcases of_mem_violationsOf hv with ⟨m, hm, -, hrepo, -⟩ | ⟨m, -, -, hrepo, -⟩
    · rw [hrepo] at hne hnew
      exact ⟨change, hchange, node, m, hnode, hm, hne, fun change' hchange' node' hnode' heq =>
        hnew (mem_changedRepos.mpr ⟨hne, change', hchange', node', hnode', heq⟩)⟩
    · exact absurd hrepo hne
  · rintro ⟨change, hchange, node, m, hnode, hm, hne, hnew⟩
    obtain ⟨w, hw, -, hrepo⟩ := hm.exists_violation
    have hall := mem_allViolations.mpr ⟨change, hchange, node, hnode, hw⟩
    obtain ⟨v, hv, hkey⟩ := exists_reported hall
    have hvm : v.repoPrefix = m.repoPrefix := by
      rw [repoPrefix_eq_of_key hg (mem_allViolations_of_reported hv) hall hkey, hrepo]
    refine ⟨v, hv, hvm ▸ hne, fun hmem => ?_⟩
    obtain ⟨-, change', hchange', node', hnode', heq⟩ := mem_changedRepos.mp hmem
    exact hnew change' hchange' node' hnode' (heq.trans hvm)

/-- What leaves the changed repositories crosses. -/
theorem LeavesChanged.crosses (h : LeavesChanged g changes) : Crosses g changes := by
  obtain ⟨change, hchange, node, m, hnode, hm, -, hnew⟩ := h
  exact ⟨change, hchange, node, m, hnode, Or.inl hm,
    fun heq => hnew change hchange node hnode heq.symm⟩

/-- **When the verdict is right**: when no change breaks anything in another repository, or one
breaks a caller in a repository that no change touches. Missed are the violations at
implementors, those in a repository without a prefix, and those in the repository of another
changed symbol. -/
theorem verdict_iff (hg : Graph.Reachable g) (changes : List SignatureChange) :
    VerdictRight g changes ↔ ¬Crosses g changes ∨ LeavesChanged g changes := by
  rw [VerdictRight, crossRepoViolations_iff hg.weak.nodes, foreign_iff_crosses hg.weak.nodes,
    ← imp_iff_not_or]
  exact ⟨Iff.mpr, fun h => ⟨LeavesChanged.crosses, h⟩⟩

theorem Crosses.mono {changes' : List SignatureChange} (h : Crosses g changes)
    (hsub : changes ⊆ changes') : Crosses g changes' := by
  obtain ⟨change, hchange, hrest⟩ := h
  exact ⟨change, hsub hchange, hrest⟩

namespace TwoRepos

/-- A function of the one repository. -/
def load : Node :=
  { id := "api/user.go::Load", kind := .kindFunction, name := "Load", filePath := "api/user.go"
    metadata := (∅ : Metadata).insert "signature" (.str "func Load(id string)")
    repoPrefix := "api" }

/-- Its caller in the other repository. -/
def render : Node :=
  { id := "web/page.go::Render", kind := .kindFunction, name := "Render", filePath := "web/page.go"
    metadata := (∅ : Metadata).insert "signature" (.str "func Render()")
    repoPrefix := "web" }

/-- The call. -/
def calls : Graph :=
  ((Graph.new.putNode load).putNode render).putEdge
    { fromID := render.id, toID := load.id, kind := .edgeCalls, filePath := render.filePath }

theorem reachable : Graph.Reachable calls :=
  ⟨[.addNode load, .addNode render, .addEdge _],
    .cons ⟨trivial, rfl⟩ (.cons ⟨trivial, rfl⟩ (.cons ⟨trivial, rfl⟩ (.nil _)))⟩

/-- The parameter gets another type. -/
def loadChange : SignatureChange := ⟨load.id, "func Load(id int)"⟩

/-- The caller changes, too. -/
def renderChange : SignatureChange := ⟨render.id, "func Render(w Writer)"⟩

theorem leavesChanged : LeavesChanged calls [loadChange] :=
  (crossRepoViolations_iff reachable.weak.nodes).mp (by decide +kernel)

/-- Of a single change, the caller in the other repository is seen. -/
theorem verdictRight : VerdictRight calls [loadChange] :=
  (verdict_iff reachable [loadChange]).mpr (Or.inr leavesChanged)

/-- **It is overlooked when a symbol of its repository is changed as well.** -/
theorem not_verdictRight :
    ¬∀ (g : Graph) (changes : List SignatureChange), Graph.Reachable g →
      VerdictRight g changes := by
  intro h
  have hverdict := h calls [loadChange, renderChange] reachable
  rw [VerdictRight, foreign_iff_crosses reachable.weak.nodes] at hverdict
  have hcross : Crosses calls [loadChange, renderChange] :=
    leavesChanged.crosses.mono fun _ hc =>
      List.mem_cons.mpr (Or.inl (List.mem_singleton.mp hc))
  exact absurd (hverdict.mpr hcross) (by decide +kernel)

end TwoRepos

end Analysis

end Gortex
