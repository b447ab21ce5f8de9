import Mathlib.Algebra.Order.Field.Rat
import Mathlib.Data.Set.Card
import Mathlib.Tactic.NormNum
import Gortex.Graph.Reachable
import Gortex.Lib.Frontier
import Gortex.Lib.GoString

/-!
# The report of untested symbols

`internal/mcp/tools_untested.go`: the functions and methods that no test reaches by calls
and references, and how many of the candidates are reached. What the tests reach is found
by a search that closes the set of the test symbols, frontier by frontier, and it is found
exactly (`Gortex.Mcp.reachableFromTests_spec`). The ratio is taken from the number of the
symbols that are *listed*: those with too few callers are left out of the list, and count as
covered.
-/

namespace Gortex

namespace Mcp

open GoString

/-! ### The model -/

/-- A part of a file name that tells a test, and the language it is for. -/
structure TestFilePattern where
  suffix : String
  lang : String

/-- The patterns by language. -/
def testFilePatterns : List TestFilePattern :=
  [⟨"_test.go", "go"⟩, ⟨".test.ts", "typescript"⟩, ⟨".test.tsx", "typescript"⟩,
    ⟨".spec.ts", "typescript"⟩, ⟨".test.js", "javascript"⟩, ⟨".spec.js", "javascript"⟩,
    ⟨"_test.py", "python"⟩, ⟨"test_", "python"⟩, ⟨"_test.rs", "rust"⟩, ⟨"Test.java", "java"⟩,
    ⟨"_test.rb", "ruby"⟩, ⟨"_test.exs", "elixir"⟩, ⟨"_test.kt", "kotlin"⟩,
    ⟨"Tests.swift", "swift"⟩, ⟨"Test.scala", "scala"⟩, ⟨"Test.php", "php"⟩, ⟨"Test.cs", "csharp"⟩]

/-- Whether a path is that of a test. -/
def isTestFile (path : String) : Bool :=
  (testFilePatterns.any fun p => contains path p.suffix) ||
    contains path "__tests__/" || contains path "/test/"

/-- Whether a node is a function or a method. -/
def isFunction (n : Node) : Bool := n.kind = .kindFunction ∨ n.kind = .kindMethod

/-- Whether an edge is a call or a reference. -/
def isUse (e : Edge) : Bool := e.kind = .edgeCalls ∨ e.kind = .edgeReferences

/-- The targets of the calls and references that leave a node. -/
def usesOf (g : Graph) (id : String) : List String :=
  (((g.getOutEdges id).map g.edge).filter isUse).map Edge.toID

/-- The functions and methods of test files. -/
def testSymbols (ord : MapOrder) (g : Graph) : List String :=
  (((g.allNodes ord).map g.node).filter fun n => isFunction n && isTestFile n.filePath).map Node.id

/-- **What the tests reach**, if the loop ends within so many rounds. -/
def reachableFromTests (ord : MapOrder) (g : Graph) (fuel : ℕ) :
    Option (GoMap String Bool) :=
  (Frontier.loop (usesOf g) fuel ((testSymbols ord g).foldl Frontier.visit Frontier.empty)).map
    Frontier.State.seen

/-- The arguments of the tool. -/
structure UntestedRequest where
  limit : ℤ := 50
  filePrefix : String := ""
  minFanIn : ℤ := 0

/-- A symbol that is listed. -/
structure UntestedEntry where
  id : String
  name : String
  kind : String
  filePath : String
  line : ℤ
  fanIn : ℕ
deriving DecidableEq

/-- The answer of the tool. -/
structure UntestedResult where
  untested : List UntestedEntry
  totalCandidates : ℕ
  totalUncovered : ℕ
  coverageRatio : ℚ
  truncated : Bool

/-- The incoming calls and references of every symbol. -/
def fanInMap (ord : MapOrder) (g : Graph) : GoMap String ℕ :=
  ((((g.allEdges ord).map g.edge).filter isUse).map Edge.toID).foldl GoMap.bump ∅

/-- How often a symbol is called or referred to. -/
def fanIn (ord : MapOrder) (g : Graph) (id : String) : ℕ :=
  ((fanInMap ord g).lookup id).getD 0

/-- Whether a symbol could be listed: it is no test, and it is under the prefix. -/
def isCandidate (filePrefix : String) (n : Node) : Bool :=
  isFunction n && !isTestFile n.filePath && (filePrefix = "" || hasPrefix n.filePath filePrefix)

/-- The entry of a symbol. -/
def entryOf (ord : MapOrder) (g : Graph) (n : Node) : UntestedEntry where
  id := n.id
  name := n.name
  kind := n.kind.str
  filePath := n.filePath
  line := n.startLine
  fanIn := fanIn ord g n.id

/-- Entries are ranked by what uses them most, then by path and ID. -/
def UntestedEntry.before (a b : UntestedEntry) : Bool :=
  if a.fanIn ≠ b.fanIn then b.fanIn < a.fanIn
  else if a.filePath ≠ b.filePath then a.filePath < b.filePath
  else a.id < b.id

/-- The answer, once it is known what the tests reach. -/
def untestedReport (ord : MapOrder) (g : Graph) (req : UntestedRequest)
    (covered : GoMap String Bool) : UntestedResult :=
  let limit := if req.limit ≤ 0 then 50 else req.limit.toNat
  let candidates := ((g.allNodes ord).map g.node).filter (isCandidate req.filePrefix)
  let entries := ((candidates.filter fun n => !(covered.lookup n.id).getD false).filter
    fun n => req.minFanIn ≤ (fanIn ord g n.id : ℤ)).map (entryOf ord g)
  let sorted := entries.mergeSort fun a b => !b.before a
  let totalUncovered := sorted.length
  { untested := sorted.take limit
    totalCandidates := candidates.length
    totalUncovered := totalUncovered
    coverageRatio :=
      if 0 < candidates.length then
        ((candidates.length : ℚ) - totalUncovered) / candidates.length
      else 0
    truncated := (sorted.take limit).length < totalUncovered }

/-- **The tool.** -/
def handleGetUntestedSymbols (ord : MapOrder) (g : Graph) (fuel : ℕ)
    (req : UntestedRequest) : Option UntestedResult :=
  (reachableFromTests ord g fuel).map (untestedReport ord g req)

/-! ### What the tests reach -/

variable {g : Graph}

/-- A symbol is a function or method of a test file. -/
def IsTest (g : Graph) (id : String) : Prop :=
  ∃ n, g.nodeAt id = some n ∧ isFunction n = true ∧ isTestFile n.filePath = true

/-- A symbol calls or refers to another, which need not exist. -/
def Uses (g : Graph) (a b : String) : Prop :=
  ∃ e, g.StoredEdge e ∧ isUse e = true ∧ e.fromID = a ∧ e.toID = b

/-- A test leads to a symbol by calls and references. -/
def FromTests (g : Graph) (id : String) : Prop :=
  ∃ t, IsTest g t ∧ Relation.ReflTransGen (Uses g) t id

theorem mem_usesOf (hg : g.Weak) {a b : String} : b ∈ usesOf g a ↔ Uses g a b := by
  simp only [usesOf, List.mem_map, List.mem_filter]
  constructor
  · rintro ⟨e, ⟨⟨r, hr, rfl⟩, huse⟩, rfl⟩
    have hfrom : (g.edge r).fromID = a := (hg.out _ a r hr).2.1
    exact ⟨g.edge r, ⟨r, by rwa [Graph.StoredOut, hfrom], rfl⟩, huse, hfrom, rfl⟩
  · rintro ⟨e, ⟨r, hr, rfl⟩, huse, hfrom, rfl⟩
    exact ⟨g.edge r, ⟨⟨r, hfrom ▸ hr, rfl⟩, huse⟩, rfl⟩

theorem mem_testSymbols (hg : g.Weak) (ord : MapOrder) {id : String} :
    id ∈ testSymbols ord g ↔ IsTest g id := by
  simp only [testSymbols, List.mem_map (f := Node.id), List.mem_filter, hg.mem_allNodes ord,
    Bool.and_eq_true]
  constructor
  · rintro ⟨n, ⟨hn, hkind, htest⟩, rfl⟩
    exact ⟨n, hn, hkind, htest⟩
  · rintro ⟨n, hn, hkind, htest⟩
    obtain rfl := hg.nodes.id_eq hn
    exact ⟨n, ⟨hn, hkind, htest⟩, rfl⟩

theorem reached_iff (hg : g.Weak) (ord : MapOrder) (id : String) :
    Frontier.Reached (usesOf g) (fun a => a ∈ testSymbols ord g) id ↔ FromTests g id := by
  have hstep : (fun a b => b ∈ usesOf g a) = Uses g :=
    funext fun a => funext fun b => propext (mem_usesOf hg)
  rw [Frontier.Reached, hstep]
  exact exists_congr fun t => and_congr_left fun _ => mem_testSymbols hg ord

/-- **The search ends, with what the tests reach**, on any graph. -/
theorem reachableFromTests_spec (hg : g.Weak) (ord : MapOrder) :
    ∃ rounds covered, (∀ fuel, rounds ≤ fuel → reachableFromTests ord g fuel = some covered) ∧
      ∀ id, (covered.lookup id).getD false = true ↔ FromTests g id := by
  -- the loop only goes to targets of stored edges
  have hU : ∀ a, ∀ b ∈ usesOf g a, b ∈ (((g.allEdges ord).map g.edge).map Edge.toID).toFinset := by
    intro a b hb
    obtain ⟨e, he, -, -, rfl⟩ := (mem_usesOf hg).mp hb
    exact List.mem_toFinset.mpr (List.mem_map_of_mem ((hg.mem_map_allEdges ord).mpr he))
  obtain ⟨rounds, s, hloop, hiff⟩ := Frontier.exists_loop hU
    (Frontier.inv_starts (usesOf g) (testSymbols ord g))
  refine ⟨rounds, s.seen, fun fuel hfuel => ?_, fun id => (hiff id).trans (reached_iff hg ord id)⟩
  rw [reachableFromTests, hloop fuel hfuel, Option.map_some]

/-! ### The ratio -/

/-- The candidates under a prefix. -/
def candidates (g : Graph) (filePrefix : String) : Set String :=
  {id | ∃ n, g.nodeAt id = some n ∧ isCandidate filePrefix n = true}

/-- **The share of the candidates that the tests reach**, none of none being none. -/
noncomputable def coverage (g : Graph) (filePrefix : String) : ℚ :=
  ({id ∈ candidates g filePrefix | FromTests g id}.ncard : ℚ) / (candidates g filePrefix).ncard

/-- Nodes of the graph, each once, are as many as their IDs. -/
theorem length_filter_allNodes (hg : g.Weak) (ord : MapOrder) (p : Node → Bool) :
    (((g.allNodes ord).map g.node).filter p).length =
      {id | ∃ n, g.nodeAt id = some n ∧ p n = true}.ncard := by
  have hids : (((g.allNodes ord).map g.node).map Node.id).Nodup := by
    rw [List.map_map]
    exact hg.nodes.nodup_allNodes ord
  have hnodup : ((((g.allNodes ord).map g.node).filter p).map Node.id).Nodup :=
    hids.sublist (List.filter_sublist.map _)
  have hset : {id | ∃ n, g.nodeAt id = some n ∧ p n = true} =
      ((((g.allNodes ord).map g.node).filter p).map Node.id).toFinset := by
    ext id
    simp only [Set.mem_ofPred_eq, List.coe_toFinset, List.mem_map (f := Node.id), List.mem_filter,
      hg.mem_allNodes ord]
    constructor
    · rintro ⟨n, hn, hp⟩
      obtain rfl := hg.nodes.id_eq hn
      exact ⟨n, ⟨hn, hp⟩, rfl⟩
    · rintro ⟨n, ⟨hn, hp⟩, rfl⟩
      exact ⟨n, hn, hp⟩
  rw [hset, Set.ncard_coe_finset, List.toFinset_card_of_nodup hnodup, List.length_map]

variable {ord : MapOrder} {req : UntestedRequest} {covered : GoMap String Bool}

/-- The candidates that are reached. -/
theorem ncard_covered (hg : g.Weak)
    (hcovered : ∀ id, (covered.lookup id).getD false = true ↔ FromTests g id) :
    {id ∈ candidates g req.filePrefix | FromTests g id}.ncard =
      ((((g.allNodes ord).map g.node).filter (isCandidate req.filePrefix)).filter
        fun n => (covered.lookup n.id).getD false).length := by
  rw [List.filter_filter, length_filter_allNodes hg ord]
  congr 1
  ext id
  constructor
  · rintro ⟨⟨n, hn, hcand⟩, hfrom⟩
    refine ⟨n, hn, Bool.and_eq_true_iff.mpr ⟨?_, hcand⟩⟩
    rw [hg.nodes.id_eq hn]
    exact (hcovered id).mpr hfrom
  · rintro ⟨n, hn, hn'⟩
    rw [Bool.and_eq_true, hg.nodes.id_eq hn] at hn'
    exact ⟨⟨n, hn, hn'.2⟩, (hcovered id).mp hn'.1⟩

/-- **The ratio is the coverage if and only if no candidate that is not covered has too few
callers to be listed.** -/
theorem coverageRatio_eq_iff (hg : g.Weak)
    (hcovered : ∀ id, (covered.lookup id).getD false = true ↔ FromTests g id) :
    (untestedReport ord g req covered).coverageRatio = coverage g req.filePrefix ↔
      ∀ id ∈ candidates g req.filePrefix, ¬FromTests g id → req.minFanIn ≤ fanIn ord g id := by
  set l := ((g.allNodes ord).map g.node).filter (isCandidate req.filePrefix) with hl
  set uncovered := l.filter fun n => !(covered.lookup n.id).getD false with huncovered
  set listed := uncovered.filter fun n => req.minFanIn ≤ (fanIn ord g n.id : ℤ) with hlisted
  have htotal : (candidates g req.filePrefix).ncard = l.length :=
    (length_filter_allNodes hg ord _).symm
  have hsplit : {id ∈ candidates g req.filePrefix | FromTests g id}.ncard + uncovered.length =
      l.length := by
    rw [ncard_covered hg hcovered]
    exact (List.length_eq_length_filter_add fun n : Node => (covered.lookup n.id).getD false).symm
  have hratio : (untestedReport ord g req covered).coverageRatio =
      if 0 < l.length then ((l.length : ℚ) - listed.length) / l.length else 0 := by
    rw [untestedReport]
    simp only [List.length_mergeSort, List.length_map]
    rfl
  -- the condition says that the list leaves nothing out
  have hcond : (∀ id ∈ candidates g req.filePrefix, ¬FromTests g id →
      req.minFanIn ≤ fanIn ord g id) ↔ listed.length = uncovered.length := by
    rw [hlisted, List.length_filter_eq_length_iff]
    constructor
    · intro h n hn
      obtain ⟨hnl, hnot⟩ := List.mem_filter.mp hn
      obtain ⟨hnode, hcand⟩ := List.mem_filter.mp hnl
      refine decide_eq_true (h n.id ⟨n, (hg.mem_allNodes ord).mp hnode, hcand⟩ fun hfrom => ?_)
      rw [(hcovered n.id).mpr hfrom] at hnot
      exact absurd hnot (by decide)
    · rintro h id ⟨n, hn, hcand⟩ hnot
      obtain rfl := hg.nodes.id_eq hn
      refine of_decide_eq_true (h n (List.mem_filter.mpr ⟨List.mem_filter.mpr
        ⟨(hg.mem_allNodes ord).mpr hn, hcand⟩, ?_⟩))
      rw [Bool.eq_false_iff.mpr fun hc => hnot ((hcovered n.id).mp hc), Bool.not_false]
  have hle : listed.length ≤ uncovered.length := List.length_filter_le _ _
  rw [hcond, hratio, coverage, htotal]
  split_ifs with hpos
  · have hne : (l.length : ℚ) ≠ 0 := Nat.cast_ne_zero.mpr hpos.ne'
    rw [div_left_inj' hne, sub_eq_iff_eq_add]
    norm_cast
    omega
  · rw [Nat.eq_zero_of_not_pos hpos, Nat.cast_zero, div_zero]
    exact iff_of_true rfl (by omega)

/-- **The report is right**: the search ends with exactly what the tests reach, and the ratio
is the share of the candidates in it. -/
def ReportsCoverage (ord : MapOrder) (g : Graph) (req : UntestedRequest) : Prop :=
  ∃ rounds covered result,
    (∀ fuel, rounds ≤ fuel → reachableFromTests ord g fuel = some covered ∧
      handleGetUntestedSymbols ord g fuel req = some result) ∧
    (∀ id, (covered.lookup id).getD false = true ↔ FromTests g id) ∧
    result.coverageRatio = coverage g req.filePrefix

/-- **The report is right exactly when every candidate that no test reaches has the callers
asked for.** The set is always right. -/
theorem reportsCoverage_iff (hg : g.Weak) (ord : MapOrder) (req : UntestedRequest) :
    ReportsCoverage ord g req ↔
      ∀ id ∈ candidates g req.filePrefix, ¬FromTests g id → req.minFanIn ≤ fanIn ord g id := by
  constructor
  · rintro ⟨rounds, covered, result, hruns, hcovered, hratio⟩
    obtain ⟨hreach, hresult⟩ := hruns rounds le_rfl
    rw [handleGetUntestedSymbols, hreach, Option.map_some, Option.some_inj] at hresult
    rw [← hresult] at hratio
    exact (coverageRatio_eq_iff hg hcovered).mp hratio
  · intro h
    obtain ⟨rounds, covered, hreach, hcovered⟩ := reachableFromTests_spec hg ord
    refine ⟨rounds, covered, untestedReport ord g req covered, fun fuel hfuel =>
      ⟨hreach fuel hfuel, ?_⟩, hcovered, (coverageRatio_eq_iff hg hcovered).mpr h⟩
    rw [handleGetUntestedSymbols, hreach fuel hfuel, Option.map_some]

namespace Lonely

/-- A function that nothing calls. -/
def helper : Node where
  id := "util.go::helper"
  kind := .kindFunction
  name := "helper"
  filePath := "util.go"

/-- The graph of it. -/
def graph : Graph := Graph.new.putNode helper

theorem weak_graph : graph.Weak := Graph.Weak.new.putNode helper

theorem reportsCoverage_iff_graph :
    ReportsCoverage GoMap.RangeOrder.default graph { minFanIn := 0 } ↔
      ∀ id ∈ candidates graph "", ¬FromTests graph id →
        (0 : ℤ) ≤ fanIn GoMap.RangeOrder.default graph id :=
  reportsCoverage_iff weak_graph GoMap.RangeOrder.default { minFanIn := 0 }

theorem testSymbols_graph : testSymbols GoMap.RangeOrder.default graph = [] := by
  decide +kernel

/-- No function of the graph is a test, so that the share is zero. -/
theorem coverage_graph : coverage graph "" = 0 := by
  have hnone : {id ∈ candidates graph "" | FromTests graph id} = ∅ := by
    rw [Set.eq_empty_iff_forall_notMem]
    rintro id ⟨-, t, ht, -⟩
    have hmem := (mem_testSymbols weak_graph GoMap.RangeOrder.default).mpr ht
    rw [testSymbols_graph] at hmem
    exact absurd hmem List.not_mem_nil
  rw [coverage, hnone, Set.ncard_empty, Nat.cast_zero, zero_div]

/-- **Asked for symbols with a caller, the tool reports that all is covered**, while nothing
is: the function has no caller. -/
theorem not_reportsCoverage_graph :
    ¬ReportsCoverage GoMap.RangeOrder.default graph { minFanIn := 1 } := by
  rintro ⟨rounds, covered, result, hruns, -, hratio⟩
  obtain ⟨hreach, hresult⟩ := hruns (rounds + 1) (Nat.le_succ rounds)
  have hempty : reachableFromTests GoMap.RangeOrder.default graph (rounds + 1) = some ∅ := by
    rw [reachableFromTests, testSymbols_graph, List.foldl_nil,
      Frontier.loop_of_frontier rfl _ (Nat.le_add_left 1 rounds)]
    rfl
  have hone : (untestedReport GoMap.RangeOrder.default graph { minFanIn := 1 } ∅).coverageRatio =
      1 := by
    decide +kernel
  rw [handleGetUntestedSymbols, hempty, Option.map_some, Option.some_inj] at hresult
  rw [← hresult, hone, coverage_graph] at hratio
  exact absurd hratio one_ne_zero

end Lonely

end Mcp

end Gortex
