import Mathlib.Data.Set.Card
import Mathlib.Order.Interval.Finset.Nat
import Gortex.Analysis.Processes
import Gortex.Lib.Levels

/-!
# Impact analysis

`internal/analysis/impact.go`: what depends on some symbols, by how many edges away it is. The
search goes against the edges, level by level, from all symbols at once, and through any
node; the nodes it reports are the symbols among them. `Gortex.Analysis.analyzeImpact_byDepth`
says which these are.
-/

namespace Gortex

namespace Analysis

open GoString

/-! ### The model -/

/-- How severe a change is. -/
inductive RiskLevel
  | riskLow
  | riskMedium
  | riskHigh
  | riskCritical
deriving DecidableEq

/-- The name of a level, as the source writes it. -/
def RiskLevel.str : RiskLevel → String
  | riskLow => "LOW"
  | riskMedium => "MEDIUM"
  | riskHigh => "HIGH"
  | riskCritical => "CRITICAL"

/-- A symbol that is affected. -/
structure ImpactEntry where
  id : String
  name : String
  kind : NodeKind
  filePath : String
  line : ℤ
  repoPrefix : String
  edgeConfidence : ℚ
  confidenceLabel : String
deriving DecidableEq

/-- The result of the analysis. -/
structure ImpactResult where
  risk : RiskLevel
  summary : String
  byDepth : GoMap ℕ (List ImpactEntry)
  affectedProcesses : List String
  affectedCommunities : List String
  testFiles : List String
  totalAffected : ℕ
  crossRepoImpact : Bool
  byRepo : GoMap String (List ImpactEntry)

/-- The label of an edge by its kind and confidence. -/
def confidenceLabelFor (kind : EdgeKind) (confidence : ℚ) : String :=
  if kind ∈ [.edgeDefines, .edgeImports, .edgeExtends, .edgeMemberOf, .edgeImplements,
      .edgeProvides, .edgeConsumes, .edgeMatches] then "EXTRACTED"
  else if 9 / 10 ≤ confidence then "EXTRACTED"
  else if 1 / 2 ≤ confidence then "INFERRED"
  else if 0 < confidence then "AMBIGUOUS"
  else "INFERRED"

/-- Whether a path is that of a test. -/
def isTestFile (path : String) : Bool :=
  ["_test.go", ".test.ts", ".test.js", ".spec.ts", ".spec.js", "__tests__/", "test_"].any
    fun p => contains path p

/-- The risk of a change. -/
def assessRisk (directDeps transitiveDeps : ℕ) : RiskLevel :=
  if 10 ≤ directDeps ∨ 5 ≤ directDeps ∧ 20 ≤ transitiveDeps then .riskCritical
  else if 5 ≤ directDeps ∨ 10 ≤ transitiveDeps then .riskHigh
  else if 2 ≤ directDeps ∨ 5 ≤ transitiveDeps then .riskMedium
  else .riskLow

/-- The state of the search. -/
structure Search where
  visited : GoMap String Bool
  current : List String
  next : List String
  byDepth : GoMap ℕ (List ImpactEntry)
  testFiles : List String

/-- An edge that is structural is skipped. -/
def structural (e : Edge) : Bool := e.kind = .edgeDefines ∨ e.kind = .edgeMemberOf

/-- The entry for the source of an edge, if it is a symbol. -/
def entryFor (g : Graph) (e : Edge) : Option ImpactEntry :=
  (g.nodeAt e.fromID).bind fun n =>
    if n.kind = .kindFile ∨ n.kind = .kindImport then none
    else some
      { id := n.id
        name := n.name
        kind := n.kind
        filePath := n.filePath
        line := n.startLine
        repoPrefix := n.repoPrefix
        edgeConfidence := e.confidence
        confidenceLabel := confidenceLabelFor e.kind e.confidence }

/-- Note an edge into a node of the level. -/
def noteDependent (g : Graph) (depth : ℕ) (s : Search) (e : Edge) : Search :=
  if has s.visited e.fromID = true then s
  else if structural e = true then s
  else
    let entries := (entryFor g e).toList
    { visited := s.visited.insert e.fromID true
      current := s.current
      next := s.next ++ [e.fromID]
      byDepth := entries.foldl (fun m entry => Grouped.push m depth entry) s.byDepth
      testFiles := s.testFiles ++
        (entries.filter fun entry => isTestFile entry.filePath).map ImpactEntry.filePath }

/-- One level of the search. -/
def level (g : Graph) (s : Search) (depth : ℕ) : Search :=
  let s' := s.current.foldl (fun s id =>
    ((g.getInEdges id).map g.edge).foldl (noteDependent g depth) s) { s with next := [] }
  { s' with current := s'.next }

/-- The start of the search. -/
def searchFrom (symbolIDs : List String) : Search where
  visited := symbolIDs.foldl (fun m id => m.insert id true) ∅
  current := symbolIDs
  next := []
  byDepth := ∅
  testFiles := []

/-- The three levels. -/
def search (g : Graph) (symbolIDs : List String) : Search :=
  [1, 2, 3].foldl (level g) (searchFrom symbolIDs)

/-- The names in a set, sorted. -/
def sortedKeys (names : List String) : List String :=
  (names.foldl (fun (m : GoMap String Bool) name => m.insert name true) ∅).keys.mergeSort
    fun a b => a ≤ b

/-- **AnalyzeImpact.** -/
def analyzeImpact (g : Graph) (symbolIDs : List String) (communities : Option CommunityResult)
    (processes : Option ProcessResult) : ImpactResult :=
  let s := search g symbolIDs
  let testFiles := s.testFiles.firsts id
  let entries := [1, 2, 3].flatMap (Grouped.slice s.byDepth)
  let affected := symbolIDs ++ entries.map ImpactEntry.id
  let totalAffected := (s.byDepth.pairs.map fun p => p.2.length).sum
  let d1 := (Grouped.slice s.byDepth 1).length
  let risk := assessRisk d1 (Grouped.slice s.byDepth 2).length
  let ownRepos := symbolIDs.filterMap fun id => (g.nodeAt id).map Node.repoPrefix
  let repos := ((ownRepos ++ entries.map ImpactEntry.repoPrefix).filter fun r => r ≠ "").firsts id
  let byRepo := (entries.filter fun entry => entry.repoPrefix ≠ "").foldl
    (fun m entry => Grouped.push m entry.repoPrefix entry) ∅
  { risk := risk
    summary := d1.repr ++ " direct dependents, " ++ totalAffected.repr ++
      " transitively affected, " ++ testFiles.length.repr ++ " test files, risk: " ++ risk.str
    byDepth := s.byDepth
    affectedProcesses := processes.elim [] fun p =>
      sortedKeys (affected.flatMap (Grouped.slice p.nodeToProcs))
    affectedCommunities := communities.elim [] fun c =>
      sortedKeys (affected.filterMap c.nodeToComm.lookup)
    testFiles := testFiles
    totalAffected := totalAffected
    crossRepoImpact := 1 < repos.length
    byRepo := if 1 < repos.length then byRepo else ∅ }

/-! ### One level -/

variable {g : Graph} {depth : ℕ} {s : Search}

/-- **One node depends on another**: by an edge into that one that is not structural. -/
def DependsOn (g : Graph) (b a : String) : Prop :=
  ∃ e ∈ (g.getInEdges b).map g.edge, structural e = false ∧ e.fromID = a

/-- **What a loop over edges does**: it finds the sources of some of them, each of which is new,
by an edge that is not structural, and leaves no other such source. -/
structure Scan (g : Graph) (depth : ℕ) (s : Search) (edges found : List Edge) (s' : Search) :
    Prop where
  next : s'.next = s.next ++ found.map Edge.fromID
  current : s'.current = s.current
  visited : ∀ id, has s'.visited id = true ↔ has s.visited id = true ∨ id ∈ found.map Edge.fromID
  nodup : (found.map Edge.fromID).Nodup
  fresh : ∀ e ∈ found, e ∈ edges ∧ structural e = false ∧ has s.visited e.fromID = false
  all : ∀ e ∈ edges, structural e = false → has s'.visited e.fromID = true
  slice : ∀ d, Grouped.slice s'.byDepth d =
    if d = depth then Grouped.slice s.byDepth d ++ found.filterMap (entryFor g)
    else Grouped.slice s.byDepth d

theorem has_insert (m : GoMap String Bool) (id x : String) :
    has (m.insert id true) x = true ↔ x = id ∨ has m x = true := by
  rw [has, GoMap.lookup_insert]
  by_cases hx : x = id
  · rw [if_pos hx]
    exact iff_of_true rfl (Or.inl hx)
  · rw [if_neg hx]
    exact (or_iff_right hx).symm

theorem Scan.refl (g : Graph) (depth : ℕ) (s : Search) : Scan g depth s [] [] s where
  next := (List.append_nil _).symm
  current := rfl
  visited := fun _ => (or_iff_left List.not_mem_nil).symm
  nodup := List.nodup_nil
  fresh := fun _ he => absurd he List.not_mem_nil
  all := fun _ he => absurd he List.not_mem_nil
  slice := fun d => by
    rw [List.filterMap_nil, List.append_nil, ite_self]

/-- The turn of an edge. -/
theorem Scan.note {s' : Search} {edges found : List Edge} (h : Scan g depth s edges found s')
    (e : Edge) : ∃ found', Scan g depth s (edges ++ [e]) found' (noteDependent g depth s' e) := by
  unfold noteDependent
  have hmem : ∀ {e' : Edge}, e' ∈ edges → e' ∈ edges ++ [e] := List.mem_append_left _
  by_cases hvisited : has s'.visited e.fromID = true
  · -- the source is known
    rw [if_pos hvisited]
    refine ⟨found, { h with fresh := fun e' he' => ?_, all := fun e' he' hkind => ?_ }⟩
    · exact ⟨hmem (h.fresh e' he').1, (h.fresh e' he').2⟩
    · rcases List.mem_append.mp he' with he' | he'
      · exact h.all e' he' hkind
      · obtain rfl := List.mem_singleton.mp he'
        exact hvisited
  · rw [if_neg hvisited]
    -- a structural edge is passed over
    by_cases hkind : structural e = true
    · rw [if_pos hkind]
      refine ⟨found, { h with fresh := fun e' he' => ?_, all := fun e' he' hkind' => ?_ }⟩
      · exact ⟨hmem (h.fresh e' he').1, (h.fresh e' he').2⟩
      · rcases List.mem_append.mp he' with he' | he'
        · exact h.all e' he' hkind'
        · obtain rfl := List.mem_singleton.mp he'
          exact absurd (hkind.symm.trans hkind') (by simp)
    · rw [if_neg hkind]
      rw [h.visited, not_or] at hvisited
      -- a new dependent is found, marked as visited and listed under the depth
      refine ⟨found ++ [e], ?_⟩
      constructor
      case next => rw [h.next, List.map_append, List.append_assoc, List.map_singleton]
      case current => exact h.current
      case visited =>
        intro id
        rw [has_insert, h.visited, List.map_append, List.mem_append, List.map_singleton,
          List.mem_singleton]
        tauto
      case nodup =>
        rw [List.map_append]
        refine List.nodup_append'.mpr ⟨h.nodup, List.nodup_singleton _, fun x hx hx' => ?_⟩
        exact hvisited.2 (List.mem_singleton.mp hx' ▸ hx)
      case fresh =>
        intro e' he'
        rcases List.mem_append.mp he' with he' | he'
        · exact ⟨hmem (h.fresh e' he').1, (h.fresh e' he').2⟩
        · obtain rfl := List.mem_singleton.mp he'
          exact ⟨List.mem_append_right _ he', by simpa using hkind, by simpa using hvisited.1⟩
      case all =>
        intro e' he' hkind'
        rw [has_insert]
        rcases List.mem_append.mp he' with he' | he'
        · exact Or.inr (h.all e' he' hkind')
        · obtain rfl := List.mem_singleton.mp he'
          exact Or.inl rfl
      case slice =>
        intro d
        have hpush : Grouped.slice ((entryFor g e).toList.foldl
            (fun m entry => Grouped.push m depth entry) s'.byDepth) d =
              if d = depth then Grouped.slice s'.byDepth d ++ (entryFor g e).toList
              else Grouped.slice s'.byDepth d := by
          cases entryFor g e with
          | none => simp
          | some entry =>
            rw [Option.toList_some, List.foldl_cons, List.foldl_nil, Grouped.push,
              Grouped.slice_insert]
            by_cases hd : d = depth
            · rw [if_pos hd, if_pos hd, hd]
            · rw [if_neg hd, if_neg hd]
        refine hpush.trans ?_
        rw [h.slice]
        by_cases hd : d = depth
        · rw [if_pos hd, if_pos hd, if_pos hd, List.filterMap_append, List.append_assoc]
          congr 1
        · rw [if_neg hd, if_neg hd, if_neg hd]

/-- **The loop over edges.** -/
theorem exists_scan (g : Graph) (depth : ℕ) (s : Search) (edges : List Edge) :
    ∃ found, Scan g depth s edges found (edges.foldl (noteDependent g depth) s) := by
  induction edges using List.reverseRecOn with
  | nil => exact ⟨[], Scan.refl g depth s⟩
  | append_singleton edges e ih =>
    obtain ⟨found, hfound⟩ := ih
    rw [List.foldl_append]
    exact hfound.note e

/-! ### The levels -/

/-- A symbol of the graph: neither a file nor an import. -/
def IsSymbol (g : Graph) (id : String) : Prop :=
  ∃ n, g.nodeAt id = some n ∧ n.kind ≠ .kindFile ∧ n.kind ≠ .kindImport

/-- **What is affected at a distance**: the symbols from which the shortest way to one of the
given nodes, along edges that are not structural, has this length. -/
def affected (g : Graph) (symbolIDs : List String) (d : ℕ) : Set String :=
  {id | IsSymbol g id ∧ Levels.Dist (DependsOn g) symbolIDs d id}

/-- The entries for some edges are the symbols among their sources. -/
theorem map_id_entryFor (hg : g.Weak) (found : List Edge) :
    ∃ p : String → Bool, (∀ id, p id = true ↔ IsSymbol g id) ∧
      (found.filterMap (entryFor g)).map ImpactEntry.id = (found.map Edge.fromID).filter p := by
  refine ⟨fun id => (g.nodeAt id).any fun n => n.kind ≠ .kindFile ∧ n.kind ≠ .kindImport,
    fun id => ?_, ?_⟩
  · simp only [Option.any_eq_true, decide_eq_true_eq, IsSymbol]
  · induction found with
    | nil => rfl
    | cons e found ih =>
      rw [List.map_cons, List.filter_cons, List.filterMap_cons, ← ih]
      unfold entryFor
      cases hnode : g.nodeAt e.fromID with
      | none => rfl
      | some n =>
        have hid : n.id = e.fromID := hg.nodes.id_eq hnode
        by_cases hkind : n.kind = .kindFile ∨ n.kind = .kindImport
        · rw [Option.bind_some, if_pos hkind, if_neg]
          simp only [Option.any_some, decide_eq_true_eq]
          tauto
        · rw [Option.bind_some, if_neg hkind, if_pos]
          · rw [List.map_cons, hid]
          · simp only [Option.any_some, decide_eq_true_eq]
            tauto

/-- **The search after some levels**: the last one is current, and each is listed at its depth. -/
structure Search.At (g : Graph) (symbolIDs : List String) (n : ℕ) (s : Search) : Prop where
  current : ∀ id, id ∈ s.current ↔ Levels.Dist (DependsOn g) symbolIDs n id
  visited : ∀ id, has s.visited id = true ↔ ∃ m ≤ n, Levels.Dist (DependsOn g) symbolIDs m id
  nodup : ∀ d, ((Grouped.slice s.byDepth d).map ImpactEntry.id).Nodup
  listed : ∀ d id, id ∈ (Grouped.slice s.byDepth d).map ImpactEntry.id ↔
    1 ≤ d ∧ d ≤ n ∧ id ∈ affected g symbolIDs d

theorem Search.At.start (g : Graph) (symbolIDs : List String) :
    (searchFrom symbolIDs).At g symbolIDs 0 where
  current := fun _ => Levels.dist_zero.symm
  visited := by
    intro id
    have hvisited : has (searchFrom symbolIDs).visited id = true ↔ id ∈ symbolIDs := by
      have hread := List.foldl_write (fun (m : GoMap String Bool) id => has m id) (fun _ => true)
        (f := fun m id => m.insert id true) (fun m a k => ?_) (fun _ => rfl) symbolIDs ∅ id
      · rw [searchFrom, hread]
        by_cases hid : id ∈ symbolIDs
        · rw [if_pos hid]
          exact iff_of_true rfl hid
        · rw [if_neg hid]
          exact iff_of_false (by simp [has]) hid
      · rw [has, GoMap.lookup_insert]
        split <;> rfl
    rw [hvisited, ← Levels.dist_zero (R := DependsOn g)]
    constructor
    · exact fun h => ⟨0, le_rfl, h⟩
    · rintro ⟨m, hm, h⟩
      obtain rfl : m = 0 := by omega
      exact h
  nodup := fun _ => List.nodup_nil
  listed := by
    intro d id
    refine iff_of_false List.not_mem_nil ?_
    rintro ⟨h1, h0, -⟩
    omega

/-- **One more level.** -/
theorem Search.At.level (hg : g.Weak) {symbolIDs : List String} {n : ℕ}
    (h : s.At g symbolIDs n) : (level g s (n + 1)).At g symbolIDs (n + 1) := by
  obtain ⟨found, hscan⟩ := exists_scan g (n + 1) { s with next := [] }
    (s.current.flatMap fun id => (g.getInEdges id).map g.edge)
  rw [List.foldl_flatMap] at hscan
  -- what is found is the next level
  have hfound : ∀ id, id ∈ found.map Edge.fromID ↔
      Levels.Dist (DependsOn g) symbolIDs (n + 1) id := by
    intro id
    rw [Levels.dist_succ, ← h.visited]
    constructor
    · intro hid
      obtain ⟨e, he, rfl⟩ := List.mem_map.mp hid
      obtain ⟨hin, hkind, hnew⟩ := hscan.fresh e he
      obtain ⟨b, hb, hedge⟩ := List.mem_flatMap.mp hin
      refine ⟨⟨b, (h.current b).mp hb, e, hedge, hkind, rfl⟩, fun hc => ?_⟩
      exact absurd (hnew.symm.trans hc) Bool.false_ne_true
    · rintro ⟨⟨b, hb, e, hedge, hkind, rfl⟩, hnew⟩
      have hin := hscan.all e (List.mem_flatMap.mpr ⟨b, (h.current b).mpr hb, hedge⟩) hkind
      exact ((hscan.visited _).mp hin).resolve_left hnew
  obtain ⟨p, hp, hids⟩ := map_id_entryFor hg found
  have hnone : Grouped.slice s.byDepth (n + 1) = [] := by
    refine List.eq_nil_iff_forall_not_mem.mpr fun entry hentry => ?_
    have := (h.listed (n + 1) entry.id).mp (List.mem_map_of_mem hentry)
    omega
  constructor
  case current =>
    intro id
    rw [← hfound]
    exact (congrArg (id ∈ ·) hscan.next).to_iff
  case visited =>
    intro id
    refine (hscan.visited id).trans ?_
    rw [hfound, h.visited]
    constructor
    · rintro (⟨m, hm, hdist⟩ | hdist)
      · exact ⟨m, by omega, hdist⟩
      · exact ⟨n + 1, le_rfl, hdist⟩
    · rintro ⟨m, hm, hdist⟩
      rcases Nat.le_succ_iff.mp hm with hm | rfl
      · exact Or.inl ⟨m, hm, hdist⟩
      · exact Or.inr hdist
  case nodup =>
    intro d
    refine (congrArg (fun l => (List.map ImpactEntry.id l).Nodup) (hscan.slice d)).mpr ?_
    by_cases hd : d = n + 1
    · rw [if_pos hd, hd]
      simp only [hnone, List.nil_append, hids]
      exact hscan.nodup.filter p
    · rw [if_neg hd]
      exact h.nodup d
  case listed =>
    intro d id
    refine (congrArg (fun l => id ∈ List.map ImpactEntry.id l) (hscan.slice d)).to_iff.trans ?_
    by_cases hd : d = n + 1
    · rw [if_pos hd, hd]
      simp only [hnone, List.nil_append, hids, List.mem_filter, hp, hfound]
      constructor
      · exact fun hin => ⟨Nat.succ_pos n, le_rfl, hin.2, hin.1⟩
      · exact fun hin => ⟨hin.2.2.2, hin.2.2.1⟩
    · rw [if_neg hd]
      refine (h.listed d id).trans ?_
      constructor
      · exact fun hin => ⟨hin.1, by omega, hin.2.2⟩
      · exact fun hin => ⟨hin.1, by omega, hin.2.2⟩

theorem at_search (hg : g.Weak) (symbolIDs : List String) :
    (search g symbolIDs).At g symbolIDs 3 :=
  (((Search.At.start g symbolIDs).level hg).level hg).level hg

/-- What is counted. -/
theorem Search.At.total_eq {symbolIDs : List String} (h : s.At g symbolIDs 3) :
    (s.byDepth.pairs.map fun p => p.2.length).sum =
      ∑ d ∈ Finset.Icc 1 3, (affected g symbolIDs d).ncard := by
  have hlength : ∀ d, (s.byDepth.lookup d).elim 0 List.length =
      (Grouped.slice s.byDepth d).length := fun d => by
    rw [Grouped.slice]
    cases s.byDepth.lookup d <;> rfl
  have hcard : ∀ d ∈ Finset.Icc 1 3,
      (Grouped.slice s.byDepth d).length = (affected g symbolIDs d).ncard := by
    intro d hd
    obtain ⟨h1, h3⟩ := Finset.mem_Icc.mp hd
    have hset : affected g symbolIDs d =
        ((Grouped.slice s.byDepth d).map ImpactEntry.id).toFinset := by
      ext id
      rw [List.coe_toFinset, Set.mem_ofPred_eq, h.listed]
      exact ⟨fun hid => ⟨h1, h3, hid⟩, fun hid => hid.2.2⟩
    rw [hset, Set.ncard_coe_finset, List.toFinset_card_of_nodup (h.nodup d), List.length_map]
  have hsum := GoMap.sum_pairs_elim (List.Perm.refl s.byDepth.pairs)
    (S := Finset.Icc 1 3 ∪ s.byDepth.keys.toFinset) (fun d entries hd => ?_)
    (fun _ entries => entries.length)
  · rw [hsum, ← Finset.sum_subset Finset.subset_union_left fun d _ hd => ?_]
    · exact Finset.sum_congr rfl fun d hd => (hlength d).trans (hcard d hd)
    · -- at no other depth there is an entry
      refine (hlength d).trans (List.length_eq_zero_iff.mpr ?_)
      refine List.eq_nil_iff_forall_not_mem.mpr fun entry hentry => hd ?_
      have := (h.listed d entry.id).mp (List.mem_map_of_mem hentry)
      exact Finset.mem_Icc.mpr ⟨this.1, this.2.1⟩
  · refine Finset.mem_union_right _ (List.mem_toFinset.mpr ?_)
    rw [← AList.mem_keys, ← AList.lookup_isSome, hd]
    rfl

/-- **Impact by distance**: at the depths one to three are listed, each once, the symbols that
depend on the given ones at this distance, and they are what is counted. -/
theorem analyzeImpact_byDepth (g : Graph) (hg : g.Weak) (symbolIDs : List String)
    (communities : Option CommunityResult) (processes : Option ProcessResult) :
    (∀ d, 1 ≤ d → d ≤ 3 →
      (((Grouped.slice (analyzeImpact g symbolIDs communities processes).byDepth d).map
          ImpactEntry.id).Nodup ∧
        {id | id ∈ (Grouped.slice (analyzeImpact g symbolIDs communities processes).byDepth d).map
          ImpactEntry.id} = affected g symbolIDs d)) ∧
      (analyzeImpact g symbolIDs communities processes).totalAffected =
        ∑ d ∈ Finset.Icc 1 3, (affected g symbolIDs d).ncard := by
  have hat := at_search hg symbolIDs
  have hset : ∀ d, 1 ≤ d → d ≤ 3 →
      {id | id ∈ (Grouped.slice (search g symbolIDs).byDepth d).map ImpactEntry.id} =
        affected g symbolIDs d := by
    intro d h1 h3
    ext id
    rw [Set.mem_ofPred_eq, hat.listed]
    constructor
    · exact fun h => h.2.2
    · exact fun h => ⟨h1, h3, h⟩
  refine ⟨fun d h1 h3 => ⟨hat.nodup d, hset d h1 h3⟩, ?_⟩
  exact hat.total_eq

namespace Recursive

theorem weak_graph : graph.Weak :=
  ((((((Graph.Weak.new.putNode _).putNode _).putNode _).putEdge _).putEdge _).putEdge _)

/-- The third function is instantiated by the second one, which the first one calls. -/
theorem analyzeImpact_byDepth_graph :
    (∀ d, 1 ≤ d → d ≤ 3 →
      (((Grouped.slice (analyzeImpact graph ["c"] none none).byDepth d).map
          ImpactEntry.id).Nodup ∧
        {id | id ∈ (Grouped.slice (analyzeImpact graph ["c"] none none).byDepth d).map
          ImpactEntry.id} = affected graph ["c"] d)) ∧
      (analyzeImpact graph ["c"] none none).totalAffected =
        ∑ d ∈ Finset.Icc 1 3, (affected graph ["c"] d).ncard :=
  analyzeImpact_byDepth graph weak_graph ["c"] none none

example : (Grouped.slice (analyzeImpact graph ["c"] none none).byDepth 2).map ImpactEntry.id =
    ["a"] := by
  decide +kernel

end Recursive

end Analysis

end Gortex
