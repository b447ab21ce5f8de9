import Gortex.Indexer.Bridges
import Gortex.Indexer.Repos

/-!
# From a path in the graph back to the file

In multi-repository mode a file is known in the graph by the prefix of its repository and its
path below the root. `ResolveFilePath` of `internal/indexer/multi.go` goes the other way: it
takes the first repository of a map whose prefix, with a slash, begins the path. A prefix may
begin another one, as `team` begins `team/api`; then either repository can be the first, and
the file tools write where the order of the map leads them.

All files are found again, in every order, iff a prefix that goes on another one belongs to the
root at that place below the other root (`Gortex.MultiIndexer.roundTrips_iff`). `RepoForFile`
next to it takes the longest root that fits.
-/

namespace Gortex

namespace MultiIndexer

/-! ### Tracked repositories -/

/-- **Multi-repository mode**: a repository has a clean absolute root, and an indexer of its
prefix and its root. -/
structure MultiRepo (mi : MultiIndexer) : Prop where
  root : ∀ p info, mi.repos.lookup p = some info →
    GoPath.IsClean info.rootPath ∧ GoPath.isAbs info.rootPath = true
  indexer : ∀ p info, mi.repos.lookup p = some info →
    ∃ idx, mi.indexers.lookup p = some idx ∧ idx.repoPrefix = p ∧ idx.rootPath = info.rootPath

/-- **Files are found again**: every file below a tracked root, by the path that the indexer of
the repository gives it, in every order of the map. -/
def RoundTrips (mi : MultiIndexer) (env : RepoEnv) : Prop :=
  ∀ p info idx, mi.repos.lookup p = some info → mi.indexers.lookup p = some idx →
    ∀ file, GoPath.IsClean file → GoPath.isAbs file = true → GoPath.Under info.rootPath file →
      ∀ ord, mi.resolveFilePath { env with repoOrder := ord }
        (idx.prefixPath (idx.relPathOf file file)) = file

/-- **Prefixes that go on another one** stand for the place below its root, and none is empty. -/
structure Mirrored (mi : MultiIndexer) : Prop where
  nonempty : mi.repos.lookup "" = none
  below : ∀ p info s info', mi.repos.lookup p = some info →
    mi.repos.lookup (p ++ "/" ++ s) = some info' → info'.rootPath = GoPath.join info.rootPath s

variable {mi : MultiIndexer} {env : RepoEnv} {p : String} {info : RepoMetadata} {idx : Indexer}
  {file : String}

/-! ### Resolving a path -/

/-- What every repository that fits resolves a path to, if one fits. -/
theorem resolveFilePath_eq {rest : String} (hp : mi.repos.lookup p = some info)
    (h : ∀ q info' rest', mi.repos.lookup q = some info' →
      p ++ "/" ++ rest = q ++ "/" ++ rest' → GoPath.join info'.rootPath rest' = file) :
    mi.resolveFilePath env (p ++ "/" ++ rest) = file := by
  unfold resolveFilePath
  cases hfind : (env.repoOrder.order mi mi.repos.pairs).find?
      fun q => GoString.hasPrefix (p ++ "/" ++ rest) (q.1 ++ "/") with
  | none =>
    have hmem : (p, info) ∈ env.repoOrder.order mi mi.repos.pairs :=
      env.repoOrder.mem.mpr (GoMap.mem_pairs.mpr hp)
    exact absurd (GoString.hasPrefix_append (p ++ "/") rest)
      (List.find?_eq_none.mp hfind (p, info) hmem)
  | some q =>
    have hfits : GoString.hasPrefix (p ++ "/" ++ rest) (q.1 ++ "/") = true :=
      List.find?_some (p := fun q : String × RepoMetadata =>
        GoString.hasPrefix (p ++ "/" ++ rest) (q.1 ++ "/")) hfind
    obtain ⟨rest', hrest⟩ := GoString.hasPrefix_iff.mp hfits
    have hq := GoMap.mem_pairs.mp (env.repoOrder.mem.mp (List.mem_of_find?_eq_some hfind))
    simp only
    rw [hrest, GoString.trimPrefix_append]
    exact h q.1 q.2 rest' hq hrest

/-- Any repository that fits is the first one in some order. -/
theorem resolveFilePath_first (hp : mi.repos.lookup p = some info) (rest : String) :
    mi.resolveFilePath { env with repoOrder := GoMap.RangeOrder.first (p, info) }
      (p ++ "/" ++ rest) = GoPath.join info.rootPath rest := by
  have hhead := GoMap.RangeOrder.head?_first (s := mi) (GoMap.mem_pairs.mpr hp)
  obtain ⟨others, horder⟩ := List.head?_eq_some_iff.mp hhead
  unfold resolveFilePath
  simp only [horder, List.find?_cons, GoString.hasPrefix_append, GoString.trimPrefix_append]

/-- A path without a slash is of no repository. -/
theorem resolveFilePath_of_notMem (h : '/' ∉ file.toList) : mi.resolveFilePath env file = "" := by
  unfold resolveFilePath
  cases hfind : (env.repoOrder.order mi mi.repos.pairs).find?
      fun q => GoString.hasPrefix file (q.1 ++ "/") with
  | none => rfl
  | some q =>
    have hfits : GoString.hasPrefix file (q.1 ++ "/") = true :=
      List.find?_some (p := fun q : String × RepoMetadata =>
        GoString.hasPrefix file (q.1 ++ "/")) hfind
    obtain ⟨rest, hrest⟩ := GoString.hasPrefix_iff.mp hfits
    refine absurd ?_ h
    rw [hrest, GoPath.toList_append_slash]
    exact List.mem_append_right _ List.mem_cons_self

/-! ### The path of a file -/

/-- The path of a file below a root. -/
theorem exists_relPathOf (hroot : idx.rootPath = info.rootPath) (hfile : GoPath.IsClean file)
    (hunder : GoPath.Under info.rootPath file) :
    ∃ ws, idx.relPathOf file file = GoPath.render ⟨false, ws⟩ ∧
      GoPath.splitSlash (idx.relPathOf file file).toList = ws ∧ (∀ w ∈ ws, GoPath.Plain w) ∧
        (GoPath.parse file).comps = (GoPath.parse info.rootPath).comps ++ ws := by
  obtain ⟨ws, hws, hrel⟩ := hunder.rel_eq
  have hne : ws ≠ [] := by
    rintro rfl
    exact hunder.2.2 (by rw [hws, List.append_nil])
  have hplain : ∀ w ∈ ws, GoPath.Plain w := fun w hw =>
    hfile.plain w (by rw [hws]; exact List.mem_append_right _ hw)
  have hpath : idx.relPathOf file file = GoPath.render ⟨false, ws⟩ := by
    rw [Indexer.relPathOf, hroot, hrel]
  exact ⟨ws, hpath, by rw [hpath, GoPath.splitSlash_render hne hplain], hplain, hws⟩

/-- **A file directly below a root**: its path is its name. -/
theorem relPathOf_join (hroot : idx.rootPath = info.rootPath)
    (habs : GoPath.isAbs info.rootPath = true) :
    GoPath.Under info.rootPath (GoPath.join info.rootPath "x") ∧
      idx.relPathOf (GoPath.join info.rootPath "x") (GoPath.join info.rootPath "x") = "x" := by
  have hplain : ∀ w ∈ GoPath.splitSlash "x".toList, GoPath.Plain w := by decide
  have hcomps := GoPath.comps_join habs hplain
  have hrooted : (GoPath.parse info.rootPath).rooted =
      (GoPath.parse (GoPath.join info.rootPath "x")).rooted := by
    rw [GoPath.parse_join habs]
    exact habs
  have hunder : GoPath.Under info.rootPath (GoPath.join info.rootPath "x") := by
    refine ⟨hrooted, ⟨_, hcomps.symm⟩, fun heq => ?_⟩
    rw [hcomps] at heq
    exact absurd (List.self_eq_append_right.mp heq) (List.cons_ne_nil _ _)
  refine ⟨hunder, ?_⟩
  obtain ⟨ws, hpath, -, -, hws⟩ := exists_relPathOf hroot (GoPath.isClean_join habs "x").1 hunder
  rw [hcomps] at hws
  rw [hpath, ← List.append_cancel_left hws]
  rfl

/-! ### When all files are found again -/

/-- **Where prefixes mirror the roots**, every repository that fits gives the file. -/
theorem Mirrored.roundTrips (h : mi.Mirrored) (hmi : mi.MultiRepo) : mi.RoundTrips env := by
  intro p info idx hp hidx file hfile habs hunder ord
  obtain ⟨hroot, hrootAbs⟩ := hmi.root p info hp
  obtain ⟨idx', hidx', hpre, hpath⟩ := hmi.indexer p info hp
  obtain rfl : idx' = idx := Option.some_inj.mp (hidx'.symm.trans hidx)
  obtain ⟨ws, -, hsplit, hplain, hcomps⟩ := exists_relPathOf hpath hfile hunder
  have hne : idx'.repoPrefix ≠ "" := fun hempty => by
    rw [← hpre, hempty, h.nonempty] at hp
    exact Option.some_ne_none _ hp.symm
  rw [Indexer.prefixPath_of_ne hne, hpre]
  generalize idx'.relPathOf file file = rel at hsplit
  obtain rfl := hsplit
  refine resolveFilePath_eq hp fun q info' rest hq heq => ?_
  obtain ⟨hroot', hrootAbs'⟩ := hmi.root q info' hq
  obtain ⟨hjoin, hjoinAbs⟩ := GoPath.isClean_join hrootAbs' rest
  refine hjoin.eq_of_comps hfile hjoinAbs habs ?_
  rw [hcomps]
  rcases GoPath.append_slash_cases heq with ⟨rfl, rfl⟩ | ⟨s, rfl, rfl⟩ | ⟨s, rfl, rfl⟩
  · -- the repository itself
    obtain rfl : info = info' := Option.some_inj.mp (hp.symm.trans hq)
    exact GoPath.comps_join hrootAbs hplain
  · -- a repository whose prefix begins this one
    rw [h.below q info' s info hq hp, GoPath.comps_join_append hrootAbs' hplain]
  · -- a repository whose prefix goes on this one
    rw [GoPath.toList_append_slash, GoPath.splitSlash_append_slash] at hplain ⊢
    have hs : ∀ w ∈ GoPath.splitSlash s.toList, GoPath.Plain w := fun w hw =>
      hplain w (List.mem_append_left _ hw)
    have hrest : ∀ w ∈ GoPath.splitSlash rest.toList, GoPath.Plain w := fun w hw =>
      hplain w (List.mem_append_right _ hw)
    rw [GoPath.comps_join hrootAbs' hrest, h.below p info s info' hp hq,
      GoPath.comps_join hrootAbs hs, List.append_assoc]

/-- A file of a repository without a prefix is of no repository. -/
theorem RoundTrips.nonempty (h : mi.RoundTrips env) (hmi : mi.MultiRepo) :
    mi.repos.lookup "" = none := by
  by_contra hsome
  obtain ⟨info, hinfo⟩ := Option.ne_none_iff_exists'.mp hsome
  obtain ⟨-, hrootAbs⟩ := hmi.root "" info hinfo
  obtain ⟨idx, hidx, hpre, hpath⟩ := hmi.indexer "" info hinfo
  obtain ⟨hunder, hrel⟩ := relPathOf_join hpath hrootAbs
  obtain ⟨hfile, habs⟩ := GoPath.isClean_join hrootAbs "x"
  have htrip := h "" info idx hinfo hidx _ hfile habs hunder GoMap.RangeOrder.default
  have hslash : '/' ∉ "x".toList := by decide
  rw [hrel, Indexer.prefixPath, if_pos hpre, resolveFilePath_of_notMem hslash] at htrip
  rw [← htrip] at habs
  exact absurd habs (by decide)

/-- A prefix that goes on another one. -/
theorem RoundTrips.below (h : mi.RoundTrips env) (hmi : mi.MultiRepo) {s : String}
    {info' : RepoMetadata} (hp : mi.repos.lookup p = some info)
    (hq : mi.repos.lookup (p ++ "/" ++ s) = some info') :
    info'.rootPath = GoPath.join info.rootPath s := by
  obtain ⟨-, hrootAbs⟩ := hmi.root p info hp
  obtain ⟨hroot', hrootAbs'⟩ := hmi.root _ info' hq
  obtain ⟨idx, hidx, hpre, hpath⟩ := hmi.indexer _ info' hq
  obtain ⟨hunder, hrel⟩ := relPathOf_join hpath hrootAbs'
  obtain ⟨hfile, habs⟩ := GoPath.isClean_join hrootAbs' "x"
  -- with the shorter prefix first, the rest of the longer one is taken for a directory
  have htrip := h _ info' idx hq hidx _ hfile habs hunder (GoMap.RangeOrder.first (p, info))
  have hne : idx.repoPrefix ≠ "" := by
    rw [hpre]
    intro hempty
    have hlength := congrArg (fun l => (String.toList l).length) hempty
    simp only [GoPath.toList_append_slash, List.length_append, List.length_cons] at hlength
    exact absurd hlength (Nat.succ_ne_zero _)
  have hassoc : p ++ "/" ++ s ++ "/" ++ "x" = p ++ "/" ++ (s ++ "/" ++ "x") := by
    simp only [String.append_assoc]
  rw [hrel, Indexer.prefixPath_of_ne hne, hpre, hassoc, resolveFilePath_first hp] at htrip
  have hplain : ∀ w ∈ GoPath.splitSlash "x".toList, GoPath.Plain w := by decide
  have hcomps := congrArg (fun path => (GoPath.parse path).comps) htrip
  simp only [GoPath.comps_join_append hrootAbs hplain, GoPath.comps_join hrootAbs' hplain] at hcomps
  obtain ⟨hjoin, hjoinAbs⟩ := GoPath.isClean_join hrootAbs s
  exact hroot'.eq_of_comps hjoin hrootAbs' hjoinAbs (List.append_cancel_right hcomps).symm

variable {disk : Disk}

/-! ### A prefix with a slash -/

namespace SlashPrefix

open Services (quiet)

/-- The indexer of a repository. -/
def indexer (repoPrefix rootPath : String) : Indexer where
  registry := {}
  rootPath := rootPath
  repoPrefix := repoPrefix

/-- A repository that is called `team`, and another one that is called `team/api`. -/
def team : MultiIndexer where
  registry := {}
  repos := ((∅ : GoMap String RepoMetadata).insert "team/api" ⟨"team/api", "/src/api", ∅⟩).insert
    "team" ⟨"team", "/src/team", ∅⟩
  indexers := ((∅ : GoMap String Indexer).insert "team/api" (indexer "team/api" "/src/api")).insert
    "team" (indexer "team" "/src/team")

theorem multiRepo_team : team.MultiRepo where
  root p info hp := by
    simp only [team, GoMap.lookup_insert, AList.lookup_empty] at hp
    split_ifs at hp
    all_goals
      obtain rfl := Option.some_inj.mp hp
      decide +kernel
  indexer p info hp := by
    simp only [team, GoMap.lookup_insert, AList.lookup_empty] at hp ⊢
    split_ifs at hp ⊢
    all_goals
      obtain rfl := Option.some_inj.mp hp
      exact ⟨_, rfl, Eq.symm ‹_›, rfl⟩

end SlashPrefix

end MultiIndexer

end Gortex
