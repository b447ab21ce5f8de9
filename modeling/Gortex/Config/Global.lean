import Gortex.Lib.Grouped
import Gortex.Lib.GoPath

/-!
# The configuration of the user

`internal/config/global.go`: the repositories that are listed at the top and in each project,
and the checks, additions and removals on them. A repository is called by its name, or by the
last component of its path, and `Validate` asks that no two of a list are called alike.
`AddRepo` looks at the paths only. An entry of a path that is listed already is skipped; any
other one is appended, and removing it gives back the configuration as it was
(`Gortex.GlobalConfig.addsEntry`).
-/

namespace Gortex

/-! ### Entries -/

/-- A repository as the configuration lists it. -/
structure RepoEntry where
  path : String
  name : String := ""
  exclude : List String := []
deriving DecidableEq, Repr

/-- An entry of the configuration, with the ref that the filter reads. -/
structure RefEntry extends RepoEntry where
  ref : String := ""
deriving DecidableEq, Repr

/-- The configuration of the user: the repositories of each project, and those at the top. -/
structure GlobalConfig where
  projects : GoMap String (List RefEntry)
  repos : List RefEntry

/-- **ResolvePrefix**: what a repository is called. -/
def resolvePrefix (entry : RepoEntry) : String :=
  if entry.name ≠ "" then entry.name else GoPath.base entry.path

/-- Add a repository to the list, unless one of its path is there. -/
def addRepo (cwd : String) (repos : List RepoEntry) (entry : RepoEntry) : List RepoEntry :=
  let absPath := GoPath.abs cwd entry.path
  if absPath ∈ repos.map fun r => GoPath.abs cwd r.path then repos
  else repos ++ [{ entry with path := absPath }]

/-- Remove the first repository of a path from the list. -/
def removeRepo (cwd : String) (repos : List RepoEntry) (path : String) : List RepoEntry :=
  repos.eraseP fun r => GoPath.abs cwd r.path = GoPath.abs cwd path

/-- The repositories of a project, or those at the top for no project. -/
def GlobalConfig.resolveRepos (gc : GlobalConfig) (ord : GoMap.RangeOrder GlobalConfig)
    (quote : String → String) (projectName : String) : Except String (List RefEntry) :=
  if projectName = "" then .ok gc.repos
  else
    match gc.projects.lookup projectName with
    | some repos => .ok repos
    | none =>
      let available := (ord.order gc gc.projects.pairs).map Prod.fst
      .error ("project not found: " ++ quote projectName ++ " (available: " ++
        ", ".intercalate available ++ ")")

/-- A working directory, which is an absolute path. -/
structure WorkDir where
  path : String
  isAbs : GoPath.isAbs path = true

section

variable (getwd : Except String WorkDir)

/-- `filepath.Abs`, which asks for the working directory where the path is relative. -/
def absPath (p : String) : Except String String :=
  if GoPath.isAbs p = true then .ok (GoPath.clean p)
  else getwd.map fun wd => GoPath.join wd.path p

/-- The absolute path, or the path itself where there is none. -/
def normalizePath (p : String) : String :=
  match absPath getwd p with
  | .ok abs => abs
  | .error _ => p

/-! ### Validate -/

/-- `projectNameRe`: letters, digits, hyphens and underscores. -/
def projectNameRe (name : String) : Bool :=
  name.toList ≠ [] ∧ name.toList.all fun c => c.isAlphanum || c = '_' || c = '-'

/-- One entry of the loop over a list: the first path of every prefix, and the errors so far. -/
def checkPrefix (quote : String → String) (s : GoMap String String × List String)
    (e : RefEntry) : GoMap String String × List String :=
  match s.1.lookup (resolvePrefix e.toRepoEntry) with
  | some firstPath =>
    (s.1, s.2 ++ ["duplicate repo prefix " ++ quote (resolvePrefix e.toRepoEntry) ++ ": " ++
      firstPath ++ " and " ++ e.path])
  | none => (s.1.insert (resolvePrefix e.toRepoEntry) e.path, s.2)

/-- The entries that are called as one before them. -/
def checkDuplicatePrefixes (quote : String → String) (entries : List RefEntry) : List String :=
  (entries.foldl (checkPrefix quote) (∅, [])).2

/-- A repository of a project, and what it is called there. -/
structure NameInfo where
  project : String
  name : String

variable (ord : GoMap.RangeOrder ℕ) (quote : String → String)

/-- The repositories of the projects, by their absolute path. -/
def pathNames (projects : GoMap String (List RefEntry)) : GoMap String (List NameInfo) :=
  (ord.order 2 projects.pairs).foldl (fun m p => p.2.foldl (fun m e =>
    Grouped.push m (normalizePath getwd e.path) ⟨p.1, resolvePrefix e.toRepoEntry⟩) m) ∅

/-- The repositories that are called differently in two places. -/
def checkConflictingNameOverrides (projects : GoMap String (List RefEntry)) : List String :=
  (ord.order 3 (pathNames getwd ord projects).pairs).flatMap fun p =>
    match p.2 with
    | [] => []
    | first :: infos => (infos.filter fun info => info.name ≠ first.name).map fun info =>
      "conflicting name overrides for repo " ++ p.1 ++ ": project " ++ quote first.project ++
        " uses " ++ quote first.name ++ ", project " ++ quote info.project ++ " uses " ++
        quote info.name

/-- What is wrong with a configuration. -/
def GlobalConfig.errors (gc : GlobalConfig) : List String :=
  (((ord.order 0 gc.projects.pairs).filter fun p => projectNameRe p.1 = false).map fun p =>
    "invalid project name " ++ quote p.1 ++
      ": must contain only alphanumeric characters, hyphens, or underscores") ++
  checkDuplicatePrefixes quote gc.repos ++
  ((ord.order 1 gc.projects.pairs).flatMap fun p =>
    (checkDuplicatePrefixes quote p.2).map fun e => "project " ++ quote p.1 ++ ": " ++ e) ++
  checkConflictingNameOverrides getwd ord quote gc.projects

/-- **Validate.** -/
def GlobalConfig.validate (gc : GlobalConfig) : Option String :=
  if gc.errors getwd ord quote = [] then none
  else some ("config validation failed:\n  - " ++
    "\n  - ".intercalate (gc.errors getwd ord quote))

/-! ### AddRepo and RemoveRepo -/

/-- **AddRepo**: the configuration after the call, and the error. -/
def GlobalConfig.addRepo (gc : GlobalConfig) (entry : RefEntry) : GlobalConfig × Option String :=
  match absPath getwd entry.path with
  | .error err => (gc, some ("resolving path " ++ entry.path ++ ": " ++ err))
  | .ok abs =>
    if (gc.repos.any fun existing => normalizePath getwd existing.path = abs) = true then (gc, none)
    else ({ gc with repos := gc.repos ++ [{ entry with path := abs }] }, none)

/-- **RemoveRepo**: the configuration after the call, and the error. -/
def GlobalConfig.removeRepo (gc : GlobalConfig) (path : String) : GlobalConfig × Option String :=
  match absPath getwd path with
  | .error err => (gc, some ("resolving path " ++ path ++ ": " ++ err))
  | .ok abs =>
    if (gc.repos.any fun entry => normalizePath getwd entry.path = abs) = true then
      ({ gc with repos := gc.repos.eraseP fun entry => normalizePath getwd entry.path = abs }, none)
    else (gc, some ("repository not found: " ++ path))

/-! ### Valid configurations -/

theorem foldl_checkPrefix_eq_nil_iff {entries : List RefEntry}
    (s : GoMap String String × List String) :
    (entries.foldl (checkPrefix quote) s).2 = [] ↔
      s.2 = [] ∧ (entries.map fun e => resolvePrefix e.toRepoEntry).Nodup ∧
        ∀ e ∈ entries, s.1.lookup (resolvePrefix e.toRepoEntry) = none := by
  induction entries generalizing s with
  | nil => simp
  | cons e entries ih =>
    rw [List.foldl_cons, ih, checkPrefix]
    cases hseen : s.1.lookup (resolvePrefix e.toRepoEntry) with
    | some firstPath => simp [hseen]
    | none =>
      simp only [GoMap.lookup_insert, List.map_cons, List.nodup_cons, List.mem_map,
        List.mem_cons, forall_eq_or_imp, hseen, true_and, not_exists, not_and]
      constructor
      · rintro ⟨hnil, hnodup, hnone⟩
        refine ⟨hnil, ⟨fun e' he' heq => ?_, hnodup⟩, fun e' he' => ?_⟩
        · have := hnone e' he'
          rw [if_pos heq] at this
          exact Option.some_ne_none _ this
        · have := hnone e' he'
          by_cases heq : resolvePrefix e'.toRepoEntry = resolvePrefix e.toRepoEntry
          · rw [if_pos heq] at this
            exact absurd this (Option.some_ne_none _)
          · rwa [if_neg heq] at this
      · rintro ⟨hnil, ⟨hne, hnodup⟩, hnone⟩
        refine ⟨hnil, hnodup, fun e' he' => ?_⟩
        rw [if_neg (hne e' he')]
        exact hnone e' he'

/-- **No two entries are called alike.** -/
theorem checkDuplicatePrefixes_eq_nil_iff {entries : List RefEntry} :
    checkDuplicatePrefixes quote entries = [] ↔
      (entries.map fun e => resolvePrefix e.toRepoEntry).Nodup := by
  rw [checkDuplicatePrefixes, foldl_checkPrefix_eq_nil_iff]
  simp

/-- What is noted of a path: where the projects list it, and what it is called there. -/
theorem mem_slice_pathNames {projects : GoMap String (List RefEntry)} {abs : String}
    {info : NameInfo} :
    info ∈ Grouped.slice (pathNames getwd ord projects) abs ↔
      ∃ name entries, projects.lookup name = some entries ∧ ∃ e ∈ entries,
        normalizePath getwd e.path = abs ∧ ⟨name, resolvePrefix e.toRepoEntry⟩ = info := by
  have hloop : ∀ (l : List (String × List RefEntry)) (m : GoMap String (List NameInfo)),
      info ∈ Grouped.slice (l.foldl (fun m p => p.2.foldl (fun m e =>
        Grouped.push m (normalizePath getwd e.path) ⟨p.1, resolvePrefix e.toRepoEntry⟩) m) m) abs ↔
      info ∈ Grouped.slice m abs ∨ ∃ p ∈ l, ∃ e ∈ p.2,
        normalizePath getwd e.path = abs ∧ ⟨p.1, resolvePrefix e.toRepoEntry⟩ = info := by
    intro l
    induction l with
    | nil => simp
    | cons p l ih =>
      intro m
      rw [List.foldl_cons, ih, Grouped.mem_slice_foldl_push, or_assoc]
      simp only [List.mem_cons, exists_eq_or_imp]
  rw [pathNames, hloop]
  simp only [Grouped.slice_empty, List.not_mem_nil, false_or, ord.mem, Prod.exists,
    GoMap.mem_pairs]

/-- **A repository is called alike in all projects that list it.** -/
theorem checkConflictingNameOverrides_eq_nil_iff {projects : GoMap String (List RefEntry)} :
    checkConflictingNameOverrides getwd ord quote projects = [] ↔
      ∀ abs, ∀ info ∈ Grouped.slice (pathNames getwd ord projects) abs,
        ∀ info' ∈ Grouped.slice (pathNames getwd ord projects) abs, info.name = info'.name := by
  rw [checkConflictingNameOverrides, List.flatMap_eq_nil_iff]
  simp only [ord.mem, Prod.forall, GoMap.mem_pairs]
  constructor
  · intro h abs
    cases hinfos : (pathNames getwd ord projects).lookup abs with
    | none => simp [Grouped.slice, hinfos]
    | some infos =>
      rw [Grouped.slice, hinfos, Option.getD_some]
      have hnil := h abs infos hinfos
      cases infos with
      | nil => simp
      | cons first infos =>
        -- all are called as the first one
        have hfirst : ∀ info ∈ first :: infos, info.name = first.name := by
          simpa using hnil
        intro info hinfo info' hinfo'
        rw [hfirst info hinfo, hfirst info' hinfo']
  · intro h abs infos hinfos
    have habs := h abs
    rw [Grouped.slice, hinfos, Option.getD_some] at habs
    cases infos with
    | nil => rfl
    | cons first infos =>
      have hfirst : ∀ info ∈ infos, info.name = first.name := fun info hinfo =>
        habs info (List.mem_cons_of_mem first hinfo) first List.mem_cons_self
      simpa using hfirst

/-- **A valid configuration.** -/
structure GlobalConfig.Valid (gc : GlobalConfig) : Prop where
  names : ∀ name entries, gc.projects.lookup name = some entries → projectNameRe name = true
  repos : (gc.repos.map fun e => resolvePrefix e.toRepoEntry).Nodup
  projects : ∀ name entries, gc.projects.lookup name = some entries →
    (entries.map fun e => resolvePrefix e.toRepoEntry).Nodup
  shared : ∀ name entries name' entries', gc.projects.lookup name = some entries →
    gc.projects.lookup name' = some entries' → ∀ e ∈ entries, ∀ e' ∈ entries',
      normalizePath getwd e.path = normalizePath getwd e'.path →
        resolvePrefix e.toRepoEntry = resolvePrefix e'.toRepoEntry

/-- **`Validate` accepts the valid configurations**, in whatever order it goes over the
projects. -/
theorem GlobalConfig.validate_eq_none_iff {gc : GlobalConfig} :
    gc.validate getwd ord quote = none ↔ gc.Valid getwd := by
  rw [GlobalConfig.validate, ite_eq_left_iff]
  simp only [reduceCtorEq, imp_false, not_not, GlobalConfig.errors, List.append_eq_nil_iff,
    List.map_eq_nil_iff, List.filter_eq_nil_iff, List.flatMap_eq_nil_iff, ord.mem, Prod.forall,
    GoMap.mem_pairs, checkDuplicatePrefixes_eq_nil_iff, decide_eq_true_eq,
    Bool.not_eq_false, checkConflictingNameOverrides_eq_nil_iff, mem_slice_pathNames]
  constructor
  · rintro ⟨⟨⟨hnames, hrepos⟩, hprojects⟩, hshared⟩
    refine ⟨hnames, hrepos, hprojects, ?_⟩
    intro name entries name' entries' hname hname' e he e' he' heq
    exact hshared (normalizePath getwd e.path) ⟨name, resolvePrefix e.toRepoEntry⟩
      ⟨name, entries, hname, e, he, rfl, rfl⟩ ⟨name', resolvePrefix e'.toRepoEntry⟩
      ⟨name', entries', hname', e', he', heq.symm, rfl⟩
  · intro h
    refine ⟨⟨⟨h.names, h.repos⟩, h.projects⟩, ?_⟩
    rintro abs info ⟨name, entries, hname, e, he, rfl, rfl⟩ info'
      ⟨name', entries', hname', e', he', heq, rfl⟩
    exact h.shared name entries name' entries' hname hname' e he e' he' heq.symm

/-! ### Adding and removing -/

variable {getwd}

/-- An absolute path is clean. -/
theorem absPath_absPath {p abs : String} (h : absPath getwd p = .ok abs) :
    absPath getwd abs = .ok abs := by
  have hclean : ∃ wd : WorkDir, abs = GoPath.abs wd.path p := by
    unfold absPath at h
    by_cases hp : GoPath.isAbs p = true
    · rw [if_pos hp] at h
      obtain rfl := Except.ok.inj h
      exact ⟨⟨"/", by decide⟩, (if_pos hp).symm⟩
    · rw [if_neg hp] at h
      cases hwd : getwd with
      | error err => rw [hwd] at h; cases h
      | ok wd =>
        rw [hwd] at h
        exact ⟨wd, ((if_neg hp).trans (Except.ok.inj h)).symm⟩
  obtain ⟨wd, rfl⟩ := hclean
  obtain ⟨hc, ha⟩ := GoPath.isClean_abs wd.isAbs p
  rw [absPath, if_pos ha]
  have := GoPath.abs_abs wd.isAbs p
  rw [GoPath.abs, if_pos ha] at this
  rw [this]

theorem normalizePath_absPath {p abs : String} (h : absPath getwd p = .ok abs) :
    normalizePath getwd abs = abs := by
  rw [normalizePath, absPath_absPath h]

variable (getwd)

/-- Whether a path is listed at the top. -/
def GlobalConfig.Tracked (gc : GlobalConfig) (abs : String) : Prop :=
  ∃ existing ∈ gc.repos, normalizePath getwd existing.path = abs

/-- **The configuration stays valid** when an entry is added, and is as it was when the entry is
removed again; it does not change on an error. -/
structure GlobalConfig.StaysValid (gc : GlobalConfig) (entry : RefEntry) : Prop where
  valid : (gc.addRepo getwd entry).2 = none →
    ∀ ord quote, (gc.addRepo getwd entry).1.validate getwd ord quote = none
  removed : (gc.addRepo getwd entry).2 = none →
    (gc.addRepo getwd entry).1.removeRepo getwd entry.path = (gc, none)
  of_error : (gc.addRepo getwd entry).2 ≠ none → (gc.addRepo getwd entry).1 = gc

/-- **What adding an entry does**: nothing on an error, and where its path is listed already. Any
other entry is appended with its absolute path, and removing it gives back the configuration as
it was. The configuration is valid afterwards if nothing at the top is called like the entry. -/
structure GlobalConfig.AddsEntry (gc : GlobalConfig) (entry : RefEntry) : Prop where
  of_error : (gc.addRepo getwd entry).2 ≠ none → (gc.addRepo getwd entry).1 = gc
  of_tracked : ∀ abs, absPath getwd entry.path = .ok abs → gc.Tracked getwd abs →
    gc.addRepo getwd entry = (gc, none)
  of_new : ∀ abs, absPath getwd entry.path = .ok abs → ¬gc.Tracked getwd abs →
    gc.addRepo getwd entry =
      ({ gc with repos := gc.repos ++ [{ entry with path := abs }] }, none)
  removed : ∀ abs, absPath getwd entry.path = .ok abs → ¬gc.Tracked getwd abs →
    (gc.addRepo getwd entry).1.removeRepo getwd entry.path = (gc, none)
  valid : ∀ abs, absPath getwd entry.path = .ok abs →
    resolvePrefix ({ entry with path := abs } : RefEntry).toRepoEntry ∉
      gc.repos.map (fun e => resolvePrefix e.toRepoEntry) →
    ∀ ord quote, (gc.addRepo getwd entry).1.validate getwd ord quote = none

variable {getwd} {gc : GlobalConfig} {entry : RefEntry} {abs : String}

theorem GlobalConfig.any_eq_true_iff :
    (gc.repos.any fun existing => normalizePath getwd existing.path = abs) = true ↔
      gc.Tracked getwd abs := by
  simp [GlobalConfig.Tracked]

theorem GlobalConfig.addRepo_of_tracked (habs : absPath getwd entry.path = .ok abs)
    (h : gc.Tracked getwd abs) : gc.addRepo getwd entry = (gc, none) := by
  rw [GlobalConfig.addRepo, habs]
  exact if_pos (GlobalConfig.any_eq_true_iff.mpr h)

theorem GlobalConfig.addRepo_of_new (habs : absPath getwd entry.path = .ok abs)
    (h : ¬gc.Tracked getwd abs) : gc.addRepo getwd entry =
      ({ gc with repos := gc.repos ++ [{ entry with path := abs }] }, none) := by
  rw [GlobalConfig.addRepo, habs]
  exact if_neg fun hany => h (GlobalConfig.any_eq_true_iff.mp hany)

theorem GlobalConfig.addRepo_of_error (h : (gc.addRepo getwd entry).2 ≠ none) :
    (gc.addRepo getwd entry).1 = gc := by
  cases habs : absPath getwd entry.path with
  | error err =>
    rw [GlobalConfig.addRepo, habs]
  | ok abs =>
    by_cases htracked : gc.Tracked getwd abs
    · rw [GlobalConfig.addRepo_of_tracked habs htracked]
    · rw [GlobalConfig.addRepo_of_new habs htracked] at h
      exact absurd rfl h

theorem GlobalConfig.removeRepo_of_tracked {path : String} (habs : absPath getwd path = .ok abs)
    (h : gc.Tracked getwd abs) : gc.removeRepo getwd path =
      ({ gc with repos := gc.repos.eraseP fun e => normalizePath getwd e.path = abs }, none) := by
  rw [GlobalConfig.removeRepo, habs]
  exact if_pos (GlobalConfig.any_eq_true_iff.mpr h)

/-- **An entry that has been appended is the one that is removed.** -/
theorem GlobalConfig.removeRepo_append (habs : absPath getwd entry.path = .ok abs)
    (h : ¬gc.Tracked getwd abs) :
    GlobalConfig.removeRepo getwd { gc with repos := gc.repos ++ [{ entry with path := abs }] }
      entry.path = (gc, none) := by
  have hlast : normalizePath getwd abs = abs := normalizePath_absPath habs
  have hbefore : ∀ existing ∈ gc.repos, ¬decide (normalizePath getwd existing.path = abs) = true :=
    fun existing hexisting heq => h ⟨existing, hexisting, of_decide_eq_true heq⟩
  have herase : (gc.repos ++ [{ entry with path := abs }]).eraseP
      (fun e => decide (normalizePath getwd e.path = abs)) = gc.repos := by
    have hsingle : [{ entry with path := abs }].eraseP
        (fun e => decide (normalizePath getwd e.path = abs)) = [] :=
      List.eraseP_cons_of_pos (decide_eq_true hlast)
    rw [List.eraseP_append_right _ hbefore, hsingle, List.append_nil]
  have htracked : GlobalConfig.Tracked getwd
      { gc with repos := gc.repos ++ [{ entry with path := abs }] } abs :=
    ⟨{ entry with path := abs }, List.mem_append_right _ (List.mem_singleton_self _), hlast⟩
  rw [GlobalConfig.removeRepo_of_tracked habs htracked, herase]

/-- **What `AddRepo` keeps of a valid configuration.** -/
theorem GlobalConfig.addsEntry (getwd : Except String WorkDir) (ord : GoMap.RangeOrder ℕ)
    (quote : String → String) (gc : GlobalConfig) (entry : RefEntry)
    (hvalid : gc.validate getwd ord quote = none) : gc.AddsEntry getwd entry where
  of_error := GlobalConfig.addRepo_of_error
  of_tracked _ habs htracked := GlobalConfig.addRepo_of_tracked habs htracked
  of_new _ habs hnew := GlobalConfig.addRepo_of_new habs hnew
  removed _ habs hnew := by
    rw [GlobalConfig.addRepo_of_new habs hnew]
    exact GlobalConfig.removeRepo_append habs hnew
  valid abs habs hfresh ord' quote' := by
    have hgc := (GlobalConfig.validate_eq_none_iff getwd ord quote).mp hvalid
    rw [GlobalConfig.validate_eq_none_iff]
    by_cases htracked : gc.Tracked getwd abs
    · rw [GlobalConfig.addRepo_of_tracked habs htracked]
      exact hgc
    · rw [GlobalConfig.addRepo_of_new habs htracked]
      refine { hgc with repos := ?_ }
      rw [List.map_append, List.nodup_append]
      refine ⟨hgc.repos, List.nodup_singleton _, fun name hname other hother heq => ?_⟩
      rw [List.map_singleton, List.mem_singleton] at hother
      rw [heq, hother] at hname
      exact hfresh hname

end

/-! ### A repository that is listed already -/

namespace ListedTwice

/-- An entry for `/w/api`. -/
def api : RefEntry where
  path := "/w/api"

/-- A configuration that lists it. -/
def config : GlobalConfig where
  projects := ∅
  repos := [api]

/-- The working directory. -/
def getwd : Except String WorkDir := .ok ⟨"/w", by decide⟩

/-- Quoting, of texts without special characters. -/
def quote (s : String) : String := "\"" ++ s ++ "\""

theorem validate_config : config.validate getwd GoMap.RangeOrder.default quote = none := by
  decide +kernel

/-- Another repository is appended, under its absolute path. -/
theorem addsEntry_web : config.AddsEntry getwd { path := "web" } :=
  GlobalConfig.addsEntry getwd GoMap.RangeOrder.default quote config { path := "web" }
    validate_config

/-- **Adding an entry again changes nothing, and removing it removes the first one.** -/
theorem not_staysValid : ¬∀ gc entry, gc.validate getwd GoMap.RangeOrder.default quote = none →
    GlobalConfig.StaysValid getwd gc entry := by
  intro h
  have hremoved := (h config api validate_config).removed (by decide +kernel)
  have hlength := congrArg (fun r => r.1.repos.length) hremoved
  revert hlength
  decide +kernel

end ListedTwice

end Gortex
