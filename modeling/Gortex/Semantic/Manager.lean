import Gortex.Lib.Grouped
import Gortex.Lib.Sorting
import Gortex.Semantic.Enricher

/-!
# Which providers enrich the graph

The manager of the semantic providers (`internal/semantic/manager.go`). `selectProviders` picks one
provider for each language, an enabled one of the best priority; `EnrichAll` asks whether the
provider it has picked is available, and runs it on each repository if it is. What is not available
is not replaced: the language is passed over (`Gortex.Semantic.mem_calls_enrichAll`).

So the best of the available providers of a language runs, exactly if every provider of a best
priority is available where any is (`Gortex.Semantic.runsBest_iff`).

A provider is what the manager asks of it: its name, its languages, whether it is available, and
what it does to the graph. Which providers have been run, for which language and on which root, is
recorded beside the results (`Gortex.Semantic.Pass`).
-/

namespace Gortex

namespace Semantic

/-! ### The manager -/

/-- `Provider`, with its `Enrich` as a function: of the graph and a root to the graph afterwards
and a result, if there is one, or an error. -/
structure Provider where
  name : String
  languages : List String
  available : Bool
  enrich : Graph → String → Graph × Except String (Option EnrichResult)

/-- `ProviderConfig`, what the selection reads of it. -/
structure ProviderConfig where
  name : String
  priority : ℤ
  enabled : Bool

/-- `Config`, what the manager reads of it. -/
structure Config where
  enabled : Bool
  providers : List ProviderConfig

/-- **`Manager`**, with the last result of each provider. -/
structure Manager where
  providers : List Provider
  config : Config
  lastResults : GoMap String EnrichResult

/-- The loops of a pass over a map; those over the roots have the language they are for. -/
inductive ManagerLoop
  | candidates
  | languages
  | roots (lang : String)

/-- A `langCandidate`. -/
structure LangCandidate where
  provider : Provider
  priority : ℤ

/-- `configMap`: the last entry of a name counts. -/
def Manager.configMap (m : Manager) : GoMap String ProviderConfig :=
  m.config.providers.foldl (fun configMap pc => configMap.insert pc.name pc) ∅

/-- Whether a provider is not disabled: one without an entry is enabled. -/
def Manager.enables (m : Manager) (p : Provider) : Bool :=
  match m.configMap.lookup p.name with
  | some ce => ce.enabled
  | none => true

/-- The priority of a provider: the smallest is the best one. -/
def Manager.priority (m : Manager) (p : Provider) : ℤ :=
  match m.configMap.lookup p.name with
  | some ce => ce.priority
  | none => 99

/-- A turn of the loop that groups the providers. -/
def Manager.candidateStep (m : Manager) (langCandidates : GoMap String (List LangCandidate))
    (p : Provider) : GoMap String (List LangCandidate) :=
  if m.enables p = true then
    p.languages.foldl (fun langCandidates lang =>
      Grouped.push langCandidates lang ⟨p, m.priority p⟩) langCandidates
  else langCandidates

/-- `langCandidates`: the candidates of each language. -/
def Manager.langCandidates (m : Manager) : GoMap String (List LangCandidate) :=
  m.providers.foldl m.candidateStep ∅

/-- The comparison of the sort. -/
def byPriority (a b : LangCandidate) : Bool := a.priority < b.priority

/-- A turn of the loop that selects: the first candidate after sorting. -/
def selectStep (sorter : Sorting.Sorter LangCandidate) (result : GoMap String Provider)
    (e : String × List LangCandidate) : GoMap String Provider :=
  match sorter.sort byPriority e.2 with
  | [] => result
  | c :: _ => result.insert e.1 c.provider

/-- **`selectProviders`.** -/
def Manager.selectProviders (m : Manager) (sorter : Sorting.Sorter LangCandidate)
    (ord : GoMap.RangeOrder ManagerLoop) : GoMap String Provider :=
  (ord.order .candidates m.langCandidates.pairs).foldl (selectStep sorter) ∅

/-- A call of `Enrich`: for which language, of which provider, on which root. -/
structure Call where
  lang : String
  provider : Provider
  root : String

/-- **The state of a pass.** -/
structure Pass where
  graph : Graph
  results : List EnrichResult := []
  lastResults : GoMap String EnrichResult
  /-- The calls of `Enrich` so far. -/
  calls : List Call := []

/-- A turn of the loop over the roots. -/
def enrichRepo (lang : String) (p : Provider) (s : Pass) (repo : String × String) : Pass :=
  let s : Pass := { s with calls := s.calls ++ [⟨lang, p, repo.2⟩] }
  match p.enrich s.graph repo.2 with
  | (g, .ok (some result)) =>
    { s with
      graph := g
      results := s.results ++ [result]
      lastResults := s.lastResults.insert p.name result }
  | (g, _) => { s with graph := g }

/-- A turn of the loop over the languages. -/
def enrichLang (ord : GoMap.RangeOrder ManagerLoop) (roots : GoMap String String) (s : Pass)
    (e : String × Provider) : Pass :=
  if e.2.available = true then
    (ord.order (.roots e.1) roots.pairs).foldl (enrichRepo e.1 e.2) s
  else s

/-- **`EnrichAll`.** -/
def Manager.enrichAll (m : Manager) (sorter : Sorting.Sorter LangCandidate)
    (ord : GoMap.RangeOrder ManagerLoop) (g : Graph) (roots : GoMap String String) : Pass :=
  let s : Pass := { graph := g, lastResults := m.lastResults }
  if m.config.enabled = true then
    (ord.order .languages (m.selectProviders sorter ord).pairs).foldl (enrichLang ord roots) s
  else s

/-! ### What is selected -/

variable {m : Manager} {sorter : Sorting.Sorter LangCandidate} {ord : GoMap.RangeOrder ManagerLoop}
  {g : Graph} {roots : GoMap String String} {lang : String} {p : Provider}

/-- **An enabled provider of a language.** -/
def Manager.Serves (m : Manager) (lang : String) (p : Provider) : Prop :=
  p ∈ m.providers ∧ lang ∈ p.languages ∧ m.enables p = true

theorem mem_slice_foldl_push {K C : Type} [DecidableEq K] (l : List K) (c₀ : C)
    (groups : GoMap K (List C)) {k : K} {c : C} :
    c ∈ Grouped.slice (l.foldl (fun groups k => Grouped.push groups k c₀) groups) k ↔
      c ∈ Grouped.slice groups k ∨ k ∈ l ∧ c = c₀ := by
  induction l generalizing groups with
  | nil => simp
  | cons k' l ih =>
    rw [List.foldl_cons, ih, Grouped.push, Grouped.slice_insert, List.mem_cons]
    by_cases hk : k = k'
    · rw [if_pos hk, List.mem_append, List.mem_singleton, ← hk]
      tauto
    · rw [if_neg hk]
      tauto

/-- **The candidates of a language** are its enabled providers, each with its priority. -/
theorem mem_langCandidates {c : LangCandidate} :
    c ∈ Grouped.slice m.langCandidates lang ↔
      m.Serves lang c.provider ∧ c.priority = m.priority c.provider := by
  have hloop : ∀ (l : List Provider) (groups : GoMap String (List LangCandidate)),
      c ∈ Grouped.slice (l.foldl m.candidateStep groups) lang ↔
        c ∈ Grouped.slice groups lang ∨
          (c.provider ∈ l ∧ lang ∈ c.provider.languages ∧ m.enables c.provider = true) ∧
            c.priority = m.priority c.provider := by
    intro l
    induction l with
    | nil => simp
    | cons q l ih =>
      intro groups
      have hturn : c ∈ Grouped.slice (m.candidateStep groups q) lang ↔
          c ∈ Grouped.slice groups lang ∨
            m.enables q = true ∧ lang ∈ q.languages ∧ c = ⟨q, m.priority q⟩ := by
        unfold Manager.candidateStep
        split_ifs with hq
        · rw [mem_slice_foldl_push, and_iff_right hq]
        · simp [hq]
      have hq : (m.enables q = true ∧ lang ∈ q.languages ∧ c = ⟨q, m.priority q⟩) ↔
          (c.provider = q ∧ lang ∈ c.provider.languages ∧ m.enables c.provider = true) ∧
            c.priority = m.priority c.provider := by
        constructor
        · rintro ⟨henabled, hlang, rfl⟩
          exact ⟨⟨rfl, hlang, henabled⟩, rfl⟩
        · obtain ⟨p, prio⟩ := c
          rintro ⟨⟨rfl, hlang, henabled⟩, hprio⟩
          obtain rfl : prio = m.priority p := hprio
          exact ⟨henabled, hlang, rfl⟩
      rw [List.foldl_cons, ih, hturn, hq, List.mem_cons, or_assoc, ← or_and_right, ← or_and_right]
  rw [Manager.langCandidates, hloop]
  simp [Manager.Serves]

/-- The provider of a language is the first of its candidates after sorting. -/
theorem lookup_selectProviders : (m.selectProviders sorter ord).lookup lang =
    ((sorter.sort byPriority (Grouped.slice m.langCandidates lang)).head?).map
      LangCandidate.provider := by
  have hstep : selectStep sorter = fun result e =>
      (((sorter.sort byPriority e.2).head?).map LangCandidate.provider).elim result
        fun q => result.insert e.1 q := by
    funext result e
    unfold selectStep
    cases sorter.sort byPriority e.2 <;> rfl
  have hperm := ord.perm .candidates m.langCandidates.pairs
  have hnil : sorter.sort byPriority [] = [] := List.perm_nil.mp (sorter.perm ..)
  rw [Manager.selectProviders, hstep, GoMap.lookup_foldl_elim
    (fun l => ((sorter.sort byPriority l).head?).map LangCandidate.provider),
    GoMap.find?_pairs hperm, AList.lookup_empty, Option.or_none, Grouped.slice]
  · cases m.langCandidates.lookup lang with
    | none => simp [hnil]
    | some l => rfl
  · exact (hperm.map Prod.fst).nodup_iff.mpr m.langCandidates.nodup_pairs_fst

/-- An enabled provider of a language that no enabled one of it comes before. -/
def Manager.First (m : Manager) (lang : String) (p : Provider) : Prop :=
  m.Serves lang p ∧ ∀ q, m.Serves lang q → m.priority p ≤ m.priority q

/-- **What is selected for a language** is an enabled provider of a best priority. -/
theorem first_of_selected (h : (m.selectProviders sorter ord).lookup lang = some p) :
    m.First lang p := by
  rw [lookup_selectProviders] at h
  obtain ⟨c, hc, rfl⟩ := Option.map_eq_some_iff.mp h
  obtain ⟨hmem, hfirst⟩ := sorter.first_sort
    (fun a b c hba hcb => by
      simp only [byPriority, decide_eq_false_iff_not, not_lt] at hba hcb ⊢
      exact le_trans hba hcb)
    (fun a b => by
      simp only [byPriority, decide_eq_false_iff_not, not_lt]
      exact le_total _ _) hc
  obtain ⟨hserves, hprio⟩ := mem_langCandidates.mp hmem
  refine ⟨hserves, fun q hq => ?_⟩
  have hle := hfirst ⟨q, m.priority q⟩ (mem_langCandidates.mpr ⟨hq, rfl⟩)
  simpa only [byPriority, decide_eq_false_iff_not, not_lt, hprio] using hle

/-- Something is selected for a language that an enabled provider serves. -/
theorem exists_selected (h : m.Serves lang p) (sorter : Sorting.Sorter LangCandidate)
    (ord : GoMap.RangeOrder ManagerLoop) :
    ∃ q, (m.selectProviders sorter ord).lookup lang = some q := by
  rw [lookup_selectProviders]
  cases hl : sorter.sort byPriority (Grouped.slice m.langCandidates lang) with
  | nil =>
    have hmem := mem_langCandidates (c := ⟨p, m.priority p⟩) |>.mpr ⟨h, rfl⟩
    rw [← (sorter.perm byPriority _).mem_iff, hl] at hmem
    exact absurd hmem List.not_mem_nil
  | cons c l => exact ⟨c.provider, rfl⟩

/-- **Any enabled provider of a best priority is selected** by some sort. -/
theorem Manager.First.exists_sorter (h : m.First lang p) : ∃ sorter : Sorting.Sorter LangCandidate,
    ∀ ord, (m.selectProviders sorter ord).lookup lang = some p := by
  refine ⟨Sorting.Sorter.favouring ⟨p, m.priority p⟩, fun ord => ?_⟩
  rw [lookup_selectProviders, Sorting.Sorter.head?_favouring]
  · rfl
  · exact mem_langCandidates.mpr ⟨h.1, rfl⟩
  · intro c hc
    obtain ⟨hserves, hprio⟩ := mem_langCandidates.mp hc
    simpa only [byPriority, decide_eq_false_iff_not, not_lt, hprio] using h.2 _ hserves

/-! ### What is run -/

theorem calls_enrichRepo (s : Pass) (repo : String × String) :
    (enrichRepo lang p s repo).calls = s.calls ++ [⟨lang, p, repo.2⟩] := by
  unfold enrichRepo
  simp only
  split <;> rfl

/-- **What is run**: for a language what is selected for it, if it is available, on every root. -/
theorem mem_calls_enrichAll {c : Call} : c ∈ (m.enrichAll sorter ord g roots).calls ↔
    m.config.enabled = true ∧ (m.selectProviders sorter ord).lookup c.lang = some c.provider ∧
      c.provider.available = true ∧ ∃ name, roots.lookup name = some c.root := by
  -- a loop over the repositories makes one call each
  have hrepos : ∀ (lang : String) (p : Provider) (l : List (String × String)) (s : Pass),
      c ∈ (l.foldl (enrichRepo lang p) s).calls ↔
        c ∈ s.calls ∨ ∃ repo ∈ l, c = ⟨lang, p, repo.2⟩ := by
    intro lang p l
    induction l with
    | nil => simp
    | cons repo l ih =>
      intro s
      rw [List.foldl_cons, ih, calls_enrichRepo, List.mem_append, List.mem_singleton,
        List.exists_mem_cons_iff, or_assoc]
  -- the loop over the languages passes over a provider that is not available
  have hlangs : ∀ (l : List (String × Provider)) (s : Pass),
      c ∈ (l.foldl (enrichLang ord roots) s).calls ↔
        c ∈ s.calls ∨ ∃ e ∈ l, e.2.available = true ∧
          ∃ name, roots.lookup name = some c.root ∧ c.lang = e.1 ∧ c.provider = e.2 := by
    intro l
    induction l with
    | nil => simp
    | cons e l ih =>
      intro s
      have hturn : c ∈ (enrichLang ord roots s e).calls ↔ c ∈ s.calls ∨
          e.2.available = true ∧
            ∃ name, roots.lookup name = some c.root ∧ c.lang = e.1 ∧ c.provider = e.2 := by
        unfold enrichLang
        split_ifs with havailable
        · rw [hrepos, and_iff_right havailable]
          refine or_congr_right ?_
          constructor
          · rintro ⟨⟨name, root⟩, hrepo, rfl⟩
            exact ⟨name, GoMap.mem_pairs.mp (ord.mem.mp hrepo), rfl, rfl⟩
          · obtain ⟨lang, p, root⟩ := c
            rintro ⟨name, hroot, rfl, rfl⟩
            exact ⟨(name, root), ord.mem.mpr (GoMap.mem_pairs.mpr hroot), rfl⟩
        · simp [havailable]
      rw [List.foldl_cons, ih, hturn, List.exists_mem_cons_iff, or_assoc]
  unfold Manager.enrichAll
  simp only
  split_ifs with henabled
  · rw [hlangs, and_iff_right henabled, or_iff_right List.not_mem_nil]
    constructor
    · rintro ⟨⟨lang, p⟩, he, havailable, name, hroot, hlang, hp⟩
      simp only at hlang hp havailable
      rw [hlang, hp]
      exact ⟨GoMap.mem_pairs.mp (ord.mem.mp he), havailable, name, hroot⟩
    · rintro ⟨hselected, havailable, name, hroot⟩
      exact ⟨(c.lang, c.provider), ord.mem.mpr (GoMap.mem_pairs.mpr hselected), havailable, name,
        hroot, rfl, rfl⟩
  · simp [henabled]

/-! ### Whether the best available provider is run -/

/-- An available provider of a language, of the best priority of these. -/
def Manager.BestAvailable (m : Manager) (lang : String) (p : Provider) : Prop :=
  m.Serves lang p ∧ p.available = true ∧
    ∀ q, m.Serves lang q → q.available = true → m.priority p ≤ m.priority q

/-- **The best available provider runs**: for each language that an enabled and available provider
serves, an available one of the best priority is run on every root, and no other provider is. -/
def Manager.RunsBest (m : Manager) : Prop :=
  ∀ sorter ord g roots lang, (∃ p, m.Serves lang p ∧ p.available = true) →
    ∃ p, m.BestAvailable lang p ∧
      (∀ name root, roots.lookup name = some root →
        ⟨lang, p, root⟩ ∈ (m.enrichAll sorter ord g roots).calls) ∧
      ∀ c ∈ (m.enrichAll sorter ord g roots).calls, c.lang = lang → c.provider = p

/-- **The best available provider of each language runs, exactly if the enrichment is enabled and
the providers of the best priority are available**, wherever an available provider is enabled. -/
theorem runsBest_iff : m.RunsBest ↔ ∀ lang, (∃ p, m.Serves lang p ∧ p.available = true) →
    m.config.enabled = true ∧ ∀ p, m.First lang p → p.available = true := by
  constructor
  · intro hruns lang hserved
    -- on one root something has to be run
    have hcall : ∀ sorter ord, ∃ p, (m.selectProviders sorter ord).lookup lang = some p ∧
        p.available = true ∧ m.config.enabled = true := by
      intro sorter ord
      obtain ⟨p, -, hcalled, -⟩ := hruns sorter ord Graph.new
        ((∅ : GoMap String String).insert "" "") lang hserved
      obtain ⟨henabled, hselected, havailable, -⟩ :=
        mem_calls_enrichAll.mp (hcalled "" "" (AList.lookup_insert _))
      exact ⟨p, hselected, havailable, henabled⟩
    refine ⟨?_, fun p hp => ?_⟩
    · obtain ⟨p, -, -, henabled⟩ := hcall (.insertion _) .default
      exact henabled
    · obtain ⟨sorter, hsorter⟩ := hp.exists_sorter
      obtain ⟨q, hselected, havailable, -⟩ := hcall sorter .default
      rw [hsorter] at hselected
      exact Option.some.inj hselected ▸ havailable
  · intro hcond sorter ord g roots lang hserved
    obtain ⟨henabled, havailable⟩ := hcond lang hserved
    obtain ⟨p₀, hp₀, -⟩ := hserved
    obtain ⟨p, hp⟩ := exists_selected hp₀ sorter ord
    have hfirst := first_of_selected hp
    refine ⟨p, ⟨hfirst.1, havailable p hfirst, fun q hq _ => hfirst.2 q hq⟩, ?_, ?_⟩
    · exact fun name root hroot => mem_calls_enrichAll.mpr
        ⟨henabled, hp, havailable p hfirst, name, hroot⟩
    · rintro c hc rfl
      exact Option.some.inj ((mem_calls_enrichAll.mp hc).2.1.symm.trans hp)

namespace TwoProviders

/-- A provider for Go that does nothing. -/
def provider (name : String) (available : Bool) : Provider :=
  ⟨name, ["go"], available, fun g _ => (g, .ok none)⟩

/-- Two enabled providers for Go: the favourite is not available, the other one is. -/
def manager : Manager where
  providers := [provider "go-types" false, provider "scip-go" true]
  config := ⟨true, [⟨"go-types", 1, true⟩, ⟨"scip-go", 2, true⟩]⟩
  lastResults := ∅

/-- **An unavailable favourite** keeps the other provider from being run. -/
theorem not_runsBest : ¬manager.RunsBest := by
  intro hruns
  obtain ⟨p, -, hcalled, -⟩ := hruns (.insertion _) .default Graph.new
    ((∅ : GoMap String String).insert "" "/repo") "go"
    ⟨provider "scip-go" true, ⟨by simp [manager], by simp [provider], by decide +kernel⟩, rfl⟩
  obtain ⟨-, hselected, havailable, -⟩ :=
    mem_calls_enrichAll.mp (hcalled "" "/repo" (AList.lookup_insert _))
  obtain ⟨⟨hmem, -, -⟩, hfirst⟩ := first_of_selected hselected
  have hserves : manager.Serves "go" (provider "go-types" false) :=
    ⟨by simp [manager], by simp [provider], by decide +kernel⟩
  simp only [manager, List.mem_cons, List.not_mem_nil, or_false] at hmem
  rcases hmem with rfl | rfl
  · cases havailable
  · exact absurd (hfirst _ hserves) (by decide +kernel)

end TwoProviders

end Semantic

end Gortex
