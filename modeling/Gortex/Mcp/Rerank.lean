import Mathlib.Analysis.SpecialFunctions.Log.Basic
import Gortex.Graph.Types
import Gortex.Lib.Sorting
import Gortex.Mcp.Frecency

/-!
# Reranking

`internal/mcp/combo_apply.go`: the results of a search, in the order of their scores, are put
into the order of a multiplier that the combos and the accesses of a symbol give. The multipliers
are capped, for a strong match not to be overridden, but they are sorted by alone: the scores are
not among what the sort is given. The result is in the order of the weighted scores exactly when
no result is passed by one of a smaller weighted score
(`Gortex.Mcp.applyRerankBoosts_reweighted_iff`).
-/

namespace Gortex

namespace Mcp

/-! ### The model -/

section Model

variable {K : Type} [Field K] [LinearOrder K] (exp : K → K) (ln2 : K) (now : ℤ)

/-- The multiplier of a symbol. -/
def multiplier (comboBoosts : Option (GoMap String K)) (ft : Option FrecencyTracker)
    (id : String) : K :=
  let m : K := ((comboBoosts.bind fun boosts => boosts.lookup id).elim 1 fun b => 1 * b)
  ft.elim m fun ft => m * ft.boostFor exp ln2 now id

/-- **The reranking of results.** The combos are read once; old ones are dropped by that. -/
def applyRerankBoosts (toLower : String → String) (nodes : List Node) (cm : Option ComboManager)
    (ft : Option FrecencyTracker) (query : String) : Option ComboManager × List Node :=
  if nodes.length < 2 then (cm, nodes)
  else
    let boosts := cm.map (ComboManager.boostMap K toLower now query)
    let comboBoosts := boosts.bind Prod.snd
    let cm := boosts.map Prod.fst
    if (comboBoosts.elim true fun m => decide (m.keys = [])) &&
        (ft.elim true fun ft => !ft.hasData) then
      (cm, nodes)
    else
      (cm, nodes.mergeSort fun a b =>
        !decide (multiplier exp ln2 now comboBoosts ft a.id <
          multiplier exp ln2 now comboBoosts ft b.id))

end Model

/-! ### The multipliers -/

variable {K : Type} [Field K] [LinearOrder K] [IsStrictOrderedRing K] {exp : K → K} {ln2 : K}
  {now : ℤ}

/-- The boosts of a search, by the combos as they are. -/
def comboBoostsOf (K : Type) [Field K] [LinearOrder K] (toLower : String → String) (now : ℤ)
    (cm : Option ComboManager) (query : String) : Option (GoMap String K) :=
  cm.bind fun cm => (cm.boostMap K toLower now query).2

/-- **A multiplier is one at least, and four and a half at most.** -/
theorem multiplier_mem {toLower : String → String} {cm : Option ComboManager} {query : String}
    (ft : Option FrecencyTracker) (id : String) :
    1 ≤ multiplier exp ln2 now (comboBoostsOf K toLower now cm query) ft id ∧
      multiplier exp ln2 now (comboBoostsOf K toLower now cm query) ft id ≤ 9 / 2 := by
  have hcombo : ∀ b : K, ((comboBoostsOf K toLower now cm query).bind fun boosts =>
      boosts.lookup id) = some b → 1 ≤ b ∧ b ≤ 3 := by
    intro b hb
    obtain ⟨boosts, hboosts, hlookup⟩ := Option.bind_eq_some_iff.mp hb
    obtain ⟨cm, -, hcm⟩ := Option.bind_eq_some_iff.mp hboosts
    exact ComboManager.boostMap_mem hcm hlookup
  have hm : 1 ≤ ((comboBoostsOf K toLower now cm query).bind fun boosts =>
      boosts.lookup id).elim (1 : K) (fun b => 1 * b) ∧
      ((comboBoostsOf K toLower now cm query).bind fun boosts =>
        boosts.lookup id).elim (1 : K) (fun b => 1 * b) ≤ 3 := by
    cases hb : (comboBoostsOf K toLower now cm query).bind fun boosts => boosts.lookup id with
    | none => exact ⟨le_rfl, by norm_num [Option.elim]⟩
    | some b =>
      rw [Option.elim_some, one_mul]
      exact hcombo b hb
  cases ft with
  | none => exact ⟨hm.1, hm.2.trans (by norm_num)⟩
  | some ft =>
    obtain ⟨hlow, hhigh⟩ := ft.boostFor_mem exp ln2 now id
    refine ⟨one_le_mul_of_one_le_of_one_le hm.1 hlow, ?_⟩
    calc _ ≤ (3 : K) * (3 / 2) :=
          mul_le_mul hm.2 hhigh (zero_le_one.trans hlow) (by norm_num)
      _ = 9 / 2 := by norm_num

omit [IsStrictOrderedRing K] in
/-- **In any case the results are sorted by the multiplier**, stably: where the sort is left out,
the multipliers are equal. -/
theorem applyRerankBoosts_eq (toLower : String → String) (nodes : List Node)
    (cm : Option ComboManager) (ft : Option FrecencyTracker) (query : String) :
    (applyRerankBoosts exp ln2 now toLower nodes cm ft query).2 =
      Sorting.stable (fun n : Node =>
        multiplier exp ln2 now (comboBoostsOf K toLower now cm query) ft n.id) nodes := by
  have hboosts : (cm.map (ComboManager.boostMap K toLower now query)).bind Prod.snd =
      comboBoostsOf K toLower now cm query := by
    cases cm <;> rfl
  rw [applyRerankBoosts]
  split_ifs with hlen
  · -- at most one result
    rcases nodes with _ | ⟨c, _ | ⟨d, t⟩⟩
    · exact List.mergeSort_nil.symm
    · exact (List.mergeSort_singleton c).symm
    · simp only [List.length_cons] at hlen
      omega
  · simp only [hboosts]
    split_ifs with hquiet
    · -- no signal: every multiplier is one
      refine (Sorting.stable_of_const fun a ha b hb => ?_).symm
      have hone : ∀ id,
          multiplier exp ln2 now (comboBoostsOf K toLower now cm query) ft id = 1 := by
        intro id
        have hm : (comboBoostsOf K toLower now cm query).bind (fun boosts => boosts.lookup id) =
            none := by
          cases hc : comboBoostsOf K toLower now cm query with
          | none => rfl
          | some boosts =>
            have hkeys := (Bool.and_eq_true_iff.mp hquiet).1
            rw [hc] at hkeys
            exact GoMap.lookup_of_keys_nil (of_decide_eq_true hkeys) id
        rw [multiplier, hm, Option.elim_none]
        cases ft with
        | none => rfl
        | some ft =>
          have hdata : ft.hasData = false := by
            simpa using (Bool.and_eq_true_iff.mp hquiet).2
          rw [Option.elim_some, FrecencyTracker.boostFor_of_hasData hdata, mul_one]
      rw [hone, hone]
    · rw [Sorting.stable]
      refine congrArg _ (funext fun a => funext fun b => ?_)
      rw [← decide_not]
      exact decide_eq_decide.mpr not_lt

/-! ### The order of the results -/

/-- **The results are reweighted**: they are those given, and one whose weighted score is larger
than that of another precedes it. -/
def Reweighted (score mult : Node → K) (nodes out : List Node) : Prop :=
  out.Perm nodes ∧
    ∀ a ∈ nodes, ∀ b ∈ nodes, score b * mult b < score a * mult a → [a, b].Sublist out

/-- **The reranking reweights the results exactly when no result that has the larger multiplier
than one before it has the smaller weighted score.** -/
theorem applyRerankBoosts_reweighted_iff (exp : K → K) (ln2 : K) (now : ℤ)
    (toLower : String → String) (cm : Option ComboManager) (ft : Option FrecencyTracker)
    (query : String) {nodes : List Node} {score : Node → K} (hpos : ∀ n ∈ nodes, 0 < score n)
    (hdec : nodes.Pairwise fun a b => score b < score a) :
    let mult := fun n : Node =>
      multiplier exp ln2 now (comboBoostsOf K toLower now cm query) ft n.id
    Reweighted score mult nodes
        (applyRerankBoosts exp ln2 now toLower nodes cm ft query).2 ↔
      ∀ a b, [a, b].Sublist nodes → mult a < mult b → score a * mult a ≤ score b * mult b := by
  intro mult
  have hmult : ∀ n ∈ nodes, 0 < mult n := fun n _ => zero_lt_one.trans_le (multiplier_mem ft n.id).1
  rw [Reweighted, applyRerankBoosts_eq, ← Sorting.reweights_iff hpos hmult hdec]
  exact and_iff_right (Sorting.perm_stable mult nodes)

namespace Override

/-- A search that has led to the second of its results three times. -/
def manager : ComboManager where
  queries := [⟨"save", [⟨"a.go::save", 3, 0⟩]⟩]
  dir := ""
  mode := .modeAI

/-- The result that is sought. -/
def strong : Node where
  id := "b.go::Save"
  kind := .kindFunction
  name := "Save"
  filePath := "b.go"

/-- The result that was picked before. -/
def weak : Node where
  id := "a.go::save"
  kind := .kindFunction
  name := "save"
  filePath := "a.go"

/-- The first result has a hundred times the score of the second. -/
def score (n : Node) : ℝ := if n.id = "b.go::Save" then 100 else 1

theorem normalizeQuery_save : normalizeQuery String.toLower "save" = "save" := by
  decide +kernel

theorem comboBoostsOf_manager : comboBoostsOf ℝ String.toLower 0 (some manager) "save" =
    some ((∅ : GoMap String ℝ).insert "a.go::save" (ComboManager.boostOf ℝ 3)) := by
  simp [comboBoostsOf, ComboManager.boostMap, normalizeQuery_save, ComboManager.reapStaleLocked,
    ComboManager.maxAgeSec, manager, ComboManager.boostsOf, comboMinHits]

theorem multiplier_strong : multiplier Real.exp (Real.log 2) 0
    (comboBoostsOf ℝ String.toLower 0 (some manager) "save") none strong.id = 1 := by
  rw [comboBoostsOf_manager, multiplier, Option.bind_some, GoMap.lookup_insert,
    if_neg (by decide)]
  rfl

theorem multiplier_weak : multiplier Real.exp (Real.log 2) 0
    (comboBoostsOf ℝ String.toLower 0 (some manager) "save") none weak.id = 13 / 10 := by
  rw [comboBoostsOf_manager, multiplier, Option.bind_some, GoMap.lookup_insert,
    if_pos (show weak.id = "a.go::save" from rfl)]
  norm_num [ComboManager.boostOf, comboMinHits]

theorem score_strong : score strong = 100 := if_pos rfl

theorem score_weak : score weak = 1 := if_neg (by decide)

/-- The search with its history. -/
theorem applyRerankBoosts_reweighted_iff_hits :
    let mult := fun n : Node => multiplier Real.exp (Real.log 2) 0
      (comboBoostsOf ℝ String.toLower 0 (some manager) "save") none n.id
    Reweighted score mult [strong, weak]
        (applyRerankBoosts Real.exp (Real.log 2) 0 String.toLower [strong, weak] (some manager) none
          "save").2 ↔
      ∀ a b, [a, b].Sublist [strong, weak] → mult a < mult b →
        score a * mult a ≤ score b * mult b := by
  refine applyRerankBoosts_reweighted_iff Real.exp (Real.log 2) 0 String.toLower (some manager) none
    "save" ?_ ?_
  · intro n hn
    rcases List.mem_pair.mp hn with rfl | rfl
    · rw [score_strong]
      norm_num
    · rw [score_weak]
      norm_num
  · rw [List.pairwise_pair, score_strong, score_weak]
    norm_num

/-- **A hundred times the score is passed by three hits**: the second result comes first. -/
theorem not_reweighted :
    ¬Reweighted score (fun n => multiplier Real.exp (Real.log 2) 0
      (comboBoostsOf ℝ String.toLower 0 (some manager) "save") none n.id) [strong, weak]
      (applyRerankBoosts Real.exp (Real.log 2) 0 String.toLower [strong, weak] (some manager) none
        "save").2 := by
  rintro ⟨-, h⟩
  have hpair := h strong List.mem_cons_self weak (List.mem_cons_of_mem _ List.mem_cons_self) (by
    simp only [score_strong, score_weak, multiplier_strong, multiplier_weak]
    norm_num)
  have hne : strong ≠ weak := by decide
  rw [applyRerankBoosts_eq, Sorting.pair_sublist_stable_iff List.mem_cons_self
    (List.mem_cons_of_mem _ List.mem_cons_self)] at hpair
  simp only [multiplier_strong, multiplier_weak] at hpair
  norm_num at hpair

end Override

end Mcp

end Gortex
