import Mathlib.Algebra.Order.Field.Basic
import Mathlib.Tactic.Positivity
import Gortex.Lib.Fold
import Gortex.Lib.GoMap
import Gortex.Lib.GoText
import Gortex.Lib.Recent
import Gortex.Lib.Sorting

/-!
# Combos

`internal/mcp/combo.go` and `internal/persistence/combo.go`: which symbols were picked after
which query, and the boost they get from it in later results. A record of a symbol for a query
counts a hit, sorts the matches of the query by their hits and cuts them at a cap; a query that
is touched moves to the end of the list, and what is written to disk is cut at the front.
-/

namespace Gortex

namespace Mcp

/-! ### The model -/

/-- Whether an agent or a human is served. -/
inductive AgentMode
  | modeAI
  | modeHuman
deriving DecidableEq

/-- A symbol picked after a query. -/
structure ComboMatch where
  symbolID : String
  hitCount : UInt32
  lastUsed : ℤ
deriving DecidableEq

/-- What was picked after a query. -/
structure ComboQuery where
  query : String
  matched : List ComboMatch
deriving DecidableEq

/-- The tracker: its queries, and the directory they are kept in, if any. -/
structure ComboManager where
  queries : List ComboQuery
  dir : String
  mode : AgentMode
deriving DecidableEq

/-- The hits from which on a symbol is boosted. -/
def comboMinHits : ℕ := 3

/-- The number of matches that are kept for a query. -/
def maxComboEntriesPerQuery : ℕ := 20

/-- The number of queries that are written. -/
def maxComboQueries : ℕ := 2000

/-- A query in its normal form: lower case, one blank between two words. -/
def normalizeQuery (toLower : String → String) (raw : String) : String :=
  let q := toLower (GoString.trimSpace raw)
  if q = "" then "" else " ".intercalate ((GoText.fields q.toList).map String.ofList)

namespace ComboManager

/-- How long a match is kept, in seconds. -/
def maxAgeSec (cm : ComboManager) : ℤ :=
  match cm.mode with
  | .modeAI => 7 * 86400
  | .modeHuman => 30 * 86400

/-- Drop the matches that are too old. -/
def reapStaleLocked (now : ℤ) (cm : ComboManager) : ComboManager :=
  let cutoff := now - cm.maxAgeSec
  { cm with queries := cm.queries.map fun q =>
      { q with matched := q.matched.filter fun m => cutoff ≤ m.lastUsed } }

/-- The position of a query. -/
def findQueryLocked (cm : ComboManager) (q : String) : Option ℕ :=
  cm.queries.findIdx? fun cq => cq.query = q

/-- Move a query to the end. -/
def moveToEndLocked (idx : ℕ) (queries : List ComboQuery) : List ComboQuery :=
  if queries.length - 1 ≤ idx then queries
  else queries.eraseIdx idx ++ (queries[idx]?).toList

/-- Count a hit of a symbol. -/
def noteMatch (symbolID : String) (now : ℤ) (matched : List ComboMatch) : List ComboMatch :=
  match matched.findIdx? fun m => m.symbolID = symbolID with
  | none => matched ++ [{ symbolID := symbolID, hitCount := 1, lastUsed := now }]
  | some mIdx => matched.modify mIdx fun m =>
      { m with hitCount := m.hitCount + 1, lastUsed := now }

/-- The matches of a query after a hit: those with most hits, as many as are kept. -/
def noteHit (sorter : Sorting.Sorter ComboMatch) (symbolID : String) (now : ℤ)
    (matched : List ComboMatch) : List ComboMatch :=
  (sorter.sort (fun a b => b.hitCount.toNat < a.hitCount.toNat)
    (noteMatch symbolID now matched)).take maxComboEntriesPerQuery

/-- `SaveCombo` cuts the queries, also those in memory. -/
def trimQueries (queries : List ComboQuery) : List ComboQuery :=
  if maxComboQueries < queries.length then queries.drop (queries.length - maxComboQueries)
  else queries

/-- The queries after a hit of a symbol: one that is new is added, and one that is known comes to
the end. -/
def hitQuery (sorter : Sorting.Sorter ComboMatch) (now : ℤ) (q symbolID : String)
    (cm : ComboManager) : List ComboQuery :=
  match cm.findQueryLocked q with
  | none => cm.queries ++
      [{ query := q, matched := [{ symbolID := symbolID, hitCount := 1, lastUsed := now }] }]
  | some idx => moveToEndLocked idx (cm.queries.modify idx fun cq =>
      { cq with matched := noteHit sorter symbolID now cq.matched })

/-- **Record a symbol for a query.** -/
def record (sorter : Sorting.Sorter ComboMatch) (toLower : String → String) (now : ℤ)
    (rawQuery symbolID : String) (cm : ComboManager) : ComboManager :=
  let q := normalizeQuery toLower rawQuery
  if q = "" ∨ symbolID = "" then cm
  else
    let cm := cm.reapStaleLocked now
    let queries := hitQuery sorter now q symbolID cm
    if cm.dir = "" then { cm with queries := queries }
    else { cm with queries := trimQueries queries }

section BoostMap

variable (K : Type) [Field K] [LinearOrder K]

/-- The boost of a symbol with hits enough: each hit adds to it, up to three times. -/
def boostOf (hitCount : UInt32) : K :=
  let extra := ((hitCount.toNat - comboMinHits + 1 : ℕ) : K) * (3 / 10)
  min 3 (1 + extra)

/-- The boosts of the symbols with hits enough. -/
def boostsOf (matched : List ComboMatch) : GoMap String K :=
  (matched.filter fun m => comboMinHits ≤ m.hitCount.toNat).foldl
    (fun out m => out.insert m.symbolID (boostOf K m.hitCount)) ∅

/-- **The boosts that a query gives to symbols**, if there are any. Old matches are dropped on
the way. -/
def boostMap (toLower : String → String) (now : ℤ) (rawQuery : String) (cm : ComboManager) :
    ComboManager × Option (GoMap String K) :=
  let q := normalizeQuery toLower rawQuery
  if q = "" then (cm, none)
  else
    let cm := cm.reapStaleLocked now
    (cm, (cm.queries.find? fun cq => cq.query = q).bind fun cq =>
      let out := boostsOf K cq.matched
      if out.keys = [] then none else some out)

end BoostMap

/-! ### The boosts -/

section Boosts

variable {K : Type} [Field K] [LinearOrder K] [IsStrictOrderedRing K]
  {toLower : String → String} {now : ℤ} {rawQuery : String}

/-- A boost is a multiplier between one and three. -/
theorem boostOf_mem (hitCount : UInt32) : 1 ≤ boostOf K hitCount ∧ boostOf K hitCount ≤ 3 :=
  ⟨le_min (by norm_num) (le_add_of_nonneg_right (by positivity)), min_le_left _ _⟩

/-- **So are all that a query gives.** -/
theorem boostMap_mem {cm : ComboManager} {boosts : GoMap String K}
    (h : (cm.boostMap K toLower now rawQuery).2 = some boosts) {id : String} {b : K}
    (hb : boosts.lookup id = some b) : 1 ≤ b ∧ b ≤ 3 := by
  have hall : ∀ ms : List ComboMatch, ∀ id b, (boostsOf K ms).lookup id = some b →
      1 ≤ b ∧ b ≤ 3 := by
    intro ms
    refine List.foldl_invariant (P := fun out : GoMap String K =>
      ∀ id b, out.lookup id = some b → 1 ≤ b ∧ b ≤ 3) ?_ nofun
    intro out m _ hout id b hb
    rw [GoMap.lookup_insert] at hb
    split_ifs at hb with hid
    · obtain rfl := Option.some_inj.mp hb
      exact boostOf_mem m.hitCount
    · exact hout id b hb
  simp only [boostMap] at h
  split_ifs at h
  obtain ⟨cq, -, hcq⟩ := Option.bind_eq_some_iff.mp h
  split_ifs at hcq
  obtain rfl := Option.some_inj.mp hcq
  exact hall cq.matched id b hb

end Boosts

end ComboManager

end Mcp

end Gortex
