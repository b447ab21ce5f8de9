import Mathlib.Algebra.Order.Field.Basic
import Mathlib.Tactic.Linarith
import Mathlib.Tactic.NormNum
import Gortex.Mcp.Combo

/-!
# Frecency

`internal/mcp/frecency.go`, as far as results are reranked by it: the accesses of a symbol, each
decayed by its age, make a score, and the score a multiplier between one and one and a half.
The numbers are those of an ordered field, the exponential function and the logarithm of two
being parameters.
-/

namespace Gortex

namespace Mcp

/-- The accesses of a symbol. -/
structure FrecencyAccesses where
  symbolID : String
  times : List ℤ

/-- The tracker. -/
structure FrecencyTracker where
  symbols : List FrecencyAccesses
  mode : AgentMode

/-- The number of accesses that are kept of a symbol. -/
def maxFrecencyAccesses : ℕ := 16

namespace FrecencyTracker

/-- The cap of the multiplier. -/
def maxFrecencyBoost {K : Type} [Field K] : K := (3 : ℕ) / (2 : ℕ)

variable {K : Type} [Field K] [LinearOrder K] (exp : K → K) (ln2 : K) (now : ℤ)

/-- The rate by which the weight of an access halves in the half-life. -/
def decayPerDay (ft : FrecencyTracker) : K :=
  match ft.mode with
  | .modeAI => ln2 / (3 : ℕ)
  | .modeHuman => ln2 / (10 : ℕ)

/-- The weight of an access. -/
def decayed (ft : FrecencyTracker) (t : ℤ) : K :=
  let dtDays : K := ((now : K) - t) / 86400
  exp (-ft.decayPerDay ln2 * if dtDays < 0 then 0 else dtDays)

/-- **The score of a symbol.** -/
def score (ft : FrecencyTracker) (symbolID : String) : K :=
  if symbolID = "" then 0
  else
    match ft.symbols.find? fun s => s.symbolID = symbolID with
    | none => 0
    | some s => s.times.foldl (fun score t => score + ft.decayed exp ln2 now t) 0

/-- **The multiplier of a symbol.** -/
def boostFor (ft : FrecencyTracker) (symbolID : String) : K :=
  let s := ft.score exp ln2 now symbolID
  if s ≤ 0 then 1
  else
    let extra := s / (maxFrecencyAccesses : K) * (maxFrecencyBoost - 1)
    1 + if maxFrecencyBoost - 1 < extra then maxFrecencyBoost - 1 else extra

/-- Whether accesses have been recorded. -/
def hasData (ft : FrecencyTracker) : Bool := 0 < ft.symbols.length

variable [IsStrictOrderedRing K]

/-- **The multiplier is one at least**, and it is capped. -/
theorem boostFor_mem (ft : FrecencyTracker) (symbolID : String) :
    1 ≤ ft.boostFor exp ln2 now symbolID ∧ ft.boostFor exp ln2 now symbolID ≤ 3 / 2 := by
  have hcap : (maxFrecencyBoost : K) = 3 / 2 := by norm_num [maxFrecencyBoost]
  have hhalf : (0 : K) ≤ maxFrecencyBoost - 1 := by norm_num [maxFrecencyBoost]
  simp only [boostFor]
  split_ifs with hs hmore
  · exact ⟨le_rfl, by linarith⟩
  · exact ⟨by linarith, by linarith⟩
  · have hextra : 0 ≤ ft.score exp ln2 now symbolID / (maxFrecencyAccesses : K) *
        (maxFrecencyBoost - 1) :=
      mul_nonneg (div_nonneg (not_le.mp hs).le (Nat.cast_nonneg _)) hhalf
    exact ⟨by linarith, by linarith⟩

variable {exp ln2 now}

omit [IsStrictOrderedRing K] in
/-- Where nothing has been recorded, nothing is weighted. -/
theorem boostFor_of_hasData {ft : FrecencyTracker} (h : ft.hasData = false) (symbolID : String) :
    ft.boostFor exp ln2 now symbolID = 1 := by
  have hnil : ft.symbols = [] := by
    rw [hasData, decide_eq_false_iff_not, Nat.not_lt, Nat.le_zero] at h
    exact List.eq_nil_of_length_eq_zero h
  have hscore : ft.score exp ln2 now symbolID = 0 := by
    rw [score, hnil]
    exact ite_self 0
  rw [boostFor, if_pos hscore.le]

end FrecencyTracker

end Mcp

end Gortex
