import Mathlib.Data.List.Nodup
import Mathlib.Data.List.Perm.Basic
import Mathlib.Logic.Function.Basic

/-!
# Last write wins

A store that keeps one entry under an identity, where a write replaces the entry of its
identity: a partial map, and a list of writes performed on it one after the other. What
the writes leave under an identity is the last write of that identity, so it does not
depend on what was there before if there is such a write (`Overwrite.run_of_mem`). Two
things follow: writes performed again change nothing (`Overwrite.run_replicate`), and
writes of distinct identities can be performed in any order (`Overwrite.run_perm`).
-/

namespace Overwrite

variable {K W : Type*} [DecidableEq K] (ident : W → K)

/-- The store after one write. -/
def write (f : K → Option W) (w : W) : K → Option W := Function.update f (ident w) (some w)

/-- The store after a list of writes. -/
def run (f : K → Option W) (ws : List W) : K → Option W := ws.foldl (write ident) f

variable {ident} {f f' : K → Option W} {ws ws' : List W} {k : K}

theorem write_apply (f : K → Option W) (w : W) (k : K) :
    write ident f w k = if k = ident w then some w else f k := Function.update_apply ..

theorem run_append : run ident f (ws ++ ws') = run ident (run ident f ws) ws' :=
  List.foldl_append

/-- An identity that is not written keeps its entry. -/
theorem run_of_notMem (h : k ∉ ws.map ident) : run ident f ws k = f k := by
  induction ws generalizing f with
  | nil => rfl
  | cons w ws ih =>
    rw [List.map_cons, List.mem_cons, not_or] at h
    exact (ih h.2).trans (Function.update_of_ne h.1 _ _)

/-- **What is written does not depend on what was there.** -/
theorem run_of_mem (h : k ∈ ws.map ident) : run ident f ws k = run ident f' ws k := by
  induction ws generalizing f f' with
  | nil => exact absurd h List.not_mem_nil
  | cons w ws ih =>
    by_cases hk : k ∈ ws.map ident
    · exact ih hk
    · -- the first write is the only one of this identity
      have hself : k = ident w := (List.mem_cons.mp h).resolve_right hk
      have hone : ∀ f₀ : K → Option W, run ident f₀ (w :: ws) k = some w := fun f₀ => by
        refine (run_of_notMem hk).trans ?_
        rw [hself]
        exact Function.update_self ..
      rw [hone, hone]

/-- **Performing the writes again changes nothing.** -/
theorem run_run : run ident (run ident f ws) ws = run ident f ws := by
  funext k
  by_cases hk : k ∈ ws.map ident
  · exact run_of_mem hk
  · exact run_of_notMem hk

theorem run_replicate (m : ℕ) :
    run ident f (List.replicate (m + 1) ws).flatten = run ident f ws := by
  induction m with
  | zero => rw [List.replicate_one, List.flatten_singleton]
  | succ m ih =>
    rw [List.replicate_succ', List.flatten_append, List.flatten_singleton, run_append, ih, run_run]

/-- **Writes of distinct identities commute.** -/
theorem run_perm (hnodup : (ws.map ident).Nodup) (h : ws.Perm ws') :
    run ident f ws = run ident f ws' := by
  refine h.foldl_eq' (fun w hw w' hw' g => ?_) f
  by_cases he : w = w'
  · rw [he]
  · have hne : ident w ≠ ident w' := fun hc => he (List.inj_on_of_nodup_map hnodup hw hw' hc)
    exact Function.update_comm hne (some w) (some w') g

end Overwrite
