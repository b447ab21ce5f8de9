import Mathlib.Algebra.BigOperators.Group.Finset.Basic
import Mathlib.Algebra.BigOperators.Group.List.Basic
import Mathlib.Algebra.Order.Monoid.Defs
import Gortex.Lib.Fold
import Gortex.Lib.GoMap

/-!
# Maps of totals

A Go map with numbers for its values, that is written by `m[k] += v` and reads zero where
nothing has been written. What a loop of such writes leaves under a key is the sum of what it
has added there (`GoMap.total_foldl_addTo`), and a loop over the map sums what is read over any
finite set that has all the keys (`GoMap.sum_pairs`); so the order of the loops does not matter.
-/

namespace GoMap

variable {K V : Type} [DecidableEq K] [AddCommMonoid V]

/-- What is read under a key: `m[k]`. -/
def total (m : GoMap K V) (k : K) : V := (m.lookup k).getD 0

/-- `m[k] += v`. -/
def addTo (m : GoMap K V) (k : K) (v : V) : GoMap K V := m.insert k (m.total k + v)

@[simp] theorem total_empty (k : K) : total (∅ : GoMap K V) k = 0 := rfl

theorem total_insert (m : GoMap K V) (k k' : K) (v : V) :
    total (m.insert k v) k' = if k' = k then v else m.total k' := by
  unfold total
  rw [lookup_insert]
  split <;> rfl

theorem total_erase (m : GoMap K V) (k k' : K) :
    total (m.erase k) k' = if k' = k then 0 else m.total k' := by
  unfold total
  rw [lookup_erase]
  split <;> rfl

theorem total_addTo (m : GoMap K V) (k k' : K) (v : V) :
    total (m.addTo k v) k' = m.total k' + if k' = k then v else 0 := by
  rw [addTo, total_insert]
  by_cases h : k' = k
  · rw [if_pos h, if_pos h, h]
  · rw [if_neg h, if_neg h, add_zero]

/-- **What a loop adds up under a key.** -/
theorem total_foldl_addTo {α : Type*} (key : α → K) (value : α → V) (l : List α) (m : GoMap K V)
    (k : K) : total (l.foldl (fun m a => m.addTo (key a) (value a)) m) k =
      m.total k + (l.map fun a => if k = key a then value a else 0).sum := by
  induction l generalizing m with
  | nil => simp
  | cons a l ih => rw [List.foldl_cons, ih, total_addTo, List.map_cons, List.sum_cons, add_assoc]

/-- What a loop that adds positive values has written under: the keys with a positive total. -/
theorem isSome_foldl_addTo [PartialOrder V] [IsOrderedAddMonoid V] {α : Type*} (key : α → K)
    (value : α → V) (l : List α) (hl : ∀ a ∈ l, 0 < value a) (k : K) :
    ((l.foldl (fun (m : GoMap K V) a => m.addTo (key a) (value a)) ∅).lookup k).isSome = true ↔
      0 < total (l.foldl (fun (m : GoMap K V) a => m.addTo (key a) (value a)) ∅) k := by
  have hkeep : ∀ k, ∀ v ∈ (l.foldl (fun (m : GoMap K V) a =>
      m.addTo (key a) (value a)) ∅).lookup k, 0 < v := by
    refine List.foldl_invariant (P := fun m : GoMap K V => ∀ k, ∀ v ∈ m.lookup k, 0 < v) ?_ ?_
    · intro m a ha hm k' v hv
      rw [addTo, lookup_insert] at hv
      split at hv
      · obtain rfl := Option.some.inj hv
        refine (hl a ha).trans_le (le_add_of_nonneg_left ?_)
        rw [total]
        cases hlookup : m.lookup (key a) with
        | none => exact le_rfl
        | some w => exact (hm _ w hlookup).le
      · exact hm k' v hv
    · intro k' v hv
      exact absurd hv (by simp)
  rw [total]
  cases hlookup : (l.foldl (fun (m : GoMap K V) a => m.addTo (key a) (value a)) ∅).lookup k with
  | none => exact iff_of_false Bool.false_ne_true (lt_irrefl _)
  | some v => exact iff_of_true rfl (hkeep k v hlookup)

omit [AddCommMonoid V] in
/-- **A sum over the entries of a map** is a sum over any set that has its keys. -/
theorem sum_pairs_elim {W : Type*} [AddCommMonoid W] {m : GoMap K V} {l : List (K × V)}
    (hl : l.Perm m.pairs) {S : Finset K} (hS : ∀ k v, m.lookup k = some v → k ∈ S)
    (f : K → V → W) :
    (l.map fun p => f p.1 p.2).sum = ∑ k ∈ S, (m.lookup k).elim 0 (f k) := by
  have hnodup : (m.pairs.map Prod.fst).Nodup := m.nodup_pairs_fst
  have hvalue : ∀ p ∈ m.pairs, f p.1 p.2 = (m.lookup p.1).elim 0 (f p.1) := fun p hp => by
    rw [mem_pairs.mp (show (p.1, p.2) ∈ m.pairs from hp), Option.elim_some]
  have hkeys : (m.pairs.map fun p => f p.1 p.2).sum =
      ∑ k ∈ (m.pairs.map Prod.fst).toFinset, (m.lookup k).elim 0 (f k) := by
    rw [List.sum_toFinset _ hnodup, List.map_map]
    exact congrArg List.sum (List.map_congr_left hvalue)
  rw [(hl.map _).sum_eq, hkeys]
  refine Finset.sum_subset (fun k hk => ?_) fun k _ hk => ?_
  · obtain ⟨p, hp, rfl⟩ := List.mem_map.mp (List.mem_toFinset.mp hk)
    exact hS _ _ (mem_pairs.mp (show (p.1, p.2) ∈ m.pairs from hp))
  · cases hlookup : m.lookup k with
    | none => rfl
    | some v =>
      exact absurd (List.mem_toFinset.mpr (List.mem_map.mpr ⟨(k, v), mem_pairs.mpr hlookup, rfl⟩)) hk

/-- The same, of what is read under the keys. -/
theorem sum_pairs {W : Type*} [AddCommMonoid W] {m : GoMap K V} {l : List (K × V)}
    (hl : l.Perm m.pairs) {S : Finset K} (hS : ∀ k v, m.lookup k = some v → k ∈ S) {f : K → V → W}
    (hf : ∀ k, f k 0 = 0) : (l.map fun p => f p.1 p.2).sum = ∑ k ∈ S, f k (m.total k) := by
  rw [sum_pairs_elim hl hS]
  refine Finset.sum_congr rfl fun k _ => ?_
  rw [total]
  cases m.lookup k with
  | none => exact (hf k).symm
  | some v => rfl

end GoMap
