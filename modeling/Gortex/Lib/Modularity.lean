import Mathlib.Algebra.BigOperators.Ring.Finset
import Mathlib.Algebra.Order.BigOperators.Group.Finset
import Mathlib.Algebra.BigOperators.Field
import Mathlib.Algebra.Order.Field.Basic
import Mathlib.Algebra.Order.Field.Rat
import Mathlib.Tactic.Linarith
import Mathlib.Tactic.Ring

/-!
# Modularity

The modularity of a partition of a weighted undirected graph, after Newman: the share of the
weight that lies within the classes, less what would lie there by the degrees alone. It is
computed in exact rationals.

`Modularity.move` says what moving one vertex to another class changes: what counts is the
weight from the vertex to the two classes and their volumes, with the vertex itself taken out
of the class it leaves.
-/

namespace Modularity

variable {ι κ : Type*} [DecidableEq ι] [DecidableEq κ]

/-- A weighted undirected graph on finitely many vertices. A loop counts with its weight. -/
structure Weighted (ι : Type*) where
  vertices : Finset ι
  weight : ι → ι → ℚ
  symm : ∀ i j, weight i j = weight j i

namespace Weighted

variable (W : Weighted ι) (part : ι → κ)

/-- The degree of a vertex. -/
def degree (i : ι) : ℚ := ∑ j ∈ W.vertices, W.weight i j

/-- The sum of all degrees, twice the total weight. -/
def total : ℚ := ∑ i ∈ W.vertices, W.degree i

/-- What an ordered pair of vertices of one class contributes. -/
def excess (i j : ι) : ℚ := W.weight i j - W.degree i * W.degree j / W.total

/-- **The modularity of a partition.** -/
def modularity : ℚ :=
  (∑ i ∈ W.vertices, ∑ j ∈ W.vertices, if part i = part j then W.excess i j else 0) / W.total

/-- The volume of a class: the sum of the degrees of its members. -/
def volume (c : κ) : ℚ := ∑ j ∈ W.vertices with part j = c, W.degree j

/-- The weight from a vertex to a class. -/
def toward (i : ι) (c : κ) : ℚ := ∑ j ∈ W.vertices with part j = c, W.weight i j

omit [DecidableEq ι] in
theorem excess_comm (i j : ι) : W.excess i j = W.excess j i := by
  unfold excess
  rw [W.symm, mul_comm]

omit [DecidableEq ι] in
/-- **Only the classes count**, not what they are called. -/
theorem modularity_congr {κ' : Type*} [DecidableEq κ'] {part' : ι → κ'}
    (h : ∀ i ∈ W.vertices, ∀ j ∈ W.vertices, part i = part j ↔ part' i = part' j) :
    W.modularity part = W.modularity part' := by
  unfold modularity
  congr 1
  exact Finset.sum_congr rfl fun i hi => Finset.sum_congr rfl fun j hj =>
    if_congr (h i hi j hj) rfl rfl

/-! ### Moving a vertex -/

/-- The excess between a vertex and a class, the vertex left out. -/
def pull (x : ι) (c : κ) : ℚ := ∑ j ∈ W.vertices.erase x with part j = c, W.excess x j

/-- The terms of a vertex, apart from the others. -/
theorem sum_pairs_eq {x : ι} (hx : x ∈ W.vertices) :
    (∑ i ∈ W.vertices, ∑ j ∈ W.vertices, if part i = part j then W.excess i j else 0) =
      (∑ i ∈ W.vertices.erase x, ∑ j ∈ W.vertices.erase x,
        if part i = part j then W.excess i j else 0) + 2 * W.pull part x (part x) +
          W.excess x x := by
  have hrow : ∀ i, (∑ j ∈ W.vertices, if part i = part j then W.excess i j else 0) =
      (∑ j ∈ W.vertices.erase x, if part i = part j then W.excess i j else 0) +
        if part i = part x then W.excess i x else 0 := fun i =>
    (Finset.sum_erase_add _ _ hx).symm
  have hpull : (∑ j ∈ W.vertices.erase x, if part x = part j then W.excess x j else 0) =
      W.pull part x (part x) := by
    rw [pull, Finset.sum_filter]
    exact Finset.sum_congr rfl fun j _ => if_congr eq_comm rfl rfl
  have hcol : (∑ i ∈ W.vertices.erase x, if part i = part x then W.excess i x else 0) =
      W.pull part x (part x) := by
    rw [← hpull]
    exact Finset.sum_congr rfl fun j _ => if_congr eq_comm (W.excess_comm j x) rfl
  rw [← Finset.sum_erase_add _ _ hx]
  simp only [hrow]
  rw [Finset.sum_add_distrib, hcol, hpull, if_true]
  ring

/-- What a class pulls with, by the weight toward it and its volume. -/
theorem pull_eq {x : ι} (hx : x ∈ W.vertices) (c : κ) :
    W.pull part x c = W.toward part x c - W.degree x * W.volume part c / W.total -
      if part x = c then W.excess x x else 0 := by
  have hall : ∑ j ∈ W.vertices with part j = c, W.excess x j =
      W.toward part x c - W.degree x * W.volume part c / W.total := by
    unfold excess toward volume
    rw [Finset.sum_sub_distrib, ← Finset.sum_div, Finset.mul_sum]
  rw [pull, ← hall, Finset.filter_erase]
  by_cases hc : part x = c
  · rw [if_pos hc, eq_sub_iff_add_eq]
    exact Finset.sum_erase_add _ _ (Finset.mem_filter.mpr ⟨hx, hc⟩)
  · rw [if_neg hc, sub_zero]
    refine Finset.sum_congr (Finset.erase_eq_of_notMem fun h => hc ?_) fun _ _ => rfl
    exact (Finset.mem_filter.mp h).2

/-- The pull on a vertex does not depend on where it is itself. -/
theorem pull_update (x : ι) (c d : κ) : W.pull (Function.update part x d) x c = W.pull part x c := by
  unfold pull
  refine Finset.sum_congr (Finset.filter_congr fun j hj => ?_) fun _ _ => rfl
  rw [Function.update_of_ne (Finset.ne_of_mem_erase hj)]

/-- **Moving a vertex** changes the modularity by the difference of the pulls. -/
theorem modularity_move {x : ι} (hx : x ∈ W.vertices) (d : κ) :
    W.modularity (Function.update part x d) - W.modularity part =
      2 * (W.pull part x d - W.pull part x (part x)) / W.total := by
  have hrest : (∑ i ∈ W.vertices.erase x, ∑ j ∈ W.vertices.erase x,
      if Function.update part x d i = Function.update part x d j then W.excess i j else 0) =
        ∑ i ∈ W.vertices.erase x, ∑ j ∈ W.vertices.erase x,
          if part i = part j then W.excess i j else 0 := by
    refine Finset.sum_congr rfl fun i hi => Finset.sum_congr rfl fun j hj => ?_
    rw [Function.update_of_ne (Finset.ne_of_mem_erase hi),
      Function.update_of_ne (Finset.ne_of_mem_erase hj)]
  unfold modularity
  rw [W.sum_pairs_eq part hx, W.sum_pairs_eq _ hx, hrest, Function.update_self, pull_update]
  ring

/-- **When moving a vertex to another class improves the modularity**: the weight to the new
class, less its share, exceeds the weight to the rest of the old one, less the share of the
rest. -/
theorem modularity_lt_move_iff (hpos : 0 < W.total) {x : ι} (hx : x ∈ W.vertices) {d : κ}
    (hd : part x ≠ d) :
    W.modularity part < W.modularity (Function.update part x d) ↔
      W.toward part x (part x) - W.weight x x -
          W.degree x * (W.volume part (part x) - W.degree x) / W.total <
        W.toward part x d - W.degree x * W.volume part d / W.total := by
  have hmove := W.modularity_move part hx d
  rw [W.pull_eq part hx, W.pull_eq part hx, if_neg hd, if_pos rfl, excess] at hmove
  have hrw : W.modularity part < W.modularity (Function.update part x d) ↔
      0 < W.modularity (Function.update part x d) - W.modularity part := sub_pos.symm
  have hdiv : ∀ q : ℚ, 0 < 2 * q / W.total ↔ 0 < q := fun q => by
    rw [div_pos_iff_of_pos_right hpos, mul_pos_iff_of_pos_left two_pos]
  rw [hrw, hmove, hdiv]
  have hsplit : W.degree x * (W.volume part (part x) - W.degree x) / W.total =
      W.degree x * W.volume part (part x) / W.total - W.degree x * W.degree x / W.total := by
    ring
  rw [hsplit]
  constructor <;> intro h <;> linarith

end Weighted

end Modularity
