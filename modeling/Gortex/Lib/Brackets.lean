import Mathlib.Algebra.BigOperators.Group.List.Basic
import Mathlib.Algebra.Order.Ring.Int
import Mathlib.Data.List.Basic
import Mathlib.Data.Nat.Find

/-!
# Brackets

Texts that are read with a counter of open brackets. What a character does to the counter is its
weight, so that one kind of brackets, or several kinds counted together, are different weights on
the same text. A text is balanced if the counter never falls below its start and ends there.

Two loops are of interest: the search for the bracket that closes the one already open
(`Brackets.closing`), and splitting at the separators outside of all brackets
(`Brackets.split`). The lemmas say what they find in a text that is put together from balanced
pieces.
-/

namespace Brackets

variable {α : Type*} (w : α → ℤ)

/-- How many brackets are open after a text. -/
def depth (l : List α) : ℤ := (l.map w).sum

@[simp] theorem depth_nil : depth w [] = 0 := rfl

@[simp] theorem depth_cons (a : α) (l : List α) : depth w (a :: l) = w a + depth w l := by
  simp [depth]

@[simp] theorem depth_append (l l' : List α) : depth w (l ++ l') = depth w l + depth w l' := by
  simp [depth]

/-- **A balanced text.** -/
structure Balanced (l : List α) : Prop where
  nonneg : ∀ u, u <+: l → 0 ≤ depth w u
  depth_eq : depth w l = 0

variable {w}

/-! ### Balanced texts -/

namespace Balanced

theorem of_forall {l : List α} (h : ∀ a ∈ l, w a = 0) : Balanced w l := by
  have hzero : ∀ u : List α, (∀ a ∈ u, w a = 0) → depth w u = 0 := by
    intro u hu
    rw [depth, List.map_congr_left hu]
    simp
  exact ⟨fun u hu => (hzero u fun a ha => h a (hu.subset ha)).ge, hzero l h⟩

theorem append {l l' : List α} (h : Balanced w l) (h' : Balanced w l') : Balanced w (l ++ l') := by
  refine ⟨fun u hu => ?_, by rw [depth_append, h.depth_eq, h'.depth_eq, add_zero]⟩
  obtain ⟨t, ht⟩ := hu
  rcases List.append_eq_append_iff.mp ht with ⟨v, rfl, -⟩ | ⟨v, rfl, rfl⟩
  · exact h.nonneg u (List.prefix_append u v)
  · rw [depth_append, h.depth_eq, zero_add]
    exact h'.nonneg v (List.prefix_append v t)

/-- A text in brackets. -/
theorem group {o c : α} {l : List α} (h : Balanced w l) (ho : 0 ≤ w o) (hoc : w o + w c = 0) :
    Balanced w (o :: l ++ [c]) := by
  refine ⟨fun u hu => ?_, ?_⟩
  · rcases u with _ | ⟨a, u⟩
    · exact le_rfl
    obtain ⟨rfl, hrest⟩ := List.cons_prefix_cons.mp hu
    rw [depth_cons]
    rcases List.prefix_concat_iff.mp hrest with rfl | hrest
    · rw [depth_append, h.depth_eq, depth_cons, depth_nil]
      omega
    · exact add_nonneg ho (h.nonneg u hrest)
  · rw [depth_append, depth_cons, h.depth_eq, depth_cons, depth_nil]
    omega

/-- Two kinds of brackets, counted together. -/
theorem add {w' : α → ℤ} {l : List α} (h : Balanced w l) (h' : Balanced w' l) :
    Balanced (w + w') l := by
  have hsum : ∀ u : List α, depth (w + w') u = depth w u + depth w' u := by
    intro u
    induction u with
    | nil => rfl
    | cons a u ih =>
      rw [depth_cons, depth_cons, depth_cons, ih, Pi.add_apply]
      exact add_add_add_comm _ _ _ _
  refine ⟨fun u hu => ?_, by rw [hsum, h.depth_eq, h'.depth_eq, add_zero]⟩
  rw [hsum]
  exact add_nonneg (h.nonneg u hu) (h'.nonneg u hu)

theorem nil : Balanced w [] := of_forall fun _ h => nomatch h

/-- Texts with separators between them. -/
theorem intercalate {sep : α} (hsep : w sep = 0) {l : List (List α)}
    (h : ∀ t ∈ l, Balanced w t) : Balanced w ([sep].intercalate l) := by
  induction l with
  | nil => exact nil
  | cons t l ih =>
    rw [List.forall_mem_cons] at h
    cases l with
    | nil =>
      rw [List.intercalate_singleton]
      exact h.1
    | cons t' l =>
      have hone : Balanced w [sep] := of_forall fun a ha => by rw [List.mem_singleton.mp ha, hsep]
      rw [List.intercalate_cons_cons]
      exact (h.1.append hone).append (ih h.2)

end Balanced

/-! ### The closing bracket -/

section Closing

variable (w)

/-- What stands before the bracket that closes the last of those open, and after it. -/
def closing : ℤ → List α → List α → Option (List α × List α)
  | _, _, [] => none
  | d, start, a :: l =>
    if d + w a = 0 then some (start, l) else closing (d + w a) (start ++ [a]) l

variable {w}

/-- While a bracket is open, the search goes on. -/
theorem closing_append {d : ℤ} (start : List α) {l : List α}
    (h : ∀ u, u <+: l → 0 < d + depth w u) (r : List α) :
    closing w d start (l ++ r) = closing w (d + depth w l) (start ++ l) r := by
  induction l generalizing d start with
  | nil => rw [List.nil_append, depth_nil, add_zero, List.append_nil]
  | cons a l ih =>
    have hne : d + w a ≠ 0 := by
      have := h [a] (List.cons_prefix_cons.mpr ⟨rfl, List.nil_prefix⟩)
      rw [depth_cons, depth_nil, add_zero] at this
      exact this.ne'
    have hrest : ∀ u, u <+: l → 0 < d + w a + depth w u := fun u hu => by
      have := h (a :: u) (List.cons_prefix_cons.mpr ⟨rfl, hu⟩)
      rwa [depth_cons, ← add_assoc] at this
    rw [List.cons_append, closing, if_neg hne, ih (start ++ [a]) hrest, depth_cons,
      List.append_assoc, List.singleton_append, add_assoc]

/-- **The closing bracket** after a balanced text. -/
theorem closing_eq {l : List α} (h : Balanced w l) {c : α} (hc : w c = -1) (r : List α) :
    closing w 1 [] (l ++ c :: r) = some (l, r) := by
  have hopen : ∀ u, u <+: l → 0 < 1 + depth w u := fun u hu => by
    have := h.nonneg u hu
    omega
  rw [closing_append [] hopen, h.depth_eq, closing, hc, if_pos (by omega), List.nil_append]

/-- What is found stands in the text, with the closing bracket between. -/
theorem closing_length {d : ℤ} {start l : List α} {m : List α × List α}
    (h : closing w d start l = some m) : m.1.length + m.2.length + 1 = start.length + l.length := by
  induction l generalizing d start with
  | nil => exact absurd h (Option.some_ne_none m).symm
  | cons a l ih =>
    rw [closing] at h
    by_cases hzero : d + w a = 0
    · rw [if_pos hzero] at h
      obtain rfl := Option.some_inj.mp h
      rw [List.length_cons, add_assoc]
    · rw [if_neg hzero] at h
      rw [ih h, List.length_append, List.length_singleton, List.length_cons]
      omega

end Closing

/-! ### Splitting at the outer separators -/

section Split

variable [DecidableEq α] (w) (sep : α)

/-- The pieces of the rest of a text, after the start of the first one. -/
def splitFrom : ℤ → List α → List α → List (List α)
  | _, start, [] => [start]
  | d, start, a :: l =>
    if a = sep ∧ d = 0 then start :: splitFrom 0 [] l else splitFrom (d + w a) (start ++ [a]) l

/-- **The pieces** between the separators outside of all brackets. -/
def split (l : List α) : List (List α) := splitFrom w sep 0 [] l

/-- **No separator is outside of all brackets.** -/
def Shut (l : List α) : Prop := ∀ u v, l = u ++ sep :: v → depth w u ≠ 0

variable {w sep}

omit [DecidableEq α] in
theorem Shut.of_notMem {l : List α} (h : sep ∉ l) : Shut w sep l := by
  rintro u v rfl
  exact absurd (List.mem_append_right u List.mem_cons_self) h

omit [DecidableEq α] in
theorem Shut.append {l l' : List α} (h : Shut w sep l) (hzero : depth w l = 0)
    (h' : Shut w sep l') : Shut w sep (l ++ l') := by
  intro u v heq
  rcases List.append_eq_append_iff.mp heq with ⟨t, rfl, ht⟩ | ⟨t, rfl, ht⟩
  · rw [depth_append, hzero, zero_add]
    exact h' t v ht
  · rcases t with _ | ⟨a, t⟩
    · exact absurd rfl (h' [] v ht.symm)
    · rw [List.cons_append, List.cons.injEq] at ht
      obtain ⟨rfl, -⟩ := ht
      exact h u t rfl

omit [DecidableEq α] in
theorem Shut.append_of_notMem {l l' : List α} (h : Shut w sep l) (h' : sep ∉ l') :
    Shut w sep (l ++ l') := by
  intro u v heq
  rcases List.append_eq_append_iff.mp heq with ⟨t, rfl, ht⟩ | ⟨t, rfl, ht⟩
  · exact absurd (ht ▸ List.mem_append_right t List.mem_cons_self) h'
  · rcases t with _ | ⟨a, t⟩
    · exact absurd (by rw [← List.nil_append l', ← ht]; exact List.mem_cons_self) h'
    · obtain ⟨rfl, -⟩ := List.cons.inj ht
      exact h u t rfl

/-- While no separator is outside, the piece goes on. -/
theorem splitFrom_append {d : ℤ} (start : List α) {l : List α}
    (h : ∀ u v, l = u ++ sep :: v → d + depth w u ≠ 0) (r : List α) :
    splitFrom w sep d start (l ++ r) = splitFrom w sep (d + depth w l) (start ++ l) r := by
  induction l generalizing d start with
  | nil => rw [List.nil_append, depth_nil, add_zero, List.append_nil]
  | cons a l ih =>
    have hne : ¬(a = sep ∧ d = 0) := by
      rintro ⟨rfl, rfl⟩
      exact h [] l rfl rfl
    have hrest : ∀ u v, l = u ++ sep :: v → d + w a + depth w u ≠ 0 := by
      rintro u v rfl
      have := h (a :: u) v rfl
      rwa [depth_cons, ← add_assoc] at this
    rw [List.cons_append, splitFrom, if_neg hne, ih (start ++ [a]) hrest, depth_cons,
      List.append_assoc, List.singleton_append, add_assoc]

/-- **A text of one piece.** -/
theorem split_of_shut {l : List α} (h : Shut w sep l) : split w sep l = [l] := by
  have := splitFrom_append [] (d := 0) (fun u v heq => by rw [zero_add]; exact h u v heq) []
  rwa [List.append_nil, List.nil_append] at this

/-- **The first piece** of a text, and the others. -/
theorem split_append {l : List α} (h : Shut w sep l) (hzero : depth w l = 0) (r : List α) :
    split w sep (l ++ sep :: r) = l :: split w sep r := by
  rw [split, splitFrom_append [] (fun u v heq => by rw [zero_add]; exact h u v heq), hzero,
    splitFrom, if_pos ⟨rfl, add_zero 0⟩, List.nil_append, split]

omit [DecidableEq α] in
/-- A text that is not of one piece has a first one. -/
theorem exists_of_not_shut {l : List α} (h : ¬Shut w sep l) :
    ∃ u v, l = u ++ sep :: v ∧ depth w u = 0 ∧ Shut w sep u := by
  -- the shortest text before a separator that is outside
  have hex : ∃ n, ∃ u v, l = u ++ sep :: v ∧ depth w u = 0 ∧ u.length = n := by
    unfold Shut at h
    push Not at h
    obtain ⟨u, v, heq, hzero⟩ := h
    exact ⟨u.length, u, v, heq, hzero, rfl⟩
  classical
  obtain ⟨u, v, rfl, hzero, hlen⟩ := Nat.find_spec hex
  refine ⟨u, v, rfl, hzero, ?_⟩
  rintro u' v' rfl hzero'
  refine Nat.find_min hex (m := u'.length) ?_ ⟨u', v' ++ sep :: v, ?_, hzero', rfl⟩
  · rw [← hlen, List.length_append, List.length_cons]
    omega
  · rw [List.append_assoc, List.cons_append]

/-- The pieces on both sides of an outer separator. -/
theorem split_append_split (hsep : w sep = 0) {l : List α} (hzero : depth w l = 0) (r : List α) :
    split w sep (l ++ sep :: r) = split w sep l ++ split w sep r := by
  by_cases hshut : Shut w sep l
  · rw [split_append hshut hzero, split_of_shut hshut, List.singleton_append]
  · obtain ⟨u, v, rfl, hu, hshut⟩ := exists_of_not_shut hshut
    have hv : depth w v = 0 := by
      rwa [depth_append, hu, zero_add, depth_cons, hsep, zero_add] at hzero
    rw [List.append_assoc, List.cons_append, split_append hshut hu, split_append hshut hu,
      split_append_split hsep hv, List.cons_append]
termination_by l.length

/-- There is a piece. -/
theorem splitFrom_ne_nil (d : ℤ) (start l : List α) : splitFrom w sep d start l ≠ [] := by
  induction l generalizing d start with
  | nil => exact List.cons_ne_nil _ _
  | cons a l ih =>
    rw [splitFrom]
    split
    · exact List.cons_ne_nil _ _
    · exact ih _ _

/-- **A list of texts** with separators between them, if no bracket is open after any of them. -/
theorem split_intercalate (hsep : w sep = 0) {l : List (List α)} (hne : l ≠ [])
    (h : ∀ t ∈ l, depth w t = 0) : split w sep ([sep].intercalate l) = l.flatMap (split w sep) := by
  induction l with
  | nil => exact absurd rfl hne
  | cons t l ih =>
    rw [List.forall_mem_cons] at h
    cases l with
    | nil => rw [List.intercalate_singleton, List.flatMap_singleton]
    | cons t' l =>
      have hrest := ih (List.cons_ne_nil _ _) h.2
      rw [List.intercalate_cons_cons, List.append_assoc, List.singleton_append,
        split_append_split hsep h.1, hrest]
      exact List.flatMap_cons.symm

/-- **The pieces are of one piece** each. -/
theorem shut_of_mem_split {l piece : List α} (h : piece ∈ split w sep l) : Shut w sep piece := by
  by_cases hshut : Shut w sep l
  · rw [split_of_shut hshut, List.mem_singleton] at h
    rwa [h]
  · obtain ⟨u, v, hl, hzero, hu⟩ := exists_of_not_shut hshut
    rw [hl, split_append hu hzero] at h
    rcases List.mem_cons.mp h with rfl | h
    · exact hu
    · exact shut_of_mem_split h
termination_by l.length
decreasing_by
  rw [hl, List.length_append, List.length_cons]
  omega

/-- No piece is longer than the text. -/
theorem length_le_of_mem_split {l piece : List α} (h : piece ∈ split w sep l) :
    piece.length ≤ l.length := by
  by_cases hshut : Shut w sep l
  · rw [split_of_shut hshut, List.mem_singleton] at h
    rw [h]
  · obtain ⟨u, v, rfl, hzero, hu⟩ := exists_of_not_shut hshut
    rw [split_append hu hzero] at h
    rw [List.length_append, List.length_cons]
    rcases List.mem_cons.mp h with rfl | h
    · omega
    · have := length_le_of_mem_split h
      omega
termination_by l.length

end Split

end Brackets
