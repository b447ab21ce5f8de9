import Mathlib.Data.List.Infix

/-!
# Occurrences of a pattern

A pattern occurs in a text at a position: from there on, the text begins with it. The first
position at which it does is `Occurrence.index`, and to write another text over an occurrence is
`Occurrence.splice`. What is known of the occurrences in the pieces of a text carries over to
the whole as far as no occurrence lies across a seam; of patterns that never overlap,
`Occurrence.Apart`, none does where another one stands.
-/

namespace Occurrence

variable {α : Type*} {p q l u v : List α} {i j : ℕ}

/-! ### Positions -/

/-- The pattern occurs in the text at the position. -/
def At (p l : List α) (i : ℕ) : Prop := i ≤ l.length ∧ p <+: l.drop i

instance [DecidableEq α] (p l : List α) (i : ℕ) : Decidable (At p l i) :=
  inferInstanceAs (Decidable (_ ∧ _))

/-- What stands before the occurrence and what stands after it. -/
theorem at_iff : At p l i ↔ ∃ u v, l = u ++ p ++ v ∧ u.length = i := by
  constructor
  · rintro ⟨hi, v, hv⟩
    refine ⟨l.take i, v, ?_, List.length_take_of_le hi⟩
    rw [List.append_assoc, hv, List.take_append_drop]
  · rintro ⟨u, v, rfl, rfl⟩
    rw [List.append_assoc]
    refine ⟨by rw [List.length_append]; omega, v, ?_⟩
    rw [List.drop_left]

theorem At.add_le (h : At p l i) : i + p.length ≤ l.length := by
  have hle := h.2.length_le
  rw [List.length_drop] at hle
  have hi := h.1
  omega

theorem at_append : At p (u ++ p ++ v) u.length := at_iff.mpr ⟨u, v, rfl, rfl⟩

/-- **What stands before a text** shifts its occurrences. -/
theorem at_append_left : At p (u ++ l) (u.length + i) ↔ At p l i := by
  have hlen : u.length + i ≤ (u ++ l).length ↔ i ≤ l.length := by
    rw [List.length_append]
    omega
  rw [At, At, hlen, List.drop_length_add_append]

theorem At.append_right (h : At p l i) (v : List α) : At p (l ++ v) i := by
  obtain ⟨u, w, rfl, rfl⟩ := at_iff.mp h
  exact at_iff.mpr ⟨u, w ++ v, by simp only [List.append_assoc], rfl⟩

/-- **What ends within the first of two texts** occurs in it. -/
theorem At.of_append_right (h : At p (l ++ v) i) (hle : i + p.length ≤ l.length) : At p l i := by
  refine ⟨by omega, ?_⟩
  have hpre := h.2
  rw [List.drop_append_of_le_length (by omega)] at hpre
  refine List.prefix_of_prefix_length_le hpre (List.prefix_append _ _) ?_
  rw [List.length_drop]
  omega

/-- What begins within the second of two texts occurs in it. -/
theorem At.of_append_left (h : At p (u ++ l) i) (hle : u.length ≤ i) : At p l (i - u.length) := by
  rw [← Nat.add_sub_cancel' hle] at h
  exact at_append_left.mp h

/-- The entries that an occurrence covers are those of the pattern. -/
theorem At.mem (h : At p l i) {a : α} (ha : l[j]? = some a) (hij : i ≤ j)
    (hji : j < i + p.length) : a ∈ p := by
  obtain ⟨u, v, rfl, rfl⟩ := at_iff.mp h
  rw [List.append_assoc, List.getElem?_append_right hij,
    List.getElem?_append_left (by omega)] at ha
  exact List.mem_of_getElem? ha

/-- An occurrence in a part of the text. -/
theorem At.take (h : At p l i) {n : ℕ} (hn : i + p.length ≤ n) : At p (l.take n) i := by
  have h' := h
  rw [← List.take_append_drop n l] at h'
  refine h'.of_append_right ?_
  have hle := h.add_le
  rw [List.length_take]
  omega

theorem At.of_take {n : ℕ} (h : At p (l.take n) i) : At p l i := by
  have happ := h.append_right (l.drop n)
  rwa [List.take_append_drop] at happ

theorem infix_iff : p <:+: l ↔ ∃ i, At p l i := by
  constructor
  · rintro ⟨u, v, rfl⟩
    exact ⟨u.length, at_append⟩
  · rintro ⟨i, hi⟩
    obtain ⟨u, v, rfl, -⟩ := at_iff.mp hi
    exact ⟨u, v, rfl⟩

theorem at_cons_succ {a : α} : At p (a :: l) (i + 1) ↔ At p l i := by
  rw [Nat.add_comm]
  exact at_append_left (u := [a])

theorem at_zero : At p l 0 ↔ p <+: l := by
  rw [At, List.drop_zero, and_iff_right (Nat.zero_le _)]

/-! ### The first occurrence -/

section Index

variable [DecidableEq α]

/-- **The first position** at which the pattern occurs: `strings.Index`. -/
def index (p : List α) : List α → Option ℕ
  | [] => if p = [] then some 0 else none
  | a :: l => if p.isPrefixOf (a :: l) = true then some 0 else (index p l).map (· + 1)

theorem index_eq_none_iff : index p l = none ↔ ∀ i, ¬At p l i := by
  induction l with
  | nil =>
    have hat : ∀ i, At p [] i ↔ p = [] ∧ i = 0 := fun i => by
      rw [At, List.drop_nil, List.prefix_nil, List.length_nil, Nat.le_zero, and_comm]
    rw [index]
    by_cases hp : p = []
    · rw [if_pos hp]
      exact iff_of_false (Option.some_ne_none _) fun h => h 0 ((hat 0).mpr ⟨hp, rfl⟩)
    · rw [if_neg hp]
      exact iff_of_true rfl fun i hi => hp ((hat i).mp hi).1
  | cons a l ih =>
    rw [index]
    by_cases hpre : p.isPrefixOf (a :: l) = true
    · rw [if_pos hpre]
      exact iff_of_false (Option.some_ne_none _) fun h =>
        h 0 (at_zero.mpr (List.isPrefixOf_iff_prefix.mp hpre))
    · rw [if_neg hpre, Option.map_eq_none_iff, ih]
      constructor
      · intro h i hi
        cases i with
        | zero => exact hpre (List.isPrefixOf_iff_prefix.mpr (at_zero.mp hi))
        | succ i => exact h i (at_cons_succ.mp hi)
      · exact fun h i hi => h (i + 1) (at_cons_succ.mpr hi)

theorem index_eq_some_iff : index p l = some i ↔ At p l i ∧ ∀ j < i, ¬At p l j := by
  induction l generalizing i with
  | nil =>
    have hat : ∀ i, At p [] i ↔ p = [] ∧ i = 0 := fun i => by
      rw [At, List.drop_nil, List.prefix_nil, List.length_nil, Nat.le_zero, and_comm]
    rw [index, hat]
    by_cases hp : p = []
    · rw [if_pos hp, Option.some.injEq, and_iff_right hp]
      exact ⟨fun h => ⟨h.symm, fun j hj => by omega⟩, fun h => h.1.symm⟩
    · rw [if_neg hp]
      exact iff_of_false nofun fun h => hp h.1.1
  | cons a l ih =>
    rw [index]
    by_cases hpre : p.isPrefixOf (a :: l) = true
    · have hzero : At p (a :: l) 0 := at_zero.mpr (List.isPrefixOf_iff_prefix.mp hpre)
      rw [if_pos hpre, Option.some.injEq]
      constructor
      · rintro rfl
        exact ⟨hzero, fun j hj => by omega⟩
      · intro h
        by_contra hne
        exact h.2 0 (by omega) hzero
    · have hzero : ¬At p (a :: l) 0 := fun h => hpre (List.isPrefixOf_iff_prefix.mpr (at_zero.mp h))
      rw [if_neg hpre, Option.map_eq_some_iff]
      constructor
      · rintro ⟨k, hk, rfl⟩
        obtain ⟨hat, hfirst⟩ := ih.mp hk
        refine ⟨at_cons_succ.mpr hat, fun j hj => ?_⟩
        cases j with
        | zero => exact hzero
        | succ j => exact fun h => hfirst j (by omega) (at_cons_succ.mp h)
      · rintro ⟨hat, hfirst⟩
        cases i with
        | zero => exact absurd hat hzero
        | succ i =>
          exact ⟨i, ih.mpr ⟨at_cons_succ.mp hat, fun j hj h =>
            hfirst (j + 1) (by omega) (at_cons_succ.mpr h)⟩, rfl⟩

/-- A pattern that occurs has a first position. -/
theorem exists_index (h : At p l i) : ∃ j ≤ i, index p l = some j := by
  cases hindex : index p l with
  | none => exact absurd h (index_eq_none_iff.mp hindex i)
  | some j =>
    refine ⟨j, ?_, rfl⟩
    by_contra hlt
    exact (index_eq_some_iff.mp hindex).2 i (by omega) h

/-- `strings.Contains`. -/
def contains (l p : List α) : Bool := (index p l).isSome

theorem contains_iff : contains l p = true ↔ ∃ i, At p l i := by
  rw [contains, Option.isSome_iff_ne_none, ne_eq, index_eq_none_iff, not_forall]
  simp only [not_not]

/-- The first position in a text is the first one in any longer text. -/
theorem index_append_right (h : index p l = some i) (v : List α) : index p (l ++ v) = some i := by
  obtain ⟨hat, hfirst⟩ := index_eq_some_iff.mp h
  refine index_eq_some_iff.mpr ⟨hat.append_right v, fun j hj hjv => hfirst j hj ?_⟩
  have hle := hat.add_le
  exact hjv.of_append_right (by omega)

end Index

/-! ### Counting -/

section Count

variable [DecidableEq α]

/-- The loop of `strings.Count` for a pattern that is not empty: it goes on after the end of each
occurrence it has found. -/
def countFrom (p : List α) : ℕ → List α → ℕ
  | 0, _ => 0
  | fuel + 1, l =>
    match index p l with
    | none => 0
    | some i => 1 + countFrom p fuel (l.drop (i + p.length))

/-- `strings.Count`: how many occurrences there are that do not overlap. -/
def count (p l : List α) : ℕ := countFrom p (l.length + 1) l

theorem one_le_countFrom (fuel : ℕ) : 1 ≤ countFrom p (fuel + 1) l ↔ ∃ i, At p l i := by
  rw [countFrom]
  cases hindex : index p l with
  | none =>
    exact iff_of_false (Nat.not_succ_le_zero 0) (not_exists.mpr (index_eq_none_iff.mp hindex))
  | some i => exact iff_of_true (Nat.le_add_right 1 _) ⟨i, (index_eq_some_iff.mp hindex).1⟩

/-- **More than one is counted** iff one occurrence begins after the end of another. -/
theorem one_lt_count_iff (hp : p ≠ []) :
    1 < count p l ↔ ∃ i j, At p l i ∧ At p l j ∧ i + p.length ≤ j := by
  have hpos := List.length_pos_iff.mpr hp
  rw [count, countFrom]
  cases hindex : index p l with
  | none =>
    refine iff_of_false (Nat.not_lt_zero 1) ?_
    rintro ⟨i, -, hi, -⟩
    exact index_eq_none_iff.mp hindex i hi
  | some i =>
    obtain ⟨hi, hfirst⟩ := index_eq_some_iff.mp hindex
    have hle := hi.add_le
    obtain ⟨n, hn⟩ := Nat.exists_eq_add_of_le' (show 1 ≤ l.length by omega)
    have hrest : 1 < 1 + countFrom p l.length (l.drop (i + p.length)) ↔
        ∃ j, At p (l.drop (i + p.length)) j := by
      rw [← one_le_countFrom n, ← hn]
      omega
    have hlen : (l.take (i + p.length)).length = i + p.length := List.length_take_of_le hle
    refine hrest.trans ⟨?_, ?_⟩
    · rintro ⟨j, hj⟩
      have happ := at_append_left (u := l.take (i + p.length)) |>.mpr hj
      rw [List.take_append_drop, hlen] at happ
      exact ⟨i, _, hi, happ, Nat.le_add_right _ _⟩
    · rintro ⟨i', j, hi', hj, hij⟩
      have hii : i ≤ i' := by
        by_contra hlt
        exact hfirst i' (by omega) hi'
      rw [← List.take_append_drop (i + p.length) l] at hj
      exact ⟨_, hj.of_append_left (by omega)⟩

end Count

/-! ### Writing over an occurrence -/

/-- The text with `n` entries from the position on replaced. -/
def splice (l : List α) (i n : ℕ) (r : List α) : List α := l.take i ++ r ++ l.drop (i + n)

theorem splice_append_left (u l : List α) (i n : ℕ) (r : List α) :
    splice (u ++ l) (u.length + i) n r = u ++ splice l i n r := by
  rw [splice, splice, List.take_length_add_append, Nat.add_assoc, List.drop_length_add_append]
  simp only [List.append_assoc]

theorem splice_append_right {l : List α} {i n : ℕ} (h : i + n ≤ l.length) (v r : List α) :
    splice (l ++ v) i n r = splice l i n r ++ v := by
  rw [splice, splice, List.take_append_of_le_length (by omega), List.drop_append_of_le_length h]
  simp only [List.append_assoc]

/-- Writing over a pattern between two texts. -/
theorem splice_append (u p v r : List α) :
    splice (u ++ p ++ v) u.length p.length r = u ++ r ++ v := by
  have htake : (u ++ p ++ v).take u.length = u := by rw [List.append_assoc, List.take_left]
  rw [splice, htake, ← List.length_append, List.drop_left]

/-! ### Patterns that do not overlap -/

/-- **Two patterns are apart**: no end of the one is a beginning of the other, but the whole of
both, and the other does not occur within the one. -/
structure Apart (p q : List α) : Prop where
  overlap : ∀ s, s ≠ [] → s <:+ p → s <+: q → s = p
  within : q <:+: p → q = p

instance [DecidableEq α] (p q : List α) : Decidable (Apart p q) :=
  decidable_of_iff
    ((∀ s ∈ p.tails, s ≠ [] → s.isPrefixOf q = true → s = p) ∧ (q <:+: p → q = p)) <| by
    constructor
    · rintro ⟨hover, hwithin⟩
      exact ⟨fun s hne hs hq => hover s ((List.mem_tails s p).mpr hs) hne
        (List.isPrefixOf_iff_prefix.mpr hq), hwithin⟩
    · rintro ⟨hover, hwithin⟩
      exact ⟨fun s hs hne hq => hover s hne ((List.mem_tails s p).mp hs)
        (List.isPrefixOf_iff_prefix.mp hq), hwithin⟩

/-- **What begins later begins after the end.** -/
theorem Apart.le (h : Apart p q) (hi : At p l i) (hj : At q l j) (hij : i < j) :
    i + p.length ≤ j := by
  by_contra hlt
  obtain ⟨u, v, rfl, rfl⟩ := at_iff.mp hi
  rw [List.append_assoc] at hj
  have hq := hj.of_append_left hij.le
  obtain ⟨k, hk⟩ : ∃ k, j = u.length + k := Nat.exists_eq_add_of_le hij.le
  rw [hk, Nat.add_sub_cancel_left] at hq
  rcases Nat.le_total (k + q.length) p.length with hle | hle
  · -- the one lies within the other
    have hwithin := infix_iff.mpr ⟨k, hq.of_append_right hle⟩
    have hlen := congrArg List.length (h.within hwithin)
    omega
  · have hs : p.drop k <+: q := by
      have hpre := hq.2
      rw [List.drop_append_of_le_length (by omega)] at hpre
      refine List.prefix_of_prefix_length_le (List.prefix_append _ _) hpre ?_
      rw [List.length_drop]
      omega
    have hne : p.drop k ≠ [] := fun hnil => by
      rw [List.drop_eq_nil_iff] at hnil
      omega
    have hlen := congrArg List.length (h.overlap _ hne (List.drop_suffix k p) hs)
    rw [List.length_drop] at hlen
    omega

end Occurrence
