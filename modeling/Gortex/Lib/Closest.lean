import Mathlib.Data.List.Induction
import Mathlib.Data.List.Perm.Basic
import Mathlib.Data.Int.Order.Basic

/-!
# The closest entry

A loop that keeps the entry with the smallest measure it has seen, and passes over the entries
that have no measure. It starts from a bound, which an entry must be below to be taken at all, and
an entry replaces the one that is kept only if its measure is smaller: of several closest entries
the first is the result (`List.closest_eq_some`). Whether there is a result, and how close it is, do
not depend on the order of the entries (`List.isSome_closest_of_perm`).
-/

namespace List

variable {α : Type*} (measure : α → Option ℤ)

/-- A turn of the loop: an entry takes the place of the one that is kept, if it is closer. -/
def closer (s : Option α × ℤ) (a : α) : Option α × ℤ :=
  match measure a with
  | some m => if m < s.2 then (some a, m) else s
  | none => s

/-- **The first closest entry**, and its measure. -/
def closest (bound : ℤ) (l : List α) : Option α × ℤ := l.foldl (closer measure) (none, bound)

/-- The entry is measured, and no entry of the list is closer. -/
structure Closest (bound : ℤ) (l : List α) (a : α) (m : ℤ) : Prop where
  mem : a ∈ l
  measured : measure a = some m
  lt : m < bound
  le : ∀ b ∈ l, ∀ n, measure b = some n → m ≤ n

variable {measure} {bound : ℤ} {l l' : List α}

variable (measure bound) in
/-- **What the loop has after a list**: nothing if no entry is below the bound, and else a closest
entry. -/
theorem closest_cases (l : List α) :
    (closest measure bound l = (none, bound) ∧ ∀ a ∈ l, ∀ m, measure a = some m → bound ≤ m) ∨
      ∃ a m, closest measure bound l = (some a, m) ∧ Closest measure bound l a m := by
  induction l using List.reverseRecOn with
  | nil => exact .inl ⟨rfl, fun a ha => absurd ha not_mem_nil⟩
  | append_singleton l b ih =>
    have hstep : closest measure bound (l ++ [b]) = closer measure (closest measure bound l) b :=
      foldl_concat ..
    rw [hstep, closer]
    cases hb : measure b with
    | none =>
      -- the entry is passed over
      have hall : ∀ {q : ℤ → Prop}, (∀ a ∈ l, ∀ n, measure a = some n → q n) →
          ∀ a ∈ l ++ [b], ∀ n, measure a = some n → q n := by
        intro q hq a ha n hn
        rcases mem_append.mp ha with ha | ha
        · exact hq a ha n hn
        · rw [mem_singleton.mp ha, hb] at hn
          cases hn
      rcases ih with ⟨hres, hnone⟩ | ⟨a, m, hres, h⟩
      · exact .inl ⟨hres, hall hnone⟩
      · exact .inr ⟨a, m, hres, mem_append_left _ h.mem, h.measured, h.lt, hall h.le⟩
    | some n =>
      simp only
      rcases ih with ⟨hres, hnone⟩ | ⟨a, m, hres, h⟩
      · rw [hres]
        split_ifs with hlt
        · refine .inr ⟨b, n, rfl, mem_append_right _ mem_cons_self, hb, hlt, fun c hc k hk => ?_⟩
          rcases mem_append.mp hc with hc | hc
          · exact le_trans (le_of_lt hlt) (hnone c hc k hk)
          · rw [mem_singleton.mp hc, hb] at hk
            exact le_of_eq (Option.some.inj hk)
        · refine .inl ⟨rfl, fun c hc k hk => ?_⟩
          rcases mem_append.mp hc with hc | hc
          · exact hnone c hc k hk
          · rw [mem_singleton.mp hc, hb] at hk
            exact Option.some.inj hk ▸ not_lt.mp hlt
      · rw [hres]
        split_ifs with hlt
        · refine .inr ⟨b, n, rfl, mem_append_right _ mem_cons_self, hb, lt_trans hlt h.lt, ?_⟩
          intro c hc k hk
          rcases mem_append.mp hc with hc | hc
          · exact le_trans (le_of_lt hlt) (h.le c hc k hk)
          · rw [mem_singleton.mp hc, hb] at hk
            exact le_of_eq (Option.some.inj hk)
        · refine .inr ⟨a, m, rfl, mem_append_left _ h.mem, h.measured, h.lt, ?_⟩
          intro c hc k hk
          rcases mem_append.mp hc with hc | hc
          · exact h.le c hc k hk
          · rw [mem_singleton.mp hc, hb] at hk
            exact Option.some.inj hk ▸ not_lt.mp hlt

/-- **A result is a closest entry.** -/
theorem closest_eq_some {a : α} (ha : (closest measure bound l).1 = some a) :
    ∃ m, closest measure bound l = (some a, m) ∧ Closest measure bound l a m := by
  rcases closest_cases measure bound l with ⟨hres, -⟩ | ⟨b, m, hres, h⟩
  · rw [hres] at ha
    cases ha
  · rw [hres] at ha ⊢
    obtain rfl := Option.some.inj ha
    exact ⟨m, rfl, h⟩

theorem Closest.perm {a : α} {m : ℤ} (h : Closest measure bound l a m) (hl : l.Perm l') :
    Closest measure bound l' a m :=
  ⟨hl.mem_iff.mp h.mem, h.measured, h.lt, fun b hb => h.le b (hl.mem_iff.mpr hb)⟩

/-- Two closest entries are equally close. -/
theorem Closest.eq_measure {a b : α} {m n : ℤ} (h : Closest measure bound l a m)
    (h' : Closest measure bound l b n) : m = n :=
  le_antisymm (h.le b h'.mem n h'.measured) (h'.le a h.mem m h.measured)

variable (measure bound) in
/-- **Whether there is a result, and its measure, do not depend on the order** of the entries. -/
theorem isSome_closest_of_perm (hl : l.Perm l') :
    (closest measure bound l).1.isSome = (closest measure bound l').1.isSome ∧
      (closest measure bound l).2 = (closest measure bound l').2 := by
  rcases closest_cases measure bound l with ⟨hres, hnone⟩ | ⟨a, m, hres, h⟩
  · rcases closest_cases measure bound l' with ⟨hres', -⟩ | ⟨b, n, -, h'⟩
    · rw [hres, hres']
      exact ⟨rfl, rfl⟩
    · exact absurd h'.lt (not_lt.mpr (hnone b (hl.mem_iff.mpr h'.mem) n h'.measured))
  · rcases closest_cases measure bound l' with ⟨-, hnone'⟩ | ⟨b, n, hres', h'⟩
    · exact absurd h.lt (not_lt.mpr (hnone' a (hl.mem_iff.mp h.mem) m h.measured))
    · rw [hres, hres', h.eq_measure (h'.perm hl.symm)]
      exact ⟨rfl, rfl⟩

end List
