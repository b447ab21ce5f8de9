import Gortex.Lib.Bfs

/-!
# Distances from several sources

How many hops a vertex is away from the nearest of some sources. A search that goes level by
level finds one level after the other by `Levels.dist_succ`: what is one hop from a level, and
on no level yet.
-/

namespace Levels

variable {α : Type*} {R : α → α → Prop} {S : List α} {n : ℕ} {b c : α}

/-- The vertex is reached from a source in so many hops. -/
def Reached (R : α → α → Prop) (S : List α) (n : ℕ) (b : α) : Prop := ∃ a ∈ S, Bfs.Hops R a n b

/-- **The distance** of a vertex from the sources. -/
def Dist (R : α → α → Prop) (S : List α) (n : ℕ) (b : α) : Prop :=
  Reached R S n b ∧ ∀ m < n, ¬Reached R S m b

theorem dist_zero : Dist R S 0 b ↔ b ∈ S := by
  constructor
  · rintro ⟨⟨a, ha, hb⟩, -⟩
    obtain rfl : b = a := hb
    exact ha
  · exact fun hb => ⟨⟨b, hb, rfl⟩, fun m hm => absurd hm (Nat.not_lt_zero m)⟩

/-- What is reached has a distance. -/
theorem Reached.dist (h : Reached R S n b) : ∃ m ≤ n, Dist R S m b := by
  induction n using Nat.strongRecOn with
  | ind n ih =>
    by_cases hshort : ∃ m < n, Reached R S m b
    · obtain ⟨m, hm, hreached⟩ := hshort
      obtain ⟨k, hk, hdist⟩ := ih m hm hreached
      exact ⟨k, by omega, hdist⟩
    · exact ⟨n, le_rfl, h, fun m hm hreached => hshort ⟨m, hm, hreached⟩⟩

/-- **The next level** is what is one hop from a level, and on none so far. -/
theorem dist_succ :
    Dist R S (n + 1) c ↔ (∃ b, Dist R S n b ∧ R b c) ∧ ¬∃ m ≤ n, Dist R S m c := by
  constructor
  · rintro ⟨⟨a, ha, b, hb, hstep⟩, hnot⟩
    refine ⟨⟨b, ⟨⟨a, ha, hb⟩, ?_⟩, hstep⟩, ?_⟩
    · rintro m hm ⟨a', ha', hb'⟩
      exact hnot (m + 1) (by omega) ⟨a', ha', b, hb', hstep⟩
    · rintro ⟨m, hm, hdist⟩
      exact hnot m (by omega) hdist.1
  · rintro ⟨⟨b, ⟨⟨a, ha, hb⟩, -⟩, hstep⟩, hnot⟩
    refine ⟨⟨a, ha, b, hb, hstep⟩, fun m hm hreached => hnot ?_⟩
    obtain ⟨k, hk, hdist⟩ := hreached.dist
    exact ⟨k, by omega, hdist⟩

end Levels
