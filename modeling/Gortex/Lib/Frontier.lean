import Mathlib.Data.Finset.Card
import Mathlib.Logic.Relation
import Gortex.Lib.GoMap

/-!
# Closing a set under a relation, frontier by frontier

What is reached from some starts by the steps of a relation, the successors of a vertex
being a list. A state holds the set of the vertices seen, as a map to booleans, and those
seen last, the frontier. A round empties the frontier and scans the successors of what
was in it: a vertex not seen before is marked and enters the new frontier. The loop runs
until a round leaves nothing, and there is no bound on the graph but that the successors
lie in a finite set: each round that leaves something has marked some of that set
(`Frontier.unseen_level_lt`), so the loop ends, and it ends with the closure
(`Frontier.exists_loop`).
-/

namespace Frontier

variable {α : Type} [DecidableEq α]

/-! ### The loop -/

/-- The vertices seen and, among them, those to be scanned. -/
structure State (α : Type) [DecidableEq α] where
  seen : GoMap α Bool
  frontier : List α

/-- Whether a vertex is marked. -/
def State.has (s : State α) (a : α) : Bool := (s.seen.lookup a).getD false

/-- Mark a vertex, unless it is. -/
def visit (s : State α) (a : α) : State α :=
  if s.has a = true then s
  else { seen := s.seen.insert a true, frontier := s.frontier ++ [a] }

/-- One round. -/
def level (next : α → List α) (s : State α) : State α :=
  s.frontier.foldl (fun s a => (next a).foldl visit s) { s with frontier := [] }

/-- Rounds until the frontier is empty. -/
def loop (next : α → List α) : ℕ → State α → Option (State α)
  | 0, _ => none
  | fuel + 1, s => if s.frontier = [] then some s else loop next fuel (level next s)

/-- The state without vertices. -/
def empty : State α where
  seen := ∅
  frontier := []

/-! ### One round -/

variable {s : State α}

@[simp]
theorem has_empty (a : α) : (empty : State α).has a = false := rfl

theorem has_visit (s : State α) (a b : α) : (visit s a).has b = true ↔ s.has b = true ∨ b = a := by
  rw [visit]
  split_ifs with h
  · exact ⟨Or.inl, fun hb => hb.elim id fun hb => hb ▸ h⟩
  · rw [State.has, GoMap.lookup_insert]
    split_ifs with hb
    · simp [hb]
    · simp [hb, State.has]

theorem mem_frontier_visit (s : State α) (a b : α) :
    b ∈ (visit s a).frontier ↔ b ∈ s.frontier ∨ b = a ∧ s.has b = false := by
  rw [visit]
  split_ifs with h
  · refine ⟨Or.inl, fun hb => hb.elim id fun hb => ?_⟩
    rw [hb.1, h] at hb
    exact absurd hb.2 (by decide)
  · rw [List.mem_append, List.mem_singleton]
    refine or_congr_right ⟨fun hb => ⟨hb, ?_⟩, And.left⟩
    rw [hb]
    exact Bool.eq_false_iff.mpr h

theorem has_foldl_visit (l : List α) (s : State α) (b : α) :
    (l.foldl visit s).has b = true ↔ s.has b = true ∨ b ∈ l := by
  induction l generalizing s with
  | nil => simp
  | cons a l ih => rw [List.foldl_cons, ih, has_visit, List.mem_cons, or_assoc]

/-- The frontier takes in what is new. -/
theorem mem_frontier_foldl_visit (l : List α) (s : State α) (b : α) :
    b ∈ (l.foldl visit s).frontier ↔ b ∈ s.frontier ∨ b ∈ l ∧ s.has b = false := by
  induction l generalizing s with
  | nil => simp
  | cons a l ih =>
    have hnew : (visit s a).has b = false ↔ s.has b = false ∧ b ≠ a := by
      rw [← Bool.not_eq_true, has_visit, not_or, Bool.not_eq_true]
    rw [List.foldl_cons, ih, mem_frontier_visit, hnew, List.mem_cons]
    tauto

/-- A round is one scan of all the successors of the frontier. -/
theorem level_eq (next : α → List α) (s : State α) :
    level next s = (s.frontier.flatMap next).foldl visit { s with frontier := [] } := by
  rw [level, List.foldl_flatMap]

theorem has_level (next : α → List α) (s : State α) (b : α) :
    (level next s).has b = true ↔ s.has b = true ∨ ∃ a ∈ s.frontier, b ∈ next a := by
  rw [level_eq, has_foldl_visit, List.mem_flatMap]
  rfl

theorem mem_frontier_level (next : α → List α) (s : State α) (b : α) :
    b ∈ (level next s).frontier ↔ (∃ a ∈ s.frontier, b ∈ next a) ∧ s.has b = false := by
  rw [level_eq, mem_frontier_foldl_visit, List.mem_flatMap]
  simp only [List.not_mem_nil, false_or]
  rfl

/-! ### The loop ends -/

/-- What a finite set holds that is not marked. -/
def unseen (U : Finset α) (s : State α) : Finset α := U.filter fun a => s.has a = false

/-- **A round that leaves something has marked something.** -/
theorem unseen_level_lt {next : α → List α} {U : Finset α} (hU : ∀ a, ∀ b ∈ next a, b ∈ U)
    (h : (level next s).frontier ≠ []) :
    (unseen U (level next s)).card < (unseen U s).card := by
  obtain ⟨b, hb⟩ := List.exists_mem_of_ne_nil _ h
  rw [mem_frontier_level] at hb
  obtain ⟨⟨a, ha, hab⟩, hnew⟩ := hb
  refine Finset.card_lt_card (Finset.ssubset_iff_of_subset ?_ |>.mpr ⟨b, ?_, ?_⟩)
  · intro c hc
    rw [unseen, Finset.mem_filter, ← Bool.not_eq_true, has_level, not_or, Bool.not_eq_true] at hc
    exact Finset.mem_filter.mpr ⟨hc.1, hc.2.1⟩
  · exact Finset.mem_filter.mpr ⟨hU a b hab, hnew⟩
  · intro hc
    have hmarked : (level next s).has b = true := (has_level next s b).mpr (.inr ⟨a, ha, hab⟩)
    rw [unseen, Finset.mem_filter, hmarked] at hc
    exact absurd hc.2 (by decide)

/-! ### What it ends with -/

/-- A vertex is reached from some starts. -/
def Reached (next : α → List α) (start : α → Prop) (b : α) : Prop :=
  ∃ a, start a ∧ Relation.ReflTransGen (fun a b => b ∈ next a) a b

/-- **The invariant of the loop.** What is marked is reached, the starts are marked, and the
successors of what has left the frontier are. -/
structure Inv (next : α → List α) (start : α → Prop) (s : State α) : Prop where
  sound : ∀ b, s.has b = true → Reached next start b
  starts : ∀ a, start a → s.has a = true
  marked : ∀ a ∈ s.frontier, s.has a = true
  closed : ∀ a, s.has a = true → a ∉ s.frontier → ∀ b ∈ next a, s.has b = true

variable {next : α → List α} {start : α → Prop}

/-- The starts, marked one after another. -/
theorem inv_starts (next : α → List α) (l : List α) :
    Inv next (fun a => a ∈ l) (l.foldl visit empty) where
  sound b hb := by
    rw [has_foldl_visit, has_empty] at hb
    exact ⟨b, hb.resolve_left (by decide), .refl⟩
  starts a ha := (has_foldl_visit l _ a).mpr (.inr ha)
  marked a ha := by
    rw [mem_frontier_foldl_visit] at ha
    exact (has_foldl_visit l _ a).mpr (.inr (ha.resolve_left List.not_mem_nil).1)
  closed a ha hnot b _ := by
    -- what is marked at the start is in the frontier
    rw [has_foldl_visit, has_empty] at ha
    refine absurd ?_ hnot
    rw [mem_frontier_foldl_visit]
    exact .inr ⟨ha.resolve_left (by decide), has_empty a⟩

theorem Inv.level (h : Inv next start s) : Inv next start (level next s) where
  sound b hb := by
    rcases (has_level next s b).mp hb with hb | ⟨a, ha, hab⟩
    · exact h.sound b hb
    · obtain ⟨c, hc, hca⟩ := h.sound a (h.marked a ha)
      exact ⟨c, hc, hca.tail hab⟩
  starts a ha := (has_level next s a).mpr (.inl (h.starts a ha))
  marked a ha := (has_level next s a).mpr (.inr ((mem_frontier_level next s a).mp ha).1)
  closed a ha hnot b hab := by
    refine (has_level next s b).mpr ?_
    rcases Bool.eq_false_or_eq_true (s.has a) with hs | hs
    · -- seen before this round: in its frontier or closed already
      by_cases hf : a ∈ s.frontier
      · exact .inr ⟨a, hf, hab⟩
      · exact .inl (h.closed a hs hf b hab)
    · -- a vertex marked in this round is in the new frontier
      refine absurd ((mem_frontier_level next s a).mpr ⟨?_, hs⟩) hnot
      exact ((has_level next s a).mp ha).resolve_left (by rw [hs]; decide)

/-- **With an empty frontier, the marked vertices are those reached.** -/
theorem Inv.has_iff (h : Inv next start s) (hs : s.frontier = []) (b : α) :
    s.has b = true ↔ Reached next start b := by
  refine ⟨h.sound b, ?_⟩
  rintro ⟨a, ha, hab⟩
  induction hab with
  | refl => exact h.starts a ha
  | tail _ hstep ih => exact h.closed _ ih (hs ▸ List.not_mem_nil) _ hstep

/-- A round before the loop. -/
theorem loop_level {rounds : ℕ} {s' : State α} (hs : s.frontier ≠ [])
    (h : ∀ fuel, rounds ≤ fuel → loop next fuel (Frontier.level next s) = some s') :
    ∀ fuel, rounds + 1 ≤ fuel → loop next fuel s = some s'
  | 0, hfuel => absurd hfuel (Nat.not_succ_le_zero rounds)
  | fuel + 1, hfuel => by
    rw [loop, if_neg hs]
    exact h fuel (Nat.le_of_succ_le_succ hfuel)

theorem loop_of_frontier (hs : s.frontier = []) :
    ∀ fuel, 1 ≤ fuel → loop next fuel s = some s
  | 0, hfuel => absurd hfuel (Nat.not_succ_le_zero 0)
  | fuel + 1, _ => by rw [loop, if_pos hs]

/-- **The loop returns the closure**, on any graph whose successors lie in a finite set. -/
theorem exists_loop {U : Finset α} (hU : ∀ a, ∀ b ∈ next a, b ∈ U) (h : Inv next start s) :
    ∃ rounds s', (∀ fuel, rounds ≤ fuel → loop next fuel s = some s') ∧
      ∀ b, s'.has b = true ↔ Reached next start b := by
  induction hn : (unseen U s).card using Nat.strong_induction_on generalizing s with
  | _ n ih =>
    by_cases hs : s.frontier = []
    · exact ⟨1, s, loop_of_frontier hs, h.has_iff hs⟩
    · by_cases hs' : (Frontier.level next s).frontier = []
      · exact ⟨_, _, loop_level hs (loop_of_frontier hs'), h.level.has_iff hs'⟩
      · obtain ⟨rounds, s', hloop, hiff⟩ := ih _ (hn ▸ unseen_level_lt hU hs') h.level rfl
        exact ⟨rounds + 1, s', loop_level hs hloop, hiff⟩

end Frontier
