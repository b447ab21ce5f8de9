import Mathlib.Data.Nat.Notation
import Mathlib.Order.MinMax

/-!
# Programs that may panic, and may not end

A program with loops is a family of runs, one for each amount of fuel. A run ends with a value,
with an error that it returns, in a panic, or because its fuel is used up; it also records what
has happened on the way, and some of what can happen is not meant to. A program **settles** on an
outcome if no fuel gives another one, some fuel is enough for it, and nothing bad happens on the
way (`Fueled.Settles`); it **fails** if with any fuel it panics, or does something bad, or is not
finished (`Fueled.Fails`). Both follow the program's structure: what comes after a program that
settles on a value decides (`Fueled.Settles.bind`, `Fueled.Settles.bind_fails`), and nothing can
come after one that does not.
-/

namespace Fueled

/-- How a run ends. -/
inductive Outcome (ε α : Type)
  | ok (a : α)
  | error (e : ε)
  | panicked
  | outOfFuel

/-- **A run**: how it ends, and what has happened on the way. -/
structure Run (σ ε α : Type) where
  outcome : Outcome ε α
  events : List σ

variable {σ ε α β : Type}

namespace Run

/-- A run, and what comes after it when it ends with a value. -/
def andThen (run : Run σ ε α) (f : α → Run σ ε β) : Run σ ε β :=
  match run.outcome with
  | .ok a => ⟨(f a).outcome, run.events ++ (f a).events⟩
  | .error e => ⟨.error e, run.events⟩
  | .panicked => ⟨.panicked, run.events⟩
  | .outOfFuel => ⟨.outOfFuel, run.events⟩

/-- The run ends with a value or an error. -/
def Returns (run : Run σ ε α) : Prop :=
  (∃ a, run.outcome = .ok a) ∨ ∃ e, run.outcome = .error e

/-- Nothing bad has happened on the way. -/
def Clean (good : σ → Prop) (run : Run σ ε α) : Prop := ∀ e ∈ run.events, good e

variable {good : σ → Prop} {run : Run σ ε α} {f : α → Run σ ε β}

theorem outcome_andThen_of_ok {a : α} (h : run.outcome = .ok a) :
    (run.andThen f).outcome = (f a).outcome := by
  rw [andThen, h]

theorem outcome_andThen_of_error {e : ε} (h : run.outcome = .error e) :
    (run.andThen f).outcome = .error e := by
  rw [andThen, h]

theorem outcome_andThen_of_panicked (h : run.outcome = .panicked) :
    (run.andThen f).outcome = .panicked := by
  rw [andThen, h]

theorem outcome_andThen_of_outOfFuel (h : run.outcome = .outOfFuel) :
    (run.andThen f).outcome = .outOfFuel := by
  rw [andThen, h]

theorem clean_andThen_of_ok {a : α} (h : run.outcome = .ok a) :
    (run.andThen f).Clean good ↔ run.Clean good ∧ (f a).Clean good := by
  rw [andThen, h]
  exact List.forall_mem_append

theorem clean_andThen_of_error {e : ε} (h : run.outcome = .error e) :
    (run.andThen f).Clean good ↔ run.Clean good := by
  rw [andThen, h]
  exact Iff.rfl

/-- **What has happened stays**: nothing that comes after a run makes it clean. -/
theorem Clean.of_andThen (h : (run.andThen f).Clean good) : run.Clean good := by
  intro e he
  apply h e
  rw [andThen]
  cases run.outcome with
  | ok a => exact List.mem_append_left _ he
  | error _ => exact he
  | panicked => exact he
  | outOfFuel => exact he

end Run

/-- **A program settles on an outcome.** -/
structure Settles (good : σ → Prop) (program : ℕ → Run σ ε α) (o : Outcome ε α) : Prop where
  all : ∀ fuel, (program fuel).outcome = .outOfFuel ∨
    (program fuel).outcome = o ∧ (program fuel).Clean good
  enough : ∃ n, ∀ fuel, n ≤ fuel → (program fuel).outcome ≠ .outOfFuel

/-- **A program fails**, whatever the fuel. -/
def Fails (good : σ → Prop) (program : ℕ → Run σ ε α) : Prop :=
  ∀ fuel, (program fuel).outcome = .outOfFuel ∨ (program fuel).outcome = .panicked ∨
    ¬(program fuel).Clean good

variable {good : σ → Prop} {program : ℕ → Run σ ε α} {next : α → ℕ → Run σ ε β}

/-! ### What is known of a program -/

theorem Settles.returns {o : Outcome ε α} (h : Settles good program o)
    (ho : (∃ a, o = .ok a) ∨ ∃ e, o = .error e) :
    ∃ fuel, (program fuel).Returns ∧ (program fuel).Clean good := by
  obtain ⟨n, hn⟩ := h.enough
  obtain hout | ⟨heq, hclean⟩ := h.all n
  · exact absurd hout (hn n le_rfl)
  · exact ⟨n, by rwa [Run.Returns, heq], hclean⟩

theorem Fails.not_returns (h : Fails good program) (fuel : ℕ) :
    ¬((program fuel).Returns ∧ (program fuel).Clean good) := by
  rintro ⟨hreturns, hclean⟩
  obtain hout | hout | hbad := h fuel
  · simp [Run.Returns, hout] at hreturns
  · simp [Run.Returns, hout] at hreturns
  · exact hbad hclean

/-! ### Programs without loops -/

/-- A program that needs no fuel settles on its outcome. -/
theorem Settles.of_forall_eq {o : Outcome ε α} {events : List σ}
    (h : ∀ fuel, program fuel = ⟨o, events⟩) (hclean : ∀ e ∈ events, good e)
    (hne : o ≠ .outOfFuel) : Settles good program o where
  all fuel := by
    rw [h fuel]
    exact .inr ⟨rfl, hclean⟩
  enough := ⟨0, fun fuel _ => by rwa [h fuel]⟩

theorem Fails.of_not_clean (h : ∀ fuel, ¬(program fuel).Clean good) : Fails good program :=
  fun fuel => .inr (.inr (h fuel))

theorem Fails.of_panicked (h : ∀ fuel, (program fuel).outcome = .panicked) : Fails good program :=
  fun fuel => .inr (.inl (h fuel))

/-! ### One program after another -/

theorem Settles.bind {a : α} {o : Outcome ε β} (h : Settles good program (.ok a))
    (hnext : Settles good (next a) o) :
    Settles good (fun fuel => (program fuel).andThen fun a => next a fuel) o where
  all fuel := by
    obtain hout | ⟨hok, hclean⟩ := h.all fuel
    · exact .inl (Run.outcome_andThen_of_outOfFuel hout)
    · rw [Run.outcome_andThen_of_ok hok, Run.clean_andThen_of_ok hok]
      obtain hout | ⟨heq, hclean'⟩ := hnext.all fuel
      · exact .inl hout
      · exact .inr ⟨heq, hclean, hclean'⟩
  enough := by
    obtain ⟨n, hn⟩ := h.enough
    obtain ⟨m, hm⟩ := hnext.enough
    refine ⟨max n m, fun fuel hfuel => ?_⟩
    obtain hout | ⟨hok, -⟩ := h.all fuel
    · exact absurd hout (hn fuel (le_of_max_le_left hfuel))
    · rw [Run.outcome_andThen_of_ok hok]
      exact hm fuel (le_of_max_le_right hfuel)

theorem Settles.bind_error {e : ε} (h : Settles good program (.error e)) :
    Settles good (fun fuel => (program fuel).andThen fun a => next a fuel) (.error e) where
  all fuel := by
    obtain hout | ⟨herror, hclean⟩ := h.all fuel
    · exact .inl (Run.outcome_andThen_of_outOfFuel hout)
    · rw [Run.outcome_andThen_of_error herror, Run.clean_andThen_of_error herror]
      exact .inr ⟨rfl, hclean⟩
  enough := by
    obtain ⟨n, hn⟩ := h.enough
    refine ⟨n, fun fuel hfuel => ?_⟩
    obtain hout | ⟨herror, -⟩ := h.all fuel
    · exact absurd hout (hn fuel hfuel)
    · rw [Run.outcome_andThen_of_error herror]
      simp

theorem Settles.bind_fails {a : α} (h : Settles good program (.ok a))
    (hnext : Fails good (next a)) :
    Fails good fun fuel => (program fuel).andThen fun a => next a fuel := by
  intro fuel
  obtain hout | ⟨hok, -⟩ := h.all fuel
  · exact .inl (Run.outcome_andThen_of_outOfFuel hout)
  · rw [Run.outcome_andThen_of_ok hok, Run.clean_andThen_of_ok hok]
    obtain hout | hout | hbad := hnext fuel
    · exact .inl hout
    · exact .inr (.inl hout)
    · exact .inr (.inr fun hclean => hbad hclean.2)

theorem Fails.bind (h : Fails good program) :
    Fails good fun fuel => (program fuel).andThen fun a => next a fuel := by
  intro fuel
  obtain hout | hout | hbad := h fuel
  · exact .inl (Run.outcome_andThen_of_outOfFuel hout)
  · exact .inr (.inl (Run.outcome_andThen_of_panicked hout))
  · exact .inr (.inr fun hclean => hbad hclean.of_andThen)

/-! ### A turn of a loop -/

section Turn

variable {turn : ℕ → Run σ ε α} (hzero : (program 0).outcome = .outOfFuel)
  (hsucc : ∀ fuel, program (fuel + 1) = turn fuel)

include hzero hsucc

/-- **A turn uses fuel up**, and what it settles on does not depend on how much. -/
theorem Settles.of_turn {o : Outcome ε α} (h : Settles good turn o) :
    Settles good program o where
  all
    | 0 => .inl hzero
    | fuel + 1 => by
      rw [hsucc fuel]
      exact h.all fuel
  enough := by
    obtain ⟨n, hn⟩ := h.enough
    refine ⟨n + 1, fun fuel hfuel => ?_⟩
    cases fuel with
    | zero => omega
    | succ fuel =>
      rw [hsucc fuel]
      exact hn fuel (by omega)

theorem Fails.of_turn (h : Fails good turn) : Fails good program
  | 0 => .inl hzero
  | fuel + 1 => by
    rw [hsucc fuel]
    exact h fuel

end Turn

end Fueled
