import Mathlib.Data.List.Basic

/-!
# Cutting a text with an automaton

A loop over a text that keeps a state, and stops at the first character at which a condition on
the state and the character holds. The next state may depend on the character ahead, as it does
where an opening mark has two characters.

What is found is stated without the loop: the text before the cut, the state the automaton has
after it, and that it stops nowhere before (`Automaton.cut_eq_some_iff`,
`Automaton.cut_eq_none_iff`).
-/

namespace Automaton

variable {α σ : Type*} (next : σ → α → Option α → σ) (stop : σ → α → Bool)

/-- The state after a text, before the text `rest`. -/
def run : σ → List α → List α → σ
  | s, [], _ => s
  | s, a :: u, rest => run (next s a (u ++ rest).head?) u rest

/-- **The text before the first character where the automaton stops**, and the text after it. -/
def cut : σ → List α → Option (List α × List α)
  | _, [] => none
  | s, a :: l =>
    if stop s a = true then some ([], l)
    else (cut (next s a l.head?) l).map (Prod.map (a :: ·) id)

variable {next stop}

/-- A state that no character ahead enters is that of a fold. -/
theorem run_eq_foldl {f : σ → α → σ} (s : σ) (u rest : List α) :
    run (fun s a _ => f s a) s u rest = u.foldl f s := by
  induction u generalizing s with
  | nil => rfl
  | cons a u ih => exact ih (f s a)

theorem cut_cons_of_stop {s : σ} {a : α} (h : stop s a = true) (l : List α) :
    cut next stop s (a :: l) = some ([], l) := if_pos h

theorem cut_cons {s : σ} {a : α} (h : stop s a = false) (l : List α) :
    cut next stop s (a :: l) = (cut next stop (next s a l.head?) l).map (Prod.map (a :: ·) id) :=
  if_neg (by rw [h]; exact Bool.false_ne_true)

/-- **Where there is no cut**: the automaton stops nowhere. -/
theorem cut_eq_none_iff {s : σ} {l : List α} :
    cut next stop s l = none ↔
      ∀ u a v, l = u ++ a :: v → stop (run next s u (a :: v)) a = false := by
  induction l generalizing s with
  | nil =>
    refine ⟨fun _ u a v h => ?_, fun _ => rfl⟩
    exact absurd h.symm (List.append_ne_nil_of_right_ne_nil u (List.cons_ne_nil a v))
  | cons b l ih =>
    cases hb : stop s b with
    | true =>
      rw [cut_cons_of_stop hb]
      refine ⟨fun h => absurd h (Option.some_ne_none _), fun h => ?_⟩
      exact absurd hb (by rw [show stop s b = false from h [] b l rfl]; exact Bool.false_ne_true)
    | false =>
      rw [cut_cons hb, Option.map_eq_none_iff, ih]
      constructor
      · intro h u a v heq
        rcases u with _ | ⟨c, u⟩
        · obtain ⟨rfl, -⟩ := List.cons.inj heq
          exact hb
        · obtain ⟨rfl, rfl⟩ := List.cons.inj heq
          exact h u a v rfl
      · rintro h u a v rfl
        exact h (b :: u) a v rfl

/-- **Where the cut is**: the automaton stops there, and nowhere before. -/
theorem cut_eq_some_iff {s : σ} {l u v : List α} :
    cut next stop s l = some (u, v) ↔ ∃ a, l = u ++ a :: v ∧
      stop (run next s u (a :: v)) a = true ∧
        ∀ u' b v', u = u' ++ b :: v' →
          stop (run next s u' (b :: v' ++ a :: v)) b = false := by
  induction l generalizing s u with
  | nil =>
    refine ⟨fun h => absurd h.symm (Option.some_ne_none _), ?_⟩
    rintro ⟨a, h, -⟩
    exact absurd h.symm (List.append_ne_nil_of_right_ne_nil u (List.cons_ne_nil a v))
  | cons b l ih =>
    -- the automaton stops at the first letter, or goes on from the next state
    cases hb : stop s b with
    | true =>
      rw [cut_cons_of_stop hb]
      constructor
      · intro h
        obtain ⟨rfl, rfl⟩ := Prod.mk.inj (Option.some_inj.mp h)
        exact ⟨b, rfl, hb, fun u' c v' h => absurd h.symm
          (List.append_ne_nil_of_right_ne_nil u' (List.cons_ne_nil c v'))⟩
      · rintro ⟨a, heq, -, hbefore⟩
        rcases u with _ | ⟨c, u⟩
        · obtain ⟨rfl, rfl⟩ := List.cons.inj heq
          rfl
        · obtain ⟨rfl, rfl⟩ := List.cons.inj heq
          have hstop : stop s b = false := hbefore [] b u rfl
          exact absurd hb (by rw [hstop]; exact Bool.false_ne_true)
    | false =>
      rw [cut_cons hb]
      constructor
      · intro h
        obtain ⟨⟨u', w⟩, hcut, heq⟩ := Option.map_eq_some_iff.mp h
        obtain ⟨rfl, rfl⟩ := Prod.mk.inj heq
        obtain ⟨a, rfl, hstop, hbefore⟩ := ih.mp hcut
        refine ⟨a, rfl, hstop, fun u'' c v'' heq => ?_⟩
        rcases u'' with _ | ⟨d, u''⟩
        · obtain ⟨rfl, -⟩ := List.cons.inj heq
          exact hb
        · obtain ⟨rfl, rfl⟩ := List.cons.inj heq
          have := hbefore u'' c v'' rfl
          simpa only [run, List.append_eq, List.cons_append, List.append_assoc] using this
      · rintro ⟨a, heq, hstop, hbefore⟩
        rcases u with _ | ⟨c, u⟩
        · obtain ⟨rfl, rfl⟩ := List.cons.inj heq
          exact absurd hstop (by
            rw [show run next s [] (b :: l) = s from rfl, hb]
            exact Bool.false_ne_true)
        · obtain ⟨rfl, rfl⟩ := List.cons.inj heq
          refine Option.map_eq_some_iff.mpr ⟨(u, v), ih.mpr ⟨a, rfl, hstop, ?_⟩, rfl⟩
          rintro u' c v' rfl
          have := hbefore (b :: u') c v' rfl
          simpa only [run, List.append_eq, List.cons_append, List.append_assoc] using this

end Automaton
