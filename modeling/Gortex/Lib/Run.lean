import Mathlib.Logic.Relation
import Mathlib.Order.Basic

/-!
# Runs

A system that takes one step after another: `Run step s l t` says that the actions
`l` lead from `s` to `t`. What every step preserves, a run preserves
(`Run.invariant`), also a property that a step keeps exactly if it meets a condition
(`Run.forall_iff`), and what an action brings about and every step preserves, holds once
the action has occurred (`Run.since`); an invariant that holds under an assumption on
the steps is an invariant of the system whose steps make the assumption (`Run.mono`
restricts a run to them).
-/

/-- The actions of the list, one after the other, lead from the first state to
the last. -/
inductive Run {σ : Type*} {α : Type*} (step : σ → α → σ → Prop) : σ → List α → σ → Prop
  | nil (s : σ) : Run step s [] s
  | cons {s t u : σ} {a : α} {l : List α} :
    step s a t → Run step t l u → Run step s (a :: l) u

namespace Run

variable {σ : Type*} {α : Type*} {step step' : σ → α → σ → Prop} {s t u : σ} {l l' : List α}

/-- **What every step preserves, a run preserves.** -/
theorem invariant {I : σ → Prop} (h : Run step s l t)
    (hstep : ∀ {s a t}, I s → step s a t → I t) (hs : I s) : I t := by
  induction h with
  | nil => exact hs
  | cons h1 _ ih => exact ih (hstep hs h1)

/-- What the steps of a run's actions preserve, the run preserves. -/
theorem invariant_of_mem {I : σ → Prop} (h : Run step s l t)
    (hstep : ∀ {s a t}, a ∈ l → I s → step s a t → I t) (hs : I s) : I t := by
  induction h with
  | nil => exact hs
  | cons h1 _ ih =>
    exact ih (fun ha => hstep (List.mem_cons_of_mem _ ha)) (hstep List.mem_cons_self hs h1)

/-- **What some action brings about and every step preserves** holds after a run in
which the action occurs. -/
theorem since {I J : σ → Prop} {P : α → Prop} (h : Run step s l t)
    (hJ : ∀ {s a t}, J s → step s a t → J t) (hI : ∀ {s a t}, J s → I s → step s a t → I t)
    (hP : ∀ {s a t}, step s a t → P a → I t) (hs : J s) (hl : I s ∨ ∃ a ∈ l, P a) : I t := by
  induction h with
  | nil => exact hl.resolve_right fun ⟨a, ha, _⟩ => nomatch ha
  | cons h1 _ ih =>
    refine ih (hJ hs h1) ?_
    rcases hl with hi | ⟨a, ha, hp⟩
    · exact Or.inl (hI hs hi h1)
    · rcases List.mem_cons.mp ha with rfl | ha
      · exact Or.inl (hP h1 hp)
      · exact Or.inr ⟨a, ha, hp⟩

theorem append (h : Run step s l t) (h' : Run step t l' u) : Run step s (l ++ l') u := by
  induction h with
  | nil => exact h'
  | cons h1 _ ih => exact cons h1 (ih h')

/-- The runs of a deterministic system have their restriction to some of the
steps decided by the whole run: a prefix of a run of such steps is one. -/
theorem of_prefix (hdet : ∀ {s a t t'}, step s a t → step s a t' → t = t')
    (hle : ∀ {s a t}, step' s a t → step s a t) (h : Run step' s l t) (hp : l' <+: l)
    (h' : Run step s l' u) : Run step' s l' u := by
  induction h' generalizing l with
  | nil => exact nil _
  | cons h1 _ ih =>
    cases h with
    | nil => exact absurd (List.prefix_nil.mp hp) (List.cons_ne_nil _ _)
    | cons h2 htail =>
      obtain ⟨rfl, hp'⟩ := List.cons_prefix_cons.mp hp
      obtain rfl := hdet h1 (hle h2)
      exact cons h2 (ih htail hp')

/-- A run in two parts. -/
theorem split (h : Run step s (l ++ l') u) : ∃ t, Run step s l t ∧ Run step t l' u := by
  induction l generalizing s with
  | nil => exact ⟨s, nil s, h⟩
  | cons a l ih =>
    cases h with
    | cons h1 htail =>
      obtain ⟨t, ht, ht'⟩ := ih htail
      exact ⟨t, cons h1 ht, ht'⟩

/-- Where a run of a deterministic system leads to. -/
theorem unique (hdet : ∀ {s a t t'}, step s a t → step s a t' → t = t') (h : Run step s l t)
    (h' : Run step s l u) : t = u := by
  induction h with
  | nil =>
    cases h'
    rfl
  | cons h1 _ ih =>
    cases h' with
    | cons h1' htail =>
      obtain rfl := hdet h1 h1'
      exact ih htail

/-- A run of steps that under an invariant are steps of another system. -/
theorem mono_of {I : σ → Prop} (hI : ∀ {s a t}, I s → step s a t → I t)
    (hle : ∀ {s a t}, I s → step s a t → step' s a t) (h : Run step s l t) (hs : I s) :
    Run step' s l t := by
  induction h with
  | nil => exact nil _
  | cons h1 _ ih => exact cons (hle hs h1) (ih (hI hs h1))

theorem mono (hle : ∀ {s a t}, step s a t → step' s a t) (h : Run step s l t) :
    Run step' s l t :=
  h.mono_of (I := fun _ => True) (fun _ _ => trivial) (fun _ => hle) trivial

/-- **A run whose steps change nothing or improve** makes nothing worse. -/
theorem le_of_improving {β : Type*} [Preorder β] {f : σ → β}
    (hstep : ∀ {s a t}, step s a t → t = s ∨ f s < f t) (h : Run step s l t) : f s ≤ f t :=
  h.invariant (I := fun t => f s ≤ f t) (fun hs h1 => (hstep h1).elim (fun heq => heq ▸ hs)
    fun hlt => hs.trans hlt.le) le_rfl

/-- **A property of all states of a run**, where a step from a state that has it leads to one
that has it exactly if the step meets a condition: all states have it exactly if all steps meet
the condition. -/
theorem forall_iff {I P : σ → Prop} {C : σ → α → Prop} (h : Run step s l t)
    (hdet : ∀ {s a t t'}, step s a t → step s a t' → t = t')
    (hI : ∀ {s a t}, I s → step s a t → I t)
    (hP : ∀ {s a t}, I s → P s → step s a t → (P t ↔ C s a)) (hs : I s) (hp : P s) :
    (∀ pre u, pre <+: l → Run step s pre u → P u) ↔
      Run (fun s a t => step s a t ∧ C s a) s l t := by
  constructor
  · intro hall
    induction h with
    | nil => exact nil _
    | @cons s t u a l h1 _ ih =>
      have hone : P t := hall [a] t (List.prefix_append [a] l) (cons h1 (nil t))
      refine cons ⟨h1, (hP hs hp h1).mp hone⟩ (ih (hI hs h1) hone fun pre v hpre hrun => ?_)
      exact hall (a :: pre) v (List.cons_prefix_cons.mpr ⟨rfl, hpre⟩) (cons h1 hrun)
  · intro hrun pre u hpre h'
    have hsub : Run (fun s a t => step s a t ∧ C s a) s pre u :=
      hrun.of_prefix (@hdet) And.left hpre h'
    have hboth : I u ∧ P u := hsub.invariant (I := fun s => I s ∧ P s)
      (fun hs h1 => ⟨hI hs.1 h1.1, (hP hs.1 hs.2 h1.1).mpr h1.2⟩) ⟨hs, hp⟩
    exact hboth.2

/-- A run of a system whose steps are computed. -/
theorem of_foldlM {f : σ → α → Option σ} (h : l.foldlM f s = some t) :
    Run (fun s a t => f s a = some t) s l t := by
  induction l generalizing s with
  | nil =>
    cases h
    exact nil _
  | cons a l ih =>
    rw [List.foldlM_cons] at h
    obtain ⟨u, hu, ht⟩ := Option.bind_eq_some_iff.mp h
    exact cons hu (ih ht)

end Run
