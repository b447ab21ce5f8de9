import Mathlib.Data.List.Perm.Basic

/-!
# The first value of a list of groups

Groups that are gone over one after the other, each in an order that is not determined, until an
entry has a value. The values that can be found (`List.Found`) are those of the first group in which
any entry has one. So the orders do not matter if the values of this group agree
(`List.findSome?_flatten_eq`), and any of them is found by an order that goes to its entry first
(`List.findSome?_flatten_of_head`).

What value an entry has may depend on the run as well: `can a x` says that some run finds `x` at the
entry `a`.
-/

namespace List

variable {α β : Type*} {can : α → β → Prop}

/-- **The values that can be found**: those of the first group that has any. -/
def Found (can : α → β → Prop) : List (List α) → β → Prop
  | [], _ => False
  | l :: ls, x => (∃ a ∈ l, can a x) ∨ (∀ a ∈ l, ∀ y, ¬can a y) ∧ Found can ls x

/-- **Where a value is found**: in a group with none in the groups before it. -/
theorem found_iff {ls : List (List α)} {x : β} : Found can ls x ↔
    ∃ ls₁ l ls₂, ls = ls₁ ++ l :: ls₂ ∧ (∃ a ∈ l, can a x) ∧
      ∀ a ∈ ls₁.flatten, ∀ y, ¬can a y := by
  induction ls with
  | nil => exact ⟨False.elim, fun ⟨ls₁, l, ls₂, h, _⟩ => by simp at h⟩
  | cons l ls ih =>
    rw [Found, ih]
    constructor
    · rintro (hl | ⟨hnone, ls₁, l', ls₂, rfl, hfound, hbefore⟩)
      · exact ⟨[], l, ls, rfl, hl, fun a ha => absurd ha not_mem_nil⟩
      · refine ⟨l :: ls₁, l', ls₂, rfl, hfound, fun a ha => ?_⟩
        rcases mem_append.mp ha with ha | ha
        · exact hnone a ha
        · exact hbefore a ha
    · rintro ⟨_ | ⟨m, ls₁⟩, l', ls₂, heq, hfound, hbefore⟩
      · obtain ⟨rfl, rfl⟩ := cons.inj heq
        exact .inl hfound
      · obtain ⟨rfl, rfl⟩ := cons.inj heq
        exact .inr ⟨fun a ha => hbefore a (mem_append_left _ ha), ls₁, l', ls₂, rfl, hfound,
          fun a ha => hbefore a (mem_append_right _ ha)⟩

/-- A run: it goes over the groups in an order of its own, and has for an entry a value that the
entry can have, if it can have any. -/
structure Runs (can : α → β → Prop) (ls : List (List α)) (f : α → Option β)
    (ls' : List (List α)) : Prop where
  perm : Forall₂ Perm ls' ls
  sound : ∀ a ∈ ls.flatten, ∀ x, f a = some x → can a x
  complete : ∀ a ∈ ls.flatten, ∀ x, can a x → (f a).isSome = true

theorem Runs.tail {l l' : List α} {ls ls' : List (List α)} {f : α → Option β}
    (h : Runs can (l :: ls) f (l' :: ls')) : Runs can ls f ls' :=
  ⟨(forall₂_cons.mp h.perm).2, fun a ha => h.sound a (mem_append_right l ha),
    fun a ha => h.complete a (mem_append_right l ha)⟩

/-- **What a run finds can be found**, and it finds something if anything can be found. -/
theorem Runs.found {f : α → Option β} {ls ls' : List (List α)} (h : Runs can ls f ls') :
    (∀ x, ls'.flatten.findSome? f = some x → Found can ls x) ∧
      (ls'.flatten.findSome? f = none → ∀ x, ¬Found can ls x) := by
  induction ls generalizing ls' with
  | nil =>
    obtain rfl := forall₂_nil_right_iff.mp h.perm
    exact ⟨fun x hx => absurd hx (by simp), fun _ x hx => hx⟩
  | cons l ls ih =>
    obtain ⟨l', ls', hl, hls, rfl⟩ := forall₂_cons_right_iff.mp h.perm
    obtain ⟨ihsome, ihnone⟩ := ih h.tail
    have hblank : l'.findSome? f = none → ∀ a ∈ l, ∀ y, ¬can a y := by
      intro hnone a ha y hcan
      have hsome := h.complete a (mem_append_left _ ha) y hcan
      rw [findSome?_eq_none_iff.mp hnone a (hl.mem_iff.mpr ha)] at hsome
      cases hsome
    rw [flatten_cons, findSome?_append]
    cases hfirst : l'.findSome? f with
    | some x =>
      refine ⟨fun y hy => .inl ?_, fun hnone => by cases hnone⟩
      obtain rfl := Option.some.inj hy
      obtain ⟨a, ha, hx⟩ := exists_of_findSome?_eq_some hfirst
      have hal := hl.mem_iff.mp ha
      exact ⟨a, hal, h.sound a (mem_append_left _ hal) x hx⟩
    | none =>
      refine ⟨fun x hx => .inr ⟨hblank hfirst, ihsome x hx⟩, fun hnone x => ?_⟩
      rintro (⟨a, ha, hcan⟩ | ⟨-, hrest⟩)
      · exact hblank hfirst a ha x hcan
      · exact ihnone hnone x hrest

/-- **Two runs find the same**, if the values that can be found agree. -/
theorem findSome?_flatten_eq {f f' : α → Option β} {ls ls₁ ls₂ : List (List α)}
    (h₁ : Runs can ls f ls₁) (h₂ : Runs can ls f' ls₂)
    (hagree : ∀ x y, Found can ls x → Found can ls y → x = y) :
    ls₁.flatten.findSome? f = ls₂.flatten.findSome? f' := by
  cases hx : ls₁.flatten.findSome? f with
  | none =>
    cases hy : ls₂.flatten.findSome? f' with
    | none => rfl
    | some y => exact absurd (h₂.found.1 y hy) (h₁.found.2 hx y)
  | some x =>
    cases hy : ls₂.flatten.findSome? f' with
    | none => exact absurd (h₁.found.1 x hx) (h₂.found.2 hy x)
    | some y => rw [hagree x y (h₁.found.1 x hx) (h₂.found.1 y hy)]

/-- A run that goes to an entry first finds its value, if no group before has any. -/
theorem findSome?_flatten_of_head {f : α → Option β} {ls₁ ls₂ : List (List α)} {l : List α} {a : α}
    {x : β} (hbefore : ∀ b ∈ ls₁.flatten, f b = none) (hhead : l.head? = some a)
    (hx : f a = some x) : (ls₁ ++ l :: ls₂).flatten.findSome? f = some x := by
  obtain ⟨l, rfl⟩ : ∃ l', l = a :: l' := by
    cases l with
    | nil => cases hhead
    | cons b l => exact ⟨l, by rw [Option.some.inj hhead]⟩
  rw [flatten_append, findSome?_append, findSome?_eq_none_iff.mpr hbefore, Option.none_or, flatten_cons, cons_append,
    findSome?_cons, hx]

end List
