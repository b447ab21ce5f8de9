import Mathlib.Data.List.Monad
import Mathlib.Data.List.TakeWhile

/-!
# Matching with backtracking

A regular expression of the leftmost-first kind, tried at the head of a text: all the ways to
match, the preferred one first. A greedy repetition prefers more, a lazy one less, and an
alternative its left side; of two expressions in sequence, the ways of the first come before
those of the second. What the expression finds is the first of all ways (`Backtrack.find`).

Not to look at all the ways, the lemmas say what the first one is: a greedy repetition takes all
it can (`Backtrack.head?_many`), and a lazy one no more than the rest needs
(`Backtrack.head?_bind_manyLazy`).
-/

namespace Backtrack

universe u

variable {α β γ : Type u}

/-- The ways to match at the head of a text: the groups and what is left. -/
abbrev Matcher (α β : Type u) : Type u := StateT (List α) List β

/-- The groups of the preferred way. -/
def find (m : Matcher α β) (l : List α) : Option β := (m l).head?.map Prod.fst

/-! ### Expressions -/

/-- An element of a class. -/
def sat (p : α → Bool) : Matcher α α
  | [] => []
  | a :: l => if p a = true then [(a, l)] else []

/-- A text, as it stands. -/
def lit [DecidableEq α] (w : List α) : Matcher α (List α) := fun l =>
  if w <+: l then [(w, l.drop w.length)] else []

/-- Any number of elements of a class, rather more. -/
def many (p : α → Bool) : Matcher α (List α)
  | [] => [([], [])]
  | a :: l =>
    if p a = true then (many p l).map (fun m => (a :: m.1, m.2)) ++ [([], a :: l)]
    else [([], a :: l)]

/-- Any number of elements of a class, rather less. -/
def manyLazy (p : α → Bool) : Matcher α (List α)
  | [] => [([], [])]
  | a :: l =>
    ([], a :: l) :: if p a = true then (manyLazy p l).map fun m => (a :: m.1, m.2) else []

/-- One element of a class or more, rather more. -/
def many1 (p : α → Bool) : Matcher α (List α) := do
  let a ← sat p
  let w ← many p
  return a :: w

/-- A group, or nothing. -/
def opt (m : Matcher α β) (b : β) : Matcher α β := m <|> pure b

/-- The end of the text. -/
def eof : Matcher α PUnit := fun l => if l.isEmpty = true then [(.unit, l)] else []

/-! ### Sequences -/

section Bind

variable {m m' : Matcher α β} {f : β → Matcher α γ} {l w : List α} {b : β} {c : γ}

theorem bind_apply (m : Matcher α β) (f : β → Matcher α γ) (l : List α) :
    (m >>= f) l = (m l).flatMap fun r => f r.1 r.2 := rfl

theorem orElse_apply (m m' : Matcher α β) (l : List α) : (m <|> m') l = m l ++ m' l := rfl

/-- There is only one way to match the first expression. -/
theorem bind_of_singleton {r : List α} (h : m l = [(b, r)]) : (m >>= f) l = f b r := by
  rw [bind_apply, h, List.flatMap_singleton]

theorem bind_of_nil (h : m l = []) : (m >>= f) l = [] := by
  rw [bind_apply, h, List.flatMap_nil]

/-- The second expression matches behind no way of the first. -/
theorem bind_eq_nil (h : ∀ r ∈ m l, f r.1 r.2 = []) : (m >>= f) l = [] := by
  rw [bind_apply, List.flatMap_eq_nil_iff]
  exact h

/-- The preferred way of the first expression is good for the second. -/
theorem head?_bind {r : List α} (h : (m l).head? = some (b, r)) {x : γ × List α}
    (hf : (f b r).head? = some x) : ((m >>= f) l).head? = some x := by
  obtain ⟨rest, hrest⟩ := List.head?_eq_some_iff.mp h
  rw [bind_apply, hrest, List.flatMap_cons, List.head?_append, hf, Option.some_or]

/-- All the ways of the first expression that are good for the second lead to the same. -/
theorem head?_bind_of_forall {x : γ × List α}
    (h : ∀ r ∈ m l, f r.1 r.2 = [] ∨ (f r.1 r.2).head? = some x)
    (hex : ∃ r ∈ m l, (f r.1 r.2).head? = some x) : ((m >>= f) l).head? = some x := by
  rw [bind_apply]
  generalize m l = ways at h hex
  induction ways with
  | nil =>
    obtain ⟨r, hr, -⟩ := hex
    exact absurd hr List.not_mem_nil
  | cons r ways ih =>
    rw [List.forall_mem_cons] at h
    rw [List.flatMap_cons, List.head?_append]
    rcases h.1 with hnil | hsome
    · obtain ⟨r', hr', hx⟩ := hex
      rw [hnil, List.head?_nil, Option.none_or]
      refine ih h.2 ⟨r', (List.mem_cons.mp hr').resolve_left ?_, hx⟩
      rintro rfl
      rw [hnil] at hx
      exact Option.some_ne_none x hx.symm
    · rw [hsome, Option.some_or]

/-- A left side that matches is preferred. -/
theorem head?_orElse {x : β × List α} (h : (m l).head? = some x) :
    ((m <|> m') l).head? = some x := by
  rw [orElse_apply, List.head?_append, h, Option.some_or]

theorem opt_apply (m : Matcher α β) (b : β) (l : List α) : opt m b l = m l ++ [(b, l)] := rfl

theorem opt_of_nil (h : m l = []) (b : β) : opt m b l = [(b, l)] := by
  rw [opt_apply, h, List.nil_append]

theorem head?_opt {x : β × List α} (h : (m l).head? = some x) (b : β) :
    (opt m b l).head? = some x := head?_orElse h

end Bind

/-! ### Classes -/

section Classes

variable {p : α → Bool} {l w : List α} {f : List α → Matcher α γ} {x : γ × List α}

theorem sat_of_pos {a : α} (h : p a = true) (l : List α) : sat p (a :: l) = [(a, l)] := if_pos h

theorem sat_of_head (h : ∀ a ∈ l.head?, p a = false) : sat p l = [] := by
  cases l with
  | nil => rfl
  | cons a l => exact if_neg (by simp [h a rfl])

theorem lit_append [DecidableEq α] (w l : List α) : lit w (w ++ l) = [(w, l)] := by
  rw [lit, if_pos (List.prefix_append w l), List.drop_left]

theorem lit_singleton [DecidableEq α] (a : α) (l : List α) : lit [a] (a :: l) = [([a], l)] :=
  lit_append [a] l

theorem lit_of_not_head [DecidableEq α] (h : ¬w <+: l) : lit w l = [] := if_neg h

/-- A repetition of a class that the next element is not in. -/
theorem many_of_head (h : ∀ a ∈ l.head?, p a = false) : many p l = [([], l)] := by
  cases l with
  | nil => rfl
  | cons a l => exact if_neg (by simp [h a rfl])

/-- Every way of a repetition takes elements of the class off the text. -/
theorem mem_many {r : List α × List α} (h : r ∈ many p l) :
    l = r.1 ++ r.2 ∧ ∀ a ∈ r.1, p a = true := by
  induction l generalizing r with
  | nil =>
    obtain rfl := List.mem_singleton.mp h
    exact ⟨rfl, fun _ h => absurd h List.not_mem_nil⟩
  | cons a l ih =>
    rw [many] at h
    by_cases ha : p a = true
    · rw [if_pos ha, List.mem_append] at h
      rcases h with h | h
      · obtain ⟨q, hq, rfl⟩ := List.mem_map.mp h
        obtain ⟨heq, hall⟩ := ih hq
        exact ⟨congrArg (a :: ·) heq, List.forall_mem_cons.mpr ⟨ha, hall⟩⟩
      · obtain rfl := List.mem_singleton.mp h
        exact ⟨rfl, fun _ h => absurd h List.not_mem_nil⟩
    · rw [if_neg ha] at h
      obtain rfl := List.mem_singleton.mp h
      exact ⟨rfl, fun _ h => absurd h List.not_mem_nil⟩

/-- **A greedy repetition takes all it can.** -/
theorem head?_many (hw : ∀ a ∈ w, p a = true) (hl : ∀ a ∈ l.head?, p a = false) :
    (many p (w ++ l)).head? = some (w, l) := by
  induction w with
  | nil => rw [List.nil_append, many_of_head hl, List.head?_cons]
  | cons a w ih =>
    rw [List.forall_mem_cons] at hw
    rw [List.cons_append, many, if_pos hw.1, List.head?_append, List.head?_map, ih hw.2]
    rfl

theorem head?_many1 (hne : w ≠ []) (hw : ∀ a ∈ w, p a = true) (hl : ∀ a ∈ l.head?, p a = false) :
    (many1 p (w ++ l)).head? = some (w, l) := by
  obtain ⟨a, w, rfl⟩ := List.exists_cons_of_ne_nil hne
  rw [List.forall_mem_cons] at hw
  rw [List.cons_append, many1, bind_of_singleton (sat_of_pos hw.1 _)]
  exact head?_bind (head?_many hw.2 hl) rfl

theorem many1_of_head (h : ∀ a ∈ l.head?, p a = false) : many1 p l = [] :=
  bind_of_nil (sat_of_head h)

/-- Every way of a repetition takes one element at least. -/
theorem mem_many1 {r : List α × List α} (h : r ∈ many1 p l) :
    l = r.1 ++ r.2 ∧ r.1 ≠ [] ∧ ∀ a ∈ r.1, p a = true := by
  cases l with
  | nil => exact absurd h List.not_mem_nil
  | cons a l =>
    by_cases ha : p a = true
    · rw [many1, bind_of_singleton (sat_of_pos ha _), bind_apply, List.mem_flatMap] at h
      obtain ⟨q, hq, hr⟩ := h
      obtain rfl := List.mem_singleton.mp hr
      obtain ⟨heq, hall⟩ := mem_many hq
      exact ⟨congrArg (a :: ·) heq, List.cons_ne_nil _ _, List.forall_mem_cons.mpr ⟨ha, hall⟩⟩
    · rw [many1, bind_of_nil (sat_of_head (by rintro b ⟨⟩; exact Bool.not_eq_true _ ▸ ha))] at h
      exact absurd h List.not_mem_nil

/-- **A lazy repetition takes no more than the rest needs.** -/
theorem head?_bind_manyLazy (hw : ∀ a ∈ w, p a = true)
    (hless : ∀ v s, w = v ++ s → s ≠ [] → f v (s ++ l) = [])
    (h : (f w l).head? = some x) : ((manyLazy p >>= f) (w ++ l)).head? = some x := by
  induction w generalizing f with
  | nil =>
    have hfirst : (manyLazy p l).head? = some ([], l) := by cases l <;> rfl
    exact head?_bind hfirst h
  | cons a w ih =>
    rw [List.forall_mem_cons] at hw
    have hnil := hless [] (a :: w) rfl (List.cons_ne_nil a w)
    have hrest := ih (f := fun v => f (a :: v)) hw.2
      (fun v s hv hs => hless (a :: v) s (congrArg (a :: ·) hv) hs) h
    rw [bind_apply] at hrest
    rw [bind_apply, List.cons_append, manyLazy, if_pos hw.1, List.flatMap_cons]
    have hflat : ((manyLazy p (w ++ l)).map fun m => (a :: m.1, m.2)).flatMap
        (fun r => f r.1 r.2) = (manyLazy p (w ++ l)).flatMap fun r => f (a :: r.1) r.2 := by
      rw [List.flatMap_map]
    rw [hflat, List.head?_append, ← List.cons_append, hnil, List.head?_nil, Option.none_or]
    exact hrest

end Classes

theorem eof_cons (a : α) (l : List α) : eof (a :: l) = [] := rfl

end Backtrack
