import Mathlib.Data.List.Basic
import Mathlib.Data.List.Nodup
import Mathlib.Data.Finset.Card
import Gortex.Lib.Fold

/-!
# Writing the first match, or appending

A loop that looks for the first entry of a list with a property, writes it if there is one, and
else appends an entry of its own – if it has one to append. `List.upsert` is a turn of such a loop.

If writing an entry twice is writing it once, and an appended entry is one that the loop finds and
does not write any more, all the turns of a loop come to one turn (`List.foldl_upsert`): the first
entry that they have to append is the one that is appended. So a loop that is run again changes
nothing (`List.foldl_upsert_twice`).
-/

namespace List

variable {α : Type*} (p : α → Prop) [DecidablePred p] (f : α → α)

/-- **Write the first entry with a property**, or append one. -/
def upsert (new : Option α) : List α → List α
  | [] => new.toList
  | a :: l => if p a then f a :: l else a :: upsert new l

variable {p f}

theorem upsert_nil (new : Option α) : upsert p f new [] = new.toList := rfl

theorem upsert_cons_pos {a : α} (h : p a) (new : Option α) (l : List α) :
    upsert p f new (a :: l) = f a :: l := if_pos h

theorem upsert_cons_neg {a : α} (h : ¬p a) (new : Option α) (l : List α) :
    upsert p f new (a :: l) = a :: upsert p f new l := if_neg h

/-- No entry has the property: one is appended. -/
theorem upsert_of_forall {l : List α} (h : ∀ a ∈ l, ¬p a) (new : Option α) :
    upsert p f new l = l ++ new.toList := by
  induction l with
  | nil => rfl
  | cons a l ih =>
    rw [upsert_cons_neg (h a mem_cons_self), ih fun b hb => h b (mem_cons_of_mem a hb), cons_append]

/-- Some entry has the property: none is appended. -/
theorem upsert_of_exists {l : List α} (h : ∃ a ∈ l, p a) (new new' : Option α) :
    upsert p f new l = upsert p f new' l := by
  induction l with
  | nil =>
    obtain ⟨a, ha, -⟩ := h
    exact absurd ha not_mem_nil
  | cons a l ih =>
    by_cases ha : p a
    · rw [upsert_cons_pos ha, upsert_cons_pos ha]
    · rw [upsert_cons_neg ha, upsert_cons_neg ha, ih]
      obtain ⟨b, hb, hpb⟩ := h
      rcases mem_cons.mp hb with rfl | hb
      · exact absurd hpb ha
      · exact ⟨b, hb, hpb⟩

/-- The property is there afterwards, if it was or an entry with it is appended. -/
theorem exists_mem_upsert (hp : ∀ a, p (f a) ↔ p a) {new : Option α}
    (hnew : ∀ a ∈ new, p a) {l : List α} :
    (∃ a ∈ upsert p f new l, p a) ↔ (∃ a ∈ l, p a) ∨ new.isSome := by
  induction l with
  | nil =>
    rw [upsert_nil]
    cases new with
    | none => simp
    | some a => simpa using hnew a rfl
  | cons a l ih =>
    by_cases ha : p a
    · rw [upsert_cons_pos ha]
      exact iff_of_true ⟨f a, mem_cons_self, (hp a).mpr ha⟩ (.inl ⟨a, mem_cons_self, ha⟩)
    · rw [upsert_cons_neg ha, exists_mem_cons_iff, exists_mem_cons_iff, ih]
      simp only [ha, false_or]

/-- **Two turns are one turn.** -/
theorem upsert_upsert (hp : ∀ a, p (f a) ↔ p a) (hf : ∀ a, f (f a) = f a) {new : Option α}
    (hnew : ∀ a ∈ new, p a ∧ f a = a) (new' : Option α) (l : List α) :
    upsert p f new' (upsert p f new l) = upsert p f (new.or new') l := by
  induction l with
  | nil =>
    rw [upsert_nil, upsert_nil]
    cases new with
    | none => rfl
    | some a =>
      obtain ⟨ha, hfix⟩ := hnew a rfl
      rw [Option.toList_some, upsert_cons_pos ha, hfix, Option.some_or, Option.toList_some]
  | cons a l ih =>
    by_cases ha : p a
    · rw [upsert_cons_pos ha, upsert_cons_pos ha, upsert_cons_pos ((hp a).mpr ha), hf]
    · rw [upsert_cons_neg ha, upsert_cons_neg ha, upsert_cons_neg ha, ih]

/-- **All the turns of a loop are one turn**, that appends the first entry there is to append. -/
theorem foldl_upsert (hp : ∀ a, p (f a) ↔ p a) (hf : ∀ a, f (f a) = f a) {news : List (Option α)}
    (hnew : ∀ a, some a ∈ news → p a ∧ f a = a) (l : List α) :
    news.foldl (fun l new => upsert p f new l) l =
      if news = [] then l else upsert p f (news.findSome? id) l := by
  induction news generalizing l with
  | nil => rfl
  | cons new news ih =>
    rw [foldl_cons, ih fun a ha => hnew a (mem_cons_of_mem new ha), if_neg (cons_ne_nil new news)]
    have htwo := upsert_upsert hp hf (fun a (ha : new = some a) => hnew a (ha ▸ mem_cons_self))
      (news.findSome? id) l
    have hor : (new :: news).findSome? id = new.or (news.findSome? id) := by
      cases new <;> rfl
    by_cases hnil : news = []
    · subst hnil
      rw [if_pos rfl, hor, findSome?_nil, Option.or_none]
    · rw [if_neg hnil, hor, htwo]

/-- **A loop that is run again changes nothing.** -/
theorem foldl_upsert_twice (hp : ∀ a, p (f a) ↔ p a) (hf : ∀ a, f (f a) = f a)
    {news : List (Option α)} (hnew : ∀ a, some a ∈ news → p a ∧ f a = a) (l : List α) :
    news.foldl (fun l new => upsert p f new l) (news.foldl (fun l new => upsert p f new l) l) =
      news.foldl (fun l new => upsert p f new l) l := by
  rw [foldl_upsert hp hf hnew, foldl_upsert hp hf hnew]
  by_cases hnil : news = []
  · rw [if_pos hnil, if_pos hnil]
  · rw [if_neg hnil, if_neg hnil, upsert_upsert hp hf, Option.or_self]
    intro a ha
    obtain ⟨o, ho, rfl⟩ := exists_of_findSome?_eq_some ha
    exact hnew a ho

/-- **An entry is the one that is found**, if none of those before it is. -/
theorem find?_eq_some_iff_takeWhile {p q : α → Bool} {l : List α} {a : α} (ha : a ∈ l)
    (hp : p a = true) (hq : ∀ b ∈ l, q b = true ↔ b = a) :
    l.find? p = some a ↔ ∀ b ∈ l.takeWhile fun b => !q b, p b = false := by
  induction l with
  | nil => exact absurd ha not_mem_nil
  | cons b l ih =>
    rw [find?_cons, takeWhile_cons]
    by_cases hb : b = a
    · subst hb
      simp [hp, (hq b mem_cons_self).mpr rfl]
    · have hqb : q b = false := Bool.eq_false_iff.mpr fun h => hb ((hq b mem_cons_self).mp h)
      have hal : a ∈ l := (mem_cons.mp ha).resolve_left fun h => hb h.symm
      rw [hqb, Bool.not_false, if_pos rfl, forall_mem_cons,
        ← ih hal fun c hc => hq c (mem_cons_of_mem b hc)]
      cases hpb : p b with
      | true => simpa using hb
      | false => simp

/-- Writing an entry through a pointer to the first one with the property. -/
theorem map_update_eq_upsert {β : Type*} [DecidableEq β] {read : β → α} {l : List β}
    (hl : l.Nodup) {r : β} (hr : l.find? (fun r => p (read r)) = some r) (new : Option α) :
    l.map (fun r' => if r' = r then f (read r) else read r') =
      upsert p f new (l.map read) := by
  induction l with
  | nil => simp at hr
  | cons b l ih =>
    obtain ⟨hb, hl⟩ := nodup_cons.mp hl
    rw [map_cons, map_cons]
    by_cases hpb : p (read b)
    · rw [find?_cons_of_pos (p := fun r => p (read r)) (decide_eq_true hpb)] at hr
      obtain rfl := Option.some.inj hr
      rw [if_pos rfl, upsert_cons_pos hpb]
      congr 1
      refine map_congr_left fun r' hr' => if_neg ?_
      rintro rfl
      exact hb hr'
    · rw [find?_cons_of_neg (p := fun r => p (read r)) (by simpa using hpb)] at hr
      have hne : b ≠ r := by
        rintro rfl
        exact hb (mem_of_find?_eq_some hr)
      rw [if_neg hne, upsert_cons_neg hpb, ih hl hr]

end List
