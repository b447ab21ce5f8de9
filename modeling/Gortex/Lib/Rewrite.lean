import Mathlib.Data.List.Basic

/-!
# Replacing all matches

`ReplaceAllStringFunc` of a regular expression that matches no empty string: at every position
that no match before has consumed, the text is searched for a match that starts there. What
a match is replaced by may depend on the matches before.
-/

namespace Rewrite

variable {β σ : Type*} (find : List β → Option ℕ) (repl : σ → List β → List β × σ)

/-- Replace all matches, after some characters that a match has consumed. A match is given by
its length. -/
def replaceFrom : σ → ℕ → List β → List β
  | _, _, [] => []
  | s, skip + 1, _ :: l => replaceFrom s skip l
  | s, 0, b :: l =>
    (find (b :: l)).elim (b :: replaceFrom s 0 l) fun n =>
      (repl s ((b :: l).take n)).1 ++ replaceFrom (repl s ((b :: l).take n)).2 (n - 1) l

/-- **Replace all matches.** -/
def replaceAll (s : σ) (l : List β) : List β := replaceFrom find repl s 0 l

variable {find repl}

@[simp] theorem replaceAll_nil (s : σ) : replaceAll find repl s [] = [] := rfl

theorem replaceFrom_eq (s : σ) (skip : ℕ) (l : List β) :
    replaceFrom find repl s skip l = replaceAll find repl s (l.drop skip) := by
  induction skip generalizing l with
  | zero => rfl
  | succ skip ih =>
    cases l with
    | nil => rfl
    | cons b l => exact ih l

/-- A character where no match starts is kept. -/
theorem replaceAll_of_none {b : β} {l : List β} (h : find (b :: l) = none) (s : σ) :
    replaceAll find repl s (b :: l) = b :: replaceAll find repl s l := by
  rw [replaceAll, replaceFrom, h]
  rfl

variable (repl) in
/-- **A match is replaced**, and the search goes on after it. -/
theorem replaceAll_of_match {m l : List β} (hm : m ≠ []) (h : find (m ++ l) = some m.length)
    (s : σ) : replaceAll find repl s (m ++ l) =
      (repl s m).1 ++ replaceAll find repl (repl s m).2 l := by
  obtain ⟨b, m, rfl⟩ := List.exists_cons_of_ne_nil hm
  rw [List.cons_append] at h ⊢
  rw [replaceAll, replaceFrom, h, Option.elim_some, List.length_cons, Nat.add_sub_cancel,
    replaceFrom_eq, List.drop_left, List.take_succ_cons, List.take_left]

/-- Characters where no match can start are kept. -/
theorem replaceAll_append {l : List β} (h : ∀ b ∈ l, ∀ t, find (b :: t) = none) (s : σ)
    (t : List β) : replaceAll find repl s (l ++ t) = l ++ replaceAll find repl s t := by
  induction l with
  | nil => rfl
  | cons b l ih =>
    rw [List.cons_append, replaceAll_of_none (h b List.mem_cons_self _),
      ih fun c hc => h c (List.mem_cons_of_mem b hc), List.cons_append]

/-- The text begins as before, or with a replacement. -/
theorem head_replaceAll {first : β} (hrepl : ∀ s m, ∃ rest, (repl s m).1 = first :: rest) (s : σ)
    (b : β) (l : List β) : ∃ c rest, replaceAll find repl s (b :: l) = c :: rest ∧
      (c = b ∨ (find (b :: l)).isSome = true ∧ c = first) := by
  cases h : find (b :: l) with
  | none => exact ⟨b, _, replaceAll_of_none h s, Or.inl rfl⟩
  | some n =>
    obtain ⟨rest, hrest⟩ := hrepl s ((b :: l).take n)
    refine ⟨first, rest ++ replaceFrom find repl (repl s ((b :: l).take n)).2 (n - 1) l, ?_,
      Or.inr ⟨rfl, rfl⟩⟩
    rw [replaceAll, replaceFrom, h, Option.elim_some, hrest, List.cons_append]

/-! ### Replacing one of several words -/

section Replacer

variable [BEq β]

/-- The first pair whose old word stands at the beginning of the text. -/
def oldAt (oldnew : List (List β × List β)) (l : List β) : Option (List β × List β) :=
  oldnew.find? fun p => p.1.isPrefixOf l

/-- **`strings.NewReplacer`**: at every position the old words are tried in the order they are
given in, and no word is replaced twice. -/
def newReplacer (oldnew : List (List β × List β)) : List β → List β :=
  replaceAll (fun l => (oldAt oldnew l).map fun p => p.1.length)
    (fun (_ : Unit) m => (((oldAt oldnew m).map Prod.snd).getD m, ())) ()

variable {oldnew : List (List β × List β)}

@[simp] theorem newReplacer_nil : newReplacer oldnew ([] : List β) = [] := rfl

theorem newReplacer_of_none {b : β} {l : List β} (h : oldAt oldnew (b :: l) = none) :
    newReplacer oldnew (b :: l) = b :: newReplacer oldnew l :=
  replaceAll_of_none (by rw [h]; rfl) ()

/-- **An old word is replaced by its new one.** -/
theorem newReplacer_of_old {m l new : List β} (hm : m ≠ [])
    (h : ∀ t, oldAt oldnew (m ++ t) = some (m, new)) :
    newReplacer oldnew (m ++ l) = new ++ newReplacer oldnew l := by
  have hself : oldAt oldnew m = some (m, new) := by
    have := h []
    rwa [List.append_nil] at this
  have hmatch : (oldAt oldnew (m ++ l)).map (fun p => p.1.length) = some m.length := by
    rw [h]
    rfl
  rw [newReplacer, replaceAll_of_match _ hm hmatch, hself]
  rfl

/-- A character is replaced by another one. -/
theorem newReplacer_cons_of_old {b b' : β} {l : List β}
    (h : ∀ t, oldAt oldnew (b :: t) = some ([b], [b'])) :
    newReplacer oldnew (b :: l) = b' :: newReplacer oldnew l :=
  newReplacer_of_old (List.cons_ne_nil b []) h

end Replacer

end Rewrite
