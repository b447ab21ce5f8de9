import Mathlib.Algebra.BigOperators.Group.List.Basic
import Mathlib.Algebra.GroupWithZero.Nat
import Mathlib.Data.List.Basic

/-!
# Scanners

A `bufio.Scanner` that splits its input at a delimiter. A token ends at the delimiter, or at the
end of the input if there is something left; an empty token counts only before a delimiter. The
buffer grows up to a maximum, and has to hold the token and something more: a token that is as
large as the maximum is an error, and ends the loop without notice
(`Scanner.tokens_of_le`).
-/

namespace Scanner

variable {β : Type*} [DecidableEq β] (delim : β) (size : β → ℕ) (max : ℕ)

/-- How large a token is. -/
def sizeOf (token : List β) : ℕ := (token.map size).sum

/-- The tokens of the rest of the input, after the start of the first one. -/
def tokensFrom : List β → List β → List (List β)
  | start, [] => if start = [] ∨ max ≤ sizeOf size start then [] else [start]
  | start, b :: input =>
    if b = delim then
      if max ≤ sizeOf size start then [] else start :: tokensFrom [] input
    else tokensFrom (start ++ [b]) input

/-- **The tokens** that a loop over a scanner sees. -/
def tokens (input : List β) : List (List β) := tokensFrom delim size max [] input

@[simp] theorem tokens_nil : tokens delim size max [] = [] := by
  simp [tokens, tokensFrom]

variable {delim size max}

theorem tokensFrom_append {token : List β} (h : delim ∉ token) (start input : List β) :
    tokensFrom delim size max start (token ++ input) =
      tokensFrom delim size max (start ++ token) input := by
  induction token generalizing start with
  | nil => rw [List.nil_append, List.append_nil]
  | cons b token ih =>
    rw [List.mem_cons, not_or] at h
    rw [List.cons_append, tokensFrom, if_neg (Ne.symm h.1), ih h.2, List.append_assoc,
      List.singleton_append]

/-- **A token that fits**, and the tokens after it. -/
theorem tokens_of_lt {token : List β} (h : delim ∉ token) (hsize : sizeOf size token < max)
    (input : List β) : tokens delim size max (token ++ delim :: input) =
      token :: tokens delim size max input := by
  rw [tokens, tokensFrom_append h, List.nil_append, tokensFrom, if_pos rfl,
    if_neg (Nat.not_le_of_lt hsize), tokens]

/-- **A token that does not fit** is the end. -/
theorem tokens_of_le {token : List β} (h : delim ∉ token) (hsize : max ≤ sizeOf size token)
    (input : List β) : tokens delim size max (token ++ delim :: input) = [] := by
  rw [tokens, tokensFrom_append h, List.nil_append, tokensFrom, if_pos rfl, if_pos hsize]

/-- The tokens of fields that are all ended by the delimiter, as long as they fit. -/
theorem tokens_fields {fields : List (List β)}
    (h : ∀ field ∈ fields, delim ∉ field ∧ sizeOf size field < max) (input : List β) :
    tokens delim size max (fields.flatMap (fun field => field ++ [delim]) ++ input) =
      fields ++ tokens delim size max input := by
  induction fields with
  | nil => rfl
  | cons field fields ih =>
    obtain ⟨hdelim, hsize⟩ := h field List.mem_cons_self
    have hrest := ih fun field' hfield' => h field' (List.mem_cons_of_mem field hfield')
    rw [List.flatMap_cons, List.append_assoc, List.append_assoc, List.singleton_append,
      tokens_of_lt hdelim hsize, hrest, List.cons_append]

/-- **The tokens of fields that are all ended by the delimiter**: those before the first one that
does not fit. -/
theorem tokens_flatMap {fields : List (List β)} (h : ∀ field ∈ fields, delim ∉ field) :
    tokens delim size max (fields.flatMap fun field => field ++ [delim]) =
      fields.takeWhile fun field => decide (sizeOf size field < max) := by
  induction fields with
  | nil => rw [List.flatMap_nil, tokens_nil, List.takeWhile_nil]
  | cons field fields ih =>
    have hdelim := h field List.mem_cons_self
    rw [List.flatMap_cons, List.append_assoc, List.singleton_append, List.takeWhile_cons]
    by_cases hsize : sizeOf size field < max
    · rw [tokens_of_lt hdelim hsize, if_pos (decide_eq_true hsize),
        ih fun field' hfield' => h field' (List.mem_cons_of_mem field hfield')]
    · rw [tokens_of_le hdelim (Nat.le_of_not_lt hsize), if_neg (by simpa using hsize)]

/-- If one of them does not fit, the tokens are some of the fields before it. -/
theorem exists_tokens_take {fields : List (List β)} (h : ∀ field ∈ fields, delim ∉ field)
    (hlong : ∃ field ∈ fields, max ≤ sizeOf size field) (input : List β) :
    ∃ n < fields.length,
      tokens delim size max (fields.flatMap (fun field => field ++ [delim]) ++ input) =
        fields.take n := by
  induction fields with
  | nil =>
    obtain ⟨field, hfield, -⟩ := hlong
    exact absurd hfield List.not_mem_nil
  | cons field fields ih =>
    have hdelim := h field List.mem_cons_self
    rw [List.flatMap_cons, List.append_assoc, List.append_assoc, List.singleton_append]
    by_cases hsize : sizeOf size field < max
    · have hlater : ∃ field ∈ fields, max ≤ sizeOf size field := by
        obtain ⟨field', hfield', hle⟩ := hlong
        rcases List.mem_cons.mp hfield' with rfl | hfield'
        · exact absurd hsize (Nat.not_lt_of_le hle)
        · exact ⟨field', hfield', hle⟩
      obtain ⟨n, hn, heq⟩ := ih (fun field' hfield' => h field' (List.mem_cons_of_mem field hfield'))
        hlater
      refine ⟨n + 1, Nat.succ_lt_succ hn, ?_⟩
      rw [tokens_of_lt hdelim hsize, heq, List.take_succ_cons]
    · refine ⟨0, Nat.succ_pos _, ?_⟩
      rw [tokens_of_le hdelim (Nat.le_of_not_lt hsize), List.take_zero]

end Scanner
