import Mathlib.Data.List.Basic

/-!
# Readers of a stream

Messages on a connection arrive one after the other, in pieces that have nothing to do with where
a message ends. A **reader** takes the first message from what has arrived, if it has arrived
whole: it does not look beyond the end of the message, and it takes something
(`Stream.Reader`). What is read is then the same however the stream is cut into pieces
(`Stream.Reader.readAll_append`); a writer whose messages the reader takes whole is read back
message by message (`Stream.Reader.readAll_flatMap`), and nothing is read from a message that has
been cut short (`Stream.Reader.next_of_cut`). Lines with a delimiter are such messages
(`Stream.lines`).
-/

namespace Stream

variable {α β : Type}

/-- **A reader** of the first message of a stream. -/
structure Reader (α β : Type) where
  next : List α → Option (β × List α)
  next_append : ∀ {s : List α} {b : β} {r : List α} (t : List α), next s = some (b, r) →
    next (s ++ t) = some (b, r ++ t)
  length_lt : ∀ {s : List α} {b : β} {r : List α}, next s = some (b, r) → r.length < s.length

namespace Reader

variable (rd : Reader α β)

/-- The messages of a stream, at most a number of them, and what is left of it. -/
def readFrom : ℕ → List α → List β × List α
  | 0, s => ([], s)
  | n + 1, s =>
    match rd.next s with
    | none => ([], s)
    | some (b, r) => (b :: (readFrom n r).1, (readFrom n r).2)

/-- All messages that have arrived, and the beginning of the one to come. -/
def readAll (s : List α) : List β × List α := rd.readFrom s.length s

theorem next_nil : rd.next [] = none := by
  rcases h : rd.next [] with - | ⟨b, r⟩
  · rfl
  · exact absurd (rd.length_lt h) (Nat.not_lt_zero _)

theorem readFrom_nil (n : ℕ) : rd.readFrom n [] = ([], []) := by
  cases n with
  | zero => rfl
  | succ n => rw [readFrom, next_nil]

/-- Any number that is large enough gives all messages. -/
theorem readFrom_eq {n m : ℕ} {s : List α} (hn : s.length ≤ n) (hm : s.length ≤ m) :
    rd.readFrom n s = rd.readFrom m s := by
  induction n generalizing m s with
  | zero => rw [List.length_eq_zero_iff.mp (Nat.le_zero.mp hn), readFrom_nil, readFrom_nil]
  | succ n ih =>
    cases m with
    | zero => rw [List.length_eq_zero_iff.mp (Nat.le_zero.mp hm), readFrom_nil, readFrom_nil]
    | succ m =>
      rw [readFrom, readFrom]
      rcases h : rd.next s with - | ⟨b, r⟩
      · rfl
      · have hlt := rd.length_lt h
        exact congrArg (fun p : List β × List α => (b :: p.1, p.2))
          (ih (m := m) (s := r) (by omega) (by omega))

/-- Nothing more is read when no message has arrived whole. -/
theorem readAll_of_none {s : List α} (h : rd.next s = none) : rd.readAll s = ([], s) := by
  rw [readAll]
  cases hs : s.length with
  | zero => rfl
  | succ n => rw [readFrom, h]

/-- The first message is read, and then the others. -/
theorem readAll_of_some {s : List α} {b : β} {r : List α} (h : rd.next s = some (b, r)) :
    rd.readAll s = (b :: (rd.readAll r).1, (rd.readAll r).2) := by
  have hlt := rd.length_lt h
  obtain ⟨n, hn⟩ : ∃ n, s.length = n + 1 := ⟨s.length - 1, by omega⟩
  rw [readAll, hn, readFrom, h]
  simp only [readAll, rd.readFrom_eq (show r.length ≤ n by omega) (Nat.le_refl _)]

/-- **What is read does not depend on the pieces** in which the stream arrives: after a part of
it, what is left is read together with what arrives then. -/
theorem readAll_append (s t : List α) :
    rd.readAll (s ++ t) = ((rd.readAll s).1 ++ (rd.readAll ((rd.readAll s).2 ++ t)).1,
      (rd.readAll ((rd.readAll s).2 ++ t)).2) := by
  induction hn : s.length using Nat.strongRecOn generalizing s with
  | ind n ih =>
    cases hs : rd.next s with
    | none =>
      rw [rd.readAll_of_none hs]
      rfl
    | some p =>
      have hs' : rd.next s = some (p.1, p.2) := hs
      rw [rd.readAll_of_some hs', rd.readAll_of_some (rd.next_append t hs'),
        ih _ (hn ▸ rd.length_lt hs') p.2 rfl]
      rfl

/-- **A writer is read back**, message by message. -/
theorem readAll_flatMap {γ : Type} {enc : γ → List α} {dec : γ → β} {l : List γ}
    (h : ∀ c ∈ l, rd.next (enc c) = some (dec c, [])) (t : List α) :
    rd.readAll (l.flatMap enc ++ t) = (l.map dec ++ (rd.readAll t).1, (rd.readAll t).2) := by
  induction l with
  | nil => rfl
  | cons c l ih =>
    have hc : rd.next (enc c ++ (l.flatMap enc ++ t)) = some (dec c, l.flatMap enc ++ t) :=
      rd.next_append _ (h c List.mem_cons_self)
    rw [List.flatMap_cons, List.append_assoc, rd.readAll_of_some hc,
      ih fun c' hc' => h c' (List.mem_cons_of_mem c hc')]
    rfl

/-- **Nothing is read from a message that is cut short.** -/
theorem next_of_cut {b : β} {s t : List α} (h : rd.next (s ++ t) = some (b, [])) (ht : t ≠ []) :
    rd.next s = none := by
  rcases hs : rd.next s with - | ⟨b', r⟩
  · rfl
  · have hlong := rd.next_append t hs
    rw [h, Option.some.injEq, Prod.mk.injEq] at hlong
    exact absurd (List.append_eq_nil_iff.mp hlong.2.symm).2 ht

end Reader

/-! ### Lines -/

section Until

variable [DecidableEq α] (d : α)

/-- The elements up to a delimiter, with it. -/
def nextUntil : List α → Option (List α × List α)
  | [] => none
  | b :: s => if b = d then some ([b], s) else (nextUntil s).map fun p => (b :: p.1, p.2)

theorem nextUntil_append {s l r : List α} (t : List α) (h : nextUntil d s = some (l, r)) :
    nextUntil d (s ++ t) = some (l, r ++ t) := by
  induction s generalizing l with
  | nil => cases h
  | cons b s ih =>
    rw [nextUntil] at h
    rw [List.cons_append, nextUntil]
    split at h
    · rename_i hb
      cases h
      rw [if_pos hb]
    · rename_i hb
      obtain ⟨p, hp, hpr⟩ := Option.map_eq_some_iff.mp h
      cases hpr
      rw [if_neg hb, ih hp]
      rfl

theorem length_nextUntil {s l r : List α} (h : nextUntil d s = some (l, r)) :
    r.length < s.length := by
  induction s generalizing l with
  | nil => cases h
  | cons b s ih =>
    rw [nextUntil] at h
    rw [List.length_cons]
    split at h
    · cases h
      exact Nat.lt_succ_self _
    · obtain ⟨p, hp, hpr⟩ := Option.map_eq_some_iff.mp h
      cases hpr
      exact Nat.lt_succ_of_lt (ih hp)

/-- **The reader of lines**, each with its delimiter. -/
def lines : Reader α (List α) := ⟨nextUntil d, nextUntil_append d, length_nextUntil d⟩

end Until

end Stream
