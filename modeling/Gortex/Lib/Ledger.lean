import Mathlib.Algebra.BigOperators.Group.List.Basic
import Mathlib.Data.List.Count
import Mathlib.Data.List.Perm.Subperm

/-!
# A ledger with several parties

Parties post entries. A posted entry is pending until its party commits what it has
pending, and a party may lose what it has pending, or wipe the ledger. `Ledger.run`
follows a list of such events. Whatever the order of the events, an entry is counted
once: what is committed or pending was posted (`Ledger.count_run_le`), and if nothing is
lost it is all that was posted (`Ledger.count_run`); so when nothing is pending any more,
the committed entries are the posted ones (`Ledger.perm_posted`).
-/

/-- The committed entries, with their parties, and the pending ones. -/
structure Ledger (ι ε : Type*) where
  committed : List (ι × ε) := []
  pending : ι → List ε

namespace Ledger

variable {ι ε : Type*}

/-- What can happen to a ledger. -/
inductive Event (ι ε : Type*)
  | post (p : ι) (e : ε)
  | commit (p : ι)
  /-- The party loses what it has pending. -/
  | drop (p : ι)
  /-- The party loses what it has pending, and what is committed is gone. -/
  | wipe (p : ι)

/-- Whether nothing is lost. -/
def Event.keeps : Event ι ε → Prop
  | .post _ _ | .commit _ => True
  | .drop _ | .wipe _ => False

/-- The posted entry of an event. -/
def Event.posted : Event ι ε → Option (ι × ε)
  | .post p e => some (p, e)
  | _ => none

section

variable [DecidableEq ι]

/-- The pending entries with those of one party replaced. -/
def setPending (pending : ι → List ε) (p : ι) (l : List ε) : ι → List ε :=
  fun q => if q = p then l else pending q

/-- One event. -/
def step (L : Ledger ι ε) : Event ι ε → Ledger ι ε
  | .post p e => { L with pending := setPending L.pending p (e :: L.pending p) }
  | .commit p =>
    { committed := (L.pending p).map (Prod.mk p) ++ L.committed
      pending := setPending L.pending p [] }
  | .drop p => { L with pending := setPending L.pending p [] }
  | .wipe p => { committed := [], pending := setPending L.pending p [] }

/-- The events of a list, one after the other. -/
def run (L : Ledger ι ε) (l : List (Event ι ε)) : Ledger ι ε := l.foldl step L

/-! ### Counting -/

variable [DecidableEq ε]

/-- How often an entry of a party is committed or pending. -/
def count (L : Ledger ι ε) (p : ι) (e : ε) : ℕ :=
  L.committed.count (p, e) + (L.pending p).count e

omit [DecidableEq ε] in
theorem pending_step_of_ne {L : Ledger ι ε} {a : Event ι ε} {p : ι}
    (hc : a ≠ .commit p) (hp : ∀ e, a ≠ .post p e) (hl : L.pending p = []) :
    (L.step a).pending p = [] := by
  cases a with
  | post q e =>
    have hne : p ≠ q := fun h => hp e (by rw [h])
    exact (if_neg hne).trans hl
  | commit q =>
    by_cases h : p = q
    · exact absurd (by rw [h]) hc
    · exact (if_neg h).trans hl
  | drop q =>
    by_cases h : p = q
    · exact if_pos h
    · exact (if_neg h).trans hl
  | wipe q =>
    by_cases h : p = q
    · exact if_pos h
    · exact (if_neg h).trans hl

theorem count_map_mk (p q : ι) (e : ε) (l : List ε) :
    (l.map (Prod.mk q)).count (p, e) = if p = q then l.count e else 0 := by
  by_cases h : p = q
  · rw [if_pos h, h, List.count_map_of_injective _ _ fun _ _ h => (Prod.mk.inj h).2]
  · rw [if_neg h, List.count_eq_zero]
    intro hm
    obtain ⟨x, -, hx⟩ := List.mem_map.mp hm
    exact h (congrArg Prod.fst hx).symm

/-- **One event** counts what it posts, if it keeps everything. -/
theorem count_step {L : Ledger ι ε} {a : Event ι ε} (ha : a.keeps) (p : ι) (e : ε) :
    (L.step a).count p e = L.count p e + a.posted.toList.count (p, e) := by
  cases a with
  | post q x =>
    unfold count
    change L.committed.count (p, e) + (if p = q then x :: L.pending q else L.pending p).count e =
      _ + [(q, x)].count (p, e)
    by_cases h : p = q
    · rw [if_pos h, h, List.count_cons, List.count_singleton]
      have hbeq : ((q, x) == (q, e)) = (x == e) := by simp
      rw [hbeq, add_assoc]
    · rw [if_neg h, List.count_singleton, if_neg (by simpa using fun hc => absurd hc.symm h), add_zero]
  | commit q =>
    unfold count
    change ((L.pending q).map (Prod.mk q) ++ L.committed).count (p, e) +
      (if p = q then [] else L.pending p).count e = _ + 0
    rw [List.count_append, count_map_mk]
    by_cases h : p = q
    · rw [if_pos h, if_pos h, h, List.count_nil, add_comm ((L.pending q).count e)]
    · rw [if_neg h, if_neg h, zero_add, add_zero]
  | drop q => exact ha.elim
  | wipe q => exact ha.elim

/-- **One event** counts nothing but what it posts. -/
theorem count_step_le (L : Ledger ι ε) (a : Event ι ε) (p : ι) (e : ε) :
    (L.step a).count p e ≤ L.count p e + a.posted.toList.count (p, e) := by
  have hset : ∀ q, (setPending L.pending q [] p).count e ≤ (L.pending p).count e := fun q => by
    unfold setPending
    split
    · exact Nat.zero_le _
    · exact Nat.le_refl _
  cases a with
  | post q x =>
    have hk : (Event.post q x).keeps := trivial
    exact Nat.le_of_eq (count_step hk p e)
  | commit q =>
    have hk : (Event.commit q : Event ι ε).keeps := trivial
    exact Nat.le_of_eq (count_step hk p e)
  | drop q => exact Nat.add_le_add_left (hset q) _
  | wipe q =>
    change ([] : List (ι × ε)).count (p, e) + _ ≤ _
    rw [List.count_nil, zero_add]
    exact Nat.le_trans (Nat.le_trans (hset q) (Nat.le_add_left _ _)) (Nat.le_add_right _ _)

/-- The posted entries of a run. -/
def postings (l : List (Event ι ε)) : List (ι × ε) := l.filterMap Event.posted

omit [DecidableEq ι] [DecidableEq ε] in
theorem postings_cons (a : Event ι ε) (l : List (Event ι ε)) :
    postings (a :: l) = a.posted.toList ++ postings l := by
  unfold postings
  rw [List.filterMap_cons]
  cases a.posted <;> rfl

/-- **If nothing is lost**, a run counts what it posts. -/
theorem count_run {L : Ledger ι ε} {l : List (Event ι ε)} (hl : ∀ a ∈ l, a.keeps) (p : ι) (e : ε) :
    (L.run l).count p e = L.count p e + (postings l).count (p, e) := by
  induction l generalizing L with
  | nil => rfl
  | cons a l ih =>
    change (run (L.step a) l).count p e = _
    rw [ih fun b hb => hl b (List.mem_cons_of_mem a hb), count_step (hl a List.mem_cons_self),
      postings_cons, List.count_append, add_assoc]

/-- **A run** counts nothing but what it posts. -/
theorem count_run_le (L : Ledger ι ε) (l : List (Event ι ε)) (p : ι) (e : ε) :
    (L.run l).count p e ≤ L.count p e + (postings l).count (p, e) := by
  induction l generalizing L with
  | nil => exact Nat.le_refl _
  | cons a l ih =>
    change (run (L.step a) l).count p e ≤ _
    rw [postings_cons, List.count_append, ← add_assoc]
    exact Nat.le_trans (ih (L.step a)) (Nat.add_le_add_right (count_step_le L a p e) _)

/-- When nothing is pending, the committed entries are the posted ones. -/
theorem perm_posted {L : Ledger ι ε} {l : List (Event ι ε)} (hl : ∀ a ∈ l, a.keeps)
    (h₀ : L.committed = [] ∧ ∀ p, L.pending p = []) (hp : ∀ p, (L.run l).pending p = []) :
    (L.run l).committed.Perm (postings l) := by
  refine List.perm_iff_count.mpr fun ⟨p, e⟩ => ?_
  have h := count_run hl p e (L := L)
  unfold count at h
  rwa [hp, h₀.1, h₀.2, List.count_nil, List.count_nil, add_zero, zero_add, zero_add] at h

end

/-! ### Nothing pending -/

section

variable [DecidableEq ι]

/-- Every entry a party posts is followed by a commit of the party. -/
def Settled (p : ι) : List (Event ι ε) → Prop
  | [] => True
  | a :: l => ((∃ e, a = .post p e) → Event.commit p ∈ l) ∧ Settled p l

/-- **A party whose entries are all followed by a commit** has nothing pending. -/
theorem pending_run {L : Ledger ι ε} {l : List (Event ι ε)} {p : ι} (hl : Settled p l)
    (h : L.pending p = [] ∨ Event.commit p ∈ l) : (L.run l).pending p = [] := by
  induction l generalizing L with
  | nil => exact h.resolve_right List.not_mem_nil
  | cons a l ih =>
    refine ih hl.2 ?_
    by_cases hc : a = .commit p
    · left
      rw [hc]
      exact if_pos rfl
    · by_cases hp : ∃ e, a = .post p e
      · exact Or.inr (hl.1 hp)
      · rcases h with h | h
        · exact Or.inl (pending_step_of_ne hc (not_exists.mp hp) h)
        · exact Or.inr ((List.mem_cons.mp h).resolve_left fun he => hc he.symm)

/-! ### Amounts -/

variable {M : Type*} [AddCommMonoid M]

/-- What the committed entries amount to. -/
def total (L : Ledger ι ε) (amount : ι → ε → M) : M := (L.committed.map fun x => amount x.1 x.2).sum

/-- What a party has pending. -/
def due (L : Ledger ι ε) (amount : ι → ε → M) (p : ι) : M := ((L.pending p).map (amount p)).sum

theorem due_setPending (L : Ledger ι ε) (amount : ι → ε → M) (c : List (ι × ε)) (p q : ι)
    (l : List ε) : due ⟨c, setPending L.pending p l⟩ amount q =
      if q = p then (l.map (amount p)).sum else L.due amount q := by
  change ((if q = p then l else L.pending q).map (amount q)).sum = _
  by_cases h : q = p
  · rw [if_pos h, if_pos h, h]
  · rw [if_neg h, if_neg h]
    rfl

theorem total_commit (L : Ledger ι ε) (amount : ι → ε → M) (p : ι) :
    (L.step (.commit p)).total amount = L.total amount + L.due amount p := by
  change (((L.pending p).map (Prod.mk p) ++ L.committed).map fun x => amount x.1 x.2).sum = _
  rw [List.map_append, List.sum_append, List.map_map, add_comm]
  rfl

end

end Ledger
