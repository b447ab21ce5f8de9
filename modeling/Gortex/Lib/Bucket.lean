import Mathlib.Data.List.Nodup
import Gortex.Lib.GoMap

/-!
# Buckets with a position sidecar

A family of slices, one for each bucket key, each paired with a *sidecar*: a map
from the identity of an entry to its position in the slice. The sidecar makes a
write idempotent (an entry whose identity is there is overwritten in place) and a
removal constant-time (the last entry is moved into the freed slot, and the slice
shrinks by one).

The identity of an entry is read through a function `ident`, a parameter of every
operation: the entries may be references into a memory, and the function then
reads the memory as it is at that moment.

* `Buckets.add`, `Buckets.remove`, `Buckets.rekey` – the three operations;
* `Buckets.Exact` – the sidecar is exactly the map from the identity of every
  entry to its position, which makes the identities of a bucket distinct
  (`Buckets.Exact.inj`);
* `Buckets.Exact.add`, `Buckets.Exact.remove`, `Buckets.Exact.rekey` – each
  operation keeps it, and the `mem` lemmas say which entries a bucket holds
  afterwards;
* `Buckets.Sharded` – a family of such tables over which the bucket keys are
  spread, each key having one table of its own.
-/

/-- Slices with a sidecar: for each bucket key a slice of entries, and a map
from the identity of an entry to its position. -/
structure Buckets (K κ α : Type) where
  /-- The slices. -/
  bucket : GoMap K (List α)
  /-- The sidecar: bucket key, then identity, then position. -/
  idx : GoMap K (GoMap κ ℕ)

namespace Buckets

variable {K κ α : Type} [DecidableEq K] [DecidableEq κ]

/-- No bucket at all. -/
def empty : Buckets K κ α := ⟨∅, ∅⟩

/-- The slice under a key, empty when there is none. -/
def slice (b : Buckets K κ α) (k : K) : List α := (b.bucket.lookup k).getD []

/-- The sidecar under a key, empty when there is none. -/
def inner (b : Buckets K κ α) (k : K) : GoMap κ ℕ := (b.idx.lookup k).getD ∅

/-- The position recorded for an identity. -/
def pos? (b : Buckets K κ α) (k : K) (id : κ) : Option ℕ := (b.inner k).lookup id

/-- Append `a` to the bucket of `k`, or overwrite in place the entry that has the
identity `id` already. -/
def add (b : Buckets K κ α) (k : K) (id : κ) (a : α) : Buckets K κ α :=
  match b.pos? k id with
  | some p => { b with bucket := b.bucket.insert k ((b.slice k).set p a) }
  | none =>
    { bucket := b.bucket.insert k (b.slice k ++ [a])
      idx := b.idx.insert k ((b.inner k).insert id (b.slice k).length) }

/-- Move the last entry of the slice into the slot `p` and record its new
position; nothing moves when `p` is the last slot. -/
def swapLast (ident : α → κ) (s : List α) (m : GoMap κ ℕ) (p : ℕ) : List α × GoMap κ ℕ :=
  if p ≠ s.length - 1 then
    match s[s.length - 1]? with
    | some swapped => (s.set p swapped, m.insert (ident swapped) p)
    | none => (s, m)
  else (s, m)

/-- Remove the entry with the identity `id` from the bucket of `k` by swapping
the last entry into its slot. A bucket whose sidecar runs empty is dropped. -/
def remove (ident : α → κ) (b : Buckets K κ α) (k : K) (id : κ) : Buckets K κ α :=
  match b.pos? k id with
  | none => b
  | some p =>
    let sm := swapLast ident (b.slice k) (b.inner k) p
    let m := sm.2.erase id
    if m.keys.isEmpty then { bucket := b.bucket.erase k, idx := b.idx.erase k }
    else
      { bucket := b.bucket.insert k (sm.1.take ((b.slice k).length - 1))
        idx := b.idx.insert k m }

/-- Record the position of the identity `old` under the identity `new` instead. -/
def rekey (b : Buckets K κ α) (k : K) (old new : κ) : Buckets K κ α :=
  match b.pos? k old with
  | none => b
  | some p => { b with idx := b.idx.insert k (((b.inner k).erase old).insert new p) }

/-- Drop the whole bucket of `k`, slice and sidecar. -/
def drop (b : Buckets K κ α) (k : K) : Buckets K κ α :=
  { bucket := b.bucket.erase k, idx := b.idx.erase k }

/-! ### Reading a bucket after an operation -/

omit [DecidableEq κ] in
@[simp] theorem slice_empty (k : K) : (empty : Buckets K κ α).slice k = [] := rfl

omit [DecidableEq κ] in
@[simp] theorem inner_empty (k : K) : (empty : Buckets K κ α).inner k = ∅ := rfl

theorem slice_add (b : Buckets K κ α) (k k' : K) (id : κ) (a : α) :
    (b.add k id a).slice k' =
      if k' = k then
        match b.pos? k id with
        | some p => (b.slice k).set p a
        | none => b.slice k ++ [a]
      else b.slice k' := by
  unfold add
  cases b.pos? k id <;> by_cases h : k' = k <;> simp [slice, GoMap.lookup_insert, h]

theorem inner_add (b : Buckets K κ α) (k k' : K) (id : κ) (a : α) :
    (b.add k id a).inner k' =
      if k' = k ∧ b.pos? k id = none then (b.inner k).insert id (b.slice k).length
      else b.inner k' := by
  unfold add
  cases b.pos? k id <;> by_cases h : k' = k <;> simp [inner, GoMap.lookup_insert, h]

omit [DecidableEq κ] in
theorem slice_drop (b : Buckets K κ α) (k k' : K) :
    (b.drop k).slice k' = if k' = k then [] else b.slice k' := by
  by_cases h : k' = k <;> simp [drop, slice, GoMap.lookup_erase, h]

omit [DecidableEq κ] in
theorem inner_drop (b : Buckets K κ α) (k k' : K) :
    (b.drop k).inner k' = if k' = k then ∅ else b.inner k' := by
  by_cases h : k' = k <;> simp [drop, inner, GoMap.lookup_erase, h]

@[simp] theorem slice_rekey (b : Buckets K κ α) (k k' : K) (old new : κ) :
    (b.rekey k old new).slice k' = b.slice k' := by
  unfold rekey
  split <;> rfl

theorem inner_rekey (b : Buckets K κ α) (k k' : K) (old new : κ) :
    (b.rekey k old new).inner k' =
      match b.pos? k old with
      | some p => if k' = k then ((b.inner k).erase old).insert new p else b.inner k'
      | none => b.inner k' := by
  unfold rekey
  cases b.pos? k old <;> by_cases h : k' = k <;> simp [inner, GoMap.lookup_insert, h]

/-! ### What a bucket can hold

Whatever the sidecars say, an operation puts nothing into a bucket but the entry it
inserts. -/

omit [DecidableEq K] in
theorem mem_of_mem_swapLast {ident : α → κ} {s : List α} {m : GoMap κ ℕ} {p : ℕ} {a : α}
    (h : a ∈ (swapLast ident s m p).1) : a ∈ s := by
  unfold swapLast at h
  split at h
  · cases hl : s[s.length - 1]? with
    | none =>
      rw [hl] at h
      exact h
    | some l =>
      rw [hl] at h
      rcases List.mem_or_eq_of_mem_set h with h | rfl
      · exact h
      · exact List.mem_iff_getElem?.mpr ⟨_, hl⟩
  · exact h

theorem mem_of_mem_add {b : Buckets K κ α} {k k' : K} {id : κ} {a a' : α}
    (h : a' ∈ (b.add k id a).slice k') : (k' = k ∧ a' = a) ∨ a' ∈ b.slice k' := by
  rw [slice_add] at h
  by_cases hk : k' = k
  · rw [if_pos hk] at h
    rw [hk]
    cases hp : b.pos? k id with
    | none =>
      rw [hp] at h
      rcases List.mem_append.mp h with h | h
      · exact Or.inr h
      · exact Or.inl ⟨rfl, List.mem_singleton.mp h⟩
    | some p =>
      rw [hp] at h
      rcases List.mem_or_eq_of_mem_set h with h | h
      · exact Or.inr h
      · exact Or.inl ⟨rfl, h⟩
  · rw [if_neg hk] at h
    exact Or.inr h

theorem mem_of_mem_remove {ident : α → κ} {b : Buckets K κ α} {k k' : K} {id : κ} {a : α}
    (h : a ∈ (b.remove ident k id).slice k') : a ∈ b.slice k' := by
  unfold remove at h
  cases hp : b.pos? k id with
  | none =>
    rw [hp] at h
    exact h
  | some p =>
    simp only [hp] at h
    split at h <;> by_cases hk : k' = k
    · simp [slice, GoMap.lookup_erase, hk] at h
    · simpa [slice, GoMap.lookup_erase, hk] using h
    · subst hk
      simp only [slice, GoMap.lookup_insert, if_pos, Option.getD_some] at h
      exact mem_of_mem_swapLast (List.mem_of_mem_take h)
    · simpa [slice, GoMap.lookup_insert, hk] using h

/-! ### The sidecar on a class of identities

An operation that gives an entry the identity of another one leaves the sidecar without the
position of one of the two. What holds then of the other entries is stated for the
identities in a predicate `P`, the whole table being the case in which all are in it. -/

/-- **A slice and its sidecar on the identities in `P`**: every position the sidecar
records is that of an entry of the identity, and it records all positions of entries whose
identity is in `P`. -/
structure SliceOn (P : κ → Prop) (ident : α → κ) (s : List α) (m : GoMap κ ℕ) : Prop where
  sound : ∀ {id p}, m.lookup id = some p → ∃ a, s[p]? = some a ∧ ident a = id
  complete : ∀ {p a}, s[p]? = some a → P (ident a) → m.lookup (ident a) = some p

/-- **Every sidecar is right, and complete on `P`.** -/
def ExactOn (P : κ → Prop) (ident : α → κ) (b : Buckets K κ α) : Prop :=
  ∀ k, SliceOn P ident (b.slice k) (b.inner k)

section SliceOn

variable {P : κ → Prop} {ident : α → κ} {s : List α} {m : GoMap κ ℕ}

theorem SliceOn.nil : SliceOn P ident [] (∅ : GoMap κ ℕ) :=
  ⟨fun h => by simp at h, fun h => by simp at h⟩

/-- Two positions whose entries have one identity in `P` are one position. -/
theorem SliceOn.inj (h : SliceOn P ident s m) {p q : ℕ} {a a' : α} (hp : s[p]? = some a)
    (hq : s[q]? = some a') (hP : P (ident a)) (he : ident a = ident a') : p = q := by
  have h1 := h.complete hp hP
  have h2 := h.complete hq (he ▸ hP)
  rw [he, h2] at h1
  exact (Option.some.inj h1).symm

theorem SliceOn.eq_of_ident (h : SliceOn P ident s m) {a a' : α} (ha : a ∈ s) (ha' : a' ∈ s)
    (hP : P (ident a)) (he : ident a = ident a') : a = a' := by
  obtain ⟨p, hp⟩ := List.mem_iff_getElem?.mp ha
  obtain ⟨q, hq⟩ := List.mem_iff_getElem?.mp ha'
  obtain rfl := h.inj hp hq hP he
  exact Option.some.inj (hp.symm.trans hq)

theorem SliceOn.lookup_eq_none (h : SliceOn P ident s m) {id : κ} (hP : P id) :
    m.lookup id = none ↔ ∀ a ∈ s, ident a ≠ id := by
  constructor
  · rintro hn a ha rfl
    obtain ⟨p, hp⟩ := List.mem_iff_getElem?.mp ha
    rw [h.complete hp hP] at hn
    cases hn
  · intro hall
    cases hl : m.lookup id with
    | none => rfl
    | some p =>
      obtain ⟨a, ha, he⟩ := h.sound hl
      exact absurd he (hall a (List.mem_iff_getElem?.mpr ⟨p, ha⟩))

/-- Only the identities of the entries there matter. -/
theorem SliceOn.congr {ident' : α → κ} (h : SliceOn P ident s m)
    (he : ∀ a ∈ s, ident' a = ident a) : SliceOn P ident' s m where
  sound := fun hl => by
    obtain ⟨a, ha, hid⟩ := h.sound hl
    exact ⟨a, ha, (he a (List.mem_iff_getElem?.mpr ⟨_, ha⟩)).trans hid⟩
  complete := fun {p a} ha hP => by
    have hid := he a (List.mem_iff_getElem?.mpr ⟨p, ha⟩)
    rw [hid] at hP ⊢
    exact h.complete ha hP

/-- Overwriting in place the entry of an identity by another of that identity. -/
theorem SliceOn.set (h : SliceOn P ident s m) {p : ℕ} {a : α}
    (hp : m.lookup (ident a) = some p) : SliceOn P ident (s.set p a) m := by
  obtain ⟨a₀, ha₀, he₀⟩ := h.sound hp
  have hlt : p < s.length := (List.getElem?_eq_some_iff.mp ha₀).1
  constructor
  · intro id q hl
    obtain ⟨b, hb, rfl⟩ := h.sound hl
    rcases eq_or_ne q p with rfl | hne
    · rw [ha₀] at hb
      cases hb
      exact ⟨a, List.getElem?_set_self hlt, he₀.symm⟩
    · exact ⟨b, by rw [List.getElem?_set_ne hne.symm, hb], rfl⟩
  · intro q b hb hP
    rcases eq_or_ne q p with rfl | hne
    · rw [List.getElem?_set_self hlt] at hb
      cases hb
      exact hp
    · rw [List.getElem?_set_ne hne.symm] at hb
      exact h.complete hb hP

/-- Appending an entry of an identity the sidecar does not know. -/
theorem SliceOn.append (h : SliceOn P ident s m) {a : α} (hn : m.lookup (ident a) = none) :
    SliceOn P ident (s ++ [a]) (m.insert (ident a) s.length) := by
  constructor
  · intro id q hl
    rw [GoMap.lookup_insert] at hl
    by_cases hid : id = ident a
    · rw [if_pos hid] at hl
      cases hl
      exact ⟨a, List.getElem?_concat_length, hid.symm⟩
    · rw [if_neg hid] at hl
      obtain ⟨b, hb, he⟩ := h.sound hl
      exact ⟨b, by rw [List.getElem?_append_left (List.getElem?_eq_some_iff.mp hb).1, hb], he⟩
  · intro q b hb hP
    rw [GoMap.lookup_insert]
    rcases Nat.lt_trichotomy q s.length with hq | rfl | hq
    · rw [List.getElem?_append_left hq] at hb
      have hl := h.complete hb hP
      rw [if_neg fun hid => by rw [hid, hn] at hl; cases hl]
      exact hl
    · rw [List.getElem?_concat_length] at hb
      cases hb
      exact if_pos rfl
    · rw [List.getElem?_eq_none (by simp; omega)] at hb
      cases hb

/-- The slice after the last entry has moved into the slot `p` and the slice has
shrunk by one. -/
theorem getElem?_swapLast (ident : α → κ) (m : GoMap κ ℕ) {p : ℕ} (hp : p < s.length) (q : ℕ) :
    ((swapLast ident s m p).1.take (s.length - 1))[q]? =
      if q < s.length - 1 then (if q = p then s[s.length - 1]? else s[q]?) else none := by
  have hlast : s.length - 1 < s.length := by omega
  unfold swapLast
  by_cases hq : q < s.length - 1
  · rw [if_pos hq, List.getElem?_take_of_lt hq]
    by_cases hpl : p = s.length - 1
    · rw [if_neg (not_not.mpr hpl), if_neg (by omega)]
    · rw [if_pos hpl, List.getElem?_eq_getElem hlast]
      rcases eq_or_ne q p with rfl | hne
      · rw [if_pos rfl, List.getElem?_set_self hp]
      · rw [if_neg hne, List.getElem?_set_ne hne.symm]
  · rw [if_neg hq, List.getElem?_eq_none]
    rw [List.length_take]
    omega

/-- **Removing an entry keeps the sidecar right**: the slot of the entry holds the one that
was last, under its new position, and the identity is gone. -/
theorem SliceOn.swapLast (h : SliceOn P ident s m) {id : κ} {p : ℕ} (hp : m.lookup id = some p) :
    SliceOn P ident ((swapLast ident s m p).1.take (s.length - 1))
      ((Buckets.swapLast ident s m p).2.erase id) := by
  obtain ⟨a₀, ha₀, rfl⟩ := h.sound hp
  have hlt : p < s.length := (List.getElem?_eq_some_iff.mp ha₀).1
  have hlast : s.length - 1 < s.length := by omega
  obtain ⟨l, hl⟩ : ∃ l, s[s.length - 1]? = some l := ⟨_, List.getElem?_eq_getElem hlast⟩
  -- what the sidecar says after the move, before the identity is erased
  have hm : ∀ id, (Buckets.swapLast ident s m p).2.lookup id =
      if p ≠ s.length - 1 ∧ id = ident l then some p else m.lookup id := fun id => by
    unfold Buckets.swapLast
    by_cases hpl : p = s.length - 1
    · rw [if_neg (not_not.mpr hpl), if_neg fun hc => hc.1 hpl]
    · rw [if_pos hpl, hl]
      simp only
      rw [GoMap.lookup_insert]
      exact if_congr (and_iff_right hpl).symm rfl rfl
  constructor
  · intro id q hq
    rw [GoMap.lookup_erase] at hq
    split at hq
    · cases hq
    · rename_i hid
      rw [hm] at hq
      rw [getElem?_swapLast ident m hlt]
      split at hq
      · rename_i hmoved
        obtain rfl := Option.some.inj hq
        exact ⟨l, by rw [if_pos (by omega), if_pos rfl, hl], hmoved.2.symm⟩
      · rename_i hmoved
        obtain ⟨b, hb, rfl⟩ := h.sound hq
        have hqp : q ≠ p := fun hc => by
          rw [hc, ha₀] at hb
          cases hb
          exact hid rfl
        have hql : q ≠ s.length - 1 := fun hc => by
          rw [hc, hl] at hb
          cases hb
          exact hmoved ⟨fun hpl => hqp (hc.trans hpl.symm), rfl⟩
        have hqlt := (List.getElem?_eq_some_iff.mp hb).1
        exact ⟨b, by rw [if_pos (by omega), if_neg hqp, hb], rfl⟩
  · intro q b hb hP
    rw [getElem?_swapLast ident m hlt] at hb
    split at hb
    · rename_i hq
      rw [GoMap.lookup_erase, hm]
      split at hb
      · -- the moved entry
        rename_i hqp
        rw [hl] at hb
        cases hb
        have hne : ident l ≠ ident a₀ := fun hc => by
          have hlp := h.inj hl ha₀ hP hc
          omega
        rw [if_neg hne, if_pos ⟨by omega, rfl⟩, hqp]
      · rename_i hqp
        have hne : ident b ≠ ident a₀ := fun hc => hqp (h.inj hb ha₀ hP hc)
        have hnl : ident b ≠ ident l := fun hc => by
          have hlq := h.inj hb hl hP hc
          omega
        rw [if_neg hne, if_neg fun hc => hnl hc.2]
        exact h.complete hb hP
    · cases hb

/-- The entries that are left, among those with an identity in `P`. -/
theorem SliceOn.mem_swapLast (h : SliceOn P ident s m) {id : κ} {p : ℕ} (hp : m.lookup id = some p)
    {a : α} (hP : P (ident a)) :
    a ∈ (Buckets.swapLast ident s m p).1.take (s.length - 1) ↔ a ∈ s ∧ ident a ≠ id := by
  obtain ⟨a₀, ha₀, rfl⟩ := h.sound hp
  have hlt : p < s.length := (List.getElem?_eq_some_iff.mp ha₀).1
  rw [List.mem_iff_getElem?]
  constructor
  · rintro ⟨q, hq⟩
    have hmem : a ∈ s := by
      rw [getElem?_swapLast ident m hlt] at hq
      split at hq
      · split at hq <;> exact List.mem_iff_getElem?.mpr ⟨_, hq⟩
      · cases hq
    refine ⟨hmem, fun hc => ?_⟩
    have hl := (h.swapLast hp).complete hq hP
    rw [GoMap.lookup_erase, if_pos hc] at hl
    cases hl
  · rintro ⟨hmem, hne⟩
    obtain ⟨q, hq⟩ := List.mem_iff_getElem?.mp hmem
    have hql := (List.getElem?_eq_some_iff.mp hq).1
    have hqp : q ≠ p := fun hc => by
      rw [hc, ha₀] at hq
      cases hq
      exact hne rfl
    by_cases hlast : q = s.length - 1
    · exact ⟨p, by rw [getElem?_swapLast ident m hlt, if_pos (by omega), if_pos rfl, ← hlast, hq]⟩
    · exact ⟨q, by rw [getElem?_swapLast ident m hlt, if_pos (by omega), if_neg hqp, hq]⟩

/-- An entry with an identity in `P` that changes in place, to one no other entry has or
that is not in `P`. -/
theorem SliceOn.rekey {ident' : α → κ} (h : SliceOn P ident s m) {p : ℕ} {a : α}
    (ha : s[p]? = some a) (hP : P (ident a)) (hnew : P (ident' a) → m.lookup (ident' a) = none)
    (he : ∀ b ∈ s, b ≠ a → ident' b = ident b) :
    SliceOn P ident' s ((m.erase (ident a)).insert (ident' a) p) := by
  constructor
  · intro id q hl
    rw [GoMap.lookup_insert] at hl
    split at hl
    · rename_i hid
      obtain rfl := Option.some.inj hl
      exact ⟨a, ha, hid.symm⟩
    · rename_i hid
      rw [GoMap.lookup_erase] at hl
      split at hl
      · cases hl
      · rename_i hold
        obtain ⟨b, hb, rfl⟩ := h.sound hl
        exact ⟨b, hb, he b (List.mem_iff_getElem?.mpr ⟨q, hb⟩) fun hba => hold (by rw [hba])⟩
  · intro q b hb hPb
    rw [GoMap.lookup_insert, GoMap.lookup_erase]
    by_cases hba : b = a
    · rw [hba] at hb ⊢
      rw [if_pos rfl, h.inj ha hb hP rfl]
    · have hid := he b (List.mem_iff_getElem?.mpr ⟨q, hb⟩) hba
      rw [hid] at hPb ⊢
      have hl := h.complete hb hPb
      have hne : ident b ≠ ident' a := fun hc => by
        rw [hc, hnew (hc ▸ hPb)] at hl
        cases hl
      have hold : ident b ≠ ident a := fun hc => by
        have hqp := h.inj hb ha hPb hc
        rw [hqp, ha] at hb
        exact hba (Option.some.inj hb).symm
      rw [if_neg hne, if_neg hold]
      exact hl

end SliceOn

/-! ### The operations keep the sidecars right -/

section ExactOn

variable {P : κ → Prop} {ident : α → κ} {b : Buckets K κ α}

theorem ExactOn.empty : ExactOn P ident (empty : Buckets K κ α) := fun _ => SliceOn.nil

theorem ExactOn.congr {ident' : α → κ} (h : ExactOn P ident b)
    (he : ∀ k, ∀ a ∈ b.slice k, ident' a = ident a) : ExactOn P ident' b :=
  fun k => (h k).congr (he k)

theorem ExactOn.add (h : ExactOn P ident b) (k : K) (a : α) :
    ExactOn P ident (b.add k (ident a) a) := by
  intro k'
  rw [slice_add, inner_add]
  by_cases hk : k' = k
  · subst hk
    rw [if_pos rfl]
    cases hp : b.pos? k' (ident a) with
    | some p =>
      rw [if_neg (by simp)]
      exact (h k').set hp
    | none =>
      rw [if_pos ⟨rfl, rfl⟩]
      exact (h k').append hp
  · rw [if_neg hk, if_neg (fun hc => hk hc.1)]
    exact h k'

theorem slice_add_of_ne (b : Buckets K κ α) {k k' : K} (id : κ) (a : α) (hk : k' ≠ k) :
    (b.add k id a).slice k' = b.slice k' := by
  rw [slice_add, if_neg hk]

/-- What is inserted is there. -/
theorem ExactOn.mem_add_self (h : ExactOn P ident b) (k : K) (a : α) :
    a ∈ (b.add k (ident a) a).slice k := by
  rw [slice_add, if_pos rfl]
  cases hp : b.pos? k (ident a) with
  | none => simp
  | some p =>
    obtain ⟨a₀, ha₀, -⟩ := (h k).sound hp
    exact List.mem_iff_getElem?.mpr
      ⟨p, List.getElem?_set_self (List.getElem?_eq_some_iff.mp ha₀).1⟩

/-- **The entries after an insertion**, among those with an identity in `P`: the new one,
and the old ones of another identity. -/
theorem ExactOn.mem_add (h : ExactOn P ident b) {k : K} {a a' : α} (hP : P (ident a')) :
    a' ∈ (b.add k (ident a) a).slice k ↔ a' = a ∨ (a' ∈ b.slice k ∧ ident a' ≠ ident a) := by
  rw [slice_add, if_pos rfl]
  cases hp : b.pos? k (ident a) with
  | none =>
    rw [List.mem_append, List.mem_singleton, or_comm]
    refine or_congr_right ⟨fun hm => ⟨hm, fun hc => ?_⟩, And.left⟩
    rw [← hc] at hp
    exact ((h k).lookup_eq_none hP).mp hp a' hm rfl
  | some p =>
    obtain ⟨a₀, ha₀, he₀⟩ := (h k).sound hp
    have hlt : p < (b.slice k).length := (List.getElem?_eq_some_iff.mp ha₀).1
    simp only [List.mem_iff_getElem?]
    constructor
    · rintro ⟨q, hq⟩
      by_cases hqp : q = p
      · subst hqp
        rw [List.getElem?_set_self hlt] at hq
        exact Or.inl (Option.some.inj hq).symm
      · rw [List.getElem?_set_ne (fun hc => hqp hc.symm)] at hq
        exact Or.inr ⟨⟨q, hq⟩, fun hc => hqp ((h k).inj hq ha₀ hP (hc.trans he₀.symm))⟩
    · rintro (rfl | ⟨⟨q, hq⟩, hne⟩)
      · exact ⟨p, List.getElem?_set_self hlt⟩
      · have hqp : q ≠ p := fun hc => by
          rw [hc, ha₀] at hq
          cases hq
          exact hne he₀
        exact ⟨q, by rw [List.getElem?_set_ne hqp.symm, hq]⟩

theorem slice_remove_of_ne (ident : α → κ) (b : Buckets K κ α) {k k' : K} (id : κ)
    (h : k' ≠ k) : (b.remove ident k id).slice k' = b.slice k' := by
  unfold remove
  split
  · rfl
  · simp only
    split <;> simp [slice, AList.lookup_erase_ne h, AList.lookup_insert_ne h]

theorem inner_remove_of_ne (ident : α → κ) (b : Buckets K κ α) {k k' : K} (id : κ)
    (h : k' ≠ k) : (b.remove ident k id).inner k' = b.inner k' := by
  unfold remove
  split
  · rfl
  · simp only
    split <;> simp [inner, AList.lookup_erase_ne h, AList.lookup_insert_ne h]

/-- What a removal does to its own bucket: nothing, if the identity is not there; else the
bucket is the shrunk one, or gone, if no sidecar is left of it. -/
theorem remove_cases (ident : α → κ) (b : Buckets K κ α) (k : K) (id : κ) :
    (b.pos? k id = none ∧ b.remove ident k id = b) ∨
      ∃ p, b.pos? k id = some p ∧
        (b.remove ident k id).inner k = (swapLast ident (b.slice k) (b.inner k) p).2.erase id ∧
        ((b.remove ident k id).slice k =
            (swapLast ident (b.slice k) (b.inner k) p).1.take ((b.slice k).length - 1) ∨
          (b.remove ident k id).slice k = [] ∧
            (swapLast ident (b.slice k) (b.inner k) p).2.erase id = ∅) := by
  cases hp : b.pos? k id with
  | none => exact Or.inl ⟨rfl, by rw [remove, hp]⟩
  | some p =>
    refine Or.inr ⟨p, rfl, ?_⟩
    rw [remove, hp]
    simp only
    split
    · rename_i hemp
      have hkeys := List.isEmpty_iff.mp hemp
      have hnil : (swapLast ident (b.slice k) (b.inner k) p).2.erase id = ∅ :=
        AList.ext (by simpa [AList.keys, List.keys] using hkeys)
      exact ⟨by rw [hnil]; simp [inner, AList.lookup_erase],
        Or.inr ⟨by simp [slice, AList.lookup_erase], hnil⟩⟩
    · exact ⟨by simp [inner, AList.lookup_insert], Or.inl (by simp [slice, AList.lookup_insert])⟩

theorem ExactOn.remove (h : ExactOn P ident b) (k : K) (id : κ) :
    ExactOn P ident (b.remove ident k id) := by
  intro k'
  by_cases hk : k' = k
  · subst hk
    rcases remove_cases ident b k' id with ⟨-, he⟩ | ⟨p, hp, hi, hs | ⟨hs, hnil⟩⟩
    · rw [he]
      exact h k'
    · rw [hs, hi]
      exact (h k').swapLast hp
    · rw [hs, hi, hnil]
      exact SliceOn.nil
  · rw [slice_remove_of_ne ident b id hk, inner_remove_of_ne ident b id hk]
    exact h k'

/-- **The entries after a removal**, among those with an identity in `P`: those of another
identity. -/
theorem ExactOn.mem_remove (h : ExactOn P ident b) {k : K} {id : κ} {a : α} (hP : P (ident a)) :
    a ∈ (b.remove ident k id).slice k ↔ a ∈ b.slice k ∧ ident a ≠ id := by
  rcases remove_cases ident b k id with ⟨hp, he⟩ | ⟨p, hp, -, hs | ⟨hs, hnil⟩⟩
  · rw [he]
    refine ⟨fun ha => ⟨ha, fun hc => ?_⟩, And.left⟩
    rw [← hc] at hp
    exact ((h k).lookup_eq_none hP).mp hp a ha rfl
  · rw [hs]
    exact (h k).mem_swapLast hp hP
  · -- the bucket is gone: what was left had no identity in `P`
    rw [hs, ← (h k).mem_swapLast hp hP]
    refine ⟨fun ha => absurd ha List.not_mem_nil, fun ha => ?_⟩
    obtain ⟨q, hq⟩ := List.mem_iff_getElem?.mp ha
    have hl := ((h k).swapLast hp).complete hq hP
    rw [hnil, AList.lookup_empty] at hl
    cases hl

/-- A removal reads the identity of the moved entry only, which is not the
removed one: it does not matter whether the memory behind the removed entry has
been written already. -/
theorem ExactOn.remove_congr {ident' : α → κ} (h : ExactOn P ident b) {k : K} {id : κ} (hP : P id)
    (he : ∀ a ∈ b.slice k, ident a ≠ id → ident' a = ident a) :
    b.remove ident' k id = b.remove ident k id := by
  cases hp : b.pos? k id with
  | none => simp only [Buckets.remove, hp]
  | some p =>
    obtain ⟨a₀, ha₀, rfl⟩ := (h k).sound hp
    have hsw : Buckets.swapLast ident' (b.slice k) (b.inner k) p =
        Buckets.swapLast ident (b.slice k) (b.inner k) p := by
      unfold Buckets.swapLast
      by_cases hpl : p = (b.slice k).length - 1
      · rw [if_neg (not_not.mpr hpl), if_neg (not_not.mpr hpl)]
      · rw [if_pos hpl, if_pos hpl]
        cases hl : (b.slice k)[(b.slice k).length - 1]? with
        | none => rfl
        | some l =>
          have hne : ident l ≠ ident a₀ := fun hc => hpl ((h k).inj ha₀ hl hP hc.symm)
          simp only [he l (List.mem_iff_getElem?.mpr ⟨_, hl⟩) hne]
    simp only [Buckets.remove, hp, hsw]

theorem ExactOn.drop (h : ExactOn P ident b) (k : K) : ExactOn P ident (b.drop k) := by
  intro k'
  rw [slice_drop, inner_drop]
  by_cases hk : k' = k
  · rw [if_pos hk, if_pos hk]
    exact SliceOn.nil
  · rw [if_neg hk, if_neg hk]
    exact h k'

/-- **An identity that changes in place**: when the memory behind one entry of the bucket
of `k` is written, rekeying the sidecar makes it right again, as long as the entry had an
identity in `P`, and no entry of the bucket has the new one already if that is in `P`. -/
theorem ExactOn.rekey {ident' : α → κ} (h : ExactOn P ident b) {k : K} {a : α}
    (ha : a ∈ b.slice k) (hP : P (ident a))
    (hnew : P (ident' a) → ∀ c ∈ b.slice k, ident c ≠ ident' a)
    (he : ∀ k', ∀ c ∈ b.slice k', c ≠ a → ident' c = ident c)
    (hne : ∀ k', k' ≠ k → a ∉ b.slice k') :
    ExactOn P ident' (b.rekey k (ident a) (ident' a)) := by
  obtain ⟨p, hp⟩ := List.mem_iff_getElem?.mp ha
  have hpos : b.pos? k (ident a) = some p := (h k).complete hp hP
  intro k'
  rw [slice_rekey, inner_rekey, hpos]
  by_cases hk : k' = k
  · subst hk
    simp only [if_pos]
    exact (h k').rekey hp hP (fun hP' => ((h k').lookup_eq_none hP').mpr (hnew hP')) (he k')
  · simp only [if_neg hk]
    refine (h k').congr fun c hc => he k' c hc fun hca => ?_
    subst hca
    exact hne k' hk hc

end ExactOn

/-! ### The sidecar is exact -/

/-- One slice and its sidecar: the sidecar is exactly the map from the identity
of every entry to its position. -/
def SliceExact (ident : α → κ) (s : List α) (m : GoMap κ ℕ) : Prop :=
  ∀ id p, m.lookup id = some p ↔ ∃ a, s[p]? = some a ∧ ident a = id

/-- **Every sidecar is exact.** -/
def Exact (ident : α → κ) (b : Buckets K κ α) : Prop :=
  ∀ k, SliceExact ident (b.slice k) (b.inner k)

section Exact

variable {ident : α → κ} {s : List α} {m : GoMap κ ℕ} {b : Buckets K κ α}

theorem sliceExact_iff : SliceExact ident s m ↔ SliceOn (fun _ => True) ident s m := by
  refine ⟨fun h => ⟨fun hl => (h _ _).mp hl, fun ha _ => (h _ _).mpr ⟨_, ha, rfl⟩⟩, ?_⟩
  rintro h id p
  refine ⟨h.sound, ?_⟩
  rintro ⟨a, ha, rfl⟩
  exact h.complete ha trivial

theorem exact_iff : Exact ident b ↔ ExactOn (fun _ => True) ident b :=
  forall_congr' fun _ => sliceExact_iff

/-- **No two entries share an identity.** -/
theorem SliceExact.nodup_map (h : SliceExact ident s m) : (s.map ident).Nodup := by
  rw [List.nodup_iff_injective_get]
  rintro ⟨p, hp⟩ ⟨q, hq⟩ he
  have hp' : p < s.length := by simpa using hp
  have hq' : q < s.length := by simpa using hq
  refine Fin.ext ((sliceExact_iff.mp h).inj (List.getElem?_eq_getElem hp')
    (List.getElem?_eq_getElem hq') trivial ?_)
  simpa using he

theorem Exact.empty : Exact ident (empty : Buckets K κ α) := exact_iff.mpr ExactOn.empty

theorem Exact.congr {ident' : α → κ} (h : Exact ident b)
    (he : ∀ k, ∀ a ∈ b.slice k, ident' a = ident a) : Exact ident' b :=
  exact_iff.mpr ((exact_iff.mp h).congr he)

theorem Exact.add (h : Exact ident b) (k : K) (a : α) : Exact ident (b.add k (ident a) a) :=
  exact_iff.mpr ((exact_iff.mp h).add k a)

theorem Exact.mem_add (h : Exact ident b) {k : K} {a a' : α} :
    a' ∈ (b.add k (ident a) a).slice k ↔ a' = a ∨ (a' ∈ b.slice k ∧ ident a' ≠ ident a) :=
  (exact_iff.mp h).mem_add trivial

theorem Exact.remove (h : Exact ident b) (k : K) (id : κ) :
    Exact ident (b.remove ident k id) :=
  exact_iff.mpr ((exact_iff.mp h).remove k id)

theorem Exact.mem_remove (h : Exact ident b) {k : K} {id : κ} {a : α} :
    a ∈ (b.remove ident k id).slice k ↔ a ∈ b.slice k ∧ ident a ≠ id :=
  (exact_iff.mp h).mem_remove trivial

end Exact

/-! ### Keys spread over several tables

When the buckets are spread over shards by a function `home` of the bucket key,
an operation on a key writes the table of its home, and reading any key at its
home sees the effect of that one write. -/

section Sharded

variable {ι : Type} [DecidableEq ι]

/-- The slice of a key in the table of its home. -/
def sliceAt (home : K → ι) (B : ι → Buckets K κ α) (k : K) : List α := (B (home k)).slice k

/-- Write the table of one shard. -/
def write (B : ι → Buckets K κ α) (i : ι) (b : Buckets K κ α) : ι → Buckets K κ α :=
  fun j => if j = i then b else B j

/-- **Every table is right, and complete on `P`, and a key has entries at its home only.** -/
structure ShardedOn (P : κ → Prop) (home : K → ι) (ident : α → κ) (B : ι → Buckets K κ α) :
    Prop where
  exact : ∀ i, (B i).ExactOn P ident
  home_eq : ∀ i k a, a ∈ (B i).slice k → home k = i

/-- **Every table is exact, and a key has entries at its home only.** -/
structure Sharded (home : K → ι) (ident : α → κ) (B : ι → Buckets K κ α) : Prop where
  exact : ∀ i, (B i).Exact ident
  home_eq : ∀ i k a, a ∈ (B i).slice k → home k = i

variable {P : κ → Prop} {home : K → ι} {ident : α → κ} {B : ι → Buckets K κ α}

omit [DecidableEq ι] in
theorem sharded_iff : Sharded home ident B ↔ ShardedOn (fun _ => True) home ident B :=
  ⟨fun h => ⟨fun i => exact_iff.mp (h.exact i), h.home_eq⟩,
    fun h => ⟨fun i => exact_iff.mpr (h.exact i), h.home_eq⟩⟩

omit [DecidableEq κ] in
/-- Reading a key after the table of a key's home has been replaced by one that
differs in that key's bucket only. -/
theorem sliceAt_write {k : K} {b : Buckets K κ α}
    (hb : ∀ k', k' ≠ k → b.slice k' = (B (home k)).slice k') (k' : K) :
    sliceAt home (write B (home k) b) k' = if k' = k then b.slice k else sliceAt home B k' := by
  unfold sliceAt write
  by_cases hk : k' = k
  · rw [if_pos hk, hk, if_pos rfl]
  · rw [if_neg hk]
    by_cases hh : home k' = home k
    · rw [if_pos hh, hb k' hk, hh]
    · rw [if_neg hh]

theorem ShardedOn.write (h : ShardedOn P home ident B) {k : K} {b : Buckets K κ α}
    (hexact : b.ExactOn P ident) (hhome : ∀ k' a, a ∈ b.slice k' → home k' = home k) :
    ShardedOn P home ident (Buckets.write B (home k) b) := by
  refine ⟨fun i => ?_, fun i k' a ha => ?_⟩
  · unfold Buckets.write
    by_cases hi : i = home k
    · rwa [if_pos hi]
    · rw [if_neg hi]
      exact h.exact i
  · unfold Buckets.write at ha
    by_cases hi : i = home k
    · rw [if_pos hi] at ha
      rw [hi]
      exact hhome k' a ha
    · rw [if_neg hi] at ha
      exact h.home_eq _ _ _ ha

omit [DecidableEq ι] in
theorem ShardedOn.mem_iff (h : ShardedOn P home ident B) {i : ι} {k : K} {a : α} :
    a ∈ (B i).slice k ↔ home k = i ∧ a ∈ sliceAt home B k := by
  constructor
  · intro ha
    obtain rfl := h.home_eq _ _ _ ha
    exact ⟨rfl, ha⟩
  · rintro ⟨rfl, ha⟩
    exact ha

theorem ShardedOn.add (h : ShardedOn P home ident B) (k : K) (a : α) :
    ShardedOn P home ident (Buckets.write B (home k) ((B (home k)).add k (ident a) a)) :=
  h.write ((h.exact _).add k a) fun k' a' ha => by
    rcases mem_of_mem_add ha with ⟨rfl, -⟩ | ha
    · rfl
    · exact h.home_eq _ _ _ ha

theorem ShardedOn.mem_add_self (h : ShardedOn P home ident B) (k : K) (a : α) :
    a ∈ sliceAt home (Buckets.write B (home k) ((B (home k)).add k (ident a) a)) k := by
  rw [sliceAt_write fun _ hk => slice_add_of_ne _ _ _ hk, if_pos rfl]
  exact (h.exact _).mem_add_self k a

theorem ShardedOn.mem_add (h : ShardedOn P home ident B) {k k' : K} {a a' : α}
    (hP : P (ident a')) :
    a' ∈ sliceAt home (Buckets.write B (home k) ((B (home k)).add k (ident a) a)) k' ↔
      (k' = k ∧ a' = a) ∨ (a' ∈ sliceAt home B k' ∧ ¬(k' = k ∧ ident a' = ident a)) := by
  rw [sliceAt_write fun _ hk => slice_add_of_ne _ _ _ hk]
  by_cases hk : k' = k
  · subst hk
    rw [if_pos rfl, (h.exact _).mem_add hP]
    simp [sliceAt]
  · simp [hk]

omit [DecidableEq κ] in
theorem mem_sliceAt_write_of_sub {k k' : K} {b : Buckets K κ α} {a : α}
    (hsub : ∀ k', a ∈ b.slice k' → a ∈ (B (home k)).slice k')
    (ha : a ∈ sliceAt home (Buckets.write B (home k) b) k') : a ∈ sliceAt home B k' := by
  unfold sliceAt Buckets.write at ha
  by_cases hh : home k' = home k
  · rw [if_pos hh] at ha
    rw [sliceAt, hh]
    exact hsub k' ha
  · rwa [if_neg hh] at ha

theorem mem_sliceAt_of_mem_add {k k' : K} {id : κ} {a a' : α}
    (ha : a' ∈ sliceAt home (Buckets.write B (home k) ((B (home k)).add k id a)) k') :
    (k' = k ∧ a' = a) ∨ a' ∈ sliceAt home B k' := by
  rw [sliceAt_write fun _ hk => slice_add_of_ne _ _ _ hk] at ha
  by_cases hk : k' = k
  · rw [if_pos hk] at ha
    rcases mem_of_mem_add ha with ⟨-, rfl⟩ | ha
    · exact Or.inl ⟨hk, rfl⟩
    · exact Or.inr (hk ▸ ha)
  · rw [if_neg hk] at ha
    exact Or.inr ha

theorem mem_sliceAt_of_mem_remove {k k' : K} {id : κ} {a : α}
    (ha : a ∈ sliceAt home (Buckets.write B (home k) ((B (home k)).remove ident k id)) k') :
    a ∈ sliceAt home B k' :=
  mem_sliceAt_write_of_sub (fun _ => mem_of_mem_remove) ha

theorem ShardedOn.remove (h : ShardedOn P home ident B) (k : K) (id : κ) :
    ShardedOn P home ident (Buckets.write B (home k) ((B (home k)).remove ident k id)) :=
  h.write ((h.exact _).remove k id) fun _ _ ha => h.home_eq _ _ _ (mem_of_mem_remove ha)

theorem ShardedOn.mem_remove (h : ShardedOn P home ident B) {k k' : K} {id : κ} {a : α}
    (hP : P (ident a)) :
    a ∈ sliceAt home (Buckets.write B (home k) ((B (home k)).remove ident k id)) k' ↔
      a ∈ sliceAt home B k' ∧ ¬(k' = k ∧ ident a = id) := by
  rw [sliceAt_write fun _ hk => slice_remove_of_ne _ _ _ hk]
  by_cases hk : k' = k
  · subst hk
    rw [if_pos rfl, (h.exact _).mem_remove hP]
    simp [sliceAt]
  · simp [hk]

theorem ShardedOn.drop (h : ShardedOn P home ident B) (k : K) :
    ShardedOn P home ident (Buckets.write B (home k) ((B (home k)).drop k)) :=
  h.write ((h.exact _).drop k) fun k' a ha => by
    rw [slice_drop] at ha
    split at ha
    · cases ha
    · exact h.home_eq _ _ _ ha

omit [DecidableEq κ] in
theorem mem_sliceAt_drop {k k' : K} {a : α} :
    a ∈ sliceAt home (Buckets.write B (home k) ((B (home k)).drop k)) k' ↔
      a ∈ sliceAt home B k' ∧ k' ≠ k := by
  rw [sliceAt_write fun _ hk => by rw [slice_drop, if_neg hk]]
  by_cases hk : k' = k
  · simp [hk, slice_drop]
  · simp [hk]

/-- **An identity that changes in place, over all tables.** -/
theorem ShardedOn.rekey {ident' : α → κ} (h : ShardedOn P home ident B) {k : K} {a : α}
    (ha : a ∈ sliceAt home B k) (hP : P (ident a))
    (hnew : P (ident' a) → ∀ c ∈ sliceAt home B k, ident c ≠ ident' a)
    (he : ∀ c, c ≠ a → ident' c = ident c)
    (hne : ∀ k', k' ≠ k → a ∉ sliceAt home B k') :
    ShardedOn P home ident'
      (Buckets.write B (home k) ((B (home k)).rekey k (ident a) (ident' a))) := by
  have hother : ∀ i k', k' ≠ k → a ∉ (B i).slice k' := fun i k' hk hm =>
    hne k' hk (h.mem_iff.mp hm).2
  refine ⟨fun i => ?_, fun i k' c hc => ?_⟩
  · unfold Buckets.write
    by_cases hi : i = home k
    · rw [if_pos hi]
      exact (h.exact _).rekey ha hP hnew (fun _ c _ hca => he c hca) fun k' hk => hother _ k' hk
    · rw [if_neg hi]
      refine (h.exact i).congr fun k' c hc => he c fun hca => ?_
      subst hca
      rcases eq_or_ne k' k with rfl | hk
      · exact hi (h.home_eq _ _ _ hc).symm
      · exact hother i k' hk hc
  · unfold Buckets.write at hc
    by_cases hi : i = home k
    · rw [if_pos hi, slice_rekey] at hc
      rw [hi]
      exact h.home_eq _ _ _ hc
    · rw [if_neg hi] at hc
      exact h.home_eq _ _ _ hc

theorem sliceAt_rekey (k k' : K) (old new : κ) :
    sliceAt home (Buckets.write B (home k) ((B (home k)).rekey k old new)) k' =
      sliceAt home B k' := by
  rw [sliceAt_write fun _ _ => slice_rekey _ _ _ _ _]
  by_cases hk : k' = k
  · rw [if_pos hk, slice_rekey, hk, sliceAt]
  · rw [if_neg hk]

omit [DecidableEq ι] in
theorem ShardedOn.empty : ShardedOn P home ident fun _ => (Buckets.empty : Buckets K κ α) :=
  ⟨fun _ => ExactOn.empty, fun _ _ _ ha => absurd ha (by simp)⟩

omit [DecidableEq ι] in
theorem ShardedOn.congr {ident' : α → κ} (h : ShardedOn P home ident B)
    (he : ∀ k, ∀ a ∈ sliceAt home B k, ident' a = ident a) : ShardedOn P home ident' B :=
  ⟨fun i => (h.exact i).congr fun k a ha => he k a (h.mem_iff.mp ha).2, h.home_eq⟩

omit [DecidableEq ι] in
theorem Sharded.mem_iff (h : Sharded home ident B) {i : ι} {k : K} {a : α} :
    a ∈ (B i).slice k ↔ home k = i ∧ a ∈ sliceAt home B k :=
  (sharded_iff.mp h).mem_iff

end Sharded

end Buckets
