import Mathlib.Algebra.BigOperators.Group.List.Basic
import Mathlib.Data.List.Count
import Gortex.Lib.GoMap

/-!
# Grouped lists

A Go `map[K][]C` that groups the elements of a multiset by a key: `Grouped.Groups key mult m`
says that the list under a key holds the elements of that key, each as often as `mult`
says, and nothing else. An element without a key is in no list. The writes of a program
change one list at a time, by appending to it (`Groups.push`) or by filtering it
(`Groups.filterAt`), and each rule says what becomes of the multiset; that an emptied
list is deleted or not makes no difference. Several maps that group one multiset by several
keys hold the same elements (`Groups.perm`).
-/

namespace Grouped

variable {K C : Type} [DecidableEq K]

/-- The list under a key: `m[k]`. -/
def slice (m : GoMap K (List C)) (k : K) : List C := (m.lookup k).getD []

/-- `m[k] = append(m[k], c)`. -/
def push (m : GoMap K (List C)) (k : K) (c : C) : GoMap K (List C) := m.insert k (slice m k ++ [c])

/-- All elements, list by list. -/
def elements (m : GoMap K (List C)) : List C := m.pairs.flatMap Prod.snd

@[simp] theorem slice_empty (k : K) : slice (∅ : GoMap K (List C)) k = [] := rfl

theorem slice_insert (m : GoMap K (List C)) (k k' : K) (l : List C) :
    slice (m.insert k l) k' = if k' = k then l else slice m k' := by
  unfold slice
  rw [GoMap.lookup_insert]
  split <;> rfl

theorem slice_erase (m : GoMap K (List C)) (k k' : K) :
    slice (m.erase k) k' = if k' = k then [] else slice m k' := by
  unfold slice
  rw [GoMap.lookup_erase]
  split <;> rfl

/-- **What a loop that appends leaves in a list**: what was there, and the elements of its key. -/
theorem mem_slice_foldl_push {A : Type} {key : A → K} {val : A → C} {l : List A}
    {m : GoMap K (List C)} {k : K} {c : C} :
    c ∈ slice (l.foldl (fun m a => push m (key a) (val a)) m) k ↔
      c ∈ slice m k ∨ ∃ a ∈ l, key a = k ∧ val a = c := by
  induction l generalizing m with
  | nil => simp
  | cons a l ih =>
    rw [List.foldl_cons, ih, push, slice_insert]
    by_cases hk : k = key a
    · subst hk
      simp [or_assoc, eq_comm (a := c)]
    · rw [if_neg hk]
      simp [Ne.symm hk]

/-- A loop over all lists that keeps what lies under one key visits that list. -/
theorem filter_flatMap {m : GoMap K (List C)} {l : List (K × List C)} (hl : l.Perm m.pairs)
    {p : C → Bool} {k : K} (hp : ∀ k' cs, m.lookup k' = some cs → ∀ c ∈ cs, p c = true ↔ k' = k) :
    (l.flatMap Prod.snd).filter p = slice m k := by
  have hkeep : ∀ q ∈ l, q.2.filter p = if q.1 = k then q.2 else [] := fun q hq => by
    have hlookup := GoMap.mem_pairs.mp (hl.mem_iff.mp hq)
    by_cases hk : q.1 = k
    · rw [if_pos hk]
      exact List.filter_eq_self.mpr fun c hc => (hp _ _ hlookup c hc).mpr hk
    · rw [if_neg hk]
      exact List.filter_eq_nil_iff.mpr fun c hc h => hk ((hp _ _ hlookup c hc).mp h)
  have hsplit : ∀ l' : List (K × List C), (∀ q ∈ l', q ∈ l) →
      (l'.flatMap Prod.snd).filter p = (l'.filter fun q => q.1 = k).flatMap Prod.snd := by
    intro l' hsub
    induction l' with
    | nil => rfl
    | cons q l' ih =>
      rw [List.flatMap_cons, List.filter_append, hkeep q (hsub q List.mem_cons_self),
        ih fun x hx => hsub x (List.mem_cons_of_mem q hx)]
      by_cases hk : q.1 = k
      · rw [if_pos hk, List.filter_cons_of_pos (by simpa using hk), List.flatMap_cons]
      · rw [if_neg hk, List.filter_cons_of_neg (by simpa using hk), List.nil_append]
  rw [hsplit l fun _ h => h, GoMap.filter_pairs hl, slice]
  cases m.lookup k with
  | none => rfl
  | some cs => simp

variable [DecidableEq C]

/-- **The map groups a multiset by a key.** -/
def Groups (key : C → Option K) (mult : C → ℕ) (m : GoMap K (List C)) : Prop :=
  ∀ k c, (slice m k).count c = if key c = some k then mult c else 0

variable {key : C → Option K} {mult mult' : C → ℕ} {m m' : GoMap K (List C)} {k : K} {c : C}

theorem Groups.empty (key : C → Option K) : Groups key (fun _ => 0) ∅ := fun k c => by
  rw [slice_empty, List.count_nil, ite_self]

/-- Only the elements with a key matter. -/
theorem Groups.congr (h : Groups key mult m) (hmult : ∀ c k, key c = some k → mult' c = mult c)
    (hslice : ∀ k, slice m' k = slice m k) : Groups key mult' m' := fun k c => by
  rw [hslice, h k c]
  by_cases hc : key c = some k
  · rw [if_pos hc, if_pos hc, hmult c k hc]
  · rw [if_neg hc, if_neg hc]

theorem Groups.mem_iff (h : Groups key mult m) : c ∈ slice m k ↔ key c = some k ∧ 0 < mult c := by
  rw [← List.count_pos_iff, h k c]
  by_cases hc : key c = some k
  · rw [if_pos hc]
    exact (and_iff_right hc).symm
  · rw [if_neg hc]
    exact iff_of_false (lt_irrefl _) fun hk => hc hk.1

/-- **Appending an element** to the list of its key. -/
theorem Groups.push (h : Groups key mult m) (hk : key c = some k) :
    Groups key (fun c' => mult c' + if c' = c then 1 else 0) (Grouped.push m k c) := fun k' c' => by
  rw [Grouped.push, slice_insert]
  simp only
  by_cases hkk : k' = k
  · rw [if_pos hkk, hkk, List.count_append, h k c', List.count_singleton]
    by_cases hc : c' = c
    · rw [hc, if_pos hk, if_pos hk, if_pos rfl]
      simp
    · have hne : (c == c') = false := beq_eq_false_iff_ne.mpr (Ne.symm hc)
      rw [if_neg hc, hne, if_neg Bool.false_ne_true, Nat.add_zero, Nat.add_zero]
  · rw [if_neg hkk, h k' c']
    by_cases hc : key c' = some k'
    · have hne : c' ≠ c := fun hcc => hkk (Option.some.inj (hc.symm.trans (hcc ▸ hk)))
      rw [if_pos hc, if_pos hc, if_neg hne, Nat.add_zero]
    · rw [if_neg hc, if_neg hc]

/-- **Filtering the list of a key**, where what is dropped is decided by a relation that
tells keys apart. -/
theorem Groups.filterAt {p : C → Bool} (h : Groups key mult m)
    (hp : ∀ c, p c = true → key c = some k)
    (hslice : ∀ k', slice m' k' =
      if k' = k then (slice m k).filter (fun c => !p c) else slice m k') :
    Groups key (fun c => if p c = true then 0 else mult c) m' := fun k' c => by
  rw [hslice]
  simp only
  by_cases hkk : k' = k
  · subst hkk
    rw [if_pos rfl]
    cases hpc : p c with
    | true =>
      rw [if_pos rfl, ite_self]
      exact List.count_eq_zero_of_not_mem fun hc => by simp [hpc] at hc
    | false =>
      rw [if_neg Bool.false_ne_true, List.count_filter (by simp [hpc]), h]
  · rw [if_neg hkk, h k' c]
    cases hpc : p c with
    | true =>
      have hne : key c ≠ some k' := fun hc => hkk (Option.some.inj (hc.symm.trans (hp c hpc)))
      rw [if_neg hne, if_neg hne]
    | false => rw [if_neg Bool.false_ne_true]

/-- **Emptying the list of a key.** -/
theorem Groups.clearAt (h : Groups key mult m)
    (hslice : ∀ k', slice m' k' = if k' = k then [] else slice m k') :
    Groups key (fun c => if key c = some k then 0 else mult c) m' := fun k' c => by
  rw [hslice]
  simp only
  by_cases hkk : k' = k
  · rw [if_pos hkk, hkk, List.count_nil]
    by_cases hc : key c = some k
    · rw [if_pos hc, if_pos hc]
    · rw [if_neg hc]
  · rw [if_neg hkk, h k' c]
    by_cases hc : key c = some k'
    · rw [if_pos hc, if_pos hc, if_neg fun he => hkk (Option.some.inj (hc.symm.trans he))]
    · rw [if_neg hc, if_neg hc]

/-- The elements of a map that groups a multiset of elements with keys are that multiset. -/
theorem Groups.count_elements (h : Groups key mult m) (hk : key c = some k) :
    (elements m).count c = mult c := by
  have hone : ∀ p ∈ m.pairs, p.1 ≠ k → p.2.count c = 0 := fun p hp hne => by
    have hslice : slice m p.1 = p.2 := by rw [slice, GoMap.mem_pairs.mp hp, Option.getD_some]
    rw [← hslice, h p.1 c, if_neg]
    exact fun hc => hne (Option.some.inj (hc.symm.trans hk))
  have hsum : ∀ l : List (K × List C), (l.map Prod.fst).Nodup →
      (∀ p ∈ l, p.1 ≠ k → p.2.count c = 0) → (∀ p ∈ l, p.1 = k → p.2.count c = mult c) →
        (l.flatMap Prod.snd).count c = if k ∈ l.map Prod.fst then mult c else 0 := by
    intro l
    induction l with
    | nil => exact fun _ _ _ => rfl
    | cons p l ih =>
      intro hnodup hzero hval
      rw [List.map_cons, List.nodup_cons] at hnodup
      have hrest := ih hnodup.2 (fun q hq => hzero q (List.mem_cons_of_mem _ hq))
        fun q hq => hval q (List.mem_cons_of_mem _ hq)
      rw [List.flatMap_cons, List.count_append, hrest]
      by_cases hp : p.1 = k
      · have hnot : k ∉ l.map Prod.fst := hp ▸ hnodup.1
        rw [hval p List.mem_cons_self hp, if_neg hnot, if_pos (by simp [hp]), Nat.add_zero]
      · rw [hzero p List.mem_cons_self hp, Nat.zero_add]
        refine if_congr ?_ rfl rfl
        rw [List.map_cons, List.mem_cons]
        exact (or_iff_right (Ne.symm hp)).symm
  have hval : ∀ p ∈ m.pairs, p.1 = k → p.2.count c = mult c := fun p hp hpk => by
    have hslice : slice m p.1 = p.2 := by rw [slice, GoMap.mem_pairs.mp hp, Option.getD_some]
    rw [← hslice, h p.1 c, if_pos (hpk ▸ hk)]
  have htotal := hsum m.pairs (GoMap.nodup_pairs_fst m) hone hval
  rw [elements, htotal]
  by_cases hmem : k ∈ m.pairs.map Prod.fst
  · rw [if_pos hmem]
  · rw [if_neg hmem]
    have hnone : m.lookup k = none := by
      cases hl : m.lookup k with
      | none => rfl
      | some l => exact absurd (List.mem_map.mpr ⟨(k, l), GoMap.mem_pairs.mpr hl, rfl⟩) hmem
    have hzero := h k c
    rw [slice, hnone, Option.getD_none, List.count_nil, if_pos hk] at hzero
    exact hzero

/-- **Two maps that group one multiset**, the first by a key that every element has: the
lists of the second one are the elements of the first, sorted by the key. -/
theorem Groups.perm {K' : Type} [DecidableEq K'] {key' : C → Option K'} {m₁ : GoMap K' (List C)}
    (h : Groups key mult m) (h₁ : Groups key' mult m₁) (htotal : ∀ c, key' c ≠ none) (k : K) :
    (slice m k).Perm ((elements m₁).filter fun c => key c = some k) := by
  refine List.perm_iff_count.mpr fun c => ?_
  obtain ⟨k', hk'⟩ := Option.ne_none_iff_exists'.mp (htotal c)
  rw [h k c]
  by_cases hc : key c = some k
  · rw [if_pos hc, List.count_filter (by simp [hc]), h₁.count_elements hk']
  · rw [if_neg hc]
    exact (List.count_eq_zero_of_not_mem fun hmem => by simp [hc] at hmem).symm

end Grouped
