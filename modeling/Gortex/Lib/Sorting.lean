import Mathlib.Algebra.Order.Field.Basic
import Mathlib.Data.List.Sort
import Mathlib.Tactic.Linarith

/-!
# Sorting by a key

What the order of a sorted list says of the list it was made of. That one entry precedes
another is written as a sublist of two. A stable sort puts an entry before another if its
key says so or, of the same key, if it stood before it (`Sorting.pair_sublist_stable_iff`).
Hence a list in the order of a weight can be put by a second key into the order of the
product of both, but only as far as the second key agrees with the product
(`Sorting.reweights_iff`).
-/

namespace Sorting

variable {α : Type*} {l : List α} {a b : α}

/-! ### What precedes what -/

/-- Of two entries of a list, one precedes the other. -/
theorem pair_or_pair (ha : a ∈ l) (hb : b ∈ l) (hne : a ≠ b) :
    [a, b].Sublist l ∨ [b, a].Sublist l := by
  induction l with
  | nil => exact absurd ha List.not_mem_nil
  | cons c l ih =>
    rcases List.mem_cons.mp ha with rfl | ha'
    · exact .inl ((List.singleton_sublist.mpr (List.mem_of_ne_of_mem hne.symm hb)).cons_cons a)
    · rcases List.mem_cons.mp hb with rfl | hb'
      · exact .inr ((List.singleton_sublist.mpr ha').cons_cons b)
      · exact (ih ha' hb').imp (·.cons c) (·.cons c)

theorem mem_of_pair (h : [a, b].Sublist l) : a ∈ l ∧ b ∈ l :=
  ⟨h.subset List.mem_cons_self, h.subset (List.mem_cons_of_mem _ List.mem_cons_self)⟩

theorem ne_of_pair (hl : l.Nodup) (h : [a, b].Sublist l) : a ≠ b :=
  List.pairwise_iff_forall_sublist.mp hl h

/-- In a list without duplicates, only one of two precedes the other. -/
theorem not_pair_swap (hl : l.Nodup) (h : [a, b].Sublist l) : ¬[b, a].Sublist l := by
  intro h'
  induction l with
  | nil => exact List.not_mem_nil (mem_of_pair h).1
  | cons c l ih =>
    rw [List.nodup_cons] at hl
    rcases List.sublist_cons_iff.mp h with h | ⟨r, hr, h⟩
    · rcases List.sublist_cons_iff.mp h' with h' | ⟨r', hr', h'⟩
      · exact ih hl.2 h h'
      · rw [List.cons_eq_cons] at hr'
        exact hl.1 (hr'.1 ▸ (mem_of_pair h).2)
    · rw [List.cons_eq_cons] at hr
      rcases List.sublist_cons_iff.mp h' with h' | ⟨r', hr', h'⟩
      · exact hl.1 (hr.1 ▸ (mem_of_pair h').2)
      · rw [List.cons_eq_cons] at hr'
        rw [← hr.2] at h
        exact hl.1 (hr'.1 ▸ List.singleton_sublist.mp h)

/-- A list with two entries is not its own reversal. -/
theorem ne_reverse (hl : l.Nodup) (ha : a ∈ l) (hb : b ∈ l) (hne : a ≠ b) : l ≠ l.reverse := by
  intro h
  have hswap : ∀ {a b : α}, [a, b].Sublist l → [b, a].Sublist l := by
    intro a b hab
    have hrev := hab.reverse
    rwa [← h] at hrev
  rcases pair_or_pair ha hb hne with hab | hba
  · exact not_pair_swap hl hab (hswap hab)
  · exact not_pair_swap hl hba (hswap hba)

/-- What everything else precedes stands at the end. -/
theorem exists_concat (hl : l.Nodup) (ha : a ∈ l)
    (h : ∀ b ∈ l, b ≠ a → [b, a].Sublist l) : ∃ pre, l = pre ++ [a] ∧ a ∉ pre := by
  obtain ⟨pre, post, rfl⟩ := List.append_of_mem ha
  obtain rfl : post = [] := by
    refine List.eq_nil_iff_forall_not_mem.mpr fun b hb => ?_
    have hab : [a, b].Sublist (pre ++ a :: post) :=
      ((List.singleton_sublist.mpr hb).cons_cons a).trans (List.sublist_append_right pre _)
    exact not_pair_swap hl hab (h b (mem_of_pair hab).2 (ne_of_pair hl hab).symm)
  exact ⟨pre, rfl, fun hc => (List.nodup_append.mp hl).2.2 a hc a List.mem_cons_self rfl⟩

/-- **What a cut of the last entry leaves out comes last in the order.** -/
theorem le_of_not_mem_take {K : Type*} [Preorder K] {key : α → K} {n : ℕ}
    (hl : l.Pairwise fun a b => key b ≤ key a) (hlen : l.length ≤ n + 1) (ha : a ∈ l)
    (hnot : a ∉ l.take n) (hb : b ∈ l) : key a ≤ key b := by
  rw [← List.take_append_drop n l] at ha hb hl
  have hlast := (List.mem_append.mp ha).resolve_left hnot
  rcases List.mem_append.mp hb with hb | hb
  · exact (List.pairwise_append.mp hl).2.2 b hb a hlast
  · have hdrop : (l.drop n).length ≤ 1 := by
      rw [List.length_drop]
      omega
    obtain ⟨i, hi, rfl⟩ := List.getElem_of_mem hlast
    obtain ⟨j, hj, rfl⟩ := List.getElem_of_mem hb
    obtain rfl : i = j := by omega
    exact le_rfl

/-- **What a cut keeps, it keeps with all that has a larger key**, and after it. -/
theorem pair_sublist_take {K : Type*} [Preorder K] {key : α → K} {n : ℕ}
    (hl : l.Pairwise fun a b => key b ≤ key a) (ha : a ∈ l) (hb : b ∈ l.take n)
    (hab : key b < key a) : [a, b].Sublist (l.take n) := by
  have ha' : a ∈ l.take n := by
    rw [← List.take_append_drop n l] at ha hl
    refine (List.mem_append.mp ha).resolve_right fun hdrop => ?_
    exact hab.not_ge ((List.pairwise_append.mp hl).2.2 b hb a hdrop)
  refine (pair_or_pair ha' hb (ne_of_apply_ne key hab.ne')).resolve_right fun hba => ?_
  exact hab.not_ge (List.pairwise_iff_forall_sublist.mp hl (hba.trans (List.take_sublist n l)))

/-! ### A stable sort by a key -/

section Stable

variable {K : Type*} [LinearOrder K] (key : α → K)

/-- The stable sort by a key, largest first. -/
def stable (l : List α) : List α := l.mergeSort fun a b => key b ≤ key a

theorem perm_stable (l : List α) : (stable key l).Perm l := List.mergeSort_perm l _

variable {key}

theorem pairwise_stable (l : List α) : (stable key l).Pairwise fun a b => key b ≤ key a := by
  have h : (stable key l).Pairwise fun a b => decide (key b ≤ key a) = true :=
    List.pairwise_mergeSort
    (fun a b c hab hbc => decide_eq_true ((of_decide_eq_true hbc).trans (of_decide_eq_true hab)))
    (fun a b => by simpa using le_total (key b) (key a)) l
  exact h.imp of_decide_eq_true

/-- What precedes, and is not to follow, still precedes. -/
theorem pair_sublist_stable (hab : key b ≤ key a) (h : [a, b].Sublist l) :
    [a, b].Sublist (stable key l) :=
  List.pair_sublist_mergeSort
    (fun a b c hab hbc => decide_eq_true ((of_decide_eq_true hbc).trans (of_decide_eq_true hab)))
    (fun a b => by simpa using le_total (key b) (key a)) (decide_eq_true hab) h

/-- A list of one key stays as it is. -/
theorem stable_of_const (h : ∀ a ∈ l, ∀ b ∈ l, key a = key b) : stable key l = l := by
  refine List.mergeSort_of_pairwise (List.pairwise_iff_forall_sublist.mpr fun {a b} hab => ?_)
  exact decide_eq_true (h b (mem_of_pair hab).2 a (mem_of_pair hab).1).le

/-- The entries of a key stand as they stood. -/
theorem filter_stable (k : K) :
    (stable key l).filter (fun a => key a = k) = l.filter fun a => key a = k := by
  have hsub : (l.filter fun a => key a = k).Sublist (stable key l) := by
    refine List.sublist_mergeSort
      (fun a b c hab hbc => decide_eq_true ((of_decide_eq_true hbc).trans (of_decide_eq_true hab)))
      (fun a b => by simpa using le_total (key b) (key a)) ?_ List.filter_sublist
    refine List.pairwise_iff_forall_sublist.mpr fun {a b} hab => decide_eq_true ?_
    obtain ⟨ha, hb⟩ := mem_of_pair hab
    exact ((of_decide_eq_true (List.mem_filter.mp hb).2).trans
      (of_decide_eq_true (List.mem_filter.mp ha).2).symm).le
  have hfilter := hsub.filter fun a => key a = k
  simp only [List.filter_filter, Bool.and_self] at hfilter
  exact (hfilter.eq_of_length_le ((perm_stable key l).filter _).length_eq.le).symm

/-- **The order of a stable sort.** -/
theorem pair_sublist_stable_iff (ha : a ∈ l) (hb : b ∈ l) :
    [a, b].Sublist (stable key l) ↔ key b < key a ∨ key a = key b ∧ [a, b].Sublist l := by
  constructor
  · intro h
    rcases (List.pairwise_iff_forall_sublist.mp (pairwise_stable l) h).lt_or_eq with hlt | heq
    · exact .inl hlt
    · have hfilter := h.filter fun c => key c = key a
      rw [filter_stable, List.filter_eq_self.mpr] at hfilter
      · exact .inr ⟨heq.symm, hfilter.trans List.filter_sublist⟩
      · intro c hc
        rcases List.mem_cons.mp hc with rfl | hc
        · exact decide_eq_true rfl
        · rw [List.mem_singleton.mp hc]
          exact decide_eq_true heq
  · rintro (hlt | ⟨heq, h⟩)
    · have hne : a ≠ b := fun hc => hlt.ne (hc ▸ rfl)
      refine (pair_or_pair ((perm_stable key l).mem_iff.mpr ha) ((perm_stable key l).mem_iff.mpr hb)
        hne).resolve_right fun h => ?_
      exact hlt.not_ge (List.pairwise_iff_forall_sublist.mp (pairwise_stable l) h)
    · exact pair_sublist_stable heq.ge h

theorem mem_iff_of_filter_key {l' : List α}
    (h : ∀ k, l.filter (fun a => key a = k) = l'.filter fun a => key a = k) (c : α) :
    c ∈ l ↔ c ∈ l' := by
  have hc := congrArg (c ∈ ·) (h (key c))
  simpa [List.mem_filter] using hc

/-- A list in order is determined by its entries of each key. -/
theorem eq_of_filter_key {l' : List α} (hl : l.Pairwise fun a b => key b ≤ key a)
    (hl' : l'.Pairwise fun a b => key b ≤ key a)
    (h : ∀ k, l.filter (fun a => key a = k) = l'.filter fun a => key a = k) : l = l' := by
  have hmem := mem_iff_of_filter_key h
  induction l generalizing l' with
  | nil => exact (List.eq_nil_iff_forall_not_mem.mpr fun c hc =>
      List.not_mem_nil ((hmem c).mpr hc)).symm
  | cons a l ih =>
    cases l' with
    | nil => exact absurd ((hmem a).mp List.mem_cons_self) List.not_mem_nil
    | cons b l' =>
      rw [List.pairwise_cons] at hl hl'
      -- the heads are both of the largest key, hence of the same one
      have hkey : key a = key b := by
        apply le_antisymm
        · rcases List.mem_cons.mp ((hmem a).mp List.mem_cons_self) with rfl | ha
          · exact le_rfl
          · exact hl'.1 a ha
        · rcases List.mem_cons.mp ((hmem b).mpr List.mem_cons_self) with rfl | hb
          · exact le_rfl
          · exact hl.1 b hb
      have hhead := h (key a)
      rw [List.filter_cons_of_pos (by simp), List.filter_cons_of_pos (by simp [hkey]),
        List.cons_eq_cons] at hhead
      obtain ⟨rfl, htail⟩ := hhead
      have hrest : ∀ k, l.filter (fun a => key a = k) = l'.filter fun a => key a = k := by
        intro k
        by_cases hk : key a = k
        · rw [← hk, htail]
        · have hk' := h k
          rwa [List.filter_cons_of_neg (by simpa using hk),
            List.filter_cons_of_neg (by simpa using hk)] at hk'
      rw [ih hl.2 hl'.2 hrest (mem_iff_of_filter_key hrest)]

/-- **Two lists are sorted alike exactly if they have the same entries of each key**, in the same
order. -/
theorem stable_eq_iff {l' : List α} : stable key l = stable key l' ↔
    ∀ k, l.filter (fun a => key a = k) = l'.filter fun a => key a = k := by
  constructor
  · intro h k
    rw [← filter_stable k, h, filter_stable]
  · intro h
    refine eq_of_filter_key (pairwise_stable l) (pairwise_stable l') fun k => ?_
    rw [filter_stable, filter_stable, h]

end Stable

/-! ### Reweighting -/

section Reweight

variable {K : Type*} [Field K] [LinearOrder K] [IsStrictOrderedRing K]

/-- **A list in the order of a weight, sorted by a multiplier, is in the order of the product
exactly when no entry is passed by one of a smaller product**: whatever the multiplier lifts
over another entry is to have the larger product. -/
theorem reweights_iff {weight mult : α → K} (hpos : ∀ a ∈ l, 0 < weight a)
    (hmult : ∀ a ∈ l, 0 < mult a) (hdec : l.Pairwise fun a b => weight b < weight a) :
    (∀ a ∈ l, ∀ b ∈ l, weight b * mult b < weight a * mult a → [a, b].Sublist (stable mult l)) ↔
      ∀ a b, [a, b].Sublist l → mult a < mult b → weight a * mult a ≤ weight b * mult b := by
  have hl : l.Nodup := hdec.imp fun {a b} h (hc : a = b) => h.ne (hc ▸ rfl)
  constructor
  · intro h a b hab hlt
    obtain ⟨ha, hb⟩ := mem_of_pair hab
    by_contra hc
    have hpair := (pair_sublist_stable_iff ha hb).mp (h a ha b hb (not_le.mp hc))
    exact hpair.elim hlt.not_gt fun he => hlt.ne he.1
  · intro h a ha b hb hlt
    have hne : a ≠ b := fun hc => hlt.ne (hc ▸ rfl)
    rw [pair_sublist_stable_iff ha hb]
    rcases pair_or_pair ha hb hne with hab | hba
    · -- what stood before stays, as nothing of a smaller product passes it
      rcases lt_trichotomy (mult a) (mult b) with hm | hm | hm
      · exact absurd (h a b hab hm) hlt.not_ge
      · exact .inr ⟨hm, hab⟩
      · exact .inl hm
    · -- the smaller weight has the larger product by its multiplier only
      left
      have hw : weight a < weight b := List.pairwise_iff_forall_sublist.mp hdec hba
      by_contra hc
      have hprod : weight a * mult a ≤ weight b * mult b :=
        mul_le_mul hw.le (not_lt.mp hc) (hmult a ha).le (hpos b hb).le
      exact hlt.not_ge hprod

end Reweight

/-! ### A sort of which the order of equals is left open -/

/-- What is never after the others stands in front of them. -/
theorem eq_filter_append {p : α → Bool} (h : l.Pairwise fun a b => p b = true → p a = true) :
    l = l.filter p ++ l.filter fun a => !p a := by
  induction l with
  | nil => rfl
  | cons a l ih =>
    obtain ⟨hhead, htail⟩ := List.pairwise_cons.mp h
    cases ha : p a with
    | true =>
      rw [List.filter_cons_of_pos ha, List.filter_cons_of_neg (by simp [ha]), List.cons_append,
        ← ih htail]
    | false =>
      have hnone : l.filter p = [] := List.filter_eq_nil_iff.mpr fun b hb hpb => by
        rw [hhead b hb hpb] at ha
        cases ha
      have hall : (l.filter fun a => !p a) = l := by
        rw [ih htail, hnone, List.nil_append, List.filter_filter]
        simp
      rw [List.filter_cons_of_neg (by simp [ha]), List.filter_cons_of_pos (by simp [ha]), hnone,
        hall, List.nil_append]

/-- A sort by a comparison, stable or not: for a comparison that orders all entries, what comes
later is not to come before. -/
structure Sorter (α : Type*) where
  sort : (α → α → Bool) → List α → List α
  perm : ∀ less l, (sort less l).Perm l
  sorted : ∀ less : α → α → Bool,
    (∀ a b c, less b a = false → less c b = false → less c a = false) →
    (∀ a b, less a b = false ∨ less b a = false) →
    ∀ l, (sort less l).Pairwise fun a b => less b a = false

/-- The sort by insertion is one. -/
def Sorter.insertion (α : Type*) : Sorter α where
  sort less l := l.insertionSort fun a b => less b a = false
  perm _ l := List.perm_insertionSort _ l
  sorted less htrans htotal l := by
    have : Std.Total fun a b => less b a = false := ⟨fun a b => (htotal a b).symm⟩
    have : IsTrans α fun a b => less b a = false := ⟨fun a b c => htrans a b c⟩
    exact List.pairwise_insertionSort _ l

open Classical in
/-- The sort that puts one entry first, where nothing is to come before it. -/
noncomputable def Sorter.favouring {α : Type*} (a : α) : Sorter α where
  sort less l := if a ∈ l ∧ ∀ b ∈ l, less b a = false then
      a :: (Sorter.insertion α).sort less (l.erase a)
    else (Sorter.insertion α).sort less l
  perm less l := by
    split_ifs with h
    · exact (((Sorter.insertion α).perm less _).cons a).trans (List.perm_cons_erase h.1).symm
    · exact (Sorter.insertion α).perm less l
  sorted less htrans htotal l := by
    split_ifs with h
    · refine List.pairwise_cons.mpr ⟨fun b hb => h.2 b ?_, (Sorter.insertion α).sorted less htrans
        htotal _⟩
      exact List.mem_of_mem_erase (((Sorter.insertion α).perm less _).mem_iff.mp hb)
    · exact (Sorter.insertion α).sorted less htrans htotal l

theorem Sorter.head?_favouring {α : Type*} {less : α → α → Bool} {l : List α} {a : α} (ha : a ∈ l)
    (hfirst : ∀ b ∈ l, less b a = false) :
    ((Sorter.favouring a).sort less l).head? = some a := by
  unfold Sorter.favouring
  simp only
  rw [if_pos ⟨ha, hfirst⟩, List.head?_cons]

/-- **What a sort puts first**: an entry that nothing is to come before. -/
theorem Sorter.first_sort {α : Type*} (sorter : Sorter α) {less : α → α → Bool}
    (htrans : ∀ a b c, less b a = false → less c b = false → less c a = false)
    (htotal : ∀ a b, less a b = false ∨ less b a = false) {l : List α} {a : α}
    (ha : (sorter.sort less l).head? = some a) : a ∈ l ∧ ∀ b ∈ l, less b a = false := by
  obtain ⟨l', hl'⟩ := List.head?_eq_some_iff.mp ha
  have hperm := sorter.perm less l
  have hsorted := sorter.sorted less htrans htotal l
  rw [hl'] at hperm hsorted
  refine ⟨hperm.mem_iff.mp List.mem_cons_self, fun b hb => ?_⟩
  rcases List.mem_cons.mp (hperm.mem_iff.mpr hb) with rfl | hb
  · exact (htotal b b).elim id id
  · exact (List.pairwise_cons.mp hsorted).1 b hb

section Sorter

variable {K : Type*} [LinearOrder K]

/-- The stable sort is one. -/
def Sorter.stable (α : Type*) : Sorter α where
  sort less l := l.mergeSort fun a b => !less b a
  perm less l := List.mergeSort_perm l _
  sorted less htrans htotal l := by
    have h : (l.mergeSort fun a b => !less b a).Pairwise fun a b => (!less b a) = true :=
      List.pairwise_mergeSort
      (fun a b c hab hbc => by
        rw [Bool.not_eq_true'] at hab hbc ⊢
        exact htrans a b c hab hbc)
      (fun a b => by
        rw [Bool.or_eq_true, Bool.not_eq_true', Bool.not_eq_true']
        exact (htotal a b).symm) l
    exact h.imp fun {a b} hab => by rwa [Bool.not_eq_true'] at hab

/-- Sorted by a key, largest first. -/
theorem Sorter.pairwise_key (sorter : Sorter α) (key : α → K) (l : List α) :
    (sorter.sort (fun a b => key b < key a) l).Pairwise fun a b => key b ≤ key a := by
  have h := sorter.sorted (fun a b => decide (key b < key a))
    (fun a b c hab hbc => by
      rw [decide_eq_false_iff_not, not_lt] at hab hbc ⊢
      exact hbc.trans hab)
    (fun a b => by
      rw [decide_eq_false_iff_not, decide_eq_false_iff_not, not_lt, not_lt]
      exact le_total _ _) l
  exact h.imp fun {a b} hab => not_lt.mp (of_decide_eq_false hab)

theorem Sorter.stable_key (key : α → K) (l : List α) :
    (Sorter.stable α).sort (fun a b => key b < key a) l = Sorting.stable key l := by
  refine congrArg _ (funext fun a => funext fun b => ?_)
  rw [← decide_not]
  exact decide_eq_decide.mpr not_lt

end Sorter

end Sorting
