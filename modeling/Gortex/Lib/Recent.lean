import Mathlib.Data.Finset.Card
import Mathlib.Data.List.Nodup
import Mathlib.Tactic.Common

/-!
# Lists in the order of last use

Entries with distinct keys, the one used last at the end. To touch an entry puts it there
(`Recent.touch`), and the list may be cut to its last entries (`Recent.keep`). What stands
behind an entry are the keys touched since (`Recent.Holds`), so that the entry is cut off when
these are as many as are kept, and not before (`Recent.Holds.keep`, `Recent.Holds.not_mem_keep`).
-/

namespace Recent

variable {α κ : Type*} [DecidableEq κ] (key : α → κ)

/-- Put an entry at the end, in the place of the one with its key. -/
def touch (a : α) (l : List α) : List α := l.filter (fun b => key b ≠ key a) ++ [a]

omit [DecidableEq κ] in
/-- The last entries. -/
def keep (n : ℕ) (l : List α) : List α := l.drop (l.length - n)

/-! ### Finding by the key -/

variable {key} {l : List α} {a b : α} {k : κ}

/-- Where an entry is found, the list is split. -/
theorem exists_split {i : ℕ} (h : (l.findIdx? fun b => key b = k) = some i) :
    ∃ pre a post, l = pre ++ a :: post ∧ pre.length = i ∧ key a = k ∧ ∀ b ∈ pre, key b ≠ k := by
  obtain ⟨hi, hk, hpre⟩ := List.findIdx?_eq_some_iff_getElem.mp h
  refine ⟨l.take i, l[i], l.drop (i + 1), ?_, List.length_take_of_le hi.le,
    of_decide_eq_true hk, ?_⟩
  · rw [List.getElem_cons_drop, List.take_append_drop]
  · intro b hb
    obtain ⟨j, hj, rfl⟩ := List.getElem_of_mem hb
    rw [List.getElem_take]
    rw [List.length_take_of_le hi.le] at hj
    exact fun hc => hpre j hj (decide_eq_true hc)

omit [DecidableEq κ] in
theorem modify_split (f : α → α) (pre : List α) (a : α) (post : List α) :
    (pre ++ a :: post).modify pre.length f = pre ++ f a :: post :=
  List.modifyTailIdx_add _ 0 pre (a :: post)

omit [DecidableEq κ] in
theorem eraseIdx_split (pre : List α) (a : α) (post : List α) :
    (pre ++ a :: post).eraseIdx pre.length = pre ++ post := by
  rw [List.eraseIdx_append_of_length_le le_rfl, Nat.sub_self, List.eraseIdx_cons_zero]

omit [DecidableEq κ] in
/-- Of distinct keys, no other than that of the entry found is its key. -/
theorem ne_of_split {pre post : List α} (hl : ((pre ++ a :: post).map key).Nodup) :
    (∀ b ∈ pre, key b ≠ key a) ∧ ∀ b ∈ post, key b ≠ key a := by
  rw [List.map_append, List.map_cons, List.nodup_append, List.nodup_cons] at hl
  exact ⟨fun b hb hc => hl.2.2 _ (List.mem_map_of_mem hb) _ List.mem_cons_self hc,
    fun b hb hc => hl.2.1.1 (hc ▸ List.mem_map_of_mem hb)⟩

theorem filter_split {pre post : List α} (hl : ((pre ++ a :: post).map key).Nodup) :
    (pre ++ a :: post).filter (fun b => key b ≠ key a) = pre ++ post := by
  obtain ⟨hpre, hpost⟩ := ne_of_split hl
  rw [List.filter_append, List.filter_cons_of_neg (by simp),
    List.filter_eq_self.mpr fun b hb => decide_eq_true (hpre b hb),
    List.filter_eq_self.mpr fun b hb => decide_eq_true (hpost b hb)]

/-- An entry is found under its key. -/
theorem find?_of_mem (hl : (l.map key).Nodup) (ha : a ∈ l) :
    (l.find? fun b => key b = key a) = some a := by
  obtain ⟨pre, post, rfl⟩ := List.append_of_mem ha
  rw [List.find?_append, List.find?_eq_none.mpr fun b hb => by
    simpa using (ne_of_split hl).1 b hb, Option.none_or, List.find?_cons_of_pos (by simp)]

/-! ### Touching -/

theorem nodup_touch (hl : (l.map key).Nodup) (a : α) : ((touch key a l).map key).Nodup := by
  rw [touch, List.map_append, List.map_singleton, List.nodup_append]
  refine ⟨hl.sublist (List.filter_sublist.map key), List.nodup_singleton _, ?_⟩
  intro k hk k' hk' hc
  obtain ⟨b, hb, rfl⟩ := List.mem_map.mp hk
  rw [List.mem_singleton.mp hk'] at hc
  exact of_decide_eq_true (List.mem_filter.mp hb).2 hc

theorem mem_touch : b ∈ touch key a l ↔ b ∈ l ∧ key b ≠ key a ∨ b = a := by
  rw [touch, List.mem_append, List.mem_filter, List.mem_singleton, decide_eq_true_iff]

omit [DecidableEq κ] in
theorem keep_sublist (n : ℕ) (l : List α) : (keep n l).Sublist l := List.drop_sublist _ _

/-! ### What stands behind an entry -/

/-- **The list holds an entry**, and the keys behind it are those of a set. -/
def Holds (key : α → κ) (a : α) (behind : Finset κ) (l : List α) : Prop :=
  (l.map key).Nodup ∧ ∃ pre post, l = pre ++ a :: post ∧ (post.map key).toFinset = behind

variable {behind : Finset κ}

theorem Holds.mem (h : Holds key a behind l) : a ∈ l := by
  obtain ⟨-, pre, post, rfl, -⟩ := h
  exact List.mem_append_right _ List.mem_cons_self

/-- The entry touched last has nothing behind it. -/
theorem holds_touch (hl : (l.map key).Nodup) (a : α) : Holds key a ∅ (touch key a l) :=
  ⟨nodup_touch hl a, l.filter fun b => key b ≠ key a, [], rfl, rfl⟩

/-- **An entry touched comes behind those with other keys.** -/
theorem Holds.touch (h : Holds key a behind l) (hne : key b ≠ key a) :
    Holds key a (insert (key b) behind) (touch key b l) := by
  refine ⟨nodup_touch h.1 b, ?_⟩
  obtain ⟨-, pre, post, rfl, rfl⟩ := h
  refine ⟨pre.filter fun c => key c ≠ key b, post.filter (fun c => key c ≠ key b) ++ [b], ?_, ?_⟩
  · rw [Recent.touch, List.filter_append, List.filter_cons_of_pos (by simpa using hne.symm),
      List.append_assoc, List.cons_append]
  · ext k
    rw [List.mem_toFinset, Finset.mem_insert, List.mem_toFinset]
    simp only [List.mem_map, List.mem_append, List.mem_filter, List.mem_singleton,
      decide_eq_true_iff]
    constructor
    · rintro ⟨c, ⟨hc, -⟩ | rfl, rfl⟩
      · exact .inr ⟨c, hc, rfl⟩
      · exact .inl rfl
    · rintro (rfl | ⟨c, hc, rfl⟩)
      · exact ⟨b, .inr rfl, rfl⟩
      · by_cases hk : key c = key b
        · exact ⟨b, .inr rfl, hk.symm⟩
        · exact ⟨c, .inl ⟨hc, hk⟩, rfl⟩

theorem Holds.map (h : Holds key a behind l) {f : α → α} (hf : ∀ b, key (f b) = key b) :
    Holds key (f a) behind (l.map f) := by
  have hkeys : key ∘ f = key := funext hf
  obtain ⟨hl, pre, post, rfl, hpost⟩ := h
  refine ⟨by rwa [List.map_map, hkeys], pre.map f, post.map f, ?_, ?_⟩
  · rw [List.map_append, List.map_cons]
  · rw [List.map_map, hkeys, hpost]

theorem Holds.length_post {pre post : List α} (hl : ((pre ++ a :: post).map key).Nodup)
    (hpost : (post.map key).toFinset = behind) : post.length = behind.card := by
  rw [List.map_append, List.map_cons, List.nodup_append, List.nodup_cons] at hl
  rw [← hpost, List.toFinset_card_of_nodup hl.2.1.2, List.length_map]

/-- **While less stands behind an entry than is kept, it is kept.** -/
theorem Holds.keep (h : Holds key a behind l) {n : ℕ} (hn : behind.card < n) :
    Holds key a behind (keep n l) := by
  refine ⟨h.1.sublist ((keep_sublist n l).map key), ?_⟩
  obtain ⟨hl, pre, post, rfl, hpost⟩ := h
  have hlen := Holds.length_post hl hpost
  refine ⟨pre.drop ((pre ++ a :: post).length - n), post, ?_, hpost⟩
  rw [Recent.keep, List.drop_append_of_le_length]
  rw [List.length_append, List.length_cons]
  omega

/-- **Once as much stands behind it, it is cut off.** -/
theorem Holds.not_mem_keep (h : Holds key a behind l) {n : ℕ} (hn : n ≤ behind.card) :
    ∀ b ∈ Recent.keep n l, key b ≠ key a := by
  obtain ⟨hl, pre, post, rfl, hpost⟩ := h
  have hlen := Holds.length_post hl hpost
  intro b hb
  refine (ne_of_split hl).2 b ?_
  have hdrop : Recent.keep n (pre ++ a :: post) = post.drop (post.length - n) := by
    have hsub : (pre ++ a :: post).length - n = (pre ++ [a]).length + (post.length - n) := by
      simp only [List.length_append, List.length_cons, List.length_nil]
      omega
    have hsplit : pre ++ a :: post = (pre ++ [a]) ++ post := by
      rw [List.append_assoc, List.singleton_append]
    rw [Recent.keep, hsub, hsplit, List.drop_length_add_append]
  rw [hdrop] at hb
  exact List.mem_of_mem_drop hb

end Recent
