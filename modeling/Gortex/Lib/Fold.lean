import Mathlib.Data.List.Basic
import Mathlib.Data.List.Nodup
import Mathlib.Data.List.Perm.Subperm

/-!
# Loops over a list

A Go loop over a slice is a `List.foldl`. Here are the rules a proof about such a
loop uses when it does not need its result: what a loop leaves alone, what holds after
every turn, that a count kept on the way does not matter, and that what is read under a key
depends on the turns of that key only; and that a loop whose turns can fail does not. Last,
the loop that keeps the first element of each key.
-/

namespace List

variable {σ α γ : Type*} {f : σ → α → σ}

/-- **What every turn of a loop leaves alone, the loop leaves alone.** -/
theorem foldl_frame {π : σ → γ} (h : ∀ s a, π (f s a) = π s) (l : List α) (s : σ) :
    π (l.foldl f s) = π s := by
  induction l generalizing s with
  | nil => rfl
  | cons a l ih => exact (ih (f s a)).trans (h s a)

/-- **What every turn of a loop keeps, the loop keeps.** -/
theorem foldl_invariant {P : σ → Prop} {l : List α} (h : ∀ s, ∀ a ∈ l, P s → P (f s a)) {s : σ}
    (hs : P s) : P (l.foldl f s) := by
  induction l generalizing s with
  | nil => exact hs
  | cons a l ih =>
    exact ih (fun s b hb => h s b (List.mem_cons_of_mem a hb)) (h s a List.mem_cons_self hs)

/-- **What some turn of a loop brings about and every turn keeps**, holds after the loop. -/
theorem foldl_since {P Q : σ → Prop} {l : List α} (hP : ∀ s, ∀ a ∈ l, P s → P (f s a))
    (hQ : ∀ s, ∀ a ∈ l, P s → Q s → Q (f s a)) {b : α} (hb : b ∈ l)
    (h : ∀ s, P s → Q (f s b)) {s : σ} (hs : P s) : Q (l.foldl f s) := by
  induction l generalizing s with
  | nil => exact absurd hb List.not_mem_nil
  | cons a l ih =>
    have hP' : ∀ s, ∀ a ∈ l, P s → P (f s a) := fun s c hc => hP s c (List.mem_cons_of_mem a hc)
    have hQ' : ∀ s, ∀ a ∈ l, P s → Q s → Q (f s a) := fun s c hc =>
      hQ s c (List.mem_cons_of_mem a hc)
    have hs' := hP s a List.mem_cons_self hs
    rcases List.mem_cons.mp hb with rfl | hb
    · exact (foldl_invariant (P := fun s => P s ∧ Q s)
        (fun s c hc h => ⟨hP' s c hc h.1, hQ' s c hc h.1 h.2⟩) ⟨hs', h s hs⟩).2
    · exact ih hP' hQ' hb hs'

/-- A loop that counts on the way does to the rest of its state what it does without
counting. -/
theorem foldl_fst (step : σ → α → σ) (count : σ → α → ℕ) (l : List α) (s : σ × ℕ) :
    (l.foldl (fun s a => (step s.1 a, s.2 + count s.1 a)) s).1 = l.foldl step s.1 := by
  induction l generalizing s with
  | nil => rfl
  | cons a l ih => exact ih _

/-- **A loop that writes under keys**: what is read under a key afterwards comes from the
turns of that key, in their order. -/
theorem foldl_read {κ υ : Type*} [DecidableEq κ] (read : σ → κ → υ) (key : α → κ) (g : υ → α → υ)
    (h : ∀ s a k, read (f s a) k = if k = key a then g (read s k) a else read s k)
    (l : List α) (s : σ) (k : κ) :
    read (l.foldl f s) k = (l.filter fun a => key a = k).foldl g (read s k) := by
  induction l generalizing s with
  | nil => rfl
  | cons a l ih =>
    rw [List.foldl_cons, ih, h]
    by_cases ha : key a = k
    · rw [if_pos ha.symm, List.filter_cons, if_pos (decide_eq_true ha), List.foldl_cons]
    · rw [if_neg (Ne.symm ha), List.filter_cons, if_neg (by simp [ha])]

/-- The same for a write that a second turn of the key does not change any more. -/
theorem foldl_write {κ υ : Type*} [DecidableEq κ] (read : σ → κ → υ) {f : σ → κ → σ} (g : υ → υ)
    (h : ∀ s a k, read (f s a) k = if k = a then g (read s k) else read s k)
    (hg : ∀ v, g (g v) = g v) (l : List κ) (s : σ) (k : κ) :
    read (l.foldl f s) k = if k ∈ l then g (read s k) else read s k := by
  induction l generalizing s with
  | nil => rfl
  | cons a l ih =>
    rw [List.foldl_cons, ih, h]
    by_cases ha : k = a
    · rw [if_pos ha, if_pos (List.mem_cons.mpr (Or.inl ha)), hg, ite_self]
    · rw [if_neg ha]
      exact if_congr (by rw [List.mem_cons, or_iff_right ha]) rfl rfl

/-- **A loop whose turns can fail does not**, if no turn does from a state that the turns
before have left. -/
theorem foldlM_some {f : σ → α → Option σ} {P : List α → σ → Prop} {l : List α}
    (h : ∀ seen a rest s, l = seen ++ a :: rest → P seen s →
      ∃ s', f s a = some s' ∧ P (seen ++ [a]) s') {s : σ} (hs : P [] s) :
    ∃ s', l.foldlM f s = some s' ∧ P l s' := by
  have hrest : ∀ (rest seen : List α) (s : σ), l = seen ++ rest → P seen s →
      ∃ s', rest.foldlM f s = some s' ∧ P l s' := by
    intro rest
    induction rest with
    | nil =>
      intro seen s hl hs
      rw [List.append_nil] at hl
      exact ⟨s, rfl, hl ▸ hs⟩
    | cons a rest ih =>
      intro seen s hl hs
      obtain ⟨s', heq, hs'⟩ := h seen a rest s hl hs
      rw [List.foldlM_cons, heq]
      exact ih (seen ++ [a]) s' (by rw [hl, List.append_assoc, List.singleton_append]) hs'
  exact hrest l [] s rfl hs

/-- **A loop that collects, and can fail, does not** if no turn does. -/
theorem mapM_some {f : α → Option γ} {P : α → γ → Prop} {l : List α}
    (h : ∀ a ∈ l, ∃ c, f a = some c ∧ P a c) :
    ∃ cs, l.mapM f = some cs ∧ List.Forall₂ P l cs := by
  induction l with
  | nil => exact ⟨[], rfl, List.Forall₂.nil⟩
  | cons a l ih =>
    obtain ⟨c, hc, hP⟩ := h a List.mem_cons_self
    obtain ⟨cs, hcs, hall⟩ := ih fun b hb => h b (List.mem_cons_of_mem a hb)
    refine ⟨c :: cs, ?_, List.Forall₂.cons hP hall⟩
    rw [List.mapM_cons, hc, hcs]
    rfl

/-- What is related to an element of the second list. -/
theorem exists_mem_left {R : α → γ → Prop} {l : List α} {l' : List γ} (h : List.Forall₂ R l l')
    {c : γ} (hc : c ∈ l') : ∃ a ∈ l, R a c := by
  induction h with
  | nil => exact absurd hc List.not_mem_nil
  | @cons a b l l' hR _ ih =>
    rcases List.mem_cons.mp hc with rfl | hc
    · exact ⟨a, List.mem_cons_self, hR⟩
    · obtain ⟨a', ha', hR'⟩ := ih hc
      exact ⟨a', List.mem_cons_of_mem a ha', hR'⟩

/-- What an element of the first list is related to. -/
theorem exists_mem_right {R : α → γ → Prop} {l : List α} {l' : List γ} (h : List.Forall₂ R l l')
    {a : α} (ha : a ∈ l) : ∃ c ∈ l', R a c :=
  exists_mem_left h.flip ha

/-! ### The first of each key -/

variable {κ : Type*} [DecidableEq κ] (key : α → κ)

/-- The first element of each key, by a loop that marks the keys it has seen. -/
def firsts (l : List α) : List α :=
  (l.foldl (fun (s : List κ × List α) a =>
    if key a ∈ s.1 then s else (key a :: s.1, s.2 ++ [a])) ([], [])).2

/-- What the loop appends, from any state on. -/
theorem foldl_firsts (l : List α) (seen : List κ) (out : List α) :
    ∃ rest, (l.foldl (fun (s : List κ × List α) a =>
        if key a ∈ s.1 then s else (key a :: s.1, s.2 ++ [a])) (seen, out)).2 = out ++ rest ∧
      rest.Sublist l ∧ (rest.map key).Nodup ∧ (∀ a ∈ rest, key a ∉ seen) ∧
      ∀ a ∈ l, key a ∈ seen ∨ key a ∈ rest.map key := by
  induction l generalizing seen out with
  | nil => exact ⟨[], by simp⟩
  | cons a l ih =>
    rw [List.foldl_cons]
    by_cases ha : key a ∈ seen
    · rw [if_pos ha]
      obtain ⟨rest, heq, hsub, hnodup, hnew, hall⟩ := ih seen out
      refine ⟨rest, heq, hsub.cons a, hnodup, hnew, fun b hb => ?_⟩
      rcases List.mem_cons.mp hb with rfl | hb
      · exact Or.inl ha
      · exact hall b hb
    · rw [if_neg ha]
      obtain ⟨rest, heq, hsub, hnodup, hnew, hall⟩ := ih (key a :: seen) (out ++ [a])
      have hfresh : ∀ b ∈ rest, key b ≠ key a ∧ key b ∉ seen := fun b hb =>
        not_or.mp fun hc => hnew b hb (List.mem_cons.mpr hc)
      refine ⟨a :: rest, by rw [heq, List.append_assoc, List.singleton_append], hsub.cons_cons a,
        ?_, fun b hb => ?_, fun b hb => ?_⟩
      · rw [List.map_cons, List.nodup_cons]
        refine ⟨fun hc => ?_, hnodup⟩
        obtain ⟨b, hb, hkey⟩ := List.mem_map.mp hc
        exact (hfresh b hb).1 hkey
      · rcases List.mem_cons.mp hb with rfl | hb
        · exact ha
        · exact (hfresh b hb).2
      · rw [List.map_cons, List.mem_cons]
        rcases List.mem_cons.mp hb with rfl | hb
        · exact Or.inr (Or.inl rfl)
        · rcases hall b hb with hseen | hrest
          · rcases List.mem_cons.mp hseen with heq | hseen
            · exact Or.inr (Or.inl heq)
            · exact Or.inl hseen
          · exact Or.inr (Or.inr hrest)

theorem firsts_sublist (l : List α) : (firsts key l).Sublist l := by
  obtain ⟨rest, heq, hsub, -⟩ := foldl_firsts key l [] []
  rw [firsts, heq, List.nil_append]
  exact hsub

/-- **No two of them share a key.** -/
theorem nodup_map_firsts (l : List α) : ((firsts key l).map key).Nodup := by
  obtain ⟨rest, heq, -, hnodup, -⟩ := foldl_firsts key l [] []
  rw [firsts, heq, List.nil_append]
  exact hnodup

/-- **Every key is there.** -/
theorem mem_map_firsts {l : List α} {a : α} (ha : a ∈ l) : key a ∈ (firsts key l).map key := by
  obtain ⟨rest, heq, -, -, -, hall⟩ := foldl_firsts key l [] []
  rw [firsts, heq, List.nil_append]
  exact (hall a ha).resolve_left List.not_mem_nil

/-- An element whose key is its own is there. -/
theorem mem_firsts {l : List α} {a : α} (ha : a ∈ l) (hown : ∀ b ∈ l, key b = key a → b = a) :
    a ∈ firsts key l := by
  obtain ⟨b, hb, hkey⟩ := List.mem_map.mp (mem_map_firsts key ha)
  rwa [← hown b ((firsts_sublist key l).subset hb) hkey]

/-- Where no two elements share a key, all stay. -/
theorem firsts_eq_self {l : List α} (h : (l.map key).Nodup) : firsts key l = l := by
  refine (firsts_sublist key l).eq_of_length_le ?_
  have hsub : l.map key ⊆ (firsts key l).map key := fun k hk => by
    obtain ⟨a, ha, rfl⟩ := List.mem_map.mp hk
    exact mem_map_firsts key ha
  have hle := (List.subperm_of_subset h hsub).length_le
  rwa [List.length_map, List.length_map] at hle

/-- The loop over one more element. -/
theorem firsts_concat (l : List α) (a : α) : firsts key (l ++ [a]) =
    if key a ∈ l.map key then firsts key l else firsts key l ++ [a] := by
  -- the keys marked so far are those of the elements that stay
  have hseen : ∀ (l : List α) (seen : List κ) (out : List α),
      (∀ k, k ∈ seen ↔ k ∈ out.map key) → ∀ k,
      k ∈ (l.foldl (fun (s : List κ × List α) a =>
          if key a ∈ s.1 then s else (key a :: s.1, s.2 ++ [a])) (seen, out)).1 ↔
        k ∈ (l.foldl (fun (s : List κ × List α) a =>
          if key a ∈ s.1 then s else (key a :: s.1, s.2 ++ [a])) (seen, out)).2.map key := by
    intro l
    induction l with
    | nil => exact fun _ _ h => h
    | cons b l ih =>
      intro seen out h
      rw [List.foldl_cons]
      by_cases hb : key b ∈ seen
      · rw [if_pos hb]
        exact ih seen out h
      · rw [if_neg hb]
        refine ih _ _ fun k => ?_
        rw [List.mem_cons, h, List.map_append, List.mem_append, List.map_singleton,
          List.mem_singleton, or_comm]
  have hkeys : key a ∈ (firsts key l).map key ↔ key a ∈ l.map key := by
    refine ⟨fun h => ((firsts_sublist key l).map key).subset h, fun h => ?_⟩
    obtain ⟨b, hb, hkey⟩ := List.mem_map.mp h
    rw [← hkey]
    exact mem_map_firsts key hb
  refine Eq.trans ?_ (if_congr hkeys rfl rfl)
  unfold firsts
  rw [List.foldl_append, List.foldl_cons, List.foldl_nil]
  exact (apply_ite Prod.snd _ _ _).trans
    (if_congr (hseen l [] [] (fun _ => Iff.rfl) (key a)) rfl rfl)

/-- With the elements themselves for keys, the same elements are there. -/
theorem mem_firsts_id [DecidableEq α] {l : List α} {a : α} : a ∈ firsts id l ↔ a ∈ l :=
  ⟨fun h => (firsts_sublist id l).subset h, fun h => mem_firsts id h fun _ _ heq => heq⟩

/-! ### Counting in a loop that appends -/

/-- If one turn only appends something, the loop appends just that. -/
theorem flatMap_of_only {l : List α} (hl : l.Nodup) {f : α → List γ} {a : α} (ha : a ∈ l)
    (honly : ∀ b ∈ l, b ≠ a → f b = []) : l.flatMap f = f a := by
  obtain ⟨l₁, l₂, rfl⟩ := List.append_of_mem ha
  rw [List.nodup_append', List.nodup_cons] at hl
  have hnil : ∀ l' : List α, (∀ b ∈ l', b ∈ l₁ ++ a :: l₂ ∧ b ≠ a) → l'.flatMap f = [] :=
    fun l' h => List.flatMap_eq_nil_iff.mpr fun b hb => honly b (h b hb).1 (h b hb).2
  have h₁ : l₁.flatMap f = [] := hnil l₁ fun b hb =>
    ⟨List.mem_append_left _ hb, fun hc => hl.2.2 (hc ▸ hb) List.mem_cons_self⟩
  have h₂ : l₂.flatMap f = [] := hnil l₂ fun b hb =>
    ⟨List.mem_append_right _ (List.mem_cons_of_mem a hb), fun hc => hl.2.1.1 (hc ▸ hb)⟩
  rw [List.flatMap_append, List.flatMap_cons, h₁, h₂, List.nil_append, List.append_nil]

/-- Two loops that append as much in every turn, and the same in all, append the same in every
turn. -/
theorem eq_of_flatMap_eq {l : List α} {f g : α → List γ}
    (hlen : ∀ a ∈ l, (f a).length = (g a).length) (h : l.flatMap f = l.flatMap g) :
    ∀ a ∈ l, f a = g a := by
  induction l with
  | nil => exact fun a ha => absurd ha List.not_mem_nil
  | cons b l ih =>
    rw [List.flatMap_cons, List.flatMap_cons] at h
    obtain ⟨hb, hl⟩ := List.append_inj h (hlen b List.mem_cons_self)
    intro a ha
    rcases List.mem_cons.mp ha with rfl | ha
    · exact hb
    · exact ih (fun a ha => hlen a (List.mem_cons_of_mem b ha)) hl a ha

/-- What one turn only appends, it appends as often as that turn. -/
theorem count_flatMap_of_only [DecidableEq γ] {l : List α} (hl : l.Nodup) {f : α → List γ} {a : α}
    {c : γ} (ha : a ∈ l) (honly : ∀ b ∈ l, c ∈ f b → b = a) :
    (l.flatMap f).count c = (f a).count c := by
  obtain ⟨l₁, l₂, rfl⟩ := List.append_of_mem ha
  have hnot : a ∉ l₁ ∧ a ∉ l₂ := by
    rw [List.nodup_append', List.nodup_cons] at hl
    exact ⟨fun hc => hl.2.2 hc List.mem_cons_self, hl.2.1.1⟩
  have hzero : ∀ l' : List α, (∀ b ∈ l', b ∈ l₁ ++ a :: l₂) → a ∉ l' →
      (l'.flatMap f).count c = 0 := fun l' hsub hna => by
    refine List.count_eq_zero_of_not_mem fun hc => ?_
    obtain ⟨b, hb, hcb⟩ := List.mem_flatMap.mp hc
    exact hna (honly b (hsub b hb) hcb ▸ hb)
  rw [List.flatMap_append, List.flatMap_cons, List.count_append, List.count_append,
    hzero l₁ (fun b hb => List.mem_append_left _ hb) hnot.1,
    hzero l₂ (fun b hb => List.mem_append_right _ (List.mem_cons_of_mem _ hb)) hnot.2]
  omega

/-- A stronger test, that one element fails besides, counts fewer. -/
theorem countP_lt_countP {p q : α → Bool} {l : List α} (h : ∀ x ∈ l, p x = true → q x = true)
    {a : α} (ha : a ∈ l) (hp : p a = false) (hq : q a = true) : l.countP p < l.countP q := by
  obtain ⟨l₁, l₂, rfl⟩ := List.append_of_mem ha
  have h₁ : l₁.countP p ≤ l₁.countP q :=
    List.countP_mono_left fun x hx => h x (List.mem_append_left _ hx)
  have h₂ : l₂.countP p ≤ l₂.countP q :=
    List.countP_mono_left fun x hx => h x (List.mem_append_right _ (List.mem_cons_of_mem a hx))
  rw [List.countP_append, List.countP_append, List.countP_cons_of_neg (by simp [hp]),
    List.countP_cons_of_pos hq]
  omega

end List
