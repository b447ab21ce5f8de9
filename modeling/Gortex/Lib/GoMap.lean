import Mathlib.Data.List.AList

/-!
# Go maps

A Go map is an association list with distinct keys, Mathlib's `AList` at a
constant family: `m[k]` is `AList.lookup`, `m[k] = v` is `AList.insert` and
`delete(m, k)` is `AList.erase`. This file adds the three reading rules a proof
about a program rewrites with – a lookup after a write, as an `if` on the two
keys –, the counting loop `m[k]++`, and the list of key–value pairs a `range` over the
map visits.

The order of that list is the order of this representation. Go leaves the order
of a `range` unspecified, so a definition that ranges over a map takes the order
as a parameter (`GoMap.RangeOrder`), and what is proved of it holds for every
order.
-/

/-- A Go `map[K]V`. -/
abbrev GoMap (K V : Type) := AList (fun _ : K => V)

namespace GoMap

variable {K V : Type} [DecidableEq K]

/-! ### Lookups after a write -/

/-- Reading `m[k']` after `m[k] = v`. -/
theorem lookup_insert (m : GoMap K V) (k k' : K) (v : V) :
    (m.insert k v).lookup k' = if k' = k then some v else m.lookup k' := by
  by_cases h : k' = k
  · rw [if_pos h, h, AList.lookup_insert]
  · rw [if_neg h, AList.lookup_insert_ne h]

/-- Reading `m[k']` after `delete(m, k)`. -/
theorem lookup_erase (m : GoMap K V) (k k' : K) :
    (m.erase k).lookup k' = if k' = k then none else m.lookup k' := by
  by_cases h : k' = k
  · rw [if_pos h, h, AList.lookup_erase]
  · rw [if_neg h, AList.lookup_erase_ne h]

/-- A map without entries reads nothing. -/
theorem lookup_of_keys_nil {m : GoMap K V} (h : m.keys = []) (k : K) : m.lookup k = none := by
  rw [AList.lookup_eq_none, AList.mem_keys, h]
  exact List.not_mem_nil

/-- A loop over the entries of a map that writes some of the keys. -/
theorem lookup_foldl_elim {W : Type} (f : V → Option W) (l : List (K × V)) (m : GoMap K W)
    (hl : (l.map Prod.fst).Nodup) (k : K) :
    (l.foldl (fun m p => (f p.2).elim m fun w => m.insert p.1 w) m).lookup k =
      ((l.find? fun p => p.1 = k).bind fun p => f p.2).or (m.lookup k) := by
  induction l generalizing m with
  | nil => rfl
  | cons p l ih =>
    rw [List.map_cons, List.nodup_cons] at hl
    rw [List.foldl_cons, ih _ hl.2]
    by_cases hp : p.1 = k
    · have hrest : l.find? (fun q => q.1 = k) = none := List.find?_eq_none.mpr fun q hq hc =>
        hl.1 (hp ▸ of_decide_eq_true hc ▸ List.mem_map_of_mem hq)
      rw [hrest, List.find?_cons_of_pos (by simpa using hp), Option.bind_none, Option.none_or,
        Option.bind_some]
      cases f p.2 with
      | none => rfl
      | some w => rw [Option.elim_some, lookup_insert, if_pos hp.symm, Option.some_or]
    · rw [List.find?_cons_of_neg (by simpa using hp)]
      cases f p.2 with
      | none => rfl
      | some w => rw [Option.elim_some, lookup_insert, if_neg (Ne.symm hp)]

/-- A loop that stores values under keys of their own: the last one of a key is left. -/
theorem lookup_foldl_insert (key : V → K) (l : List V) (m : GoMap K V) (k : K) :
    (l.foldl (fun m v => m.insert (key v) v) m).lookup k =
      (l.reverse.find? fun v => key v = k).or (m.lookup k) := by
  induction l generalizing m with
  | nil => rfl
  | cons v l ih =>
    rw [List.foldl_cons, ih, List.reverse_cons, List.find?_append, Option.or_assoc, lookup_insert]
    by_cases hk : key v = k
    · rw [if_pos hk.symm, List.find?_singleton, decide_eq_true hk, if_pos rfl, Option.some_or]
    · rw [if_neg (Ne.symm hk), List.find?_singleton, decide_eq_false hk, if_neg Bool.false_ne_true,
        Option.none_or]

/-- Values that are told apart by their keys are all left. -/
theorem lookup_foldl_insert_eq_some {key : V → K} {l : List V} {k : K} {v : V}
    (hl : ∀ a ∈ l, ∀ b ∈ l, key a = key b → a = b) :
    (l.foldl (fun m v => m.insert (key v) v) (∅ : GoMap K V)).lookup k = some v ↔
      v ∈ l ∧ key v = k := by
  rw [lookup_foldl_insert, AList.lookup_empty, Option.or_none]
  constructor
  · intro h
    have hkey := List.find?_some h
    exact ⟨List.mem_reverse.mp (List.mem_of_find?_eq_some h), of_decide_eq_true hkey⟩
  · rintro ⟨hv, rfl⟩
    cases h : l.reverse.find? fun w => key w = key v with
    | none =>
      have hno := List.find?_eq_none.mp h v (List.mem_reverse.mpr hv)
      exact absurd (decide_eq_true rfl) hno
    | some w =>
      have hkey := List.find?_some h
      rw [hl w (List.mem_reverse.mp (List.mem_of_find?_eq_some h)) v hv (of_decide_eq_true hkey)]

/-- A loop that stores values under distinct keys: each is left. -/
theorem lookup_foldl_insert_of_nodup {α : Type} {key : α → K} (val : α → V) {l : List α}
    (hl : (l.map key).Nodup) (m : GoMap K V) {a : α} (ha : a ∈ l) :
    (l.foldl (fun m a => m.insert (key a) (val a)) m).lookup (key a) = some (val a) := by
  have hpairs := lookup_foldl_elim some (l.map fun a => (key a, val a)) m
    (by rwa [List.map_map]) (key a)
  rw [List.foldl_map] at hpairs
  refine hpairs.trans ?_
  rw [List.find?_map, Option.bind_map]
  rcases hfind : l.find? (_ ∘ _) with _ | b
  · exact absurd (decide_eq_true rfl) (List.find?_eq_none.mp hfind a ha)
  · have hkey : key b = key a := by simpa using List.find?_some hfind
    have hb := List.inj_on_of_nodup_map hl (List.mem_of_find?_eq_some hfind) ha hkey
    rw [hb]
    rfl

/-! ### Mapping the values -/

/-- The map with a function applied to every value. -/
def mapValues {W : Type} (f : V → W) (m : GoMap K V) : GoMap K W :=
  ⟨m.entries.map fun s => ⟨s.1, f s.2⟩, by
    have hkeys : (m.entries.map fun s => (⟨s.1, f s.2⟩ : Sigma fun _ : K => W)).keys =
        m.entries.keys := by
      simp [List.keys, Function.comp_def]
    rw [List.NodupKeys, hkeys]
    exact m.nodupKeys⟩

theorem lookup_mapValues {W : Type} (f : V → W) (m : GoMap K V) (k : K) :
    (m.mapValues f).lookup k = (m.lookup k).map f := by
  refine Option.ext fun w => ?_
  rw [Option.map_eq_some_iff, ← Option.mem_def, AList.mem_lookup_iff]
  constructor
  · intro h
    obtain ⟨⟨k', v⟩, hv, he⟩ := List.mem_map.mp h
    cases he
    exact ⟨v, AList.mem_lookup_iff.mpr hv, rfl⟩
  · rintro ⟨v, hv, rfl⟩
    exact List.mem_map.mpr ⟨⟨k, v⟩, AList.mem_lookup_iff.mp hv, rfl⟩

/-! ### Counting with a map -/

/-- `m[k]++`. -/
def bump (m : GoMap K ℕ) (k : K) : GoMap K ℕ := m.insert k ((m.lookup k).getD 0 + 1)

theorem lookup_bump (m : GoMap K ℕ) (k k' : K) :
    (m.bump k).lookup k' = if k' = k then some ((m.lookup k).getD 0 + 1) else m.lookup k' :=
  lookup_insert m k k' _

/-- **A loop of increments** leaves under a key how often it has come up. -/
theorem lookup_foldl_bump (l : List K) (m : GoMap K ℕ) (k : K) :
    (l.foldl bump m).lookup k =
      if k ∈ l then some ((m.lookup k).getD 0 + l.count k) else m.lookup k := by
  induction l generalizing m with
  | nil => rfl
  | cons a l ih =>
    rw [List.foldl_cons, ih, lookup_bump]
    by_cases hk : k = a
    · subst hk
      rw [if_pos rfl, if_pos List.mem_cons_self, List.count_cons_self, Option.getD_some]
      by_cases hl : k ∈ l
      · rw [if_pos hl]
        congr 1
        omega
      · rw [if_neg hl, List.count_eq_zero_of_not_mem hl]
    · have hmem : k ∈ a :: l ↔ k ∈ l := by
        rw [List.mem_cons]
        exact or_iff_right hk
      rw [if_neg hk, List.count_cons_of_ne (Ne.symm hk)]
      exact if_congr hmem.symm rfl rfl

/-! ### Ranging over a map -/

omit [DecidableEq K] in
/-- The pairs a `range` over the map visits, in the order of the representation. -/
def pairs (m : GoMap K V) : List (K × V) := m.entries.map fun s => (s.1, s.2)

theorem mem_pairs {m : GoMap K V} {k : K} {v : V} : (k, v) ∈ m.pairs ↔ m.lookup k = some v := by
  constructor
  · intro h
    obtain ⟨⟨a, b⟩, hs, he⟩ := List.mem_map.mp h
    obtain ⟨rfl, rfl⟩ := Prod.mk.inj he
    exact AList.mem_lookup_iff.mpr hs
  · intro h
    exact List.mem_map.mpr ⟨⟨k, v⟩, AList.mem_lookup_iff.mp h, rfl⟩

omit [DecidableEq K] in
/-- A `range` visits every key once. -/
theorem nodup_pairs_fst (m : GoMap K V) : (m.pairs.map Prod.fst).Nodup := by
  have h : m.pairs.map Prod.fst = m.keys := by
    simp [pairs, AList.keys, List.keys, Function.comp_def]
  rw [h]
  exact m.keys_nodup

omit [DecidableEq K] in
theorem nodup_pairs (m : GoMap K V) : m.pairs.Nodup := List.Nodup.of_map _ m.nodup_pairs_fst

/-- Two maps that read alike have the same pairs. -/
theorem perm_pairs {m m' : GoMap K V} (h : ∀ k, m.lookup k = m'.lookup k) :
    m.pairs.Perm m'.pairs := by
  refine (List.perm_ext_iff_of_nodup m.nodup_pairs m'.nodup_pairs).mpr fun p => ?_
  rw [show p = (p.1, p.2) from rfl, mem_pairs, mem_pairs, h]

/-- A new key adds a pair. -/
theorem perm_pairs_insert {m : GoMap K V} {k : K} (hk : m.lookup k = none) (v : V) :
    (pairs (m.insert k v)).Perm ((k, v) :: m.pairs) := by
  have hnew : (k, v) ∉ m.pairs := fun h => by
    rw [mem_pairs, hk] at h
    cases h
  refine (List.perm_ext_iff_of_nodup (nodup_pairs _)
    (List.nodup_cons.mpr ⟨hnew, m.nodup_pairs⟩)).mpr fun p => ?_
  rw [show p = (p.1, p.2) from rfl, mem_pairs, lookup_insert, List.mem_cons, mem_pairs,
    Prod.mk.injEq]
  by_cases hp : p.1 = k
  · rw [if_pos hp, Option.some_inj, hp, hk, eq_comm]
    simp
  · rw [if_neg hp, or_iff_right fun hc => hp hc.1]

/-- Deleting a key takes its pair out. -/
theorem perm_pairs_erase {m : GoMap K V} {k : K} {v : V} (hk : m.lookup k = some v) :
    m.pairs.Perm ((k, v) :: pairs (m.erase k)) := by
  have hgone : (m.erase k).lookup k = none := by rw [lookup_erase, if_pos rfl]
  refine List.Perm.trans (perm_pairs fun k' => ?_) (perm_pairs_insert hgone v)
  rw [lookup_insert, lookup_erase]
  by_cases hk' : k' = k
  · rw [if_pos hk', hk', hk]
  · rw [if_neg hk', if_neg hk']

/-- The turns of a loop over a map that are about one key. -/
theorem filter_pairs {m : GoMap K V} {l : List (K × V)} (hl : l.Perm m.pairs) (k : K) :
    l.filter (fun p => p.1 = k) = ((m.lookup k).map (Prod.mk k)).toList := by
  have hmem : ∀ p, p ∈ l.filter (fun p => p.1 = k) ↔ p.1 = k ∧ m.lookup k = some p.2 := fun p => by
    rw [List.mem_filter, hl.mem_iff, decide_eq_true_iff, show p = (p.1, p.2) from rfl, mem_pairs,
      and_comm]
    exact and_congr_right fun hp => by rw [hp]
  cases hk : m.lookup k with
  | none =>
    refine List.eq_nil_iff_forall_not_mem.mpr fun p hp => ?_
    rw [hmem, hk] at hp
    cases hp.2
  | some v =>
    refine List.perm_singleton.mp ((List.perm_ext_iff_of_nodup
      ((hl.nodup_iff.mpr m.nodup_pairs).filter _) (List.nodup_singleton _)).mpr fun p => ?_)
    rw [hmem, hk, List.mem_singleton, Option.some_inj, Prod.ext_iff, eq_comm (a := v)]

/-- **The order of a `range`**: a choice, at every point of a run, of the order
in which the entries of a map come out. The point of the run is given by the
state `σ` the choice is made in, so two loops of one run may come out in two
orders. -/
structure RangeOrder (σ : Type) where
  /-- The entries in the order they are visited. -/
  order : {α : Type} → σ → List α → List α
  /-- The loop visits every entry, and no other, as often as it is there. -/
  perm : ∀ {α : Type} (s : σ) (l : List α), (order s l).Perm l

/-- The order of the representation, for evaluating a definition. -/
def RangeOrder.default {σ : Type} : RangeOrder σ := ⟨fun _ l => l, fun _ _ => List.Perm.refl _⟩

theorem RangeOrder.mem {σ α : Type} (ord : RangeOrder σ) {s : σ} {l : List α} {a : α} :
    a ∈ ord.order s l ↔ a ∈ l :=
  (ord.perm s l).mem_iff

open Classical in
/-- The order that visits one entry first, where it is there. -/
noncomputable def RangeOrder.first {σ β : Type} (b : β) : RangeOrder σ where
  order {α} _ l :=
    if h : ∃ hα : β = α, cast hα b ∈ l then cast h.1 b :: l.erase (cast h.1 b) else l
  perm := fun _ l => by
    by_cases h : ∃ hα, cast hα b ∈ l
    · rw [dif_pos h]
      exact (List.perm_cons_erase h.2).symm
    · rw [dif_neg h]

theorem RangeOrder.head?_first {σ β : Type} {b : β} {s : σ} {l : List β} (hb : b ∈ l) :
    ((RangeOrder.first b).order s l).head? = some b := by
  have h : ∃ hα : β = β, cast hα b ∈ l := ⟨rfl, hb⟩
  unfold RangeOrder.first
  simp only [dif_pos h]
  rfl

/-- The order that visits one entry last, where it is there. -/
noncomputable def RangeOrder.last {σ β : Type} (b : β) : RangeOrder σ where
  order s l := ((RangeOrder.first b).order s l).reverse
  perm := fun s l => (List.reverse_perm _).trans ((RangeOrder.first b).perm s l)

theorem RangeOrder.exists_append_last {σ β : Type} {b : β} {s : σ} {l : List β} (hb : b ∈ l) :
    ∃ l', (RangeOrder.last b).order s l = l' ++ [b] := by
  obtain ⟨l', hl'⟩ := List.head?_eq_some_iff.mp (RangeOrder.head?_first (s := s) hb)
  refine ⟨l'.reverse, ?_⟩
  change ((RangeOrder.first b).order s l).reverse = _
  rw [hl', List.reverse_cons]

/-- A loop over all entries of a map, in some order, finds the one of a key. -/
theorem find?_pairs {m : GoMap K V} {l : List (K × V)} (hl : l.Perm m.pairs) (k : K) :
    l.find? (fun p => p.1 = k) = (m.lookup k).map (Prod.mk k) := by
  rw [← List.head?_filter, filter_pairs hl]
  cases m.lookup k <;> rfl

end GoMap
