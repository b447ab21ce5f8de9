import Mathlib.Data.Finset.Card
import Mathlib.Data.List.Dedup
import Gortex.Lib.Sorting
import Gortex.Lib.Totals
import Gortex.Search.BM25

/-!
# Rank fusion

`rrfFuse` of `internal/search/hybrid.go`: the results of the text search and of the vector search
become one list, in the order of the sums of the reciprocals of their ranks. What the one list or
the other ranks higher, and neither lower, comes first (`Gortex.HybridBackend.rrfFuse_monotone`),
since the reciprocal of a rank is strictly larger for a higher one.
-/

namespace Gortex

namespace HybridBackend

open GoMap

/-! ### The model -/

/-- The loop over a list of IDs: what each rank is worth is added to the score of its ID. -/
def addRanks (k : ℕ) (scores : GoMap String ℚ) (ids : List String) : GoMap String ℚ :=
  ids.zipIdx.foldl (fun scores p => scores.addTo p.1 (1 / (k + p.2 + 1))) scores

/-- **rrfFuse**, with the order of the loop over the scores and the sort as parameters. -/
def rrfFuse (ord : RangeOrder (GoMap String ℚ)) (sorter : Sorting.Sorter (String × ℚ))
    (textResults : List (SearchResult ℚ)) (vecIDs : List String) (k limit : ℕ) :
    List (SearchResult ℚ) :=
  let scores := addRanks k (addRanks k ∅ (textResults.map SearchResult.id)) vecIDs
  let results := sorter.sort (fun p q => q.2 < p.2) (ord.order scores scores.pairs)
  (results.take limit).map fun p => ⟨p.1, p.2⟩

/-! ### What a rank is worth -/

variable {k limit : ℕ} {l text vec : List String} {a b : String}

/-- What a list contributes to the score of an ID: nothing when it is absent. -/
def contribution (k : ℕ) (l : List String) (a : String) : ℚ :=
  if a ∈ l then 1 / (k + l.idxOf a + 1) else 0

/-- The score of an ID. -/
def fusedScore (k : ℕ) (text vec : List String) (a : String) : ℚ :=
  contribution k text a + contribution k vec a

/-- The list ranks `a` at least as high as `b`; to be absent is worst. -/
def NotBelow (l : List String) (a b : String) : Prop := b ∈ l → a ∈ l ∧ l.idxOf a ≤ l.idxOf b

/-- The list ranks `a` higher than `b`. -/
def Above (l : List String) (a b : String) : Prop := a ∈ l ∧ (b ∈ l → l.idxOf a < l.idxOf b)

theorem contribution_nonneg (k : ℕ) (l : List String) (a : String) : 0 ≤ contribution k l a := by
  rw [contribution]
  split
  · positivity
  · exact le_rfl

theorem contribution_pos (k : ℕ) (ha : a ∈ l) : 0 < contribution k l a := by
  rw [contribution, if_pos ha]
  positivity

theorem contribution_le (k : ℕ) (h : NotBelow l a b) : contribution k l b ≤ contribution k l a := by
  by_cases hb : b ∈ l
  · obtain ⟨ha, hrank⟩ := h hb
    rw [contribution, contribution, if_pos ha, if_pos hb]
    gcongr
  · rw [contribution, if_neg hb]
    exact contribution_nonneg k l a

/-- **A higher rank is worth more.** -/
theorem contribution_lt (k : ℕ) (h : Above l a b) : contribution k l b < contribution k l a := by
  obtain ⟨ha, hrank⟩ := h
  by_cases hb : b ∈ l
  · have hlt := hrank hb
    rw [contribution, contribution, if_pos ha, if_pos hb]
    gcongr
  · rw [contribution, if_neg hb]
    exact contribution_pos k ha

/-- What a loop over a list without duplicates adds under an ID. -/
theorem sum_zipIdx (f : ℕ → ℚ) (hl : l.Nodup) (i : ℕ) (a : String) :
    ((l.zipIdx i).map fun p => if a = p.1 then f p.2 else 0).sum =
      if a ∈ l then f (i + l.idxOf a) else 0 := by
  induction l generalizing i with
  | nil => rfl
  | cons b l ih =>
    rw [List.nodup_cons] at hl
    rw [List.zipIdx_cons, List.map_cons, List.sum_cons, ih hl.2]
    by_cases hab : a = b
    · subst hab
      rw [if_pos rfl, if_neg hl.1, if_pos List.mem_cons_self, List.idxOf_cons_self, add_zero,
        Nat.add_zero]
    · rw [if_neg hab, zero_add, List.idxOf_cons_ne _ (Ne.symm hab)]
      by_cases ha : a ∈ l
      · rw [if_pos ha, if_pos (List.mem_cons_of_mem _ ha), Nat.succ_eq_add_one]
        congr 1
        omega
      · rw [if_neg ha, if_neg (by rw [List.mem_cons, not_or]; exact ⟨hab, ha⟩)]

/-! ### The scores -/

/-- The scores after both loops. -/
def fusedScores (k : ℕ) (text vec : List String) : GoMap String ℚ :=
  addRanks k (addRanks k ∅ text) vec

theorem total_fusedScores (ht : text.Nodup) (hv : vec.Nodup) (a : String) :
    (fusedScores k text vec).total a = fusedScore k text vec a := by
  have hsum : ∀ {l : List String}, l.Nodup → ((l.zipIdx).map fun p =>
      if a = p.1 then (1 / (k + p.2 + 1) : ℚ) else 0).sum = contribution k l a := fun hl => by
    rw [sum_zipIdx (fun n => (1 / (k + n + 1) : ℚ)) hl 0 a, contribution, Nat.zero_add]
  rw [fusedScores, addRanks, addRanks, total_foldl_addTo, total_foldl_addTo, total_empty, zero_add,
    hsum ht, hsum hv, fusedScore]

theorem fusedScore_pos_iff : 0 < fusedScore k text vec a ↔ a ∈ text ∨ a ∈ vec := by
  constructor
  · intro hpos
    by_contra hnot
    obtain ⟨ht, hv⟩ := not_or.mp hnot
    rw [fusedScore, contribution, contribution, if_neg ht, if_neg hv, add_zero] at hpos
    exact lt_irrefl _ hpos
  · rintro (ht | hv)
    · exact add_pos_of_pos_of_nonneg (contribution_pos k ht) (contribution_nonneg k vec a)
    · exact add_pos_of_nonneg_of_pos (contribution_nonneg k text a) (contribution_pos k hv)

/-- **The map of the scores** has the IDs of both lists, each with its score. -/
theorem lookup_fusedScores (ht : text.Nodup) (hv : vec.Nodup) (a : String) {s : ℚ} :
    (fusedScores k text vec).lookup a = some s ↔
      (a ∈ text ∨ a ∈ vec) ∧ s = fusedScore k text vec a := by
  have hfold : fusedScores k text vec = (text.zipIdx ++ vec.zipIdx).foldl
      (fun scores p => scores.addTo p.1 (1 / (k + p.2 + 1))) ∅ :=
    List.foldl_append.symm
  have hsome := isSome_foldl_addTo (fun p : String × ℕ => p.1)
    (fun p => (1 / (k + p.2 + 1) : ℚ)) (text.zipIdx ++ vec.zipIdx) (fun p _ => by positivity) a
  rw [← hfold, total_fusedScores ht hv, fusedScore_pos_iff] at hsome
  have htotal := total_fusedScores (k := k) ht hv a
  rw [GoMap.total] at htotal
  rw [← hsome]
  cases hs : (fusedScores k text vec).lookup a with
  | none => exact iff_of_false nofun fun h => Bool.false_ne_true h.1
  | some v =>
    rw [hs, Option.getD_some] at htotal
    rw [Option.some.injEq, htotal, and_iff_right Option.isSome_some]
    exact eq_comm

/-! ### The result -/

/-- **The top of the fused list**: the first `limit` of the IDs of both lists, in the order of
their scores. -/
structure TopFused (k limit : ℕ) (text vec : List String) (out : List (SearchResult ℚ)) :
    Prop where
  nodup : (out.map SearchResult.id).Nodup
  scored : ∀ r ∈ out, (r.id ∈ text ∨ r.id ∈ vec) ∧ r.score = fusedScore k text vec r.id
  length : out.length = min limit (text.toFinset ∪ vec.toFinset).card
  sorted : out.Pairwise fun r r' => r'.score ≤ r.score
  top : ∀ a, a ∈ text ∨ a ∈ vec → a ∉ out.map SearchResult.id →
    ∀ r ∈ out, fusedScore k text vec a ≤ r.score

/-- One list ranks `a` higher than `b`, and neither ranks it lower. -/
def Dominates (text vec : List String) (a b : String) : Prop :=
  NotBelow text a b ∧ NotBelow vec a b ∧ (Above text a b ∨ Above vec a b)

theorem Dominates.fusedScore_lt (k : ℕ) (h : Dominates text vec a b) :
    fusedScore k text vec b < fusedScore k text vec a := by
  obtain ⟨ht, hv, habove | habove⟩ := h
  · exact add_lt_add_of_lt_of_le (contribution_lt k habove) (contribution_le k hv)
  · exact add_lt_add_of_le_of_lt (contribution_le k ht) (contribution_lt k habove)

theorem Dominates.mem (h : Dominates text vec a b) : a ∈ text ∨ a ∈ vec :=
  h.2.2.imp And.left And.left

section Result

variable {ord : RangeOrder (GoMap String ℚ)} {sorter : Sorting.Sorter (String × ℚ)}

/-- The entries of the map of the scores, as they are sorted. -/
def ranked (ord : RangeOrder (GoMap String ℚ)) (sorter : Sorting.Sorter (String × ℚ)) (k : ℕ)
    (text vec : List String) : List (String × ℚ) :=
  sorter.sort (fun p q => q.2 < p.2)
    (ord.order (fusedScores k text vec) (fusedScores k text vec).pairs)

theorem ranked_perm : (ranked ord sorter k text vec).Perm (fusedScores k text vec).pairs :=
  (sorter.perm _ _).trans (ord.perm _ _)

theorem mem_ranked (ht : text.Nodup) (hv : vec.Nodup) {p : String × ℚ} :
    p ∈ ranked ord sorter k text vec ↔
      (p.1 ∈ text ∨ p.1 ∈ vec) ∧ p.2 = fusedScore k text vec p.1 := by
  rw [ranked_perm.mem_iff, ← lookup_fusedScores ht hv]
  exact mem_pairs

theorem sorted_ranked : (ranked ord sorter k text vec).Pairwise fun p q => q.2 ≤ p.2 :=
  sorter.pairwise_key Prod.snd _

theorem nodup_ranked : ((ranked ord sorter k text vec).map Prod.fst).Nodup :=
  (ranked_perm.map Prod.fst).nodup_iff.mpr (nodup_pairs_fst _)

theorem length_ranked (ht : text.Nodup) (hv : vec.Nodup) :
    (ranked ord sorter k text vec).length = (text.toFinset ∪ vec.toFinset).card := by
  have hset : ((ranked ord sorter k text vec).map Prod.fst).toFinset =
      text.toFinset ∪ vec.toFinset := by
    ext a
    rw [Finset.mem_union, List.mem_toFinset, List.mem_toFinset, List.mem_toFinset, List.mem_map]
    constructor
    · rintro ⟨p, hp, rfl⟩
      exact ((mem_ranked ht hv).mp hp).1
    · exact fun ha => ⟨(a, fusedScore k text vec a), (mem_ranked ht hv).mpr ⟨ha, rfl⟩, rfl⟩
  rw [← hset, List.toFinset_card_of_nodup nodup_ranked, List.length_map]

variable {textResults : List (SearchResult ℚ)}

theorem rrfFuse_eq : rrfFuse ord sorter textResults vec k limit =
    ((ranked ord sorter k (textResults.map SearchResult.id) vec).take limit).map
      fun p => ⟨p.1, p.2⟩ := rfl

theorem map_id_rrfFuse : (rrfFuse ord sorter textResults vec k limit).map SearchResult.id =
    ((ranked ord sorter k (textResults.map SearchResult.id) vec).take limit).map Prod.fst := by
  rw [rrfFuse_eq, List.map_map]
  rfl

/-- **The fusion is the top of the fused list.** -/
theorem topFused_rrfFuse (ht : (textResults.map SearchResult.id).Nodup) (hv : vec.Nodup) :
    TopFused k limit (textResults.map SearchResult.id) vec
      (rrfFuse ord sorter textResults vec k limit) where
  nodup := by
    rw [map_id_rrfFuse]
    exact nodup_ranked.sublist ((List.take_sublist limit _).map Prod.fst)
  scored := by
    intro r hr
    obtain ⟨p, hp, rfl⟩ := List.mem_map.mp hr
    exact (mem_ranked ht hv).mp (List.mem_of_mem_take hp)
  length := by
    rw [rrfFuse_eq, List.length_map, List.length_take, length_ranked ht hv]
  sorted := List.Pairwise.map _ (fun _ _ hpq => hpq) (sorted_ranked.sublist (List.take_sublist _ _))
  top := by
    intro a ha hnot r hr
    obtain ⟨p, hp, rfl⟩ := List.mem_map.mp hr
    have hmem : (a, fusedScore k (textResults.map SearchResult.id) vec a) ∈
        ranked ord sorter k (textResults.map SearchResult.id) vec :=
      (mem_ranked ht hv).mpr ⟨ha, rfl⟩
    by_contra hlt
    -- with a larger score it would have been kept before `p`
    have hpair := Sorting.pair_sublist_take sorted_ranked hmem hp (not_le.mp hlt)
    rw [map_id_rrfFuse] at hnot
    exact hnot (List.mem_map_of_mem (f := Prod.fst) (Sorting.mem_of_pair hpair).1)

/-- **Rank fusion is monotone**: of two lists without duplicates it returns the top of their
union, and what dominates a returned document is returned before it. -/
theorem rrfFuse_monotone (ord : RangeOrder (GoMap String ℚ))
    (sorter : Sorting.Sorter (String × ℚ)) (textResults : List (SearchResult ℚ))
    (vecIDs : List String) (k limit : ℕ) (ht : (textResults.map SearchResult.id).Nodup)
    (hv : vecIDs.Nodup) :
    TopFused k limit (textResults.map SearchResult.id) vecIDs
        (rrfFuse ord sorter textResults vecIDs k limit) ∧
      ∀ a b, Dominates (textResults.map SearchResult.id) vecIDs a b →
        b ∈ (rrfFuse ord sorter textResults vecIDs k limit).map SearchResult.id →
          [a, b].Sublist ((rrfFuse ord sorter textResults vecIDs k limit).map SearchResult.id) := by
  refine ⟨topFused_rrfFuse ht hv, fun a b hab hb => ?_⟩
  rw [map_id_rrfFuse] at hb ⊢
  obtain ⟨p, hp, rfl⟩ := List.mem_map.mp hb
  have hscore := ((mem_ranked ht hv).mp (List.mem_of_mem_take hp)).2
  have hmem : (a, fusedScore k (textResults.map SearchResult.id) vecIDs a) ∈
      ranked ord sorter k (textResults.map SearchResult.id) vecIDs :=
    (mem_ranked ht hv).mpr ⟨hab.mem, rfl⟩
  have hlt : p.2 < fusedScore k (textResults.map SearchResult.id) vecIDs a := by
    rw [hscore]
    exact hab.fusedScore_lt k
  exact (Sorting.pair_sublist_take sorted_ranked hmem hp hlt).map Prod.fst

/-- Within the limit, every document of the lists is returned. -/
theorem mem_rrfFuse (ht : (textResults.map SearchResult.id).Nodup) (hv : vec.Nodup)
    (hlimit : ((textResults.map SearchResult.id).toFinset ∪ vec.toFinset).card ≤ limit)
    (ha : a ∈ textResults.map SearchResult.id ∨ a ∈ vec) :
    a ∈ (rrfFuse ord sorter textResults vec k limit).map SearchResult.id := by
  rw [map_id_rrfFuse, List.take_of_length_le ((length_ranked ht hv).trans_le hlimit), List.mem_map]
  exact ⟨(a, fusedScore k (textResults.map SearchResult.id) vec a), (mem_ranked ht hv).mpr ⟨ha, rfl⟩,
    rfl⟩

/-- A document that both lists have comes before one that only the text search has found. -/
theorem rrfFuse_monotone_shared :
    ["b", "a"].Sublist ((rrfFuse .default (Sorting.Sorter.insertion _) [⟨"b", 2⟩, ⟨"a", 1⟩]
      ["b", "c"] 60 3).map SearchResult.id) :=
  (rrfFuse_monotone .default (Sorting.Sorter.insertion _) [⟨"b", 2⟩, ⟨"a", 1⟩] ["b", "c"] 60 3
    (by decide) (by decide)).2 "b" "a" (by unfold Dominates NotBelow Above; decide)
      (mem_rrfFuse (by decide) (by decide) (by decide) (by decide))

end Result

end HybridBackend

end Gortex
