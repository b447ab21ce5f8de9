import Mathlib.Data.Finset.Sort
import Mathlib.Data.String.Basic
import Gortex.Lib.Sorting
import Gortex.Search.Bigram

/-!
# Candidates by bigrams

`Candidates` of `internal/search/bigram.go`: the documents that have enough of the bigrams of a
query, those with the most of them first. Bigrams that are in too few or in too many of the
documents are left out.

The loop counts over the bigrams of the query as they come up, so one that comes up twice counts
twice. The answer goes by distinct bigrams iff none that counts comes up twice
(`Gortex.BigramIndex.exact_candidates_iff`).
-/

namespace Gortex

open Grouped

namespace BigramIndex

variable (u : Unicode)

/-! ### The model -/

/-- The least number of documents of a bigram that counts: three percent of them. -/
def loBound (bi : BigramIndex) : ℕ :=
  let bound := bi.perDoc.pairs.length * 3 / 100
  if bound < 1 then 1 else bound

/-- The largest one: ninety percent of them. -/
def hiBound (bi : BigramIndex) : ℕ :=
  let bound := bi.perDoc.pairs.length * 90 / 100
  if bound < 1 then bi.perDoc.pairs.length else bound

/-- One bigram of the query: every document of it counts one more. -/
def countKey (ord : GoMap.RangeOrder (GoMap String ℕ)) (bi : BigramIndex)
    (overlap : GoMap String ℕ) (k : UInt16) : GoMap String ℕ :=
  match bi.bigrams.lookup k with
  | none => overlap
  | some set =>
    if set.card < bi.loBound ∨ bi.hiBound < set.card then overlap
    else (ord.order overlap (set.sort (· ≤ ·))).foldl GoMap.bump overlap

/-- **Candidates**, with the order of the loops over maps and the sort as parameters. -/
def candidates (ord : GoMap.RangeOrder (GoMap String ℕ)) (sorter : Sorting.Sorter (String × ℕ))
    (bi : BigramIndex) (query : String) (minOverlap : ℤ) : List String :=
  if query = "" then []
  else
    let keys := u.bigramize query
    if keys = [] then []
    else
      let minOverlap := if minOverlap < 1 then 1 else minOverlap
      if bi.perDoc.pairs.length = 0 then []
      else
        let overlap := keys.foldl (countKey ord bi) ∅
        let cands := (ord.order overlap overlap.pairs).filter fun c => minOverlap ≤ (c.2 : ℤ)
        (sorter.sort (fun c c' => c'.2 < c.2) cands).map Prod.fst

/-- The operations that write the index. -/
inductive Op
  | add (ord : GoMap.RangeOrder BigramIndex) (docID : String) (tokens : List String)
  | remove (docID : String)

/-- The index after an operation. -/
def apply (bi : BigramIndex) : Op → BigramIndex
  | .add ord docID tokens => bi.add u ord docID tokens
  | .remove docID => bi.remove docID

/-- The index after a sequence of operations. -/
def run (ops : List Op) : BigramIndex := ops.foldl (apply u) {}

/-! ### What is indexed -/

/-- The bigrams that documents are indexed under. -/
abbrev Contents := String → Finset UInt16

/-- What is indexed after an operation. Tokens without any bigram leave a document as it is. -/
def contentsAfter (D : Contents) : Op → Contents
  | .add _ docID tokens =>
    if docID = "" ∨ u.bigramKeys tokens = [] then D
    else Function.update D docID (u.bigramKeys tokens).toFinset
  | .remove docID => if docID = "" then D else Function.update D docID ∅

/-- What is indexed after a sequence of operations. -/
def contents (ops : List Op) : Contents := ops.foldl (contentsAfter u) fun _ => ∅

/-- **The index has the documents under their bigrams.** -/
structure Indexes (bi : BigramIndex) (D : Contents) : Prop where
  docsOf : ∀ k docID, docID ∈ docsOf bi.bigrams k ↔ k ∈ D docID
  perDoc : ∀ docID k, k ∈ slice bi.perDoc docID ↔ k ∈ D docID

variable {u} {bi : BigramIndex} {D : Contents}

theorem Indexes.empty : Indexes {} fun _ => ∅ :=
  ⟨fun _ _ => iff_of_false (Finset.notMem_empty _) (Finset.notMem_empty _),
    fun _ _ => iff_of_false List.not_mem_nil (Finset.notMem_empty _)⟩

theorem Indexes.removeLocked (h : Indexes bi D) (docID : String) :
    Indexes (bi.removeLocked docID) (Function.update D docID ∅) := by
  refine ⟨fun k docID' => ?_, fun docID' k => ?_⟩
  · rw [BigramIndex.removeLocked, docsOf_foldl_dropKey, Function.update_apply]
    by_cases hid : docID' = docID
    · rw [if_pos hid]
      refine iff_of_false (fun hmem => ?_) (Finset.notMem_empty k)
      by_cases hk : k ∈ slice bi.perDoc docID
      · rw [if_pos hk, hid] at hmem
        exact Finset.notMem_erase _ _ hmem
      · rw [if_neg hk, h.docsOf, hid, ← h.perDoc] at hmem
        exact hk hmem
    · rw [if_neg hid]
      split
      · rw [Finset.mem_erase, h.docsOf, and_iff_right hid]
      · rw [h.docsOf]
  · rw [BigramIndex.removeLocked, slice_erase, Function.update_apply]
    by_cases hid : docID' = docID
    · rw [if_pos hid, if_pos hid]
      exact iff_of_false List.not_mem_nil (Finset.notMem_empty k)
    · rw [if_neg hid, if_neg hid]
      exact h.perDoc docID' k

/-- **Add** to an index without the document. -/
theorem Indexes.addKeys (h : Indexes bi D) {docID : String} (habsent : D docID = ∅)
    (keys : List UInt16) :
    Indexes ⟨keys.foldl (addKey docID) bi.bigrams, bi.perDoc.insert docID keys⟩
      (Function.update D docID keys.toFinset) := by
  refine ⟨fun k docID' => ?_, fun docID' k => ?_⟩
  · rw [docsOf_foldl_addKey, Function.update_apply]
    by_cases hid : docID' = docID
    · rw [if_pos hid, List.mem_toFinset]
      by_cases hk : k ∈ keys
      · rw [if_pos hk, hid]
        exact iff_of_true (Finset.mem_insert_self _ _) hk
      · rw [if_neg hk, h.docsOf, hid, habsent]
        exact iff_of_false (Finset.notMem_empty k) hk
    · rw [if_neg hid]
      split
      · rw [Finset.mem_insert, or_iff_right hid, h.docsOf]
      · rw [h.docsOf]
  · rw [slice_insert, Function.update_apply]
    by_cases hid : docID' = docID
    · rw [if_pos hid, if_pos hid, List.mem_toFinset]
    · rw [if_neg hid, if_neg hid]
      exact h.perDoc docID' k

/-- **One operation.** -/
theorem Indexes.apply (h : Indexes bi D) (op : Op) :
    Indexes (bi.apply u op) (contentsAfter u D op) := by
  cases op with
  | add ord docID tokens =>
    rw [BigramIndex.apply, BigramIndex.add, contentsAfter]
    by_cases hskip : docID = "" ∨ u.bigramKeys tokens = []
    · rw [if_pos hskip]
      split
      · exact h
      · rcases hskip with hid | hkeys
        · exact absurd (Or.inl hid) ‹_›
        · rw [if_pos hkeys]
          exact h
    · obtain ⟨hid, hkeys⟩ := not_or.mp hskip
      have htokens : tokens ≠ [] := fun hnil => hkeys (by rw [hnil]; rfl)
      rw [if_neg hskip, if_neg (not_or.mpr ⟨hid, htokens⟩), if_neg hkeys]
      have hset : (u.bigramKeys tokens).toFinset =
          (ord.order (bi.removeLocked docID) (u.bigramKeys tokens)).toFinset :=
        List.toFinset_eq_of_perm _ _ (ord.perm _ _).symm
      have hadd := (h.removeLocked docID).addKeys (Function.update_self docID ∅ D)
        (ord.order (bi.removeLocked docID) (u.bigramKeys tokens))
      rwa [Function.update_idem, ← hset] at hadd
  | remove docID =>
    rw [BigramIndex.apply, BigramIndex.remove, contentsAfter]
    split
    · exact h
    · exact h.removeLocked docID

/-- **A run.** -/
theorem indexes_run (ops : List Op) : Indexes (run u ops) (contents u ops) := by
  have hrun : ∀ (ops : List Op) (bi : BigramIndex) (D : Contents), Indexes bi D →
      Indexes (ops.foldl (BigramIndex.apply u) bi) (ops.foldl (contentsAfter u) D) := by
    intro ops
    induction ops with
    | nil => exact fun _ _ h => h
    | cons op ops ih => exact fun _ _ h => ih _ _ (h.apply op)
  exact hrun ops _ _ Indexes.empty

/-! ### What is counted -/

/-- The bigrams of a query, as often as they come up in it. -/
def queryKeys (u : Unicode) (query : String) : List UInt16 :=
  if query = "" then [] else u.bigramize query

/-- The bigrams that count: those of neither too few nor too many documents. -/
def Admissible (bi : BigramIndex) (k : UInt16) : Prop :=
  bi.loBound ≤ (BigramIndex.docsOf bi.bigrams k).card ∧
    (BigramIndex.docsOf bi.bigrams k).card ≤ bi.hiBound

instance (bi : BigramIndex) (k : UInt16) : Decidable (bi.Admissible k) :=
  inferInstanceAs (Decidable (_ ∧ _))

/-- The bigrams that a document shares with some bigrams, as often as they come up there. -/
def hits (bi : BigramIndex) (D : Contents) (keys : List UInt16) (docID : String) : List UInt16 :=
  keys.filter fun k => bi.Admissible k ∧ k ∈ D docID

/-- The distinct ones. -/
def shared (bi : BigramIndex) (D : Contents) (keys : List UInt16) (docID : String) :
    Finset UInt16 :=
  keys.toFinset.filter fun k => bi.Admissible k ∧ k ∈ D docID

theorem toFinset_hits (bi : BigramIndex) (D : Contents) (keys : List UInt16) (docID : String) :
    (bi.hits D keys docID).toFinset = bi.shared D keys docID := by
  rw [hits, shared, List.toFinset_filter]
  simp only [decide_eq_true_eq]

/-- Distinct bigrams are no more than those that come up. -/
theorem card_shared_le (bi : BigramIndex) (D : Contents) (keys : List UInt16) (docID : String) :
    (bi.shared D keys docID).card ≤ (bi.hits D keys docID).length := by
  rw [← toFinset_hits]
  exact List.toFinset_card_le _

theorem one_le_loBound (bi : BigramIndex) : 1 ≤ bi.loBound := by
  rw [loBound]
  split <;> omega

/-- A bigram that counts has a document. -/
theorem Admissible.exists_mem {k : UInt16} (hk : bi.Admissible k) (h : Indexes bi D) :
    ∃ docID, k ∈ D docID := by
  obtain ⟨docID, hmem⟩ := Finset.card_pos.mp ((one_le_loBound bi).trans hk.1)
  exact ⟨docID, (h.docsOf k docID).mp hmem⟩

variable (ord : GoMap.RangeOrder (GoMap String ℕ)) (sorter : Sorting.Sorter (String × ℕ))

/-- **One bigram of the query.** -/
theorem Indexes.lookup_countKey (h : Indexes bi D) (m : GoMap String ℕ) (k : UInt16)
    (docID : String) : (countKey ord bi m k).lookup docID =
      if bi.Admissible k ∧ k ∈ D docID then some ((m.lookup docID).getD 0 + 1)
      else m.lookup docID := by
  have hdocs := h.docsOf k docID
  have hone := one_le_loBound bi
  have hadm : bi.Admissible k ↔ bi.loBound ≤ (BigramIndex.docsOf bi.bigrams k).card ∧
      (BigramIndex.docsOf bi.bigrams k).card ≤ bi.hiBound := Iff.rfl
  rw [BigramIndex.docsOf] at hdocs hadm
  rw [countKey]
  cases hset : bi.bigrams.lookup k with
  | none =>
    rw [hset, Option.getD_none, Finset.card_empty] at hadm
    rw [if_neg fun hc => by have := hadm.mp hc.1; omega]
  | some set =>
    rw [hset, Option.getD_some] at hdocs hadm
    simp only
    by_cases hout : set.card < bi.loBound ∨ bi.hiBound < set.card
    · rw [if_pos hout, if_neg fun hc => by have := hadm.mp hc.1; omega]
    · have hin : bi.Admissible k := hadm.mpr (by omega)
      have hmem : docID ∈ ord.order m (set.sort (· ≤ ·)) ↔ bi.Admissible k ∧ k ∈ D docID := by
        rw [ord.mem, Finset.mem_sort, hdocs, and_iff_right hin]
      rw [if_neg hout, GoMap.lookup_foldl_bump, if_congr hmem rfl rfl]
      refine if_ctx_congr Iff.rfl (fun hd => ?_) fun _ => rfl
      have hnodup : (ord.order m (set.sort (· ≤ ·))).Nodup :=
        (ord.perm m _).nodup_iff.mpr (Finset.sort_nodup _ _)
      rw [List.count_eq_one_of_mem hnodup (hmem.mpr hd)]

/-- **The loop over the query** counts what comes up. -/
theorem Indexes.lookup_foldl_countKey (h : Indexes bi D) (keys : List UInt16)
    (m : GoMap String ℕ) (docID : String) : (keys.foldl (countKey ord bi) m).lookup docID =
      if bi.hits D keys docID = [] then m.lookup docID
      else some ((m.lookup docID).getD 0 + (bi.hits D keys docID).length) := by
  induction keys generalizing m with
  | nil => rfl
  | cons k keys ih =>
    rw [List.foldl_cons, ih, h.lookup_countKey]
    by_cases hk : bi.Admissible k ∧ k ∈ D docID
    · have hcons : bi.hits D (k :: keys) docID = k :: bi.hits D keys docID :=
        List.filter_cons_of_pos (decide_eq_true hk)
      rw [if_pos hk, hcons, if_neg (List.cons_ne_nil _ _), List.length_cons, Option.getD_some]
      by_cases hnil : bi.hits D keys docID = []
      · rw [if_pos hnil, hnil, List.length_nil]
      · rw [if_neg hnil]
        congr 1
        omega
    · have hcons : bi.hits D (k :: keys) docID = bi.hits D keys docID :=
        List.filter_cons_of_neg (mt of_decide_eq_true hk)
      rw [if_neg hk, hcons]

/-- The counts of the documents. -/
def overlap (bi : BigramIndex) (keys : List UInt16) : GoMap String ℕ :=
  keys.foldl (countKey ord bi) ∅

theorem Indexes.lookup_overlap (h : Indexes bi D) (keys : List UInt16) (docID : String) (n : ℕ) :
    (overlap ord bi keys).lookup docID = some n ↔
      n = (bi.hits D keys docID).length ∧ 1 ≤ n := by
  rw [overlap, h.lookup_foldl_countKey]
  by_cases hnil : bi.hits D keys docID = []
  · rw [if_pos hnil, hnil, List.length_nil]
    exact iff_of_false nofun fun hc => by omega
  · have hpos := List.length_pos_iff.mpr hnil
    rw [if_neg hnil, AList.lookup_empty, Option.getD_none, Option.some.injEq]
    omega

/-- The entries that are sorted. -/
def cands (bi : BigramIndex) (keys : List UInt16) (minOverlap : ℤ) : List (String × ℕ) :=
  (ord.order (overlap ord bi keys) (overlap ord bi keys).pairs).filter fun c =>
    max 1 minOverlap ≤ (c.2 : ℤ)

theorem Indexes.mem_cands (h : Indexes bi D) (keys : List UInt16) (minOverlap : ℤ)
    {c : String × ℕ} : c ∈ cands ord bi keys minOverlap ↔
      c.2 = (bi.hits D keys c.1).length ∧ max 1 minOverlap ≤ (c.2 : ℤ) := by
  have hc : c ∈ (overlap ord bi keys).pairs ↔
      c.2 = (bi.hits D keys c.1).length ∧ 1 ≤ c.2 :=
    GoMap.mem_pairs.trans (h.lookup_overlap ord keys c.1 c.2)
  rw [cands, List.mem_filter, ord.mem, hc, decide_eq_true_eq]
  constructor
  · exact fun hm => ⟨hm.1.1, hm.2⟩
  · rintro ⟨heq, hmax⟩
    exact ⟨⟨heq, by omega⟩, hmax⟩

theorem nodup_cands (bi : BigramIndex) (keys : List UInt16) (minOverlap : ℤ) :
    ((cands ord bi keys minOverlap).map Prod.fst).Nodup := by
  have hall : ((ord.order (overlap ord bi keys) (overlap ord bi keys).pairs).map
      Prod.fst).Nodup :=
    ((ord.perm _ _).map Prod.fst).nodup_iff.mpr (GoMap.nodup_pairs_fst _)
  exact hall.sublist (List.filter_sublist.map Prod.fst)

/-- **Candidates are the sorted entries**: where it returns early, there are none. -/
theorem Indexes.candidates_eq (h : Indexes bi D) (query : String) (minOverlap : ℤ) :
    bi.candidates u ord sorter query minOverlap =
      (sorter.sort (fun c c' => c'.2 < c.2)
        (cands ord bi (queryKeys u query) minOverlap)).map Prod.fst := by
  have hnone : (∀ docID, bi.hits D (queryKeys u query) docID = []) →
      (sorter.sort (fun c c' => c'.2 < c.2)
        (cands ord bi (queryKeys u query) minOverlap)).map Prod.fst = [] := by
    intro hits
    have hnil : cands ord bi (queryKeys u query) minOverlap = [] := by
      refine List.eq_nil_iff_forall_not_mem.mpr fun c hc => ?_
      obtain ⟨heq, hmax⟩ := (h.mem_cands ord _ minOverlap).mp hc
      rw [hits, List.length_nil] at heq
      omega
    rw [hnil, (sorter.perm _ []).eq_nil, List.map_nil]
  rw [candidates]
  by_cases hquery : query = ""
  · rw [if_pos hquery]
    exact (hnone fun _ => by rw [queryKeys, if_pos hquery]; rfl).symm
  rw [if_neg hquery]
  have hq : queryKeys u query = u.bigramize query := if_neg hquery
  rw [hq] at hnone ⊢
  by_cases hkeys : u.bigramize query = []
  · simp only [if_pos hkeys]
    exact (hnone fun _ => by rw [hkeys]; rfl).symm
  simp only [if_neg hkeys]
  by_cases htotal : bi.perDoc.pairs.length = 0
  · rw [if_pos htotal]
    refine (hnone fun docID => List.filter_eq_nil_iff.mpr fun k _ hk => ?_).symm
    have hslice := (h.perDoc docID k).mpr (of_decide_eq_true hk).2
    rw [slice] at hslice
    cases hl : bi.perDoc.lookup docID with
    | none => exact List.not_mem_nil (by rwa [hl] at hslice)
    | some l =>
      have hmem := GoMap.mem_pairs.mpr hl
      rw [List.length_eq_zero_iff.mp htotal] at hmem
      exact List.not_mem_nil hmem
  · have hmin : (if minOverlap < 1 then 1 else minOverlap) = max 1 minOverlap := by
      split <;> omega
    rw [if_neg htotal, hmin]
    rfl

/-! ### Exact candidates -/

variable {ord sorter} {keys : List UInt16} {query : String} {minOverlap : ℤ}

/-- **A list of candidates is exact**: it has the documents that share some bigrams with the
query, and at least `minOverlap` of them, each bigram taken once; those with the most come
first. -/
structure Exact (bi : BigramIndex) (D : Contents) (keys : List UInt16) (minOverlap : ℤ)
    (out : List String) : Prop where
  nodup : out.Nodup
  mem : ∀ docID, docID ∈ out ↔ max 1 minOverlap ≤ ((bi.shared D keys docID).card : ℤ)
  sorted : out.Pairwise fun docID docID' =>
    (bi.shared D keys docID').card ≤ (bi.shared D keys docID).card

/-- What comes up often enough is shared often enough, and no document of which more comes up
shares less. -/
def Agree (bi : BigramIndex) (D : Contents) (keys : List UInt16) (minOverlap : ℤ) : Prop :=
  (∀ docID, max 1 minOverlap ≤ ((bi.hits D keys docID).length : ℤ) →
    max 1 minOverlap ≤ ((bi.shared D keys docID).card : ℤ)) ∧
  ∀ docID docID', max 1 minOverlap ≤ ((bi.shared D keys docID).card : ℤ) →
    max 1 minOverlap ≤ ((bi.shared D keys docID').card : ℤ) →
    (bi.hits D keys docID').length ≤ (bi.hits D keys docID).length →
    (bi.shared D keys docID').card ≤ (bi.shared D keys docID).card

theorem Indexes.mem_candidates (h : Indexes bi D) (docID : String) :
    docID ∈ bi.candidates u ord sorter query minOverlap ↔
      max 1 minOverlap ≤ ((bi.hits D (queryKeys u query) docID).length : ℤ) := by
  rw [h.candidates_eq, List.mem_map]
  constructor
  · rintro ⟨c, hc, rfl⟩
    obtain ⟨heq, hmax⟩ := (h.mem_cands ord _ _).mp ((sorter.perm _ _).mem_iff.mp hc)
    rwa [← heq]
  · intro hmax
    exact ⟨(docID, (bi.hits D (queryKeys u query) docID).length),
      (sorter.perm _ _).mem_iff.mpr ((h.mem_cands ord _ _).mpr ⟨rfl, hmax⟩), rfl⟩

theorem Indexes.nodup_candidates (h : Indexes bi D) :
    (bi.candidates u ord sorter query minOverlap).Nodup := by
  rw [h.candidates_eq]
  exact ((sorter.perm _ _).map Prod.fst).nodup_iff.mpr (nodup_cands ord bi _ _)

/-- They are in the order of what comes up. -/
theorem Indexes.sorted_candidates (h : Indexes bi D) :
    (bi.candidates u ord sorter query minOverlap).Pairwise fun docID docID' =>
      (bi.hits D (queryKeys u query) docID').length ≤
        (bi.hits D (queryKeys u query) docID).length := by
  rw [h.candidates_eq, List.pairwise_map]
  refine (sorter.pairwise_key Prod.snd _).imp_of_mem fun {c c'} hc hc' hle => ?_
  obtain ⟨heq, -⟩ := (h.mem_cands ord _ _).mp ((sorter.perm _ _).mem_iff.mp hc)
  obtain ⟨heq', -⟩ := (h.mem_cands ord _ _).mp ((sorter.perm _ _).mem_iff.mp hc')
  rwa [← heq, ← heq']

/-- Some order of the loops puts a document before another of which no more comes up. -/
theorem Indexes.exists_pair (h : Indexes bi D) (minOverlap : ℤ) {docID docID' : String}
    (hmem : max 1 minOverlap ≤ ((bi.hits D (queryKeys u query) docID).length : ℤ))
    (hmem' : max 1 minOverlap ≤ ((bi.hits D (queryKeys u query) docID').length : ℤ))
    (hne : docID ≠ docID') (hle : (bi.hits D (queryKeys u query) docID').length ≤
      (bi.hits D (queryKeys u query) docID).length) :
    ∃ ord sorter,
      [docID, docID'].Sublist (bi.candidates u ord sorter query minOverlap) := by
  let c := (docID, (bi.hits D (queryKeys u query) docID).length)
  let c' := (docID', (bi.hits D (queryKeys u query) docID').length)
  let ord : GoMap.RangeOrder (GoMap String ℕ) := GoMap.RangeOrder.first c
  let m := overlap ord bi (queryKeys u query)
  refine ⟨ord, Sorting.Sorter.stable _, ?_⟩
  -- the loop visits the first of the two first
  have hc : c ∈ m.pairs :=
    GoMap.mem_pairs.mpr ((h.lookup_overlap ord _ docID _).mpr ⟨rfl, by omega⟩)
  have hc' : c' ∈ m.pairs :=
    GoMap.mem_pairs.mpr ((h.lookup_overlap ord _ docID' _).mpr ⟨rfl, by omega⟩)
  have hne' : c' ≠ c := fun heq => hne (congrArg Prod.fst heq).symm
  have hhead : (ord.order m m.pairs).head? = some c := GoMap.RangeOrder.head?_first hc
  obtain ⟨rest, hrest⟩ := List.head?_eq_some_iff.mp hhead
  have hmem_rest : c' ∈ rest := by
    have hord : c' ∈ ord.order m m.pairs := ord.mem.mpr hc'
    rw [hrest] at hord
    exact (List.mem_cons.mp hord).resolve_left hne'
  have hpair : [c, c'].Sublist (cands ord bi (queryKeys u query) minOverlap) := by
    have hfilter := ((List.singleton_sublist.mpr hmem_rest).cons_cons c).filter
      fun e => decide (max 1 minOverlap ≤ (e.2 : ℤ))
    have hboth : [c, c'].filter (fun e => decide (max 1 minOverlap ≤ (e.2 : ℤ))) = [c, c'] :=
      List.filter_eq_self.mpr fun e he => by
        rcases List.mem_cons.mp he with rfl | he
        · exact decide_eq_true hmem
        · rw [List.mem_singleton.mp he]
          exact decide_eq_true hmem'
    rwa [hboth, ← hrest] at hfilter
  rw [h.candidates_eq]
  have hsorted : [c, c'].Sublist (Sorting.stable Prod.snd _) :=
    Sorting.pair_sublist_stable hle hpair
  rw [← Sorting.Sorter.stable_key] at hsorted
  exact hsorted.map Prod.fst

/-- **When the candidates are exact**, whatever the order of the loops. -/
theorem Indexes.exact_iff (h : Indexes bi D) :
    (∀ ord sorter, bi.Exact D (queryKeys u query) minOverlap
      (bi.candidates u ord sorter query minOverlap)) ↔
      bi.Agree D (queryKeys u query) minOverlap := by
  have hle := card_shared_le bi D (queryKeys u query)
  constructor
  · intro hexact
    refine ⟨fun docID hhits => ?_, fun docID docID' hs hs' hhits => ?_⟩
    · have hex := hexact .default (Sorting.Sorter.stable _)
      exact (hex.mem docID).mp ((h.mem_candidates docID).mpr hhits)
    · rcases eq_or_ne docID docID' with rfl | hne
      · exact le_rfl
      have hup := hle docID
      have hup' := hle docID'
      obtain ⟨ord, sorter, hpair⟩ :=
        h.exists_pair minOverlap (by omega) (by omega) hne hhits
      exact List.pairwise_iff_forall_sublist.mp (hexact ord sorter).sorted hpair
  · rintro ⟨hmem, hsorted⟩ ord sorter
    have hiff : ∀ docID, docID ∈ bi.candidates u ord sorter query minOverlap ↔
        max 1 minOverlap ≤ ((bi.shared D (queryKeys u query) docID).card : ℤ) := fun docID => by
      rw [h.mem_candidates]
      have hup := hle docID
      exact ⟨hmem docID, fun hs => by omega⟩
    refine ⟨h.nodup_candidates, hiff, h.sorted_candidates.imp_of_mem fun hd hd' hhits => ?_⟩
    exact hsorted _ _ ((hiff _).mp hd) ((hiff _).mp hd') hhits

/-- Where no bigram that counts comes up twice, what comes up is what is shared. -/
theorem length_hits_of_nodup (hnodup : (keys.filter fun k => bi.Admissible k).Nodup)
    (docID : String) : (bi.hits D keys docID).length = (bi.shared D keys docID).card := by
  have hsub : (bi.hits D keys docID).Sublist (keys.filter fun k => bi.Admissible k) := by
    refine List.monotone_filter_right keys fun k hk => ?_
    exact decide_eq_true (of_decide_eq_true hk).1
  rw [← toFinset_hits, List.toFinset_card_of_nodup (hnodup.sublist hsub)]

/-- A bigram that counts and comes up twice makes more come up of its documents than they
share. -/
theorem Indexes.nodup_of_length_hits (h : Indexes bi D)
    (hall : ∀ docID, (bi.hits D keys docID).length ≤ (bi.shared D keys docID).card) :
    (keys.filter fun k => bi.Admissible k).Nodup := by
  rw [List.nodup_iff_count_le_one]
  intro k
  by_contra hcount
  have hmem : k ∈ keys.filter fun k => bi.Admissible k :=
    List.count_pos_iff.mp (by omega)
  have hadm : bi.Admissible k := of_decide_eq_true (List.mem_filter.mp hmem).2
  obtain ⟨docID, hdoc⟩ := hadm.exists_mem h
  have hnodup : (bi.hits D keys docID).Nodup := by
    rw [← Multiset.coe_nodup, ← Multiset.toFinset_card_eq_card_iff_nodup]
    exact le_antisymm (List.toFinset_card_le _) ((hall docID).trans (by rw [← toFinset_hits]; rfl))
  have hhits : (bi.hits D keys docID).count k = keys.count k :=
    List.count_filter (decide_eq_true ⟨hadm, hdoc⟩)
  have hkeys : (keys.filter fun k => bi.Admissible k).count k = keys.count k :=
    List.count_filter (decide_eq_true hadm)
  have hone := List.nodup_iff_count_le_one.mp hnodup k
  omega

/-- **The candidates are exact**, for every threshold, iff no bigram that counts comes up twice in
the query; and for one threshold iff what comes up often enough is shared often enough, and no
document of which more comes up shares less. -/
theorem exact_candidates_iff (u : Unicode) (ops : List Op) (query : String) :
    ((∀ minOverlap ord sorter,
        Exact (run u ops) (contents u ops) (queryKeys u query) minOverlap
          ((run u ops).candidates u ord sorter query minOverlap)) ↔
      ((queryKeys u query).filter fun k => Admissible (run u ops) k).Nodup) ∧
    ∀ minOverlap,
      (∀ ord sorter,
        Exact (run u ops) (contents u ops) (queryKeys u query) minOverlap
          ((run u ops).candidates u ord sorter query minOverlap)) ↔
      Agree (run u ops) (contents u ops) (queryKeys u query) minOverlap := by
  have h := indexes_run (u := u) ops
  refine ⟨⟨fun hall => h.nodup_of_length_hits fun docID => ?_, fun hnodup m => ?_⟩,
    fun m => h.exact_iff⟩
  · -- with the threshold at what comes up of the document
    have hagree := (h.exact_iff.mp
      (hall (hits (run u ops) (contents u ops) (queryKeys u query) docID).length)).1 docID
    have hle := card_shared_le (run u ops) (contents u ops) (queryKeys u query) docID
    omega
  · have heq := length_hits_of_nodup (D := contents u ops) hnodup
    refine h.exact_iff.mpr ⟨fun docID hm => ?_, fun docID docID' _ _ hle => ?_⟩
    · rwa [← heq]
    · rwa [← heq, ← heq]

/-- **A bigram that comes up twice counts twice**: a document with one bigram of the query is a
candidate for two. -/
theorem not_exact_candidates :
    ¬∀ (u : Unicode) (ops : List Op) (query : String) (minOverlap : ℤ)
      (ord : GoMap.RangeOrder (GoMap String ℕ)) (sorter : Sorting.Sorter (String × ℕ)),
      Exact (run u ops) (contents u ops) (queryKeys u query) minOverlap
        ((run u ops).candidates u ord sorter query minOverlap) := by
  intro hall
  let ops : List Op := [.add .default "a.go::Aab" ["aab"]]
  have hagree := (indexes_run (u := .ascii) ops).exact_iff.mp
    (hall .ascii ops "aaa" 2)
  have hshared := hagree.1 "a.go::Aab" (by decide +kernel)
  revert hshared
  decide +kernel

end BigramIndex

end Gortex
