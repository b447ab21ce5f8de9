import Mathlib.Analysis.SpecialFunctions.Log.Basic
import Mathlib.Data.Finset.Card
import Gortex.Graph.Invariant
import Gortex.Indexer.Indexer
import Gortex.Query.Engine
import Gortex.Search.BM25
import Gortex.Search.Candidates

/-!
# Exact names in a search

`SearchSymbols` lists the hits of the text index first, then the nodes whose name is the query,
then those whose name contains it, and stops as soon as the limit is reached. So a node whose name
is the query is sure to be listed if the limit has room for the hits as well
(`Gortex.exactNodes_complete`); a limit that only has room for the nodes of this name may be used
up by hits of other names (`Gortex.Lowered.not_exactComplete`). `SearchSymbolsInRepo` searches for
twice as many nodes in all repositories, and keeps the first ones of its own.
-/

namespace Gortex

open GoString

/-! ### The model -/

/-- The limit that a search goes by. -/
def effectiveLimit (limit : ℤ) : ℕ := if limit ≤ 0 then 20 else limit.toNat

/-- **SearchSymbolsInRepo.** -/
def searchSymbolsInRepo (en : Engine) (ord : MapOrder) (g : Graph) (query repoPrefix : String)
    (limit : ℤ) : List NodeRef :=
  let limit := effectiveLimit limit
  let candidates := searchSymbols en ord g query (limit * 2 : ℕ)
  (candidates.filter fun r => (g.node r).repoPrefix = repoPrefix).take limit

/-- **buildSearchIndex**, with a BM25 index: every node that belongs in it is a document, with its
name, its path and its signature. -/
def textIndex (idx : Indexer) (env : BM25Env) (enabled : Bool) (ord : MapOrder) (g : Graph) :
    BM25Backend :=
  ((g.allNodes ord).map g.node).foldl (fun b n =>
    if idx.shouldIndexForSearch n then
      b.add env n.id [n.name, n.filePath, n.metadata.getStr "signature"]
    else b) (newBM25 enabled)

/-- The BM25 index as the engine calls it. -/
def BM25Backend.backend {K : Type} [Field K] [LinearOrder K] (env : BM25Env)
    (scoreOrder : GoMap.RangeOrder (GoMap String K)) (log : K → K)
    (overlapOrder : GoMap.RangeOrder (GoMap String ℕ)) (sorter : Sorting.Sorter (String × ℕ))
    (b : BM25Backend) : Backend where
  count := b.count
  search query limit := (b.search env scoreOrder log query limit).map SearchResult.id
  bigramCandidates := some fun query minOverlap =>
    match b.bigrams with
    | some bi => bi.candidates env.unicode overlapOrder sorter query minOverlap
    | none => []

/-- **`sort.Slice` sorts**: for a comparison that orders all entries, what comes later is not to
come before. -/
def Engine.Sorts (en : Engine) : Prop :=
  ∀ {α : Type} (less : α → α → Bool),
    (∀ a b c, less b a = false → less c b = false → less c a = false) →
    (∀ a b, less a b = false ∨ less b a = false) →
    ∀ l, (en.sortSlice less l).Pairwise fun a b => less b a = false

/-! ### What is asked for, and what comes before -/

/-- The nodes whose name is the query, without files and imports. -/
def exactNodes (g : Graph) (query : String) : List NodeRef :=
  (g.findNodesByName query).filter fun r => searchable (g.node r)

/-- The nodes among the first hits of the text index, twice as many as the limit, without files
and imports. There are none without an index, or with an empty one. -/
def textHits (en : Engine) (g : Graph) (query : String) (limit : ℕ) : List NodeRef :=
  match en.searchProvider with
  | some b =>
    if 0 < b.count then
      ((b.search query (limit * 2)).filterMap g.getNode).filter fun r => searchable (g.node r)
    else []
  | none => []

/-- **What a limit has to have room for**: the hits, and the nodes whose name is the query. -/
def found (en : Engine) (g : Graph) (query : String) (limit : ℕ) : Finset NodeRef :=
  (textHits en g query limit ++ exactNodes g query).toFinset

/-! ### Collecting -/

section Collect

/-- What has been collected stays, in front. -/
theorem exists_collect_eq (g : Graph) (limit : ℕ) (accept : Node → Bool)
    (nodes out : List NodeRef) : ∃ more, collect g limit accept nodes out = out ++ more ∧
      ∀ r ∈ more, r ∈ nodes ∧ searchable (g.node r) = true := by
  induction nodes generalizing out with
  | nil => exact ⟨[], (List.append_nil out).symm, fun r hr => absurd hr List.not_mem_nil⟩
  | cons r nodes ih =>
    rw [collect, List.foldl_cons, ← collect]
    split
    · obtain ⟨more, heq, hmore⟩ := ih out
      exact ⟨more, heq, fun r' hr' => (hmore r' hr').imp_left (List.mem_cons_of_mem r)⟩
    · rename_i hnew
      push Not at hnew
      obtain ⟨more, heq, hmore⟩ := ih (out ++ [r])
      refine ⟨r :: more, by rw [heq, List.append_assoc, List.singleton_append], fun r' hr' => ?_⟩
      rcases List.mem_cons.mp hr' with rfl | hr'
      · exact ⟨List.mem_cons_self, by simpa using hnew.2.1⟩
      · exact (hmore r' hr').imp_left (List.mem_cons_of_mem r)

variable {g : Graph} {limit : ℕ}

theorem nodup_collect {accept : Node → Bool} (nodes : List NodeRef) {out : List NodeRef}
    (h : (out.map g.idOf).Nodup) : ((collect g limit accept nodes out).map g.idOf).Nodup := by
  induction nodes generalizing out with
  | nil => exact h
  | cons r nodes ih =>
    rw [collect, List.foldl_cons, ← collect]
    split
    · exact ih h
    · rename_i hnew
      push Not at hnew
      refine ih ?_
      rw [List.map_append, List.map_singleton]
      exact h.append (List.nodup_singleton _)
        (List.disjoint_singleton.mpr hnew.2.2.1)

/-- **What is looked at is collected**, unless the limit has been reached. -/
theorem mem_collect_or_le (accept : Node → Bool) {nodes out : List NodeRef} {r : NodeRef}
    (hr : r ∈ nodes) (hs : searchable (g.node r) = true) (ha : accept (g.node r) = true) :
    g.idOf r ∈ (collect g limit accept nodes out).map g.idOf ∨
      limit ≤ (collect g limit accept nodes out).length := by
  induction nodes generalizing out with
  | nil => exact absurd hr List.not_mem_nil
  | cons r' nodes ih =>
    rw [collect, List.foldl_cons, ← collect]
    rcases List.mem_cons.mp hr with rfl | hr
    · split
      · rename_i hskip
        obtain ⟨more, heq, -⟩ := exists_collect_eq g limit accept nodes out
        rcases hskip with hfull | hnot | hseen | hreject
        · right
          rw [heq, List.length_append]
          omega
        · exact absurd hs (by simp [hnot])
        · left
          rw [heq, List.map_append]
          exact List.mem_append_left _ hseen
        · exact absurd ha (by simp [hreject])
      · obtain ⟨more, heq, -⟩ := exists_collect_eq g limit accept nodes (out ++ [r])
        left
        rw [heq, List.append_assoc, List.map_append]
        exact List.mem_append_right _ List.mem_cons_self
    · exact ih hr

/-- **A full list stays as it is.** -/
theorem collect_of_le {accept : Node → Bool} (nodes : List NodeRef) {out : List NodeRef}
    (h : limit ≤ out.length) : collect g limit accept nodes out = out := by
  induction nodes with
  | nil => rfl
  | cons r nodes ih => rw [collect, List.foldl_cons, ← collect, if_pos (Or.inl h), ih]

end Collect

variable {en : Engine} {b : Backend} {ord : MapOrder} {g : Graph} {query : String} {limit : ℕ}

/-! ### The beginning of a result -/

theorem mem_exactNodes (h : g.NodeInv) {r : NodeRef} : r ∈ exactNodes g query ↔
    g.StoredNode r ∧ (g.node r).name = query ∧ searchable (g.node r) = true := by
  rw [exactNodes, List.mem_filter, h.mem_findNodesByName, and_assoc]

theorem nodup_exactNodes (h : g.NodeInv) : (exactNodes g query).Nodup :=
  ((h.nodup_flatMap_slice (fun i => (h i).name) query).of_map _).filter _

theorem storedNode_of_mem_found (h : g.NodeInv) {r : NodeRef}
    (hr : r ∈ found en g query limit) : g.StoredNode r := by
  rw [found, List.mem_toFinset, List.mem_append] at hr
  rcases hr with hr | hr
  · rw [textHits] at hr
    split at hr
    · split at hr
      · obtain ⟨hr, -⟩ := List.mem_filter.mp hr
        obtain ⟨id, -, hid⟩ := List.mem_filterMap.mp hr
        exact h.storedNode hid
      · exact absurd hr List.not_mem_nil
    · exact absurd hr List.not_mem_nil
  · exact ((mem_exactNodes h).mp hr).1

/-- **How a list begins**: with nodes that are found, among them all those whose name is the
query. -/
def BeginsExact (en : Engine) (g : Graph) (query : String) (limit : ℕ) (l : List NodeRef) : Prop :=
  ∃ front rest, l = front ++ rest ∧ front.Nodup ∧ (∀ r ∈ front, r ∈ found en g query limit) ∧
    ∀ r ∈ exactNodes g query, r ∈ front

/-- **With a backend**: a result that has room for what is found begins with it. -/
theorem beginsExact_searchWithBackend (h : g.NodeInv) (hb : en.searchProvider = some b)
    (hcount : 0 < b.count) (hroom : (found en g query limit).card ≤ limit) :
    BeginsExact en g query limit (searchWithBackend en b ord g query limit) := by
  let hits := (b.search query (limit * 2)).filterMap g.getNode
  let first := collect g limit (fun _ => true) hits []
  let front := collect g limit (fun _ => true) (g.findNodesByName query) first
  have hfirst : ∀ r ∈ first, r ∈ hits ∧ searchable (g.node r) = true := by
    obtain ⟨more, heq, hmore⟩ := exists_collect_eq g limit (fun _ => true) hits []
    have hmem : first = more := heq
    rwa [hmem]
  have hfound : ∀ r ∈ front, r ∈ found en g query limit := by
    obtain ⟨more, heq, hmore⟩ :=
      exists_collect_eq g limit (fun _ => true) (g.findNodesByName query) first
    have hmem : front = first ++ more := heq
    intro r hr
    rw [found, List.mem_toFinset, List.mem_append]
    rw [hmem, List.mem_append] at hr
    rcases hr with hr | hr
    · left
      rw [textHits, hb]
      simp only [if_pos hcount]
      exact List.mem_filter.mpr (hfirst r hr)
    · exact .inr (List.mem_filter.mpr (hmore r hr))
  have hids : (front.map g.idOf).Nodup := nodup_collect _ (nodup_collect _ List.nodup_nil)
  have hexact : ∀ r ∈ exactNodes g query, r ∈ front := by
    intro r hr
    obtain ⟨hname, hs⟩ := List.mem_filter.mp hr
    rcases mem_collect_or_le (fun _ => true) hname hs rfl with hid | hfull
    · -- a node of this ID is this node
      obtain ⟨r', hr', heq⟩ := List.mem_map.mp hid
      have hst := storedNode_of_mem_found h (hfound r' hr')
      rwa [← hst.eq_of_id ((mem_exactNodes h).mp hr).1 heq]
    · -- the result is full of what is found, and leaves nothing of it out
      have hcard : front.toFinset.card = front.length :=
        List.toFinset_card_of_nodup hids.of_map
      have hsub : front.toFinset ⊆ found en g query limit :=
        fun r' hr' => hfound r' (List.mem_toFinset.mp hr')
      have hall := Finset.eq_of_subset_of_card_le hsub (hcard ▸ hroom.trans hfull)
      rw [← List.mem_toFinset, hall, found, List.mem_toFinset]
      exact List.mem_append_right _ hr
  -- what is collected later is appended
  have hbegin : ∀ l, front <+: l → BeginsExact en g query limit l := by
    rintro l ⟨rest, rfl⟩
    exact ⟨front, rest, rfl, hids.of_map, hfound, hexact⟩
  apply hbegin
  obtain ⟨more, heq, -⟩ := exists_collect_eq g limit
    (fun n => contains (en.toLower n.name) (en.toLower query)) (g.allNodes ord) front
  have hnames : front <+: collect g limit
      (fun n => contains (en.toLower n.name) (en.toLower query)) (g.allNodes ord) front :=
    ⟨more, heq.symm⟩
  rw [searchWithBackend]
  split
  · split
    · obtain ⟨more', heq', -⟩ := exists_collect_eq g limit (fun _ => true) _ _
      exact hnames.trans ⟨more', heq'.symm⟩
    · exact hnames
  · exact hnames

/-- **Hits that fill the limit** are all of the result. -/
theorem searchWithBackend_of_le (hpos : 0 < limit)
    (hfull : limit ≤ (collect g limit (fun _ => true)
      ((b.search query (limit * 2)).filterMap g.getNode) []).length) :
    searchWithBackend en b ord g query limit = collect g limit (fun _ => true)
      ((b.search query (limit * 2)).filterMap g.getNode) [] := by
  have hne : collect g limit (fun _ => true)
      ((b.search query (limit * 2)).filterMap g.getNode) [] ≠ [] :=
    List.ne_nil_of_length_pos (hpos.trans_le hfull)
  rw [searchWithBackend, collect_of_le _ hfull, collect_of_le _ hfull]
  exact if_neg fun hempty => hne hempty.1

theorem substringScore_ne_zero (en : Engine) (query : String) (n : Node) :
    substringScore en query n ≠ some 0 := by
  simp only [substringScore]
  split_ifs <;> simp

/-- The nodes whose name is the query keep their places at the beginning, and no other has their
score. -/
theorem exists_scored_eq (en : Engine) (g : Graph) (query : String) (nodes : List NodeRef)
    (results : List (NodeRef × ℕ)) :
    ∃ more : List (NodeRef × ℕ), nodes.foldl (fun (results : List (NodeRef × ℕ)) r =>
      if g.idOf r ∈ results.map (fun p => g.idOf p.1) ∨ searchable (g.node r) = false then results
      else
        match substringScore en query (g.node r) with
        | some score => results ++ [(r, score)]
        | none => results) results = results ++ more ∧ ∀ p ∈ more, p.2 ≠ 0 := by
  induction nodes generalizing results with
  | nil => exact ⟨[], (List.append_nil results).symm, fun p hp => absurd hp List.not_mem_nil⟩
  | cons r nodes ih =>
    rw [List.foldl_cons]
    split
    · exact ih results
    · split
      · rename_i score hscore
        obtain ⟨more, heq, hmore⟩ := ih (results ++ [(r, score)])
        refine ⟨(r, score) :: more, ?_, fun p hp => ?_⟩
        · rw [heq, List.append_assoc, List.singleton_append]
        rcases List.mem_cons.mp hp with rfl | hp
        · rintro rfl
          exact substringScore_ne_zero en query (g.node r) hscore
        · exact hmore p hp
      · exact ih results

/-- **Without a backend**: what is found are the nodes whose name is the query, and they come
first. -/
theorem beginsExact_searchSubstring (h : g.NodeInv) (hsort : en.Sorts)
    (hroom : (exactNodes g query).length ≤ limit) :
    BeginsExact en g query limit (searchSubstring en ord g query limit) := by
  obtain ⟨more, heq, hmore⟩ := exists_scored_eq en g query (g.allNodes ord)
    ((exactNodes g query).map fun r => (r, 0))
  let less := fun a b : NodeRef × ℕ =>
    if a.2 ≠ b.2 then decide (a.2 < b.2)
    else decide ((g.node a.1).name.utf8ByteSize < (g.node b.1).name.utf8ByteSize)
  let results := (exactNodes g query).map (fun r => (r, 0)) ++ more
  let sorted := en.sortSlice less results
  let front := (sorted.filter fun p => p.2 = 0).map Prod.fst
  have hsearch : searchSubstring en ord g query limit = (sorted.take limit).map Prod.fst :=
    congrArg (fun l => ((en.sortSlice less l).take limit).map Prod.fst) heq
  have hperm : front.Perm (exactNodes g query) := by
    have hzero : (results.filter fun p => p.2 = 0) = (exactNodes g query).map fun r => (r, 0) := by
      have hnone : (more.filter fun p => p.2 = 0) = [] :=
        List.filter_eq_nil_iff.mpr fun p hp => by simpa using hmore p hp
      rw [List.filter_append, hnone, List.append_nil, List.filter_eq_self]
      simp
    have hfront := ((en.sortSlice_perm less results).filter fun p => p.2 = 0).map Prod.fst
    rw [hzero, List.map_map] at hfront
    simpa [Function.comp_def] using hfront
  have hsorted : sorted =
      (sorted.filter fun p => p.2 = 0) ++ sorted.filter fun p => !decide (p.2 = 0) := by
    have hless := hsort less (fun a b c => by simp only [less]; split_ifs <;> simp <;> omega)
      (fun a b => by simp only [less]; split_ifs <;> simp <;> omega) results
    refine Sorting.eq_filter_append (hless.imp fun {a b} hab hb => ?_)
    simp only [less, decide_eq_true_eq] at hab hb ⊢
    split_ifs at hab <;> simp at hab <;> omega
  have hlen : front.length ≤ limit := hperm.length_eq.trans_le hroom
  refine ⟨front, ((sorted.filter fun p => !decide (p.2 = 0)).take (limit - front.length)).map
    Prod.fst, ?_, hperm.nodup_iff.mpr (nodup_exactNodes h), fun r hr => ?_,
    fun r hr => hperm.mem_iff.mpr hr⟩
  · have hlen' : (sorted.filter fun p => p.2 = 0).length = front.length := by
      rw [List.length_map]
    rw [hsearch]
    conv_lhs => rw [hsorted]
    rw [List.take_append, List.take_of_length_le (hlen'.trans_le hlen), hlen', List.map_append]
  · rw [found, List.mem_toFinset]
    exact List.mem_append_right _ (hperm.mem_iff.mp hr)

/-- **A search begins with the nodes whose name is the query**, if it has room for them and for
what comes before. -/
theorem beginsExact_searchSymbols (ord : MapOrder) (h : g.NodeInv) (hsort : en.Sorts) {limit : ℤ}
    (hroom : (found en g query (effectiveLimit limit)).card ≤ effectiveLimit limit) :
    BeginsExact en g query (effectiveLimit limit) (searchSymbols en ord g query limit) := by
  have hexact : (exactNodes g query).length ≤ effectiveLimit limit := by
    rw [← List.toFinset_card_of_nodup (nodup_exactNodes h)]
    refine (Finset.card_le_card fun r hr => ?_).trans hroom
    rw [found, List.mem_toFinset]
    exact List.mem_append_right _ (List.mem_toFinset.mp hr)
  rw [searchSymbols, ← effectiveLimit]
  split
  · rename_i b hb
    split
    · rename_i hcount
      exact beginsExact_searchWithBackend h hb hcount hroom
    · exact beginsExact_searchSubstring h hsort hexact
  · exact beginsExact_searchSubstring h hsort hexact

/-- The nodes of a repository are at the beginning of its part of the list. -/
theorem BeginsExact.mem_take {l : List NodeRef} (hl : BeginsExact en g query limit l)
    (p : NodeRef → Bool) {n : ℕ} (hroom : ((found en g query limit).filter (p ·)).card ≤ n)
    {r : NodeRef} (hr : r ∈ exactNodes g query) (hp : p r = true) :
    r ∈ (l.filter p).take n := by
  obtain ⟨front, rest, rfl, hnodup, hfound, hexact⟩ := hl
  have hlen : (front.filter p).length ≤ n := by
    rw [← List.toFinset_card_of_nodup (hnodup.filter p)]
    refine (Finset.card_le_card fun r hr => ?_).trans hroom
    obtain ⟨hr, hp⟩ := List.mem_filter.mp (List.mem_toFinset.mp hr)
    exact Finset.mem_filter.mpr ⟨hfound r hr, hp⟩
  rw [List.filter_append, List.take_append, List.take_of_length_le hlen]
  exact List.mem_append_left _ (List.mem_filter.mpr ⟨hexact r hr, hp⟩)

/-! ### Completeness -/

/-- **All nodes whose name is the query are listed.** -/
def ExactComplete (en : Engine) (ord : MapOrder) (g : Graph) (query : String) (limit : ℤ) : Prop :=
  ∀ r ∈ exactNodes g query, r ∈ searchSymbols en ord g query limit

/-- **All nodes of a repository whose name is the query are listed.** -/
def ExactCompleteInRepo (en : Engine) (ord : MapOrder) (g : Graph) (query repoPrefix : String)
    (limit : ℤ) : Prop :=
  ∀ r ∈ exactNodes g query, (g.node r).repoPrefix = repoPrefix →
    r ∈ searchSymbolsInRepo en ord g query repoPrefix limit

/-- **A limit with room for the hits of the text index and the nodes whose name is the query**
lists all of these nodes; within a repository, if there is room for those of the repository, and
in twice the limit for all of them. -/
theorem exactNodes_complete (h : g.NodeInv) (hsort : en.Sorts) (ord : MapOrder) (query : String)
    (repoPrefix : String) (limit : ℤ) :
    ((found en g query (effectiveLimit limit)).card ≤ effectiveLimit limit →
      ExactComplete en ord g query limit) ∧
    ((found en g query (effectiveLimit limit * 2)).card ≤ effectiveLimit limit * 2 →
      ((found en g query (effectiveLimit limit * 2)).filter fun r =>
        (g.node r).repoPrefix = repoPrefix).card ≤ effectiveLimit limit →
      ExactCompleteInRepo en ord g query repoPrefix limit) := by
  constructor
  · intro hroom r hr
    obtain ⟨front, rest, heq, -, -, hexact⟩ := beginsExact_searchSymbols ord h hsort hroom
    rw [heq]
    exact List.mem_append_left _ (hexact r hr)
  · intro hroom hrepo r hr hp
    have hlimit : effectiveLimit (effectiveLimit limit * 2 : ℕ) = effectiveLimit limit * 2 := by
      have hpos : 0 < effectiveLimit limit := by
        rw [effectiveLimit]
        split_ifs <;> omega
      rw [effectiveLimit, if_neg (by omega), Int.toNat_natCast]
    rw [← hlimit] at hroom hrepo
    refine (beginsExact_searchSymbols ord h hsort hroom).mem_take
      (fun r => decide ((g.node r).repoPrefix = repoPrefix)) ?_ hr (decide_eq_true hp)
    simpa only [decide_eq_true_eq] using hrepo

namespace Lowered

/-! #### A hit whose name is the query in small letters

A query is one token where the index splits a name at its capitals: the node whose name is the
query is not among the hits, and another one is. -/

/-- The function whose name is the query. -/
def newServer : Node :=
  { id := "a.go::newServer", kind := .kindFunction, name := "newServer", filePath := "a.go" }

/-- The function whose name is the query in small letters. -/
def newserver : Node :=
  { id := "b.go::newserver", kind := .kindFunction, name := "newserver", filePath := "b.go" }

def graph : Graph := (Graph.new.putNode newServer).putNode newserver

def env : BM25Env := ⟨.ascii, .default, .default⟩

/-- The text index of the graph. -/
def index : BM25Backend := textIndex { registry := {} } env false .default graph

theorem nodeInv : graph.NodeInv := ((Graph.Inv.new.putNode newServer).putNode newserver).nodes

theorem exactNodes_eq : exactNodes graph "newServer" = [⟨0⟩] := by decide +kernel

theorem getNode_eq : graph.getNode newserver.id = some ⟨1⟩ := by decide +kernel

theorem searchable_eq : searchable (graph.node ⟨1⟩) = true := by decide +kernel

/-- **There is one hit**, whatever the scores are. -/
theorem search_index {K : Type} [Field K] [LinearOrder K] (log : K → K) (n : ℕ) :
    (index.search env .default log "newServer" (n + 1)).map SearchResult.id = [newserver.id] := by
  have hcount : index.count ≠ 0 := by decide +kernel
  have htokens : Unicode.ascii.tokenizeQuery "newServer" = ["newserver"] := by decide +kernel
  have hpostings : Grouped.slice index.inverted "newserver" = [⟨newserver.id, 1⟩] := by
    decide +kernel
  have hdoc : (index.docs.lookup newserver.id).isSome = true := by decide +kernel
  obtain ⟨d, hd⟩ := Option.isSome_iff_exists.mp hdoc
  have hscores : ∃ score, index.scores .ascii log "newServer" =
      (∅ : GoMap String K).insert newserver.id score := by
    rw [BM25Backend.scores, if_neg hcount, htokens, List.foldl_cons, List.foldl_nil,
      BM25Backend.scoreTerm, hpostings, List.foldl_cons, List.foldl_nil, BM25Backend.scorePosting,
      hd]
    exact ⟨_, rfl⟩
  obtain ⟨score, hscore⟩ := hscores
  have hpairs : GoMap.pairs ((∅ : GoMap String K).insert newserver.id score) =
      [(newserver.id, score)] := rfl
  simp only [BM25Backend.search, env, hscore, hpairs, GoMap.RangeOrder.default,
    List.mergeSort_singleton, List.take_succ_cons, List.take_nil, List.map_cons, List.map_nil]

/-- The index as the engine calls it. -/
noncomputable def backend : Backend :=
  index.backend env .default Real.log .default (.insertion _)

/-- The engine with the index. -/
noncomputable def engine : Engine := { Engine.plain with searchProvider := some backend }

theorem count_pos : 0 < backend.count := by
  have hcount : index.count = 2 := by decide +kernel
  rw [backend, BM25Backend.backend, hcount]
  exact Nat.zero_lt_two

theorem hits_eq (n : ℕ) :
    (backend.search "newServer" (n + 1)).filterMap graph.getNode = [⟨1⟩] := by
  have hsearch : backend.search "newServer" (n + 1) = [newserver.id] := search_index Real.log n
  rw [hsearch, List.filterMap_cons, getNode_eq, List.filterMap_nil]

theorem found_eq (n : ℕ) : found engine graph "newServer" (n + 1) = {⟨1⟩, ⟨0⟩} := by
  have hhits : textHits engine graph "newServer" (n + 1) = [⟨1⟩] := by
    have htwice : (n + 1) * 2 = n * 2 + 1 + 1 := by omega
    rw [textHits, engine]
    simp only [if_pos count_pos, htwice, hits_eq]
    exact List.filter_cons_of_pos searchable_eq
  rw [found, hhits, exactNodes_eq]
  rfl

theorem sorts_engine : engine.Sorts :=
  fun less htrans htotal l => (Sorting.Sorter.stable _).sorted less htrans htotal l

/-- A limit with room for the hit lists the node whose name is the query. -/
theorem exactComplete_two : ExactComplete engine .default graph "newServer" 2 ∧
    ExactCompleteInRepo engine .default graph "newServer" "" 2 := by
  have hcard : ({⟨1⟩, ⟨0⟩} : Finset NodeRef).card ≤ 2 := Finset.card_le_two
  have hcomplete := exactNodes_complete nodeInv sorts_engine .default "newServer" "" 2
  refine ⟨hcomplete.1 ?_, hcomplete.2 ?_ ?_⟩
  · rw [show effectiveLimit 2 = 1 + 1 from rfl, found_eq]
    exact hcard
  · rw [show effectiveLimit 2 * 2 = 3 + 1 from rfl, found_eq]
    exact hcard.trans (by omega)
  · rw [show effectiveLimit 2 * 2 = 3 + 1 from rfl, found_eq]
    exact (Finset.card_filter_le _ _).trans hcard

/-- **The hit uses the limit up**: the one node whose name is the query is not listed. -/
theorem not_exactComplete : (exactNodes graph "newServer").length ≤ 1 ∧
    ¬ExactComplete engine .default graph "newServer" 1 := by
  have hone : collect graph 1 (fun _ => true)
      ((backend.search "newServer" (1 * 2)).filterMap graph.getNode) [] = [⟨1⟩] := by
    rw [hits_eq]
    simp [collect, searchable_eq]
  have hsearch : searchSymbols engine .default graph "newServer" 1 = [⟨1⟩] := by
    rw [searchSymbols, engine]
    simp only [if_pos count_pos]
    refine (searchWithBackend_of_le Nat.one_pos ?_).trans hone
    exact hone ▸ le_rfl
  refine ⟨by rw [exactNodes_eq]; rfl, fun h => ?_⟩
  have hmem := h ⟨0⟩ (exactNodes_eq ▸ List.mem_singleton.mpr rfl)
  rw [hsearch, List.mem_singleton] at hmem
  cases hmem

end Lowered

end Gortex
