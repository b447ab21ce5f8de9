import Mathlib.Algebra.Order.Field.Basic
import Mathlib.Algebra.BigOperators.Group.List.Basic
import Mathlib.Tactic.NormNum
import Mathlib.Tactic.Positivity
import Gortex.Lib.GoString
import Gortex.Search.Bigram

/-!
# The text search index

`internal/search/bm25.go`: an inverted index with BM25 scores. A document is a list of
fields, and every token of a field has a posting for the document with its frequency;
beside the postings the index keeps the documents with their lengths, the sum of the
lengths, and the bigram index if that is enabled.

A sequence of Add and Remove leaves behind the documents that were added last and not
removed. `Gortex.BM25Backend.Holds` says which state of the index holds given documents:
the postings of a document in the list of a term, in particular, are at most one, so
everything that Search computes is determined by the documents
(`Gortex.BM25Backend.history_independent`). Scores are elements of an ordered field, and
the logarithm is a parameter.
-/

namespace Gortex

open Grouped

/-- The length of a document, and its term frequencies. -/
structure Doc where
  len : ℕ
  terms : GoMap String ℕ

/-- A document of a term, with the frequency of the term in it. -/
structure Posting where
  docID : String
  freq : ℕ
deriving DecidableEq, Repr

structure BM25Backend where
  docs : GoMap String Doc := ∅
  inverted : GoMap String (List Posting) := ∅
  totalLen : ℤ := 0
  bigrams : Option BigramIndex := none

/-- A document that Search returns. -/
structure SearchResult (K : Type) where
  id : String
  score : K

/-- What the index takes from its surroundings: the Unicode tables, and the orders of its
loops over maps. -/
structure BM25Env where
  unicode : Unicode
  termOrder : GoMap.RangeOrder BM25Backend
  bigramOrder : GoMap.RangeOrder BigramIndex

/-- Whether the value of `GORTEX_BIGRAM_TYPOS` enables the bigram index. -/
def bigramIndexEnabled (u : Unicode) (v : String) : Bool :=
  u.toLower (GoString.trimSpace v) ∈ ["1", "true", "yes", "on", "y"]

/-- **NewBM25.** -/
def newBM25 (enabled : Bool) : BM25Backend :=
  { bigrams := if enabled then some {} else none }

namespace BM25Backend

variable (env : BM25Env)

/-! ### Adding and removing -/

/-- The tokens of all fields. -/
def allTokens (u : Unicode) (fields : List String) : List String := fields.flatMap u.tokenize

/-- The document of a list of tokens. -/
def docOf (tokens : List String) : Doc := ⟨tokens.length, tokens.foldl GoMap.bump ∅⟩

/-- Remove the first posting of a document from the list of a term, if there is one. -/
def takePosting (id : String) (m : GoMap String (List Posting)) (term : String) :
    GoMap String (List Posting) :=
  if (slice m term).any fun p => p.docID = id then
    m.insert term ((slice m term).eraseP fun p => p.docID = id)
  else m

/-- Delete the list of a term if it is empty. -/
def dropEmpty (m : GoMap String (List Posting)) (term : String) : GoMap String (List Posting) :=
  if slice m term = [] then m.erase term else m

/-- Remove a document from the list of a term. -/
def dropPosting (id : String) (m : GoMap String (List Posting)) (term : String) :
    GoMap String (List Posting) :=
  dropEmpty (takePosting id m term) term

def removeLocked (b : BM25Backend) (id : String) : BM25Backend :=
  match b.docs.lookup id with
  | none => b
  | some d =>
    { docs := b.docs.erase id
      inverted := ((env.termOrder.order b d.terms.pairs).map Prod.fst).foldl (dropPosting id) b.inverted
      totalLen := b.totalLen - d.len
      bigrams := b.bigrams.map fun bi => bi.remove id }

/-- **Add** indexes a document, in the place of an older version. -/
def add (b : BM25Backend) (id : String) (fields : List String) : BM25Backend :=
  let tokens := allTokens env.unicode fields
  let b := b.removeLocked env id
  let d := docOf tokens
  { docs := b.docs.insert id d
    inverted := (env.termOrder.order b d.terms.pairs).foldl (fun m p => push m p.1 ⟨id, p.2⟩) b.inverted
    totalLen := b.totalLen + d.len
    bigrams := b.bigrams.map fun bi => bi.add env.unicode env.bigramOrder id tokens }

/-- **Remove** deletes a document. -/
def remove (b : BM25Backend) (id : String) : BM25Backend := b.removeLocked env id

/-! ### Searching -/

/-- The number of documents. -/
def count (b : BM25Backend) : ℕ := b.docs.pairs.length

section Search

variable {K : Type} [Field K]

def bm25K1 : K := (12 : ℕ) / (10 : ℕ)

def bm25B : K := (75 : ℕ) / (100 : ℕ)

/-- The average length of a document. -/
def avgLen (b : BM25Backend) : K := (b.totalLen : K) / (b.count : K)

/-- What the inverse document frequency divides by. -/
def idfDenominator (df : ℕ) : K := df + 1 / (2 : ℕ)

/-- The weight of a term that occurs in `df` of `docCount` documents. -/
def idf (log : K → K) (docCount df : ℕ) : K :=
  log ((docCount - df + 1 / (2 : ℕ)) / idfDenominator df + 1)

/-- What the score divides by: the frequency, and the length of the document against the
average. -/
def scoreDenominator (avg : K) (freq len : ℕ) : K :=
  freq + bm25K1 * (1 - bm25B + bm25B * len / avg)

/-- The score of one posting. -/
def postingScore (log : K → K) (docCount df : ℕ) (avg : K) (freq len : ℕ) : K :=
  idf log docCount df * (freq * (bm25K1 + 1)) / scoreDenominator avg freq len

/-- Add the score of a posting of a term of `df` postings. -/
def scorePosting (log : K → K) (b : BM25Backend) (df : ℕ) (scores : GoMap String K) (p : Posting) :
    GoMap String K :=
  match b.docs.lookup p.docID with
  | none => scores
  | some d => scores.insert p.docID
      ((scores.lookup p.docID).getD 0 + postingScore log b.count df b.avgLen p.freq d.len)

/-- Add the scores of a term. -/
def scoreTerm (log : K → K) (b : BM25Backend) (scores : GoMap String K) (term : String) :
    GoMap String K :=
  (slice b.inverted term).foldl (scorePosting log b (slice b.inverted term).length) scores

/-- The scores of the documents for a query. -/
def scores (u : Unicode) (log : K → K) (b : BM25Backend) (query : String) : GoMap String K :=
  if b.count = 0 then ∅ else (u.tokenizeQuery query).foldl (scoreTerm log b) ∅

/-- **Search** returns the documents of the highest scores; among documents of one score the
order is that of the loop over the scores. -/
def search [LinearOrder K] (ord : GoMap.RangeOrder (GoMap String K)) (log : K → K) (b : BM25Backend)
    (query : String) (limit : ℕ) : List (SearchResult K) :=
  let scores := b.scores env.unicode log query
  (((ord.order scores scores.pairs).mergeSort fun p q => decide (q.2 ≤ p.2)).take limit).map
    fun p => ⟨p.1, p.2⟩

end Search

/-! ### The state of a set of documents -/

/-- The posting of a document in the list of a term. -/
def postingOf (P : BigramIndex.Docs) (term id : String) : List Posting :=
  ((P id).map fun tokens => if term ∈ tokens then [⟨id, tokens.count term⟩] else []).getD []

/-- **No empty list is kept.** -/
def Tidy (m : GoMap String (List Posting)) : Prop := ∀ term, m.lookup term ≠ some []

/-- The sum of the lengths of the documents. -/
def lengths (m : GoMap String Doc) : ℤ := (m.pairs.map fun p => (p.2.len : ℤ)).sum

/-- **The index holds the documents that are present**, and nothing else. -/
structure Holds (u : Unicode) (enabled : Bool) (b : BM25Backend) (P : BigramIndex.Docs) : Prop where
  docs : ∀ id, b.docs.lookup id = (P id).map docOf
  postings : ∀ term id,
    (slice b.inverted term).filter (fun p => p.docID = id) = postingOf P term id
  tidy : Tidy b.inverted
  totalLen : b.totalLen = lengths b.docs
  enabled : b.bigrams.isSome = enabled
  bigrams : ∀ bi, b.bigrams = some bi → bi.Holds u P

variable {env} {u : Unicode} {enabled : Bool} {b b' : BM25Backend} {P : BigramIndex.Docs}

theorem Holds.new (enabled : Bool) : Holds u enabled (newBM25 enabled) fun _ => none := by
  cases enabled with
  | false => exact ⟨fun _ => rfl, fun _ _ => rfl, fun _ => nofun, rfl, rfl, nofun⟩
  | true =>
    refine ⟨fun _ => rfl, fun _ _ => rfl, fun _ => nofun, rfl, rfl, fun bi hbi => ?_⟩
    cases hbi
    exact BigramIndex.Holds.empty

/-! ### The postings of a term -/

theorem postingOf_update (P : BigramIndex.Docs) (id : String) (v : Option (List String))
    (term id' : String) : postingOf (Function.update P id v) term id' =
      if id' = id then
        (v.map fun tokens => if term ∈ tokens then [⟨id, tokens.count term⟩] else []).getD []
      else postingOf P term id' := by
  unfold postingOf
  by_cases hid : id' = id
  · rw [if_pos hid, hid, Function.update_self]
  · rw [if_neg hid, Function.update_of_ne hid]

/-- Taking the first posting of a document out of a list. -/
theorem filter_eraseP (l : List Posting) (id id' : String) :
    (l.eraseP fun p => p.docID = id).filter (fun p => p.docID = id') =
      if id' = id then (l.filter fun p => p.docID = id').tail
      else l.filter fun p => p.docID = id' := by
  induction l with
  | nil => simp
  | cons p l ih =>
    by_cases hp : p.docID = id
    · rw [List.eraseP_cons, cond_eq_ite, if_pos (decide_eq_true hp)]
      by_cases hid : id' = id
      · rw [if_pos hid, List.filter_cons, if_pos (decide_eq_true (hp.trans hid.symm)), List.tail_cons]
      · have hne : p.docID ≠ id' := fun hc => hid (hc.symm.trans hp)
        rw [if_neg hid, List.filter_cons, if_neg (by simpa using hne)]
    · rw [List.eraseP_cons, cond_eq_ite, if_neg (by simpa using hp), List.filter_cons, ih,
        List.filter_cons]
      by_cases hid : id' = id
      · have hne : ¬decide (p.docID = id') = true := by simpa using fun hc => hp (hc.trans hid)
        rw [if_pos hid, if_pos hid, if_neg hne, if_neg hne]
      · rw [if_neg hid, if_neg hid]

theorem slice_takePosting (id : String) (m : GoMap String (List Posting)) (term k : String) :
    slice (takePosting id m term) k =
      if k = term then (slice m k).eraseP (fun p => p.docID = id) else slice m k := by
  unfold takePosting
  by_cases hany : (slice m term).any (fun p => p.docID = id) = true
  · rw [if_pos hany, slice_insert]
    by_cases hk : k = term
    · rw [if_pos hk, if_pos hk, hk]
    · rw [if_neg hk, if_neg hk]
  · rw [if_neg hany]
    by_cases hk : k = term
    · rw [if_pos hk, hk, List.eraseP_of_forall_not]
      intro p hp hc
      exact hany (List.any_eq_true.mpr ⟨p, hp, hc⟩)
    · rw [if_neg hk]

theorem slice_dropEmpty (m : GoMap String (List Posting)) (term k : String) :
    slice (dropEmpty m term) k = slice m k := by
  unfold dropEmpty
  by_cases hnil : slice m term = []
  · rw [if_pos hnil, slice_erase]
    by_cases hk : k = term
    · rw [if_pos hk, hk, hnil]
    · rw [if_neg hk]
  · rw [if_neg hnil]

theorem slice_dropPosting (id : String) (m : GoMap String (List Posting)) (term k : String) :
    slice (dropPosting id m term) k =
      if k = term then (slice m k).eraseP (fun p => p.docID = id) else slice m k :=
  (slice_dropEmpty _ term k).trans (slice_takePosting id m term k)

theorem Tidy.lookup {m : GoMap String (List Posting)} (h : Tidy m) (term : String) :
    m.lookup term = if slice m term = [] then none else some (slice m term) := by
  unfold slice
  cases hm : m.lookup term with
  | none => rw [Option.getD_none, if_pos rfl]
  | some l =>
    rw [Option.getD_some, if_neg]
    exact fun hl => h term (hl ▸ hm)

theorem Tidy.dropPosting {m : GoMap String (List Posting)} (h : Tidy m) (id term : String) :
    Tidy (dropPosting id m term) := fun k hk => by
  unfold BM25Backend.dropPosting dropEmpty at hk
  by_cases hkt : k = term
  · -- at the term itself: an empty list has been deleted
    subst hkt
    split at hk
    · rw [GoMap.lookup_erase, if_pos rfl] at hk
      cases hk
    · next hnil =>
      refine hnil ?_
      rw [slice, hk, Option.getD_some]
  · have htake : (takePosting id m term).lookup k = m.lookup k := by
      unfold takePosting
      split
      · rw [GoMap.lookup_insert, if_neg hkt]
      · rfl
    refine h k (htake.symm.trans ?_)
    split at hk
    · rwa [GoMap.lookup_erase, if_neg hkt] at hk
    · exact hk

theorem Tidy.push {m : GoMap String (List Posting)} (h : Tidy m) (term : String) (p : Posting) :
    Tidy (push m term p) := fun k hk => by
  rw [Grouped.push, GoMap.lookup_insert] at hk
  split at hk
  · exact absurd (Option.some.inj hk) (List.append_ne_nil_of_right_ne_nil _ (List.cons_ne_nil _ _))
  · exact h k hk

/-- The frequencies of a document. -/
theorem lookup_terms (tokens : List String) (term : String) :
    (docOf tokens).terms.lookup term = if term ∈ tokens then some (tokens.count term) else none := by
  rw [docOf, GoMap.lookup_foldl_bump, AList.lookup_empty, Option.getD_none, Nat.zero_add]

/-- The list of a term after a document has been dropped from the terms it contains. -/
theorem slice_foldl_dropPosting {l : List (String × ℕ)} {tokens : List String}
    (hl : l.Perm (docOf tokens).terms.pairs) (id : String) (m : GoMap String (List Posting))
    (k : String) : slice ((l.map Prod.fst).foldl (dropPosting id) m) k =
      if k ∈ tokens then (slice m k).eraseP (fun p => p.docID = id) else slice m k := by
  rw [List.foldl_map, List.foldl_read slice Prod.fst
    (fun (v : List Posting) (_ : String × ℕ) => v.eraseP fun p => p.docID = id)
    (fun m p => slice_dropPosting id m p.1), GoMap.filter_pairs hl, lookup_terms]
  by_cases hk : k ∈ tokens
  · rw [if_pos hk, if_pos hk]
    rfl
  · rw [if_neg hk, if_neg hk]
    rfl

/-- The list of a term after a document has been pushed to the terms it contains. -/
theorem slice_foldl_push {l : List (String × ℕ)} {tokens : List String}
    (hl : l.Perm (docOf tokens).terms.pairs) (id : String) (m : GoMap String (List Posting))
    (k : String) : slice (l.foldl (fun m p => push m p.1 ⟨id, p.2⟩) m) k =
      if k ∈ tokens then slice m k ++ [⟨id, tokens.count k⟩] else slice m k := by
  rw [List.foldl_read slice Prod.fst
    (fun (v : List Posting) (p : String × ℕ) => v ++ [⟨id, p.2⟩]) ?_,
    GoMap.filter_pairs hl, lookup_terms]
  · by_cases hk : k ∈ tokens
    · rw [if_pos hk, if_pos hk]
      rfl
    · rw [if_neg hk, if_neg hk]
      rfl
  · intro m p k
    rw [push, slice_insert]
    by_cases hk : k = p.1
    · rw [if_pos hk, if_pos hk, hk]
    · rw [if_neg hk, if_neg hk]

/-! ### One operation -/

theorem lengths_insert {m : GoMap String Doc} {id : String} (h : m.lookup id = none) (d : Doc) :
    lengths (m.insert id d) = d.len + lengths m :=
  ((GoMap.perm_pairs_insert h d).map _).sum_eq.trans List.sum_cons

theorem lengths_erase {m : GoMap String Doc} {id : String} {d : Doc} (h : m.lookup id = some d) :
    lengths (m.erase id) = lengths m - d.len := by
  have hsum : lengths m = d.len + lengths (m.erase id) :=
    ((GoMap.perm_pairs_erase h).map _).sum_eq.trans List.sum_cons
  omega

/-- **Removing a document**, present or not. -/
theorem Holds.removeLocked (h : Holds env.unicode enabled b P) (id : String) :
    Holds env.unicode enabled (b.removeLocked env id) (Function.update P id none) := by
  unfold BM25Backend.removeLocked
  have hdoc := h.docs id
  cases hP : P id with
  | none =>
    rw [hP, Option.map_none] at hdoc
    rw [hdoc, ← hP, Function.update_eq_self]
    exact h
  | some tokens =>
    rw [hP, Option.map_some] at hdoc
    simp only [hdoc]
    have hperm := env.termOrder.perm b (docOf tokens).terms.pairs
    refine ⟨fun id' => ?_, fun term id' => ?_, ?_, ?_, ?_, fun bi hbi => ?_⟩
    · rw [GoMap.lookup_erase]
      by_cases hid : id' = id
      · rw [if_pos hid, hid, Function.update_self, Option.map_none]
      · rw [if_neg hid, Function.update_of_ne hid, h.docs]
    · rw [slice_foldl_dropPosting hperm, postingOf_update, Option.map_none, Option.getD_none]
      by_cases hterm : term ∈ tokens
      · rw [if_pos hterm, filter_eraseP, h.postings]
        by_cases hid : id' = id
        · -- the document had one posting in the list
          rw [if_pos hid, if_pos hid, hid, postingOf, hP, Option.map_some, if_pos hterm]
          rfl
        · rw [if_neg hid, if_neg hid]
      · rw [if_neg hterm, h.postings]
        by_cases hid : id' = id
        · rw [if_pos hid, hid, postingOf, hP, Option.map_some, if_neg hterm]
          rfl
        · rw [if_neg hid]
    · exact List.foldl_invariant (P := Tidy) (fun m term _ hm => hm.dropPosting id term) h.tidy
    · rw [lengths_erase hdoc, h.totalLen]
    · rw [Option.isSome_map, h.enabled]
    · obtain ⟨bi', hbi', rfl⟩ := Option.map_eq_some_iff.mp hbi
      exact (h.bigrams bi' hbi').remove id

/-- **Add** leaves the document behind, whatever was there before. -/
theorem Holds.add (h : Holds env.unicode enabled b P) (id : String) (fields : List String) :
    Holds env.unicode enabled (b.add env id fields)
      (Function.update P id (some (allTokens env.unicode fields))) := by
  have hr := h.removeLocked id
  have habsent : Function.update P id none id = none := Function.update_self _ _ _
  have hgone : (b.removeLocked env id).docs.lookup id = none := by
    rw [hr.docs, habsent, Option.map_none]
  have hidem : Function.update P id (some (allTokens env.unicode fields)) =
      Function.update (Function.update P id none) id (some (allTokens env.unicode fields)) :=
    (Function.update_idem _ _ _).symm
  rw [hidem]
  unfold BM25Backend.add
  have hperm := env.termOrder.perm (b.removeLocked env id)
    (docOf (allTokens env.unicode fields)).terms.pairs
  refine ⟨fun id' => ?_, fun term id' => ?_, ?_, ?_, ?_, fun bi hbi => ?_⟩
  · rw [GoMap.lookup_insert]
    by_cases hid : id' = id
    · rw [if_pos hid, hid, Function.update_self, Option.map_some]
    · rw [if_neg hid, Function.update_of_ne hid, hr.docs]
  · rw [slice_foldl_push hperm, postingOf_update, Option.map_some, Option.getD_some]
    have hbefore : ∀ id', (slice (b.removeLocked env id).inverted term).filter
        (fun p => p.docID = id') = postingOf (Function.update P id none) term id' :=
      hr.postings term
    have hnil : postingOf (Function.update P id none) term id = [] := by
      rw [postingOf, habsent]
      rfl
    by_cases hterm : term ∈ allTokens env.unicode fields
    · rw [if_pos hterm, if_pos hterm, List.filter_append, hbefore]
      by_cases hid : id' = id
      · rw [if_pos hid, hid, hnil, List.nil_append]
        simp
      · have hne : ¬decide (id = id') = true := by simpa using Ne.symm hid
        rw [if_neg hid, List.filter_cons, if_neg hne, List.filter_nil, List.append_nil]
    · rw [if_neg hterm, if_neg hterm, hbefore]
      by_cases hid : id' = id
      · rw [if_pos hid, hid, hnil]
      · rw [if_neg hid]
  · exact List.foldl_invariant (P := Tidy) (fun m p _ hm => hm.push p.1 _) hr.tidy
  · rw [lengths_insert hgone, Int.add_comm, ← hr.totalLen]
  · rw [← hr.enabled]
    exact Option.isSome_map
  · obtain ⟨bi', hbi', rfl⟩ := Option.map_eq_some_iff.mp hbi
    exact (hr.bigrams bi' hbi').add env.bigramOrder habsent _

/-! ### Two states of the same documents -/

/-- **Two indexes are alike**: their documents, the postings of every term up to their
order, their total length and the postings of every bigram. -/
structure Alike (b b' : BM25Backend) : Prop where
  docs : ∀ id, b.docs.lookup id = b'.docs.lookup id
  terms : ∀ term, (b.inverted.lookup term).isSome = (b'.inverted.lookup term).isSome
  postings : ∀ term, (slice b.inverted term).Perm (slice b'.inverted term)
  totalLen : b.totalLen = b'.totalLen
  bigrams : ∀ k,
    b.bigrams.map (fun bi => bi.bigrams.lookup k) = b'.bigrams.map fun bi => bi.bigrams.lookup k

theorem Holds.lookup_docs (h : Holds u enabled b P) (h' : Holds u enabled b' P) (id : String) :
    b.docs.lookup id = b'.docs.lookup id :=
  (h.docs id).trans (h'.docs id).symm

theorem Holds.filter_postings (h : Holds u enabled b P) (h' : Holds u enabled b' P) (term id : String) :
    (slice b.inverted term).filter (fun p => p.docID = id) =
      (slice b'.inverted term).filter fun p => p.docID = id :=
  (h.postings term id).trans (h'.postings term id).symm

/-- Two lists that agree on the postings of every document are the same up to order. -/
theorem perm_of_filter {l l' : List Posting}
    (h : ∀ id, l.filter (fun p => p.docID = id) = l'.filter fun p => p.docID = id) : l.Perm l' := by
  refine List.perm_iff_count.mpr fun p => ?_
  have hcount : ∀ l : List Posting,
      (l.filter fun q => decide (q.docID = p.docID)).count p = l.count p := fun l =>
    List.count_filter (decide_eq_true rfl)
  rw [← hcount l, h, hcount]

theorem Holds.perm_postings (h : Holds u enabled b P) (h' : Holds u enabled b' P) (term : String) :
    (slice b.inverted term).Perm (slice b'.inverted term) :=
  perm_of_filter (h.filter_postings h' term)

theorem Holds.totalLen_eq (h : Holds u enabled b P) (h' : Holds u enabled b' P) : b.totalLen = b'.totalLen := by
  rw [h.totalLen, h'.totalLen]
  exact ((GoMap.perm_pairs (h.lookup_docs h')).map _).sum_eq

theorem Holds.count_eq (h : Holds u enabled b P) (h' : Holds u enabled b' P) : b.count = b'.count :=
  (GoMap.perm_pairs (h.lookup_docs h')).length_eq

/-- **The state is determined by the documents.** -/
theorem Holds.alike (h : Holds u enabled b P) (h' : Holds u enabled b' P) : Alike b b' := by
  have hperm := h.perm_postings h'
  refine ⟨h.lookup_docs h', fun term => ?_, hperm, h.totalLen_eq h', fun k => ?_⟩
  · rw [h.tidy.lookup, h'.tidy.lookup]
    by_cases hnil : slice b.inverted term = []
    · have hnil' : slice b'.inverted term = [] := List.nil_perm.mp (hnil ▸ hperm term)
      rw [if_pos hnil, if_pos hnil']
    · have hnil' : ¬slice b'.inverted term = [] := fun hc =>
        hnil (List.perm_nil.mp (hc ▸ hperm term))
      rw [if_neg hnil, if_neg hnil']
      rfl
  · have hsome : b.bigrams.isSome = b'.bigrams.isSome := h.enabled.trans h'.enabled.symm
    cases hb : b.bigrams with
    | none =>
      cases hb' : b'.bigrams with
      | none => rfl
      | some bi' => simp [hb, hb'] at hsome
    | some bi =>
      cases hb' : b'.bigrams with
      | none => simp [hb, hb'] at hsome
      | some bi' =>
        rw [Option.map_some, Option.map_some, (h.bigrams bi hb).lookup_eq (h'.bigrams bi' hb')]

section Scores

variable {K : Type} [Field K] {log : K → K}

/-- What one posting does to the score of its document. -/
def scoreStep (log : K → K) (b : BM25Backend) (df : ℕ) (score : Option K) (p : Posting) : Option K :=
  match b.docs.lookup p.docID with
  | none => score
  | some d => some (score.getD 0 + postingScore log b.count df b.avgLen p.freq d.len)

theorem lookup_scorePosting (df : ℕ) (scores : GoMap String K) (p : Posting) (id : String) :
    (scorePosting log b df scores p).lookup id =
      if id = p.docID then scoreStep log b df (scores.lookup id) p else scores.lookup id := by
  unfold scorePosting scoreStep
  cases hd : b.docs.lookup p.docID with
  | none => rw [ite_self]
  | some d =>
    simp only
    rw [GoMap.lookup_insert]
    by_cases hid : id = p.docID
    · rw [if_pos hid, if_pos hid, hid]
    · rw [if_neg hid, if_neg hid]

/-- **The score of a document comes from its own postings.** -/
theorem lookup_scoreTerm (scores : GoMap String K) (term id : String) :
    (scoreTerm log b scores term).lookup id =
      ((slice b.inverted term).filter fun p => p.docID = id).foldl
        (scoreStep log b (slice b.inverted term).length) (scores.lookup id) :=
  List.foldl_read (fun (m : GoMap String K) id => m.lookup id) Posting.docID
    (scoreStep log b (slice b.inverted term).length) (lookup_scorePosting _) _ _ _

/-- **Search scores alike** in two states of the same documents. -/
theorem Holds.lookup_scores (h : Holds u enabled b P) (h' : Holds u enabled b' P) (log : K → K) (query id : String) :
    (b.scores u log query).lookup id = (b'.scores u log query).lookup id := by
  have hstep : ∀ df, scoreStep log b df = scoreStep log b' df := fun df => by
    funext score p
    unfold scoreStep avgLen
    rw [h.lookup_docs h', h.totalLen_eq h', h.count_eq h']
  unfold scores
  rw [h.count_eq h']
  by_cases hcount : b'.count = 0
  · rw [if_pos hcount, if_pos hcount]
  · rw [if_neg hcount, if_neg hcount]
    have hterms : ∀ (l : List String) (m m' : GoMap String K), m.lookup id = m'.lookup id →
        (l.foldl (scoreTerm log b) m).lookup id = (l.foldl (scoreTerm log b') m').lookup id := by
      intro l
      induction l with
      | nil => exact fun _ _ hm => hm
      | cons term l ih =>
        intro m m' hm
        refine ih _ _ ?_
        rw [lookup_scoreTerm, lookup_scoreTerm, h.filter_postings h', hm, hstep,
          (h.perm_postings h' term).length_eq]
    exact hterms _ _ _ rfl

end Scores

/-! ### What the scores divide by -/

/-- **Every posting can be scored**: its document is there, a term has no more postings than
there are documents, and nothing that a score divides by is zero. -/
structure Scorable (K : Type) [Field K] (b : BM25Backend) : Prop where
  doc : ∀ term, ∀ p ∈ slice b.inverted term, (b.docs.lookup p.docID).isSome
  df_le : ∀ term, (slice b.inverted term).length ≤ b.count
  count : ∀ term, ∀ p ∈ slice b.inverted term, (b.count : K) ≠ 0
  avgLen : ∀ term, ∀ p ∈ slice b.inverted term, (b.avgLen : K) ≠ 0
  idf : ∀ df, (idfDenominator df : K) ≠ 0
  score : ∀ term, ∀ p ∈ slice b.inverted term, ∀ d, b.docs.lookup p.docID = some d →
    scoreDenominator (b.avgLen : K) p.freq d.len ≠ 0

theorem Holds.posting (h : Holds u enabled b P) {term : String} {p : Posting}
    (hp : p ∈ slice b.inverted term) :
    ∃ tokens, P p.docID = some tokens ∧ term ∈ tokens ∧ p.freq = tokens.count term := by
  have hmem : p ∈ (slice b.inverted term).filter fun q => q.docID = p.docID :=
    List.mem_filter.mpr ⟨hp, decide_eq_true rfl⟩
  rw [h.postings, postingOf] at hmem
  cases hP : P p.docID with
  | none =>
    rw [hP] at hmem
    cases hmem
  | some tokens =>
    rw [hP, Option.map_some, Option.getD_some] at hmem
    by_cases hterm : term ∈ tokens
    · rw [if_pos hterm, List.mem_singleton] at hmem
      exact ⟨tokens, rfl, hterm, congrArg Posting.freq hmem⟩
    · rw [if_neg hterm] at hmem
      cases hmem

/-- A document has one posting in the list of a term at most. -/
theorem Holds.nodup_postings (h : Holds u enabled b P) (term : String) :
    ((slice b.inverted term).map Posting.docID).Nodup := by
  refine List.nodup_iff_count_le_one.mpr fun id => ?_
  have hcount : ((slice b.inverted term).map Posting.docID).count id =
      ((slice b.inverted term).filter fun p => p.docID = id).length := by
    rw [List.count_eq_countP, List.countP_map, List.countP_eq_length_filter]
    rfl
  rw [hcount, h.postings, postingOf]
  cases P id with
  | none => exact Nat.zero_le 1
  | some tokens =>
    rw [Option.map_some, Option.getD_some]
    split
    · exact le_refl 1
    · exact Nat.zero_le 1

theorem Holds.df_le (h : Holds u enabled b P) (term : String) :
    (slice b.inverted term).length ≤ b.count := by
  have hsub : (slice b.inverted term).map Posting.docID ⊆ b.docs.pairs.map Prod.fst := by
    intro id hid
    obtain ⟨p, hp, rfl⟩ := List.mem_map.mp hid
    obtain ⟨tokens, hP, -, -⟩ := h.posting hp
    have hdoc := h.docs p.docID
    rw [hP, Option.map_some] at hdoc
    exact List.mem_map.mpr ⟨_, GoMap.mem_pairs.mpr hdoc, rfl⟩
  have hle := ((h.nodup_postings term).subperm hsub).length_le
  rwa [List.length_map, List.length_map] at hle

/-- An index with a posting has a document that is not empty. -/
theorem Holds.totalLen_pos (h : Holds u enabled b P) {term : String} {p : Posting}
    (hp : p ∈ slice b.inverted term) : 0 < b.totalLen := by
  obtain ⟨tokens, hP, hterm, -⟩ := h.posting hp
  have hdoc := h.docs p.docID
  rw [hP, Option.map_some] at hdoc
  have hrest : 0 ≤ lengths (b.docs.erase p.docID) := List.sum_nonneg fun x hx => by
    obtain ⟨q, -, rfl⟩ := List.mem_map.mp hx
    exact Int.natCast_nonneg _
  have hlen : 0 < (docOf tokens).len := List.length_pos_of_mem hterm
  rw [lengths_erase hdoc, ← h.totalLen] at hrest
  omega

theorem Holds.count_pos (h : Holds u enabled b P) {term : String} {p : Posting}
    (hp : p ∈ slice b.inverted term) : 0 < b.count :=
  (List.length_pos_of_mem hp).trans_le (h.df_le term)

/-- **No score divides by zero.** -/
theorem Holds.scorable (K : Type) [Field K] [LinearOrder K] [IsStrictOrderedRing K]
    (h : Holds u enabled b P) : Scorable K b := by
  have havg : ∀ {term p}, p ∈ slice b.inverted term → (0 : K) < b.avgLen := fun hp =>
    div_pos (Int.cast_pos.mpr (h.totalLen_pos hp)) (Nat.cast_pos.mpr (h.count_pos hp))
  refine ⟨fun term p hp => ?_, h.df_le, fun term p hp => ?_, fun term p hp => (havg hp).ne',
    fun df => ?_, fun term p hp d _ => ?_⟩
  · obtain ⟨tokens, hP, -, -⟩ := h.posting hp
    rw [h.docs, hP]
    rfl
  · exact (Nat.cast_pos.mpr (h.count_pos hp)).ne'
  · have hpos : (0 : K) < df + 1 / 2 := by positivity
    exact hpos.ne'
  · have hb : (1 - bm25B : K) = 25 / 100 := by
      unfold bm25B
      norm_num
    have hpos : (0 : K) < p.freq + 12 / 10 * (25 / 100 + 75 / 100 * d.len / b.avgLen) := by
      have hdiv : (0 : K) ≤ 75 / 100 * d.len / b.avgLen := div_nonneg (by positivity) (havg hp).le
      positivity
    unfold scoreDenominator
    rw [hb]
    exact hpos.ne'

/-! ### Runs -/

/-- The operations that write the index. -/
inductive Op
  | add (id : String) (fields : List String)
  | remove (id : String)

/-- The index after an operation. -/
def apply (env : BM25Env) (b : BM25Backend) : Op → BM25Backend
  | .add id fields => b.add env id fields
  | .remove id => b.remove env id

/-- The documents that are present after an operation, with their fields. -/
def presentAfter (Q : String → Option (List String)) : Op → String → Option (List String)
  | .add id fields => Function.update Q id (some fields)
  | .remove id => Function.update Q id none

/-- The documents that are present after a sequence of operations. -/
def present (ops : List Op) : String → Option (List String) :=
  ops.foldl presentAfter fun _ => none

/-- The tokens of documents. -/
def tokensOf (u : Unicode) (Q : String → Option (List String)) : BigramIndex.Docs := fun id =>
  (Q id).map (allTokens u)

theorem tokensOf_update (u : Unicode) (Q : String → Option (List String)) (id : String)
    (v : Option (List String)) :
    tokensOf u (Function.update Q id v) = Function.update (tokensOf u Q) id (v.map (allTokens u)) := by
  funext id'
  unfold tokensOf
  by_cases hid : id' = id
  · rw [hid, Function.update_self, Function.update_self]
  · rw [Function.update_of_ne hid, Function.update_of_ne hid]

/-- **One operation.** -/
theorem Holds.apply {Q : String → Option (List String)}
    (h : Holds env.unicode enabled b (tokensOf env.unicode Q)) (op : Op) :
    Holds env.unicode enabled (b.apply env op) (tokensOf env.unicode (presentAfter Q op)) := by
  cases op with
  | add id fields =>
    rw [presentAfter, tokensOf_update]
    exact h.add id fields
  | remove id =>
    rw [presentAfter, tokensOf_update]
    exact h.removeLocked id

/-- **A run** holds the documents it leaves present. -/
theorem holds_run (env : BM25Env) (enabled : Bool) (ops : List Op) :
    Holds env.unicode enabled (ops.foldl (apply env) (newBM25 enabled))
      (tokensOf env.unicode (present ops)) := by
  have hrun : ∀ (ops : List Op) (b : BM25Backend) (Q : String → Option (List String)),
      Holds env.unicode enabled b (tokensOf env.unicode Q) →
        Holds env.unicode enabled (ops.foldl (apply env) b)
          (tokensOf env.unicode (ops.foldl presentAfter Q)) := by
    intro ops
    induction ops with
    | nil => exact fun _ _ h => h
    | cons op ops ih => exact fun b Q h => ih _ _ (h.apply op)
  exact hrun ops _ _ (Holds.new enabled)

/-- Adding the documents that are present leaves them present, and no others. -/
theorem present_adds {Q : String → Option (List String)} {l : List (String × List String)}
    (hl : ∀ id fields, (id, fields) ∈ l ↔ Q id = some fields) :
    present (l.map fun p => .add p.1 p.2) = Q := by
  funext id
  have hread : present (l.map fun p => .add p.1 p.2) id =
      (l.filter fun p => p.1 = id).foldl (fun _ p => some p.2) none := by
    rw [present, List.foldl_map]
    refine List.foldl_read (fun (Q : String → Option (List String)) id => Q id) Prod.fst
      (fun (_ : Option (List String)) p => some p.2) (fun Q p k => ?_) l _ id
    exact Function.update_apply Q p.1 (some p.2) k
  rw [hread]
  cases hQ : Q id with
  | none =>
    have hnil : (l.filter fun p => p.1 = id) = [] := List.filter_eq_nil_iff.mpr fun p hp hid => by
      have hsome := (hl p.1 p.2).mp hp
      rw [of_decide_eq_true hid, hQ] at hsome
      cases hsome
    rw [hnil]
    rfl
  | some fields =>
    have hin : (id, fields) ∈ l.filter fun p => p.1 = id :=
      List.mem_filter.mpr ⟨(hl id fields).mpr hQ, decide_eq_true rfl⟩
    have hall : ∀ p ∈ l.filter (fun p => p.1 = id), p.2 = fields := fun p hp => by
      obtain ⟨hp, hid⟩ := List.mem_filter.mp hp
      have hsome := (hl p.1 p.2).mp hp
      rw [of_decide_eq_true hid, hQ] at hsome
      exact (Option.some.inj hsome).symm
    cases hf : l.filter fun p => p.1 = id with
    | nil =>
      rw [hf] at hin
      cases hin
    | cons p l' =>
      rw [hf] at hall
      exact List.foldl_invariant (P := fun v => v = some fields)
        (fun _ q hq _ => congrArg some (hall q (List.mem_cons_of_mem p hq)))
        (congrArg some (hall p List.mem_cons_self))

/-- **The index does not depend on its history.** After any sequence of Add and Remove, the
index is like a fresh one to which the documents that are present have been added, in any
order and with any order of the loops; Search gives every document the same score for every
query; and every posting can be scored. -/
theorem history_independent {K : Type} [Field K] [LinearOrder K] [IsStrictOrderedRing K]
    (u : Unicode) (enabled : Bool) (ops : List Op) (l : List (String × List String))
    (hl : ∀ id fields, (id, fields) ∈ l ↔ present ops id = some fields)
    (t t' : GoMap.RangeOrder BM25Backend) (o o' : GoMap.RangeOrder BigramIndex) (log : K → K)
    (b b' : BM25Backend) (hb : b = ops.foldl (apply ⟨u, t, o⟩) (newBM25 enabled))
    (hb' : b' = l.foldl (fun b p => b.add ⟨u, t', o'⟩ p.1 p.2) (newBM25 enabled)) :
    Alike b b' ∧
      (∀ query id, (b.scores u log query).lookup id = (b'.scores u log query).lookup id) ∧
      Scorable K b := by
  have h : Holds u enabled b (tokensOf u (present ops)) := hb ▸ holds_run ⟨u, t, o⟩ enabled ops
  have h' : Holds u enabled b' (tokensOf u (present ops)) := by
    have hrun := holds_run ⟨u, t', o'⟩ enabled (l.map fun p => .add p.1 p.2)
    rw [present_adds hl, List.foldl_map] at hrun
    exact hb' ▸ hrun
  exact ⟨h.alike h', h.lookup_scores h' log, h.scorable K⟩

namespace Reindexed

/-- A document that is indexed again with other fields, and two that are removed, one of them
absent. -/
def ops : List Op :=
  [.add "a.go::Load" ["LoadConfig", "a.go"], .add "b.go::Save" ["SaveConfig"],
    .add "a.go::Load" ["LoadConfigFile", ""], .remove "b.go::Save", .remove "c.go::Gone"]

/-- The index after the operations scores as one that has been built from the one document
that is left. -/
theorem history_independent_ops :
    (ops.foldl (apply ⟨.ascii, .default, .default⟩) (newBM25 true)).Scorable ℚ ∧
      ((ops.foldl (apply ⟨.ascii, .default, .default⟩) (newBM25 true)).scores .ascii
        (fun x : ℚ => x) "config").lookup "a.go::Load" = some (4 / 3) := by
  have hl : ∀ id fields, (id, fields) ∈ [("a.go::Load", ["LoadConfigFile", ""])] ↔
      present ops id = some fields := fun id fields => by
    simp only [present, ops, List.foldl, presentAfter, Function.update_apply, List.mem_singleton,
      Prod.mk.injEq]
    by_cases hid : id = "a.go::Load"
    · subst hid
      simp [eq_comm]
    · simp only [hid, false_and, if_false]
      by_cases hb : id = "b.go::Save" <;> simp [hb]
  refine ⟨(history_independent .ascii true ops _ hl .default .default .default .default
    (fun x : ℚ => x) _ _ rfl rfl).2.2, ?_⟩
  rw [(history_independent .ascii true ops _ hl .default .default .default .default
    (fun x : ℚ => x) _ _ rfl rfl).2.1]
  decide +kernel

end Reindexed

end BM25Backend

end Gortex
