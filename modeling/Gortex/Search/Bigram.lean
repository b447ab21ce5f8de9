import Mathlib.Data.Finset.Basic
import Mathlib.Data.List.Dedup
import Gortex.Lib.Fold
import Gortex.Lib.Grouped
import Gortex.Search.Tokenizer

/-!
# The bigram index

`internal/search/bigram.go`: pairs of characters of the tokens of a document, one apart or
two, each with the set of the documents it occurs in. The index also keeps the pairs that a
document has contributed, so that removing a document need not visit the others.
`Gortex.BigramIndex.Holds` says which state a set of documents is kept in.
-/

namespace Gortex

open Grouped

/-- The documents of every bigram, and the bigrams of every document. -/
structure BigramIndex where
  bigrams : GoMap UInt16 (Finset String) := ∅
  perDoc : GoMap String (List UInt16) := ∅

/-- The key of two bytes, unless one of them is not ASCII. -/
def bigramKey (p : UInt8 × UInt8) : Option UInt16 :=
  if p.1 > 127 ∨ p.2 > 127 then none else some (p.1.toUInt16 <<< 8 ||| p.2.toUInt16)

/-- The consecutive pairs of the bytes of a token, and then those one byte apart. -/
def Unicode.bigramize (u : Unicode) (token : String) : List UInt16 :=
  let b := (u.toLower token).toUTF8.data.toList
  (b.zip (b.drop 1)).filterMap bigramKey ++ (b.zip (b.drop 2)).filterMap bigramKey

/-- The bigrams of the tokens of a document. -/
def Unicode.bigramKeys (u : Unicode) (tokens : List String) : List UInt16 :=
  (tokens.flatMap u.bigramize).dedup

namespace BigramIndex

variable (u : Unicode)

/-- The documents of a bigram. -/
def docsOf (m : GoMap UInt16 (Finset String)) (k : UInt16) : Finset String := (m.lookup k).getD ∅

/-- Take a document out of the set of a bigram, and the set out of the map if that empties
it. -/
def dropKey (docID : String) (m : GoMap UInt16 (Finset String)) (k : UInt16) :
    GoMap UInt16 (Finset String) :=
  match m.lookup k with
  | none => m
  | some set =>
    if set.erase docID = ∅ then (m.insert k (set.erase docID)).erase k
    else m.insert k (set.erase docID)

/-- Put a document into the set of a bigram. -/
def addKey (docID : String) (m : GoMap UInt16 (Finset String)) (k : UInt16) :
    GoMap UInt16 (Finset String) :=
  m.insert k (insert docID (docsOf m k))

/-- Clear a document from the set of every bigram it has contributed. -/
def removeLocked (bi : BigramIndex) (docID : String) : BigramIndex where
  bigrams := (slice bi.perDoc docID).foldl (dropKey docID) bi.bigrams
  perDoc := bi.perDoc.erase docID

/-- **Remove** deletes a document. -/
def remove (bi : BigramIndex) (docID : String) : BigramIndex :=
  if docID = "" then bi else bi.removeLocked docID

/-- **Add** indexes a document under the bigrams of its tokens. -/
def add (ord : GoMap.RangeOrder BigramIndex) (bi : BigramIndex) (docID : String)
    (tokens : List String) : BigramIndex :=
  if docID = "" ∨ tokens = [] then bi
  else if u.bigramKeys tokens = [] then bi
  else
    let bi := bi.removeLocked docID
    let keys := ord.order bi (u.bigramKeys tokens)
    { bigrams := keys.foldl (addKey docID) bi.bigrams, perDoc := bi.perDoc.insert docID keys }

/-! ### What is read after a write -/

theorem docsOf_dropKey (docID : String) (m : GoMap UInt16 (Finset String)) (k k' : UInt16) :
    docsOf (dropKey docID m k) k' = if k' = k then (docsOf m k').erase docID else docsOf m k' := by
  unfold dropKey docsOf
  cases hm : m.lookup k with
  | none =>
    by_cases hk : k' = k
    · rw [if_pos hk, hk, hm]
      rfl
    · rw [if_neg hk]
  | some set =>
    simp only
    by_cases he : set.erase docID = ∅
    · rw [if_pos he, GoMap.lookup_erase]
      by_cases hk : k' = k
      · rw [if_pos hk, if_pos hk, hk, hm, Option.getD_some, he]
        rfl
      · rw [if_neg hk, if_neg hk, GoMap.lookup_insert, if_neg hk]
    · rw [if_neg he, GoMap.lookup_insert]
      by_cases hk : k' = k
      · rw [if_pos hk, if_pos hk, hk, hm]
        rfl
      · rw [if_neg hk, if_neg hk]

theorem docsOf_addKey (docID : String) (m : GoMap UInt16 (Finset String)) (k k' : UInt16) :
    docsOf (addKey docID m k) k' = if k' = k then insert docID (docsOf m k') else docsOf m k' := by
  unfold addKey
  rw [docsOf, GoMap.lookup_insert]
  by_cases hk : k' = k
  · rw [if_pos hk, if_pos hk, hk]
    rfl
  · rw [if_neg hk, if_neg hk]
    rfl

/-- **No empty set is kept.** -/
def Tidy (m : GoMap UInt16 (Finset String)) : Prop := ∀ k, m.lookup k ≠ some ∅

theorem Tidy.lookup {m : GoMap UInt16 (Finset String)} (h : Tidy m) (k : UInt16) :
    m.lookup k = if docsOf m k = ∅ then none else some (docsOf m k) := by
  unfold docsOf
  cases hm : m.lookup k with
  | none => rw [Option.getD_none, if_pos rfl]
  | some set =>
    rw [Option.getD_some, if_neg]
    exact fun hset => h k (hset ▸ hm)

theorem Tidy.dropKey {m : GoMap UInt16 (Finset String)} (h : Tidy m) (docID : String) (k : UInt16) :
    Tidy (dropKey docID m k) := fun k' => by
  unfold BigramIndex.dropKey
  split
  · exact h k'
  · split
    · rw [GoMap.lookup_erase, GoMap.lookup_insert]
      by_cases hk : k' = k
      · rw [if_pos hk]
        exact nofun
      · rw [if_neg hk, if_neg hk]
        exact h k'
    · next he =>
      rw [GoMap.lookup_insert]
      by_cases hk : k' = k
      · rw [if_pos hk]
        exact fun hset => he (Option.some.inj hset)
      · rw [if_neg hk]
        exact h k'

theorem Tidy.addKey {m : GoMap UInt16 (Finset String)} (h : Tidy m) (docID : String) (k : UInt16) :
    Tidy (addKey docID m k) := fun k' => by
  unfold BigramIndex.addKey
  rw [GoMap.lookup_insert]
  by_cases hk : k' = k
  · rw [if_pos hk]
    exact fun hset => Finset.insert_ne_empty _ _ (Option.some.inj hset)
  · rw [if_neg hk]
    exact h k'

theorem docsOf_foldl_dropKey (docID : String) (m : GoMap UInt16 (Finset String)) (l : List UInt16)
    (k : UInt16) : docsOf (l.foldl (dropKey docID) m) k =
      if k ∈ l then (docsOf m k).erase docID else docsOf m k :=
  List.foldl_write docsOf (Finset.erase · docID) (docsOf_dropKey docID) (fun _ => Finset.erase_idem)
    l m k

theorem docsOf_foldl_addKey (docID : String) (m : GoMap UInt16 (Finset String)) (l : List UInt16)
    (k : UInt16) : docsOf (l.foldl (addKey docID) m) k =
      if k ∈ l then insert docID (docsOf m k) else docsOf m k :=
  List.foldl_write docsOf (insert docID) (docsOf_addKey docID) (Finset.insert_idem docID) l m k

/-! ### The state of a set of documents -/

/-- The tokens of the documents that are present. -/
abbrev Docs := String → Option (List String)

/-- The bigrams that a document contributes. The empty ID contributes none. -/
def contributed (P : Docs) (docID : String) : List UInt16 :=
  if docID = "" then [] else ((P docID).map u.bigramKeys).getD []

/-- **The index holds the bigrams of the documents that are present**, and nothing else. -/
structure Holds (bi : BigramIndex) (P : Docs) : Prop where
  docsOf : ∀ k docID, docID ∈ docsOf bi.bigrams k ↔ k ∈ contributed u P docID
  perDoc : ∀ docID k, k ∈ slice bi.perDoc docID ↔ k ∈ contributed u P docID
  tidy : Tidy bi.bigrams

variable {u} {bi bi' : BigramIndex} {P : Docs}

theorem Holds.empty : Holds u {} fun _ => none := by
  refine ⟨fun k docID => ?_, fun docID k => ?_, fun _ => nofun⟩
  all_goals
    rw [contributed, Option.map_none, Option.getD_none, ite_self]
    exact iff_of_false (by simp [BigramIndex.docsOf]) List.not_mem_nil

/-- **Two states of one set of documents** have the same postings. -/
theorem Holds.lookup_eq (h : Holds u bi P) (h' : Holds u bi' P) (k : UInt16) :
    bi.bigrams.lookup k = bi'.bigrams.lookup k := by
  have hset : BigramIndex.docsOf bi.bigrams k = BigramIndex.docsOf bi'.bigrams k :=
    Finset.ext fun docID => (h.docsOf k docID).trans (h'.docsOf k docID).symm
  rw [h.tidy.lookup, h'.tidy.lookup, hset]

theorem contributed_update (P : Docs) (docID docID' : String) (v : Option (List String)) :
    contributed u (Function.update P docID v) docID' =
      if docID' = docID then (if docID = "" then [] else (v.map u.bigramKeys).getD [])
      else contributed u P docID' := by
  unfold contributed
  by_cases hid : docID' = docID
  · rw [if_pos hid, hid, Function.update_self]
  · rw [if_neg hid, Function.update_of_ne hid]

/-- **Clearing a document.** -/
theorem Holds.removeLocked (h : Holds u bi P) (docID : String) :
    Holds u (bi.removeLocked docID) (Function.update P docID none) := by
  refine ⟨fun k docID' => ?_, fun docID' k => ?_, ?_⟩
  · rw [BigramIndex.removeLocked, docsOf_foldl_dropKey, contributed_update, Option.map_none,
      Option.getD_none, ite_self]
    by_cases hk : k ∈ slice bi.perDoc docID
    · rw [if_pos hk, Finset.mem_erase, h.docsOf]
      by_cases hid : docID' = docID
      · rw [if_pos hid]
        exact iff_of_false (fun hc => hc.1 hid) List.not_mem_nil
      · rw [if_neg hid, and_iff_right hid]
    · rw [if_neg hk, h.docsOf]
      by_cases hid : docID' = docID
      · rw [if_pos hid, hid]
        exact iff_of_false (fun hc => hk ((h.perDoc docID k).mpr hc)) List.not_mem_nil
      · rw [if_neg hid]
  · rw [BigramIndex.removeLocked, slice_erase, contributed_update, Option.map_none,
      Option.getD_none, ite_self]
    by_cases hid : docID' = docID
    · rw [if_pos hid, if_pos hid]
    · rw [if_neg hid, if_neg hid]
      exact h.perDoc docID' k
  · exact List.foldl_invariant (fun m k _ hm => hm.dropKey docID k) h.tidy

/-- The empty ID contributes nothing, so it can come and go. -/
theorem Holds.update_empty (h : Holds u bi P) (v : Option (List String)) :
    Holds u bi (Function.update P "" v) := by
  have hsame : ∀ docID, contributed u (Function.update P "" v) docID = contributed u P docID :=
    fun docID => by
      rw [contributed_update, if_pos rfl]
      by_cases hid : docID = ""
      · rw [if_pos hid, contributed, if_pos hid]
      · rw [if_neg hid]
  exact ⟨fun k docID => by rw [hsame, h.docsOf], fun docID k => by rw [hsame, h.perDoc], h.tidy⟩

/-- **Remove.** -/
theorem Holds.remove (h : Holds u bi P) (docID : String) :
    Holds u (bi.remove docID) (Function.update P docID none) := by
  unfold BigramIndex.remove
  by_cases hid : docID = ""
  · rw [if_pos hid, hid]
    exact h.update_empty none
  · rw [if_neg hid]
    exact h.removeLocked docID

/-- **Add**, to an index where the document is absent. -/
theorem Holds.add (h : Holds u bi P) (ord : GoMap.RangeOrder BigramIndex) {docID : String}
    (habsent : P docID = none) (tokens : List String) :
    Holds u (bi.add u ord docID tokens) (Function.update P docID (some tokens)) := by
  unfold BigramIndex.add
  by_cases hid : docID = ""
  · rw [if_pos (Or.inl hid), hid]
    exact h.update_empty _
  -- a document without bigrams leaves the index as it is
  have hnone : u.bigramKeys tokens = [] → Holds u bi (Function.update P docID (some tokens)) := by
    intro hnil
    have hsame : ∀ docID', contributed u (Function.update P docID (some tokens)) docID' =
        contributed u P docID' := fun docID' => by
      rw [contributed_update]
      by_cases hid' : docID' = docID
      · rw [if_pos hid', hid', contributed, habsent, Option.map_some, hnil]
        rfl
      · rw [if_neg hid']
    exact ⟨fun k docID' => by rw [hsame, h.docsOf], fun docID' k => by rw [hsame, h.perDoc], h.tidy⟩
  by_cases hnil : tokens = []
  · rw [if_pos (Or.inr hnil)]
    exact hnone (by rw [hnil]; rfl)
  rw [if_neg (not_or.mpr ⟨hid, hnil⟩)]
  by_cases hkeys : u.bigramKeys tokens = []
  · rw [if_pos hkeys]
    exact hnone hkeys
  rw [if_neg hkeys]
  have hr := h.removeLocked docID
  have hcontr : ∀ docID', contributed u (Function.update P docID (some tokens)) docID' =
      if docID' = docID then u.bigramKeys tokens
      else contributed u (Function.update P docID none) docID' := fun docID' => by
    rw [contributed_update, contributed_update, if_neg hid, Option.map_some, Option.getD_some]
    by_cases hid' : docID' = docID
    · rw [if_pos hid', if_pos hid']
    · rw [if_neg hid', if_neg hid', if_neg hid']
  refine ⟨fun k docID' => ?_, fun docID' k => ?_, ?_⟩
  · rw [docsOf_foldl_addKey, hcontr]
    by_cases hk : k ∈ ord.order (bi.removeLocked docID) (u.bigramKeys tokens)
    · rw [if_pos hk, Finset.mem_insert, hr.docsOf]
      by_cases hid' : docID' = docID
      · rw [if_pos hid']
        exact iff_of_true (Or.inl hid') (ord.mem.mp hk)
      · rw [if_neg hid', or_iff_right hid']
    · rw [if_neg hk, hr.docsOf]
      by_cases hid' : docID' = docID
      · rw [if_pos hid', hid', contributed_update, if_pos rfl, Option.map_none, Option.getD_none,
          ite_self]
        exact iff_of_false List.not_mem_nil fun hc => hk (ord.mem.mpr hc)
      · rw [if_neg hid']
  · rw [slice_insert, hcontr]
    by_cases hid' : docID' = docID
    · rw [if_pos hid', if_pos hid']
      exact ord.mem
    · rw [if_neg hid', if_neg hid']
      exact hr.perDoc docID' k
  · exact List.foldl_invariant (fun m k _ hm => hm.addKey docID k) hr.tidy

end BigramIndex

end Gortex
