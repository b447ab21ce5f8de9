import Mathlib.Algebra.Order.Field.Rat
import Gortex.Mcp.Combo

/-!
# What combos learn

Every state that records, boosts and restarts lead to is tidy: no query and no symbol of a query
occurs twice, no query has too many matches, and no symbol has more hits than records
(`Gortex.Mcp.ComboSystem.tidied_run`). A symbol that is recorded as often as it takes is boosted,
unless it is lost on the way: a list that is full of symbols with more hits drops a new symbol at
each record, a query is cut off by the file once enough others have been recorded, and the count
of hits wraps around.
-/

namespace Gortex

namespace Mcp

open Recent

namespace ComboManager

variable {cm : ComboManager} {sorter : Sorting.Sorter ComboMatch} {toLower : String → String}
  {now : ℤ} {rawQuery symbolID : String} {q s : String}

/-! ### A hit of a symbol -/

/-- The hits of a symbol. -/
def hitsOf (s : String) (matched : List ComboMatch) : UInt32 :=
  (matched.find? fun m => m.symbolID = s).elim 0 ComboMatch.hitCount

theorem hitsOf_of_forall {ms : List ComboMatch} (h : ∀ m ∈ ms, m.symbolID ≠ s) :
    hitsOf s ms = 0 := by
  rw [hitsOf, List.find?_eq_none.mpr fun m hm => by simpa using h m hm, Option.elim_none]

theorem hitsOf_of_mem {ms : List ComboMatch} (hms : (ms.map ComboMatch.symbolID).Nodup)
    {m : ComboMatch} (hm : m ∈ ms) : hitsOf m.symbolID ms = m.hitCount := by
  rw [hitsOf, find?_of_mem hms hm, Option.elim_some]

theorem noteMatch_of_forall {ms : List ComboMatch} (h : ∀ m ∈ ms, m.symbolID ≠ s) (now : ℤ) :
    noteMatch s now ms = ms ++ [⟨s, 1, now⟩] := by
  rw [noteMatch, List.findIdx?_eq_none_iff.mpr fun m hm => decide_eq_false (h m hm)]

/-- **A hit counts for its symbol** and for no other. -/
theorem perm_noteMatch {ms : List ComboMatch} (hms : (ms.map ComboMatch.symbolID).Nodup)
    (s : String) (now : ℤ) :
    (noteMatch s now ms).Perm
      (touch ComboMatch.symbolID ⟨s, hitsOf s ms + 1, now⟩ ms) := by
  by_cases hnew : ∀ m ∈ ms, m.symbolID ≠ s
  · rw [noteMatch_of_forall hnew, touch, hitsOf_of_forall hnew,
      List.filter_eq_self.mpr fun m hm => decide_eq_true (hnew m hm)]
    exact .refl _
  · push Not at hnew
    obtain ⟨m, hm, rfl⟩ := hnew
    obtain ⟨i, hi⟩ : ∃ i, (ms.findIdx? fun b => b.symbolID = m.symbolID) = some i :=
      by
      refine Option.isSome_iff_exists.mp ?_
      rw [List.findIdx?_isSome]
      exact List.any_eq_true.mpr ⟨m, hm, decide_eq_true rfl⟩
    obtain ⟨pre, m', post, rfl, rfl, hm', -⟩ := exists_split hi
    have hhits : hitsOf m.symbolID (pre ++ m' :: post) = m'.hitCount := by
      rw [← hm']
      exact hitsOf_of_mem hms (List.mem_append_right pre List.mem_cons_self)
    have hfilter := filter_split hms
    rw [hm'] at hfilter
    have hentry : { m' with hitCount := m'.hitCount + 1, lastUsed := now } =
        (⟨m.symbolID, m'.hitCount + 1, now⟩ : ComboMatch) := by
      rw [← hm']
    simp only [noteMatch, hi, modify_split, touch, hfilter, hhits, hentry]
    exact List.perm_middle.trans (List.perm_append_singleton _ _).symm

/-- The matches after a hit, before they are cut. -/
def sortedHits (sorter : Sorting.Sorter ComboMatch) (s : String) (now : ℤ)
    (ms : List ComboMatch) : List ComboMatch :=
  sorter.sort (fun a b => b.hitCount.toNat < a.hitCount.toNat) (noteMatch s now ms)

variable {ms : List ComboMatch} {m : ComboMatch}

theorem perm_sortedHits (hms : (ms.map ComboMatch.symbolID).Nodup)
    (sorter : Sorting.Sorter ComboMatch) (s : String) (now : ℤ) :
    (sortedHits sorter s now ms).Perm (touch ComboMatch.symbolID ⟨s, hitsOf s ms + 1, now⟩ ms) :=
  (sorter.perm _ _).trans (perm_noteMatch hms s now)

theorem nodup_sortedHits (hms : (ms.map ComboMatch.symbolID).Nodup)
    (sorter : Sorting.Sorter ComboMatch) (s : String) (now : ℤ) :
    ((sortedHits sorter s now ms).map ComboMatch.symbolID).Nodup :=
  ((perm_sortedHits hms sorter s now).map _).nodup_iff.mpr (nodup_touch hms _)

theorem length_noteHit_le (sorter : Sorting.Sorter ComboMatch) (s : String) (now : ℤ)
    (ms : List ComboMatch) : (noteHit sorter s now ms).length ≤ maxComboEntriesPerQuery :=
  List.length_take_le _ _

theorem nodup_noteHit (hms : (ms.map ComboMatch.symbolID).Nodup)
    (sorter : Sorting.Sorter ComboMatch) (s : String) (now : ℤ) :
    ((noteHit sorter s now ms).map ComboMatch.symbolID).Nodup :=
  (nodup_sortedHits hms sorter s now).sublist ((List.take_sublist _ _).map _)

/-- What a hit leaves are old matches and the new count of the symbol. -/
theorem mem_noteHit (hms : (ms.map ComboMatch.symbolID).Nodup) (h : m ∈ noteHit sorter s now ms) :
    m ∈ ms ∧ m.symbolID ≠ s ∨ m = ⟨s, hitsOf s ms + 1, now⟩ :=
  mem_touch.mp ((perm_sortedHits hms sorter s now).mem_iff.mp (List.mem_of_mem_take h))

/-- The matches after a hit are more by one than those of the other symbols. -/
theorem length_sortedHits (hms : (ms.map ComboMatch.symbolID).Nodup)
    (sorter : Sorting.Sorter ComboMatch) (s : String) (now : ℤ) :
    (sortedHits sorter s now ms).length = (ms.filter fun m => m.symbolID ≠ s).length + 1 := by
  rw [(perm_sortedHits hms sorter s now).length_eq, touch, List.length_append,
    List.length_singleton]

/-- **Where there is room, the symbol is kept.** -/
theorem mem_noteHit_of_room (hms : (ms.map ComboMatch.symbolID).Nodup)
    (hroom : (ms.filter fun m => m.symbolID ≠ s).length < maxComboEntriesPerQuery) :
    (⟨s, hitsOf s ms + 1, now⟩ : ComboMatch) ∈ noteHit sorter s now ms := by
  have hlen : (sortedHits sorter s now ms).length ≤ maxComboEntriesPerQuery := by
    rw [length_sortedHits hms]
    exact hroom
  have hall : noteHit sorter s now ms = sortedHits sorter s now ms := List.take_of_length_le hlen
  rw [hall, (perm_sortedHits hms sorter s now).mem_iff]
  exact mem_touch.mpr (.inr rfl)

/-- Where the symbol is among the matches, there is room. -/
theorem room_of_mem (hlen : ms.length ≤ maxComboEntriesPerQuery) (hm : m ∈ ms)
    (hs : m.symbolID = s) :
    (ms.filter fun m => m.symbolID ≠ s).length < maxComboEntriesPerQuery := by
  refine lt_of_lt_of_le ?_ hlen
  refine lt_of_le_of_ne (List.length_filter_le _ _) fun hc => ?_
  exact absurd (List.length_filter_eq_length_iff.mp hc m hm) (by simp [hs])

/-- In a full list of which a match has no hits, the symbol passes that one. -/
theorem mem_noteHit_of_zero (hms : (ms.map ComboMatch.symbolID).Nodup)
    (hlen : ms.length ≤ maxComboEntriesPerQuery) (hnew : ∀ m ∈ ms, m.symbolID ≠ s)
    (hm : m ∈ ms) (hzero : m.hitCount = 0) :
    (⟨s, hitsOf s ms + 1, now⟩ : ComboMatch) ∈ noteHit sorter s now ms := by
  have hperm := perm_sortedHits hms sorter s now
  have hlength := length_sortedHits hms sorter s now
  rw [List.filter_eq_self.mpr fun m hm => decide_eq_true (hnew m hm)] at hlength
  by_contra hnot
  have hle := Sorting.le_of_not_mem_take (l := sortedHits sorter s now ms)
    (sorter.pairwise_key (fun m : ComboMatch => m.hitCount.toNat) _) (by omega)
    (hperm.mem_iff.mpr (mem_touch.mpr (.inr rfl))) hnot
    (hperm.mem_iff.mpr (mem_touch.mpr (.inl ⟨hm, hnew m hm⟩)))
  rw [hitsOf_of_forall hnew, hzero] at hle
  exact absurd hle (show ¬(1 : ℕ) ≤ 0 from Nat.not_succ_le_zero 0)

/-- **A full list of matches with hits drops a symbol that is new**, if the sort leaves equals in
their order. -/
theorem not_mem_noteHit (hms : (ms.map ComboMatch.symbolID).Nodup)
    (hlen : maxComboEntriesPerQuery ≤ ms.length) (hnew : ∀ m ∈ ms, m.symbolID ≠ s)
    (hhits : ∀ m ∈ ms, m.hitCount ≠ 0) (now : ℤ) :
    ∀ m ∈ noteHit (Sorting.Sorter.stable _) s now ms, m.symbolID ≠ s := by
  have hstable : sortedHits (Sorting.Sorter.stable _) s now ms =
      Sorting.stable (fun m : ComboMatch => m.hitCount.toNat) (ms ++ [⟨s, 1, now⟩]) := by
    rw [sortedHits, noteMatch_of_forall hnew, Sorting.Sorter.stable_key]
  have hmem : ∀ m, m ∈ sortedHits (Sorting.Sorter.stable _) s now ms ↔
      m ∈ ms ∨ m = ⟨s, 1, now⟩ := fun m => by
    rw [hstable, (Sorting.perm_stable _ _).mem_iff, List.mem_append, List.mem_singleton]
  -- every old match stands before the symbol
  obtain ⟨pre, hpre, hnot⟩ := Sorting.exists_concat
    (nodup_sortedHits hms (Sorting.Sorter.stable _) s now).of_map
    ((hmem ⟨s, 1, now⟩).mpr (.inr rfl))
    fun m hm hne => by
      have hold := ((hmem m).mp hm).resolve_right hne
      rw [hstable]
      refine Sorting.pair_sublist_stable ?_
        ((List.singleton_sublist.mpr hold).append (List.Sublist.refl [_]))
      exact Nat.one_le_iff_ne_zero.mpr fun hc => hhits m hold (UInt32.toNat_inj.mp hc)
  have hlength := length_sortedHits hms (Sorting.Sorter.stable _) s now
  rw [hpre, List.filter_eq_self.mpr fun m hm => decide_eq_true (hnew m hm), List.length_append,
    List.length_singleton] at hlength
  intro m hm hs
  change m ∈ (sortedHits _ s now ms).take maxComboEntriesPerQuery at hm
  have hms' := ((hmem m).mp (List.mem_of_mem_take hm)).resolve_left fun hc => hnew m hc hs
  rw [hpre, List.take_append_of_le_length (by omega)] at hm
  exact hnot (hms' ▸ List.mem_of_mem_take hm)

/-! ### A record -/

/-- The matches of a query. -/
def matchesOf (q : String) (queries : List ComboQuery) : List ComboMatch :=
  (queries.find? fun cq => cq.query = q).elim [] ComboQuery.matched

/-- The cut of the queries where they are written. -/
def cut (dir : String) (queries : List ComboQuery) : List ComboQuery :=
  if dir = "" then queries else keep maxComboQueries queries

theorem trimQueries_eq (queries : List ComboQuery) :
    trimQueries queries = keep maxComboQueries queries := by
  rw [trimQueries]
  split_ifs with h
  · rfl
  · rw [keep, Nat.sub_eq_zero_of_le (not_lt.mp h), List.drop_zero]

theorem cut_sublist (dir : String) (queries : List ComboQuery) :
    (cut dir queries).Sublist queries := by
  rw [cut]
  split_ifs
  · exact List.Sublist.refl queries
  · exact keep_sublist _ _

/-- A match that is not too old at a time. -/
def fresh (now maxAge : ℤ) (m : ComboMatch) : Bool := now - maxAge ≤ m.lastUsed

/-- A query without its old matches. -/
def reap (now maxAge : ℤ) (cq : ComboQuery) : ComboQuery :=
  { cq with matched := cq.matched.filter (fresh now maxAge) }

theorem queries_reapStaleLocked (now : ℤ) (cm : ComboManager) :
    (cm.reapStaleLocked now).queries = cm.queries.map (reap now cm.maxAgeSec) := rfl

theorem map_query_reap (now maxAge : ℤ) (queries : List ComboQuery) :
    (queries.map (reap now maxAge)).map ComboQuery.query = queries.map ComboQuery.query := by
  rw [List.map_map]
  rfl

theorem moveToEndLocked_split {pre post : List ComboQuery} {cq : ComboQuery} :
    moveToEndLocked pre.length (pre ++ cq :: post) = pre ++ post ++ [cq] := by
  rw [moveToEndLocked, List.length_append, List.length_cons]
  split_ifs with h
  · obtain rfl : post = [] := List.eq_nil_of_length_eq_zero (by omega)
    rw [List.append_nil]
  · rw [eraseIdx_split, List.getElem?_append_right le_rfl, Nat.sub_self,
      List.getElem?_cons_zero, Option.toList_some]

/-- The queries after a hit, the one of the hit at the end. -/
def touchQuery (sorter : Sorting.Sorter ComboMatch) (now : ℤ) (q s : String)
    (queries : List ComboQuery) : List ComboQuery :=
  touch ComboQuery.query ⟨q, noteHit sorter s now (matchesOf q queries)⟩ queries

theorem noteHit_nil (sorter : Sorting.Sorter ComboMatch) (s : String) (now : ℤ) :
    noteHit sorter s now [] = [⟨s, 1, now⟩] := by
  have hnil : (([] : List ComboMatch).map ComboMatch.symbolID).Nodup := List.nodup_nil
  have hsingle : sortedHits sorter s now [] = [⟨s, 1, now⟩] :=
    List.perm_singleton.mp (perm_sortedHits hnil sorter s now)
  rw [sortedHits] at hsingle
  rw [noteHit, hsingle]
  rfl

theorem matchesOf_of_mem {queries : List ComboQuery} {cq : ComboQuery}
    (hnodup : (queries.map ComboQuery.query).Nodup) (hcq : cq ∈ queries) :
    matchesOf cq.query queries = cq.matched := by
  rw [matchesOf, find?_of_mem hnodup hcq, Option.elim_some]

theorem hitQuery_eq (hcm : (cm.queries.map ComboQuery.query).Nodup)
    (sorter : Sorting.Sorter ComboMatch) (now : ℤ) (q s : String) :
    hitQuery sorter now q s cm = touchQuery sorter now q s cm.queries := by
  obtain ⟨queries, dir, mode⟩ := cm
  rw [hitQuery, findQueryLocked, touchQuery, touch]
  cases hi : queries.findIdx? fun cq => cq.query = q with
  | none =>
    have hnone : ∀ cq ∈ queries, cq.query ≠ q := fun cq hcq =>
      of_decide_eq_false (List.findIdx?_eq_none_iff.mp hi cq hcq)
    have hmatches : matchesOf q queries = [] := by
      rw [matchesOf, List.find?_eq_none.mpr fun cq hcq => by simpa using hnone cq hcq,
        Option.elim_none]
    rw [hmatches, noteHit_nil,
      List.filter_eq_self.mpr fun cq hcq => decide_eq_true (hnone cq hcq)]
  | some i =>
    obtain ⟨pre, cq, post, rfl, rfl, rfl, -⟩ := exists_split hi
    rw [matchesOf_of_mem hcm (List.mem_append_right pre List.mem_cons_self), filter_split hcm]
    simp only [modify_split, moveToEndLocked_split]

/-- **What a record does**: the query, with the hit counted, comes to the end of those that are
left after reaping, and the queries are cut where they are written. -/
theorem record_eq (hcm : (cm.queries.map ComboQuery.query).Nodup)
    (hq : normalizeQuery toLower rawQuery = q) (hne : q ≠ "") (hs : s ≠ "") :
    cm.record sorter toLower now rawQuery s =
      { cm with
        queries :=
          cut cm.dir (touchQuery sorter now q s (cm.queries.map (reap now cm.maxAgeSec))) } := by
  have hnodup : ((cm.reapStaleLocked now).queries.map ComboQuery.query).Nodup := by
    rwa [queries_reapStaleLocked, map_query_reap]
  simp only [record, hq, hne, hs, or_self, if_false]
  rw [hitQuery_eq hnodup, queries_reapStaleLocked, cut, trimQueries_eq]
  change (if cm.dir = "" then _ else _) = _
  split_ifs <;> rfl

end ComboManager

/-! ### The system -/

/-- What becomes of the file when it is written: it is, or it is left as it was, or it cannot be
read. -/
inductive FileWrite
  | done
  | left
  | broken

/-- What is read of the file after a write. -/
def FileWrite.after (disk queries : List ComboQuery) : FileWrite → List ComboQuery
  | done => queries
  | left => disk
  | broken => []

/-- What happens to a tracker: a symbol is recorded, the boosts are asked for, or the program is
started anew. -/
inductive ComboOp
  | record (now : ℤ) (rawQuery symbolID : String) (write : FileWrite)
  | boostMap (now : ℤ) (rawQuery : String)
  | restart (mode : AgentMode)

/-- The query and the symbol that are recorded, if any are. -/
def ComboOp.target (toLower : String → String) : ComboOp → Option (String × String)
  | record _ rawQuery symbolID _ =>
    if normalizeQuery toLower rawQuery = "" ∨ symbolID = "" then none
    else some (normalizeQuery toLower rawQuery, symbolID)
  | _ => none

/-- The tracker, and what is read of its file. -/
structure ComboSystem where
  manager : ComboManager
  disk : List ComboQuery

namespace ComboSystem

variable (sorter : Sorting.Sorter ComboMatch) (toLower : String → String)

/-- A tracker for a directory without a file. -/
def start (dir : String) (mode : AgentMode) : ComboSystem := ⟨⟨[], dir, mode⟩, []⟩

/-- One operation. A record that is not made writes nothing. -/
def apply (sys : ComboSystem) : ComboOp → ComboSystem
  | .record now rawQuery symbolID write =>
    let cm := sys.manager.record sorter toLower now rawQuery symbolID
    { manager := cm
      disk :=
        if (ComboOp.record now rawQuery symbolID write).target toLower = none ∨ cm.dir = "" then
          sys.disk
        else write.after sys.disk cm.queries }
  | .boostMap now rawQuery =>
    { sys with manager := (sys.manager.boostMap ℚ toLower now rawQuery).1 }
  | .restart mode =>
    { sys with
      manager :=
        { queries := if sys.manager.dir = "" then [] else sys.disk
          dir := sys.manager.dir
          mode := mode } }

/-- A list of operations. -/
def run (sys : ComboSystem) (ops : List ComboOp) : ComboSystem :=
  ops.foldl (apply sorter toLower) sys

/-- How often a symbol has been recorded for a query. -/
def recorded (ops : List ComboOp) (q s : String) : ℕ :=
  (ops.filterMap (ComboOp.target toLower)).count (q, s)

end ComboSystem

/-! ### Tidy queries -/

/-- **The queries are tidy**, with at most so many hits. -/
structure Tidy (n : String → String → ℕ) (queries : List ComboQuery) : Prop where
  nodup : (queries.map ComboQuery.query).Nodup
  length_le : ∀ cq ∈ queries, cq.matched.length ≤ maxComboEntriesPerQuery
  symbols : ∀ cq ∈ queries, (cq.matched.map ComboMatch.symbolID).Nodup
  hits : ∀ cq ∈ queries, ∀ m ∈ cq.matched, m.hitCount.toNat ≤ n cq.query m.symbolID

namespace Tidy

open ComboManager

variable {n n' : String → String → ℕ} {queries queries' : List ComboQuery} {q s : String}

theorem nil (n : String → String → ℕ) : Tidy n [] :=
  ⟨List.nodup_nil, fun _ h => absurd h List.not_mem_nil, fun _ h => absurd h List.not_mem_nil,
    fun _ h => absurd h List.not_mem_nil⟩

theorem mono (h : Tidy n queries) (hn : ∀ q s, n q s ≤ n' q s) : Tidy n' queries where
  nodup := h.nodup
  length_le := h.length_le
  symbols := h.symbols
  hits cq hcq m hm := (h.hits cq hcq m hm).trans (hn _ _)

theorem sublist (h : Tidy n queries) (hsub : queries'.Sublist queries) : Tidy n queries' where
  nodup := h.nodup.sublist (hsub.map _)
  length_le cq hcq := h.length_le cq (hsub.subset hcq)
  symbols cq hcq := h.symbols cq (hsub.subset hcq)
  hits cq hcq := h.hits cq (hsub.subset hcq)

theorem map_reap (h : Tidy n queries) (now maxAge : ℤ) :
    Tidy n (queries.map (reap now maxAge)) where
  nodup := by
    rw [map_query_reap]
    exact h.nodup
  length_le cq hcq := by
    obtain ⟨cq, hmem, rfl⟩ := List.mem_map.mp hcq
    exact (List.length_filter_le _ _).trans (h.length_le cq hmem)
  symbols cq hcq := by
    obtain ⟨cq, hmem, rfl⟩ := List.mem_map.mp hcq
    exact (h.symbols cq hmem).sublist (List.filter_sublist.map _)
  hits cq hcq m hm := by
    obtain ⟨cq, hmem, rfl⟩ := List.mem_map.mp hcq
    exact h.hits cq hmem m (List.mem_of_mem_filter hm)

/-- The matches of a query are none, or those of its entry. -/
theorem matchesOf_cases (q : String) (queries : List ComboQuery) :
    matchesOf q queries = [] ∨
      ∃ cq ∈ queries, cq.query = q ∧ matchesOf q queries = cq.matched := by
  rw [matchesOf]
  cases hcq : queries.find? fun cq => cq.query = q with
  | none => exact .inl rfl
  | some cq =>
    exact .inr ⟨cq, List.mem_of_find?_eq_some hcq, by simpa using List.find?_some hcq, rfl⟩

theorem length_matchesOf_le (h : Tidy n queries) (q : String) :
    (matchesOf q queries).length ≤ maxComboEntriesPerQuery := by
  rcases matchesOf_cases q queries with hnil | ⟨cq, hcq, -, hms⟩
  · rw [hnil]
    exact Nat.zero_le _
  · rw [hms]
    exact h.length_le cq hcq

theorem nodup_matchesOf (h : Tidy n queries) (q : String) :
    ((matchesOf q queries).map ComboMatch.symbolID).Nodup := by
  rcases matchesOf_cases q queries with hnil | ⟨cq, hcq, -, hms⟩
  · rw [hnil]
    exact List.nodup_nil
  · rw [hms]
    exact h.symbols cq hcq

theorem hits_matchesOf (h : Tidy n queries) {m : ComboMatch} (hm : m ∈ matchesOf q queries) :
    m.hitCount.toNat ≤ n q m.symbolID := by
  rcases matchesOf_cases q queries with hnil | ⟨cq, hcq, rfl, hms⟩
  · exact absurd (hnil ▸ hm) List.not_mem_nil
  · exact h.hits cq hcq m (hms ▸ hm)

theorem toNat_add_one_le (c : UInt32) : (c + 1).toNat ≤ c.toNat + 1 := by
  rw [UInt32.toNat_add]
  exact Nat.mod_le _ _

theorem hitsOf_matchesOf_le (h : Tidy n queries) (q s : String) :
    (hitsOf s (matchesOf q queries)).toNat ≤ n q s := by
  by_cases hnew : ∀ m ∈ matchesOf q queries, m.symbolID ≠ s
  · rw [hitsOf_of_forall hnew]
    exact Nat.zero_le _
  · push Not at hnew
    obtain ⟨m, hm, rfl⟩ := hnew
    rw [hitsOf_of_mem (h.nodup_matchesOf q) hm]
    exact h.hits_matchesOf hm

/-- **A hit keeps the queries tidy**, and counts once. -/
theorem touchQuery (h : Tidy n queries) (sorter : Sorting.Sorter ComboMatch) (now : ℤ)
    (hn : ∀ q' s', n q' s' ≤ n' q' s') (hone : n q s + 1 ≤ n' q s) :
    Tidy n' (touchQuery sorter now q s queries) where
  nodup := nodup_touch h.nodup _
  length_le cq hcq := by
    rcases mem_touch.mp hcq with ⟨hcq, -⟩ | rfl
    · exact h.length_le cq hcq
    · exact length_noteHit_le sorter s now _
  symbols cq hcq := by
    rcases mem_touch.mp hcq with ⟨hcq, -⟩ | rfl
    · exact h.symbols cq hcq
    · exact nodup_noteHit (h.nodup_matchesOf q) sorter s now
  hits cq hcq m hm := by
    rcases mem_touch.mp hcq with ⟨hcq, -⟩ | rfl
    · exact (h.hits cq hcq m hm).trans (hn _ _)
    · rcases mem_noteHit (h.nodup_matchesOf q) hm with ⟨hm, -⟩ | rfl
      · exact (h.hits_matchesOf hm).trans (hn _ _)
      · exact ((toNat_add_one_le _).trans (Nat.succ_le_succ (h.hitsOf_matchesOf_le q s))).trans hone

end Tidy

namespace ComboManager

variable {cm : ComboManager} {sorter : Sorting.Sorter ComboMatch} {toLower : String → String}

theorem boostMap_fst (K : Type) [Field K] [LinearOrder K] (toLower : String → String) (now : ℤ)
    (rawQuery : String) (cm : ComboManager) : (cm.boostMap K toLower now rawQuery).1 =
      if normalizeQuery toLower rawQuery = "" then cm else cm.reapStaleLocked now := by
  rw [boostMap]
  split_ifs <;> rfl

theorem record_of_target_none {now : ℤ} {rawQuery symbolID : String} {write : FileWrite}
    (h : (ComboOp.record now rawQuery symbolID write).target toLower = none) :
    cm.record sorter toLower now rawQuery symbolID = cm := by
  rw [ComboOp.target] at h
  split_ifs at h with hnone
  rw [record, if_pos hnone]

theorem target_eq_some {now : ℤ} {rawQuery symbolID q s : String} {write : FileWrite} :
    (ComboOp.record now rawQuery symbolID write).target toLower = some (q, s) ↔
      normalizeQuery toLower rawQuery = q ∧ q ≠ "" ∧ symbolID = s ∧ s ≠ "" := by
  rw [ComboOp.target]
  constructor
  · intro h
    split_ifs at h with hnone
    rw [not_or] at hnone
    obtain ⟨rfl, rfl⟩ := Prod.mk.inj (Option.some_inj.mp h)
    exact ⟨rfl, hnone.1, rfl, hnone.2⟩
  · rintro ⟨rfl, hq, rfl, hs⟩
    rw [if_neg (not_or.mpr ⟨hq, hs⟩)]

end ComboManager

namespace ComboSystem

open ComboManager

variable (sorter : Sorting.Sorter ComboMatch) (toLower : String → String)

theorem run_concat (sys : ComboSystem) (ops : List ComboOp) (op : ComboOp) :
    run sorter toLower sys (ops ++ [op]) = apply sorter toLower (run sorter toLower sys ops) op :=
  List.foldl_concat ..

theorem recorded_concat (ops : List ComboOp) (op : ComboOp) (q s : String) :
    recorded toLower (ops ++ [op]) q s =
      recorded toLower ops q s + if op.target toLower = some (q, s) then 1 else 0 := by
  rw [recorded, List.filterMap_append, List.count_append, recorded]
  congr 1
  cases h : op.target toLower with
  | none =>
    rw [List.filterMap_cons_none h, if_neg nofun]
    rfl
  | some p =>
    rw [List.filterMap_cons_some h, List.filterMap_nil, List.count_singleton]
    simp only [Option.some_inj, beq_iff_eq]

variable {sorter toLower} {n n' : String → String → ℕ} {sys : ComboSystem}

/-- A system with tidy queries, in memory and on disk. -/
structure Tidied (n : String → String → ℕ) (sys : ComboSystem) : Prop where
  memory : Tidy n sys.manager.queries
  disk : Tidy n sys.disk

/-- **An operation keeps a system tidy**, and counts for the query and the symbol it records. -/
theorem Tidied.apply (h : Tidied n sys) {op : ComboOp} (hn : ∀ q s, n q s ≤ n' q s)
    (hone : ∀ q s, op.target toLower = some (q, s) → n q s + 1 ≤ n' q s) :
    Tidied n' (apply sorter toLower sys op) := by
  cases op with
  | record now rawQuery symbolID write =>
    have hrecord : Tidy n' (sys.manager.record sorter toLower now rawQuery symbolID).queries := by
      cases htarget : (ComboOp.record now rawQuery symbolID write).target toLower with
      | none =>
        rw [record_of_target_none htarget]
        exact h.memory.mono hn
      | some p =>
        obtain ⟨hq, hne, rfl, hs⟩ := target_eq_some.mp htarget
        rw [record_eq h.memory.nodup hq hne hs]
        exact ((h.memory.map_reap now sys.manager.maxAgeSec).touchQuery sorter now hn
          (hone _ _ htarget)).sublist (cut_sublist _ _)
    refine ⟨hrecord, ?_⟩
    simp only [ComboSystem.apply]
    split_ifs
    · exact h.disk.mono hn
    · cases write with
      | done => exact hrecord
      | left => exact h.disk.mono hn
      | broken => exact Tidy.nil _
  | boostMap now rawQuery =>
    refine ⟨?_, h.disk.mono hn⟩
    simp only [ComboSystem.apply, boostMap_fst]
    split_ifs
    · exact h.memory.mono hn
    · exact (h.memory.map_reap now sys.manager.maxAgeSec).mono hn
  | restart mode =>
    refine ⟨?_, h.disk.mono hn⟩
    simp only [ComboSystem.apply]
    split_ifs
    · exact Tidy.nil _
    · exact h.disk.mono hn

variable (sorter toLower)

/-- **Every state is tidy**, in memory and on disk, and no symbol has more hits than it has been
recorded. -/
theorem tidied_run (dir : String) (mode : AgentMode) (ops : List ComboOp) :
    Tidied (recorded toLower ops) (run sorter toLower (start dir mode) ops) := by
  induction ops using List.reverseRecOn with
  | nil => exact ⟨Tidy.nil _, Tidy.nil _⟩
  | append_singleton ops op ih =>
    rw [run_concat]
    refine ih.apply (fun q s => ?_) fun q s htarget => ?_
    · rw [recorded_concat]
      exact Nat.le_add_right _ _
    · rw [recorded_concat, if_pos htarget]

end ComboSystem

end Mcp

end Gortex
