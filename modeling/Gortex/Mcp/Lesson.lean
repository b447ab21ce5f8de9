import Gortex.Mcp.Learning

/-!
# Learning a symbol

A symbol that is recorded for a query as often as it takes is boosted, unless it is lost on the
way. A match is followed from its first record on: the operations between two records leave it
where it is, while the queries that come behind its own are fewer than are kept
(`Gortex.Mcp.Kept.quiet`), and each record adds a hit (`Gortex.Mcp.Kept.record`). What has been
lost has too few records left (`Gortex.Mcp.Lost.turns`).
-/

namespace Gortex

namespace Mcp

open Recent ComboManager ComboSystem

/-! ### Lessons -/

/-- When an operation takes place, if it looks at the clock. -/
def ComboOp.time : ComboOp → Option ℤ
  | record now _ _ _ => some now
  | boostMap now _ => some now
  | restart _ => none

/-- An operation that records nothing for a query, and is no restart. -/
def ComboOp.Quiet (toLower : String → String) (q : String) (op : ComboOp) : Prop :=
  (∀ s, op.target toLower ≠ some (q, s)) ∧ ∀ mode, op ≠ .restart mode

/-- The queries that operations record something for. -/
def touched (toLower : String → String) (ops : List ComboOp) : Finset String :=
  ((ops.filterMap (ComboOp.target toLower)).map Prod.fst).toFinset

/-- A record of the symbol, and what happens between it and the next one. -/
structure Turn where
  now : ℤ
  rawQuery : String
  write : FileWrite
  between : List ComboOp

/-- The operations of some turns. -/
def turnOps (s : String) (turns : List Turn) : List ComboOp :=
  turns.flatMap fun i => .record i.now i.rawQuery s i.write :: i.between

/-- **A symbol is recorded for a query as often as it takes to be boosted**, with no other record
for that query in between, and then the boosts of the query are asked for. No record is too old
at any time of this. -/
structure Lesson (toLower : String → String) (maxAge : ℤ) where
  query : String
  symbolID : String
  first : Turn
  rest : List Turn
  now : ℤ
  rawQuery : String
  query_ne : query ≠ ""
  symbolID_ne : symbolID ≠ ""
  length_turns : (first :: rest).length = comboMinHits
  recorded : ∀ i ∈ first :: rest, normalizeQuery toLower i.rawQuery = query
  quiet : ∀ i ∈ first :: rest, ∀ op ∈ i.between, op.Quiet toLower query
  asked : normalizeQuery toLower rawQuery = query
  young : ∀ i ∈ first :: rest, ∀ t, (some t ∈ (turnOps symbolID (first :: rest)).map ComboOp.time ∨
    t = now) → t ≤ i.now + maxAge

variable {toLower : String → String} {sorter : Sorting.Sorter ComboMatch}

/-! ### A match that is kept -/

/-- **A query holds a match** with so many hits, last used at a time, and so much stands behind
the query. -/
def Kept (q s : String) (c : UInt32) (t : ℤ) (behind : Finset String) (cm : ComboManager) : Prop :=
  ∃ cq, Holds ComboQuery.query cq behind cm.queries ∧ cq.query = q ∧ ⟨s, c, t⟩ ∈ cq.matched

/-- **A query holds no match of a symbol** with more than so many hits. -/
def Lost (q s : String) (k : ℕ) (cm : ComboManager) : Prop :=
  ∀ cq ∈ cm.queries, cq.query = q → ∀ m ∈ cq.matched, m.symbolID = s → m.hitCount.toNat ≤ k

variable {q s : String} {c : UInt32} {t now : ℤ} {behind : Finset String} {k : ℕ}
  {cm : ComboManager} {sys : ComboSystem} {n : String → String → ℕ}

theorem Lost.mono {k' : ℕ} (h : Lost q s k cm) (hk : k ≤ k') : Lost q s k' cm :=
  fun cq hcq hq m hm hs => (h cq hcq hq m hm hs).trans hk

/-- Reaping keeps a match that is not too old. -/
theorem Kept.map_reap (h : Kept q s c t behind cm) (ht : now ≤ t + cm.maxAgeSec) :
    Kept q s c t behind { cm with queries := cm.queries.map (reap now cm.maxAgeSec) } := by
  obtain ⟨cq, hholds, hq, hm⟩ := h
  refine ⟨reap now cm.maxAgeSec cq, hholds.map fun _ => rfl, hq, List.mem_filter.mpr ⟨hm, ?_⟩⟩
  exact decide_eq_true (show now - cm.maxAgeSec ≤ t by omega)

theorem Lost.map_reap (h : Lost q s k cm) (now : ℤ) :
    Lost q s k { cm with queries := cm.queries.map (reap now cm.maxAgeSec) } := by
  intro cq hcq hq m hm hs
  obtain ⟨cq, hmem, rfl⟩ := List.mem_map.mp hcq
  exact h cq hmem hq m (List.mem_of_mem_filter hm) hs

/-- Cutting keeps a query behind which less stands than is kept. -/
theorem Kept.cut (h : Kept q s c t behind cm)
    (hfew : cm.dir = "" ∨ behind.card < maxComboQueries) :
    Kept q s c t behind { cm with queries := cut cm.dir cm.queries } := by
  obtain ⟨cq, hholds, hq, hm⟩ := h
  refine ⟨cq, ?_, hq, hm⟩
  simp only [ComboManager.cut]
  split_ifs with hdir
  · exact hholds
  · exact hholds.keep (hfew.resolve_left hdir)

/-- A query behind which as much stands as is kept is cut off. -/
theorem Kept.lost (h : Kept q s c t behind cm) (hdir : cm.dir ≠ "")
    (hmany : maxComboQueries ≤ behind.card) :
    Lost q s 0 { cm with queries := ComboManager.cut cm.dir cm.queries } := by
  obtain ⟨cq, hholds, hq, -⟩ := h
  intro cq' hcq' hq'
  simp only [ComboManager.cut, if_neg hdir] at hcq'
  exact absurd (hq'.trans hq.symm) (hholds.not_mem_keep hmany cq' hcq')

theorem Lost.cut (h : Lost q s k cm) :
    Lost q s k { cm with queries := ComboManager.cut cm.dir cm.queries } :=
  fun cq hcq => h cq ((cut_sublist _ _).subset hcq)

/-! ### One operation -/

/-- The other query comes behind. -/
theorem Kept.touchQuery {q' : String} (h : Kept q s c t behind cm) (hne : q' ≠ q)
    (sorter : Sorting.Sorter ComboMatch) (now : ℤ) (s' : String) :
    Kept q s c t (insert q' behind)
      { cm with queries := touchQuery sorter now q' s' cm.queries } := by
  obtain ⟨cq, hholds, rfl, hm⟩ := h
  exact ⟨cq, hholds.touch hne, rfl, hm⟩

theorem Lost.touchQuery {q' : String} (h : Lost q s k cm) (hne : q' ≠ q)
    (sorter : Sorting.Sorter ComboMatch) (now : ℤ) (s' : String) :
    Lost q s k { cm with queries := ComboManager.touchQuery sorter now q' s' cm.queries } := by
  intro cq hcq hq m hm hs
  rcases mem_touch.mp hcq with ⟨hcq, -⟩ | rfl
  · exact h cq hcq hq m hm hs
  · exact absurd hq hne

/-- What is behind after an operation. -/
def behindAfter (toLower : String → String) (behind : Finset String) (op : ComboOp) :
    Finset String :=
  (op.target toLower).elim behind fun p => insert p.1 behind

/-- **An operation that records nothing for the query** leaves a match where it is, if less than
is kept comes behind, and loses it else. -/
theorem Kept.quiet (h : Kept q s c t behind sys.manager) (hsys : Tidied n sys) {op : ComboOp}
    (hop : op.Quiet toLower q)
    (ht : ∀ t', op.time = some t' → t' ≤ t + sys.manager.maxAgeSec) :
    (sys.manager.dir = "" ∨ (behindAfter toLower behind op).card < maxComboQueries →
      Kept q s c t (behindAfter toLower behind op)
        (ComboSystem.apply sorter toLower sys op).manager) ∧
    (behind.card < maxComboQueries → sys.manager.dir ≠ "" →
      maxComboQueries ≤ (behindAfter toLower behind op).card →
      Lost q s 0 (ComboSystem.apply sorter toLower sys op).manager) := by
  cases op with
  | restart mode => exact absurd rfl (hop.2 mode)
  | boostMap now rawQuery =>
    refine ⟨fun _ => ?_, fun hfew _ hmany => absurd hfew hmany.not_gt⟩
    simp only [ComboSystem.apply, boostMap_fst]
    split_ifs
    · exact h
    · exact h.map_reap (ht now rfl)
  | record now rawQuery symbolID write =>
    simp only [ComboSystem.apply, behindAfter]
    cases htarget : (ComboOp.record now rawQuery symbolID write).target toLower with
    | none =>
      rw [record_of_target_none htarget]
      exact ⟨fun _ => h, fun hfew _ hmany => absurd hfew hmany.not_gt⟩
    | some p =>
      obtain ⟨hq, hne, rfl, hs⟩ := target_eq_some.mp htarget
      have hother : p.1 ≠ q := fun hc => hop.1 p.2 (by rw [htarget, ← hc])
      have htouch := (h.map_reap (ht now rfl)).touchQuery hother sorter now p.2
      rw [record_eq hsys.memory.nodup hq hne hs]
      exact ⟨fun hfew => htouch.cut hfew, fun _ hdir hmany => htouch.lost hdir hmany⟩

/-- What is lost stays so. -/
theorem Lost.quiet (h : Lost q s k sys.manager) (hsys : Tidied n sys) {op : ComboOp}
    (hop : op.Quiet toLower q) :
    Lost q s k (ComboSystem.apply sorter toLower sys op).manager := by
  cases op with
  | restart mode => exact absurd rfl (hop.2 mode)
  | boostMap now rawQuery =>
    simp only [ComboSystem.apply, boostMap_fst]
    split_ifs
    · exact h
    · exact h.map_reap now
  | record now rawQuery symbolID write =>
    simp only [ComboSystem.apply]
    cases htarget : (ComboOp.record now rawQuery symbolID write).target toLower with
    | none =>
      rw [record_of_target_none htarget]
      exact h
    | some p =>
      obtain ⟨hq, hne, rfl, hs⟩ := target_eq_some.mp htarget
      have hother : p.1 ≠ q := fun hc => hop.1 p.2 (by rw [htarget, ← hc])
      rw [record_eq hsys.memory.nodup hq hne hs]
      exact ((h.map_reap now).touchQuery hother sorter now p.2).cut

/-- The manager keeps its directory and its mode in operations that are no restart. -/
theorem dir_mode_apply (sorter : Sorting.Sorter ComboMatch) (toLower : String → String)
    (sys : ComboSystem) {op : ComboOp} (hop : ∀ mode, op ≠ .restart mode) :
    (ComboSystem.apply sorter toLower sys op).manager.dir = sys.manager.dir ∧
      (ComboSystem.apply sorter toLower sys op).manager.mode = sys.manager.mode := by
  cases op with
  | restart mode => exact absurd rfl (hop mode)
  | boostMap now rawQuery =>
    simp only [ComboSystem.apply, boostMap_fst]
    split_ifs <;> exact ⟨rfl, rfl⟩
  | record now rawQuery symbolID write =>
    simp only [ComboSystem.apply, ComboManager.record]
    split_ifs <;> exact ⟨rfl, rfl⟩

theorem maxAgeSec_congr {cm cm' : ComboManager} (h : cm'.mode = cm.mode) :
    cm'.maxAgeSec = cm.maxAgeSec := by
  rw [maxAgeSec, maxAgeSec, h]

/-- The matches of a query that are young enough at a time. -/
def freshMatches (now : ℤ) (q : String) (cm : ComboManager) : List ComboMatch :=
  matchesOf q (cm.queries.map (reap now cm.maxAgeSec))

/-- A match that is held and not too old is found. -/
theorem Kept.mem_freshMatches (h : Kept q s c t behind cm) (ht : now ≤ t + cm.maxAgeSec) :
    ⟨s, c, t⟩ ∈ freshMatches now q cm := by
  obtain ⟨cq, hholds, rfl, hm⟩ := h.map_reap ht
  rwa [freshMatches, matchesOf_of_mem hholds.1 hholds.mem]

theorem nodup_freshMatches (hsys : Tidied n sys) (now : ℤ) (q : String) :
    ((freshMatches now q sys.manager).map ComboMatch.symbolID).Nodup :=
  (hsys.memory.map_reap now sys.manager.maxAgeSec).nodup_matchesOf q

theorem length_freshMatches_le (hsys : Tidied n sys) (now : ℤ) (q : String) :
    (freshMatches now q sys.manager).length ≤ maxComboEntriesPerQuery :=
  (hsys.memory.map_reap now sys.manager.maxAgeSec).length_matchesOf_le q

theorem Lost.freshMatches_le (h : Lost q s k cm) (now : ℤ) {m : ComboMatch}
    (hm : m ∈ freshMatches now q cm) (hs : m.symbolID = s) : m.hitCount.toNat ≤ k := by
  rcases Tidy.matchesOf_cases q (cm.queries.map (reap now cm.maxAgeSec)) with
    hnil | ⟨cq, hcq, hq, heq⟩
  · rw [freshMatches, hnil] at hm
    exact absurd hm List.not_mem_nil
  · rw [freshMatches, heq] at hm
    exact h.map_reap now cq hcq hq m hm hs

theorem Lost.hitsOf_le (hsys : Tidied n sys) (h : Lost q s k sys.manager) (now : ℤ) :
    (hitsOf s (freshMatches now q sys.manager)).toNat ≤ k := by
  by_cases hnew : ∀ m ∈ freshMatches now q sys.manager, m.symbolID ≠ s
  · rw [hitsOf_of_forall hnew]
    exact Nat.zero_le k
  · push Not at hnew
    obtain ⟨m, hm, rfl⟩ := hnew
    rw [hitsOf_of_mem (nodup_freshMatches hsys now q) hm]
    exact h.freshMatches_le now hm rfl

/-- The manager after a record of the symbol. -/
theorem manager_record {rawQuery : String} {write : FileWrite} (hsys : Tidied n sys)
    (htarget : (ComboOp.record now rawQuery s write).target toLower = some (q, s)) :
    (ComboSystem.apply sorter toLower sys (.record now rawQuery s write)).manager =
      { sys.manager with
        queries := cut sys.manager.dir (touch ComboQuery.query
          ⟨q, noteHit sorter s now (freshMatches now q sys.manager)⟩
          (sys.manager.queries.map (reap now sys.manager.maxAgeSec))) } := by
  obtain ⟨hq, hne, -, hs⟩ := target_eq_some.mp htarget
  exact record_eq hsys.memory.nodup hq hne hs

/-- The matches of the query are those after the hit. -/
theorem matched_of_record {rawQuery : String} {write : FileWrite} (hsys : Tidied n sys)
    (htarget : (ComboOp.record now rawQuery s write).target toLower = some (q, s))
    {cq : ComboQuery} (hq : cq.query = q)
    (hcq : cq ∈
      (ComboSystem.apply sorter toLower sys (.record now rawQuery s write)).manager.queries) :
    cq.matched = noteHit sorter s now (freshMatches now q sys.manager) := by
  rw [manager_record hsys htarget] at hcq
  rcases mem_touch.mp ((cut_sublist _ _).subset hcq) with ⟨-, hc⟩ | rfl
  · exact absurd hq hc
  · rfl

section Record

variable {rawQuery : String} {write : FileWrite} (hsys : Tidied n sys)
  (htarget : (ComboOp.record now rawQuery s write).target toLower = some (q, s))
include hsys htarget

/-- **A record adds a hit**, if the cut keeps the match. -/
theorem kept_record
    (h : (⟨s, hitsOf s (freshMatches now q sys.manager) + 1, now⟩ : ComboMatch) ∈
      noteHit sorter s now (freshMatches now q sys.manager)) :
    Kept q s (hitsOf s (freshMatches now q sys.manager) + 1) now ∅
      (ComboSystem.apply sorter toLower sys (.record now rawQuery s write)).manager := by
  have hnodup := (hsys.memory.map_reap now sys.manager.maxAgeSec).nodup
  have hkept : Kept q s (hitsOf s (freshMatches now q sys.manager) + 1) now ∅
      { sys.manager with
        queries := touch ComboQuery.query
          ⟨q, noteHit sorter s now (freshMatches now q sys.manager)⟩
          (sys.manager.queries.map (reap now sys.manager.maxAgeSec)) } :=
    ⟨_, holds_touch hnodup _, rfl, h⟩
  rw [manager_record hsys htarget]
  exact hkept.cut (.inr (by decide))

/-- The symbol is lost, if the cut drops it. -/
theorem lost_record
    (h : ∀ m ∈ noteHit sorter s now (freshMatches now q sys.manager), m.symbolID ≠ s) :
    Lost q s 0 (ComboSystem.apply sorter toLower sys (.record now rawQuery s write)).manager := by
  intro cq hcq hq m hm hs
  rw [matched_of_record hsys htarget hq hcq] at hm
  exact absurd hs (h m hm)

/-- **A match that is held gets one more hit.** -/
theorem Kept.record (h : Kept q s c t behind sys.manager) (ht : now ≤ t + sys.manager.maxAgeSec) :
    Kept q s (c + 1) now ∅
      (ComboSystem.apply sorter toLower sys (.record now rawQuery s write)).manager := by
  have hm := h.mem_freshMatches ht
  have hhits : hitsOf s (freshMatches now q sys.manager) = c :=
    hitsOf_of_mem (nodup_freshMatches hsys now q) hm
  have hmem : (⟨s, hitsOf s (freshMatches now q sys.manager) + 1, now⟩ : ComboMatch) ∈
      noteHit sorter s now (freshMatches now q sys.manager) :=
    mem_noteHit_of_room (nodup_freshMatches hsys now q)
      (room_of_mem (length_freshMatches_le hsys now q) hm rfl)
  rw [← hhits]
  exact kept_record hsys htarget hmem

/-- A symbol that is lost gets one hit at most. -/
theorem Lost.record (h : Lost q s k sys.manager) :
    Lost q s (k + 1)
      (ComboSystem.apply sorter toLower sys (.record now rawQuery s write)).manager := by
  intro cq hcq hq m hm hs
  rw [matched_of_record hsys htarget hq hcq] at hm
  rcases mem_noteHit (nodup_freshMatches hsys now q) hm with ⟨-, hc⟩ | rfl
  · exact absurd hs hc
  · exact (Tidy.toNat_add_one_le _).trans (Nat.succ_le_succ (h.hitsOf_le hsys now))

end Record

/-! ### What happens between two records -/

theorem touched_concat (ops : List ComboOp) (op : ComboOp) :
    touched toLower (ops ++ [op]) = behindAfter toLower (touched toLower ops) op := by
  rw [touched, List.filterMap_append, List.map_append, List.toFinset_append, behindAfter]
  cases h : op.target toLower with
  | none => rw [List.filterMap_cons_none h, List.filterMap_nil, List.map_nil, List.toFinset_nil,
      Finset.union_empty, Option.elim_none, touched]
  | some p =>
    rw [List.filterMap_cons_some h, List.filterMap_nil, List.map_singleton, Option.elim_some,
      Finset.insert_eq, Finset.union_comm]
    rfl

theorem subset_behindAfter (behind : Finset String) (op : ComboOp) :
    behind ⊆ behindAfter toLower behind op := by
  rw [behindAfter]
  cases op.target toLower with
  | none => exact Finset.Subset.refl _
  | some p => exact Finset.subset_insert _ _

/-- An operation that is no restart keeps a system tidy. -/
theorem exists_tidied (hsys : ∃ n, Tidied n sys) (op : ComboOp) :
    ∃ n, Tidied n (ComboSystem.apply sorter toLower sys op) := by
  obtain ⟨n, hn⟩ := hsys
  exact ⟨fun q s => n q s + 1, hn.apply (fun _ _ => Nat.le_add_right _ _) fun _ _ _ => le_rfl⟩

/-- **A system goes on from another**: it is tidy, in the same directory and mode. -/
structure GoesOn (dir : String) (maxAge : ℤ) (sys : ComboSystem) : Prop where
  tidied : ∃ n, Tidied n sys
  dir_eq : sys.manager.dir = dir
  maxAge_eq : sys.manager.maxAgeSec = maxAge

variable {dir : String} {maxAge : ℤ}

theorem GoesOn.apply (h : GoesOn dir maxAge sys) {op : ComboOp}
    (hop : ∀ mode, op ≠ .restart mode) :
    GoesOn dir maxAge (ComboSystem.apply sorter toLower sys op) := by
  obtain ⟨hdir, hmode⟩ := dir_mode_apply sorter toLower sys hop
  exact ⟨exists_tidied h.tidied op, hdir.trans h.dir_eq,
    (maxAgeSec_congr hmode).trans h.maxAge_eq⟩

/-- **Operations that record nothing for the query** leave a match where it is, if they touch
fewer queries than are kept, and lose it else. What is lost stays so. -/
theorem between_run (hsys : GoesOn dir maxAge sys) {ops : List ComboOp}
    (hquiet : ∀ op ∈ ops, op.Quiet toLower q)
    (ht : ∀ op ∈ ops, ∀ t', op.time = some t' → t' ≤ t + maxAge) :
    GoesOn dir maxAge (run sorter toLower sys ops) ∧
      (Kept q s c t ∅ sys.manager →
        (dir = "" ∨ (touched toLower ops).card < maxComboQueries →
          Kept q s c t (touched toLower ops) (run sorter toLower sys ops).manager) ∧
        (¬(dir = "" ∨ (touched toLower ops).card < maxComboQueries) →
          Lost q s 0 (run sorter toLower sys ops).manager)) ∧
      (Lost q s k sys.manager → Lost q s k (run sorter toLower sys ops).manager) := by
  induction ops using List.reverseRecOn generalizing k with
  | nil =>
    have hfew : (touched toLower []).card < maxComboQueries := Nat.succ_pos _
    exact ⟨hsys, fun h => ⟨fun _ => h, fun hc => absurd (.inr hfew) hc⟩, id⟩
  | append_singleton ops op ih =>
    obtain ⟨hgo, hkept, hlost⟩ := ih (k := k) (fun op h => hquiet op (List.mem_append_left _ h))
      fun op h => ht op (List.mem_append_left _ h)
    have hop : op.Quiet toLower q := hquiet op (List.mem_append_right _ List.mem_cons_self)
    obtain ⟨n, hn⟩ := hgo.tidied
    have htime : ∀ t', op.time = some t' →
        t' ≤ t + (run sorter toLower sys ops).manager.maxAgeSec := by
      rw [hgo.maxAge_eq]
      exact ht op (List.mem_append_right _ List.mem_cons_self)
    have hcard : (touched toLower ops).card ≤ (behindAfter toLower (touched toLower ops) op).card :=
      Finset.card_le_card (subset_behindAfter (touched toLower ops) op)
    rw [run_concat, touched_concat]
    refine ⟨hgo.apply hop.2, fun h => ⟨fun hfew => ?_, fun hmany => ?_⟩, fun h => ?_⟩
    · exact (((hkept h).1 (hfew.imp_right hcard.trans_lt)).quiet hn hop htime).1 (hgo.dir_eq ▸ hfew)
    · rw [not_or, not_lt] at hmany
      by_cases hfew : (touched toLower ops).card < maxComboQueries
      · exact (((hkept h).1 (.inr hfew)).quiet hn hop htime).2 hfew (hgo.dir_eq ▸ hmany.1) hmany.2
      · exact ((hkept h).2 (not_or.mpr ⟨hmany.1, hfew⟩)).quiet hn hop
    · exact (hlost h).quiet hn hop

/-! ### Turns -/

/-- A turn that records the symbol, at a time of which no time of the lesson is too far. -/
structure Turn.Fine (toLower : String → String) (q s : String) (maxAge : ℤ) (times : Set ℤ)
    (i : Turn) : Prop where
  target : (ComboOp.record i.now i.rawQuery s i.write).target toLower = some (q, s)
  quiet : ∀ op ∈ i.between, op.Quiet toLower q
  now_mem : i.now ∈ times
  time_mem : ∀ op ∈ i.between, ∀ t, op.time = some t → t ∈ times
  young : ∀ t ∈ times, t ≤ i.now + maxAge

/-- Few queries come between a record and the next one. -/
def Turn.Few (toLower : String → String) (dir : String) (i : Turn) : Prop :=
  dir = "" ∨ (touched toLower i.between).card < maxComboQueries

variable {times : Set ℤ}

/-- A turn is the record, and what happens between. -/
theorem run_turnOps_cons (sys : ComboSystem) (s : String) (i : Turn) (turns : List Turn) :
    run sorter toLower sys (turnOps s (i :: turns)) =
      run sorter toLower (run sorter toLower
        (ComboSystem.apply sorter toLower sys (.record i.now i.rawQuery s i.write)) i.between)
        (turnOps s turns) := by
  rw [turnOps, List.flatMap_cons, run, List.foldl_append]
  rfl

/-- The system after the record of a turn, and after the turn. -/
def afterRecord (sorter : Sorting.Sorter ComboMatch) (toLower : String → String) (s : String)
    (sys : ComboSystem) (i : Turn) : ComboSystem :=
  ComboSystem.apply sorter toLower sys (.record i.now i.rawQuery s i.write)

/-- **What happens between the record of a turn and the next one.** -/
theorem Turn.Fine.between {i : Turn} (hi : i.Fine toLower q s maxAge times)
    (hsys : GoesOn dir maxAge sys) (sorter : Sorting.Sorter ComboMatch) (c : UInt32) (k : ℕ) :
    GoesOn dir maxAge (run sorter toLower (afterRecord sorter toLower s sys i) i.between) ∧
      (Kept q s c i.now ∅ (afterRecord sorter toLower s sys i).manager →
        (i.Few toLower dir → Kept q s c i.now (touched toLower i.between)
          (run sorter toLower (afterRecord sorter toLower s sys i) i.between).manager) ∧
        (¬i.Few toLower dir →
          Lost q s 0 (run sorter toLower (afterRecord sorter toLower s sys i) i.between).manager)) ∧
      (Lost q s k (afterRecord sorter toLower s sys i).manager →
        Lost q s k (run sorter toLower (afterRecord sorter toLower s sys i) i.between).manager) :=
  have hno : ∀ mode, ComboOp.record i.now i.rawQuery s i.write ≠ .restart mode := nofun
  between_run (hsys.apply hno) hi.quiet
    fun op hop t ht => hi.young t (hi.time_mem op hop t ht)

theorem GoesOn.turns (hsys : GoesOn dir maxAge sys) (sorter : Sorting.Sorter ComboMatch)
    {turns : List Turn}
    (hturns : ∀ i ∈ turns, i.Fine toLower q s maxAge times) :
    GoesOn dir maxAge (run sorter toLower sys (turnOps s turns)) := by
  induction turns generalizing sys with
  | nil => exact hsys
  | cons i turns ih =>
    rw [run_turnOps_cons]
    exact ih ((hturns i List.mem_cons_self).between hsys sorter 0 0).1
      fun j hj => hturns j (List.mem_cons_of_mem i hj)

/-- **What is lost gets one hit at most in each turn.** -/
theorem Lost.turns (hsys : GoesOn dir maxAge sys) {turns : List Turn}
    (hturns : ∀ i ∈ turns, i.Fine toLower q s maxAge times) (h : Lost q s k sys.manager) :
    Lost q s (k + turns.length) (run sorter toLower sys (turnOps s turns)).manager := by
  induction turns generalizing sys k with
  | nil => exact h
  | cons i turns ih =>
    have hi := hturns i List.mem_cons_self
    obtain ⟨n, hn⟩ := hsys.tidied
    obtain ⟨hgo, -, hlost⟩ := hi.between hsys sorter 0 (k + 1)
    rw [run_turnOps_cons]
    refine (ih hgo (fun j hj => hturns j (List.mem_cons_of_mem i hj))
      (hlost (h.record hn hi.target))).mono ?_
    rw [List.length_cons]
    omega

/-- **A match that is held gets one hit in each turn**, while few queries come between. -/
theorem Kept.turns (hsys : GoesOn dir maxAge sys) {turns : List Turn}
    (hturns : ∀ i ∈ turns, i.Fine toLower q s maxAge times)
    (h : Kept q s c t behind sys.manager) (ht : ∀ t' ∈ times, t' ≤ t + maxAge) :
    ((∀ i ∈ turns, i.Few toLower dir) → ∃ t behind, (∀ t' ∈ times, t' ≤ t + maxAge) ∧
      Kept q s (c + UInt32.ofNat turns.length) t behind
        (run sorter toLower sys (turnOps s turns)).manager) ∧
    ((∃ i ∈ turns, ¬i.Few toLower dir) →
      Lost q s (turns.length - 1) (run sorter toLower sys (turnOps s turns)).manager) := by
  induction turns generalizing sys c t behind with
  | nil =>
    refine ⟨fun _ => ⟨t, behind, ht, ?_⟩, fun ⟨i, hi, _⟩ => absurd hi List.not_mem_nil⟩
    rwa [List.length_nil, show UInt32.ofNat 0 = 0 from rfl, UInt32.add_zero]
  | cons i turns ih =>
    have hi := hturns i List.mem_cons_self
    have hrest := fun j hj => hturns j (List.mem_cons_of_mem i hj)
    obtain ⟨n, hn⟩ := hsys.tidied
    obtain ⟨hgo, hkept, -⟩ := hi.between hsys sorter (c + 1) 0
    have hafter := hkept (h.record hn hi.target (hsys.maxAge_eq ▸ ht i.now hi.now_mem))
    rw [run_turnOps_cons]
    constructor
    · intro hfew
      obtain ⟨t', behind', ht', hkept'⟩ := (ih hgo hrest
        (hafter.1 (hfew i List.mem_cons_self)) hi.young).1
        fun j hj => hfew j (List.mem_cons_of_mem i hj)
      refine ⟨t', behind', ht', ?_⟩
      have hcount : c + UInt32.ofNat (i :: turns).length =
          c + 1 + UInt32.ofNat turns.length := by
        rw [List.length_cons, Nat.add_comm, UInt32.ofNat_add, UInt32.add_assoc]
        rfl
      rwa [hcount]
    · rintro ⟨j, hj, hmany⟩
      by_cases hfew : i.Few toLower dir
      · have hj' : j ∈ turns := (List.mem_cons.mp hj).resolve_left fun hc => hmany (hc ▸ hfew)
        refine ((ih hgo hrest (hafter.1 hfew) hi.young).2 ⟨j, hj', hmany⟩).mono ?_
        rw [List.length_cons]
        omega
      · refine (Lost.turns hgo hrest (hafter.2 hfew)).mono ?_
        rw [List.length_cons]
        omega

/-! ### The boosts -/

section Boosts

variable {K : Type} [Field K] [LinearOrder K]

theorem isSome_lookup_foldl_insert (ms : List ComboMatch) (out : GoMap String K) (s : String) :
    ((ms.foldl (fun out m => out.insert m.symbolID (boostOf K m.hitCount)) out).lookup s).isSome =
        true ↔ (out.lookup s).isSome = true ∨ ∃ m ∈ ms, m.symbolID = s := by
  induction ms generalizing out with
  | nil => simp
  | cons m ms ih =>
    rw [List.foldl_cons, ih, GoMap.lookup_insert]
    by_cases hm : s = m.symbolID
    · rw [if_pos hm]
      exact iff_of_true (.inl rfl) (.inr ⟨m, List.mem_cons_self, hm.symm⟩)
    · rw [if_neg hm]
      simp only [List.mem_cons, exists_eq_or_imp, Ne.symm hm, false_or]

/-- **A symbol is boosted** if it has hits enough, in matches that are young enough. -/
theorem boosted_iff {rawQuery : String} (hq : normalizeQuery toLower rawQuery = q) (hne : q ≠ "") :
    (∃ boosts, (cm.boostMap K toLower now rawQuery).2 = some boosts ∧
        (boosts.lookup s).isSome = true) ↔
      ∃ m ∈ freshMatches now q cm, m.symbolID = s ∧ comboMinHits ≤ m.hitCount.toNat := by
  have hof : ∀ ms : List ComboMatch, ((boostsOf K ms).lookup s).isSome = true ↔
      ∃ m ∈ ms, m.symbolID = s ∧ comboMinHits ≤ m.hitCount.toNat := by
    intro ms
    rw [boostsOf, isSome_lookup_foldl_insert]
    simp only [AList.lookup_empty, Option.isSome_none, Bool.false_eq_true, false_or,
      List.mem_filter, decide_eq_true_eq, and_assoc, and_comm (a := _ = s)]
  have hboosts : (cm.boostMap K toLower now rawQuery).2 =
      ((cm.queries.map (reap now cm.maxAgeSec)).find? fun cq => cq.query = q).bind fun cq =>
        if (boostsOf K cq.matched).keys = [] then none else some (boostsOf K cq.matched) := by
    simp only [boostMap, hq, if_neg hne, queries_reapStaleLocked]
  rw [hboosts, freshMatches, matchesOf]
  cases (cm.queries.map (reap now cm.maxAgeSec)).find? fun cq => cq.query = q with
  | none => simp
  | some cq =>
    rw [Option.bind_some, Option.elim_some, ← hof]
    constructor
    · rintro ⟨boosts, hsome, hs⟩
      split_ifs at hsome
      rwa [Option.some_inj.mp hsome]
    · intro hs
      refine ⟨_, if_neg fun hc => ?_, hs⟩
      rw [GoMap.lookup_of_keys_nil hc] at hs
      exact absurd hs Bool.false_ne_true

end Boosts

/-! ### What is learned -/

namespace Lesson

variable {maxAge : ℤ} (lesson : Lesson toLower maxAge)

/-- The operations of a lesson. -/
def ops : List ComboOp := turnOps lesson.symbolID (lesson.first :: lesson.rest)

/-- **The symbol is boosted** in the end. -/
def Boosted (K : Type) [Field K] [LinearOrder K] (sorter : Sorting.Sorter ComboMatch)
    (sys : ComboSystem) : Prop :=
  ∃ boosts, ((run sorter toLower sys lesson.ops).manager.boostMap K toLower lesson.now
    lesson.rawQuery).2 = some boosts ∧ (boosts.lookup lesson.symbolID).isSome = true

/-- The matches of the query that are left at the first record. -/
def left (sys : ComboSystem) : List ComboMatch :=
  freshMatches lesson.first.now lesson.query sys.manager

/-- **What it takes to learn a symbol**: the list of the query has the symbol or room for it, or
a match without hits; fewer queries come between two records than the file keeps; and the hits
can be counted. -/
structure Learnable (sys : ComboSystem) : Prop where
  room : (∃ m ∈ lesson.left sys, m.symbolID = lesson.symbolID) ∨
    (lesson.left sys).length < maxComboEntriesPerQuery ∨ ∃ m ∈ lesson.left sys, m.hitCount = 0
  few : ∀ i ∈ lesson.first :: lesson.rest, i.Few toLower sys.manager.dir
  count : (hitsOf lesson.symbolID (lesson.left sys)).toNat + comboMinHits < 2 ^ 32

/-- The times of a lesson. -/
def clock : Set ℤ := {t | some t ∈ lesson.ops.map ComboOp.time ∨ t = lesson.now}

theorem fine : ∀ i ∈ lesson.first :: lesson.rest,
    i.Fine toLower lesson.query lesson.symbolID maxAge lesson.clock := by
  intro i hi
  have hops : ∀ op ∈ ComboOp.record i.now i.rawQuery lesson.symbolID i.write :: i.between,
      op ∈ lesson.ops := fun op hop => List.mem_flatMap.mpr ⟨i, hi, hop⟩
  refine ⟨target_eq_some.mpr ⟨lesson.recorded i hi, lesson.query_ne, rfl, lesson.symbolID_ne⟩,
    lesson.quiet i hi, .inl ?_, fun op hop t ht => .inl ?_, lesson.young i hi⟩
  · exact List.mem_map.mpr ⟨_, hops _ List.mem_cons_self, rfl⟩
  · exact List.mem_map.mpr ⟨op, hops op (List.mem_cons_of_mem _ hop), ht⟩

variable {lesson} {sys : ComboSystem} {sorter : Sorting.Sorter ComboMatch}

/-- The system after the first record. -/
theorem run_ops : run sorter toLower sys lesson.ops =
    run sorter toLower (run sorter toLower
      (afterRecord sorter toLower lesson.symbolID sys lesson.first) lesson.first.between)
      (turnOps lesson.symbolID lesson.rest) :=
  run_turnOps_cons sys lesson.symbolID lesson.first lesson.rest

theorem length_rest : lesson.rest.length = 2 := Nat.succ_injective lesson.length_turns

/-- Three more hits are three at least, unless the count wraps around. -/
theorem comboMinHits_le_iff (c : UInt32) :
    comboMinHits ≤ (c + 1 + 2).toNat ↔ c.toNat + comboMinHits < 2 ^ 32 := by
  have hc := c.toNat_lt
  rw [UInt32.toNat_add, UInt32.toNat_add, comboMinHits]
  have h1 : (1 : UInt32).toNat = 1 := rfl
  have h2 : (2 : UInt32).toNat = 2 := rfl
  rw [h1, h2]
  omega

/-- **What is lost is not boosted.** -/
theorem not_boosted (K : Type) [Field K] [LinearOrder K] {k : ℕ} (hk : k < comboMinHits)
    (h : Lost lesson.query lesson.symbolID k (run sorter toLower sys lesson.ops).manager) :
    ¬lesson.Boosted K sorter sys := by
  rw [Boosted, boosted_iff lesson.asked lesson.query_ne]
  rintro ⟨m, hm, hs, hhits⟩
  have hle := h.freshMatches_le lesson.now hm hs
  omega

section Tidied

variable {n : String → String → ℕ} (hsys : Tidied n sys)
include hsys

/-- **Where there is room, the first record counts**, whatever the sort. -/
theorem kept_first
    (hroom : (∃ m ∈ lesson.left sys, m.symbolID = lesson.symbolID) ∨
      (lesson.left sys).length < maxComboEntriesPerQuery ∨ ∃ m ∈ lesson.left sys, m.hitCount = 0) :
    Kept lesson.query lesson.symbolID (hitsOf lesson.symbolID (lesson.left sys) + 1)
      lesson.first.now ∅ (afterRecord sorter toLower lesson.symbolID sys lesson.first).manager := by
  have hnodup := nodup_freshMatches hsys lesson.first.now lesson.query
  have hlen := length_freshMatches_le hsys lesson.first.now lesson.query
  refine kept_record hsys (lesson.fine _ List.mem_cons_self).target ?_
  by_cases hnew : ∀ m ∈ lesson.left sys, m.symbolID ≠ lesson.symbolID
  · rcases hroom with ⟨m, hm, hs⟩ | hlt | ⟨m, hm, hzero⟩
    · exact absurd hs (hnew m hm)
    · exact mem_noteHit_of_room hnodup ((List.length_filter_le _ _).trans_lt hlt)
    · exact mem_noteHit_of_zero hnodup hlen hnew hm hzero
  · push Not at hnew
    obtain ⟨m, hm, hs⟩ := hnew
    exact mem_noteHit_of_room hnodup (room_of_mem hlen hm hs)

/-- **Where there is none, the symbol is lost**, if the sort leaves equals in their order. -/
theorem lost_first
    (hroom : ¬((∃ m ∈ lesson.left sys, m.symbolID = lesson.symbolID) ∨
      (lesson.left sys).length < maxComboEntriesPerQuery ∨
        ∃ m ∈ lesson.left sys, m.hitCount = 0)) :
    Lost lesson.query lesson.symbolID 0
      (afterRecord (Sorting.Sorter.stable _) toLower lesson.symbolID sys lesson.first).manager := by
  rw [not_or, not_or, not_lt] at hroom
  push Not at hroom
  exact lost_record hsys (lesson.fine _ List.mem_cons_self).target
    (not_mem_noteHit (nodup_freshMatches hsys lesson.first.now lesson.query) hroom.2.1 hroom.1
      hroom.2.2 lesson.first.now)

variable (hage : sys.manager.maxAgeSec = maxAge)
include hage

/-- **Where the first record counts, all are counted if few queries come between two records**,
and else the symbol is lost. -/
theorem run_first (sorter : Sorting.Sorter ComboMatch)
    (hroom : (∃ m ∈ lesson.left sys, m.symbolID = lesson.symbolID) ∨
      (lesson.left sys).length < maxComboEntriesPerQuery ∨ ∃ m ∈ lesson.left sys, m.hitCount = 0) :
    ((∀ i ∈ lesson.first :: lesson.rest, i.Few toLower sys.manager.dir) →
      ∃ t, ⟨lesson.symbolID, hitsOf lesson.symbolID (lesson.left sys) + 1 + 2, t⟩ ∈
        freshMatches lesson.now lesson.query (run sorter toLower sys lesson.ops).manager) ∧
    ((∃ i ∈ lesson.first :: lesson.rest, ¬i.Few toLower sys.manager.dir) →
      Lost lesson.query lesson.symbolID 2 (run sorter toLower sys lesson.ops).manager) := by
  have hgo : GoesOn sys.manager.dir maxAge sys := ⟨⟨n, hsys⟩, rfl, hage⟩
  have hfirst := lesson.fine _ List.mem_cons_self
  have hrest := fun i hi => lesson.fine i (List.mem_cons_of_mem lesson.first hi)
  have hend := hgo.turns sorter lesson.fine
  obtain ⟨hgo', hkept, -⟩ := hfirst.between hgo sorter
    (hitsOf lesson.symbolID (lesson.left sys) + 1) 0
  have hafter := hkept (kept_first hsys hroom)
  rw [run_ops]
  constructor
  · intro hfew
    obtain ⟨t, behind, ht, hlast⟩ := (Kept.turns hgo' hrest
      (hafter.1 (hfew _ List.mem_cons_self)) hfirst.young).1
      fun i hi => hfew i (List.mem_cons_of_mem lesson.first hi)
    rw [length_rest] at hlast
    refine ⟨t, hlast.mem_freshMatches ?_⟩
    rw [← run_ops, ops, hend.maxAge_eq]
    exact ht lesson.now (.inr rfl)
  · rintro ⟨i, hi, hmany⟩
    by_cases hfew : lesson.first.Few toLower sys.manager.dir
    · have hi' : i ∈ lesson.rest := (List.mem_cons.mp hi).resolve_left fun hc => hmany (hc ▸ hfew)
      refine ((Kept.turns hgo' hrest (hafter.1 hfew) hfirst.young).2 ⟨i, hi', hmany⟩).mono ?_
      rw [length_rest]
      decide
    · refine (Lost.turns hgo' hrest (hafter.2 hfew)).mono ?_
      rw [length_rest]

/-- **A symbol is boosted whatever the sort does to equals, exactly when it can be learned.** -/
theorem boosted_iff_learnable (K : Type) [Field K] [LinearOrder K] :
    (∀ sorter, lesson.Boosted K sorter sys) ↔ lesson.Learnable sys := by
  constructor
  · intro hall
    have hboosted := hall (Sorting.Sorter.stable _)
    have hgo : GoesOn sys.manager.dir maxAge sys := ⟨⟨n, hsys⟩, rfl, hage⟩
    have hroom : (∃ m ∈ lesson.left sys, m.symbolID = lesson.symbolID) ∨
        (lesson.left sys).length < maxComboEntriesPerQuery ∨
          ∃ m ∈ lesson.left sys, m.hitCount = 0 := by
      by_contra hc
      -- lost at the first record, with two records left
      obtain ⟨hgo', -, hlost⟩ := (lesson.fine _ List.mem_cons_self).between hgo
        (Sorting.Sorter.stable _) 0 0
      refine not_boosted K (k := 2) (by decide) ?_ hboosted
      rw [run_ops]
      refine (Lost.turns hgo' (fun i hi => lesson.fine i (List.mem_cons_of_mem _ hi))
        (hlost (lost_first hsys hc))).mono ?_
      rw [length_rest]
    have hfew : ∀ i ∈ lesson.first :: lesson.rest, i.Few toLower sys.manager.dir := by
      by_contra hc
      push Not at hc
      exact not_boosted K (by decide) ((run_first hsys hage (Sorting.Sorter.stable _) hroom).2 hc)
        hboosted
    refine ⟨hroom, hfew, ?_⟩
    obtain ⟨t, hm⟩ := (run_first hsys hage (Sorting.Sorter.stable _) hroom).1 hfew
    obtain ⟨m, hm', hs, hhits⟩ :=
      (boosted_iff lesson.asked lesson.query_ne).mp hboosted
    obtain ⟨n', hn'⟩ := (hgo.turns (Sorting.Sorter.stable _) lesson.fine).tidied
    have heq : m = ⟨lesson.symbolID, hitsOf lesson.symbolID (lesson.left sys) + 1 + 2, t⟩ :=
      List.inj_on_of_nodup_map (nodup_freshMatches hn' lesson.now lesson.query) hm' hm hs
    rw [heq] at hhits
    exact (comboMinHits_le_iff _).mp hhits
  · rintro ⟨hroom, hfew, hcount⟩ sorter
    obtain ⟨t, hm⟩ := (run_first hsys hage sorter hroom).1 hfew
    exact (boosted_iff lesson.asked lesson.query_ne).mpr
      ⟨_, hm, rfl, (comboMinHits_le_iff _).mpr hcount⟩

end Tidied

end Lesson

/-- **Every state is tidy, and a symbol is learned exactly when it can be**: in every state that
operations lead to, no query and no symbol of a query occurs twice, no query has too many matches
and no symbol has more hits than records, and a lesson from there ends with the symbol boosted,
whatever the sort does to equals, if and only if there is room for the symbol, few queries come
between, and the hits can be counted. -/
theorem learning (K : Type) [Field K] [LinearOrder K] (sorter : Sorting.Sorter ComboMatch)
    (toLower : String → String) (dir : String) (mode : AgentMode) (ops : List ComboOp) :
    let sys := run sorter toLower (start dir mode) ops
    Tidied (recorded toLower ops) sys ∧
      ∀ lesson : Lesson toLower sys.manager.maxAgeSec,
        (∀ sorter, lesson.Boosted K sorter sys) ↔ lesson.Learnable sys :=
  ⟨tidied_run sorter toLower dir mode ops, fun _ =>
    Lesson.boosted_iff_learnable (tidied_run sorter toLower dir mode ops) rfl K⟩

namespace Crowded

/-- Twenty symbols, each recorded twice for a query. -/
def crowd : List ComboOp :=
  ["a", "b", "c", "d", "e", "f", "g", "h", "i", "j", "k", "l", "m", "n", "o", "p", "q", "r", "s",
    "t"].flatMap fun s => [.record 0 "save" s .done, .record 0 "save" s .done]

/-- What they lead to. -/
def system : ComboSystem := run (Sorting.Sorter.insertion _) id (start "" .modeAI) crowd

theorem normalizeQuery_save : normalizeQuery id "save" = "save" := by
  decide +kernel

/-- A record of a new symbol. -/
def turn : Turn := ⟨0, "save", .done, []⟩

theorem maxAgeSec_system : system.manager.maxAgeSec = 604800 := by
  decide +kernel

/-- The new symbol, recorded three times in a row. -/
def lesson : Lesson id system.manager.maxAgeSec where
  query := "save"
  symbolID := "new"
  first := turn
  rest := [turn, turn]
  now := 0
  rawQuery := "save"
  query_ne := by decide
  symbolID_ne := by decide
  length_turns := rfl
  recorded i hi := by
    rw [show i = turn by simpa using hi]
    exact normalizeQuery_save
  quiet i hi op hop := by
    rw [show i = turn by simpa using hi] at hop
    exact absurd hop List.not_mem_nil
  asked := normalizeQuery_save
  young i hi t ht := by
    rw [show i = turn by simpa using hi, maxAgeSec_system]
    have hzero : t = 0 := ht.elim (fun h => by simpa [turnOps, turn, ComboOp.time] using h) id
    rw [hzero]
    decide

/-- **Twenty symbols with two hits shut out any other**: after three records of it in a row,
nothing is boosted. -/
theorem not_boosted_lesson : ¬lesson.Boosted ℚ (Sorting.Sorter.insertion _) system := by
  rintro ⟨boosts, hboosts, -⟩
  have hnone : ((run (Sorting.Sorter.insertion _) id system lesson.ops).manager.boostMap ℚ id 0
      "save").2.isNone = true := by
    decide +kernel
  change ((run (Sorting.Sorter.insertion _) id system lesson.ops).manager.boostMap ℚ id 0
      "save").2 = some boosts at hboosts
  rw [hboosts] at hnone
  exact Bool.false_ne_true hnone

end Crowded

end Mcp

end Gortex
