import Gortex.Contracts.Registry

/-!
# Matching contracts

`internal/contracts/matcher.go`: Match goes through the IDs of a registry, and pairs the
consumers of an ID with its providers, or reports one side as orphans when the other one
is empty. The order of the IDs is that of a loop over a map, so the result is described
ID by ID: `Gortex.ContractRegistry.Partitioned` says which contracts of an ID are in which
of the three lists.
-/

namespace Gortex

/-- A matched provider–consumer pair, possibly across repositories. -/
structure CrossLink where
  contractID : String
  provider : Contract
  consumer : Contract
  crossRepo : Bool
deriving DecidableEq

/-- The output of a matching pass. -/
structure MatchResult where
  matched : List CrossLink := []
  orphanProviders : List Contract := []
  orphanConsumers : List Contract := []

namespace ContractRegistry

variable (r : ContractRegistry)

/-- The contracts of an ID that provide it. -/
def providers (id : String) : List Contract := (r.ofID id).filter fun c => c.role = Role.provider

/-- The contracts of an ID that consume it. -/
def consumers (id : String) : List Contract := (r.ofID id).filter fun c => c.role = Role.consumer

/-- Every consumer of an ID with every provider of it. -/
def links (id : String) : List CrossLink :=
  (r.consumers id).flatMap fun consumer => (r.providers id).map fun provider =>
    ⟨id, provider, consumer, provider.repoPrefix ≠ consumer.repoPrefix⟩

/-- One ID of the matching pass. -/
def matchID (result : MatchResult) (id : String) : MatchResult :=
  if r.consumers id = [] then
    { result with orphanProviders := result.orphanProviders ++ r.providers id }
  else if r.providers id = [] then
    { result with orphanConsumers := result.orphanConsumers ++ r.consumers id }
  else { result with matched := result.matched ++ r.links id }

/-- The IDs of a registry. -/
def allIDs (ord : GoMap.RangeOrder ContractRegistry) : List String := ord.order r r.byID.keys

/-- **Match** pairs providers with consumers by contract ID. -/
def matchAll (ord : GoMap.RangeOrder ContractRegistry) : MatchResult :=
  (r.allIDs ord).foldl r.matchID {}

/-! ### The three classes -/

/-- **A registry stores a contract under its ID.** -/
def Keyed : Prop := ∀ id, ∀ c ∈ r.ofID id, c.id = id

/-- **The contracts of every ID are partitioned.** If the ID has both sides, it is matched,
every provider with every consumer, and a link crosses repositories iff the prefixes of its
ends differ; otherwise its contracts are orphans. -/
structure Partitioned (result : MatchResult) : Prop where
  matched : ∀ id, result.matched.filter (fun l => l.contractID = id) =
    if r.providers id = [] ∨ r.consumers id = [] then [] else r.links id
  orphanProviders : ∀ id, result.orphanProviders.filter (fun c => c.id = id) =
    if r.consumers id = [] then r.providers id else []
  orphanConsumers : ∀ id, result.orphanConsumers.filter (fun c => c.id = id) =
    if r.providers id = [] then r.consumers id else []

variable {r}

theorem mem_providers {id : String} {c : Contract} :
    c ∈ r.providers id ↔ c ∈ r.ofID id ∧ c.role = Role.provider := by
  rw [providers, List.mem_filter, decide_eq_true_iff]

theorem mem_consumers {id : String} {c : Contract} :
    c ∈ r.consumers id ↔ c ∈ r.ofID id ∧ c.role = Role.consumer := by
  rw [consumers, List.mem_filter, decide_eq_true_iff]

theorem nodup_allIDs (r : ContractRegistry) (ord : GoMap.RangeOrder ContractRegistry) :
    (r.allIDs ord).Nodup :=
  (ord.perm r _).nodup_iff.mpr r.byID.keys_nodup

/-- An ID that is not listed has no contracts. -/
theorem ofID_of_notMem {ord : GoMap.RangeOrder ContractRegistry} {id : String}
    (h : id ∉ r.allIDs ord) : r.ofID id = [] := by
  have hkeys : id ∉ r.byID.keys := fun hc => h (ord.mem.mpr hc)
  rw [ofID, AList.lookup_eq_none.mpr fun hc => hkeys (AList.mem_keys.mp hc), Option.getD_none]

/-- A loop over distinct keys that appends a chunk for each one, of entries of that key:
the entries of a key are its chunk. -/
theorem filter_flatMap_of_key {α : Type} {key : α → String} {chunk : String → List α}
    (hkey : ∀ k, ∀ a ∈ chunk k, key a = k) {l : List String} (hl : l.Nodup) (k : String) :
    (l.flatMap chunk).filter (fun a => key a = k) = if k ∈ l then chunk k else [] := by
  induction l with
  | nil => rfl
  | cons b l ih =>
    rw [List.nodup_cons] at hl
    rw [List.flatMap_cons, List.filter_append, ih hl.2]
    by_cases hb : k = b
    · subst hb
      have hall : (chunk k).filter (fun a => key a = k) = chunk k :=
        List.filter_eq_self.mpr fun a ha => decide_eq_true (hkey k a ha)
      rw [hall, if_neg hl.1, if_pos List.mem_cons_self, List.append_nil]
    · have hnone : (chunk b).filter (fun a => key a = k) = [] :=
        List.filter_eq_nil_iff.mpr fun a ha hc =>
          hb ((of_decide_eq_true hc).symm.trans (hkey b a ha))
      have hmem : k ∈ b :: l ↔ k ∈ l := by
        rw [List.mem_cons]
        exact or_iff_right hb
      rw [hnone, List.nil_append]
      exact if_congr hmem.symm rfl rfl

/-- The three lists of a pass, chunk by chunk. -/
theorem foldl_matchID (l : List String) (result : MatchResult) :
    (l.foldl r.matchID result).matched = result.matched ++ l.flatMap (fun id =>
        if r.providers id = [] ∨ r.consumers id = [] then [] else r.links id) ∧
      (l.foldl r.matchID result).orphanProviders = result.orphanProviders ++ l.flatMap (fun id =>
        if r.consumers id = [] then r.providers id else []) ∧
      (l.foldl r.matchID result).orphanConsumers = result.orphanConsumers ++ l.flatMap (fun id =>
        if r.providers id = [] then r.consumers id else []) := by
  induction l generalizing result with
  | nil => simp
  | cons id l ih =>
    obtain ⟨h1, h2, h3⟩ := ih (r.matchID result id)
    rw [List.foldl_cons, h1, h2, h3, List.flatMap_cons, List.flatMap_cons, List.flatMap_cons,
      ← List.append_assoc, ← List.append_assoc, ← List.append_assoc]
    unfold matchID
    by_cases hc : r.consumers id = []
    · by_cases hp : r.providers id = [] <;> simp [hc, hp]
    · by_cases hp : r.providers id = [] <;> simp [hc, hp]

/-- **Match partitions the registry.** -/
theorem partitioned_matchAll (hr : r.Keyed) (ord : GoMap.RangeOrder ContractRegistry) :
    r.Partitioned (r.matchAll ord) := by
  obtain ⟨h1, h2, h3⟩ := foldl_matchID (r := r) (r.allIDs ord) {}
  have hnodup := r.nodup_allIDs ord
  -- an ID that is not listed has empty chunks
  have hout : ∀ id, id ∉ r.allIDs ord → r.providers id = [] ∧ r.consumers id = [] := fun id hid => by
    rw [providers, consumers, ofID_of_notMem hid]
    exact ⟨rfl, rfl⟩
  refine ⟨fun id => ?_, fun id => ?_, fun id => ?_⟩
  · rw [matchAll, h1, List.nil_append, filter_flatMap_of_key _ hnodup]
    · by_cases hid : id ∈ r.allIDs ord
      · rw [if_pos hid]
      · rw [if_neg hid, if_pos (Or.inl (hout id hid).1)]
    · intro k l hl
      split at hl
      · exact absurd hl List.not_mem_nil
      · obtain ⟨consumer, -, hl⟩ := List.mem_flatMap.mp hl
        obtain ⟨provider, -, rfl⟩ := List.mem_map.mp hl
        rfl
  · rw [matchAll, h2, List.nil_append, filter_flatMap_of_key _ hnodup]
    · by_cases hid : id ∈ r.allIDs ord
      · rw [if_pos hid]
      · rw [if_neg hid, (hout id hid).1, ite_self]
    · intro k c hc
      split at hc
      · exact hr k c (mem_providers.mp hc).1
      · exact absurd hc List.not_mem_nil
  · rw [matchAll, h3, List.nil_append, filter_flatMap_of_key _ hnodup]
    · by_cases hid : id ∈ r.allIDs ord
      · rw [if_pos hid]
      · rw [if_neg hid, (hout id hid).2, ite_self]
    · intro k c hc
      split at hc
      · exact hr k c (mem_consumers.mp hc).1
      · exact absurd hc List.not_mem_nil

/-! ### Reading a partition -/

variable {result : MatchResult}

theorem Partitioned.mem_orphanProviders (h : r.Partitioned result) {c : Contract} :
    c ∈ result.orphanProviders ↔ c ∈ r.providers c.id ∧ r.consumers c.id = [] := by
  have hmem : c ∈ result.orphanProviders ↔
      c ∈ result.orphanProviders.filter fun c' => c'.id = c.id := by simp
  rw [hmem, h.orphanProviders]
  by_cases hc : r.consumers c.id = []
  · rw [if_pos hc, and_iff_left hc]
  · rw [if_neg hc]
    exact iff_of_false List.not_mem_nil fun hp => hc hp.2

theorem Partitioned.mem_orphanConsumers (h : r.Partitioned result) {c : Contract} :
    c ∈ result.orphanConsumers ↔ c ∈ r.consumers c.id ∧ r.providers c.id = [] := by
  have hmem : c ∈ result.orphanConsumers ↔
      c ∈ result.orphanConsumers.filter fun c' => c'.id = c.id := by simp
  rw [hmem, h.orphanConsumers]
  by_cases hc : r.providers c.id = []
  · rw [if_pos hc, and_iff_left hc]
  · rw [if_neg hc]
    exact iff_of_false List.not_mem_nil fun hp => hc hp.2

theorem Partitioned.mem_matched (h : r.Partitioned result) {l : CrossLink} :
    l ∈ result.matched ↔ l.provider ∈ r.providers l.contractID ∧
      l.consumer ∈ r.consumers l.contractID ∧
      l.crossRepo = decide (l.provider.repoPrefix ≠ l.consumer.repoPrefix) := by
  have hmem : l ∈ result.matched ↔
      l ∈ result.matched.filter fun l' => l'.contractID = l.contractID := by simp
  have hlinks : l ∈ r.links l.contractID ↔ l.provider ∈ r.providers l.contractID ∧
      l.consumer ∈ r.consumers l.contractID ∧
      l.crossRepo = decide (l.provider.repoPrefix ≠ l.consumer.repoPrefix) := by
    unfold links
    simp only [List.mem_flatMap, List.mem_map]
    constructor
    · rintro ⟨consumer, hc, provider, hp, hl⟩
      rw [← hl]
      exact ⟨hp, hc, rfl⟩
    · rintro ⟨hp, hc, hx⟩
      exact ⟨l.consumer, hc, l.provider, hp, by rw [← hx]⟩
  rw [hmem, h.matched]
  by_cases hnil : r.providers l.contractID = [] ∨ r.consumers l.contractID = []
  · rw [if_pos hnil]
    refine iff_of_false List.not_mem_nil fun hl => ?_
    rcases hnil with hp | hc
    · rw [hp] at hl
      exact absurd hl.1 List.not_mem_nil
    · rw [hc] at hl
      exact absurd hl.2.1 List.not_mem_nil
  · rw [if_neg hnil, hlinks]

/-- **A provider is matched or an orphan**, and not both. -/
theorem Partitioned.provider_once (h : r.Partitioned result) (hr : r.Keyed) {id : String}
    {c : Contract} (hc : c ∈ r.providers id) :
    (c ∈ result.orphanProviders ↔ ¬∃ l ∈ result.matched, l.provider = c) ∧
      c ∉ result.orphanConsumers := by
  obtain rfl := hr id c (mem_providers.mp hc).1
  refine ⟨?_, fun ho => ?_⟩
  · rw [h.mem_orphanProviders]
    constructor
    · rintro ⟨-, hnil⟩ ⟨l, hl, rfl⟩
      obtain ⟨hp, hcons, -⟩ := h.mem_matched.mp hl
      rw [hr _ _ (mem_providers.mp hp).1] at hnil
      rw [hnil] at hcons
      exact absurd hcons List.not_mem_nil
    · refine fun hno => ⟨hc, ?_⟩
      by_contra hne
      obtain ⟨d, hd⟩ := List.exists_mem_of_ne_nil _ hne
      exact hno ⟨⟨c.id, c, d, decide (c.repoPrefix ≠ d.repoPrefix)⟩,
        h.mem_matched.mpr ⟨hc, hd, rfl⟩, rfl⟩
  · have hrole := (mem_consumers.mp (h.mem_orphanConsumers.mp ho).1).2
    rw [(mem_providers.mp hc).2] at hrole
    exact absurd hrole (by decide)

/-- **A consumer is matched or an orphan**, and not both. -/
theorem Partitioned.consumer_once (h : r.Partitioned result) (hr : r.Keyed) {id : String}
    {c : Contract} (hc : c ∈ r.consumers id) :
    (c ∈ result.orphanConsumers ↔ ¬∃ l ∈ result.matched, l.consumer = c) ∧
      c ∉ result.orphanProviders := by
  obtain rfl := hr id c (mem_consumers.mp hc).1
  refine ⟨?_, fun ho => ?_⟩
  · rw [h.mem_orphanConsumers]
    constructor
    · rintro ⟨-, hnil⟩ ⟨l, hl, rfl⟩
      obtain ⟨hp, hcons, -⟩ := h.mem_matched.mp hl
      rw [hr _ _ (mem_consumers.mp hcons).1] at hnil
      rw [hnil] at hp
      exact absurd hp List.not_mem_nil
    · refine fun hno => ⟨hc, ?_⟩
      by_contra hne
      obtain ⟨d, hd⟩ := List.exists_mem_of_ne_nil _ hne
      exact hno ⟨⟨c.id, d, c, decide (d.repoPrefix ≠ c.repoPrefix)⟩,
        h.mem_matched.mpr ⟨hd, hc, rfl⟩, rfl⟩
  · have hrole := (mem_providers.mp (h.mem_orphanProviders.mp ho).1).2
    rw [(mem_consumers.mp hc).2] at hrole
    exact absurd hrole (by decide)

end ContractRegistry

end Gortex
