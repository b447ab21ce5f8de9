import Gortex.Contracts.Indexes
import Gortex.Contracts.Matcher
import Gortex.Contracts.Shape

/-!
# Validating contracts

`internal/contracts/validate.go`: Validate goes through the IDs of a registry a second
time, and reports what drifts between the two sides of a contract, or that there is one
side only. It has its own loops over the contracts of an ID, and what has to agree with the
matching pass is which IDs are orphans (`Gortex.ContractRegistry.perm_orphanConsumers`,
`Gortex.ContractRegistry.perm_orphanProviders`).
-/

namespace Gortex

open GoString

/-! ### Issues -/

/-- How much an issue impacts running code. -/
inductive Severity
  | severityBreaking
  | severityWarning
  | severityInfo
deriving DecidableEq, Repr

def severityRank : Severity → ℕ
  | .severityBreaking => 0
  | .severityWarning => 1
  | .severityInfo => 2

/-- The kinds of an issue. -/
inductive IssueKind
  | issueOrphanProvider
  | issueOrphanConsumer
  | issueRequestTypeUnknown
  | issueResponseTypeUnknown
  | issueResponseFieldRemoved
  | issueResponseFieldTypeChanged
  | issueResponseFieldAdded
  | issueRequestFieldRequired
  | issueRequestFieldTypeChanged
  | issueRequestFieldExtra
deriving DecidableEq, Repr

/-- The kind as it is written out, which is what issues are sorted by. -/
def IssueKind.str : IssueKind → String
  | issueOrphanProvider => "orphan_provider"
  | issueOrphanConsumer => "orphan_consumer"
  | issueRequestTypeUnknown => "request_type_unknown"
  | issueResponseTypeUnknown => "response_type_unknown"
  | issueResponseFieldRemoved => "response_field_removed"
  | issueResponseFieldTypeChanged => "response_field_type_changed"
  | issueResponseFieldAdded => "response_field_added"
  | issueRequestFieldRequired => "request_field_required_missing"
  | issueRequestFieldTypeChanged => "request_field_type_changed"
  | issueRequestFieldExtra => "request_field_extra"

/-- One diff between the two sides of a contract, or the absence of one side. -/
structure ContractIssue where
  contractID : String
  kind : IssueKind
  severity : Severity
  provider : String := ""
  consumer : String := ""
  field : String := ""
  details : String := ""
  providerType : String := ""
  consumerType : String := ""
deriving DecidableEq

/-- What Validate is given beside the registry: the shape of a type, the quoting of a text
in a message, and the order of the fields of a shape. -/
structure ValidateEnv where
  lookup : String → Option Shape
  quote : String → String
  fieldOrder : GoMap.RangeOrder (List ContractIssue)

/-! ### Diffing two shapes -/

/-- The two directions data takes: a response goes to the consumer, a request to the
provider. -/
inductive Direction
  | response
  | request

namespace Direction

def typeKey : Direction → String
  | response => "response_type"
  | request => "request_type"

def unknownKind : Direction → IssueKind
  | response => .issueResponseTypeUnknown
  | request => .issueRequestTypeUnknown

/-- A type of a provider without a shape. -/
def providerUnknown : Direction → String
  | response => "provider response type has no indexed shape — cross-repo diff skipped"
  | request => "provider request type has no indexed shape — cross-repo diff skipped"

/-- A type of a consumer without a shape. -/
def consumerUnknown : Direction → String
  | response => "consumer response type has no indexed shape — cross-repo diff skipped"
  | request => "consumer request type has no indexed shape — cross-repo diff skipped"

def missingKind : Direction → IssueKind
  | response => .issueResponseFieldRemoved
  | request => .issueRequestFieldRequired

/-- How severe it is that a field is read and not written. A provider does without a field
that is not required, where a consumer may not. -/
def missingSeverity : Direction → ShapeField → Option Severity
  | response, f => some (if f.required then .severityBreaking else .severityWarning)
  | request, f => if f.required then some .severityBreaking else none

def missingDetails : Direction → String
  | response => "consumer reads response field not present on provider"
  | request => "provider requires field consumer doesn't send"

def changedKind : Direction → IssueKind
  | response => .issueResponseFieldTypeChanged
  | request => .issueRequestFieldTypeChanged

def extraKind : Direction → IssueKind
  | response => .issueResponseFieldAdded
  | request => .issueRequestFieldExtra

def extraDetails : Direction → String
  | response => "provider emits response field no indexed consumer reads"
  | request => "consumer sends request field provider doesn't declare"

/-- The fields of the side that reads, of those of the provider and of the consumer. -/
def reader {α : Type} : Direction → α → α → α
  | response, _, consumer => consumer
  | request, provider, _ => provider

/-- The fields of the side that writes. -/
def writer {α : Type} : Direction → α → α → α
  | response, provider, _ => provider
  | request, _, consumer => consumer

/-- What belongs to the provider and to the consumer, of what is read and what is written. -/
def sides {α : Type} : Direction → α → α → α × α
  | response, read, written => (written, read)
  | request, read, written => (read, written)

/-- A field that is written: it may be read by nobody. -/
def writeIssue (d : Direction) (base : ContractIssue) (read : GoMap String ShapeField)
    (p : String × ShapeField) : Option ContractIssue :=
  match read.lookup p.1 with
  | some _ => none
  | none => some { base with kind := d.extraKind, severity := .severityInfo, field := p.1,
                             details := d.extraDetails }

end Direction

namespace ValidateEnv

variable (env : ValidateEnv)

/-- A field that is read: it is missing, or its type has changed, or all is well. -/
def readIssue (d : Direction) (base : ContractIssue) (written : GoMap String ShapeField)
    (p : String × ShapeField) : Option ContractIssue :=
  match written.lookup p.1 with
  | none => (d.missingSeverity p.2).map fun severity =>
      { base with kind := d.missingKind, severity := severity, field := p.1,
                  details := d.missingDetails }
  | some f =>
    if canAssign p.2.fieldType f.fieldType then none
    else
      let types := d.sides p.2.fieldType f.fieldType
      some
        { base with kind := d.changedKind, severity := .severityBreaking, field := p.1,
                    details := "provider=" ++ env.quote types.1 ++ " consumer=" ++
                      env.quote types.2 }

/-- Compare the fields that one side writes with those that the other side reads. -/
def diffFields (d : Direction) (base : ContractIssue) (provShape consShape : Shape) :
    List ContractIssue :=
  let read := indexFields (d.reader provShape consShape)
  let written := indexFields (d.writer provShape consShape)
  let issues := (env.fieldOrder.order [base] read.pairs).filterMap (env.readIssue d base written)
  issues ++ (env.fieldOrder.order (base :: issues) written.pairs).filterMap
    (d.writeIssue base read)

/-- Compare what the provider produces with what the consumer reads. -/
def diffResponseFields := env.diffFields .response

/-- Compare what the consumer sends with what the provider accepts. -/
def diffRequestFields := env.diffFields .request

/-- The shape of a type, unless the type is a bare name. -/
def resolveShape (typeRef : String) : Option Shape :=
  if contains typeRef "::" then env.lookup typeRef else none

/-- Compare the two sides of a contract in one direction, if both say what they write or
read. -/
def diffTypes (d : Direction) (id : String) (p cons : Contract) : List ContractIssue :=
  let provID := p.metadata.getStr d.typeKey
  let consID := cons.metadata.getStr d.typeKey
  if provID = "" ∨ consID = "" then []
  else
    let base : ContractIssue :=
      { contractID := id, kind := d.unknownKind, severity := .severityWarning }
    let provUnknown := env.resolveShape provID = none ∧ contains provID "::" = true
    let consUnknown := env.resolveShape consID = none ∧ contains consID "::" = true
    (if provUnknown then
      [{ base with provider := p.repoPrefix, providerType := provID,
                   details := d.providerUnknown }] else []) ++
    (if consUnknown then
      [{ base with consumer := cons.repoPrefix, consumerType := consID,
                   details := d.consumerUnknown }] else []) ++
    match env.resolveShape provID, env.resolveShape consID with
    | some provShape, some consShape =>
      env.diffFields d
        { base with provider := p.repoPrefix, consumer := cons.repoPrefix,
                    providerType := provID, consumerType := consID } provShape consShape
    | _, _ => []

/-- The issues of one pair of a provider and a consumer. -/
def diffPair (id : String) (p cons : Contract) : List ContractIssue :=
  env.diffTypes .response id p cons ++ env.diffTypes .request id p cons

end ValidateEnv

/-! ### The pass -/

/-- The issue of a consumer without a provider. -/
def orphanConsumer (id : String) (c : Contract) : ContractIssue where
  contractID := id
  kind := .issueOrphanConsumer
  severity := .severityWarning
  consumer := c.repoPrefix
  details := "consumer calls a contract no indexed provider implements"

/-- The issue of a provider without a consumer. -/
def orphanProvider (id : String) (c : Contract) : ContractIssue where
  contractID := id
  kind := .issueOrphanProvider
  severity := .severityInfo
  provider := c.repoPrefix
  details := "provider exposes a contract no indexed consumer calls"

/-- Whether an issue is reported before another one: the severe ones come first. -/
def issueLess (a b : ContractIssue) : Bool :=
  if a.severity ≠ b.severity then severityRank a.severity < severityRank b.severity
  else if a.contractID ≠ b.contractID then a.contractID < b.contractID
  else a.kind.str < b.kind.str

namespace ContractRegistry

variable (r : ContractRegistry) (env : ValidateEnv)

/-- The issues of one ID. -/
def validateID (id : String) : List ContractIssue :=
  if r.ofID id = [] then []
  else if r.providers id = [] then (r.consumers id).map (orphanConsumer id)
  else if r.consumers id = [] then (r.providers id).map (orphanProvider id)
  else (r.providers id).flatMap fun p => (r.consumers id).flatMap fun cons => env.diffPair id p cons

/-- **Validate** reports the drift between providers and consumers. -/
def validate (ord : GoMap.RangeOrder ContractRegistry) : List ContractIssue :=
  ((r.allIDs ord).flatMap (r.validateID env)).mergeSort fun a b => !issueLess b a

/-! ### The orphans of the two passes -/

/-- Whether an issue is about a side that is absent. -/
def IsOrphan (k : IssueKind) : Prop := k = .issueOrphanProvider ∨ k = .issueOrphanConsumer

variable {r env}

theorem kind_of_mem_diffFields {d : Direction} {base : ContractIssue} {provShape consShape : Shape}
    {i : ContractIssue} (hi : i ∈ env.diffFields d base provShape consShape) :
    ¬IsOrphan i.kind := by
  unfold ValidateEnv.diffFields at hi
  rcases List.mem_append.mp hi with hi | hi
  · obtain ⟨p, -, hp⟩ := List.mem_filterMap.mp hi
    unfold ValidateEnv.readIssue at hp
    split at hp
    · obtain ⟨severity, -, rfl⟩ := Option.map_eq_some_iff.mp hp
      cases d <;> simp [IsOrphan, Direction.missingKind]
    · split at hp
      · cases hp
      · cases hp
        cases d <;> simp [IsOrphan, Direction.changedKind]
  · obtain ⟨p, -, hp⟩ := List.mem_filterMap.mp hi
    unfold Direction.writeIssue at hp
    split at hp
    · cases hp
    · cases hp
      cases d <;> simp [IsOrphan, Direction.extraKind]

theorem kind_of_mem_diffTypes {d : Direction} {id : String} {p cons : Contract} {i : ContractIssue}
    (hi : i ∈ env.diffTypes d id p cons) : ¬IsOrphan i.kind := by
  have hunknown : ¬IsOrphan d.unknownKind := by cases d <;> simp [IsOrphan, Direction.unknownKind]
  unfold ValidateEnv.diffTypes at hi
  simp only at hi
  split at hi
  · exact absurd hi List.not_mem_nil
  · rcases List.mem_append.mp hi with hi | hi
    · rcases List.mem_append.mp hi with hi | hi
      · rw [List.mem_ite_nil_right, List.mem_singleton] at hi
        rw [hi.2]
        exact hunknown
      · rw [List.mem_ite_nil_right, List.mem_singleton] at hi
        rw [hi.2]
        exact hunknown
    · split at hi
      · exact kind_of_mem_diffFields hi
      · exact absurd hi List.not_mem_nil

/-- **The diff of a pair reports no orphan.** -/
theorem kind_of_mem_diffPair {id : String} {p cons : Contract} {i : ContractIssue}
    (hi : i ∈ env.diffPair id p cons) : ¬IsOrphan i.kind := by
  rcases List.mem_append.mp hi with hi | hi
  · exact kind_of_mem_diffTypes hi
  · exact kind_of_mem_diffTypes hi

/-- The issues of an ID that are not about its pairs: it has one side only. -/
theorem filter_validateID {k : IssueKind} (hk : IsOrphan k) (id : String) :
    (r.validateID env id).filter (fun i => i.kind = k) =
      if r.providers id = [] then
        (((r.consumers id).map (orphanConsumer id)).filter fun i => i.kind = k)
      else if r.consumers id = [] then
        (((r.providers id).map (orphanProvider id)).filter fun i => i.kind = k)
      else [] := by
  unfold validateID
  by_cases hnil : r.ofID id = []
  · have hp : r.providers id = [] := by rw [providers, hnil, List.filter_nil]
    have hc : r.consumers id = [] := by rw [consumers, hnil, List.filter_nil]
    rw [if_pos hnil, if_pos hp, hc, List.map_nil]
  · rw [if_neg hnil]
    by_cases hp : r.providers id = []
    · rw [if_pos hp, if_pos hp]
    · rw [if_neg hp, if_neg hp]
      by_cases hc : r.consumers id = []
      · rw [if_pos hc, if_pos hc]
      · rw [if_neg hc, if_neg hc, List.filter_eq_nil_iff]
        -- both sides are there: every issue comes from the diff of a pair
        intro i hi
        obtain ⟨p, -, hi⟩ := List.mem_flatMap.mp hi
        obtain ⟨cons, -, hi⟩ := List.mem_flatMap.mp hi
        rw [decide_eq_true_iff]
        rintro rfl
        exact kind_of_mem_diffPair hi hk

/-- The IDs of the issues about consumers without a provider. -/
theorem orphanConsumer_ids (id : String) :
    ((r.validateID env id).filter (fun i => i.kind = .issueOrphanConsumer)).map
        ContractIssue.contractID =
      (if r.providers id = [] then r.consumers id else []).map fun _ => id := by
  rw [filter_validateID (Or.inr rfl)]
  by_cases hp : r.providers id = []
  · rw [if_pos hp, if_pos hp, List.filter_eq_self.mpr, List.map_map]
    · rfl
    · intro i hi
      obtain ⟨c, -, rfl⟩ := List.mem_map.mp hi
      rfl
  · rw [if_neg hp, if_neg hp]
    by_cases hc : r.consumers id = []
    · rw [if_pos hc, List.filter_eq_nil_iff.mpr, List.map_nil, List.map_nil]
      intro i hi
      obtain ⟨c, -, rfl⟩ := List.mem_map.mp hi
      exact Bool.false_ne_true
    · rw [if_neg hc, List.map_nil, List.map_nil]

/-- The IDs of the issues about providers without a consumer. -/
theorem orphanProvider_ids (id : String) :
    ((r.validateID env id).filter (fun i => i.kind = .issueOrphanProvider)).map
        ContractIssue.contractID =
      (if r.consumers id = [] then r.providers id else []).map fun _ => id := by
  rw [filter_validateID (Or.inl rfl)]
  by_cases hp : r.providers id = []
  · rw [if_pos hp, hp, ite_self, List.filter_eq_nil_iff.mpr, List.map_nil, List.map_nil]
    intro i hi
    obtain ⟨c, -, rfl⟩ := List.mem_map.mp hi
    exact Bool.false_ne_true
  · rw [if_neg hp]
    by_cases hc : r.consumers id = []
    · rw [if_pos hc, if_pos hc, List.filter_eq_self.mpr, List.map_map]
      · rfl
      · intro i hi
        obtain ⟨c, -, rfl⟩ := List.mem_map.mp hi
        rfl
    · rw [if_neg hc, if_neg hc, List.map_nil, List.map_nil]

/-- What a report says of a kind, ID by ID in another order. -/
theorem perm_validate {k : IssueKind} {chunk : String → List Contract}
    (hchunk : ∀ id, ((r.validateID env id).filter (fun i => i.kind = k)).map
      ContractIssue.contractID = (chunk id).map Contract.id)
    (ord mord : GoMap.RangeOrder ContractRegistry) :
    (((r.validate env ord).filter fun i => i.kind = k).map ContractIssue.contractID).Perm
      (((r.allIDs mord).flatMap chunk).map Contract.id) := by
  have hsort := ((List.mergeSort_perm ((r.allIDs ord).flatMap (r.validateID env))
    fun a b => !issueLess b a).filter fun i => i.kind = k).map ContractIssue.contractID
  refine hsort.trans ?_
  rw [List.filter_flatMap, List.map_flatMap, List.map_flatMap]
  simp only [hchunk]
  exact ((ord.perm r _).trans (mord.perm r _).symm).flatMap_right _

/-- **The two passes agree on the consumers without a provider**: for every ID, as many
issues as contracts. -/
theorem perm_orphanConsumers (hr : r.Keyed) (ord mord : GoMap.RangeOrder ContractRegistry) :
    (((r.validate env ord).filter fun i => i.kind = .issueOrphanConsumer).map
      ContractIssue.contractID).Perm ((r.matchAll mord).orphanConsumers.map Contract.id) := by
  rw [matchAll, (foldl_matchID _ _).2.2, List.nil_append]
  refine perm_validate (fun id => ?_) ord mord
  rw [orphanConsumer_ids]
  refine List.map_congr_left fun c hc => (hr id c ?_).symm
  split at hc
  · exact (mem_consumers.mp hc).1
  · exact absurd hc List.not_mem_nil

/-- **The two passes agree on the providers without a consumer.** -/
theorem perm_orphanProviders (hr : r.Keyed) (ord mord : GoMap.RangeOrder ContractRegistry) :
    (((r.validate env ord).filter fun i => i.kind = .issueOrphanProvider).map
      ContractIssue.contractID).Perm ((r.matchAll mord).orphanProviders.map Contract.id) := by
  rw [matchAll, (foldl_matchID _ _).2.1, List.nil_append]
  refine perm_validate (fun id => ?_) ord mord
  rw [orphanProvider_ids]
  refine List.map_congr_left fun c hc => (hr id c ?_).symm
  split at hc
  · exact (mem_providers.mp hc).1
  · exact absurd hc List.not_mem_nil

end ContractRegistry

/-! ### Every registry of a run -/

namespace ContractTables

/-- A registry stores a contract under its ID, whatever operations have built it. -/
theorem keyed_run {ops : List Op} (hops : ∀ op ∈ ops, op.Legal) (heap : MetaHeap) :
    (ops.foldl State.apply ⟨{}, heap⟩).registry.Keyed := by
  have hempty : Indexed (State.mk {} heap).tables fun _ => 0 := Indexed.empty
  obtain ⟨mult, h⟩ := hempty.foldl_apply hops
  exact fun id c hc => h.consistent.id_eq_of_reads (State.reads_registry _) hc

/-- **Matching partitions the registry, and validation agrees with it.** Whatever operations
have built the registry: Match puts every provider and every consumer into one class, by
what its ID has; and the IDs of the issues about an absent side are those of the orphans. -/
theorem partitioned_run (ops : List Op) (hops : ∀ op ∈ ops, op.Legal) (heap : MetaHeap)
    (env : ValidateEnv) (ord mord : GoMap.RangeOrder ContractRegistry) (r : ContractRegistry)
    (hr : r = (ops.foldl State.apply ⟨{}, heap⟩).registry) :
    r.Partitioned (r.matchAll mord) ∧
      (∀ id, ∀ c ∈ r.providers id,
        (c ∈ (r.matchAll mord).orphanProviders ↔
          ¬∃ l ∈ (r.matchAll mord).matched, l.provider = c) ∧
        c ∉ (r.matchAll mord).orphanConsumers) ∧
      (∀ id, ∀ c ∈ r.consumers id,
        (c ∈ (r.matchAll mord).orphanConsumers ↔
          ¬∃ l ∈ (r.matchAll mord).matched, l.consumer = c) ∧
        c ∉ (r.matchAll mord).orphanProviders) ∧
      (((r.validate env ord).filter fun i => i.kind = .issueOrphanProvider).map
        ContractIssue.contractID).Perm ((r.matchAll mord).orphanProviders.map Contract.id) ∧
      (((r.validate env ord).filter fun i => i.kind = .issueOrphanConsumer).map
        ContractIssue.contractID).Perm ((r.matchAll mord).orphanConsumers.map Contract.id) := by
  have hkeyed : r.Keyed := hr ▸ keyed_run hops heap
  have hpart := ContractRegistry.partitioned_matchAll hkeyed mord
  exact ⟨hpart, fun _ _ => hpart.provider_once hkeyed, fun _ _ => hpart.consumer_once hkeyed,
    ContractRegistry.perm_orphanProviders hkeyed ord mord,
    ContractRegistry.perm_orphanConsumers hkeyed ord mord⟩

namespace TwoRepos

/-- The route and its calls, and a call of a route that nobody provides. -/
def calls : List Op :=
  let call : StoredContract :=
    { id := "http::POST::/users", contractType := .http, role := .consumer, symbolID := "web::save",
      filePath := "web/b.ts", line := 9, repoPrefix := "web", confidence := 1 }
  ops ++ [.add call]

def env : ValidateEnv where
  lookup := fun _ => none
  quote := id
  fieldOrder := GoMap.RangeOrder.default

/-- The registry of the route and its calls. -/
def registry : ContractRegistry := (calls.foldl State.apply ⟨{}, fun _ => ∅⟩).registry

/-- The three calls of the route are matched across repositories, the other call is an orphan
to both passes. -/
theorem partitioned_calls :
    registry.Partitioned (registry.matchAll GoMap.RangeOrder.default) ∧
      (registry.matchAll GoMap.RangeOrder.default).matched.map CrossLink.crossRepo =
        [true, true, true] ∧
      ((registry.validate env GoMap.RangeOrder.default).filter fun i =>
        i.kind = .issueOrphanConsumer).map ContractIssue.contractID = ["http::POST::/users"] := by
  have hops : ∀ op ∈ calls, op.Legal := by simp [calls, ops, Op.Legal]
  obtain ⟨hpart, -, -, -, hcons⟩ := partitioned_run calls hops (fun _ => ∅) env
    GoMap.RangeOrder.default GoMap.RangeOrder.default registry rfl
  have horphans : (registry.matchAll GoMap.RangeOrder.default).orphanConsumers.map Contract.id =
      ["http::POST::/users"] := by decide +kernel
  rw [horphans] at hcons
  exact ⟨hpart, by decide +kernel, List.perm_singleton.mp hcons⟩

end TwoRepos

end ContractTables

end Gortex
