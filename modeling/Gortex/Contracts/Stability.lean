import Mathlib.Data.Prod.Lex
import Mathlib.Data.String.Basic
import Gortex.Contracts.Validate
import Gortex.Lib.Fold
import Gortex.Lib.Sorting

/-!
# Stable reports

`internal/contracts/validate.go`: Validate sorts its issues by severity, contract and kind, "for
a stable output across calls". The order in which the contracts are visited is gone after that,
but the fields of a shape are visited in the order of a map as well, and what two fields of one
pair lead to can agree in all three. So the report is the same in every call exactly if no two
fields of a pair drift alike (`Gortex.ContractRegistry.stableReport_iff`).
-/

namespace Gortex

/-! ### The order of the issues -/

/-- What issues are sorted by, the least first. -/
def issueKey (i : ContractIssue) : (ℕ ×ₗ String ×ₗ String)ᵒᵈ :=
  OrderDual.toDual (toLex (severityRank i.severity, toLex (i.contractID, i.kind.str)))

/-- The contract of a key. -/
def keyID (k : (ℕ ×ₗ String ×ₗ String)ᵒᵈ) : String :=
  (ofLex (ofLex (OrderDual.ofDual k)).2).1

theorem severityRank_injective : Function.Injective severityRank := by
  intro a b h
  cases a <;> cases b <;> first | rfl | cases h

theorem IssueKind.str_injective : Function.Injective IssueKind.str := by
  obtain ⟨kinds, hall, hnodup⟩ : ∃ kinds : List IssueKind,
      (∀ k, k ∈ kinds) ∧ (kinds.map IssueKind.str).Nodup :=
    ⟨[.issueOrphanProvider, .issueOrphanConsumer, .issueRequestTypeUnknown,
      .issueResponseTypeUnknown, .issueResponseFieldRemoved, .issueResponseFieldTypeChanged,
      .issueResponseFieldAdded, .issueRequestFieldRequired, .issueRequestFieldTypeChanged,
      .issueRequestFieldExtra], fun k => by cases k <;> decide, by decide +kernel⟩
  exact fun a b h => List.inj_on_of_nodup_map hnodup (hall a) (hall b) h

theorem issueKey_eq_iff {a b : ContractIssue} : issueKey a = issueKey b ↔
    a.severity = b.severity ∧ a.contractID = b.contractID ∧ a.kind = b.kind := by
  simp only [issueKey, EmbeddingLike.apply_eq_iff_eq, Prod.mk.injEq, severityRank_injective.eq_iff,
    IssueKind.str_injective.eq_iff]

theorem issueLess_eq (a b : ContractIssue) :
    issueLess a b = decide (issueKey b < issueKey a) := by
  rw [issueLess, issueKey, issueKey]
  simp only [OrderDual.toDual_lt_toDual, Prod.Lex.toLex_lt_toLex]
  by_cases hs : a.severity = b.severity
  · by_cases hid : a.contractID = b.contractID
    · simp [hs, hid]
    · simp [hs, hid]
  · simp [hs, severityRank_injective.eq_iff]

/-- **The report is a stable sort** of what is found. -/
theorem ContractRegistry.validate_eq (r : ContractRegistry) (env : ValidateEnv)
    (ord : GoMap.RangeOrder ContractRegistry) :
    r.validate env ord = Sorting.stable issueKey ((r.allIDs ord).flatMap (r.validateID env)) := by
  refine congrArg _ (funext fun a => funext fun b => ?_)
  rw [issueLess_eq, ← decide_not]
  exact decide_eq_decide.mpr not_lt

/-! ### How a field drifts -/

/-- What can be wrong with a field: it is read and not written, both sides have another type for
it, or it is written and not read. -/
inductive Drift
  | missing (severity : Severity)
  | changed
  | extra
deriving DecidableEq

namespace Drift

/-- The kind of issue that a drift is reported as. -/
def kind (d : Direction) : Drift → IssueKind
  | missing _ => d.missingKind
  | changed => d.changedKind
  | extra => d.extraKind

def severity : Drift → Severity
  | missing s => s
  | changed => .severityBreaking
  | extra => .severityInfo

theorem eq_of_kind {d : Direction} {x y : Drift} (hkind : x.kind d = y.kind d)
    (hseverity : x.severity = y.severity) : x = y := by
  cases x <;> cases y <;> cases d <;>
    simp_all [kind, severity, Direction.missingKind, Direction.changedKind, Direction.extraKind]

end Drift

namespace Direction

/-- **What is wrong with a field**, if anything is. -/
def drift (d : Direction) (provShape consShape : Shape) (name : String) : Option Drift :=
  match (indexFields (d.reader provShape consShape)).lookup name,
    (indexFields (d.writer provShape consShape)).lookup name with
  | none, none => none
  | none, some _ => some .extra
  | some f, none => (d.missingSeverity f).map .missing
  | some f, some g => if canAssign f.fieldType g.fieldType then none else some .changed

/-- **No two fields drift alike.** -/
def Untied (d : Direction) (provShape consShape : Shape) : Prop :=
  ∀ a b x, d.drift provShape consShape a = some x → d.drift provShape consShape b = some x → a = b

end Direction

namespace ValidateEnv

variable {env : ValidateEnv} {d : Direction} {base : ContractIssue} {provShape consShape : Shape}

/-- The issues about the fields that are read, in the order of these. -/
def readIssues (env : ValidateEnv) (d : Direction) (base : ContractIssue)
    (provShape consShape : Shape) (fields : List (String × ShapeField)) : List ContractIssue :=
  fields.filterMap (env.readIssue d base (indexFields (d.writer provShape consShape)))

/-- The issues about the fields that are written, in the order of these. -/
def writeIssues (d : Direction) (base : ContractIssue) (provShape consShape : Shape)
    (fields : List (String × ShapeField)) : List ContractIssue :=
  fields.filterMap (d.writeIssue base (indexFields (d.reader provShape consShape)))

/-- What an issue about a field says of it. -/
structure Reports (d : Direction) (base : ContractIssue) (name : String) (x : Drift)
    (i : ContractIssue) : Prop where
  field : i.field = name
  contractID : i.contractID = base.contractID
  kind : i.kind = x.kind d
  severity : i.severity = x.severity

/-- **A field that is read is reported as it drifts.** -/
theorem reports_of_readIssue {p : String × ShapeField} {i : ContractIssue}
    (hp : p ∈ (indexFields (d.reader provShape consShape)).pairs)
    (h : env.readIssue d base (indexFields (d.writer provShape consShape)) p = some i) :
    ∃ x, d.drift provShape consShape p.1 = some x ∧ x ≠ .extra ∧ Reports d base p.1 x i := by
  have hread := GoMap.mem_pairs.mp hp
  rw [readIssue] at h
  rw [Direction.drift, hread]
  cases hwritten : (indexFields (d.writer provShape consShape)).lookup p.1 with
  | none =>
    rw [hwritten] at h
    obtain ⟨s, hs, rfl⟩ := Option.map_eq_some_iff.mp h
    exact ⟨.missing s, congrArg (Option.map Drift.missing) hs, Drift.noConfusion,
      ⟨rfl, rfl, rfl, rfl⟩⟩
  | some f =>
    rw [hwritten] at h
    by_cases hassign : canAssign p.2.fieldType f.fieldType = true
    · simp only [hassign, if_true] at h
      cases h
    · simp only [hassign] at h ⊢
      obtain rfl := Option.some.inj h
      exact ⟨.changed, rfl, Drift.noConfusion, ⟨rfl, rfl, rfl, rfl⟩⟩

/-- **A field that is written and not read is reported as such.** -/
theorem reports_of_writeIssue {p : String × ShapeField} {i : ContractIssue}
    (hp : p ∈ (indexFields (d.writer provShape consShape)).pairs)
    (h : d.writeIssue base (indexFields (d.reader provShape consShape)) p = some i) :
    d.drift provShape consShape p.1 = some .extra ∧ Reports d base p.1 .extra i := by
  have hwritten := GoMap.mem_pairs.mp hp
  rw [Direction.writeIssue] at h
  cases hread : (indexFields (d.reader provShape consShape)).lookup p.1 with
  | some f =>
    rw [hread] at h
    cases h
  | none =>
    rw [hread] at h
    obtain rfl := Option.some.inj h
    rw [Direction.drift, hread, hwritten]
    exact ⟨rfl, ⟨rfl, rfl, rfl, rfl⟩⟩

/-- A field that drifts is reported, as one that is read or as one that is written. -/
theorem isSome_of_drift (env : ValidateEnv) (base : ContractIssue) {name : String} {x : Drift}
    (h : d.drift provShape consShape name = some x) :
    (∃ f, (indexFields (d.reader provShape consShape)).lookup name = some f ∧
        (env.readIssue d base (indexFields (d.writer provShape consShape)) (name, f)).isSome) ∨
      ∃ f, (indexFields (d.writer provShape consShape)).lookup name = some f ∧
        (d.writeIssue base (indexFields (d.reader provShape consShape)) (name, f)).isSome := by
  rw [Direction.drift] at h
  cases hread : (indexFields (d.reader provShape consShape)).lookup name with
  | none =>
    right
    cases hwritten : (indexFields (d.writer provShape consShape)).lookup name with
    | none =>
      rw [hread, hwritten] at h
      cases h
    | some g =>
      refine ⟨g, rfl, ?_⟩
      rw [Direction.writeIssue, hread]
      rfl
  | some f =>
    refine .inl ⟨f, rfl, ?_⟩
    rw [readIssue]
    cases hwritten : (indexFields (d.writer provShape consShape)).lookup name with
    | none =>
      rw [hread, hwritten] at h
      obtain ⟨s, hs, -⟩ := Option.map_eq_some_iff.mp h
      rw [hs]
      rfl
    | some g =>
      rw [hread, hwritten] at h
      by_cases hassign : canAssign f.fieldType g.fieldType = true
      · simp only [hassign, if_true] at h
        cases h
      · simp only [hassign]
        rfl

/-- **A field that drifts has an issue**, among those of the fields that are read unless it is
written only. -/
theorem exists_report (env : ValidateEnv) (base : ContractIssue) {name : String} {x : Drift}
    (h : d.drift provShape consShape name = some x) :
    (x ≠ .extra ∧ ∃ i ∈ env.readIssues d base provShape consShape
        (indexFields (d.reader provShape consShape)).pairs, Reports d base name x i) ∨
      x = .extra ∧ ∃ i ∈ writeIssues d base provShape consShape
        (indexFields (d.writer provShape consShape)).pairs, Reports d base name x i := by
  rcases isSome_of_drift env base h with ⟨f, hf, hi⟩ | ⟨f, hf, hi⟩
  · obtain ⟨i, hi⟩ := Option.isSome_iff_exists.mp hi
    obtain ⟨y, hy, hne, hreports⟩ := reports_of_readIssue (GoMap.mem_pairs.mpr hf) hi
    obtain rfl := Option.some.inj (h.symm.trans hy)
    exact .inl ⟨hne, i, List.mem_filterMap.mpr ⟨_, GoMap.mem_pairs.mpr hf, hi⟩, hreports⟩
  · obtain ⟨i, hi⟩ := Option.isSome_iff_exists.mp hi
    obtain ⟨hy, hreports⟩ := reports_of_writeIssue (GoMap.mem_pairs.mpr hf) hi
    obtain rfl := Option.some.inj (h.symm.trans hy)
    exact .inr ⟨rfl, i, List.mem_filterMap.mpr ⟨_, GoMap.mem_pairs.mpr hf, hi⟩, hreports⟩

/-- The fields of a shape have one issue each. -/
theorem pairwise_readIssues :
    (env.readIssues d base provShape consShape
      (indexFields (d.reader provShape consShape)).pairs).Pairwise
        fun i j => i.field ≠ j.field := by
  refine List.pairwise_filterMap.mpr ?_
  refine (List.pairwise_map.mp (GoMap.nodup_pairs_fst _)).imp_of_mem ?_
  intro p q hp hq hne i hi j hj
  obtain ⟨x, -, -, hx⟩ := reports_of_readIssue hp hi
  obtain ⟨y, -, -, hy⟩ := reports_of_readIssue hq hj
  rwa [hx.field, hy.field]

theorem pairwise_writeIssues :
    (writeIssues d base provShape consShape
      (indexFields (d.writer provShape consShape)).pairs).Pairwise
        fun i j => i.field ≠ j.field := by
  refine List.pairwise_filterMap.mpr ?_
  refine (List.pairwise_map.mp (GoMap.nodup_pairs_fst _)).imp_of_mem ?_
  intro p q hp hq hne i hi j hj
  rwa [(reports_of_writeIssue hp hi).2.field, (reports_of_writeIssue hq hj).2.field]

/-- The issues of two shapes, as the fields are visited. -/
theorem diffFields_eq (env : ValidateEnv) (d : Direction) (base : ContractIssue)
    (provShape consShape : Shape) :
    env.diffFields d base provShape consShape =
      env.readIssues d base provShape consShape (env.fieldOrder.order [base]
        (indexFields (d.reader provShape consShape)).pairs) ++
      writeIssues d base provShape consShape (env.fieldOrder.order
        (base :: env.readIssues d base provShape consShape (env.fieldOrder.order [base]
          (indexFields (d.reader provShape consShape)).pairs))
        (indexFields (d.writer provShape consShape)).pairs) := rfl

/-- **What the issues of two shapes say**: each reports a drift of the field that it names. -/
theorem reports_of_mem_diffFields {i : ContractIssue}
    (hi : i ∈ env.diffFields d base provShape consShape) :
    ∃ name x, d.drift provShape consShape name = some x ∧ Reports d base name x i := by
  rcases List.mem_append.mp hi with hi | hi
  · obtain ⟨p, hp, hi⟩ := List.mem_filterMap.mp hi
    obtain ⟨x, hx, -, hreports⟩ := reports_of_readIssue (env.fieldOrder.mem.mp hp) hi
    exact ⟨p.1, x, hx, hreports⟩
  · obtain ⟨p, hp, hi⟩ := List.mem_filterMap.mp hi
    obtain ⟨hx, hreports⟩ := reports_of_writeIssue (env.fieldOrder.mem.mp hp) hi
    exact ⟨p.1, .extra, hx, hreports⟩

/-- The issues of two shapes, in the order of the representation. -/
def drifts (env : ValidateEnv) (d : Direction) (base : ContractIssue)
    (provShape consShape : Shape) : List ContractIssue :=
  env.readIssues d base provShape consShape (indexFields (d.reader provShape consShape)).pairs ++
    writeIssues d base provShape consShape (indexFields (d.writer provShape consShape)).pairs

theorem perm_diffFields :
    (env.diffFields d base provShape consShape).Perm (env.drifts d base provShape consShape) :=
  ((env.fieldOrder.perm _ _).filterMap _).append ((env.fieldOrder.perm _ _).filterMap _)

/-- A field has one issue. -/
theorem pairwise_drifts :
    (env.drifts d base provShape consShape).Pairwise fun i j => i.field ≠ j.field := by
  refine List.pairwise_append.mpr ⟨pairwise_readIssues, pairwise_writeIssues, ?_⟩
  intro i hi j hj hfield
  obtain ⟨p, hp, hi⟩ := List.mem_filterMap.mp hi
  obtain ⟨q, hq, hj⟩ := List.mem_filterMap.mp hj
  obtain ⟨x, hx, hne, hreports⟩ := reports_of_readIssue hp hi
  obtain ⟨hextra, hreports'⟩ := reports_of_writeIssue hq hj
  rw [hreports.field, hreports'.field] at hfield
  rw [hfield, hextra] at hx
  exact hne (Option.some.inj hx).symm

/-- **Where no two fields drift alike, the issues of a key come in one order only**: there is one
of them. -/
theorem filter_diffFields (h : d.Untied provShape consShape)
    (k : (ℕ ×ₗ String ×ₗ String)ᵒᵈ) :
    (env.diffFields d base provShape consShape).filter (fun i => issueKey i = k) =
      (env.drifts d base provShape consShape).filter fun i => issueKey i = k := by
  have htrivial : ∀ l : List ContractIssue, l.Pairwise fun _ _ => True := fun l =>
    List.pairwise_of_forall fun _ _ => trivial
  refine List.Perm.eq_of_pairwise ?_ (htrivial _) (htrivial _) (perm_diffFields.filter _)
  intro i j hi hj _ _
  obtain ⟨hi, hik⟩ := List.mem_filter.mp hi
  obtain ⟨hj, hjk⟩ := List.mem_filter.mp hj
  obtain ⟨a, x, ha, hreports⟩ := reports_of_mem_diffFields hi
  obtain ⟨b, y, hb, hreports'⟩ := reports_of_mem_diffFields (perm_diffFields.mem_iff.mpr hj)
  obtain ⟨hseverity, -, hkind⟩ := issueKey_eq_iff.mp
    ((of_decide_eq_true hik).trans (of_decide_eq_true hjk).symm)
  rw [hreports.severity, hreports'.severity] at hseverity
  rw [hreports.kind, hreports'.kind] at hkind
  obtain rfl := Drift.eq_of_kind hkind hseverity
  refine List.inj_on_of_nodup_map (f := ContractIssue.field)
    (List.pairwise_map.mpr pairwise_drifts) (perm_diffFields.mem_iff.mp hi) hj ?_
  rw [hreports.field, hreports'.field, h a b x ha hb]

/-- The environment with another order of the fields. -/
def withOrder (env : ValidateEnv) (ord : GoMap.RangeOrder (List ContractIssue)) : ValidateEnv :=
  { env with fieldOrder := ord }

/-- The fields, visited from the last to the first. -/
def backward : GoMap.RangeOrder (List ContractIssue) := ⟨fun _ l => l.reverse, fun _ l =>
  l.reverse_perm⟩

theorem diffFields_backward : (env.withOrder backward).diffFields d base provShape consShape =
    (env.readIssues d base provShape consShape
        (indexFields (d.reader provShape consShape)).pairs).reverse ++
      (writeIssues d base provShape consShape
        (indexFields (d.writer provShape consShape)).pairs).reverse := by
  rw [diffFields_eq]
  simp only [withOrder, backward, readIssues, writeIssues, List.filterMap_reverse]
  rfl

/-- Issues of one key that read the same both ways are about one field. -/
theorem field_eq_of_filter_eq {l : List ContractIssue} {k : (ℕ ×ₗ String ×ₗ String)ᵒᵈ}
    {i j : ContractIssue} (hl : l.Pairwise fun i j => i.field ≠ j.field)
    (h : l.filter (fun i => issueKey i = k) = (l.filter fun i => issueKey i = k).reverse)
    (hi : i ∈ l) (hj : j ∈ l) (hik : issueKey i = k) (hjk : issueKey j = k) :
    i.field = j.field := by
  have hnodup : l.Nodup := hl.imp fun {i j} hne (hc : i = j) => hne (hc ▸ rfl)
  by_contra hne
  exact Sorting.ne_reverse (hnodup.filter _) (List.mem_filter.mpr ⟨hi, decide_eq_true hik⟩)
    (List.mem_filter.mpr ⟨hj, decide_eq_true hjk⟩) (fun hc => hne (hc ▸ rfl)) h

/-- **Where two fields drift alike, there are two orders of their issues.** -/
theorem untied_of_filter_eq (env : ValidateEnv) (base : ContractIssue)
    {k : Drift → (ℕ ×ₗ String ×ₗ String)ᵒᵈ}
    (hk : ∀ name x i, Reports d base name x i → issueKey i = k x)
    (h : ∀ x, ((env.withOrder .default).diffFields d base provShape consShape).filter
        (fun i => issueKey i = k x) =
      ((env.withOrder backward).diffFields d base provShape consShape).filter
        fun i => issueKey i = k x) : d.Untied provShape consShape := by
  intro a b x ha hb
  have hx := h x
  rw [diffFields_backward, List.filter_append] at hx
  change ((env.drifts d base provShape consShape).filter _) = _ at hx
  rw [drifts, List.filter_append, List.filter_reverse, List.filter_reverse] at hx
  obtain ⟨hread, hwrite⟩ := List.append_inj hx (List.length_reverse).symm
  -- the two issues are on the same side
  rcases exists_report env base ha with ⟨hne, i, hi, hia⟩ | ⟨hextra, i, hi, hia⟩
  · rcases exists_report env base hb with ⟨-, j, hj, hjb⟩ | ⟨hextra, -⟩
    · rw [← hia.field, ← hjb.field]
      exact field_eq_of_filter_eq pairwise_readIssues hread hi hj (hk _ _ _ hia) (hk _ _ _ hjb)
    · exact absurd hextra hne
  · rcases exists_report env base hb with ⟨hne, -⟩ | ⟨-, j, hj, hjb⟩
    · exact absurd hextra hne
    · rw [← hia.field, ← hjb.field]
      exact field_eq_of_filter_eq pairwise_writeIssues hwrite hi hj (hk _ _ _ hia) (hk _ _ _ hjb)

/-! ### The report of a registry -/

/-- The issues of a direction of a pair, where both shapes are known. -/
theorem diffTypes_of_shapes (id : String) {p cons : Contract}
    (hprov : env.resolveShape (p.metadata.getStr d.typeKey) = some provShape)
    (hcons : env.resolveShape (cons.metadata.getStr d.typeKey) = some consShape) :
    ∃ base : ContractIssue, base.contractID = id ∧ ∀ ord,
      (env.withOrder ord).diffTypes d id p cons =
        (env.withOrder ord).diffFields d base provShape consShape := by
  have hne : ∀ {s : String} {shape : Shape}, env.resolveShape s = some shape → s ≠ "" := by
    rintro s shape h rfl
    cases h
  refine ⟨
    { contractID := id
      kind := d.unknownKind
      severity := .severityWarning
      provider := p.repoPrefix
      consumer := cons.repoPrefix
      providerType := p.metadata.getStr d.typeKey
      consumerType := cons.metadata.getStr d.typeKey }, rfl, fun ord => ?_⟩
  have hprov' : (env.withOrder ord).resolveShape (p.metadata.getStr d.typeKey) = some provShape :=
    hprov
  have hcons' : (env.withOrder ord).resolveShape (cons.metadata.getStr d.typeKey) =
    some consShape := hcons
  rw [diffTypes]
  simp only [hne hprov, hne hcons, or_self, if_false, hprov', hcons', reduceCtorEq, false_and,
    List.nil_append]

/-- **Where no two fields drift alike, the issues of a key are the same in any order.** -/
theorem filter_diffTypes {id : String} {p cons : Contract}
    (h : ∀ provShape consShape,
      env.resolveShape (p.metadata.getStr d.typeKey) = some provShape →
      env.resolveShape (cons.metadata.getStr d.typeKey) = some consShape →
      d.Untied provShape consShape)
    (ord ord' : GoMap.RangeOrder (List ContractIssue)) (k : (ℕ ×ₗ String ×ₗ String)ᵒᵈ) :
    ((env.withOrder ord).diffTypes d id p cons).filter (fun i => issueKey i = k) =
      ((env.withOrder ord').diffTypes d id p cons).filter fun i => issueKey i = k := by
  cases hprov : env.resolveShape (p.metadata.getStr d.typeKey) with
  | none =>
    have hsame : (env.withOrder ord).diffTypes d id p cons =
        (env.withOrder ord').diffTypes d id p cons := by
      have hprov' : ∀ ord, (env.withOrder ord).resolveShape (p.metadata.getStr d.typeKey) = none :=
        fun _ => hprov
      simp only [diffTypes, hprov']
      rfl
    rw [hsame]
  | some provShape =>
    cases hcons : env.resolveShape (cons.metadata.getStr d.typeKey) with
    | none =>
      have hsame : (env.withOrder ord).diffTypes d id p cons =
          (env.withOrder ord').diffTypes d id p cons := by
        have hprov' : ∀ ord, (env.withOrder ord).resolveShape (p.metadata.getStr d.typeKey) =
          some provShape := fun _ => hprov
        have hcons' : ∀ ord, (env.withOrder ord).resolveShape (cons.metadata.getStr d.typeKey) =
          none := fun _ => hcons
        simp only [diffTypes, hprov', hcons']
      rw [hsame]
    | some consShape =>
      obtain ⟨base, -, hbase⟩ := diffTypes_of_shapes id hprov hcons
      have huntied := h _ _ hprov hcons
      rw [hbase, hbase, filter_diffFields huntied, filter_diffFields huntied]
      rfl

theorem length_filter_diffTypes (env : ValidateEnv) (d : Direction) (id : String)
    (p cons : Contract)
    (ord ord' : GoMap.RangeOrder (List ContractIssue)) (k : (ℕ ×ₗ String ×ₗ String)ᵒᵈ) :
    (((env.withOrder ord).diffTypes d id p cons).filter fun i => issueKey i = k).length =
      (((env.withOrder ord').diffTypes d id p cons).filter fun i => issueKey i = k).length := by
  cases hprov : env.resolveShape (p.metadata.getStr d.typeKey) with
  | none =>
    rw [filter_diffTypes (fun provShape _ h => by cases hprov.symm.trans h) ord ord']
  | some provShape =>
    cases hcons : env.resolveShape (cons.metadata.getStr d.typeKey) with
    | none => rw [filter_diffTypes (fun _ consShape _ h => by cases hcons.symm.trans h) ord ord']
    | some consShape =>
      obtain ⟨base, -, hbase⟩ := diffTypes_of_shapes id hprov hcons
      have hperm : ∀ ord, ((env.withOrder ord).diffFields d base provShape consShape).Perm
          (env.drifts d base provShape consShape) := fun ord => perm_diffFields
      rw [hbase, hbase]
      exact (((hperm ord).trans (hperm ord').symm).filter _).length_eq

theorem contractID_of_mem_diffTypes {id : String} {p cons : Contract} {i : ContractIssue}
    (hi : i ∈ env.diffTypes d id p cons) : i.contractID = id := by
  rw [diffTypes] at hi
  simp only at hi
  split at hi
  · exact absurd hi List.not_mem_nil
  · rcases List.mem_append.mp hi with hi | hi
    · rcases List.mem_append.mp hi with hi | hi
      · rw [List.mem_ite_nil_right, List.mem_singleton] at hi
        rw [hi.2]
      · rw [List.mem_ite_nil_right, List.mem_singleton] at hi
        rw [hi.2]
    · split at hi
      · obtain ⟨name, x, -, hreports⟩ := reports_of_mem_diffFields hi
        exact hreports.contractID
      · exact absurd hi List.not_mem_nil

/-- The issues of a key of a pair, direction by direction. -/
theorem filter_diffPair (env : ValidateEnv) (id : String) (p cons : Contract)
    (k : (ℕ ×ₗ String ×ₗ String)ᵒᵈ) :
    (env.diffPair id p cons).filter (fun i => issueKey i = k) =
      (env.diffTypes .response id p cons).filter (fun i => issueKey i = k) ++
        (env.diffTypes .request id p cons).filter fun i => issueKey i = k :=
  List.filter_append ..

end ValidateEnv

namespace ContractRegistry

variable {r : ContractRegistry} {env : ValidateEnv}

/-- All issues of an ID are about it. -/
theorem contractID_of_mem_validateID {id : String} {i : ContractIssue}
    (hi : i ∈ r.validateID env id) : i.contractID = id := by
  rw [validateID] at hi
  split_ifs at hi with hnil hp hc
  · exact absurd hi List.not_mem_nil
  · obtain ⟨c, -, rfl⟩ := List.mem_map.mp hi
    rfl
  · obtain ⟨c, -, rfl⟩ := List.mem_map.mp hi
    rfl
  · obtain ⟨p, -, hi⟩ := List.mem_flatMap.mp hi
    obtain ⟨cons, -, hi⟩ := List.mem_flatMap.mp hi
    rcases List.mem_append.mp hi with hi | hi
    · exact ValidateEnv.contractID_of_mem_diffTypes hi
    · exact ValidateEnv.contractID_of_mem_diffTypes hi

/-- The issues of an ID with both sides: those of its pairs. -/
theorem validateID_of_pair {id : String} {p cons : Contract} (hp : p ∈ r.providers id)
    (hcons : cons ∈ r.consumers id) : r.validateID env id =
      (r.providers id).flatMap fun p => (r.consumers id).flatMap fun cons =>
        env.diffPair id p cons := by
  rw [validateID, if_neg (List.ne_nil_of_mem (List.mem_filter.mp hp).1),
    if_neg (List.ne_nil_of_mem hp), if_neg (List.ne_nil_of_mem hcons)]

/-- The issues of a key, among all that are found: those of its contract. -/
theorem filter_issues (ord : GoMap.RangeOrder ContractRegistry) (k : (ℕ ×ₗ String ×ₗ String)ᵒᵈ) :
    ((r.allIDs ord).flatMap (r.validateID env)).filter (fun i => issueKey i = k) =
      (r.validateID env (keyID k)).filter fun i => issueKey i = k := by
  have hkey : ∀ i : ContractIssue, issueKey i = k → i.contractID = keyID k := by
    rintro i rfl
    rfl
  have hfilter : ∀ l : List ContractIssue, l.filter (fun i => issueKey i = k) =
      (l.filter fun i => i.contractID = keyID k).filter fun i => issueKey i = k := by
    intro l
    rw [List.filter_filter]
    refine List.filter_congr fun i _ => ?_
    by_cases hi : issueKey i = k
    · simp [hi, hkey i hi]
    · simp [hi]
  rw [hfilter, filter_flatMap_of_key (fun id i hi => contractID_of_mem_validateID hi)
    (r.nodup_allIDs ord)]
  split_ifs with hid
  · rfl
  · rw [validateID, if_pos (ofID_of_notMem hid)]

/-- **No two fields of a pair of a provider and a consumer drift alike.** -/
def Untied (r : ContractRegistry) (env : ValidateEnv) : Prop :=
  ∀ id, ∀ p ∈ r.providers id, ∀ cons ∈ r.consumers id, ∀ (d : Direction) (provShape consShape),
    env.resolveShape (p.metadata.getStr d.typeKey) = some provShape →
    env.resolveShape (cons.metadata.getStr d.typeKey) = some consShape →
    d.Untied provShape consShape

/-- **The report of a registry is the same in every call exactly if no two fields of a pair drift
alike**, in whatever orders the contracts and the fields are visited. -/
theorem stableReport_iff (r : ContractRegistry) (env : ValidateEnv) :
    (∀ ford ford' ord ord', r.validate (env.withOrder ford) ord =
      r.validate (env.withOrder ford') ord') ↔ r.Untied env := by
  simp only [validate_eq, Sorting.stable_eq_iff, filter_issues]
  constructor
  · intro h id p hp cons hcons d provShape consShape hprov hcons'
    obtain ⟨base, hid, hbase⟩ := ValidateEnv.diffTypes_of_shapes id hprov hcons'
    refine ValidateEnv.untied_of_filter_eq env base
      (k := fun x => OrderDual.toDual (toLex (severityRank x.severity,
        toLex (id, (x.kind d).str)))) ?_ ?_
    · intro name x i hreports
      rw [issueKey, hreports.severity, hreports.contractID, hreports.kind, hid]
    · intro x
      rw [← hbase, ← hbase]
      -- the issues of the key come from the pairs of the ID, as many in either order
      have hpairs := h .default ValidateEnv.backward .default .default (OrderDual.toDual
        (toLex (severityRank x.severity, toLex (id, (x.kind d).str))))
      change ((r.validateID _ id).filter _) = ((r.validateID _ id).filter _) at hpairs
      rw [validateID_of_pair hp hcons, validateID_of_pair hp hcons] at hpairs
      simp only [List.filter_flatMap, ValidateEnv.filter_diffPair] at hpairs
      have hlen := fun d id p cons => ValidateEnv.length_filter_diffTypes env d id p cons
        .default ValidateEnv.backward
      have hpair := List.eq_of_flatMap_eq (fun cons _ => by
        rw [List.length_append, List.length_append, hlen, hlen])
        (List.eq_of_flatMap_eq (fun p _ => by
          simp only [List.length_flatMap, List.length_append, hlen]) hpairs p hp) cons hcons
      obtain ⟨hresponse, hrequest⟩ := List.append_inj hpair (hlen ..)
      cases d with
      | response => exact hresponse
      | request => exact hrequest
  · intro h ford ford' ord ord' k
    rw [validateID, validateID]
    split_ifs
    · rfl
    · rfl
    · rfl
    · simp only [List.filter_flatMap, ValidateEnv.filter_diffPair]
      refine List.flatMap_congr fun p hp => List.flatMap_congr fun cons hcons => ?_
      rw [ValidateEnv.filter_diffTypes (h _ p hp cons hcons _) ford ford',
        ValidateEnv.filter_diffTypes (h _ p hp cons hcons _) ford ford']

namespace Reordered

/-- One side of a route, that names the type of the response. -/
def side (role : Role) (repoPrefix response : String) : Contract where
  id := "http::GET::/users"
  contractType := .http
  role := role
  symbolID := ""
  filePath := "users.go"
  line := 1
  repoPrefix := repoPrefix
  metadata := (∅ : Metadata).insert "response_type" (.str response)
  confidence := 1

/-- A route and a call of it. -/
def registry : ContractRegistry :=
  (({} : ContractRegistry).add (side .provider "api" "api/users.go::User")).add
    (side .consumer "web" "web/users.ts::User")

/-- The call reads two fields that the route does not write. -/
def shapes (typeRef : String) : Option Shape :=
  if typeRef = "web/users.ts::User" then
    some ⟨[{ name := "id", fieldType := "string", required := true },
      { name := "name", fieldType := "string", required := true }]⟩
  else some ⟨[]⟩

def fields : ValidateEnv where
  lookup := shapes
  quote := id
  fieldOrder := .default

/-- **The two fields are reported in the order in which they are visited.** -/
theorem not_stableReport : ¬∀ ford ford' ord ord',
    registry.validate (fields.withOrder ford) ord =
      registry.validate (fields.withOrder ford') ord' := by
  intro h
  have hsort := h .default ValidateEnv.backward .default .default
  rw [validate_eq, validate_eq, Sorting.stable_eq_iff] at hsort
  have hfields := congrArg (List.map ContractIssue.field) (hsort (OrderDual.toDual (toLex
    (0, toLex ("http::GET::/users", "response_field_removed")))))
  revert hfields
  decide +kernel

end Reordered

end ContractRegistry

end Gortex
