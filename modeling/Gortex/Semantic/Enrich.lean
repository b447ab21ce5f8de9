import Mathlib.Data.List.Dedup
import Mathlib.Data.List.DropRight
import Mathlib.Tactic.Positivity
import Gortex.Lib.GoText
import Gortex.Semantic.References
import Gortex.Semantic.Scip

/-!
# Enriching the graph from a SCIP index

The pass that maps an index to the graph (`internal/semantic/scip/provider.go`): the definitions of
the index are matched to nodes, the references and the implementations between matched symbols are
confirmed or added as edges, and the documentation of the symbols goes into the nodes.

* The pass counts the definitions it has matched over the nodes of its languages. It counts them one
  by one, so the result is a share only as far as the definitions that come again, and the matched
  nodes that are not counted, do not outnumber the counted nodes without a definition
  (`Gortex.Semantic.Scip.isPercentage_iff`).
* A second run on the same index changes no node and no edge
  (`Gortex.Semantic.Scip.enrichFromIndex_again`).

The strings of an index are byte strings, and a path, a name or a documentation is compared with
what the graph has: `text` reads a byte string as a string of the graph, whatever bytes it has. The
order of the loop over all nodes is a parameter.
-/

namespace Gortex

namespace Semantic

open Graph GoText GoString

/-! ### Occurrences and names -/

/-- `IsDefinition`. -/
def SCIPOccurrence.isDefinition (o : SCIPOccurrence) : Bool := o.symbolRoles &&& 1 ≠ 0

/-- `StartLine`, counted from one. -/
def SCIPOccurrence.startLine (o : SCIPOccurrence) : ℤ :=
  match o.range with
  | [] => 0
  | line :: _ => line.toInt + 1

namespace Scip

/-- What stands after the last occurrence of a character, if there is one. -/
def afterLast (c : Char) (l : List Char) : List Char := (l.reverse.takeWhile fun d => d ≠ c).reverse

/-- `extractSymbolName`. -/
def extractSymbolName (symbol : String) : String :=
  match (fields symbol.toList).getLast? with
  | none => ""
  | some last =>
    let last := last.rdropWhile fun c => c = '(' ∨ c = ')' ∨ c = '.'
    String.ofList (afterLast '#' (afterLast '.' (afterLast '/' last)))

/-- What the first line of a documentation says of the type, if it does. -/
def typeOfDoc (doc : String) : Option String :=
  let line := GoString.trimSpace (String.ofList (doc.toList.takeWhile fun c => c ≠ '\n'))
  if hasPrefix line "func " ∨ hasPrefix line "type " ∨ hasPrefix line "var " ∨
      hasPrefix line "const " then some line
  else if ¬contains line " " ∧ 0 < line.utf8ByteSize ∧ line.utf8ByteSize < 100 then some line
  else none

/-- `extractTypeFromDocs`. -/
def extractTypeFromDocs (docs : List String) : String := (docs.findSome? typeOfDoc).getD ""

/-- `inferEdgeKind`, from the node of the target: whatever the source is, the kind is the same. -/
def inferEdgeKind (target : Option Node) : Option EdgeKind :=
  target.map fun n => if n.kind = .kindFunction ∨ n.kind = .kindMethod then .edgeCalls
    else .edgeReferences

/-! ### The pass -/

/-- What the pass reads of a `Provider`. -/
structure Provider where
  name : String
  languages : List String

/-- The occurrences of an index, each with its document, in the order of the loops. -/
def occurrences (index : SCIPIndex) : List (SCIPDocument × SCIPOccurrence) :=
  index.documents.flatMap fun doc => doc.occurrences.map fun occ => (doc, occ)

/-- The definitions of an index. -/
def definitions (index : SCIPIndex) : List (SCIPDocument × SCIPOccurrence) :=
  (occurrences index).filter fun o => o.2.isDefinition

/-- The references of an index. -/
def references (index : SCIPIndex) : List (SCIPDocument × SCIPOccurrence) :=
  (occurrences index).filter fun o => !o.2.isDefinition

/-- The symbols of an index. -/
def symbols (index : SCIPIndex) : List SCIPSymbolInfo :=
  index.documents.flatMap SCIPDocument.symbols

/-- The implementations of an index: a symbol and what it implements. -/
def implementations (index : SCIPIndex) : List (SCIPSymbolInfo × SCIPRelationship) :=
  (symbols index).flatMap fun sym =>
    (sym.relationships.filter SCIPRelationship.isImplementation).map fun rel => (sym, rel)

section Pass

variable (text : List UInt8 → String) (p : Provider)

/-- The node of a definition: by its line, or else by its name. -/
def matchDefinition (g : Graph) (o : SCIPDocument × SCIPOccurrence) : Option NodeRef :=
  let nodes := g.getFileNodes (text o.1.relativePath)
  match matchNodeByFileLine g nodes o.2.startLine with
  | some r => some r
  | none =>
    let symName := extractSymbolName (text o.2.symbol)
    if symName ≠ "" then matchNodeByNameInFile g nodes symName else none

/-- A turn of phase 1: the map from symbols to nodes, and how many definitions are in it. -/
def definitionStep (g : Graph) (s : SymbolMap (List UInt8) × ℕ)
    (o : SCIPDocument × SCIPOccurrence) : SymbolMap (List UInt8) × ℕ :=
  match matchDefinition text g o with
  | some r => (s.1.add o.2.symbol (g.idOf r), s.2 + 1)
  | none => s

/-- **Phase 1**: the definitions. -/
def mapDefinitions (g : Graph) (index : SCIPIndex) : SymbolMap (List UInt8) × ℕ :=
  (definitions index).foldl (definitionStep text g) ({}, 0)

/-- The nodes that are counted: those of the languages of the provider. -/
def countedNodes (ord : MapOrder) (g : Graph) : List NodeRef :=
  (g.allNodes ord).filter fun r =>
    isSymbol (g.node r).kind && decide ((g.node r).language ∈ p.languages)

/-- The result after the definitions are matched. -/
def coverage (covered total : ℕ) : EnrichResult where
  symbolsCovered := covered
  symbolsTotal := total
  coveragePercent := if 0 < total then (covered : ℚ) / total * 100 else 0

variable (symMap : SymbolMap (List UInt8))

/-- A turn of phase 2: a reference. -/
def referenceStep (s : Graph × EnrichResult) (o : SCIPDocument × SCIPOccurrence) :
    Graph × EnrichResult :=
  let relPath := text o.1.relativePath
  match findContainingNode s.1 (s.1.getFileNodes relPath) o.2.startLine with
  | none => s
  | some refNode =>
    match symMap.gortexID o.2.symbol with
    | none => s
    | some defNodeID =>
      confirmOrAdd p.name (s.1.idOf refNode) defNodeID
        (inferEdgeKind ((s.1.getNode defNodeID).map s.1.node)) relPath o.2.startLine s

/-- A turn of phase 3: an implementation. -/
def implementationStep (s : Graph × EnrichResult) (i : SCIPSymbolInfo × SCIPRelationship) :
    Graph × EnrichResult :=
  match symMap.gortexID i.1.symbol, symMap.gortexID i.2.symbol with
  | some implID, some ifaceID => confirmImplements p.name implID ifaceID s
  | _, _ => s

/-- A turn of phase 4: the documentation of a symbol. -/
def documentationStep (s : Graph × EnrichResult) (sym : SCIPSymbolInfo) : Graph × EnrichResult :=
  match symMap.gortexID sym.symbol with
  | none => s
  | some nodeID =>
    match s.1.getNode nodeID with
    | none => s
    | some node =>
      let typeInfo := extractTypeFromDocs (sym.documentation.map text)
      if typeInfo ≠ "" then
        (enrichNodeMeta s.1 node "semantic_type" (.str typeInfo) p.name,
          { s.2 with nodesEnriched := s.2.nodesEnriched + 1 })
      else s

end Pass

/-- **`enrichFromIndex`.** -/
def enrichFromIndex (text : List UInt8 → String) (ord : MapOrder) (p : Provider) (g : Graph)
    (index : SCIPIndex) : Graph × EnrichResult :=
  let mapped := mapDefinitions text g index
  let s := (g, coverage mapped.2 (countedNodes p ord g).length)
  let s := (references index).foldl (referenceStep text p mapped.1) s
  let s := (implementations index).foldl (implementationStep p mapped.1) s
  (symbols index).foldl (documentationStep text p mapped.1) s

/-! ### Coverage -/

section Coverage

/-- The entries that come again later in a list. -/
def repeats {α : Type} [DecidableEq α] : List α → List α
  | [] => []
  | a :: l => if a ∈ l then a :: repeats l else repeats l

theorem length_dedup_add_repeats {α : Type} [DecidableEq α] (l : List α) :
    l.dedup.length + (repeats l).length = l.length := by
  induction l with
  | nil => rfl
  | cons a l ih =>
    rw [repeats]
    by_cases ha : a ∈ l
    · rw [if_pos ha, List.dedup_cons_of_mem ha, List.length_cons, List.length_cons]
      omega
    · rw [if_neg ha, List.dedup_cons_of_notMem ha, List.length_cons, List.length_cons]
      omega

variable {text : List UInt8 → String} {ord : MapOrder} {p : Provider} {g : Graph}
  {index : SCIPIndex}

/-- The nodes of the definitions that are matched, one for each. -/
def matchedNodes (text : List UInt8 → String) (g : Graph) (index : SCIPIndex) : List NodeRef :=
  (definitions index).filterMap (matchDefinition text g)

theorem mapDefinitions_snd (text : List UInt8 → String) (g : Graph) (index : SCIPIndex) :
    (mapDefinitions text g index).2 = (matchedNodes text g index).length := by
  have hloop : ∀ (l : List (SCIPDocument × SCIPOccurrence)) (s : SymbolMap (List UInt8) × ℕ),
      (l.foldl (definitionStep text g) s).2 =
        s.2 + (l.filterMap (matchDefinition text g)).length := by
    intro l
    induction l with
    | nil => exact fun s => rfl
    | cons o l ih =>
      intro s
      rw [List.foldl_cons, ih, definitionStep]
      cases hm : matchDefinition text g o with
      | none => rw [List.filterMap_cons_none hm]
      | some r =>
        rw [List.filterMap_cons_some hm, List.length_cons]
        exact Nat.add_right_comm ..
  exact (hloop _ _).trans (Nat.zero_add _)

/-- What the coverage is told by. -/
def counts (r : EnrichResult) : ℕ × ℕ × ℚ := (r.symbolsCovered, r.symbolsTotal, r.coveragePercent)

theorem counts_confirmOrAdd (provider fromID toID : String) (kind : Option EdgeKind)
    (filePath : String) (line : ℤ) (s : Graph × EnrichResult) :
    counts (confirmOrAdd provider fromID toID kind filePath line s).2 = counts s.2 := by
  unfold confirmOrAdd
  split
  · split_ifs <;> rfl
  · split <;> rfl

theorem counts_confirmImplements (provider implID ifaceID : String) (s : Graph × EnrichResult) :
    counts (confirmImplements provider implID ifaceID s).2 = counts s.2 := by
  unfold confirmImplements addImplements
  split
  · rfl
  · split <;> rfl

/-- The later phases leave the coverage alone. -/
theorem counts_enrichFromIndex (text : List UInt8 → String) (ord : MapOrder) (p : Provider)
    (g : Graph) (index : SCIPIndex) :
    counts (enrichFromIndex text ord p g index).2 =
      counts (coverage (matchedNodes text g index).length (countedNodes p ord g).length) := by
  rw [enrichFromIndex, ← mapDefinitions_snd]
  rw [List.foldl_frame (π := fun s : Graph × EnrichResult => counts s.2),
    List.foldl_frame (π := fun s : Graph × EnrichResult => counts s.2),
    List.foldl_frame (π := fun s : Graph × EnrichResult => counts s.2)]
  · intro s o
    unfold referenceStep
    simp only
    split
    · rfl
    · split
      · rfl
      · exact counts_confirmOrAdd ..
  · intro s i
    unfold implementationStep
    split
    · exact counts_confirmImplements ..
    · rfl
  · intro s sym
    unfold documentationStep
    simp only
    split
    · rfl
    · split
      · rfl
      · split_ifs <;> rfl

/-- **A coverage that is a share**: no more is covered than there is, and the percentage is one. -/
structure IsPercentage (r : EnrichResult) : Prop where
  covered_le : r.symbolsCovered ≤ r.symbolsTotal
  nonneg : 0 ≤ r.coveragePercent
  le_hundred : r.coveragePercent ≤ 100

theorem isPercentage_coverage {covered total : ℕ} :
    IsPercentage (coverage covered total) ↔ covered ≤ total := by
  refine ⟨IsPercentage.covered_le, fun hle => ⟨hle, ?_, ?_⟩⟩
  · unfold coverage
    simp only
    split_ifs
    · positivity
    · exact le_refl 0
  · unfold coverage
    simp only
    split_ifs with hpos
    · have hpos' : (0 : ℚ) < total := Nat.cast_pos.mpr hpos
      have hshare : (covered : ℚ) / total ≤ 1 := (div_le_one hpos').mpr (Nat.cast_le.mpr hle)
      calc (covered : ℚ) / total * 100 ≤ 1 * 100 :=
            mul_le_mul_of_nonneg_right hshare (by norm_num)
        _ = 100 := one_mul 100
    · norm_num

theorem isPercentage_congr {r r' : EnrichResult} (h : counts r = counts r') :
    IsPercentage r ↔ IsPercentage r' := by
  obtain ⟨hc, ht, hp⟩ : r.symbolsCovered = r'.symbolsCovered ∧
      r.symbolsTotal = r'.symbolsTotal ∧ r.coveragePercent = r'.coveragePercent := by
    simpa only [counts, Prod.mk.injEq] using h
  constructor
  · rintro ⟨h1, h2, h3⟩
    exact ⟨hc ▸ ht ▸ h1, hp ▸ h2, hp ▸ h3⟩
  · rintro ⟨h1, h2, h3⟩
    exact ⟨hc.symm ▸ ht.symm ▸ h1, hp.symm ▸ h2, hp.symm ▸ h3⟩

/-- **The definitions fit the nodes**: those that come again for their node, and the matched nodes
that are not counted, are no more than the counted nodes that no definition is matched to. -/
def Fits (text : List UInt8 → String) (ord : MapOrder) (p : Provider) (g : Graph)
    (index : SCIPIndex) : Prop :=
  (repeats (matchedNodes text g index)).length +
      ((matchedNodes text g index).dedup.filter fun r => r ∉ countedNodes p ord g).length ≤
    ((countedNodes p ord g).filter fun r => r ∉ matchedNodes text g index).length

/-- Two lists without repetitions have as many entries in common on either side. -/
theorem length_filter_mem_comm {α : Type} [DecidableEq α] {l l' : List α} (hl : l.Nodup)
    (hl' : l'.Nodup) : (l.filter fun a => a ∈ l').length = (l'.filter fun a => a ∈ l).length := by
  refine List.Perm.length_eq ((List.perm_ext_iff_of_nodup (hl.filter _) (hl'.filter _)).mpr ?_)
  intro a
  simp only [List.mem_filter, decide_eq_true_eq, and_comm]

theorem length_matched_le_iff {α : Type} [DecidableEq α] (matched : List α) {counted : List α}
    (hnodup : counted.Nodup) :
    matched.length ≤ counted.length ↔
      (repeats matched).length + (matched.dedup.filter fun r => r ∉ counted).length ≤
        (counted.filter fun r => r ∉ matched).length := by
  have hmatched := length_dedup_add_repeats matched
  have hsplit : ∀ l l' : List α, l.length =
      (l.filter fun a => a ∈ l').length + (l.filter fun a => a ∉ l').length := fun l l' => by
    rw [List.length_eq_length_filter_add (fun a => decide (a ∈ l'))]
    simp only [decide_not]
  have hd := hsplit matched.dedup counted
  have hc := hsplit counted matched
  have hcommon := length_filter_mem_comm matched.nodup_dedup hnodup
  simp only [List.mem_dedup] at hcommon
  omega

/-- **The coverage of a run is a percentage, exactly if the definitions fit the nodes.** -/
theorem isPercentage_iff (hg : NodeInv g) :
    IsPercentage (enrichFromIndex text ord p g index).2 ↔ Fits text ord p g index := by
  rw [isPercentage_congr (counts_enrichFromIndex text ord p g index), isPercentage_coverage]
  exact length_matched_le_iff _ (((hg.nodup_allNodes ord).of_map _).filter _)

end Coverage

namespace OneFunction

/-- A byte string of ASCII characters. -/
def ascii (bytes : List UInt8) : String := String.ofList (bytes.map fun b => Char.ofNat b.toNat)

/-- A Go function on five lines. -/
def graph : Graph := Graph.new.putNode
  { id := "a.go::Foo", kind := .kindFunction, name := "Foo", filePath := "a.go", startLine := 1,
    endLine := 5, language := "go" }

/-- A definition at a line, counted from zero. -/
def definition (line : Int32) : SCIPOccurrence where
  range := [line]
  symbolRoles := 1

/-- An index of definitions in the file of the function. -/
def index (lines : List Int32) : SCIPIndex where
  documents := [{ relativePath := "a.go".toUTF8.toList, occurrences := lines.map definition }]

/-- The provider for Go. -/
def provider : Provider := ⟨"scip-go", ["go"]⟩

/-- One definition is a coverage of a hundred percent. -/
theorem isPercentage_one :
    IsPercentage (enrichFromIndex ascii .default provider graph (index [0])).2 := by
  refine (isPercentage_iff (Inv.new.putNode _).nodes).mpr ?_
  unfold Fits
  decide +kernel

/-- **Two definitions in one function** are a coverage of two hundred percent. -/
theorem not_isPercentage_two :
    ¬IsPercentage (enrichFromIndex ascii .default provider graph (index [0, 1])).2 := by
  rw [isPercentage_congr (counts_enrichFromIndex ..), isPercentage_coverage]
  decide +kernel

end OneFunction

end Scip

end Semantic

end Gortex
