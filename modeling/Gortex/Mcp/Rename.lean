import Gortex.Lib.Fold
import Gortex.Lib.GoPath
import Gortex.Lib.Identifiers
import Gortex.Mcp.Untested
import Gortex.Query.Engine

/-!
# Renaming a symbol

`handleRenameSymbol` of `internal/mcp/tools_coding.go`: for each line that refers to a symbol an
edit is proposed, in which the first occurrence of the old name is replaced by the new one. The
occurrence need not be an identifier, and it need not be the only one. So the edits rename the
symbol iff in each line that refers to it the first occurrence of its name is the only
identifier of that name (`Gortex.Mcp.renames_iff`).
-/

namespace Gortex

namespace Mcp

open GoString Identifiers

/-! ### The model -/

/-- What the tool uses of the server: the graph, the root of the indexer, which is empty without
one, and the lines that a scanner finds in a file, of which there are none if it cannot be
opened. -/
structure RenameServer where
  graph : Graph
  rootPath : String
  fileLines : String → List String

/-- The arguments of `rename_symbol`; none for one that is missing. -/
structure RenameRequest where
  id : Option String
  newName : Option String

/-- A proposed edit. -/
structure RenameEdit where
  file : String
  line : ℤ
  oldText : String
  newText : String
  confidence : String
  reason : String
deriving DecidableEq

/-- The answer. -/
structure RenameResult where
  oldName : String
  newName : String
  edits : List RenameEdit
  totalEdits : ℕ
  filesAffected : ℕ

/-- The edits proposed so far, and the keys of their lines. -/
structure RenameState where
  edits : List RenameEdit := []
  editSeen : List String := []

/-- `readSingleLine`: a line of a file; the empty string if there is none. -/
def readSingleLine (s : RenameServer) (filePath : String) (lineNum : ℤ) : String :=
  let absPath := if s.rootPath ≠ "" then GoPath.join s.rootPath filePath else filePath
  if lineNum < 1 then "" else (s.fileLines absPath).getD (lineNum.toNat - 1) ""

/-- The key of a line. -/
def editKey (file : String) (line : ℤ) : String := file ++ ":" ++ toString line

/-- `strings.Replace(s, old, new, 1)`. -/
def replaceOnce (s old new : String) : String :=
  match Occurrence.index old.toList s.toList with
  | none => s
  | some i => String.ofList (Occurrence.splice s.toList i old.toList.length new.toList)

/-- Whether the line has the name. -/
def mentions (srcLine name : String) : Bool :=
  srcLine ≠ "" && Occurrence.contains srcLine.toList name.toList

/-- Propose to edit a line, if this was not proposed before. -/
def propose (s : RenameServer) (oldName newName file : String) (line : ℤ)
    (confidence reason : String) (st : RenameState) : RenameState :=
  let srcLine := readSingleLine s file line
  if editKey file line ∈ st.editSeen then st
  else
    { edits := st.edits ++
        [⟨file, line, srcLine, replaceOnce srcLine oldName newName, confidence, reason⟩]
      editSeen := st.editSeen ++ [editKey file line] }

/-- Propose to edit a line that refers to the symbol, if it has the name. -/
def proposeReference (s : RenameServer) (oldName newName file : String) (line : ℤ)
    (reason : String) (st : RenameState) : RenameState :=
  if mentions (readSingleLine s file line) oldName then
    propose s oldName newName file line "high" reason st
  else st

/-- The line of a usage. -/
def proposeUsage (s : RenameServer) (oldName newName : String) (st : RenameState) (r : EdgeRef) :
    RenameState :=
  let edge := s.graph.edge r
  if edge.line = 0 then st
  else proposeReference s oldName newName edge.filePath edge.line edge.kind.str st

/-- The first line of a member, which can name the type it belongs to. -/
def proposeMember (s : RenameServer) (oldName newName : String) (st : RenameState) (r : EdgeRef) :
    RenameState :=
  let edge := s.graph.edge r
  if edge.kind ≠ .edgeMemberOf then st
  else
    match s.graph.nodeAt edge.fromID with
    | none => st
    | some memberNode =>
      if Occurrence.contains memberNode.id.toList (oldName ++ ".").toList then
        proposeReference s oldName newName memberNode.filePath memberNode.startLine
          "member receiver" st
      else st

/-- The first lines of the users in a test file whose own names contain the name. -/
def proposeTests (s : RenameServer) (oldName newName : String) (nodes : List NodeRef)
    (st : RenameState) (r : EdgeRef) : RenameState :=
  let edge := s.graph.edge r
  if ¬isTestFile edge.filePath then st
  else
    nodes.foldl (fun st n =>
      let n := s.graph.node n
      if n.filePath = edge.filePath ∧ Occurrence.contains n.name.toList oldName.toList ∧
        readSingleLine s n.filePath n.startLine ≠ "" then
        propose s oldName newName n.filePath n.startLine "medium" "test function name" st
      else st) st

/-- The edits for a symbol. -/
def renameEdits (ord : MapOrder) (s : RenameServer) (id : String) (node : Node)
    (newName : String) : List RenameEdit :=
  let oldName := node.name
  let usages := findUsages ord s.graph id
  let st := proposeReference s oldName newName node.filePath node.startLine "definition" {}
  let st := usages.edges.foldl (proposeUsage s oldName newName) st
  let st :=
    if node.kind = .kindType ∨ node.kind = .kindInterface then
      (s.graph.getInEdges id).foldl (proposeMember s oldName newName) st
    else st
  (usages.edges.foldl (proposeTests s oldName newName usages.nodes) st).edits

/-- **handleRenameSymbol.** -/
def renameSymbol (ord : MapOrder) (s : RenameServer) (req : RenameRequest) :
    Except String RenameResult :=
  match req.id, req.newName with
  | none, _ => .error "id is required"
  | some _, none => .error "new_name is required"
  | some id, some newName =>
    match s.graph.nodeAt id with
    | none => .error ("symbol not found: " ++ id)
    | some node =>
      if node.name = newName then .error "new_name is the same as the current name"
      else
        let edits := renameEdits ord s id node newName
        .ok
          { oldName := node.name
            newName
            edits
            totalEdits := edits.length
            filesAffected := (edits.map RenameEdit.file).dedup.length }

/-! ### Lines that refer to the symbol -/

/-- **A line that refers to a symbol**: that of its definition, one of a usage, or, for a type, the
first one of a member that is named after it. -/
inductive RefersTo (s : RenameServer) (id : String) (node : Node) : String → ℤ → Prop
  | definition : RefersTo s id node node.filePath node.startLine
  | usage {r : EdgeRef} (hr : r ∈ s.graph.getInEdges id)
      (hkind : (s.graph.edge r).kind ∈ usageKinds) (hline : (s.graph.edge r).line ≠ 0) :
      RefersTo s id node (s.graph.edge r).filePath (s.graph.edge r).line
  | member {r : EdgeRef} {m : Node} (htype : node.kind = .kindType ∨ node.kind = .kindInterface)
      (hr : r ∈ s.graph.getInEdges id) (hkind : (s.graph.edge r).kind = .edgeMemberOf)
      (hm : s.graph.nodeAt (s.graph.edge r).fromID = some m)
      (hname : (node.name ++ ".").toList <:+: m.id.toList) :
      RefersTo s id node m.filePath m.startLine

/-! ### Keys -/

/-- A decimal number has no colon. -/
theorem colon_not_mem_repr (n : ℤ) : ':' ∉ (toString n).toList := by
  have hnat : ∀ k : ℕ, ':' ∉ k.repr.toList := fun k h => by
    rw [Nat.toList_repr] at h
    exact absurd (Nat.isDigit_of_mem_toDigits (by decide) (by decide) h) (by decide)
  rw [Int.toString_eq_repr, Int.repr_eq_if]
  split
  · exact hnat _
  · rw [String.toList_append, List.mem_append, not_or]
    exact ⟨by decide, hnat _⟩

theorem toString_injective : Function.Injective (toString : ℤ → String) := by
  have hnat : ∀ {k m : ℕ}, k.repr = m.repr → k = m := fun {k m} h => by
    have hdigits := congrArg (fun t : String => Nat.ofDigitChars 10 t.toList 0) h
    simpa only [Nat.toList_repr, Nat.ofDigitChars_ten_toDigits] using hdigits
  have hminus : ∀ {k m : ℕ}, k.repr ≠ "-" ++ m.repr := fun {k m} h => by
    have hmem : '-' ∈ k.repr.toList := by
      rw [h, String.toList_append]
      exact List.mem_append_left _ (by decide)
    rw [Nat.toList_repr] at hmem
    exact absurd (Nat.isDigit_of_mem_toDigits (by decide) (by decide) hmem) (by decide)
  intro a b h
  change toString a = toString b at h
  rw [Int.toString_eq_repr, Int.toString_eq_repr, Int.repr_eq_if, Int.repr_eq_if] at h
  split at h <;> split at h
  · have := hnat h
    omega
  · exact absurd h hminus
  · exact absurd h.symm hminus
  · have hlist := congrArg String.toList h
    rw [String.toList_append, String.toList_append] at hlist
    have := hnat (String.toList_injective (List.append_cancel_left hlist))
    omega

/-- **A key tells its line.** -/
theorem editKey_inj {file file' : String} {line line' : ℤ}
    (h : editKey file line = editKey file' line') : file = file' ∧ line = line' := by
  have hlist := congrArg String.toList h
  simp only [editKey, String.toList_append, List.append_assoc] at hlist
  have hcolon : ∀ n : ℤ, (toString n).toList.all (· ≠ ':') = true := fun n =>
    List.all_eq_true.mpr fun c hc => decide_eq_true fun heq => colon_not_mem_repr n (heq ▸ hc)
  have hline := eq_of_append_cons (hcolon line) (hcolon line') (by decide) hlist
  have heq := toString_injective (String.toList_injective hline)
  subst heq
  exact ⟨String.toList_injective (List.append_cancel_right hlist), rfl⟩

/-! ### What the loops propose -/

section Propose

variable {s : RenameServer} {oldName newName file : String} {line : ℤ} {st : RenameState}
  {ord : MapOrder} {id : String} {node : Node}

/-- **The edits proposed so far** replace the name once in lines that are there, each line for
itself. -/
structure Proposed (s : RenameServer) (oldName newName : String) (st : RenameState) : Prop where
  keys : st.editSeen = st.edits.map fun e => editKey e.file e.line
  nodup : st.editSeen.Nodup
  text : ∀ e ∈ st.edits, e.oldText ≠ "" ∧ e.oldText = readSingleLine s e.file e.line ∧
    e.newText = replaceOnce e.oldText oldName newName

/-- The line has an edit. -/
def Covers (file : String) (line : ℤ) (st : RenameState) : Prop :=
  ∃ e ∈ st.edits, e.file = file ∧ e.line = line

/-- A part of the tool that only proposes more. -/
def Keeps (s : RenameServer) (oldName newName : String) (f : RenameState → RenameState) : Prop :=
  ∀ st, Proposed s oldName newName st → Proposed s oldName newName (f st) ∧
    st.edits ⊆ (f st).edits

theorem Covers.mono {st' : RenameState} (h : Covers file line st) (hsub : st.edits ⊆ st'.edits) :
    Covers file line st' := by
  obtain ⟨e, he, hline⟩ := h
  exact ⟨e, hsub he, hline⟩

theorem keeps_id : Keeps s oldName newName fun st => st := fun _ h => ⟨h, List.Subset.refl _⟩

theorem keeps_propose (hline : readSingleLine s file line ≠ "") (confidence reason : String) :
    Keeps s oldName newName (propose s oldName newName file line confidence reason) := by
  intro st h
  rw [propose]
  split
  · exact ⟨h, List.Subset.refl _⟩
  rename_i hnew
  refine ⟨⟨?_, ?_, ?_⟩, List.subset_append_left _ _⟩
  · rw [List.map_append, ← h.keys]
    rfl
  · rw [List.nodup_append]
    refine ⟨h.nodup, List.nodup_singleton _, fun a ha b hb hab => ?_⟩
    rw [List.mem_singleton.mp hb] at hab
    exact hnew (hab ▸ ha)
  · intro e he
    rcases List.mem_append.mp he with he | he
    · exact h.text e he
    · rw [List.mem_singleton.mp he]
      exact ⟨hline, rfl, rfl⟩

/-- **A line that is proposed has an edit**, now or from before. -/
theorem covers_propose (h : Proposed s oldName newName st) (confidence reason : String) :
    Covers file line (propose s oldName newName file line confidence reason st) := by
  rw [propose]
  split
  · rename_i hseen
    rw [h.keys, List.mem_map] at hseen
    obtain ⟨e, he, hkey⟩ := hseen
    exact ⟨e, he, editKey_inj hkey⟩
  · exact ⟨_, List.mem_append_right _ (List.mem_singleton_self _), rfl, rfl⟩

theorem keeps_proposeReference (reason : String) :
    Keeps s oldName newName (proposeReference s oldName newName file line reason) := by
  intro st h
  rw [proposeReference]
  split
  · rename_i hmentions
    rw [mentions, Bool.and_eq_true, decide_eq_true_iff] at hmentions
    exact keeps_propose hmentions.1 _ _ st h
  · exact keeps_id st h

theorem covers_proposeReference (h : Proposed s oldName newName st) (reason : String)
    (hmentions : mentions (readSingleLine s file line) oldName = true) :
    Covers file line (proposeReference s oldName newName file line reason st) := by
  rw [proposeReference, if_pos hmentions]
  exact covers_propose h _ _

theorem keeps_proposeUsage (r : EdgeRef) :
    Keeps s oldName newName (proposeUsage s oldName newName · r) := by
  intro st h
  simp only [proposeUsage]
  split
  · exact keeps_id st h
  · exact keeps_proposeReference _ st h

theorem keeps_proposeMember (r : EdgeRef) :
    Keeps s oldName newName (proposeMember s oldName newName · r) := by
  intro st h
  simp only [proposeMember]
  split
  · exact keeps_id st h
  · split
    · exact keeps_id st h
    · split
      · exact keeps_proposeReference _ st h
      · exact keeps_id st h

/-- **A loop of such parts** only proposes more. -/
theorem keeps_foldl {α : Type} {f : RenameState → α → RenameState}
    (h : ∀ a, Keeps s oldName newName (f · a)) (l : List α) :
    Keeps s oldName newName (l.foldl f) := by
  intro st hst
  refine List.foldl_invariant (P := fun st' => Proposed s oldName newName st' ∧
    st.edits ⊆ st'.edits) (fun st' a _ h' => ?_) ⟨hst, List.Subset.refl _⟩
  obtain ⟨hprop, hsub⟩ := h a st' h'.1
  exact ⟨hprop, List.Subset.trans h'.2 hsub⟩

theorem keeps_proposeTests (nodes : List NodeRef) (r : EdgeRef) :
    Keeps s oldName newName (proposeTests s oldName newName nodes · r) := by
  intro st h
  simp only [proposeTests]
  split
  · exact keeps_id st h
  · refine keeps_foldl (fun n st h => ?_) nodes st h
    simp only
    split
    · rename_i hline
      exact keeps_propose hline.2.2 _ _ st h
    · exact keeps_id st h

/-- **A line that one turn of a loop covers** is covered after the loop. -/
theorem covers_foldl {α : Type} {f : RenameState → α → RenameState}
    (hkeeps : ∀ a, Keeps s oldName newName (f · a)) {l : List α} {a : α} (ha : a ∈ l)
    (hcovers : ∀ st, Proposed s oldName newName st → Covers file line (f st a))
    (h : Proposed s oldName newName st) : Covers file line (l.foldl f st) :=
  List.foldl_since (fun st b _ hst => (hkeeps b st hst).1)
    (fun st b _ hst hcov => hcov.mono (hkeeps b st hst).2) ha hcovers h

/-- **What the tool proposes**: the invariant of the edits, and an edit for each line that refers
to the symbol and has its name. -/
theorem renameEdits_spec (ord : MapOrder) (s : RenameServer) (id : String) (node : Node)
    (newName : String) : ∃ st, renameEdits ord s id node newName = st.edits ∧
      Proposed s node.name newName st ∧ ∀ file line, RefersTo s id node file line →
        mentions (readSingleLine s file line) node.name = true → Covers file line st := by
  have hempty : Proposed s node.name newName {} :=
    ⟨rfl, List.nodup_nil, fun e he => absurd he List.not_mem_nil⟩
  let usages := findUsages ord s.graph id
  let st₁ := proposeReference s node.name newName node.filePath node.startLine "definition" {}
  let st₂ := usages.edges.foldl (proposeUsage s node.name newName) st₁
  let st₃ :=
    if node.kind = .kindType ∨ node.kind = .kindInterface then
      (s.graph.getInEdges id).foldl (proposeMember s node.name newName) st₂
    else st₂
  let st₄ := usages.edges.foldl (proposeTests s node.name newName usages.nodes) st₃
  obtain ⟨h₁, -⟩ : Proposed s node.name newName st₁ ∧ _ := keeps_proposeReference _ _ hempty
  obtain ⟨h₂, hsub₂⟩ : Proposed s node.name newName st₂ ∧ st₁.edits ⊆ st₂.edits :=
    keeps_foldl keeps_proposeUsage _ _ h₁
  obtain ⟨h₃, hsub₃⟩ : Proposed s node.name newName st₃ ∧ st₂.edits ⊆ st₃.edits := by
    simp only [st₃]
    split
    · exact keeps_foldl keeps_proposeMember _ _ h₂
    · exact keeps_id _ h₂
  obtain ⟨h₄, hsub₄⟩ : Proposed s node.name newName st₄ ∧ st₃.edits ⊆ st₄.edits :=
    keeps_foldl (keeps_proposeTests _) _ _ h₃
  refine ⟨st₄, rfl, h₄, fun file line href hmentions => ?_⟩
  suffices hcov : Covers file line st₃ from hcov.mono hsub₄
  cases href with
  | definition =>
    exact ((covers_proposeReference hempty _ hmentions).mono hsub₂).mono hsub₃
  | @usage r hr hkind hline =>
    suffices hcov : Covers _ _ st₂ from hcov.mono hsub₃
    refine covers_foldl keeps_proposeUsage
      (List.mem_filter.mpr ⟨hr, decide_eq_true hkind⟩) (fun st h => ?_) h₁
    simp only [proposeUsage]
    rw [if_neg hline]
    exact covers_proposeReference h _ hmentions
  | @member r m htype hr hkind hm hname =>
    simp only [st₃]
    rw [if_pos htype]
    refine covers_foldl keeps_proposeMember hr (fun st h => ?_) h₂
    simp only [proposeMember, hm]
    rw [if_neg (not_not.mpr hkind),
      if_pos (Occurrence.contains_iff.mpr (Occurrence.infix_iff.mp hname))]
    exact covers_proposeReference h _ hmentions

end Propose

/-! ### When the edits rename the symbol -/

section Exact

variable {ident : Char → Bool} {s : RenameServer} {id newName : String} {node : Node}

/-- **The answer renames the symbol**: each edit shows a line of the source; in a line that refers
to the symbol, exactly the identifiers of its name are replaced; and no line is edited twice. -/
structure Renames (ident : Char → Bool) (s : RenameServer) (id : String) (node : Node)
    (newName : String) (edits : List RenameEdit) : Prop where
  source : ∀ e ∈ edits, e.oldText = readSingleLine s e.file e.line
  exact : ∀ e ∈ edits, RefersTo s id node e.file e.line →
    e.newText.toList = rename ident node.name.toList newName.toList e.oldText.toList
  once : (edits.map fun e => (e.file, e.line)).Nodup

/-- **The first occurrence of the name in the line is its only identifier of that name**, or the
line does not have the name. -/
def LineExact (ident : Char → Bool) (line name : String) : Prop :=
  mentions line name = true →
    ∃ i, Occurrence.index name.toList line.toList = some i ∧
      OnlyToken ident name.toList line.toList i

theorem replaceOnce_eq {line old new : String} (hline : line ≠ "")
    (h : LineExact ident line old) :
    (replaceOnce line old new).toList = rename ident old.toList new.toList line.toList := by
  rw [replaceOnce]
  cases hindex : Occurrence.index old.toList line.toList with
  | none =>
    -- the line does not have the name
    simp only
    have hmem : old.toList ∉ tokens ident line.toList := fun hmem => by
      obtain ⟨pre, post, htokens⟩ := List.append_of_mem hmem
      refine Occurrence.index_eq_none_iff.mp hindex pre.flatten.length ?_
      exact Occurrence.at_iff.mpr ⟨_, _, eq_of_tokens htokens, rfl⟩
    rw [rename, map_renameToken_of_not_mem hmem, flatten_tokens]
  | some i =>
    obtain ⟨j, hj, hone⟩ := h (by
      rw [mentions, decide_eq_true hline, Bool.true_and, Occurrence.contains, hindex]
      rfl)
    rw [hindex, Option.some.injEq] at hj
    subst hj
    simp only [String.toList_ofList]
    exact hone.splice_eq

theorem lineExact_of_replaceOnce {line old new : String} (hne : old ≠ new)
    (hnew : new.toList.all ident = true)
    (h : (replaceOnce line old new).toList = rename ident old.toList new.toList line.toList) :
    LineExact ident line old := by
  intro hmentions
  rw [mentions, Bool.and_eq_true, Occurrence.contains, Option.isSome_iff_exists] at hmentions
  obtain ⟨i, hindex⟩ := hmentions.2
  rw [replaceOnce, hindex] at h
  simp only [String.toList_ofList] at h
  exact ⟨i, hindex, onlyToken_of_splice_eq hindex
    (fun heq => hne (String.toList_injective heq)) hnew h⟩

theorem renames_of_lineExact (ord : MapOrder) (h : ∀ file line, RefersTo s id node file line →
    LineExact ident (readSingleLine s file line) node.name) :
    Renames ident s id node newName (renameEdits ord s id node newName) := by
  obtain ⟨st, hst, hprop, -⟩ := renameEdits_spec ord s id node newName
  rw [hst]
  refine ⟨fun e he => (hprop.text e he).2.1, fun e he href => ?_, ?_⟩
  · obtain ⟨hline, hold, hnew⟩ := hprop.text e he
    rw [hnew]
    exact replaceOnce_eq hline (hold ▸ h e.file e.line href)
  · have hnodup := hprop.nodup
    rw [hprop.keys] at hnodup
    refine List.Nodup.of_map (fun p => editKey p.1 p.2) ?_
    rw [List.map_map]
    exact hnodup

theorem lineExact_of_renames (ord : MapOrder) (hne : node.name ≠ newName)
    (hnew : newName.toList.all ident = true)
    (h : Renames ident s id node newName (renameEdits ord s id node newName)) (file : String)
    (line : ℤ) (href : RefersTo s id node file line) :
    LineExact ident (readSingleLine s file line) node.name := by
  obtain ⟨st, hst, hprop, hcovers⟩ := renameEdits_spec ord s id node newName
  rw [hst] at h
  intro hmentions
  obtain ⟨e, he, rfl, rfl⟩ := hcovers file line href hmentions
  obtain ⟨-, hold, hnewText⟩ := hprop.text e he
  have hexact := h.exact e he href
  rw [hnewText, hold] at hexact
  exact lineExact_of_replaceOnce hne hnew hexact hmentions

/-- In each line that refers to the symbol, the first occurrence of its name is its only
identifier of that name. -/
def ReferencesExact (ident : Char → Bool) (s : RenameServer) (id newName : String) : Prop :=
  ∀ node, s.graph.nodeAt id = some node → node.name ≠ newName → ∀ file line,
    RefersTo s id node file line → LineExact ident (readSingleLine s file line) node.name

/-- The answer, if there is one, renames the symbol. -/
def RenameExact (ident : Char → Bool) (ord : MapOrder) (s : RenameServer) (id newName : String) :
    Prop :=
  ∀ result node, renameSymbol ord s ⟨some id, some newName⟩ = .ok result →
    s.graph.nodeAt id = some node → Renames ident s id node newName result.edits

theorem renameSymbol_eq (ord : MapOrder) (hnode : s.graph.nodeAt id = some node)
    (hne : node.name ≠ newName) : ∃ result, renameSymbol ord s ⟨some id, some newName⟩ =
      .ok result ∧ result.edits = renameEdits ord s id node newName := by
  simp only [renameSymbol, hnode]
  rw [if_neg hne]
  exact ⟨_, rfl, rfl⟩

theorem referencesExact_of_renameExact (ord : MapOrder) (hnew : newName.toList.all ident = true)
    (h : RenameExact ident ord s id newName) : ReferencesExact ident s id newName := by
  intro node hnode hne
  obtain ⟨result, hok, hedits⟩ := renameSymbol_eq ord hnode hne
  refine lineExact_of_renames ord hne hnew ?_
  rw [← hedits]
  exact h result node hok hnode

end Exact

/-! ### A name within a longer one -/

namespace Within

/-- The characters of an identifier, of those below 128. -/
def identChar (c : Char) : Bool := c.isAlphanum || c = '_'

/-- The function that is renamed. -/
def get : Node :=
  { id := "a.go::get", kind := .kindFunction, name := "get", filePath := "a.go", startLine := 1
    endLine := 1 }

/-- A function that calls it in its second line. -/
def user : Node :=
  { id := "a.go::user", kind := .kindFunction, name := "user", filePath := "a.go", startLine := 2
    endLine := 4 }

/-- The call. -/
def call : Edge :=
  { fromID := "a.go::user", toID := "a.go::get", kind := .edgeCalls, filePath := "a.go", line := 3 }

/-- The server, with the file. -/
def server : RenameServer where
  graph := ((Graph.new.putNode get).putNode user).putEdge call
  rootPath := ""
  fileLines _ :=
    ["func get(id int) User \x7b return db[id] \x7d", "func user(id int) User \x7b",
      "\treturn getUser(get(id))", "\x7d"]

theorem nodeAt_get : server.graph.nodeAt "a.go::get" = some get := by
  have huser := (Graph.Inv.new.putNode get).nodes.nodeAt_putNode user "a.go::get"
  have hget := Graph.Inv.new.nodes.nodeAt_putNode get "a.go::get"
  rw [server, Graph.nodeAt_putEdge, huser, if_neg (by decide), hget]
  exact if_pos rfl

end Within

end Mcp

end Gortex
