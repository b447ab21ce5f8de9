import Gortex.Mcp.EditOrder
import Gortex.Mcp.EditSymbol

/-!
# Editing several symbols

The second half of `handleBatchEdit` of `internal/mcp/tools_enhancements.go`: the edits are applied
one after the other, and the file is indexed again after each. The first edit that fails is the
last one made; nothing is rolled back. A batch of one edit does what `edit_symbol` does, but for the
checks that it does not make and the comments above a symbol, where it does not look
(`Gortex.Mcp.agrees_iff`). In a longer batch each edit is made in the lines that its symbol has
by then (`Gortex.Mcp.applyEdits_stops`).
-/

namespace Gortex

namespace Mcp

open GoBytes Occurrence

/-! ### The model -/

/-- What is reported of an edit of a batch. -/
inductive EditStatus
  | applied
  | failed
  | skipped
deriving DecidableEq

/-- The outcome of an edit of a batch. -/
structure BatchEditResult where
  symbolID : String
  filePath : String
  status : EditStatus
  error : String := ""
deriving DecidableEq

/-- How the system calls of an edit end, and what indexing a file makes of the graph. -/
structure BatchCalls extends EditCalls where
  indexFile : Graph → Files → String → Graph

/-- Where the old source stands in the file, or why the edit fails. -/
def findBatchEdit (content : Bytes) (node : Node) (oldSource : Bytes) : Except Refusal ℕ :=
  let ls := lines content
  if ls.length < node.startLine ∨ ls.length < node.endLine then
    .error (.error "symbol line range exceeds file length")
  else
    match goSlice ls (node.startLine - 1) node.endLine with
    | none => .error .panicked
    | some _ =>
      let symbolSource := ownSource content node
      if ¬contains symbolSource oldSource then
        .error (.error "old_source not found within symbol")
      else
        let symbolStart := (terminated (ls.take (node.startLine.toNat - 1))).length
        let symbolEnd := min (symbolStart + symbolSource.length) content.length
        match goSlice content symbolStart symbolEnd with
        | none => .error .panicked
        | some region =>
          match index oldSource region with
          | none => .error (.error "old_source not found in symbol region")
          | some offset => .ok (symbolStart + offset)

/-- The outcome of an edit; none if it panics. -/
def applyBatchEdit (s : EditServer) (calls : EditCalls) (files : Files) (o : EditWithOrder) :
    Option BatchEditResult × Files :=
  let failed (filePath error : String) : Option BatchEditResult :=
    some { symbolID := o.edit.symbolID, filePath, status := .failed, error }
  match s.getSymbol o.edit.symbolID with
  | none => (failed o.file ("symbol not found: " ++ o.edit.symbolID), files)
  | some node =>
    if node.startLine = 0 ∨ node.endLine = 0 then
      (failed node.filePath "symbol has no line range", files)
    else
      match readFile calls.readErr files (s.absPath node) with
      | .error err => (failed node.filePath ("could not read file: " ++ err), files)
      | .ok content =>
        match findBatchEdit content node o.edit.oldSource with
        | .error .panicked => (none, files)
        | .error (.error text) => (failed node.filePath text, files)
        | .ok editStart =>
          match writeFile calls.write files (s.absPath node)
            (splice content editStart o.edit.oldSource.length o.edit.newSource) with
          | (some err, files) => (failed node.filePath ("could not write file: " ++ err), files)
          | (none, files) =>
            (some { symbolID := o.edit.symbolID, filePath := node.filePath, status := .applied },
              files)

/-- The server after a file was indexed again, if there is an indexer. -/
def EditServer.reindex (s : EditServer) (calls : BatchCalls) (files : Files) (id : String) :
    EditServer :=
  match s.rootPath, s.getSymbol id with
  | some _, some node => { s with graph := calls.indexFile s.graph files (s.absPath node) }
  | _, _ => s

/-- The state of the loop over the edits. -/
structure BatchState where
  server : EditServer
  files : Files
  results : List BatchEditResult := []
  failed : Bool := false
  panicked : Bool := false

/-- **One turn of the loop.** -/
def batchStep (st : BatchState) (o : EditWithOrder) (calls : BatchCalls) : BatchState :=
  if st.panicked then st
  else if st.failed then
    { st with results := st.results ++
        [{ symbolID := o.edit.symbolID, filePath := o.file, status := .skipped }] }
  else
    match applyBatchEdit st.server calls.toEditCalls st.files o with
    | (none, files) => { st with files, panicked := true }
    | (some result, files) =>
      { st with
        server :=
          if result.status = .applied then st.server.reindex calls files o.edit.symbolID
          else st.server
        files
        results := st.results ++ [result]
        failed := result.status = .failed }

/-- The loop over the edits. -/
def applyEdits (st : BatchState) : List (EditWithOrder × BatchCalls) → BatchState
  | [] => st
  | (o, calls) :: rest => applyEdits (batchStep st o calls) rest

/-- The arguments of `batch_edit`: the edits, unless they are missing or cannot be decoded. -/
structure BatchRequest where
  edits : Option (Except String (List BatchEditItem))
  dryRun : Bool := false

/-- What the tool answers. -/
inductive BatchReply
  | error (text : String)
  | plan (entries : List EditWithOrder)
  | results (list : List BatchEditResult)
  | panicked

/-- **handleBatchEdit.** The system calls of the edits are given in the order in which they are
applied. -/
def batchEdit (s : EditServer) (calls : ℕ → BatchCalls) (files : Files) (req : BatchRequest) :
    BatchReply × Files :=
  match req.edits with
  | none => (.error "edits is required", files)
  | some (.error err) => (.error ("invalid edits JSON: " ++ err), files)
  | some (.ok edits) =>
    if edits = [] then (.error "edits array is empty", files)
    else
      let (graph, ordered) := orderEdits s.graph edits
      if req.dryRun then (.plan ordered, files)
      else
        let st := applyEdits { server := { s with graph }, files }
          (ordered.zipIdx.map fun (o, i) => (o, calls i))
        (if st.panicked then .panicked else .results st.results, st.files)

/-! ### A batch of one edit -/

section One

variable {s : EditServer} {calls : EditCalls} {files : Files} {id file : String} {node : Node}
  {content oldSource newSource : Bytes} {n : ℕ}

/-- Where an edit of a batch is made: at the first occurrence in the lines of the symbol. -/
theorem findBatchEdit_eq_ok_iff : findBatchEdit content node oldSource = .ok n ↔
    InFile content node ∧ ∃ i, index oldSource (ownSource content node) = some i ∧
      (terminated ((lines content).take (node.startLine.toNat - 1))).length + i = n := by
  simp only [findBatchEdit]
  by_cases hrange : (lines content).length < node.startLine ∨ (lines content).length < node.endLine
  · rw [if_pos hrange]
    refine iff_of_false (by simp) fun h => ?_
    have hend := h.1.2.2
    omega
  rw [if_neg hrange]
  by_cases hin : InFile content node
  · rw [hin.goSlice_lines, and_iff_right hin]
    simp only
    rw [ownSource, hin.goSlice_editRange le_rfl]
    cases hindex : index oldSource
        (linesBetween content (node.startLine.toNat - 1) node.endLine.toNat) with
    | none =>
      rw [contains, hindex, Option.isSome_none, if_pos Bool.false_ne_true]
      refine iff_of_false (by simp) ?_
      rintro ⟨i, hi, -⟩
      exact Option.some_ne_none i hi.symm
    | some i =>
      rw [contains, hindex, Option.isSome_some, if_neg (not_not.mpr rfl)]
      simp only [hindex, Except.ok.injEq, Option.some.injEq, exists_eq_left']
  · rw [goSlice_lines_eq_none hrange hin]
    exact iff_of_false (by simp) fun h => hin h.1

/-- **The file of the symbol can be read and written**, and has the lines of the symbol. -/
structure Editable (s : EditServer) (calls : EditCalls) (files : Files) (id : String)
    (node : Node) (content : Bytes) : Prop where
  symbol : s.getSymbol id = some node
  startLine : node.startLine ≠ 0
  endLine : node.endLine ≠ 0
  read : calls.readErr = none
  file : files (s.absPath node) = some content
  inFile : InFile content node
  write : calls.write = .ok

/-- The files after an edit. -/
def editedFiles (s : EditServer) (files : Files) (node : Node) (content : Bytes) (editStart : ℕ)
    (oldSource newSource : Bytes) : Files :=
  Function.update files (s.absPath node)
    (some (splice content editStart oldSource.length newSource))

/-- The edit was made. -/
def EditReply.Applied (reply : EditReply) : Prop := ∃ report, reply = .applied report

theorem editSymbol_files (h : Editable s calls files id node content)
    (hne : oldSource ≠ newSource) (hfind : findEdit content id node oldSource = .ok n) :
    (editSymbol s calls files ⟨some id, some oldSource, some newSource⟩).2 =
      editedFiles s files node content n oldSource newSource := by
  simp only [editSymbol]
  rw [if_neg hne, h.symbol]
  simp only
  rw [if_neg (not_or.mpr ⟨h.startLine, h.endLine⟩), readFile_eq_ok.mpr ⟨h.read, h.file⟩]
  simp only [hfind, writeEdit, h.write, writeFile]
  rfl

theorem applyBatchEdit_files {item : BatchEditItem} {order : ℕ}
    (h : Editable s calls files item.symbolID node content)
    (hfind : findBatchEdit content node item.oldSource = .ok n) :
    (applyBatchEdit s calls files ⟨item, order, file⟩).2 =
      editedFiles s files node content n item.oldSource item.newSource := by
  simp only [applyBatchEdit, h.symbol]
  rw [if_neg (not_or.mpr ⟨h.startLine, h.endLine⟩), readFile_eq_ok.mpr ⟨h.read, h.file⟩]
  simp only [hfind, h.write, writeFile]
  rfl

/-- **When `edit_symbol` succeeds.** -/
theorem editSymbol_applied_iff :
    (editSymbol s calls files ⟨some id, some oldSource, some newSource⟩).1.Applied ↔
      oldSource ≠ newSource ∧ ∃ node content n, Editable s calls files id node content ∧
        findEdit content id node oldSource = .ok n := by
  constructor
  · rintro ⟨report, hreport⟩
    simp only [editSymbol] at hreport
    split at hreport
    · cases hreport
    rename_i hne
    cases hnode : s.getSymbol id with
    | none =>
      rw [hnode] at hreport
      cases hreport
    | some node =>
      simp only [hnode] at hreport
      split at hreport
      · cases hreport
      rename_i hline
      rw [not_or] at hline
      cases hread : readFile calls.readErr files (s.absPath node) with
      | error err =>
        rw [hread] at hreport
        cases hreport
      | ok content =>
        obtain ⟨hok, hfile⟩ := readFile_eq_ok.mp hread
        simp only [hread] at hreport
        cases hfind : findEdit content id node oldSource with
        | error why =>
          rw [hfind] at hreport
          cases hreport
        | ok n =>
          simp only [hfind, writeEdit] at hreport
          cases hwrite : calls.write with
          | failed err left =>
            rw [hwrite] at hreport
            cases hreport
          | ok =>
            have hin := ((findEdit_eq_ok_iff id).mp hfind).1
            exact ⟨hne, node, content, n,
              ⟨hnode, hline.1, hline.2, hok, hfile, hin, hwrite⟩, hfind⟩
  · rintro ⟨hne, node, content, n, h, hfind⟩
    simp only [editSymbol]
    rw [if_neg hne, h.symbol]
    simp only
    rw [if_neg (not_or.mpr ⟨h.startLine, h.endLine⟩), readFile_eq_ok.mpr ⟨h.read, h.file⟩]
    simp only [hfind, writeEdit, h.write]
    exact ⟨_, rfl⟩

/-- **When an edit of a batch succeeds.** -/
theorem applyBatchEdit_applied_iff {item : BatchEditItem} {order : ℕ} :
    (∃ result, (applyBatchEdit s calls files ⟨item, order, file⟩).1 = some result ∧
        result.status = .applied) ↔
      ∃ node content n, Editable s calls files item.symbolID node content ∧
        findBatchEdit content node item.oldSource = .ok n := by
  constructor
  · rintro ⟨result, hresult, hstatus⟩
    simp only [applyBatchEdit] at hresult
    cases hnode : s.getSymbol item.symbolID with
    | none =>
      rw [hnode] at hresult
      cases hresult
      cases hstatus
    | some node =>
      simp only [hnode] at hresult
      split at hresult
      · cases hresult
        cases hstatus
      rename_i hline
      rw [not_or] at hline
      cases hread : readFile calls.readErr files (s.absPath node) with
      | error err =>
        rw [hread] at hresult
        cases hresult
        cases hstatus
      | ok content =>
        obtain ⟨hok, hfile⟩ := readFile_eq_ok.mp hread
        simp only [hread] at hresult
        cases hfind : findBatchEdit content node item.oldSource with
        | error why =>
          rw [hfind] at hresult
          cases why <;> cases hresult
          cases hstatus
        | ok n =>
          simp only [hfind] at hresult
          cases hwrite : calls.write with
          | failed err left =>
            rw [hwrite] at hresult
            cases hresult
            cases hstatus
          | ok =>
            have hin := (findBatchEdit_eq_ok_iff.mp hfind).1
            exact ⟨node, content, n, ⟨hnode, hline.1, hline.2, hok, hfile, hin, hwrite⟩, hfind⟩
  · rintro ⟨node, content, n, h, hfind⟩
    simp only [applyBatchEdit, h.symbol]
    rw [if_neg (not_or.mpr ⟨h.startLine, h.endLine⟩), readFile_eq_ok.mpr ⟨h.read, h.file⟩]
    simp only [hfind, h.write]
    exact ⟨_, rfl, rfl⟩

/-- A single edit is not asked for its callers. -/
theorem orderEdits_singleton (g : Graph) (item : BatchEditItem) :
    orderEdits g [item] = (g, [orderOf g [item] item]) := by
  have hgraph : (orderEdits g [item]).1 = g := by
    have hcaller : ∀ b, findCaller item.symbolID (g, b) item = (g, b) := fun b => if_pos rfl
    change (editOrder [item] g item).1 = g
    rw [editOrder]
    cases g.nodeAt item.symbolID with
    | none => rfl
    | some node =>
      simp only [List.foldl_cons, List.foldl_nil, hcaller]
      split
      · rfl
      · split <;> rfl
  have hlist := orderEdits_eq g [item]
  rw [List.map_singleton, Sorting.stable, List.mergeSort_singleton] at hlist
  exact Prod.ext hgraph hlist

/-- The batch was applied. -/
def BatchReply.Applied (reply : BatchReply) : Prop :=
  ∃ result, reply = .results [result] ∧ result.status = .applied

theorem batchEdit_singleton (s : EditServer) (calls : ℕ → BatchCalls) (files : Files)
    (item : BatchEditItem) :
    ((batchEdit s calls files ⟨some (.ok [item]), false⟩).1.Applied ↔
      ∃ result, (applyBatchEdit s (calls 0).toEditCalls files (orderOf s.graph [item] item)).1 =
        some result ∧ result.status = .applied) ∧
    (batchEdit s calls files ⟨some (.ok [item]), false⟩).2 =
      (applyBatchEdit s (calls 0).toEditCalls files (orderOf s.graph [item] item)).2 := by
  simp only [batchEdit]
  rw [if_neg (List.cons_ne_nil _ _), orderEdits_singleton]
  simp only [List.zipIdx_singleton, List.map_cons, List.map_nil, applyEdits, batchStep,
    Bool.false_eq_true, if_false]
  cases applyBatchEdit s (calls 0).toEditCalls files (orderOf s.graph [item] item) with
  | mk outcome files' =>
    cases outcome with
    | none => exact ⟨iff_of_false (by simp [BatchReply.Applied]) (by simp), rfl⟩
    | some result =>
      refine ⟨?_, rfl⟩
      simp only [BatchReply.Applied, Bool.false_eq_true, if_false, List.nil_append,
        BatchReply.results.injEq, List.cons.injEq, and_true, Option.some.injEq]

/-- **The two tools agree** on an edit: the one succeeds iff the other does, and then they leave
the same files. -/
def Agrees (s : EditServer) (calls : ℕ → BatchCalls) (files : Files) (id : String)
    (oldSource newSource : Bytes) : Prop :=
  let single := editSymbol s (calls 0).toEditCalls files ⟨some id, some oldSource, some newSource⟩
  let batch := batchEdit s calls files ⟨some (.ok [⟨id, oldSource, newSource⟩]), false⟩
  (batch.1.Applied ↔ single.1.Applied) ∧ (single.1.Applied → batch.2 = single.2)

theorem Editable.eq {node' : Node} {content' : Bytes} (h : Editable s calls files id node content)
    (h' : Editable s calls files id node' content') : node' = node ∧ content' = content := by
  have hnode := h'.symbol
  rw [h.symbol, Option.some.injEq] at hnode
  subst hnode
  have hfile := h'.file
  rw [h.file, Option.some.injEq] at hfile
  exact ⟨rfl, hfile.symm⟩

/-- An accepted edit is made in the lines of the symbol if the old source is there. -/
theorem searchedStart_of_own (h : oldSource <:+: ownSource content node) :
    searchedStart content node oldSource = node.startLine.toNat - 1 :=
  if_pos (contains_iff.mpr (infix_iff.mp h))

theorem searchedStart_of_not_own (h : ¬oldSource <:+: ownSource content node) :
    searchedStart content node oldSource = withComments node content :=
  if_neg fun hcontains => h (infix_iff.mpr (contains_iff.mp hcontains))

/-- **The tools agree** iff each accepts what the other does. -/
theorem agrees_iff_accepted (s : EditServer) (calls : ℕ → BatchCalls) (files : Files) (id : String)
    (oldSource newSource : Bytes) : Agrees s calls files id oldSource newSource ↔
      ∀ node content, Editable s (calls 0).toEditCalls files id node content →
        (oldSource <:+: ownSource content node ↔ Accepted content node oldSource newSource) := by
  obtain ⟨hbatch, hfiles⟩ := batchEdit_singleton s calls files ⟨id, oldSource, newSource⟩
  rw [Agrees]
  rw [hbatch, hfiles, orderOf, applyBatchEdit_applied_iff, editSymbol_applied_iff]
  constructor
  · rintro ⟨hiff, -⟩ node content h
    constructor
    · intro hown
      obtain ⟨j, hj⟩ := infix_iff.mp hown
      obtain ⟨i, -, hi⟩ := exists_index hj
      obtain ⟨hne, node', content', n, h', hfind⟩ := hiff.mp
        ⟨node, content, _, h, findBatchEdit_eq_ok_iff.mpr ⟨h.inFile, i, hi, rfl⟩⟩
      obtain ⟨rfl, rfl⟩ := h.eq h'
      obtain ⟨hin, honce, i', hi', -⟩ := (findEdit_eq_ok_iff id).mp hfind
      exact ⟨hne, hin, infix_iff.mpr ⟨i', (index_eq_some_iff.mp hi').1⟩, honce⟩
    · intro hacc
      obtain ⟨j, hj⟩ := infix_iff.mp hacc.found
      obtain ⟨i, -, hi⟩ := exists_index hj
      obtain ⟨node', content', n, h', hfind⟩ := hiff.mpr ⟨hacc.ne, node, content, _, h,
        (findEdit_eq_ok_iff id).mpr ⟨h.inFile, hacc.once, i, hi, rfl⟩⟩
      obtain ⟨rfl, rfl⟩ := h.eq h'
      obtain ⟨-, i', hi', -⟩ := findBatchEdit_eq_ok_iff.mp hfind
      exact infix_iff.mpr ⟨i', (index_eq_some_iff.mp hi').1⟩
  · intro hsame
    -- where both are made, the first occurrence is looked up in the same lines
    have hplace : ∀ node content n, Editable s (calls 0).toEditCalls files id node content →
        findEdit content id node oldSource = .ok n → oldSource ≠ newSource →
        findBatchEdit content node oldSource = .ok n := by
      intro node content n h hfind hne
      obtain ⟨hin, honce, i, hi, hn⟩ := (findEdit_eq_ok_iff id).mp hfind
      have hown := (hsame node content h).mpr
        ⟨hne, hin, infix_iff.mpr ⟨i, (index_eq_some_iff.mp hi).1⟩, honce⟩
      rw [searchedStart_of_own hown] at hi hn
      exact findBatchEdit_eq_ok_iff.mpr ⟨hin, i, hi, hn⟩
    refine ⟨⟨?_, ?_⟩, ?_⟩
    · rintro ⟨node, content, n, h, hfind⟩
      obtain ⟨hin, i, hi, hn⟩ := findBatchEdit_eq_ok_iff.mp hfind
      have hown := infix_iff.mpr ⟨i, (index_eq_some_iff.mp hi).1⟩
      have hacc := (hsame node content h).mp hown
      refine ⟨hacc.ne, node, content, n, h, (findEdit_eq_ok_iff id).mpr ⟨hin, hacc.once, i, ?_⟩⟩
      rw [searchedStart_of_own hown]
      exact ⟨hi, hn⟩
    · rintro ⟨hne, node, content, n, h, hfind⟩
      exact ⟨node, content, n, h, hplace node content n h hfind hne⟩
    · rintro ⟨hne, node, content, n, h, hfind⟩
      refine Eq.trans ?_ (editSymbol_files h hne hfind).symm
      exact applyBatchEdit_files h (hplace node content n h hfind hne)

/-- **When the tools agree**: an old source in the lines of the symbol is not the new one, and is
not counted twice there; one that is not there is the new one, or is not in the comments above
either, or is counted twice. -/
theorem agrees_iff (s : EditServer) (calls : ℕ → BatchCalls) (files : Files) (id : String)
    (oldSource newSource : Bytes) : Agrees s calls files id oldSource newSource ↔
      ∀ node content, Editable s (calls 0).toEditCalls files id node content →
        (oldSource <:+: ownSource content node →
          oldSource ≠ newSource ∧ countedTwice (ownSource content node) oldSource = false) ∧
        (¬oldSource <:+: ownSource content node → oldSource ≠ newSource →
          oldSource <:+: editRange content (withComments node content) node →
            countedTwice (editRange content (withComments node content) node) oldSource =
              true) := by
  rw [agrees_iff_accepted]
  refine forall₂_congr fun node content => imp_congr_right fun h => ?_
  by_cases hown : oldSource <:+: ownSource content node
  · have hrange : editRange content (searchedStart content node oldSource) node =
        ownSource content node := by
      rw [searchedStart_of_own hown]
      rfl
    simp only [hown, true_iff, true_imp_iff, not_true_eq_false, false_imp_iff, and_true]
    constructor
    · intro hacc
      exact ⟨hacc.ne, hrange ▸ hacc.once⟩
    · rintro ⟨hne, honce⟩
      exact ⟨hne, h.inFile, hrange ▸ hown, hrange ▸ honce⟩
  · have hstart := searchedStart_of_not_own hown
    simp only [hown, false_iff, false_imp_iff, true_and, not_false_eq_true, true_imp_iff]
    constructor
    · intro hacc hne hfound
      by_contra honce
      rw [← hstart] at hfound honce
      exact hacc ⟨hne, h.inFile, hfound, (Bool.not_eq_true _).mp honce⟩
    · intro hcond hacc
      have hfound := hacc.found
      have honce := hacc.once
      rw [hstart] at hfound honce
      exact Bool.false_ne_true (honce.symm.trans (hcond hacc.ne hfound))

end One

/-! ### A fragment that occurs twice -/

namespace Twice

/-- A function. -/
def sum : Node :=
  { id := "a.go::sum", kind := .kindFunction, name := "sum", filePath := "a.go"
    startLine := 1, endLine := 3 }

/-- The server with this function. -/
def server : EditServer where
  graph := Graph.new.putNode sum
  rootPath := none

/-- The file with this function. -/
def source : Bytes := ofString "func sum(x int) int \x7b\n\treturn x + x\n\x7d\n"

/-- The files. -/
def disk : Files := fun path => if path = "a.go" then some source else none

/-- No call fails. -/
def calls : BatchCalls where
  indexFile g _ _ := g

theorem getSymbol_sum : server.getSymbol "a.go::sum" = some sum :=
  (Graph.Inv.new.nodes.nodeAt_putNode sum _).trans (if_pos rfl)

/-- **One of two occurrences** is replaced by the one tool, and refused by the other. -/
theorem not_agrees : ¬∀ (s : EditServer) (calls : ℕ → BatchCalls) (files : Files) (id : String)
    (oldSource newSource : Bytes), Agrees s calls files id oldSource newSource := by
  intro h
  have hsame := (agrees_iff_accepted _ _ _ _ _ _).mp (h server (fun _ => calls) disk "a.go::sum"
    (ofString "x") (ofString "y")) sum source
    ⟨getSymbol_sum, by decide, by decide, rfl, rfl, by decide +kernel, rfl⟩
  have hacc := hsame.mp (by decide +kernel)
  exact absurd hacc.once (by decide +kernel)

end Twice

/-! ### A run of edits -/

section Run

variable {s s' : EditServer} {files files' : Files} {o : EditWithOrder} {st : BatchState}
  {calls : BatchCalls} {l : List (EditWithOrder × BatchCalls)}

/-- **One edit for itself**: the first occurrence of the old source in the lines that the symbol
has in the graph is replaced. -/
def EditsTo (s : EditServer) (o : EditWithOrder) (files files' : Files) : Prop :=
  ∃ node content i, s.getSymbol o.edit.symbolID = some node ∧
    files (s.absPath node) = some content ∧ InFile content node ∧
    At o.edit.oldSource (ownSource content node) i ∧
    (∀ j < i, ¬At o.edit.oldSource (ownSource content node) j) ∧
    files' = editedFiles s files node content
      ((terminated ((lines content).take (node.startLine.toNat - 1))).length + i)
      o.edit.oldSource o.edit.newSource

/-- **One edit after the other**, with the graph that `next` gives for each. -/
inductive Applies (next : EditServer → BatchCalls → Files → String → EditServer) :
    EditServer → Files → List (EditWithOrder × BatchCalls) → EditServer → Files → Prop
  | nil (s : EditServer) (files : Files) : Applies next s files [] s files
  | cons {s s' : EditServer} {files files₁ files' : Files} {o : EditWithOrder}
      {calls : BatchCalls} {rest : List (EditWithOrder × BatchCalls)} :
      EditsTo s o files files₁ →
      Applies next (next s calls files₁ o.edit.symbolID) files₁ rest s' files' →
      Applies next s files ((o, calls) :: rest) s' files'

/-- The file whose write failed. -/
def FailedWrite (s : EditServer) (o : EditWithOrder) (calls : BatchCalls) (path : String) : Prop :=
  calls.write ≠ .ok ∧ ∃ node, s.getSymbol o.edit.symbolID = some node ∧ path = s.absPath node

/-- A line range that no slice has. -/
def OutOfOrder (node : Node) : Prop := node.startLine < 1 ∨ node.endLine + 1 < node.startLine

/-- What is reported of the edits, when the first `m` were applied. -/
def statuses (l : List (EditWithOrder × BatchCalls)) (m : ℕ) : List (String × EditStatus) :=
  (l.take m).map (fun p => (p.1.edit.symbolID, .applied)) ++
    ((l.drop m).take 1).map (fun p => (p.1.edit.symbolID, .failed)) ++
    (l.drop (m + 1)).map fun p => (p.1.edit.symbolID, .skipped)

/-- **A clean stop**: some edits were applied, then one failed, and the others were skipped; the
files are those after the applied edits, with no word about a file whose write failed. -/
def CleanStop (s : EditServer) (files : Files) (l : List (EditWithOrder × BatchCalls))
    (results : List BatchEditResult) (files' : Files) : Prop :=
  ∃ m s' filesm, Applies EditServer.reindex s files (l.take m) s' filesm ∧
    results.map (fun r => (r.symbolID, r.status)) = statuses l m ∧
    ∀ path, (∀ p ∈ (l.drop m).take 1, ¬FailedWrite s' p.1 p.2 path) → files' path = filesm path

/-- A panic on a line range out of order, after some edits. -/
def PanicStop (s : EditServer) (files : Files) (l : List (EditWithOrder × BatchCalls))
    (files' : Files) : Prop :=
  ∃ m s' node, Applies EditServer.reindex s files (l.take m) s' files' ∧
    ∃ p ∈ (l.drop m).take 1, s'.getSymbol p.1.edit.symbolID = some node ∧ OutOfOrder node

theorem findBatchEdit_panicked {content oldSource : Bytes} {node : Node}
    (h : findBatchEdit content node oldSource = .error .panicked) : OutOfOrder node := by
  rw [OutOfOrder]
  by_contra hin
  simp only [findBatchEdit] at h
  split at h
  · cases h
  rename_i hrange
  have hfile : InFile content node := ⟨by omega, by omega, by omega, by omega⟩
  rw [hfile.goSlice_lines] at h
  simp only [ownSource, hfile.goSlice_editRange le_rfl] at h
  split at h
  · cases h
  · split at h <;> cases h

/-- **What one edit can do**: it is applied, it fails and changes no file but one whose write
fails, or it panics on a line range out of order. -/
theorem applyBatchEdit_cases (s : EditServer) (calls : BatchCalls) (files : Files)
    (o : EditWithOrder) :
    (∃ r, (applyBatchEdit s calls.toEditCalls files o).1 = some r ∧ r.status = .applied ∧
      r.symbolID = o.edit.symbolID ∧
      EditsTo s o files (applyBatchEdit s calls.toEditCalls files o).2) ∨
    (∃ r, (applyBatchEdit s calls.toEditCalls files o).1 = some r ∧ r.status = .failed ∧
      r.symbolID = o.edit.symbolID ∧ ∀ path, ¬FailedWrite s o calls path →
        (applyBatchEdit s calls.toEditCalls files o).2 path = files path) ∨
    ((applyBatchEdit s calls.toEditCalls files o).1 = none ∧
      (applyBatchEdit s calls.toEditCalls files o).2 = files ∧
      ∃ node, s.getSymbol o.edit.symbolID = some node ∧ OutOfOrder node) := by
  simp only [applyBatchEdit]
  cases hnode : s.getSymbol o.edit.symbolID with
  | none => exact Or.inr (Or.inl ⟨_, rfl, rfl, rfl, fun _ _ => rfl⟩)
  | some node =>
    simp only
    split
    · exact Or.inr (Or.inl ⟨_, rfl, rfl, rfl, fun _ _ => rfl⟩)
    cases hread : readFile calls.readErr files (s.absPath node) with
    | error err => exact Or.inr (Or.inl ⟨_, rfl, rfl, rfl, fun _ _ => rfl⟩)
    | ok content =>
      simp only
      cases hfind : findBatchEdit content node o.edit.oldSource with
      | error why =>
        cases why with
        | error text => exact Or.inr (Or.inl ⟨_, rfl, rfl, rfl, fun _ _ => rfl⟩)
        | panicked => exact Or.inr (Or.inr ⟨rfl, rfl, node, rfl, findBatchEdit_panicked hfind⟩)
      | ok n =>
        simp only
        cases hwrite : calls.write with
        | failed err left =>
          refine Or.inr (Or.inl ⟨_, rfl, rfl, rfl, fun path hpath => ?_⟩)
          refine Function.update_of_ne (fun heq => hpath ⟨?_, node, hnode, heq⟩) _ _
          rw [hwrite]
          simp
        | ok =>
          obtain ⟨hin, i, hi, rfl⟩ := findBatchEdit_eq_ok_iff.mp hfind
          obtain ⟨hat, hfirst⟩ := index_eq_some_iff.mp hi
          exact Or.inl ⟨_, rfl, rfl, rfl, node, content, i, hnode, (readFile_eq_ok.mp hread).2,
            hin, hat, hfirst, rfl⟩

theorem applyEdits_of_panicked (h : st.panicked = true) : applyEdits st l = st := by
  induction l with
  | nil => rfl
  | cons p l ih => rw [applyEdits, batchStep, if_pos h, ih]

/-- After an edit that failed, the others are skipped. -/
theorem applyEdits_of_failed (st : BatchState) (hp : st.panicked = false)
    (hf : st.failed = true) :
    (applyEdits st l).panicked = false ∧ (applyEdits st l).files = st.files ∧
      (applyEdits st l).results = st.results ++ l.map fun p =>
        { symbolID := p.1.edit.symbolID, filePath := p.1.file, status := .skipped } := by
  induction l generalizing st with
  | nil => exact ⟨hp, rfl, (List.append_nil _).symm⟩
  | cons p l ih =>
    obtain ⟨o, calls⟩ := p
    have hstep : batchStep st o calls = { st with results := st.results ++
        [{ symbolID := o.edit.symbolID, filePath := o.file, status := .skipped }] } := by
      rw [batchStep, hp, if_neg Bool.false_ne_true, if_pos hf]
    rw [applyEdits, hstep]
    obtain ⟨hp', hfiles, hresults⟩ := ih { st with results := st.results ++
      [{ symbolID := o.edit.symbolID, filePath := o.file, status := .skipped }] } hp hf
    refine ⟨hp', hfiles, hresults.trans ?_⟩
    rw [List.append_assoc]
    rfl

theorem statuses_cons_succ (p : EditWithOrder × BatchCalls) (m : ℕ) :
    statuses (p :: l) (m + 1) = (p.1.edit.symbolID, .applied) :: statuses l m := rfl

/-- **One edit that is applied** before a run that stops cleanly, or panics. -/
theorem CleanStop.cons {files₁ : Files} {results : List BatchEditResult} {r : BatchEditResult}
    (hedit : EditsTo s o files files₁) (hid : r.symbolID = o.edit.symbolID)
    (hstatus : r.status = .applied)
    (h : CleanStop (s.reindex calls files₁ o.edit.symbolID) files₁ l results files') :
    CleanStop s files ((o, calls) :: l) (r :: results) files' := by
  obtain ⟨m, s', filesm, happ, hresults, hfiles⟩ := h
  refine ⟨m + 1, s', filesm, Applies.cons hedit happ, ?_, hfiles⟩
  rw [List.map_cons, hresults, hid, hstatus, statuses_cons_succ]

theorem PanicStop.cons {files₁ : Files} (hedit : EditsTo s o files files₁)
    (h : PanicStop (s.reindex calls files₁ o.edit.symbolID) files₁ l files') :
    PanicStop s files ((o, calls) :: l) files' := by
  obtain ⟨m, s', node, happ, hnode⟩ := h
  exact ⟨m + 1, s', node, Applies.cons hedit happ, hnode⟩

/-- A turn of the loop that makes an edit. -/
theorem batchStep_of_some {r : BatchEditResult} (hp : st.panicked = false)
    (hf : st.failed = false)
    (hr : (applyBatchEdit st.server calls.toEditCalls st.files o).1 = some r) :
    batchStep st o calls =
      { st with
        server :=
          if r.status = .applied then st.server.reindex calls
            (applyBatchEdit st.server calls.toEditCalls st.files o).2 o.edit.symbolID
          else st.server
        files := (applyBatchEdit st.server calls.toEditCalls st.files o).2
        results := st.results ++ [r]
        failed := r.status = .failed } := by
  rw [batchStep, hp, hf, if_neg Bool.false_ne_true, if_neg Bool.false_ne_true]
  cases hedit : applyBatchEdit st.server calls.toEditCalls st.files o with
  | mk outcome files' =>
    rw [hedit] at hr
    obtain rfl : outcome = some r := hr
    rfl

theorem batchStep_of_none (hp : st.panicked = false) (hf : st.failed = false)
    (hr : (applyBatchEdit st.server calls.toEditCalls st.files o).1 = none) :
    batchStep st o calls = { st with
      files := (applyBatchEdit st.server calls.toEditCalls st.files o).2, panicked := true } := by
  rw [batchStep, hp, hf, if_neg Bool.false_ne_true, if_neg Bool.false_ne_true]
  cases hedit : applyBatchEdit st.server calls.toEditCalls st.files o with
  | mk outcome files' =>
    rw [hedit] at hr
    obtain rfl : outcome = none := hr
    rfl

/-- **How a run ends**, from a state in which nothing has failed. -/
theorem applyEdits_spec (st : BatchState) (hp : st.panicked = false) (hf : st.failed = false) :
    ((applyEdits st l).panicked = false → ∃ results,
      (applyEdits st l).results = st.results ++ results ∧
        CleanStop st.server st.files l results (applyEdits st l).files) ∧
    ((applyEdits st l).panicked = true →
      PanicStop st.server st.files l (applyEdits st l).files) := by
  induction l generalizing st with
  | nil =>
    refine ⟨fun _ => ⟨[], (List.append_nil _).symm, 0, _, _, Applies.nil _ _, rfl, fun _ _ => rfl⟩,
      fun hpanic => ?_⟩
    exact absurd (hp.symm.trans hpanic) Bool.false_ne_true
  | cons p l ih =>
    obtain ⟨o, calls⟩ := p
    rw [applyEdits]
    rcases applyBatchEdit_cases st.server calls st.files o with
      ⟨r, hr, hstatus, hid, hedit⟩ | ⟨r, hr, hstatus, hid, hfiles⟩ | ⟨hr, hfiles, hnode⟩
    · -- an edit more is applied
      have hstep := batchStep_of_some hp hf hr
      rw [if_pos hstatus] at hstep
      have hfailed : (batchStep st o calls).failed = false := by
        rw [hstep, hstatus]
        rfl
      obtain ⟨hclean, hpanic⟩ := ih (batchStep st o calls) (by rw [hstep]; exact hp) hfailed
      rw [hstep] at hclean hpanic ⊢
      refine ⟨fun hno => ?_, fun hyes => PanicStop.cons hedit (hpanic hyes)⟩
      obtain ⟨results, hresults, hstop⟩ := hclean hno
      refine ⟨r :: results, hresults.trans ?_, CleanStop.cons hedit hid hstatus hstop⟩
      rw [List.append_assoc, List.singleton_append]
    · -- the edit fails, and the others are skipped
      have hstep := batchStep_of_some hp hf hr
      rw [if_neg (by rw [hstatus]; decide)] at hstep
      have hfailed : (batchStep st o calls).failed = true := by
        rw [hstep, hstatus]
        rfl
      obtain ⟨hno, hkept, hresults⟩ := applyEdits_of_failed (l := l) (batchStep st o calls)
        (by rw [hstep]; exact hp) hfailed
      refine ⟨fun _ => ?_, fun hyes => absurd (hno.symm.trans hyes) Bool.false_ne_true⟩
      rw [hresults, hkept, hstep]
      refine ⟨_, List.append_assoc _ _ _, 0, _, _, Applies.nil _ _, ?_, fun path hpath =>
        hfiles path (hpath _ List.mem_cons_self)⟩
      rw [List.singleton_append, List.map_cons, hid, hstatus, List.map_map]
      rfl
    · -- the edit panics
      have hstep := batchStep_of_none hp hf hr
      rw [applyEdits_of_panicked (by rw [hstep]), hstep]
      refine ⟨fun hno => absurd hno.symm Bool.false_ne_true, fun _ => ?_⟩
      obtain ⟨node, hsymbol, horder⟩ := hnode
      rw [hfiles]
      exact ⟨0, _, node, Applies.nil _ _, _, List.mem_cons_self, hsymbol, horder⟩

/-- **A batch stops cleanly**, unless it panics on a line range out of order. -/
theorem applyEdits_stops (s : EditServer) (files : Files)
    (l : List (EditWithOrder × BatchCalls)) :
    ((applyEdits { server := s, files } l).panicked = false →
      CleanStop s files l (applyEdits { server := s, files } l).results
        (applyEdits { server := s, files } l).files) ∧
    ((applyEdits { server := s, files } l).panicked = true →
      PanicStop s files l (applyEdits { server := s, files } l).files) := by
  obtain ⟨hclean, hpanic⟩ := applyEdits_spec (l := l) { server := s, files } rfl rfl
  refine ⟨fun hno => ?_, hpanic⟩
  obtain ⟨results, hresults, hstop⟩ := hclean hno
  rw [hresults]
  exact hstop

end Run

/-! ### A line range that moves -/

namespace Moved

/-- A function with its lines. -/
def function (name : String) (line : ℤ) : Node :=
  { id := name, kind := .kindFunction, name := name, filePath := "a.go"
    startLine := line, endLine := line }

/-- The graph before the batch, and after the first edit: the second function has moved down. -/
def graph (line : ℤ) : Graph := (Graph.new.putNode (function "f" 1)).putNode (function "g" line)

/-- The server with the first graph. -/
def server : EditServer where
  graph := graph 2
  rootPath := some "/repo"

/-- The files. -/
def disk : Files := fun path => if path = "/repo/a.go" then some (ofString "f\ng") else none

/-- No call fails, and indexing the file finds the second function two lines down. -/
def calls : BatchCalls where
  indexFile _ _ _ := graph 3

/-- An edit that adds a line, and one of the second function. -/
def edits : List (EditWithOrder × BatchCalls) :=
  [(⟨⟨"f", ofString "f", ofString "f\n"⟩, 20, "a.go"⟩, calls),
    (⟨⟨"g", ofString "g", ofString "h"⟩, 20, "a.go"⟩, calls)]

/-- A clean stop with the line ranges that the symbols had before the batch. -/
def StaleStop (s : EditServer) (files : Files) (l : List (EditWithOrder × BatchCalls))
    (results : List BatchEditResult) (files' : Files) : Prop :=
  ∃ m s', Applies (fun s _ _ _ => s) s files (l.take m) s' files' ∧
    results.map (fun r => (r.symbolID, r.status)) = statuses l m

theorem getSymbol_f : server.getSymbol "f" = some (function "f" 1) :=
  ((Graph.Inv.new.putNode _).nodes.nodeAt_putNode _ _).trans
    ((if_neg (by decide)).trans ((Graph.Inv.new.nodes.nodeAt_putNode _ _).trans (if_pos rfl)))

theorem getSymbol_g : server.getSymbol "g" = some (function "g" 2) :=
  ((Graph.Inv.new.putNode _).nodes.nodeAt_putNode _ _).trans (if_pos rfl)

/-- **The second edit is made where the function is by then**, not where it was. -/
theorem not_staleStop : ¬∀ (s : EditServer) (files : Files)
    (l : List (EditWithOrder × BatchCalls)),
    (applyEdits { server := s, files } l).panicked = false →
      StaleStop s files l (applyEdits { server := s, files } l).results
        (applyEdits { server := s, files } l).files := by
  intro h
  obtain ⟨m, s', happ, hstatus⟩ := h server disk edits (by decide +kernel)
  have hresults : (applyEdits { server := server, files := disk } edits).results.map
      (fun r => (r.symbolID, r.status)) = [("f", .applied), ("g", .applied)] := by decide +kernel
  rw [hresults] at hstatus
  have htake : edits.take m = edits := by
    match m with
    | 0 => exact absurd hstatus (by decide)
    | 1 => exact absurd hstatus (by decide)
    | m + 2 => exact List.take_of_length_le (Nat.le_add_left 2 m)
  rw [htake] at happ
  obtain _ | ⟨⟨node, content, i, hnode, hfile, -, hat, -, rfl⟩, happ⟩ := happ
  obtain _ | ⟨⟨node', content', i', hnode', hfile', -, hat', -, -⟩, -⟩ := happ
  obtain rfl : function "f" 1 = node := Option.some.inj (getSymbol_f.symm.trans hnode)
  obtain rfl : function "g" 2 = node' := Option.some.inj (getSymbol_g.symm.trans hnode')
  have hpath : server.absPath (function "f" 1) = "/repo/a.go" := by decide +kernel
  have hpath' : server.absPath (function "g" 2) = "/repo/a.go" := by decide +kernel
  rw [hpath] at hfile
  obtain rfl : ofString "f\ng" = content := Option.some.inj hfile
  have hi := hat.add_le
  have hlen : (ownSource (ofString "f\ng") (function "f" 1)).length = 1 := by decide +kernel
  obtain rfl : i = 0 := by
    have hone : (ofString "f").length = 1 := by decide +kernel
    change i + (ofString "f").length ≤ _ at hi
    omega
  rw [editedFiles, hpath, hpath', Function.update_self, Option.some.injEq] at hfile'
  have hle := hat'.add_le
  rw [← hfile'] at hle
  exact absurd ((Nat.le_add_left _ i').trans hle) (by decide +kernel)

end Moved

end Mcp

end Gortex
