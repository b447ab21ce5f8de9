import Gortex.Graph.View
import Gortex.Lib.GoBytes
import Gortex.Lib.GoPath
import Gortex.Lib.Occurrence

/-!
# Editing a symbol

`handleEditSymbol` of `internal/mcp/tools_coding.go`: a fragment of the source of a symbol is
replaced in the file. The fragment is looked up in the lines of the symbol, and if it is not
there, in these lines and the comments above them. That it occurs only once is checked by
`strings.Count`, which does not count an occurrence that overlaps the one before it, and the
file is written in place. So the edit is local, and all or nothing, iff the fragment has no second
occurrence and a write that fails leaves the file alone (`Gortex.Mcp.editSymbol_iff`).
-/

namespace Gortex

namespace Mcp

open GoBytes Occurrence

/-! ### The model -/

/-- What the editing tools use of the server: the graph, and the root of the indexer, when there
is an indexer. -/
structure EditServer where
  graph : Graph
  rootPath : Option String

/-- How the system calls of an edit end. -/
structure EditCalls where
  readErr : Option String := none
  write : WriteResult := .ok

/-- The arguments of `edit_symbol`; none for one that is missing or no string. -/
structure EditRequest where
  id : Option String
  oldSource : Option Bytes
  newSource : Option Bytes

/-- What is reported of an edit. -/
structure EditReport where
  file : String
  symbol : String
  linesBefore : ℕ
  linesAfter : ℕ
  startLine : ℤ
  status : String
deriving DecidableEq

/-- How an edit is refused: with an error, or by the panic of a slice out of range. -/
inductive Refusal
  | error (text : String)
  | panicked
deriving DecidableEq

/-- How an edit ends. -/
inductive EditReply
  | applied (report : EditReport)
  | refused (why : Refusal)
deriving DecidableEq

/-- `Engine.GetSymbol`. -/
def EditServer.getSymbol (s : EditServer) (id : String) : Option Node := s.graph.nodeAt id

/-- The path of the file of a symbol. -/
def EditServer.absPath (s : EditServer) (node : Node) : String :=
  match s.rootPath with
  | none => node.filePath
  | some root => if root = "" then node.filePath else GoPath.join root node.filePath

/-- `l[i:j]`, where the bounds are right. -/
def goSlice {α : Type} (l : List α) (i j : ℤ) : Option (List α) :=
  if 0 ≤ i ∧ i ≤ j ∧ j ≤ l.length then some ((l.take j.toNat).drop i.toNat) else none

/-- A line of a comment, or an empty one. -/
def docLine (line : Bytes) : Bool :=
  let trimmed := trimLeft line
  (ofString "//").isPrefixOf trimmed || (ofString "/*").isPrefixOf trimmed ||
    (ofString "*").isPrefixOf trimmed || trimmed.isEmpty

/-- The first of the lines of comments that stand before a line. -/
def expandedStart (lines : List Bytes) : ℕ → ℕ
  | 0 => 0
  | n + 1 => if docLine (lines.getD n []) then expandedStart lines n else n + 1

/-- `strings.Count(s, p) > 1`: the empty pattern is counted before each character and at the
end. -/
def countedTwice (s p : Bytes) : Bool := if p = [] then !s.isEmpty else 1 < count p s

/-- The lines of the symbol. -/
def ownSource (content : Bytes) (node : Node) : Bytes :=
  linesBetween content (node.startLine.toNat - 1) node.endLine.toNat

/-- The first of the lines that an edit is made in (`effectiveStart`, less one): the one of the
symbol, or if the old source is not in the symbol, of the comments above it. -/
def searchedStart (content : Bytes) (node : Node) (oldSource : Bytes) : ℕ :=
  if contains (ownSource content node) oldSource then node.startLine.toNat - 1
  else expandedStart (lines content) (node.startLine.toNat - 1)

/-- Where the old source stands in the file, or why the edit is refused. -/
def findEdit (content : Bytes) (id : String) (node : Node) (oldSource : Bytes) :
    Except Refusal ℕ :=
  let ls := lines content
  if ls.length < node.startLine ∨ ls.length < node.endLine then
    .error (.error "symbol line range exceeds file length")
  else
    match goSlice ls (node.startLine - 1) node.endLine with
    | none => .error .panicked
    | some _ =>
      let start := searchedStart content node oldSource
      let symbolSource := linesBetween content start node.endLine.toNat
      if ¬contains symbolSource oldSource then
        .error (.error ("old_source not found within symbol " ++ id ++ " (lines " ++
          toString node.startLine ++ "-" ++ toString node.endLine ++
          "). Use get_symbol_source to see the current code."))
      else if countedTwice symbolSource oldSource then
        .error (.error ("old_source appears multiple times within the symbol. " ++
          "Provide a larger fragment to make it unique."))
      else
        let symbolStart := (terminated (ls.take start)).length
        let symbolEnd := min (symbolStart + symbolSource.length) content.length
        match goSlice content symbolStart symbolEnd with
        | none => .error .panicked
        | some region =>
          match index oldSource region with
          | none => .error (.error "old_source not found in symbol region")
          | some offset => .ok (symbolStart + offset)

/-- The end of an edit: the file is written. -/
def writeEdit (calls : EditCalls) (files : Files) (path : String) (content : Bytes) (id : String)
    (node : Node) (editStart : ℕ) (oldSource newSource : Bytes) : EditReply × Files :=
  match writeFile calls.write files path
    (splice content editStart oldSource.length newSource) with
  | (some err, files') => (.refused (.error ("could not write file: " ++ err)), files')
  | (none, files') =>
    (.applied
      { file := node.filePath
        symbol := id
        linesBefore := oldSource.count newline + 1
        linesAfter := newSource.count newline + 1
        startLine := node.startLine
        status := "applied" }, files')

/-- **handleEditSymbol.** -/
def editSymbol (s : EditServer) (calls : EditCalls) (files : Files) (req : EditRequest) :
    EditReply × Files :=
  match req.id, req.oldSource, req.newSource with
  | none, _, _ => (.refused (.error "id is required"), files)
  | some _, none, _ => (.refused (.error "old_source is required"), files)
  | some _, some _, none => (.refused (.error "new_source is required"), files)
  | some id, some oldSource, some newSource =>
    if oldSource = newSource then
      (.refused (.error "old_source and new_source are identical"), files)
    else
      match s.getSymbol id with
      | none => (.refused (.error ("symbol not found: " ++ id)), files)
      | some node =>
        if node.startLine = 0 ∨ node.endLine = 0 then
          (.refused (.error ("symbol has no line range: " ++ id)), files)
        else
          match readFile calls.readErr files (s.absPath node) with
          | .error err => (.refused (.error ("could not read file: " ++ err)), files)
          | .ok content =>
            match findEdit content id node oldSource with
            | .error why => (.refused why, files)
            | .ok editStart =>
              writeEdit calls files (s.absPath node) content id node editStart oldSource newSource

/-! ### The range of an edit -/

variable {s : EditServer} {calls : EditCalls} {files : Files} {id : String} {node : Node}
  {content oldSource newSource : Bytes} {lo i : ℕ}

/-- The lines that an edit is made in. -/
def editRange (content : Bytes) (lo : ℕ) (node : Node) : Bytes :=
  linesBetween content lo node.endLine.toNat

/-- The file after an edit in a range of its lines, with the lines before and after the range as
they were. -/
def editedAt (content : Bytes) (lo : ℕ) (node : Node) (i n : ℕ) (newSource : Bytes) : Bytes :=
  terminated ((lines content).take lo) ++ splice (editRange content lo node) i n newSource ++
    preceded ((lines content).drop node.endLine.toNat)

/-- The line range of the symbol is one of the file. -/
def InFile (content : Bytes) (node : Node) : Prop :=
  1 ≤ node.startLine ∧ node.startLine ≤ node.endLine + 1 ∧
    node.startLine ≤ (lines content).length ∧ node.endLine ≤ (lines content).length

instance (content : Bytes) (node : Node) : Decidable (InFile content node) :=
  inferInstanceAs (Decidable (_ ∧ _))

/-- The pattern occurs at the position and nowhere else. -/
def OnlyAt (p l : Bytes) (i : ℕ) : Prop := At p l i ∧ ∀ j, At p l j → j = i

/-- **Local and atomic**: an edit that succeeds replaces the one occurrence of the old source in
the range that begins with line `lo`, and keeps every other byte of the file and every other file;
one that fails leaves all files as they were. -/
def EditLocal (s : EditServer) (calls : EditCalls) (files : Files) (id : String) (node : Node)
    (oldSource newSource : Bytes) (lo : Bytes → ℕ) : Prop :=
  match editSymbol s calls files ⟨some id, some oldSource, some newSource⟩ with
  | (.applied _, files') =>
    ∃ content i, files (s.absPath node) = some content ∧
      OnlyAt oldSource (editRange content (lo content) node) i ∧
      files' = Function.update files (s.absPath node)
        (some (editedAt content (lo content) node i oldSource.length newSource))
  | (.refused (.error _), files') => files' = files
  | (.refused .panicked, _) => False

/-- **The edit is not refused**: the lines of the symbol are in the file, and the old source is
in the range that is searched, where it is not counted twice. -/
structure Accepted (content : Bytes) (node : Node) (oldSource newSource : Bytes) : Prop where
  ne : oldSource ≠ newSource
  inFile : InFile content node
  found : oldSource <:+: editRange content (searchedStart content node oldSource) node
  once : countedTwice (editRange content (searchedStart content node oldSource) node) oldSource =
    false

theorem expandedStart_le (ls : List Bytes) (n : ℕ) : expandedStart ls n ≤ n := by
  induction n with
  | zero => exact le_rfl
  | succ n ih =>
    rw [expandedStart]
    split
    · exact ih.trans (Nat.le_succ n)
    · exact le_rfl

theorem expandedStart_le_searchedStart (content : Bytes) (node : Node) (oldSource : Bytes) :
    expandedStart (lines content) (node.startLine.toNat - 1) ≤
      searchedStart content node oldSource := by
  rw [searchedStart]
  split
  · exact expandedStart_le _ _
  · exact le_rfl

theorem searchedStart_le (content : Bytes) (node : Node) (oldSource : Bytes) :
    searchedStart content node oldSource ≤ node.startLine.toNat - 1 := by
  rw [searchedStart]
  split
  · exact le_rfl
  · exact expandedStart_le _ _

theorem goSlice_between (u v w : Bytes) :
    goSlice (u ++ v ++ w) (u.length : ℕ) (min (u.length + v.length) (u ++ v ++ w).length : ℕ) =
      some v := by
  have hmin : min (u.length + v.length) (u ++ v ++ w).length = (u ++ v).length := by
    simp only [List.length_append]
    omega
  have hle : (u ++ v).length ≤ (u ++ v ++ w).length := by
    simp only [List.length_append]
    omega
  rw [hmin, goSlice, if_pos ⟨by omega, by rw [List.length_append]; omega, by exact_mod_cast hle⟩,
    Int.toNat_natCast, Int.toNat_natCast, List.take_left, List.drop_left]

/-- **Some lines of a file**, cut out by their position. -/
theorem goSlice_linesBetween (content : Bytes) {lo hi : ℕ} (hlo : lo ≤ hi)
    (hlt : lo < (lines content).length)
    (hhi : hi ≤ (lines content).length) :
    goSlice content ((terminated ((lines content).take lo)).length : ℕ)
        (min ((terminated ((lines content).take lo)).length + (linesBetween content lo hi).length)
          content.length : ℕ) = some (linesBetween content lo hi) := by
  rcases hlo.lt_or_eq with hlohi | rfl
  · have hslice := goSlice_between (terminated ((lines content).take lo))
      (linesBetween content lo hi) (preceded ((lines content).drop hi))
    rwa [← eq_linesBetween hlohi hhi] at hslice
  · -- no lines at all
    have hnil : linesBetween content lo lo = [] := by
      rw [linesBetween, List.drop_eq_nil_of_le (List.length_take_le lo _)]
      rfl
    have hlen := congrArg List.length (eq_linesBetween (s := content) hlt le_rfl)
    rw [List.length_append, List.length_append] at hlen
    rw [hnil, List.length_nil, Nat.add_zero, min_eq_left (by omega), goSlice,
      if_pos ⟨by omega, le_rfl, by omega⟩, Int.toNat_natCast,
      List.drop_eq_nil_of_le (List.length_take_le _ _)]

section Range

variable (h : InFile content node)
include h

/-- The lines of the symbol can be cut out of those of the file. -/
theorem InFile.goSlice_lines : goSlice (lines content) (node.startLine - 1) node.endLine =
    some (((lines content).take node.endLine.toNat).drop (node.startLine - 1).toNat) :=
  if_pos ⟨by have := h.1; omega, by have := h.2.1; omega, h.2.2.2⟩

/-- The range of an edit can be cut out of the file. -/
theorem InFile.goSlice_editRange (hlo : lo ≤ node.startLine.toNat - 1) :
    goSlice content ((terminated ((lines content).take lo)).length : ℕ)
        (min ((terminated ((lines content).take lo)).length +
          (linesBetween content lo node.endLine.toNat).length) content.length : ℕ) =
      some (linesBetween content lo node.endLine.toNat) := by
  obtain ⟨h₁, h₂, h₃, h₄⟩ := h
  exact goSlice_linesBetween content (by omega) (by omega) (by omega)

end Range

theorem goSlice_lines_eq_none (hrange : ¬((lines content).length < node.startLine ∨
    (lines content).length < node.endLine)) (h : ¬InFile content node) :
    goSlice (lines content) (node.startLine - 1) node.endLine = none :=
  if_neg fun hc => h ⟨by omega, by omega, by omega, by omega⟩

/-- **Where an edit is made**: at the first occurrence in the range searched, if it is not
counted twice there. -/
theorem findEdit_eq_ok_iff (id : String) {n : ℕ} : findEdit content id node oldSource = .ok n ↔
    InFile content node ∧
      countedTwice (editRange content (searchedStart content node oldSource) node) oldSource =
        false ∧
      ∃ i, index oldSource (editRange content (searchedStart content node oldSource) node) =
          some i ∧
        (terminated ((lines content).take (searchedStart content node oldSource))).length + i =
          n := by
  simp only [findEdit]
  by_cases hrange : (lines content).length < node.startLine ∨ (lines content).length < node.endLine
  · rw [if_pos hrange]
    refine iff_of_false (by simp) fun h => ?_
    have hend := h.1.2.2
    omega
  rw [if_neg hrange]
  by_cases hin : InFile content node
  · rw [hin.goSlice_lines, and_iff_right hin]
    simp only
    rw [hin.goSlice_editRange (searchedStart_le content node oldSource), editRange, contains]
    cases hindex : index oldSource
        (linesBetween content (searchedStart content node oldSource) node.endLine.toNat) with
    | none =>
      rw [Option.isSome_none, if_pos Bool.false_ne_true]
      refine iff_of_false (by simp) ?_
      rintro ⟨-, i, hi, -⟩
      exact Option.some_ne_none i hi.symm
    | some i =>
      rw [Option.isSome_some, if_neg (not_not.mpr rfl)]
      cases htwice : countedTwice
          (linesBetween content (searchedStart content node oldSource) node.endLine.toNat)
          oldSource with
      | true => exact iff_of_false (by simp) fun h => Bool.noConfusion h.1
      | false =>
        simp only [Bool.false_eq_true, if_false, hindex, Except.ok.injEq, Option.some.injEq,
          true_and, exists_eq_left']
  · rw [goSlice_lines_eq_none hrange hin]
    exact iff_of_false (by simp) fun h => hin h.1

/-- **No panic** where the line range is in order. -/
theorem findEdit_ne_panicked (hstart : 1 ≤ node.startLine)
    (hend : node.startLine ≤ node.endLine + 1) :
    findEdit content id node oldSource ≠ .error .panicked := by
  intro hpanic
  have hnone : ∀ n, findEdit content id node oldSource ≠ .ok n := fun n hn => by
    rw [hpanic] at hn
    cases hn
  simp only [findEdit] at hpanic
  split at hpanic
  · cases hpanic
  rename_i hrange
  have hin : InFile content node := ⟨hstart, hend, by omega, by omega⟩
  rw [hin.goSlice_lines] at hpanic
  simp only [hin.goSlice_editRange (searchedStart_le content node oldSource)] at hpanic
  split at hpanic
  · cases hpanic
  split at hpanic
  · cases hpanic
  split at hpanic <;> cases hpanic

section Valid

variable (hstart : 1 ≤ node.startLine) (hend : node.startLine ≤ node.endLine)
include hstart hend

theorem searchedStart_lt (content oldSource : Bytes) :
    searchedStart content node oldSource < node.endLine.toNat := by
  have hle := searchedStart_le content node oldSource
  omega

/-- The file around the range of an edit. -/
theorem eq_editRange (hfile : node.endLine ≤ (lines content).length)
    (hlo : lo ≤ node.startLine.toNat - 1) : content = terminated ((lines content).take lo) ++
      editRange content lo node ++ preceded ((lines content).drop node.endLine.toNat) :=
  eq_linesBetween (by omega) (by omega)

/-- **The file after an accepted edit**, seen in a range that holds the one searched. -/
theorem splice_editRange (h : Accepted content node oldSource newSource)
    (hlo : lo ≤ searchedStart content node oldSource)
    (hi : At oldSource (editRange content (searchedStart content node oldSource) node) i) :
    ∃ k, At oldSource (editRange content lo node) k ∧
      splice content ((terminated
        ((lines content).take (searchedStart content node oldSource))).length + i)
        oldSource.length newSource = editedAt content lo node k oldSource.length newSource := by
  have hfile := h.inFile.2.2.2
  have hle := searchedStart_le content node oldSource
  have hlt := searchedStart_lt hstart hend content oldSource
  generalize searchedStart content node oldSource = m at hlo hi hle hlt ⊢
  have hmore : editRange content lo node =
      terminated (((lines content).take m).drop lo) ++ editRange content m node :=
    linesBetween_eq hlo hlt (by omega)
  have htake : (lines content).take m =
      (lines content).take lo ++ ((lines content).take m).drop lo := by
    conv_lhs => rw [← List.take_append_drop lo ((lines content).take m)]
    rw [List.take_take, min_eq_left hlo]
  have hk : At oldSource (editRange content lo node)
      ((terminated (((lines content).take m).drop lo)).length + i) := by
    rw [hmore]
    exact at_append_left.mpr hi
  refine ⟨_, hk, ?_⟩
  have hlen : (terminated ((lines content).take m)).length =
      (terminated ((lines content).take lo)).length +
        (terminated (((lines content).take m).drop lo)).length := by
    rw [← List.length_append, ← terminated_append, ← htake]
  have hcontent := congrArg (fun c => splice c ((terminated ((lines content).take m)).length + i)
    oldSource.length newSource) (eq_editRange hstart hend hfile (hlo.trans hle))
  refine hcontent.trans ?_
  rw [editedAt, hlen, Nat.add_assoc, List.append_assoc, splice_append_left,
    splice_append_right hk.add_le, List.append_assoc]

/-! ### When the edit is local and atomic -/

section Request

variable (calls files) (hnode : s.getSymbol id = some node)
include hnode

theorem editSymbol_of_accepted (hread : calls.readErr = none)
    (hfile : files (s.absPath node) = some content)
    (h : Accepted content node oldSource newSource) :
    ∃ i, At oldSource (editRange content (searchedStart content node oldSource) node) i ∧
      editSymbol s calls files ⟨some id, some oldSource, some newSource⟩ =
        writeEdit calls files (s.absPath node) content id node ((terminated
          ((lines content).take (searchedStart content node oldSource))).length + i)
          oldSource newSource := by
  obtain ⟨j, hj⟩ := infix_iff.mp h.found
  obtain ⟨i, -, hi⟩ := exists_index hj
  have hfind := (findEdit_eq_ok_iff id).mpr ⟨h.inFile, h.once, i, hi, rfl⟩
  refine ⟨i, (index_eq_some_iff.mp hi).1, ?_⟩
  simp only [editSymbol]
  rw [if_neg h.ne, hnode]
  simp only
  rw [if_neg (by omega), readFile_eq_ok.mpr ⟨hread, hfile⟩]
  simp only [hfind]

theorem editSymbol_of_refused
    (h : ∀ content, calls.readErr = none → files (s.absPath node) = some content →
      ¬Accepted content node oldSource newSource) :
    ∃ text, editSymbol s calls files ⟨some id, some oldSource, some newSource⟩ =
      (.refused (.error text), files) := by
  simp only [editSymbol]
  split
  · exact ⟨_, rfl⟩
  rename_i hne
  rw [hnode]
  simp only
  rw [if_neg (by omega)]
  cases hread : readFile calls.readErr files (s.absPath node) with
  | error err => exact ⟨_, rfl⟩
  | ok content =>
    obtain ⟨hok, hfile⟩ := readFile_eq_ok.mp hread
    simp only
    cases hfind : findEdit content id node oldSource with
    | error why =>
      cases why with
      | error text => exact ⟨text, rfl⟩
      | panicked => exact absurd hfind (findEdit_ne_panicked hstart (by omega))
    | ok n =>
      obtain ⟨hin, honce, i, hi, -⟩ := (findEdit_eq_ok_iff id).mp hfind
      exact absurd ⟨hne, hin, infix_iff.mpr ⟨i, (index_eq_some_iff.mp hi).1⟩, honce⟩
        (h content hok hfile)

/-- **Local and atomic in a range** that holds the one searched: the old source does not occur
twice in it, and a write that fails leaves the file. -/
theorem editLocal_iff (lo : Bytes → ℕ)
    (hlo : ∀ content, lo content ≤ searchedStart content node oldSource) :
    EditLocal s calls files id node oldSource newSource lo ↔
      ∀ content, calls.readErr = none → files (s.absPath node) = some content →
        Accepted content node oldSource newSource →
        (calls.write = .ok → ∀ i j, At oldSource (editRange content (lo content) node) i →
          At oldSource (editRange content (lo content) node) j → i = j) ∧
        ∀ err left, calls.write = .failed err left → left = some content := by
  by_cases hacc : ∃ content, calls.readErr = none ∧ files (s.absPath node) = some content ∧
      Accepted content node oldSource newSource
  · obtain ⟨content, hread, hfile, h⟩ := hacc
    obtain ⟨i, hi, heq⟩ := editSymbol_of_accepted calls files hstart hend hnode hread hfile h
    obtain ⟨k, hk, hsplice⟩ := splice_editRange hstart hend h (hlo content) hi
    rw [EditLocal, heq, writeEdit, hsplice]
    cases hwrite : calls.write with
    | ok =>
      simp only [writeFile]
      constructor
      · rintro ⟨content', i', hfile', hi', -⟩ content'' - hfile'' -
        obtain rfl : content' = content'' := Option.some.inj (hfile'.symm.trans hfile'')
        exact ⟨fun _ a b ha hb => (hi'.2 a ha).trans (hi'.2 b hb).symm, nofun⟩
      · intro hone
        refine ⟨content, k, hfile, ⟨hk, fun j hj => ?_⟩, rfl⟩
        exact (hone content hread hfile h).1 trivial j k hj hk
    | failed err left =>
      simp only [writeFile]
      have hleft : Function.update files (s.absPath node) left = files ↔ left = some content := by
        rw [Function.update_eq_self_iff, hfile]
      rw [hleft]
      constructor
      · rintro hleft content' - hfile' -
        obtain rfl : content = content' := Option.some.inj (hfile.symm.trans hfile')
        exact ⟨nofun, fun _ _ heq => by cases heq; exact hleft⟩
      · intro hone
        exact (hone content hread hfile h).2 err left rfl
  · obtain ⟨text, heq⟩ := editSymbol_of_refused calls files hstart hend hnode
      (fun content hread hfile h => hacc ⟨content, hread, hfile, h⟩)
    rw [EditLocal, heq]
    exact iff_of_true rfl fun content hread hfile h => absurd ⟨content, hread, hfile, h⟩ hacc

end Request

end Valid

/-- No two occurrences of the pattern overlap. -/
def NoOverlap (p l : Bytes) : Prop := ∀ i j, At p l i → At p l j → i < j → i + p.length ≤ j

instance (p l : Bytes) : Decidable (NoOverlap p l) :=
  decidable_of_iff (∀ i < l.length + 1, ∀ j < l.length + 1,
      At p l i → At p l j → i < j → i + p.length ≤ j)
    ⟨fun h i j hi hj => h i (Nat.lt_succ_of_le hi.1) j (Nat.lt_succ_of_le hj.1) hi hj,
      fun h i _ j _ => h i j⟩

/-- What is not counted twice occurs only once, unless two occurrences overlap. -/
theorem noOverlap_iff {p l : Bytes} (h : countedTwice l p = false) :
    NoOverlap p l ↔ ∀ i j, At p l i → At p l j → i = j := by
  constructor
  · intro hover
    have hnlt : ∀ i j, At p l i → At p l j → ¬i < j := by
      intro i j hi hj hij
      rw [countedTwice] at h
      split at h
      · -- the empty pattern is counted once in the empty text alone
        rw [Bool.not_eq_false', List.isEmpty_iff] at h
        have hle := hj.1
        rw [h, List.length_nil] at hle
        omega
      · rename_i hp
        exact of_decide_eq_false h ((one_lt_count_iff hp).mpr ⟨i, j, hi, hj, hover i j hi hj hij⟩)
    intro i j hi hj
    exact le_antisymm (not_lt.mp (hnlt j i hj hi)) (not_lt.mp (hnlt i j hi hj))
  · intro hone i j hi hj hij
    exact absurd (hone i j hi hj) hij.ne

/-- The first line of the symbol and the comments above it. -/
def withComments (node : Node) (content : Bytes) : ℕ :=
  expandedStart (lines content) (node.startLine.toNat - 1)

/-- A write that fails leaves the content of the file. -/
def EditCalls.Spares (calls : EditCalls) (content : Bytes) : Prop :=
  ∀ err left, calls.write = .failed err left → left = some content

/-- **When an edit is local and atomic**, in the range that is searched, and in the lines of the
symbol together with the comments above it. -/
theorem editSymbol_iff (s : EditServer) (calls : EditCalls) (files : Files) (id : String)
    (node : Node) (oldSource newSource : Bytes) (hnode : s.getSymbol id = some node)
    (hstart : 1 ≤ node.startLine) (hend : node.startLine ≤ node.endLine) :
    (EditLocal s calls files id node oldSource newSource
        (fun content => searchedStart content node oldSource) ↔
      ∀ content, calls.readErr = none → files (s.absPath node) = some content →
        Accepted content node oldSource newSource →
        (calls.write = .ok →
          NoOverlap oldSource (editRange content (searchedStart content node oldSource) node)) ∧
        calls.Spares content) ∧
    (EditLocal s calls files id node oldSource newSource (withComments node) ↔
      ∀ content, calls.readErr = none → files (s.absPath node) = some content →
        Accepted content node oldSource newSource →
        (calls.write = .ok →
          ∀ i j, At oldSource (editRange content (withComments node content) node) i →
            At oldSource (editRange content (withComments node content) node) j → i = j) ∧
        calls.Spares content) := by
  constructor
  · refine (editLocal_iff calls files hstart hend hnode _ fun content => le_rfl).trans ?_
    refine forall_congr' fun content => imp_congr_right fun _ => imp_congr_right fun _ => ?_
    refine imp_congr_right fun hacc => and_congr (imp_congr_right fun _ => ?_) Iff.rfl
    exact (noOverlap_iff hacc.once).symm
  · exact editLocal_iff calls files hstart hend hnode _ fun content =>
      expandedStart_le_searchedStart content node oldSource

/-! ### A fragment that overlaps itself -/

namespace Overlapping

/-- A variable of a type of three dimensions. -/
def cube : Node :=
  { id := "a.go::cube", kind := .kindVariable, name := "cube", filePath := "a.go"
    startLine := 1, endLine := 1 }

/-- The server with this variable. -/
def server : EditServer where
  graph := Graph.new.putNode cube
  rootPath := none

/-- The file with this variable. -/
def source : Bytes := ofString "var cube [][][]int\n"

/-- The files. -/
def disk : Files := fun path => if path = "a.go" then some source else none

theorem getSymbol_cube : server.getSymbol "a.go::cube" = some cube :=
  (Graph.Inv.new.nodes.nodeAt_putNode cube _).trans (if_pos rfl)

/-- The name occurs once. -/
theorem editLocal_name :
    EditLocal server {} disk "a.go::cube" cube (ofString "cube") (ofString "grid")
      (fun content => searchedStart content cube (ofString "cube")) :=
  (editSymbol_iff server {} disk "a.go::cube" cube (ofString "cube") (ofString "grid")
    getSymbol_cube (by decide) (by decide)).1.mpr <| by
    intro content _ hfile _
    obtain rfl : source = content := Option.some.inj hfile
    exact ⟨fun _ => by decide +kernel, nofun⟩

/-- **Two dimensions of three** are there twice, and the first two are replaced. -/
theorem not_editLocal : ¬∀ (s : EditServer) (calls : EditCalls) (files : Files) (id : String)
    (node : Node) (oldSource newSource : Bytes), s.getSymbol id = some node →
    1 ≤ node.startLine → node.startLine ≤ node.endLine →
      EditLocal s calls files id node oldSource newSource
        (fun content => searchedStart content node oldSource) := by
  intro h
  have hlocal := h server {} disk "a.go::cube" cube (ofString "[][]") (ofString "[]")
    getSymbol_cube (by decide) (by decide)
  have hone := ((editLocal_iff {} disk (by decide) (by decide) getSymbol_cube _
    fun _ => le_rfl).mp hlocal source rfl rfl (by constructor <;> decide +kernel)).1 rfl 9 11
  exact absurd (hone (by decide +kernel) (by decide +kernel)) (by decide)

end Overlapping

end Mcp

end Gortex
