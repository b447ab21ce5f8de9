import Mathlib.Data.Bool.AllAny
import Mathlib.Data.List.DropRight
import Gortex.Lib.GoPath
import Gortex.Lib.GoText
import Gortex.Lib.Scanner

/-!
# The hunks of a diff

`parseDiffHunks` of `internal/analysis/diffmap.go` reads what `git diff --unified=0` writes, and
keeps the file and the new lines of every hunk. A line is told by its first characters alone,
and the file of a hunk is that of the last line that looked like the header of a file.

The other half of the module is what git writes of a list of file diffs
(`Gortex.Analysis.render`). The hunks of a deleted file are passed over, and a hunk without new
lines counts as one line; otherwise all hunks are read back, as long as the path is written as it
is, no line up to a header is too long for the scanner, and no added line before a further hunk of
its file looks like the header of a file (`Gortex.Analysis.parseDiffHunks_render`).
-/

namespace Gortex

namespace Analysis

open GoText

/-! ### The model -/

/-- **A changed range** of a file. -/
structure DiffHunk where
  filePath : String
  startLine : ℤ
  endLine : ℤ
deriving DecidableEq

/-- An integer of 64 bits. -/
def wrap64 (n : ℤ) : ℤ := Int.bmod n (2 ^ 64)

/-- One field of a hunk header: the loop body of `parseHunkHeader`. -/
def newRange (filePath : String) (f : List Char) : Option DiffHunk :=
  if "+".toList.isPrefixOf f = true then
    match splitN ",".toList 2 (f.drop 1) with
    | [] => none
    | startText :: rest =>
      let start := atoi startText
      -- a field that is not a number is passed over
      if start.2 = true then
        let count := match rest with
          | [] => 1
          | countText :: _ => (atoi countText).1
        let count := if count = 0 then 1 else count
        some ⟨GoPath.clean filePath, start.1, wrap64 (start.1 + count - 1)⟩
      else none
  else none

/-- **parseHunkHeader.** -/
def parseHunkHeader (line : List Char) (filePath : String) : Option DiffHunk :=
  match splitN "@@".toList 3 line with
  | _ :: ranges :: _ => (fields (trimSpace ranges)).findSome? (newRange filePath)
  | _ => none

/-- The loop over the lines, with the file so far. -/
def readLines (currentFile : List Char) : List (List Char) → List DiffHunk
  | [] => []
  | line :: lines =>
    if "+++ b/".toList.isPrefixOf line = true then readLines (line.drop 6) lines
    else if "+++ /dev/null".toList.isPrefixOf line = true then readLines [] lines
    else if "@@".toList.isPrefixOf line = true ∧ currentFile ≠ [] then
      (parseHunkHeader line (String.ofList currentFile)).toList ++ readLines currentFile lines
    else readLines currentFile lines

/-- The carriage return that `bufio.ScanLines` drops. -/
def dropCR (line : List Char) : List Char :=
  if line.getLast? = some '\r' then line.dropLast else line

/-- The most that the buffer of a scanner grows to, if it is not told otherwise. -/
def maxScanTokenSize : ℕ := 64 * 1024

/-- **parseDiffHunks.** -/
def parseDiffHunks (output : List Char) : List DiffHunk :=
  readLines [] ((Scanner.tokens '\n' Char.utf8Size maxScanTokenSize output).map dropCR)

/-! ### What git writes -/

/-- The text of a line. -/
abbrev LineText := {l : List Char // '\n' ∉ l}

/-- A path of git: relative, and clean. -/
abbrev GitPath := {p : String // GoPath.IsLocal p}

/-- A character that git does not write as it is. -/
def needsQuote (c : Char) : Bool := c.toNat < 0x20 ∨ c = '"' ∨ c = '\\' ∨ 0x7f ≤ c.toNat

/-- The bytes with a letter of their own. -/
def letters : List (UInt8 × Char) :=
  [(7, 'a'), (8, 'b'), (9, 't'), (10, 'n'), (11, 'v'), (12, 'f'), (13, 'r'), (34, '"'), (92, '\\')]

/-- A byte in quotes. -/
def escapeByte (b : UInt8) : List Char :=
  let octal (n : ℕ) : Char := Char.ofNat (48 + n % 8)
  match letters.lookup b with
  | some letter => ['\\', letter]
  | none =>
    if b < 32 ∨ 127 ≤ b then ['\\', octal (b.toNat / 64), octal (b.toNat / 8), octal b.toNat]
    else [Char.ofNat b.toNat]

/-- A text in quotes, if it needs them. -/
def quoted (l : List Char) : List Char :=
  if l.any needsQuote = true then
    '"' :: (l.flatMap String.utf8EncodeChar).flatMap escapeByte ++ ['"']
  else l

/-- A path in the header of a file, which a tab ends if there is a blank in it. -/
def label (side : String) (path : GitPath) : List Char :=
  let l := quoted (side.toList ++ path.1.toList)
  if ' ' ∈ l then l ++ ['\t'] else l

/-- **A path that git writes as it is.** -/
def Bare (path : GitPath) : Prop := ∀ c ∈ path.1.toList, needsQuote c = false ∧ c ≠ ' '

/-- A line of the content. -/
inductive Content
  | removed (text : LineText)
  | added (text : LineText)
  | noNewline

/-- The line of a line of the content. -/
def Content.line : Content → List Char
  | removed text => '-' :: text.1
  | added text => '+' :: text.1
  | noNewline => "\\ No newline at end of file".toList

/-- **An added line that looks like the header of a file.** -/
def Content.LooksLikeFile : Content → Prop
  | added text => "++ b/".toList <+: text.1 ∨ "++ /dev/null".toList <+: text.1
  | _ => False

/-- A range of lines. -/
structure Range where
  start : ℕ
  count : ℕ

/-- A range in a header; a count of one is left out. -/
def Range.text (r : Range) : List Char :=
  Nat.toDigits 10 r.start ++ if r.count = 1 then [] else ',' :: Nat.toDigits 10 r.count

/-- **A hunk**, with the heading that follows its ranges. The line numbers fit into the integers
of git. -/
structure Hunk where
  old : Range
  new : Range
  heading : LineText
  content : List Content
  new_lt : new.start + new.count < 2 ^ 63

/-- The ranges of a hunk. -/
def Hunk.ranges (h : Hunk) : List Char :=
  "@@ -".toList ++ h.old.text ++ " +".toList ++ h.new.text ++ " @@".toList

theorem Hunk.ranges_eq (h : Hunk) : h.ranges =
    "@@ -".toList ++ h.old.text ++ " +".toList ++ h.new.text ++ " @@".toList := rfl

/-- The header of a hunk: the ranges, and the heading. -/
def Hunk.header (h : Hunk) : List Char :=
  h.ranges ++ if h.heading.1 = [] then [] else ' ' :: h.heading.1

/-- The lines of a hunk. -/
def Hunk.lines (h : Hunk) : List (List Char) := h.header :: h.content.map Content.line

/-- The lines that may stand before the two paths. -/
inductive Keyword
  | oldMode | newMode | deletedFileMode | newFileMode | copyFrom | copyTo | renameFrom | renameTo
  | similarityIndex | dissimilarityIndex | index | binaryFiles

/-- What such a line begins with. -/
def Keyword.text : Keyword → List Char
  | oldMode => "old mode ".toList
  | newMode => "new mode ".toList
  | deletedFileMode => "deleted file mode ".toList
  | newFileMode => "new file mode ".toList
  | copyFrom => "copy from ".toList
  | copyTo => "copy to ".toList
  | renameFrom => "rename from ".toList
  | renameTo => "rename to ".toList
  | similarityIndex => "similarity index ".toList
  | dissimilarityIndex => "dissimilarity index ".toList
  | index => "index ".toList
  | binaryFiles => "Binary files ".toList

/-- The sides of a file diff. -/
inductive Sides
  | modified (oldPath newPath : GitPath)
  | added (newPath : GitPath)
  | deleted (oldPath : GitPath)

namespace Sides

/-- The path on the new side. -/
def newPath : Sides → Option GitPath
  | modified _ path => some path
  | added path => some path
  | deleted _ => none

/-- The two paths of the first line. -/
def names : Sides → GitPath × GitPath
  | modified oldPath newPath => (oldPath, newPath)
  | added path => (path, path)
  | deleted path => (path, path)

/-- The old path, in the header. -/
def oldLabel : Sides → List Char
  | modified oldPath _ => label "a/" oldPath
  | added _ => "/dev/null".toList
  | deleted oldPath => label "a/" oldPath

/-- The new path, in the header. -/
def newLabel (s : Sides) : List Char := s.newPath.elim "/dev/null".toList (label "b/")

end Sides

/-- **A file diff.** -/
structure FileDiff where
  sides : Sides
  extended : List (Keyword × LineText)
  hunks : List Hunk

/-- The lines of a file diff; the two paths stand only before hunks. -/
def FileDiff.lines (f : FileDiff) : List (List Char) :=
  ("diff --git ".toList ++ quoted ("a/".toList ++ f.sides.names.1.1.toList) ++ ' ' ::
      quoted ("b/".toList ++ f.sides.names.2.1.toList)) ::
    f.extended.map (fun e => e.1.text ++ e.2.1) ++
    if f.hunks = [] then []
    else ("--- ".toList ++ f.sides.oldLabel) :: ("+++ ".toList ++ f.sides.newLabel) ::
      f.hunks.flatMap Hunk.lines

/-- **The output of git** for a list of file diffs. -/
def render (files : List FileDiff) : List Char :=
  (files.flatMap FileDiff.lines).flatMap fun line => line ++ ['\n']

/-- The entry of a hunk: its new lines, and one line if there are none. -/
def Hunk.diffHunk (path : GitPath) (h : Hunk) : DiffHunk :=
  ⟨path.1, h.new.start, h.new.start + max h.new.count 1 - 1⟩

/-- **The entries of a file diff**; a deleted file has none. -/
def FileDiff.diffHunks (f : FileDiff) : List DiffHunk :=
  f.sides.newPath.elim [] fun path => f.hunks.map (Hunk.diffHunk path)

/-! ### No line contains a line feed -/

theorem newline_notMem_escapeByte (b : UInt8) : '\n' ∉ escapeByte b := by
  have hall : ∀ n < 256, '\n' ∉ escapeByte (UInt8.ofNat n) := by decide +kernel
  have := hall b.toNat b.toNat_lt
  rwa [UInt8.ofNat_toNat] at this

theorem newline_notMem_quoted (l : List Char) : '\n' ∉ quoted l := by
  unfold quoted
  by_cases h : l.any needsQuote = true
  · rw [if_pos h]
    simp only [List.cons_append, List.mem_cons, List.mem_append, List.not_mem_nil, or_false, not_or]
    refine ⟨by decide, fun hmem => ?_, by decide⟩
    obtain ⟨b, -, hb⟩ := List.mem_flatMap.mp hmem
    exact newline_notMem_escapeByte b hb
  · rw [if_neg h]
    intro hmem
    exact h (List.any_eq_true.mpr ⟨'\n', hmem, by decide⟩)

theorem newline_notMem_toDigits (n : ℕ) : '\n' ∉ Nat.toDigits 10 n := fun h =>
  absurd (Nat.isDigit_of_mem_toDigits (by decide) (by decide) h) (by decide)

theorem newline_notMem_label (side : String) (path : GitPath) :
    '\n' ∉ label side path := by
  have hquoted := newline_notMem_quoted (side.toList ++ path.1.toList)
  unfold label
  by_cases hblank : ' ' ∈ quoted (side.toList ++ path.1.toList)
  · simp only [if_pos hblank, List.mem_append, List.mem_singleton, not_or]
    exact ⟨hquoted, by decide⟩
  · simp only [if_neg hblank]
    exact hquoted

theorem Range.newline_notMem (r : Range) : '\n' ∉ r.text := by
  unfold Range.text
  by_cases h : r.count = 1
  · rw [if_pos h, List.append_nil]
    exact newline_notMem_toDigits _
  · rw [if_neg h, List.mem_append, List.mem_cons, not_or, not_or]
    exact ⟨newline_notMem_toDigits _, by decide, newline_notMem_toDigits _⟩

theorem Hunk.newline_notMem (h : Hunk) : ∀ line ∈ h.lines, '\n' ∉ line := by
  intro line hline
  rcases List.mem_cons.mp hline with rfl | hline
  · have hheading : '\n' ∉ if h.heading.1 = [] then [] else ' ' :: h.heading.1 := by
      by_cases heq : h.heading.1 = []
      · rw [if_pos heq]
        exact List.not_mem_nil
      · rw [if_neg heq, List.mem_cons, not_or]
        exact ⟨by decide, h.heading.2⟩
    simp only [Hunk.header, Hunk.ranges_eq, List.mem_append, not_or]
    exact ⟨⟨⟨⟨⟨by decide, h.old.newline_notMem⟩, by decide⟩, h.new.newline_notMem⟩, by decide⟩,
      hheading⟩
  · obtain ⟨c, -, rfl⟩ := List.mem_map.mp hline
    cases c with
    | removed text => exact List.not_mem_cons_of_ne_of_not_mem (by decide) text.2
    | added text => exact List.not_mem_cons_of_ne_of_not_mem (by decide) text.2
    | noNewline => exact of_decide_eq_true rfl

theorem Sides.newline_notMem (s : Sides) : '\n' ∉ s.oldLabel ∧ '\n' ∉ s.newLabel := by
  have hnull : '\n' ∉ "/dev/null".toList := by decide
  cases s with
  | modified oldPath newPath =>
    exact ⟨newline_notMem_label _ _, newline_notMem_label _ _⟩
  | added newPath => exact ⟨hnull, newline_notMem_label _ _⟩
  | deleted oldPath => exact ⟨newline_notMem_label _ _, hnull⟩

theorem Keyword.newline_notMem (k : Keyword) : '\n' ∉ k.text := by
  cases k <;> decide

theorem FileDiff.newline_notMem (f : FileDiff) : ∀ line ∈ f.lines, '\n' ∉ line := by
  intro line hline
  rcases List.mem_append.mp hline with hline | hline
  · rcases List.mem_cons.mp hline with rfl | hline
    · simp only [List.mem_append, List.mem_cons, not_or]
      exact ⟨⟨by decide, newline_notMem_quoted _⟩, by decide, newline_notMem_quoted _⟩
    · obtain ⟨⟨keyword, text⟩, -, rfl⟩ := List.mem_map.mp hline
      rw [List.mem_append, not_or]
      exact ⟨keyword.newline_notMem, text.2⟩
  · by_cases hnil : f.hunks = []
    · rw [if_pos hnil] at hline
      exact absurd hline List.not_mem_nil
    · rw [if_neg hnil, List.mem_cons, List.mem_cons] at hline
      rcases hline with rfl | rfl | hline
      · rw [List.mem_append, not_or]
        exact ⟨by decide, f.sides.newline_notMem.1⟩
      · rw [List.mem_append, not_or]
        exact ⟨by decide, f.sides.newline_notMem.2⟩
      · obtain ⟨h, -, hline⟩ := List.mem_flatMap.mp hline
        exact h.newline_notMem line hline

/-! ### Single lines -/

theorem dropCR_isPrefix (line : List Char) : dropCR line <+: line := by
  unfold dropCR
  by_cases h : line.getLast? = some '\r'
  · rw [if_pos h]
    exact List.dropLast_prefix line
  · rw [if_neg h]

/-- What does not end in a carriage return is not touched. -/
theorem prefix_dropCR {l : List Char} (h : l.getLast? ≠ some '\r') (r : List Char) :
    l <+: dropCR (l ++ r) := by
  unfold dropCR
  by_cases hlast : (l ++ r).getLast? = some '\r'
  · rw [if_pos hlast]
    rcases List.eq_nil_or_concat r with rfl | ⟨r, c, rfl⟩
    · rw [List.append_nil] at hlast
      exact absurd hlast h
    · rw [List.concat_eq_append, ← List.append_assoc, List.dropLast_concat]
      exact List.prefix_append _ _
  · rw [if_neg hlast]
    exact List.prefix_append _ _

/-- **A line that is not of interest**: it begins neither like the header of a file nor like
that of a hunk. -/
def Skipped (line : List Char) : Prop :=
  ¬ "+++ b/".toList <+: line ∧ ¬ "+++ /dev/null".toList <+: line ∧ ¬ "@@".toList <+: line

theorem Skipped.of_isPrefix {line line' : List Char} (h : Skipped line) (hpre : line' <+: line) :
    Skipped line' :=
  ⟨fun h' => h.1 (h'.trans hpre), fun h' => h.2.1 (h'.trans hpre), fun h' => h.2.2 (h'.trans hpre)⟩

theorem Skipped.of_head {c : Char} (hplus : c ≠ '+') (hat : c ≠ '@') (line : List Char) :
    Skipped (c :: line) :=
  ⟨fun h => hplus (List.cons_prefix_cons.mp h).1.symm,
    fun h => hplus (List.cons_prefix_cons.mp h).1.symm,
    fun h => hat (List.cons_prefix_cons.mp h).1.symm⟩

theorem readLines_skip {line : List Char} (h : Skipped line) (currentFile : List Char)
    (lines : List (List Char)) :
    readLines currentFile (line :: lines) = readLines currentFile lines := by
  obtain ⟨hfile, hnull, hhunk⟩ := h
  rw [← List.isPrefixOf_iff_prefix] at hfile hnull hhunk
  rw [readLines, if_neg hfile, if_neg hnull, if_neg fun h => hhunk h.1]

/-- Lines that are not of interest. -/
theorem readLines_skipAll {skipped : List (List Char)} (h : ∀ line ∈ skipped, Skipped line)
    (currentFile : List Char) (lines : List (List Char)) :
    readLines currentFile (skipped ++ lines) = readLines currentFile lines := by
  induction skipped with
  | nil => rfl
  | cons line skipped ih =>
    rw [List.cons_append, readLines_skip (h line List.mem_cons_self),
      ih fun line' hline' => h line' (List.mem_cons_of_mem line hline')]

theorem readLines_file (path : List Char) (currentFile : List Char) (lines : List (List Char)) :
    readLines currentFile (("+++ b/".toList ++ path) :: lines) = readLines path lines := by
  have hpre : "+++ b/".toList.isPrefixOf ("+++ b/".toList ++ path) = true :=
    List.isPrefixOf_iff_prefix.mpr (List.prefix_append _ _)
  rw [readLines, if_pos hpre]
  exact congrArg (readLines · lines) (List.drop_left' rfl)

theorem readLines_devNull (currentFile : List Char) (lines : List (List Char)) :
    readLines currentFile ("+++ /dev/null".toList :: lines) = readLines [] lines := by
  have hfile : "+++ b/".toList.isPrefixOf "+++ /dev/null".toList = false := by decide
  have hpre : "+++ /dev/null".toList.isPrefixOf "+++ /dev/null".toList = true := by decide
  rw [readLines, hfile, if_neg Bool.false_ne_true, if_pos hpre]

/-- The header of a hunk, while there is no file. -/
theorem readLines_noFile {line : List Char} (h : "@@".toList <+: line)
    (lines : List (List Char)) : readLines [] (line :: lines) = readLines [] lines := by
  obtain ⟨rest, rfl⟩ := h
  have hfile : "+++ b/".toList.isPrefixOf ("@@".toList ++ rest) = false := rfl
  have hnull : "+++ /dev/null".toList.isPrefixOf ("@@".toList ++ rest) = false := rfl
  rw [readLines, hfile, hnull, if_neg Bool.false_ne_true, if_neg Bool.false_ne_true,
    if_neg fun h => h.2 rfl]

/-- The header of a hunk, while there is a file. -/
theorem readLines_hunk {line : List Char} (h : "@@".toList <+: line) {currentFile : List Char}
    (hfile : currentFile ≠ []) (lines : List (List Char)) :
    readLines currentFile (line :: lines) =
      (parseHunkHeader line (String.ofList currentFile)).toList ++ readLines currentFile lines := by
  obtain ⟨rest, rfl⟩ := h
  have hhunk : "@@".toList.isPrefixOf ("@@".toList ++ rest) = true := rfl
  have hother : "+++ b/".toList.isPrefixOf ("@@".toList ++ rest) = false := rfl
  have hnull : "+++ /dev/null".toList.isPrefixOf ("@@".toList ++ rest) = false := rfl
  rw [readLines, hother, hnull, if_neg Bool.false_ne_true, if_neg Bool.false_ne_true,
    if_pos ⟨hhunk, hfile⟩]

/-! ### The header of a hunk -/

theorem Range.mem_text {r : Range} {c : Char} (h : c ∈ r.text) : c.isDigit = true ∨ c = ',' := by
  have hdigit : ∀ {n : ℕ}, c ∈ Nat.toDigits 10 n → c.isDigit = true :=
    fun hc => Nat.isDigit_of_mem_toDigits (by decide) (by decide) hc
  rcases List.mem_append.mp h with h | h
  · exact Or.inl (hdigit h)
  · by_cases hone : r.count = 1
    · rw [if_pos hone] at h
      exact absurd h List.not_mem_nil
    · rw [if_neg hone] at h
      exact (List.mem_cons.mp h).elim Or.inr fun h => Or.inl (hdigit h)

theorem Range.text_ne_nil (r : Range) : r.text ≠ [] :=
  List.append_ne_nil_of_left_ne_nil Nat.toDigits_ne_nil _

/-- The characters of a range are not blanks. -/
theorem Range.isSpace_text {r : Range} {c : Char} (h : c ∈ r.text) :
    GoString.isSpace c = false := by
  rcases Range.mem_text h with hc | rfl
  · have hrange := Char.isDigit_iff_toNat.mp hc
    have hzero : '0'.toNat = 48 := rfl
    have hnine : '9'.toNat = 57 := rfl
    simp only [GoString.isSpace, List.mem_cons, List.not_mem_nil, or_false, decide_eq_false_iff_not]
    omega
  · decide

theorem Range.at_notMem (r : Range) : '@' ∉ r.text := fun h =>
  (Range.mem_text h).elim (fun h => absurd h (by decide)) fun h => absurd h (by decide)

/-- The new range of a header. -/
theorem newRange_text (path : GitPath) (h : Hunk) :
    newRange path.1 ('+' :: h.new.text) = some (h.diffHunk path) := by
  have hbound := h.new_lt
  have hpre : "+".toList.isPrefixOf ('+' :: h.new.text) = true := rfl
  have hclean : GoPath.clean path.1 = path.1 := path.2.clean.clean
  have hcomma : ',' ∉ Nat.toDigits 10 h.new.start := fun hmem =>
    absurd (Nat.isDigit_of_mem_toDigits (by decide) (by decide) hmem) (by decide)
  have hstart : atoi (Nat.toDigits 10 h.new.start) = ((h.new.start : ℤ), true) :=
    atoi_toDigits (by omega)
  have hwrap : ∀ count : ℕ, h.new.start + count ≤ 2 ^ 63 →
      wrap64 ((h.new.start : ℤ) + count - 1) = h.new.start + count - 1 := fun count hcount =>
    Int.bmod_eq_of_le (by omega) (by omega)
  rw [newRange, if_pos hpre]
  by_cases hone : h.new.count = 1
  · have hsplit : splitN ",".toList 2 (('+' :: h.new.text).drop 1) =
        [Nat.toDigits 10 h.new.start] := by
      rw [List.drop_one, List.tail_cons, Range.text, if_pos hone, List.append_nil]
      exact congrArg (Option.elim · _ _) (cut_of_notMem hcomma [])
    have hend := hwrap 1 (by omega)
    simp only [hsplit, hstart, if_true, one_ne_zero, if_false, hclean, Hunk.diffHunk, hone, max_self]
    rw [Nat.cast_one] at hend ⊢
    rw [hend]
  · have hsplit : splitN ",".toList 2 (('+' :: h.new.text).drop 1) =
        [Nat.toDigits 10 h.new.start, Nat.toDigits 10 h.new.count] := by
      have hcut := cut_append hcomma [] (Nat.toDigits 10 h.new.count)
      rw [List.append_assoc, List.singleton_append] at hcut
      rw [List.drop_one, List.tail_cons, Range.text, if_neg hone]
      exact congrArg (Option.elim · _ _) hcut
    have hcount : atoi (Nat.toDigits 10 h.new.count) = ((h.new.count : ℤ), true) :=
      atoi_toDigits (by omega)
    have hmax : (if (h.new.count : ℤ) = 0 then 1 else (h.new.count : ℤ)) =
        ((max h.new.count 1 : ℕ) : ℤ) := by
      by_cases hzero : h.new.count = 0
      · rw [hzero]
        rfl
      · rw [if_neg (by exact_mod_cast hzero), max_eq_left (by omega)]
    simp only [hsplit, hstart, hcount, if_true, hclean, hmax, Hunk.diffHunk]
    rw [hwrap (max h.new.count 1) (by omega)]

/-- **The header of a hunk** is read back, whatever follows its ranges. -/
theorem parseHunkHeader_of_isPrefix (path : GitPath) (h : Hunk) {line : List Char}
    (hpre : h.ranges <+: line) :
    parseHunkHeader line path.1 = some (h.diffHunk path) := by
  obtain ⟨tail, rfl⟩ := hpre
  set ranges : List Char := '-' :: h.old.text ++ ' ' :: '+' :: h.new.text with hranges
  have hline : h.ranges ++ tail =
      [] ++ "@@".toList ++ ((' ' :: ranges ++ [' ']) ++ "@@".toList ++ tail) := by
    have hopen : "@@ -".toList = "@@".toList ++ [' ', '-'] := rfl
    have hplus : " +".toList = [' ', '+'] := rfl
    have hclose : " @@".toList = [' '] ++ "@@".toList := rfl
    simp only [Hunk.ranges_eq, hranges, hopen, hplus, hclose, List.append_assoc, List.cons_append, List.nil_append]
  have hat : '@' ∉ ' ' :: ranges ++ [' '] := by
    simp [hranges, h.old.at_notMem, h.new.at_notMem]
  -- the two markers cut the line in three
  have hsplit : splitN "@@".toList 3 ([] ++ "@@".toList ++ ((' ' :: ranges ++ [' ']) ++
      "@@".toList ++ tail)) = [[], ' ' :: ranges ++ [' '], tail] := by
    have hfirst := cut_append (s := '@') (l := []) List.not_mem_nil ['@']
      ((' ' :: ranges ++ [' ']) ++ "@@".toList ++ tail)
    have hsecond := cut_append hat ['@'] tail
    exact (congrArg (Option.elim · _ _) hfirst).trans
      (congrArg (fun m => [] :: Option.elim m _ _) hsecond)
  have hlast : ∀ c ∈ ranges.getLast?, GoString.isSpace c = false := by
    intro c hc
    have hmem : c ∈ h.new.text := by
      rw [hranges, List.getLast?_append_of_ne_nil _ (List.cons_ne_nil _ _),
        List.getLast?_cons_of_ne_nil (List.cons_ne_nil _ _),
        List.getLast?_cons_of_ne_nil h.new.text_ne_nil] at hc
      exact List.mem_of_getLast? hc
    exact Range.isSpace_text hmem
  have htrim : trimSpace (' ' :: ranges ++ [' ']) = ranges := by
    have hblank : ∀ c ∈ [' '], GoString.isSpace c = true :=
      List.all_iff_forall_prop.mp (by decide)
    refine trimSpace_between (b := [' ']) (t := [' ']) hblank hblank ?_ hlast
    rintro c ⟨rfl⟩
    rfl
  have hfields : fields ranges = ['-' :: h.old.text, '+' :: h.new.text] := by
    have hold : ∀ c ∈ '-' :: h.old.text, GoString.isSpace c = false := by
      intro c hc
      rcases List.mem_cons.mp hc with rfl | hc
      · decide
      · exact Range.isSpace_text hc
    have hnew : ∀ c ∈ '+' :: h.new.text, GoString.isSpace c = false := by
      intro c hc
      rcases List.mem_cons.mp hc with rfl | hc
      · decide
      · exact Range.isSpace_text hc
    rw [hranges, fields_append (List.cons_ne_nil _ _) hold (by decide),
      fields_of_forall (List.cons_ne_nil _ _) hnew]
  have hminus : newRange path.1 ('-' :: h.old.text) = none := rfl
  rw [hline, parseHunkHeader, hsplit]
  simp only [htrim, hfields, List.findSome?_cons, hminus, newRange_text]

/-! ### Whole diffs -/

/-- The loop over the lines, without their carriage returns. -/
def readRaw (currentFile : List Char) (lines : List (List Char)) : List DiffHunk :=
  readLines currentFile (lines.map dropCR)

/-- A line of the content before a further hunk. -/
theorem Content.skipped {c : Content} (h : ¬c.LooksLikeFile) : Skipped c.line := by
  cases c with
  | removed text => exact Skipped.of_head (by decide) (by decide) _
  | noNewline => exact Skipped.of_head (by decide) (by decide) _
  | added text =>
    rw [LooksLikeFile, not_or] at h
    exact ⟨fun hpre => h.1 (List.cons_prefix_cons.mp hpre).2,
      fun hpre => h.2 (List.cons_prefix_cons.mp hpre).2,
      fun hpre => absurd (List.cons_prefix_cons.mp hpre).1 (by decide)⟩

/-- No line of the content looks like the header of a hunk. -/
theorem Content.not_hunk (c : Content) : ¬"@@".toList <+: c.line := by
  intro hpre
  cases c <;> exact absurd (List.cons_prefix_cons.mp hpre).1 (by decide)

/-- The content of a hunk has no entries, and leaves some file. -/
theorem exists_readRaw_content (content : List Content) (currentFile : List Char) :
    ∃ currentFile', ∀ lines,
      readRaw currentFile (content.map Content.line ++ lines) = readRaw currentFile' lines := by
  induction content generalizing currentFile with
  | nil => exact ⟨currentFile, fun lines => rfl⟩
  | cons c content ih =>
    have hhunk : ¬"@@".toList <+: dropCR c.line := fun h => c.not_hunk (h.trans (dropCR_isPrefix _))
    have hstep : ∃ currentFile', ∀ lines,
        readLines currentFile (dropCR c.line :: lines) = readLines currentFile' lines := by
      by_cases hfile : "+++ b/".toList <+: dropCR c.line
      · obtain ⟨path, hpath⟩ := hfile
        exact ⟨path, fun lines => hpath ▸ readLines_file path currentFile lines⟩
      by_cases hnull : "+++ /dev/null".toList <+: dropCR c.line
      · refine ⟨[], fun lines => ?_⟩
        rw [← List.isPrefixOf_iff_prefix] at hfile hnull
        rw [readLines, if_neg hfile, if_pos hnull]
      · exact ⟨currentFile, readLines_skip ⟨hfile, hnull, hhunk⟩ currentFile⟩
    obtain ⟨currentFile₁, hfirst⟩ := hstep
    obtain ⟨currentFile₂, hrest⟩ := ih currentFile₁
    exact ⟨currentFile₂, fun lines => (hfirst _).trans (hrest lines)⟩

/-- The content of a hunk before a further one leaves the file. -/
theorem readRaw_content {content : List Content} (h : ∀ c ∈ content, ¬c.LooksLikeFile)
    (currentFile : List Char) (lines : List (List Char)) :
    readRaw currentFile (content.map Content.line ++ lines) = readRaw currentFile lines := by
  have hskip : ∀ line ∈ (content.map Content.line).map dropCR, Skipped line := by
    intro line hline
    obtain ⟨raw, hraw, rfl⟩ := List.mem_map.mp hline
    obtain ⟨c, hc, rfl⟩ := List.mem_map.mp hraw
    exact (Content.skipped (h c hc)).of_isPrefix (dropCR_isPrefix _)
  rw [readRaw, List.map_append]
  exact readLines_skipAll hskip currentFile _

/-- The entries of hunks in a file, or of those of a deleted one. -/
def entries (path : Option GitPath) (hunks : List Hunk) : List DiffHunk :=
  path.elim [] fun path => hunks.map (Hunk.diffHunk path)

/-- The file that the header leaves. -/
def fileOf (path : Option GitPath) : List Char := path.elim [] fun path => path.1.toList

theorem readRaw_header (path : Option GitPath) (h : Hunk) (lines : List (List Char)) :
    readRaw (fileOf path) (h.header :: lines) =
      entries path [h] ++ readRaw (fileOf path) lines := by
  have hpre : h.ranges <+: dropCR h.header := by
    refine prefix_dropCR ?_ _
    rw [Hunk.ranges_eq, List.getLast?_append_of_ne_nil _ (by decide)]
    decide
  have hhunk : "@@".toList <+: dropCR h.header :=
    List.IsPrefix.trans ⟨_, rfl⟩ hpre
  rw [readRaw, List.map_cons]
  cases path with
  | none => exact readLines_noFile hhunk _
  | some path =>
    have hne : path.1.toList ≠ [] := fun hnil => by
      have hcomps := path.2.comps
      rw [GoPath.parse, hnil] at hcomps
      exact hcomps rfl
    refine (readLines_hunk hhunk hne _).trans ?_
    rw [String.ofList_toList, parseHunkHeader_of_isPrefix path h hpre]
    rfl

/-- **The hunks of a file.** -/
theorem exists_readRaw_hunks (path : Option GitPath) (hunks : List Hunk)
    (h : ∀ hunk ∈ hunks.dropLast, ∀ c ∈ hunk.content, ¬c.LooksLikeFile) :
    ∃ currentFile, ∀ lines, readRaw (fileOf path) (hunks.flatMap Hunk.lines ++ lines) =
      entries path hunks ++ readRaw currentFile lines := by
  induction hunks with
  | nil => exact ⟨fileOf path, fun lines => by cases path <;> rfl⟩
  | cons hunk hunks ih =>
    have hentries : entries path (hunk :: hunks) = entries path [hunk] ++ entries path hunks := by
      cases path <;> rfl
    rcases hunks with _ | ⟨hunk', hunks⟩
    · -- the last hunk may leave any file
      obtain ⟨currentFile, hcontent⟩ := exists_readRaw_content hunk.content (fileOf path)
      refine ⟨currentFile, fun lines => ?_⟩
      rw [List.flatMap_singleton, Hunk.lines, List.cons_append, readRaw_header, hcontent]
    · rw [List.dropLast_cons_cons] at h
      obtain ⟨currentFile, hrest⟩ := ih fun hunk'' hhunk => h hunk'' (List.mem_cons_of_mem hunk hhunk)
      refine ⟨currentFile, fun lines => ?_⟩
      rw [List.flatMap_cons, List.append_assoc, Hunk.lines, List.cons_append, readRaw_header,
        readRaw_content (h hunk List.mem_cons_self), hrest, hentries, List.append_assoc]

/-- The label of a path that git writes as it is. -/
theorem label_of_bare {path : GitPath} (h : Bare path) :
    label "b/" path = "b/".toList ++ path.1.toList := by
  have hquote : ("b/".toList ++ path.1.toList).any needsQuote = false := by
    refine List.any_eq_false.mpr fun c hc => ?_
    rw [Bool.not_eq_true]
    rcases List.mem_append.mp hc with hc | hc
    · exact (List.all_iff_forall_prop.mp rfl : ∀ c ∈ "b/".toList, needsQuote c = false) c hc
    · exact (h c hc).1
  have hblank : ' ' ∉ "b/".toList ++ path.1.toList := by
    rw [List.mem_append, not_or]
    exact ⟨by decide, fun hc => (h ' ' hc).2 rfl⟩
  simp only [label, quoted, hquote, if_neg Bool.false_ne_true, if_neg hblank]

/-- The second line of a header with paths. -/
theorem readRaw_newLabel {s : Sides} (h : ∀ path ∈ s.newPath, Bare path) (currentFile : List Char)
    (lines : List (List Char)) : readRaw currentFile (("+++ ".toList ++ s.newLabel) :: lines) =
      readRaw (fileOf s.newPath) lines := by
  rw [readRaw, List.map_cons]
  unfold Sides.newLabel
  cases hpath : s.newPath with
  | none => exact readLines_devNull currentFile _
  | some path =>
    have hbare := h path hpath
    have hcr : ("+++ b/".toList ++ path.1.toList).getLast? ≠ some '\r' := by
      intro hlast
      rcases List.mem_append.mp (List.mem_of_getLast? hlast) with hc | hc
      · exact absurd hc (by decide)
      · exact absurd (hbare _ hc).1 (by decide)
    have hdrop : dropCR ("+++ b/".toList ++ path.1.toList) = "+++ b/".toList ++ path.1.toList :=
      if_neg hcr
    rw [Option.elim_some, label_of_bare hbare]
    exact (congrArg (fun line => readLines currentFile (line :: _)) hdrop).trans
      (readLines_file _ currentFile _)

/-- **One file diff.** -/
theorem exists_readRaw_file (f : FileDiff)
    (hbare : f.hunks ≠ [] → ∀ path ∈ f.sides.newPath, Bare path)
    (hcontent : ∀ hunk ∈ f.hunks.dropLast, ∀ c ∈ hunk.content, ¬c.LooksLikeFile)
    (currentFile : List Char) : ∃ currentFile', ∀ lines,
      readRaw currentFile (f.lines ++ lines) = f.diffHunks ++ readRaw currentFile' lines := by
  set first : List (List Char) :=
    ("diff --git ".toList ++ quoted ("a/".toList ++ f.sides.names.1.1.toList) ++ ' ' ::
      quoted ("b/".toList ++ f.sides.names.2.1.toList)) ::
    f.extended.map (fun e => e.1.text ++ e.2.1) with hfirst
  have hskip : ∀ line ∈ first.map dropCR, Skipped line := by
    intro line hline
    obtain ⟨raw, hraw, rfl⟩ := List.mem_map.mp hline
    refine Skipped.of_isPrefix ?_ (dropCR_isPrefix raw)
    rcases List.mem_cons.mp hraw with rfl | hraw
    · exact Skipped.of_head (by decide) (by decide) _
    · obtain ⟨⟨keyword, text⟩, -, rfl⟩ := List.mem_map.mp hraw
      cases keyword <;> exact Skipped.of_head (by decide) (by decide) _
  have hread : ∀ lines, readRaw currentFile (first ++ lines) = readRaw currentFile lines := by
    intro lines
    rw [readRaw, List.map_append]
    exact readLines_skipAll hskip currentFile _
  by_cases hnil : f.hunks = []
  · refine ⟨currentFile, fun lines => ?_⟩
    have hnone : f.diffHunks = [] := by
      unfold FileDiff.diffHunks
      rw [hnil]
      cases f.sides.newPath <;> rfl
    rw [FileDiff.lines, if_pos hnil, List.append_nil, hread, hnone, List.nil_append]
  · obtain ⟨currentFile', hhunks⟩ := exists_readRaw_hunks f.sides.newPath f.hunks hcontent
    refine ⟨currentFile', fun lines => ?_⟩
    have hold : Skipped (dropCR ("--- ".toList ++ f.sides.oldLabel)) :=
      Skipped.of_isPrefix (Skipped.of_head (by decide) (by decide) _) (dropCR_isPrefix _)
    rw [FileDiff.lines, if_neg hnil, List.append_assoc, hread, List.cons_append, List.cons_append]
    refine (readLines_skip hold currentFile _).trans ?_
    exact (readRaw_newLabel (hbare hnil) currentFile _).trans (hhunks lines)

/-- **All file diffs.** -/
theorem readRaw_files (files : List FileDiff)
    (hbare : ∀ f ∈ files, f.hunks ≠ [] → ∀ path ∈ f.sides.newPath, Bare path)
    (hcontent : ∀ f ∈ files, ∀ hunk ∈ f.hunks.dropLast, ∀ c ∈ hunk.content, ¬c.LooksLikeFile)
    (currentFile : List Char) :
    readRaw currentFile (files.flatMap FileDiff.lines) = files.flatMap FileDiff.diffHunks := by
  induction files generalizing currentFile with
  | nil => rfl
  | cons f files ih =>
    obtain ⟨currentFile', hfile⟩ := exists_readRaw_file f (hbare f List.mem_cons_self)
      (hcontent f List.mem_cons_self) currentFile
    rw [List.flatMap_cons, hfile, List.flatMap_cons,
      ih (fun f' hf' => hbare f' (List.mem_cons_of_mem f hf'))
        fun f' hf' => hcontent f' (List.mem_cons_of_mem f hf')]

/-- Without further headers there are no further entries. -/
theorem readRaw_append {rest : List (List Char)}
    (h : ∀ line ∈ rest, "@@".toList.isPrefixOf line = false) (currentFile : List Char)
    (lines : List (List Char)) :
    readRaw currentFile (lines ++ rest) = readRaw currentFile lines := by
  unfold readRaw
  have hrest : ∀ currentFile, readLines currentFile (rest.map dropCR) = [] := by
    induction rest with
    | nil => exact fun _ => rfl
    | cons line rest ih =>
      intro currentFile
      have hhunk : ¬"@@".toList.isPrefixOf (dropCR line) = true := fun hpre => by
        have hline := h line List.mem_cons_self
        rw [List.isPrefixOf_iff_prefix.mpr
          ((List.isPrefixOf_iff_prefix.mp hpre).trans (dropCR_isPrefix line))] at hline
        exact Bool.true_eq_false_eq_False hline
      have hih := ih fun line' hline' => h line' (List.mem_cons_of_mem line hline')
      have hneg : ¬("@@".toList.isPrefixOf (dropCR line) = true ∧ currentFile ≠ []) :=
        fun h => hhunk h.1
      rw [List.map_cons, readLines, hih, hih, hih, if_neg hneg, ite_self, ite_self]
  rw [List.map_append]
  induction lines generalizing currentFile with
  | nil => exact hrest currentFile
  | cons line lines ih =>
    rw [List.map_cons, List.cons_append, readLines, readLines, ih, ih, ih]

/-- The lines up to the last header of a hunk. -/
def toLastHeader (lines : List (List Char)) : List (List Char) :=
  lines.rdropWhile fun line => !"@@".toList.isPrefixOf line

/-- A line that fits into the buffer. -/
def Fits (line : List Char) : Prop := Scanner.sizeOf Char.utf8Size line < maxScanTokenSize

/-- **The hunks of a diff**: one entry for each hunk of every file that is not deleted, in
order. -/
theorem parseDiffHunks_render (files : List FileDiff)
    (hbare : ∀ f ∈ files, f.hunks ≠ [] → ∀ path ∈ f.sides.newPath, Bare path)
    (hcontent : ∀ f ∈ files, ∀ hunk ∈ f.hunks.dropLast, ∀ c ∈ hunk.content, ¬c.LooksLikeFile)
    (hfits : ∀ line ∈ toLastHeader (files.flatMap FileDiff.lines), Fits line) :
    parseDiffHunks (render files) = files.flatMap FileDiff.diffHunks := by
  have hnewline : ∀ line ∈ files.flatMap FileDiff.lines, '\n' ∉ line := by
    intro line hline
    obtain ⟨f, -, hline⟩ := List.mem_flatMap.mp hline
    exact f.newline_notMem line hline
  set lines := files.flatMap FileDiff.lines with hlines
  set fits : List Char → Bool :=
    fun line => decide (Scanner.sizeOf Char.utf8Size line < maxScanTokenSize) with hfitsDef
  have hlast : ∀ line ∈ lines.rtakeWhile (fun line => !"@@".toList.isPrefixOf line),
      "@@".toList.isPrefixOf line = false := fun line hline => by
    simpa using List.mem_rtakeWhile_imp hline
  have htake : lines.takeWhile fits = toLastHeader lines ++
      (lines.rtakeWhile fun line => !"@@".toList.isPrefixOf line).takeWhile fits := by
    conv_lhs => rw [← List.rdropWhile_append_rtakeWhile (p := fun line => !"@@".toList.isPrefixOf line)
      (l := lines)]
    exact List.takeWhile_append_of_pos fun line hline => decide_eq_true (hfits line hline)
  calc parseDiffHunks (render files)
      = readRaw [] (lines.takeWhile fits) := by
        rw [parseDiffHunks, render, Scanner.tokens_flatMap hnewline, readRaw]
    _ = readRaw [] (toLastHeader lines) := by
        rw [htake]
        exact readRaw_append (fun line hline => hlast line ((List.takeWhile_prefix _).subset hline))
          [] _
    _ = readRaw [] lines := by
        conv_rhs => rw [← List.rdropWhile_append_rtakeWhile
          (p := fun line => !"@@".toList.isPrefixOf line) (l := lines)]
        exact (readRaw_append hlast [] _).symm
    _ = files.flatMap FileDiff.diffHunks := readRaw_files files hbare hcontent []

/-! ### A change and a deletion -/

instance instDecidableBare (path : GitPath) : Decidable (Bare path) :=
  decidable_of_iff (path.1.toList.all fun c => needsQuote c = false ∧ c ≠ ' ')
    List.all_iff_forall_prop

instance instDecidableLooksLikeFile : (c : Content) → Decidable c.LooksLikeFile
  | .removed _ => .isFalse id
  | .added text => inferInstanceAs
    (Decidable ("++ b/".toList <+: text.1 ∨ "++ /dev/null".toList <+: text.1))
  | .noNewline => .isFalse id

instance instDecidableFits (line : List Char) : Decidable (Fits line) :=
  inferInstanceAs (Decidable (Scanner.sizeOf Char.utf8Size line < maxScanTokenSize))

namespace Deletion

/-- The text of a line. -/
def text (l : String) (h : '\n' ∉ l.toList := by decide) : LineText := ⟨l.toList, h⟩

/-- The file that is changed. -/
def kept : GitPath := ⟨"pkg/a.go", by decide⟩

/-- A file in which a line is changed, and another one is taken out. -/
def changed : FileDiff :=
  { sides := .modified kept kept
    extended := [(.index, text "1f3c..9b22 100644")]
    hunks :=
      [{ old := ⟨3, 1⟩, new := ⟨3, 1⟩, heading := text "func F()"
         content := [.removed (text "@@ x"), .added (text "@@ y")], new_lt := by decide },
       { old := ⟨8, 1⟩, new := ⟨7, 0⟩, heading := text ""
         content := [.removed (text "++ b/pkg/b.go")], new_lt := by decide }] }

/-- A file that is deleted. -/
def gone : FileDiff :=
  { sides := .deleted ⟨"pkg/b.go", by decide⟩
    extended := [(.deletedFileMode, text "100644"), (.index, text "9b22..0000")]
    hunks :=
      [{ old := ⟨1, 1⟩, new := ⟨0, 0⟩, heading := text ""
         content := [.removed (text "package pkg")], new_lt := by decide }] }

/-- The hunks of the changed file. -/
theorem parseDiffHunks_render_changed :
    parseDiffHunks (render [changed, gone]) = [⟨"pkg/a.go", 3, 3⟩, ⟨"pkg/a.go", 7, 7⟩] :=
  (parseDiffHunks_render [changed, gone] (by decide +kernel) (by decide +kernel)
    (by decide +kernel)).trans (by decide +kernel)

/-- **The header of the deleted file** has no entry. -/
theorem parseDiffHunks_gone :
    (parseDiffHunks (render [gone])).length ≠ ([gone].flatMap FileDiff.hunks).length := by
  decide +kernel

end Deletion

end Analysis

end Gortex
