import Mathlib.Data.List.TakeWhile
import Mathlib.Tactic.IntervalCases
import Mathlib.Tactic.Push
import Gortex.Lib.Scanner

/-!
# The output of `git diff --name-status -z`

`parseDiffNameStatus` of `internal/indexer/git_watcher.go` reads what git writes of a list of
changes: a status and a path, or a status with a score and two paths, each field ended by a
NUL. What it reads back is the list, provided that every path fits into the buffer of four
megabytes that the source gives its scanner; otherwise the list is cut off at the first change
with a path that does not (`Gortex.Indexer.parse_render_iff`).
-/

namespace Gortex

namespace Indexer

/-- A byte string. -/
abbrev Bytes := List UInt8

/-! ### The model -/

/-- A change, as the parser returns it. The old path is that of a rename or a copy. -/
structure GitChange where
  status : UInt8
  path : Bytes
  oldPath : Bytes := []
deriving DecidableEq

/-- The letters `R` and `C`. -/
def isRenameOrCopy (letter : UInt8) : Bool := letter = 82 ∨ letter = 67

/-- The loop over the fields. -/
def readFields : List Bytes → List GitChange
  | [] => []
  | [] :: fields => readFields fields
  | (letter :: _) :: fields =>
    match fields with
    | [] => []
    | path :: fields =>
      if isRenameOrCopy letter = true then
        match fields with
        | [] => []
        | newPath :: fields =>
          { status := letter, path := newPath, oldPath := path } :: readFields fields
      else { status := letter, path := path } :: readFields fields

/-- The most that the buffer of the scanner grows to. -/
def maxTokenSize : ℕ := 4 * 1024 * 1024

/-- **parseDiffNameStatus.** -/
def parseDiffNameStatus (out : Bytes) : List GitChange :=
  readFields (Scanner.tokens 0 (fun _ => 1) maxTokenSize out)

/-! ### What git writes -/

/-- The changes of one path. -/
inductive OnePath
  | added
  | modified
  | deleted
  | typeChanged

/-- The changes of two paths. -/
inductive TwoPaths
  | renamed
  | copied

/-- The letter of a change: `A`, `M`, `D` or `T`. -/
def OnePath.letter : OnePath → UInt8
  | added => 65
  | modified => 77
  | deleted => 68
  | typeChanged => 84

/-- The letter of a change: `R` or `C`. -/
def TwoPaths.letter : TwoPaths → UInt8
  | renamed => 82
  | copied => 67

/-- **A change**, with the similarity of the two paths in percent. -/
inductive Change
  | one (kind : OnePath) (path : Bytes)
  | two (kind : TwoPaths) (similarity : Fin 101) (oldPath newPath : Bytes)

namespace Change

/-- The paths of a change. -/
def paths : Change → List Bytes
  | one _ path => [path]
  | two _ _ oldPath newPath => [oldPath, newPath]

/-- The status: the letter, and the similarity in three digits. -/
def status : Change → Bytes
  | one kind _ => [kind.letter]
  | two kind similarity _ _ =>
    let digit (n : ℕ) : UInt8 := 48 + UInt8.ofNat (n % 10)
    [kind.letter, digit (similarity / 100), digit (similarity / 10), digit similarity]

/-- The fields of a change. -/
def fields (c : Change) : List Bytes := c.status :: c.paths

/-- The record of a change. -/
def render (c : Change) : Bytes := c.fields.flatMap fun field => field ++ [0]

/-- What is to be read back. -/
def gitChange : Change → GitChange
  | one kind path => { status := kind.letter, path := path }
  | two kind _ oldPath newPath => { status := kind.letter, path := newPath, oldPath := oldPath }

/-- A path of git: nonempty, and without a NUL. -/
def WellFormed (c : Change) : Prop := ∀ path ∈ c.paths, path ≠ [] ∧ 0 ∉ path

/-- Every path fits into the buffer. -/
def Fits (c : Change) : Prop := ∀ path ∈ c.paths, path.length < maxTokenSize

/-- The output of git for a list of changes. -/
def renderAll (changes : List Change) : Bytes := changes.flatMap render

/-! ### Reading it back -/

theorem zero_notMem_status (c : Change) : (0 : UInt8) ∉ c.status := by
  have hdigit : ∀ n : ℕ, (0 : UInt8) ≠ 48 + UInt8.ofNat (n % 10) := by
    intro n
    have hlt : n % 10 < 10 := Nat.mod_lt n (by decide)
    interval_cases n % 10 <;> decide
  cases c with
  | one kind path => cases kind <;> simp [status, OnePath.letter]
  | two kind similarity oldPath newPath =>
    have hletter : (0 : UInt8) ≠ kind.letter := by cases kind <;> decide
    simp only [status, List.mem_cons, List.not_mem_nil, not_or, or_false]
    exact ⟨hletter, hdigit _, hdigit _, hdigit _⟩

theorem sizeOf_eq_length (l : Bytes) : Scanner.sizeOf (fun _ => 1) l = l.length := by
  simp [Scanner.sizeOf]

theorem status_length (c : Change) : c.status.length < maxTokenSize := by
  cases c <;> simp [status, maxTokenSize]

/-- The fields of one change, read before others. -/
theorem readFields_append (c : Change) (fields : List Bytes) :
    readFields (c.fields ++ fields) = c.gitChange :: readFields fields := by
  cases c with
  | one kind path =>
    have hletter : isRenameOrCopy kind.letter = false := by cases kind <;> decide
    change readFields ([kind.letter] :: path :: fields) = _
    conv_lhs => unfold readFields
    simp only [hletter, Bool.false_eq_true, if_false, gitChange]
  | two kind similarity oldPath newPath =>
    have hletter : isRenameOrCopy kind.letter = true := by cases kind <;> decide
    change readFields ((two kind similarity oldPath newPath).status :: oldPath :: newPath :: fields)
      = _
    conv_lhs => unfold readFields status
    simp only [hletter, if_true, gitChange]

/-- A change of which some fields are missing is not read. -/
theorem readFields_take (c : Change) {n : ℕ} (hn : n < c.fields.length) :
    readFields (c.fields.take n) = [] := by
  cases c with
  | one kind path =>
    have hlen : n < 2 := hn
    interval_cases n <;> simp [Change.fields, status, readFields]
  | two kind similarity oldPath newPath =>
    have hlen : n < 3 := hn
    have hletter : isRenameOrCopy kind.letter = true := by cases kind <;> decide
    interval_cases n <;> simp [Change.fields, status, paths, readFields, hletter]

instance instDecidablePredFits : DecidablePred Fits := fun c =>
  inferInstanceAs (Decidable (∀ path ∈ c.paths, path.length < maxTokenSize))

/-- No field of a change contains a NUL. -/
theorem WellFormed.zero_notMem {c : Change} (h : c.WellFormed) :
    ∀ field ∈ c.fields, (0 : UInt8) ∉ field := by
  intro field hfield
  rcases List.mem_cons.mp hfield with rfl | hfield
  · exact c.zero_notMem_status
  · exact (h field hfield).2

/-- **What is read of the output of git**: the changes before the first one that does not fit. -/
theorem parse_renderAll {changes : List Change} (h : ∀ c ∈ changes, c.WellFormed) :
    parseDiffNameStatus (renderAll changes) =
      (changes.takeWhile fun c => decide c.Fits).map gitChange := by
  unfold parseDiffNameStatus
  induction changes with
  | nil => rw [renderAll, List.flatMap_nil, Scanner.tokens_nil, readFields]; rfl
  | cons c changes ih =>
    have hzero := (h c List.mem_cons_self).zero_notMem
    have hih := ih fun c' hc' => h c' (List.mem_cons_of_mem c hc')
    rw [renderAll, List.flatMap_cons]
    by_cases hfits : c.Fits
    · have hfields : ∀ field ∈ c.fields, (0 : UInt8) ∉ field ∧
          Scanner.sizeOf (fun _ => 1) field < maxTokenSize := by
        intro field hfield
        refine ⟨hzero field hfield, ?_⟩
        rw [sizeOf_eq_length]
        rcases List.mem_cons.mp hfield with rfl | hfield
        · exact c.status_length
        · exact hfits field hfield
      rw [render, Scanner.tokens_fields hfields, readFields_append,
        List.takeWhile_cons, if_pos (decide_eq_true hfits), List.map_cons]
      exact congrArg (c.gitChange :: ·) hih
    · have hlong : ∃ field ∈ c.fields, maxTokenSize ≤ Scanner.sizeOf (fun _ => 1) field := by
        unfold Fits at hfits
        push Not at hfits
        obtain ⟨path, hpath, hle⟩ := hfits
        exact ⟨path, List.mem_cons_of_mem _ hpath, hle.trans_eq (sizeOf_eq_length path).symm⟩
      obtain ⟨n, hn, heq⟩ := Scanner.exists_tokens_take hzero hlong (changes.flatMap render)
      rw [render, heq, readFields_take c hn, List.takeWhile_cons, if_neg (by simpa using hfits)]
      rfl

/-- **The round trip**: the list is read back exactly if every path is shorter than the buffer
may grow. -/
theorem parse_render_iff (changes : List Change) (h : ∀ c ∈ changes, c.WellFormed) :
    parseDiffNameStatus (renderAll changes) = changes.map gitChange ↔ ∀ c ∈ changes, c.Fits := by
  rw [parse_renderAll h]
  constructor
  · intro heq c hc
    have hlen := congrArg List.length heq
    rw [List.length_map, List.length_map] at hlen
    have hall : changes.takeWhile (fun c => decide c.Fits) = changes :=
      (List.takeWhile_prefix _).eq_of_length hlen
    have := List.takeWhile_eq_self_iff.mp hall c hc
    simpa using this
  · intro hall
    rw [List.takeWhile_eq_self_iff.mpr fun c hc => decide_eq_true (hall c hc)]

/-- A rename, and a deletion. -/
theorem parse_render_iff_rename :
    parseDiffNameStatus (renderAll [two .renamed 87 [97] [98], one .deleted [99]]) =
        [{ status := 82, path := [98], oldPath := [97] }, { status := 68, path := [99] }] ↔
      ∀ c ∈ [two .renamed 87 [97] [98], one .deleted [99]], c.Fits :=
  parse_render_iff [two .renamed 87 [97] [98], one .deleted [99]] (by
    unfold WellFormed
    decide)

/-- **A path of four megabytes** is not read back. -/
theorem parse_render_long :
    (one .modified (List.replicate maxTokenSize 97)).WellFormed ∧
      parseDiffNameStatus (renderAll [one .modified (List.replicate maxTokenSize 97)]) ≠
        [one .modified (List.replicate maxTokenSize 97)].map gitChange := by
  have hwell : (one .modified (List.replicate maxTokenSize 97)).WellFormed := by
    intro path hpath
    obtain rfl := List.mem_singleton.mp hpath
    refine ⟨List.ne_nil_of_length_pos ?_, fun hzero => ?_⟩
    · rw [List.length_replicate]
      exact Nat.succ_pos _
    · exact absurd (List.eq_of_mem_replicate hzero) (by decide)
  have hlong : ¬(one .modified (List.replicate maxTokenSize 97)).Fits := fun h =>
    absurd (h _ (List.mem_singleton_self _)) (by rw [List.length_replicate]; exact lt_irrefl _)
  refine ⟨hwell, ?_⟩
  rw [parse_renderAll fun c hc => List.mem_singleton.mp hc ▸ hwell,
    List.takeWhile_cons, if_neg (by simpa using hlong)]
  exact List.cons_ne_nil _ _ |>.symm

end Change

end Indexer

end Gortex
