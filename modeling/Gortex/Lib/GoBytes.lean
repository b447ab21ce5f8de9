import Mathlib.Data.List.Basic
import Mathlib.Logic.Function.Basic

/-!
# Go strings as bytes

What a Go program does to the contents of a file: a string that holds any bytes is split at its
newlines, some of its lines are joined again, and white space is found at the beginning of a
line. A text is what stands before some of its lines, these lines, and what stands after them
(`GoBytes.unlines_between`).
-/

namespace GoBytes

/-- The bytes of a file. -/
abbrev Bytes := List UInt8

/-- The byte at the end of a line. -/
def newline : UInt8 := 10

/-- The bytes of a literal. -/
def ofString (s : String) : Bytes := s.toUTF8.data.toList

/-! ### White space -/

/-- How many bytes the white space character at the beginning has; zero when there is none. -/
def spaceLen : Bytes → ℕ
  | 0xE2 :: 0x80 :: b :: _ => if b ≤ 0x8A ∧ 0x80 ≤ b ∨ b ∈ [0xA8, 0xA9, 0xAF] then 3 else 0
  | 0xE1 :: 0x9A :: 0x80 :: _ => 3
  | 0xE2 :: 0x81 :: 0x9F :: _ => 3
  | 0xE3 :: 0x80 :: 0x80 :: _ => 3
  | 0xC2 :: b :: _ => if b ∈ [0x85, 0xA0] then 2 else 0
  | b :: _ => if b ∈ [9, 10, 11, 12, 13, 32] then 1 else 0
  | [] => 0

/-- Leave out some bytes, and all white space after them. -/
def trimFrom : ℕ → Bytes → Bytes
  | _, [] => []
  | 0, b :: l =>
    match spaceLen (b :: l) with
    | 0 => b :: l
    | n + 1 => trimFrom n l
  | n + 1, _ :: l => trimFrom n l

/-- `strings.TrimLeftFunc(s, unicode.IsSpace)`: how `strings.TrimSpace` begins. Where what is left
begins with something, or whether anything is left, does not depend on the other end. -/
def trimLeft (s : Bytes) : Bytes := trimFrom 0 s

/-- How many bytes the white space character at the end has, of a string that is given from its
end; zero when there is none. -/
def spaceLenBack : Bytes → ℕ
  | [] => 0
  | b :: l =>
    if b ∈ [9, 10, 11, 12, 13, 32] then 1
    else match l with
      | 0xC2 :: _ => if b ∈ [0x85, 0xA0] then 2 else 0
      | 0x80 :: 0xE2 :: _ => if b ≤ 0x8A ∧ 0x80 ≤ b ∨ b ∈ [0xA8, 0xA9, 0xAF] then 3 else 0
      | 0x81 :: 0xE2 :: _ => if b = 0x9F then 3 else 0
      | 0x9A :: 0xE1 :: _ => if b = 0x80 then 3 else 0
      | 0x80 :: 0xE3 :: _ => if b = 0x80 then 3 else 0
      | _ => 0

/-- `trimFrom` at the other end: the string is given from its end. -/
def trimBackFrom : ℕ → Bytes → Bytes
  | _, [] => []
  | 0, b :: l =>
    match spaceLenBack (b :: l) with
    | 0 => b :: l
    | n + 1 => trimBackFrom n l
  | n + 1, _ :: l => trimBackFrom n l

/-- `strings.TrimRightFunc(s, unicode.IsSpace)`. -/
def trimRight (s : Bytes) : Bytes := (trimBackFrom 0 s.reverse).reverse

/-- `strings.TrimSpace`. -/
def trimSpace (s : Bytes) : Bytes := trimRight (trimLeft s)

/-- An ASCII character that is not white space. -/
def Visible (b : UInt8) : Prop := b < 0x80 ∧ b ∉ [9, 10, 11, 12, 13, 32]

/-- White space of one byte. -/
def Blank (b : UInt8) : Prop := b ∈ [9, 10, 11, 12, 13, 32]

instance (b : UInt8) : Decidable (Visible b) := inferInstanceAs (Decidable (_ ∧ _))

instance (b : UInt8) : Decidable (Blank b) := inferInstanceAs (Decidable (b ∈ _))

theorem spaceLen_of_visible {b : UInt8} (h : Visible b) (l : Bytes) : spaceLen (b :: l) = 0 := by
  obtain ⟨hlt, hmem⟩ := h
  rw [spaceLen.eq_def]
  split <;> first | rfl | simp_all

theorem spaceLen_of_blank {b : UInt8} (h : Blank b) (l : Bytes) : spaceLen (b :: l) = 1 := by
  simp only [Blank, List.mem_cons, List.not_mem_nil, or_false] at h
  rcases h with rfl | rfl | rfl | rfl | rfl | rfl <;> rfl

theorem trimLeft_visible {l : Bytes} (h : ∀ b ∈ l.head?, Visible b) : trimLeft l = l := by
  cases l with
  | nil => rfl
  | cons b l => rw [trimLeft, trimFrom, spaceLen_of_visible (h b rfl)]

theorem trimLeft_blank {b : UInt8} (h : Blank b) (l : Bytes) : trimLeft (b :: l) = trimLeft l := by
  rw [trimLeft, trimFrom, spaceLen_of_blank h]
  rfl

theorem spaceLenBack_of_visible {b : UInt8} (h : Visible b) (l : Bytes) :
    spaceLenBack (b :: l) = 0 := by
  obtain ⟨hlt, hmem⟩ := h
  have hne : ∀ c : UInt8, 0x80 ≤ c → b ≠ c := fun c hc heq => absurd (heq ▸ hlt) (by grind)
  have hle : ¬0x80 ≤ b := by grind
  simp only [spaceLenBack.eq_def, if_neg hmem]
  split <;> simp [hne, hle]

theorem spaceLenBack_of_blank {b : UInt8} (h : Blank b) (l : Bytes) :
    spaceLenBack (b :: l) = 1 := by
  have hmem : b ∈ [9, 10, 11, 12, 13, 32] := h
  simp only [spaceLenBack.eq_def, if_pos hmem]

theorem trimRight_visible {l : Bytes} (h : ∀ b ∈ l.getLast?, Visible b) : trimRight l = l := by
  rcases List.eq_nil_or_concat l with rfl | ⟨l, b, rfl⟩
  · rfl
  · have hb : Visible b := h b (by simp)
    rw [List.concat_eq_append, trimRight, List.reverse_append, List.reverse_singleton,
      List.singleton_append, trimBackFrom, spaceLenBack_of_visible hb]
    simp

theorem trimRight_blank {b : UInt8} (h : Blank b) (l : Bytes) :
    trimRight (l ++ [b]) = trimRight l := by
  rw [trimRight, List.reverse_append, List.reverse_singleton, List.singleton_append, trimBackFrom,
    spaceLenBack_of_blank h]
  rfl

/-! ### Lines -/

/-- `strings.Split(s, "\n")`. -/
def lines (s : Bytes) : List Bytes := s.splitOn newline

/-- `strings.Join(lines, "\n")`. -/
def unlines (ls : List Bytes) : Bytes := [newline].intercalate ls

/-- Some lines, with a newline after each. -/
def terminated (ls : List Bytes) : Bytes := ls.flatMap fun l => l ++ [newline]

/-- Some lines, with a newline before each. -/
def preceded (ls : List Bytes) : Bytes := ls.flatMap fun l => newline :: l

@[simp] theorem unlines_lines (s : Bytes) : unlines (lines s) = s :=
  List.intercalate_splitOn newline

theorem terminated_cons (l : Bytes) (ls : List Bytes) :
    terminated (l :: ls) = l ++ [newline] ++ terminated ls := rfl

theorem preceded_cons (l : Bytes) (ls : List Bytes) :
    preceded (l :: ls) = [newline] ++ l ++ preceded ls := rfl

theorem unlines_cons (l : Bytes) (ls : List Bytes) : unlines (l :: ls) = l ++ preceded ls := by
  induction ls generalizing l with
  | nil => rw [unlines, List.intercalate_singleton, preceded, List.flatMap_nil, List.append_nil]
  | cons l' ls ih =>
    have hjoin : unlines (l :: l' :: ls) = l ++ [newline] ++ unlines (l' :: ls) :=
      List.intercalate_cons_cons
    rw [hjoin, ih, preceded_cons]
    simp only [List.append_assoc]

/-- **Before some lines.** -/
theorem unlines_append_left (pre : List Bytes) {ls : List Bytes} (h : ls ≠ []) :
    unlines (pre ++ ls) = terminated pre ++ unlines ls := by
  induction pre with
  | nil => rfl
  | cons l pre ih =>
    have hjoin : unlines (l :: (pre ++ ls)) = l ++ [newline] ++ unlines (pre ++ ls) :=
      List.intercalate_cons_of_ne_nil (List.append_ne_nil_of_right_ne_nil _ h)
    rw [List.cons_append, hjoin, ih, terminated_cons]
    simp only [List.append_assoc]

/-- **After some lines.** -/
theorem unlines_append_right {ls : List Bytes} (h : ls ≠ []) (post : List Bytes) :
    unlines (ls ++ post) = unlines ls ++ preceded post := by
  obtain ⟨l, ls, rfl⟩ := List.exists_cons_of_ne_nil h
  rw [List.cons_append, unlines_cons, unlines_cons, preceded, List.flatMap_append,
    List.append_assoc]
  rfl

/-- **A text around some of its lines.** -/
theorem unlines_between (pre : List Bytes) {ls : List Bytes} (h : ls ≠ []) (post : List Bytes) :
    unlines (pre ++ ls ++ post) = terminated pre ++ unlines ls ++ preceded post := by
  rw [unlines_append_right (List.append_ne_nil_of_right_ne_nil _ h), unlines_append_left _ h]

/-! ### Some of the lines -/

section Between

variable {s : Bytes} {lo mid hi : ℕ}

/-- `strings.Join(strings.Split(s, "\n")[lo:hi], "\n")`. -/
def linesBetween (s : Bytes) (lo hi : ℕ) : Bytes := unlines (((lines s).take hi).drop lo)

/-- **A text around a range of its lines.** -/
theorem eq_linesBetween (hlo : lo < hi) (hhi : hi ≤ (lines s).length) :
    s = terminated ((lines s).take lo) ++ linesBetween s lo hi ++
      preceded ((lines s).drop hi) := by
  have hne : ((lines s).take hi).drop lo ≠ [] := by
    rw [ne_eq, List.drop_eq_nil_iff, List.length_take]
    omega
  have hpre : ((lines s).take hi).take lo = (lines s).take lo := by
    rw [List.take_take, Nat.min_eq_left (Nat.le_of_lt hlo)]
  rw [linesBetween, ← unlines_between _ hne, ← hpre, List.take_append_drop,
    List.take_append_drop, unlines_lines]

/-- **More lines before a range.** -/
theorem linesBetween_eq (hlo : lo ≤ mid) (hmid : mid < hi) (hhi : hi ≤ (lines s).length) :
    linesBetween s lo hi =
      terminated (((lines s).take mid).drop lo) ++ linesBetween s mid hi := by
  have hne : ((lines s).take hi).drop mid ≠ [] := by
    rw [ne_eq, List.drop_eq_nil_iff, List.length_take]
    omega
  rw [linesBetween, linesBetween, ← unlines_append_left _ hne]
  congr 1
  have hpre : (lines s).take mid = ((lines s).take hi).take mid := by
    rw [List.take_take, Nat.min_eq_left (Nat.le_of_lt hmid)]
  conv_lhs => rw [← List.take_append_drop mid ((lines s).take hi), ← hpre]
  rw [List.drop_append_of_le_length (by rw [List.length_take]; omega)]

theorem terminated_append (ls ls' : List Bytes) :
    terminated (ls ++ ls') = terminated ls ++ terminated ls' := List.flatMap_append

end Between

/-! ### Files -/

/-- How `os.WriteFile` ends: the file has the data; or there is an error, and the file has what
was left or written of it until then. -/
inductive WriteResult
  | ok
  | failed (err : String) (left : Option Bytes)
deriving DecidableEq

/-- The files by their paths. -/
abbrev Files := String → Option Bytes

/-- `os.ReadFile`. Reading a file that is there can fail, too. -/
def readFile (readErr : Option String) (files : Files) (path : String) : Except String Bytes :=
  match readErr, files path with
  | some err, _ => .error err
  | none, none => .error ("open " ++ path ++ ": no such file or directory")
  | none, some content => .ok content

/-- `os.WriteFile`: the error, if there is one, and the files. -/
def writeFile (write : WriteResult) (files : Files) (path : String) (data : Bytes) :
    Option String × Files :=
  match write with
  | .ok => (none, Function.update files path (some data))
  | .failed err left => (some err, Function.update files path left)

theorem readFile_eq_ok {readErr : Option String} {files : Files} {path : String} {data : Bytes} :
    readFile readErr files path = .ok data ↔ readErr = none ∧ files path = some data := by
  cases readErr with
  | some err => exact iff_of_false nofun fun h => Option.some_ne_none err h.1
  | none =>
    cases hfile : files path with
    | none => simp only [readFile, hfile, reduceCtorEq, and_false]
    | some content => simp only [readFile, hfile, Except.ok.injEq, Option.some.injEq, true_and]

end GoBytes
