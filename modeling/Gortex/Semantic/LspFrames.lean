import Gortex.Lib.GoBytes
import Gortex.Lib.GoText
import Gortex.Lib.Stream

/-!
# The frames of the language server protocol

What `send` writes in front of a message and how `readResponses` finds the messages in what it
reads (`internal/semantic/lsp/client.go`): a header of lines, one of them the length of the body
in bytes, an empty line, and the body. The loop of `readResponses` is a reader of a stream
(`Lsp.frames`); a frame with any other header lines is read whole (`Lsp.readBody_frame`), among
them those that `send` writes (`Lsp.next_frame`).

A length that does not fit into the memory ends the program, which is not modelled: here the
reader waits for such a body.
-/

namespace Gortex.Semantic.Lsp

open GoBytes

/-- ASCII text as bytes. -/
def ascii (l : List Char) : Bytes := l.map fun c => UInt8.ofNat c.toNat

/-- `Content-Length:`. -/
def lengthKey : Bytes := ascii "Content-Length:".toList

/-! ### Reading -/

/-- `strconv.Atoi`, without the error. -/
def atoi (val : Bytes) : ℤ := (GoText.atoi (val.map fun b => Char.ofNat b.toNat)).1

/-- The length of the body after one line of the header. -/
def headerLine (contentLength : ℤ) (line : Bytes) : ℤ :=
  if lengthKey.isPrefixOf line then atoi (trimSpace (line.drop lengthKey.length))
  else contentLength

/-- The loop over the lines of a header, at some place in a line: the length of the body, and
what comes after the header. -/
def readHeader (contentLength : ℤ) (line : Bytes) : Bytes → Option (ℤ × Bytes)
  | [] => none
  | b :: s =>
    if b = newline then
      if trimSpace (line ++ [b]) = [] then some (contentLength, s)
      else readHeader (headerLine contentLength (trimSpace (line ++ [b]))) [] s
    else readHeader contentLength (line ++ [b]) s

/-- One round of **readResponses**: the body of the first frame, or nothing for a header without
a length, and what comes after it. -/
def readBody (s : Bytes) : Option (Option Bytes × Bytes) :=
  match readHeader (-1) [] s with
  | none => none
  | some (contentLength, s) =>
    if contentLength < 0 then some (none, s)
    else if contentLength.toNat ≤ s.length then
      some (some (s.take contentLength.toNat), s.drop contentLength.toNat)
    else none

theorem readHeader_append {cl cl' : ℤ} {line s r : Bytes} (t : Bytes)
    (h : readHeader cl line s = some (cl', r)) :
    readHeader cl line (s ++ t) = some (cl', r ++ t) := by
  induction s generalizing cl line with
  | nil => cases h
  | cons b s ih =>
    rw [readHeader] at h
    rw [List.cons_append, readHeader]
    split at h
    · rename_i hb
      rw [if_pos hb]
      split at h
      · rename_i hend
        cases h
        rw [if_pos hend]
      · rename_i hend
        rw [if_neg hend]
        exact ih h
    · rename_i hb
      rw [if_neg hb]
      exact ih h

theorem length_readHeader {cl cl' : ℤ} {line s r : Bytes}
    (h : readHeader cl line s = some (cl', r)) : r.length < s.length := by
  induction s generalizing cl line with
  | nil => cases h
  | cons b s ih =>
    rw [List.length_cons]
    rw [readHeader] at h
    split at h
    · split at h
      · cases h
        exact Nat.lt_succ_self _
      · exact (ih h).trans (Nat.lt_succ_self _)
    · exact (ih h).trans (Nat.lt_succ_self _)

theorem readBody_append {s r : Bytes} {b : Option Bytes} (t : Bytes)
    (h : readBody s = some (b, r)) : readBody (s ++ t) = some (b, r ++ t) := by
  rw [readBody] at h ⊢
  cases hh : readHeader (-1) [] s with
  | none =>
    rw [hh] at h
    cases h
  | some p =>
    obtain ⟨cl, r'⟩ := p
    simp only [hh] at h
    simp only [readHeader_append t hh]
    split at h
    · rename_i hneg
      cases h
      rw [if_pos hneg]
    · rename_i hneg
      rw [if_neg hneg]
      split at h
      · rename_i hle
        cases h
        rw [if_pos (hle.trans (by simp)), List.take_append_of_le_length hle,
          List.drop_append_of_le_length hle]
      · cases h

theorem length_readBody {s r : Bytes} {b : Option Bytes} (h : readBody s = some (b, r)) :
    r.length < s.length := by
  rw [readBody] at h
  cases hh : readHeader (-1) [] s with
  | none =>
    rw [hh] at h
    cases h
  | some p =>
    obtain ⟨cl, r'⟩ := p
    have hlt := length_readHeader hh
    simp only [hh] at h
    split at h
    · cases h
      exact hlt
    · split at h
      · cases h
        rw [List.length_drop]
        omega
      · cases h

/-- **The reader of frames.** -/
def frames : Stream.Reader UInt8 (Option Bytes) := ⟨readBody, readBody_append, length_readBody⟩

/-! ### Frames -/

/-- **A frame**: the lines of its header, and its body. -/
structure Frame where
  lines : List Bytes
  body : Bytes
  newline_notMem : ∀ l ∈ lines, newline ∉ l
  line_ne : ∀ l ∈ lines, trimSpace (l ++ [newline]) ≠ []
  length_eq :
    (lines.map fun l => trimSpace (l ++ [newline])).foldl headerLine (-1) = (body.length : ℤ)

/-- The bytes of a frame. -/
def Frame.bytes (f : Frame) : Bytes := terminated f.lines ++ ascii ['\r', '\n'] ++ f.body

/-- A line of a header, from some place in it. -/
theorem readHeader_line {l : Bytes} (hl : newline ∉ l) (cl : ℤ) (line s : Bytes) :
    readHeader cl line (l ++ newline :: s) =
      if trimSpace (line ++ l ++ [newline]) = [] then some (cl, s)
      else readHeader (headerLine cl (trimSpace (line ++ l ++ [newline]))) [] s := by
  induction l generalizing line with
  | nil => rw [List.nil_append, readHeader, if_pos rfl, List.append_nil]
  | cons b l ih =>
    have hb : b ≠ newline := fun heq => hl (heq ▸ List.mem_cons_self)
    rw [List.cons_append, readHeader, if_neg hb, ih fun h => hl (List.mem_cons_of_mem b h)]
    simp only [List.append_assoc, List.cons_append, List.nil_append]

/-- The lines of a header. -/
theorem readHeader_lines {ls : List Bytes} (hnew : ∀ l ∈ ls, newline ∉ l)
    (hne : ∀ l ∈ ls, trimSpace (l ++ [newline]) ≠ []) (cl : ℤ) (s : Bytes) :
    readHeader cl [] (terminated ls ++ ascii ['\r', '\n'] ++ s) =
      some ((ls.map fun l => trimSpace (l ++ [newline])).foldl headerLine cl, s) := by
  induction ls generalizing cl with
  | nil => rfl
  | cons l ls ih =>
    have htail := ih (fun l' h => hnew l' (List.mem_cons_of_mem l h))
      (fun l' h => hne l' (List.mem_cons_of_mem l h))
    rw [terminated_cons]
    simp only [List.append_assoc, List.cons_append, List.nil_append] at htail ⊢
    rw [readHeader_line (hnew l List.mem_cons_self), List.nil_append,
      if_neg (hne l List.mem_cons_self), htail, List.map_cons, List.foldl_cons]

/-- **A frame is read whole**, and nothing beyond it. -/
theorem readBody_frame (f : Frame) : readBody f.bytes = some (some f.body, []) := by
  rw [readBody, Frame.bytes, readHeader_lines f.newline_notMem f.line_ne, f.length_eq]
  simp

/-! ### Writing -/

/-- The header that **send** writes. -/
def header (n : ℕ) : Bytes :=
  ascii ("Content-Length: ".toList ++ Nat.toDigits 10 n ++ "\r\n\r\n".toList)

/-- What **send** writes for a message. -/
def frame (data : Bytes) : Bytes := header data.length ++ data

theorem ascii_append (l l' : List Char) : ascii (l ++ l') = ascii l ++ ascii l' := List.map_append

theorem toNat_digit {c : Char} (h : c.isDigit = true) :
    48 ≤ c.toNat ∧ c.toNat ≤ 57 ∧ (UInt8.ofNat c.toNat).toNat = c.toNat := by
  rw [Char.isDigit, Bool.and_eq_true, decide_eq_true_eq, decide_eq_true_eq] at h
  have hlo : 48 ≤ c.toNat := UInt32.le_iff_toNat_le.mp h.1
  have hhi : c.toNat ≤ 57 := UInt32.le_iff_toNat_le.mp h.2
  refine ⟨hlo, hhi, ?_⟩
  rw [UInt8.toNat_ofNat']
  omega

/-- Digits are visible. -/
theorem visible_digit {c : Char} (h : c.isDigit = true) : Visible (UInt8.ofNat c.toNat) := by
  obtain ⟨hlo, hhi, heq⟩ := toNat_digit h
  have hblank : ∀ x ∈ ([9, 10, 11, 12, 13, 32] : Bytes), x.toNat ≤ 32 := by
    have hall : ([9, 10, 11, 12, 13, 32] : Bytes).all (fun x => x.toNat ≤ 32) = true := by decide
    exact fun x hx => of_decide_eq_true (List.all_eq_true.mp hall x hx)
  constructor
  · rw [UInt8.lt_iff_toNat_lt, heq]
    exact Nat.lt_of_le_of_lt hhi (by decide)
  · intro hmem
    have := hblank _ hmem
    omega

/-- A digit is read back from its byte. -/
theorem ofNat_digit {c : Char} (h : c.isDigit = true) :
    Char.ofNat (UInt8.ofNat c.toNat).toNat = c := by
  rw [(toNat_digit h).2.2, Char.ofNat_toNat]

theorem isDigit_toDigits {n : ℕ} {c : Char} (h : c ∈ Nat.toDigits 10 n) : c.isDigit = true :=
  Nat.isDigit_of_mem_toDigits (by decide) (by decide) h

theorem atoi_digits {n : ℕ} (h : n < 2 ^ 63) : atoi (ascii (Nat.toDigits 10 n)) = n := by
  have hback : (ascii (Nat.toDigits 10 n)).map (fun b => Char.ofNat b.toNat) =
      Nat.toDigits 10 n := by
    rw [ascii, List.map_map]
    exact (List.map_congr_left fun c hc => ofNat_digit (isDigit_toDigits hc)).trans (List.map_id _)
  rw [atoi, hback, GoText.atoi_toDigits h]

theorem visible_digits {n : ℕ} {b : UInt8} (h : b ∈ ascii (Nat.toDigits 10 n)) : Visible b := by
  obtain ⟨c, hc, rfl⟩ := List.mem_map.mp h
  exact visible_digit (isDigit_toDigits hc)

/-- The text of the line that `send` writes. -/
def lengthText (n : ℕ) : Bytes := lengthKey ++ 32 :: ascii (Nat.toDigits 10 n)

theorem getLast?_lengthText {n : ℕ} {b : UInt8} (h : b ∈ (lengthText n).getLast?) : Visible b := by
  have hne : ascii (Nat.toDigits 10 n) ≠ [] := fun heq =>
    absurd (List.map_eq_nil_iff.mp heq) Nat.toDigits_ne_nil
  rw [lengthText, ← List.singleton_append, ← List.append_assoc,
    List.getLast?_append_of_ne_nil _ hne] at h
  exact visible_digits (List.mem_of_mem_getLast? h)

theorem trimSpace_lengthText (n : ℕ) :
    trimSpace (lengthText n ++ [13] ++ [newline]) = lengthText n := by
  have hhead : ∀ b ∈ (lengthText n ++ [13] ++ [newline]).head?, Visible b := by
    intro b hb
    cases hb
    decide
  rw [trimSpace, trimLeft_visible hhead, trimRight_blank (by decide), trimRight_blank (by decide)]
  exact trimRight_visible fun b hb => getLast?_lengthText hb

theorem headerLine_lengthText {n : ℕ} (h : n < 2 ^ 63) (cl : ℤ) :
    headerLine cl (lengthText n) = n := by
  have hvis : trimSpace (32 :: ascii (Nat.toDigits 10 n)) = ascii (Nat.toDigits 10 n) := by
    rw [trimSpace, trimLeft_blank (by decide),
      trimLeft_visible fun b hb => visible_digits (List.mem_of_mem_head? hb)]
    exact trimRight_visible fun b hb => visible_digits (List.mem_of_mem_getLast? hb)
  rw [headerLine, lengthText, if_pos (List.isPrefixOf_iff_prefix.mpr (List.prefix_append _ _)),
    List.drop_left, hvis, atoi_digits h]

/-- The frame that **send** writes. -/
def Frame.ofData {data : Bytes} (h : data.length < 2 ^ 63) : Frame where
  lines := [lengthText data.length ++ [13]]
  body := data
  newline_notMem := by
    intro l hl hmem
    rw [List.mem_singleton.mp hl, lengthText, List.mem_append, List.mem_append,
      List.mem_cons] at hmem
    rcases hmem with (hmem | hmem | hmem) | hmem
    · exact absurd hmem (by decide)
    · cases hmem
    · exact absurd (visible_digits hmem) (by decide)
    · exact absurd hmem (by decide)
  line_ne := by
    intro l hl
    rw [List.mem_singleton.mp hl, trimSpace_lengthText]
    exact List.append_ne_nil_of_left_ne_nil (by decide) _
  length_eq := by
    rw [List.map_singleton, trimSpace_lengthText, List.foldl_cons, headerLine_lengthText h]
    rfl

theorem frame_eq {data : Bytes} (h : data.length < 2 ^ 63) :
    frame data = (Frame.ofData h).bytes := by
  have hkey : ascii "Content-Length: ".toList = lengthKey ++ [32] := by decide
  have hend : ascii "\r\n\r\n".toList = [13, newline] ++ ascii ['\r', '\n'] := by decide
  rw [frame, header, ascii_append, ascii_append, hkey, hend]
  simp [Frame.bytes, Frame.ofData, terminated, lengthText]

/-- **What `send` writes is read back.** -/
theorem next_frame {data : Bytes} (h : data.length < 2 ^ 63) :
    frames.next (frame data) = some (some data, []) := by
  rw [frame_eq h]
  exact readBody_frame (Frame.ofData h)

end Gortex.Semantic.Lsp
