import Mathlib.Data.Nat.Find
import Gortex.Lib.GoBytes
import Gortex.Lib.Occurrence

/-!
# The generated block of an instructions file

`UpsertMarkedBlock` of `internal/agents/instructions.go`: a block of text that is generated, and
written between two markers into a file that the user edits. The first start marker and the
first end marker are looked up each on its own, so the block is found where one of each comes
first, and the function does what it is for on just these files
(`Gortex.Agents.upserts_iff`).
-/

namespace Gortex

namespace Agents

open GoBytes Occurrence

/-! ### The model -/

/-- The markers of a block. They are parts of a line, and no two of them overlap. -/
structure Markers where
  startMarker : Bytes
  endMarker : Bytes
  start_ne : startMarker ≠ []
  end_ne : endMarker ≠ []
  start_line : newline ∉ startMarker
  end_line : newline ∉ endMarker
  start_start : Apart startMarker startMarker
  start_end : Apart startMarker endMarker
  end_start : Apart endMarker startMarker
  end_end : Apart endMarker endMarker
  ne : startMarker ≠ endMarker

/-- `CommunitiesStartMarker`. -/
def communitiesStartMarker : Bytes := ofString "<!-- gortex:communities:start -->"

/-- `CommunitiesEndMarker`. -/
def communitiesEndMarker : Bytes := ofString "<!-- gortex:communities:end -->"

/-- The markers that all adapters pass. -/
def communities : Markers where
  startMarker := communitiesStartMarker
  endMarker := communitiesEndMarker
  start_ne := by decide +kernel
  end_ne := by decide +kernel
  start_line := by decide +kernel
  end_line := by decide +kernel
  start_start := by decide +kernel
  start_end := by decide +kernel
  end_start := by decide +kernel
  end_end := by decide +kernel
  ne := by decide +kernel

/-- What is done with a file. -/
inductive ActionKind
  | create
  | merge
  | skip
  | wouldCreate
  | wouldMerge
deriving DecidableEq

/-- What is reported of a file. -/
structure FileAction where
  path : String
  action : ActionKind
  keys : List String := []
  reason : String := ""

/-- What the function takes from the file system: how reading ends, with no content for a file
that does not exist, and how making the directory and writing end. -/
structure FileSystem where
  read : Except String (Option Bytes)
  mkdir : Option String := none
  write : WriteResult := .ok

variable (m : Markers)

/-- The block with its markers. -/
def fenced (body : Bytes) : Bytes :=
  m.startMarker ++ [newline] ++ body ++ [newline] ++ m.endMarker ++ [newline]

/-- The position past a newline. -/
def skipNewline (text : Bytes) (i : ℕ) : ℕ := if text[i]? = some newline then i + 1 else i

/-- What separates the block from the text before it. -/
def gap (text : Bytes) : Bytes :=
  if text = [] then []
  else if ¬[newline] <:+ text then [newline, newline]
  else if ¬[newline, newline] <:+ text then [newline]
  else []

/-- The text with a new block, or without the block if the body is empty. -/
def nextText (text body : Bytes) : Bytes :=
  let empty := trimLeft body = []
  match index m.startMarker text, index m.endMarker text with
  | some start, some stop =>
    let stop := skipNewline text (stop + m.endMarker.length)
    if empty then text.take start ++ text.drop stop
    else text.take start ++ fenced m body ++ text.drop stop
  | _, _ => if empty then text else text ++ gap text ++ fenced m body

/-- **UpsertMarkedBlock**: what it returns, and the file afterwards. -/
def upsertMarkedBlock (fs : FileSystem) (path : String) (body : Bytes) (dryRun : Bool) :
    Except String FileAction × Option Bytes :=
  match fs.read with
  | .error err => (.error ("read " ++ path ++ ": " ++ err), none)
  | .ok existing =>
    let text := existing.getD []
    let hasBlock := contains text m.startMarker ∧ contains text m.endMarker
    if trimLeft body = [] ∧ ¬hasBlock then
      (.ok { path, action := .skip, reason := "no-communities" }, existing)
    else
      let next := nextText m text body
      if existing = some next then (.ok { path, action := .skip, reason := "unchanged" }, existing)
      else if dryRun then
        (.ok { path, action := if existing = none then .wouldCreate else .wouldMerge
               keys := ["communities-block"] }, existing)
      else
        match fs.mkdir, fs.write with
        | some err, _ => (.error err, existing)
        | none, .failed err left => (.error err, left)
        | none, .ok =>
          (.ok { path, action := if existing = none then .create else .merge
                 keys := ["communities-block"] }, some next)

/-- The text of a file after a call that meets no error. -/
def upsert (text body : Bytes) : Bytes :=
  ((upsertMarkedBlock m { read := .ok (some text) } "" body false).2).getD []

variable {m}

theorem nextText_of_both {text body : Bytes} {start stop : ℕ}
    (hstart : index m.startMarker text = some start) (hstop : index m.endMarker text = some stop) :
    nextText m text body = text.take start ++ (if trimLeft body = [] then [] else fenced m body) ++
      text.drop (skipNewline text (stop + m.endMarker.length)) := by
  rw [nextText, hstart, hstop]
  simp only
  split
  · rw [List.append_nil]
  · rfl

theorem nextText_of_missing {text body : Bytes}
    (h : index m.startMarker text = none ∨ index m.endMarker text = none) :
    nextText m text body =
      if trimLeft body = [] then text else text ++ gap text ++ fenced m body := by
  rw [nextText]
  rcases h with h | h
  · rw [h]
  · rw [h]
    cases index m.startMarker text <;> rfl

/-- **A call leaves the new text.** -/
theorem upsert_eq (text body : Bytes) : upsert m text body = nextText m text body := by
  rw [upsert, upsertMarkedBlock]
  simp only [Option.getD_some]
  split
  · rename_i hskip
    have hmissing : index m.startMarker text = none ∨ index m.endMarker text = none := by
      by_contra hboth
      rw [not_or, ← ne_eq, ← ne_eq, Option.ne_none_iff_isSome, Option.ne_none_iff_isSome] at hboth
      exact hskip.2 hboth
    rw [nextText_of_missing hmissing, if_pos hskip.1]
    rfl
  · split
    · rename_i heq
      exact Option.some.inj heq
    · rfl

/-! ### Blocks -/

variable {t u v w body : Bytes} {b e b' e' i j k s a : ℕ}

/-- **A block**: a start marker and an end marker, with no marker between them. -/
def Block (m : Markers) (t : Bytes) (b e : ℕ) : Prop :=
  At m.startMarker t b ∧ At m.endMarker t e ∧ b < e ∧
    ∀ j, b < j → j < e → ¬At m.startMarker t j ∧ ¬At m.endMarker t j

/-- The block that begins first. -/
def FirstBlock (m : Markers) (t : Bytes) (b e : ℕ) : Prop :=
  Block m t b e ∧ ∀ b' e', Block m t b' e' → b ≤ b'

/-- A block with no marker before it. -/
def LeadingBlock (m : Markers) (t : Bytes) (b e : ℕ) : Prop :=
  Block m t b e ∧ (∀ i, At m.startMarker t i → b ≤ i) ∧ ∀ i, At m.endMarker t i → e ≤ i

/-- The text after a block, without the newline that ends its line. -/
def afterBlock (m : Markers) (t : Bytes) (e : ℕ) : Bytes :=
  t.drop (skipNewline t (e + m.endMarker.length))

/-- The two markers do not begin at one place. -/
theorem Markers.not_at_both (m : Markers) (hs : At m.startMarker t i) : ¬At m.endMarker t i := by
  intro he
  rcases List.prefix_or_prefix_of_prefix hs.2 he.2 with h | h
  · exact m.ne (m.end_start.within h.isInfix)
  · exact m.ne (m.start_end.within h.isInfix).symm

/-- **What stands before a text** shifts its blocks. -/
theorem block_append_left : Block m (u ++ t) (u.length + b) (u.length + e) ↔ Block m t b e := by
  rw [Block, Block, at_append_left, at_append_left]
  refine and_congr_right fun _ => and_congr_right fun _ => and_congr (by omega) ?_
  constructor
  · intro h j hbj hje
    have hj := h (u.length + j) (by omega) (by omega)
    rwa [at_append_left, at_append_left] at hj
  · intro h j hbj hje
    obtain ⟨j, rfl⟩ := Nat.exists_eq_add_of_le (show u.length ≤ j by omega)
    rw [at_append_left, at_append_left]
    exact h j (by omega) (by omega)

/-- The start marker before the first end marker that stands nearest to it begins a block. -/
theorem exists_firstBlock (hs : At m.startMarker t s) (he : index m.endMarker t = some e)
    (hlt : s < e) : ∃ b, s ≤ b ∧ FirstBlock m t b e := by
  obtain ⟨hat, hfirst⟩ := index_eq_some_iff.mp he
  induction hn : e - s using Nat.strong_induction_on generalizing s with
  | _ n ih =>
    by_cases hmore : ∃ j, s < j ∧ j < e ∧ At m.startMarker t j
    · obtain ⟨j, hsj, hje, hj⟩ := hmore
      obtain ⟨b, hjb, hb⟩ := ih (e - j) (by omega) hj hje rfl
      exact ⟨b, by omega, hb⟩
    · have hblock : Block m t s e := ⟨hs, hat, hlt, fun j hsj hje =>
        ⟨fun hj => hmore ⟨j, hsj, hje, hj⟩, hfirst j hje⟩⟩
      refine ⟨s, le_rfl, hblock, fun b' e' h' => ?_⟩
      by_contra hb
      -- a block that begins before it would end after it begins
      have he' : e ≤ e' := by
        by_contra hlt'
        exact hfirst e' (by omega) h'.2.1
      exact (h'.2.2.2 s (by omega) (by omega)).1 hs

theorem LeadingBlock.index_start (h : LeadingBlock m t b e) : index m.startMarker t = some b :=
  index_eq_some_iff.mpr ⟨h.1.1, fun j hj hat => by have := h.2.1 j hat; omega⟩

theorem LeadingBlock.index_end (h : LeadingBlock m t b e) : index m.endMarker t = some e :=
  index_eq_some_iff.mpr ⟨h.1.2.1, fun j hj hat => by have := h.2.2 j hat; omega⟩

theorem leadingBlock_of_index (h : Block m t b e) (hs : index m.startMarker t = some b)
    (he : index m.endMarker t = some e) : LeadingBlock m t b e := by
  refine ⟨h, fun i hi => ?_, fun i hi => ?_⟩
  · by_contra hlt
    exact (index_eq_some_iff.mp hs).2 i (by omega) hi
  · by_contra hlt
    exact (index_eq_some_iff.mp he).2 i (by omega) hi

/-! ### The text around a new block -/

/-- The position of the end marker of a new block. -/
def endPos (m : Markers) (u body : Bytes) : ℕ :=
  u.length + m.startMarker.length + (body.length + 2)

theorem length_fenced (m : Markers) (body : Bytes) : (fenced m body).length =
    m.startMarker.length + (body.length + 2) + m.endMarker.length + 1 := by
  simp only [fenced, List.length_append, List.length_singleton]
  omega

theorem at_start_fenced (m : Markers) (u body v : Bytes) :
    At m.startMarker (u ++ fenced m body ++ v) u.length := by
  refine at_iff.mpr ⟨u, [newline] ++ body ++ [newline] ++ m.endMarker ++ [newline] ++ v, ?_, rfl⟩
  simp only [fenced, List.append_assoc]

theorem at_end_fenced (m : Markers) (u body v : Bytes) :
    At m.endMarker (u ++ fenced m body ++ v) (endPos m u body) := by
  refine at_iff.mpr ⟨u ++ m.startMarker ++ [newline] ++ body ++ [newline], [newline] ++ v, ?_, ?_⟩
  · simp only [fenced, List.append_assoc]
  · simp only [endPos, List.length_append, List.length_singleton]
    omega

/-- After the end marker comes the newline. -/
theorem skipNewline_fenced (m : Markers) (u body v : Bytes) :
    skipNewline (u ++ fenced m body ++ v) (endPos m u body + m.endMarker.length) =
      (u ++ fenced m body).length := by
  have hlen : endPos m u body + m.endMarker.length =
      (u ++ m.startMarker ++ [newline] ++ body ++ [newline] ++ m.endMarker).length := by
    simp only [endPos, List.length_append, List.length_singleton]
    omega
  have hget : (u ++ fenced m body ++ v)[endPos m u body + m.endMarker.length]? = some newline := by
    have hassoc : u ++ fenced m body ++ v = (u ++ m.startMarker ++ [newline] ++ body ++ [newline] ++
        m.endMarker) ++ newline :: v := by
      simp only [fenced, List.append_assoc, List.singleton_append]
    rw [hassoc, hlen, List.getElem?_append_right le_rfl, Nat.sub_self]
    rfl
  rw [skipNewline, if_pos hget, List.length_append, length_fenced, endPos]
  omega

theorem take_fenced : (u ++ fenced m body ++ v).take u.length = u := by
  rw [List.append_assoc, List.take_left]

theorem drop_fenced : (u ++ fenced m body ++ v).drop (u ++ fenced m body).length = v :=
  List.drop_left

/-- Between the markers of a new block there is the body. -/
theorem between_fenced : ((u ++ fenced m body ++ v).take (endPos m u body)).drop
    (u.length + m.startMarker.length) = [newline] ++ body ++ [newline] := by
  have hassoc : u ++ fenced m body ++ v = (u ++ m.startMarker ++ ([newline] ++ body ++ [newline])) ++
      (m.endMarker ++ [newline] ++ v) := by
    simp only [fenced, List.append_assoc]
  have hlen : endPos m u body =
      (u ++ m.startMarker ++ ([newline] ++ body ++ [newline])).length := by
    simp only [endPos, List.length_append, List.length_singleton]
    omega
  rw [hassoc, hlen, List.take_left, ← List.length_append, List.drop_left]

/-- A part of a line that is not in a text is not in it between newlines. -/
theorem not_at_between {p : Bytes} (hline : newline ∉ p) (hne : p ≠ []) (hp : ¬p <:+: body) :
    ¬At p ([newline] ++ body ++ [newline]) i := by
  intro h
  have hpos := List.length_pos_iff.mpr hne
  have hle := h.add_le
  rw [List.length_append, List.length_append, List.length_singleton] at hle
  by_cases hi : i = 0
  · subst hi
    exact hline (h.mem (j := 0) rfl le_rfl (by omega))
  by_cases hend : i + p.length = 1 + body.length + 1
  · refine hline (h.mem (j := 1 + body.length) ?_ (by omega) (by omega))
    rw [List.getElem?_append_right (by simp [Nat.add_comm])]
    simp [Nat.add_comm]
  · rw [List.append_assoc] at h
    have h' := h.of_append_left (u := [newline]) (by rw [List.length_singleton]; omega)
    refine hp (infix_iff.mpr ⟨i - 1, h'.of_append_right ?_⟩)
    rw [List.length_singleton]
    omega

/-- **Between the ends of a new block** no marker occurs. -/
theorem not_at_fenced {p : Bytes} (hp : p = m.startMarker ∨ p = m.endMarker)
    (hbody : ¬p <:+: body) (hj : At p (u ++ fenced m body ++ v) j) (huj : u.length < j) :
    endPos m u body ≤ j := by
  have hstart := at_start_fenced m u body v
  have hend := at_end_fenced m u body v
  by_contra hlt
  have hafter : u.length + m.startMarker.length ≤ j := by
    rcases hp with rfl | rfl
    · exact m.start_start.le hstart hj huj
    · exact m.start_end.le hstart hj huj
  have hbefore : j + p.length ≤ endPos m u body := by
    rcases hp with rfl | rfl
    · exact m.start_end.le hj hend (by omega)
    · exact m.end_end.le hj hend (by omega)
  have hline : newline ∉ p ∧ p ≠ [] := by
    rcases hp with rfl | rfl
    · exact ⟨m.start_line, m.start_ne⟩
    · exact ⟨m.end_line, m.end_ne⟩
  have hassoc : u ++ fenced m body ++ v = (u ++ m.startMarker) ++
      (([newline] ++ body ++ [newline]) ++ (m.endMarker ++ [newline] ++ v)) := by
    simp only [fenced, List.append_assoc]
  rw [hassoc] at hj
  have hin := (hj.of_append_left (by rw [List.length_append]; omega)).of_append_right (by
    simp only [endPos] at hbefore
    simp only [List.length_append, List.length_singleton]
    omega)
  exact not_at_between hline.1 hline.2 hbody hin

/-- A marker before a new block is in the text before it. -/
theorem at_of_lt_fenced {p : Bytes} (hp : p = m.startMarker ∨ p = m.endMarker)
    (hj : At p (u ++ fenced m body ++ v) j) (hju : j < u.length) : At p u j := by
  have hstart := at_start_fenced m u body v
  have hle : j + p.length ≤ u.length := by
    rcases hp with rfl | rfl
    · exact m.start_start.le hj hstart hju
    · exact m.end_start.le hj hstart hju
  rw [List.append_assoc] at hj
  exact hj.of_append_right hle

theorem index_start_fenced (body v : Bytes) (hu : ∀ j, ¬At m.startMarker u j) :
    index m.startMarker (u ++ fenced m body ++ v) = some u.length :=
  index_eq_some_iff.mpr ⟨at_start_fenced m u body v, fun j hj hat =>
    hu j (at_of_lt_fenced (Or.inl rfl) hat hj)⟩

theorem index_end_fenced (hu : ∀ j, ¬At m.endMarker u j) (hbody : ¬m.endMarker <:+: body) :
    index m.endMarker (u ++ fenced m body ++ v) = some (endPos m u body) := by
  refine index_eq_some_iff.mpr ⟨at_end_fenced m u body v, fun j hj hat => ?_⟩
  rcases lt_trichotomy j u.length with hlt | rfl | hlt
  · exact hu j (at_of_lt_fenced (Or.inr rfl) hat hlt)
  · exact m.not_at_both (at_start_fenced m u body v) hat
  · have hle := not_at_fenced (Or.inr rfl) hbody hat hlt
    omega

theorem block_fenced (hS : ¬m.startMarker <:+: body) (hE : ¬m.endMarker <:+: body) :
    Block m (u ++ fenced m body ++ v) u.length (endPos m u body) := by
  refine ⟨at_start_fenced m u body v, at_end_fenced m u body v, ?_, fun j huj hje => ⟨?_, ?_⟩⟩
  · have hpos := List.length_pos_iff.mpr m.start_ne
    rw [endPos]
    omega
  · intro hat
    have hle := not_at_fenced (Or.inl rfl) hS hat huj
    omega
  · intro hat
    have hle := not_at_fenced (Or.inr rfl) hE hat huj
    omega

/-- **Any other block** after a new one is in the text after it. -/
theorem block_after_fenced (hS : ¬m.startMarker <:+: body)
    (h : Block m (u ++ fenced m body ++ v) b' e') (hlt : u.length < b') :
    ∃ b'' e'', Block m v b'' e'' := by
  have hend := at_end_fenced m u body v
  have hle := not_at_fenced (Or.inl rfl) hS h.1 hlt
  -- the start marker is not at the end marker, and not on the newline after it
  have hne : endPos m u body ≠ b' := by
    rintro rfl
    exact m.not_at_both h.1 hend
  have hafter := m.end_start.le hend h.1 (by omega)
  have hnewline : endPos m u body + m.endMarker.length ≠ b' := by
    intro heq
    have hskip := skipNewline_fenced m u body v
    rw [skipNewline, List.length_append, length_fenced, endPos] at hskip
    have hget : (u ++ fenced m body ++ v)[endPos m u body + m.endMarker.length]? =
        some newline := by
      by_contra hnot
      rw [endPos] at hnot
      rw [if_neg hnot] at hskip
      omega
    have hpos := List.length_pos_iff.mpr m.start_ne
    exact m.start_line (h.1.mem hget (by omega) (by omega))
  have hlen : (u ++ fenced m body).length = endPos m u body + m.endMarker.length + 1 := by
    rw [List.length_append, length_fenced, endPos]
    omega
  have hbe := h.2.2.1
  obtain ⟨b'', rfl⟩ := Nat.exists_eq_add_of_le (show (u ++ fenced m body).length ≤ b' by omega)
  obtain ⟨e'', rfl⟩ := Nat.exists_eq_add_of_le (show (u ++ fenced m body).length ≤ e' by omega)
  exact ⟨b'', e'', block_append_left.mp h⟩

/-! ### Which files are handled well -/

/-- **What an upsert is for**: the first block is replaced, or a new one is added after the text,
and the rest of the text is kept; the only block is the new one; and once more changes
nothing. Without a body, the first block is removed. -/
structure Upserts (m : Markers) (t body : Bytes) : Prop where
  replaced : ∀ b e, FirstBlock m t b e → upsert m t body =
    t.take b ++ (if trimLeft body = [] then [] else fenced m body) ++ afterBlock m t e
  kept : (∀ b e, ¬Block m t b e) →
    if trimLeft body = [] then upsert m t body = t
    else ∃ n, upsert m t body = t ++ List.replicate n newline ++ fenced m body
  one : trimLeft body ≠ [] → ∃ b e, Block m (upsert m t body) b e ∧
    ((upsert m t body).take e).drop (b + m.startMarker.length) = [newline] ++ body ++ [newline] ∧
    ∀ b' e', Block m (upsert m t body) b' e' → b' = b
  again : upsert m (upsert m t body) body = upsert m t body

/-- A text that a call without a body leaves as it is: one of the markers is missing, or the first
start marker comes right after the first end marker. -/
def Still (m : Markers) (t : Bytes) : Prop :=
  (∀ i, ¬At m.startMarker t i) ∨ (∀ i, ¬At m.endMarker t i) ∨
    ∃ b e, index m.startMarker t = some b ∧ index m.endMarker t = some e ∧
      skipNewline t (e + m.endMarker.length) = b

/-- **The texts that are handled well.** For a body: there is no marker, or only one block and no
marker before it. Without a body: there is no block, or one with no marker before it, and what is
to be left stays as it is. -/
def Orderly (m : Markers) (t body : Bytes) : Prop :=
  if trimLeft body = [] then
    ((∀ b e, ¬Block m t b e) ∧ Still m t) ∨
      ∃ b e, LeadingBlock m t b e ∧ Still m (t.take b ++ afterBlock m t e)
  else
    (∀ i, ¬At m.startMarker t i ∧ ¬At m.endMarker t i) ∨
      ∃ b e, LeadingBlock m t b e ∧ ∀ b' e', Block m t b' e' → b' = b

theorem upsert_of_both (hs : index m.startMarker t = some s) (he : index m.endMarker t = some e) :
    upsert m t body = t.take s ++ (if trimLeft body = [] then [] else fenced m body) ++
      afterBlock m t e := by
  rw [upsert_eq, nextText_of_both hs he, afterBlock]

theorem upsert_of_missing (h : index m.startMarker t = none ∨ index m.endMarker t = none) :
    upsert m t body = if trimLeft body = [] then t else t ++ gap t ++ fenced m body := by
  rw [upsert_eq, nextText_of_missing h]

theorem gap_eq (t : Bytes) : ∃ n, gap t = List.replicate n newline := by
  rw [gap]
  split
  · exact ⟨0, rfl⟩
  · split
    · exact ⟨2, rfl⟩
    · split
      · exact ⟨1, rfl⟩
      · exact ⟨0, rfl⟩

/-- Newlines after a text add no part of a line to it. -/
theorem at_of_append_newlines {p : Bytes} {n : ℕ} (hline : newline ∉ p) (hne : p ≠ [])
    (h : At p (t ++ List.replicate n newline) i) : At p t i := by
  have hpos := List.length_pos_iff.mpr hne
  have hle := h.add_le
  rw [List.length_append, List.length_replicate] at hle
  by_cases hin : i + p.length ≤ t.length
  · exact h.of_append_right hin
  · refine absurd (h.mem (j := max i t.length) ?_ (le_max_left _ _) (by omega)) hline
    rw [List.getElem?_append_right (le_max_right _ _), List.getElem?_replicate,
      if_pos (by omega)]

/-- The end marker comes before the start marker, and the newline after it as well. -/
theorem skipNewline_le (hs : At m.startMarker t s) (he : At m.endMarker t e) (hlt : e < s) :
    skipNewline t (e + m.endMarker.length) ≤ s := by
  have hle := m.end_start.le he hs hlt
  rw [skipNewline]
  split
  · rename_i hget
    have hpos := List.length_pos_iff.mpr m.start_ne
    by_contra hcon
    exact m.start_line (hs.mem hget (by omega) (by omega))
  · exact hle

theorem le_skipNewline (t : Bytes) (i : ℕ) : i ≤ skipNewline t i := by
  rw [skipNewline]
  split <;> omega

theorem skipNewline_le_length (he : At m.endMarker t e) :
    skipNewline t (e + m.endMarker.length) ≤ t.length := by
  have hle := he.add_le
  rw [skipNewline]
  split
  · rename_i hget
    obtain ⟨hlt, -⟩ := List.getElem?_eq_some_iff.mp hget
    omega
  · exact hle

/-- How long the new text is, if both markers occur. -/
theorem length_upsert (body : Bytes) (hs : index m.startMarker t = some s)
    (he : index m.endMarker t = some e) :
    (upsert m t body).length + skipNewline t (e + m.endMarker.length) =
      s + (if trimLeft body = [] then 0 else (fenced m body).length) + t.length := by
  have hst := (index_eq_some_iff.mp hs).1.1
  have hskip := skipNewline_le_length (index_eq_some_iff.mp he).1
  rw [upsert_of_both hs he, afterBlock, List.length_append, List.length_append, List.length_take,
    List.length_drop]
  split
  · rw [List.length_nil]
    omega
  · omega

/-- **Of misordered markers, a body makes the text longer** every time. -/
theorem upsert_ne_of_misordered (hbody : trimLeft body ≠ [])
    (hs : index m.startMarker t = some s) (he : index m.endMarker t = some e) (hlt : e < s) :
    upsert m t body ≠ t := by
  intro heq
  have hlen := length_upsert body hs he
  have hskip := skipNewline_le (index_eq_some_iff.mp hs).1 (index_eq_some_iff.mp he).1 hlt
  rw [heq, if_neg hbody, length_fenced] at hlen
  omega

/-- **A block in order is replaced by itself.** -/
theorem upsert_fenced (hbody : trimLeft body ≠ []) (hE : ¬m.endMarker <:+: body)
    (huS : ∀ j, ¬At m.startMarker u j) (huE : ∀ j, ¬At m.endMarker u j) :
    upsert m (u ++ fenced m body ++ v) body = u ++ fenced m body ++ v := by
  rw [upsert_of_both (index_start_fenced _ _ huS) (index_end_fenced huE hE), afterBlock,
    skipNewline_fenced, drop_fenced, take_fenced, if_neg hbody]

/-- Without a body, the texts that stay are those of `Still`. -/
theorem upsert_eq_self_iff (hbody : trimLeft body = []) : upsert m t body = t ↔ Still m t := by
  constructor
  · intro heq
    cases hs : index m.startMarker t with
    | none => exact Or.inl (index_eq_none_iff.mp hs)
    | some s =>
      cases he : index m.endMarker t with
      | none => exact Or.inr (Or.inl (index_eq_none_iff.mp he))
      | some e =>
        have hlen := length_upsert body hs he
        rw [heq, if_pos hbody] at hlen
        exact Or.inr (Or.inr ⟨s, e, hs, he, by omega⟩)
  · rintro (hs | he | ⟨b, e, hs, he, hskip⟩)
    · rw [upsert_of_missing (Or.inl (index_eq_none_iff.mpr hs)), if_pos hbody]
    · rw [upsert_of_missing (Or.inr (index_eq_none_iff.mpr he)), if_pos hbody]
    · rw [upsert_of_both hs he, afterBlock, hskip, if_pos hbody, List.append_nil,
        List.take_append_drop]

/-- A start marker after the end of a block is in the text after it. -/
theorem skipNewline_le_start (h : Block m t b e) (hb' : At m.startMarker t b') (hlt : b < b') :
    skipNewline t (e + m.endMarker.length) ≤ b' := by
  rcases lt_trichotomy b' e with hbe | rfl | hbe
  · exact absurd hb' (h.2.2.2 b' hlt hbe).1
  · exact absurd h.2.1 (m.not_at_both hb')
  · exact skipNewline_le hb' h.2.1 hbe

/-- Blocks after a position are blocks of the text from there on. -/
theorem block_drop_iff (ha : a ≤ t.length) :
    Block m t (a + b) (a + e) ↔ Block m (t.drop a) b e := by
  have hlen : (t.take a).length = a := List.length_take_of_le ha
  have h := block_append_left (m := m) (u := t.take a) (t := t.drop a) (b := b) (e := e)
  rwa [List.take_append_drop, hlen] at h

/-- **The block to replace**: where the start marker comes first, it is the first one iff no other
start marker comes between. -/
theorem leadingBlock_of_replaced (hs : index m.startMarker t = some s)
    (he : index m.endMarker t = some e) (hlt : s < e)
    (hreplaced : ∀ b e, FirstBlock m t b e → upsert m t body =
      t.take b ++ (if trimLeft body = [] then [] else fenced m body) ++ afterBlock m t e) :
    LeadingBlock m t s e := by
  obtain ⟨b, hsb, hb⟩ := exists_firstBlock (index_eq_some_iff.mp hs).1 he hlt
  have hupsert := hreplaced b e hb
  rw [upsert_of_both hs he] at hupsert
  have hlen := congrArg List.length hupsert
  have hst := (index_eq_some_iff.mp hs).1.1
  have hbt := hb.1.1.1
  simp only [List.length_append, List.length_take] at hlen
  obtain rfl : s = b := by omega
  exact leadingBlock_of_index hb.1 hs he

theorem LeadingBlock.eq_of_first (h : LeadingBlock m t b e) (h' : FirstBlock m t b' e') :
    b' = b ∧ e' = e := by
  obtain rfl : b' = b := le_antisymm (h'.2 b e h.1) (h.2.1 b' h'.1.1)
  refine ⟨rfl, le_antisymm ?_ (h.2.2 e' h'.1.2.1)⟩
  by_contra hlt
  exact (h'.1.2.2.2 e h.1.2.2.1 (by omega)).2 h.1.2.1

/-- What is left of the block and before it has no marker. -/
theorem LeadingBlock.not_at_take (h : LeadingBlock m t b e) :
    (∀ j, ¬At m.startMarker (t.take b) j) ∧ ∀ j, ¬At m.endMarker (t.take b) j := by
  have hlen := List.length_take_le b t
  have hstart := List.length_pos_iff.mpr m.start_ne
  have hbe := h.1.2.2.1
  refine ⟨fun j hj => ?_, fun j hj => ?_⟩
  · have hle := hj.add_le
    have hb := h.2.1 j hj.of_take
    omega
  · have hle := hj.add_le
    have he := h.2.2 j hj.of_take
    omega

/-- With a leading block, the new text is the one around the new block. -/
theorem LeadingBlock.upsert_eq (h : LeadingBlock m t b e) : upsert m t body =
    t.take b ++ (if trimLeft body = [] then [] else fenced m body) ++ afterBlock m t e :=
  upsert_of_both h.index_start h.index_end

section Body

variable (hbody : trimLeft body ≠ []) (hS : ¬m.startMarker <:+: body)
  (hE : ¬m.endMarker <:+: body)
include hbody hS hE

/-- **Texts without markers.** -/
theorem upserts_of_missing (ht : ∀ i, ¬At m.startMarker t i ∧ ¬At m.endMarker t i) :
    Upserts m t body := by
  obtain ⟨n, hgap⟩ := gap_eq t
  have hu : (∀ j, ¬At m.startMarker (t ++ gap t) j) ∧ ∀ j, ¬At m.endMarker (t ++ gap t) j := by
    rw [hgap]
    exact ⟨fun j hj => (ht j).1 (at_of_append_newlines m.start_line m.start_ne hj),
      fun j hj => (ht j).2 (at_of_append_newlines m.end_line m.end_ne hj)⟩
  have hupsert : upsert m t body = t ++ gap t ++ fenced m body ++ [] := by
    rw [upsert_of_missing (Or.inl (index_eq_none_iff.mpr fun i => (ht i).1)), if_neg hbody,
      List.append_nil]
  constructor
  · intro b e h
    exact absurd h.1.1 (ht b).1
  · intro _
    rw [if_neg hbody, hupsert, hgap, List.append_nil]
    exact ⟨n, rfl⟩
  · intro _
    rw [hupsert]
    refine ⟨_, _, block_fenced hS hE, between_fenced, fun b' e' h' => ?_⟩
    rcases lt_trichotomy b' (t ++ gap t).length with hlt | heq | hlt
    · exact absurd (at_of_lt_fenced (Or.inl rfl) h'.1 hlt) (hu.1 b')
    · exact heq
    · obtain ⟨b'', e'', h''⟩ := block_after_fenced hS h' hlt
      have hle := h''.1.add_le
      have hpos := List.length_pos_iff.mpr m.start_ne
      rw [List.length_nil] at hle
      omega
  · rw [hupsert]
    exact upsert_fenced hbody hE hu.1 hu.2

/-- **Texts with one block** and no marker before it. -/
theorem upserts_of_leadingBlock (h : LeadingBlock m t b e)
    (hone : ∀ b' e', Block m t b' e' → b' = b) : Upserts m t body := by
  have hupsert : upsert m t body = t.take b ++ fenced m body ++ afterBlock m t e := by
    rw [h.upsert_eq, if_neg hbody]
  have hlen : (t.take b).length = b := List.length_take_of_le h.1.1.1
  obtain ⟨huS, huE⟩ := h.not_at_take
  constructor
  · intro b' e' h'
    obtain ⟨rfl, rfl⟩ := h.eq_of_first h'
    rw [hupsert, if_neg hbody]
  · intro hnone
    exact absurd h.1 (hnone b e)
  · intro _
    rw [hupsert]
    refine ⟨_, _, block_fenced hS hE, between_fenced, fun b' e' h' => ?_⟩
    rcases lt_trichotomy b' (t.take b).length with hlt | heq | hlt
    · exact absurd (at_of_lt_fenced (Or.inl rfl) h'.1 hlt) (huS b')
    · exact heq
    · obtain ⟨b'', e'', h''⟩ := block_after_fenced hS h' hlt
      have hin := hone _ _ ((block_drop_iff (skipNewline_le_length h.1.2.1)).mpr h'')
      have hskip := le_skipNewline t (e + m.endMarker.length)
      have hbe := h.1.2.2.1
      omega
  · rw [hupsert]
    exact upsert_fenced hbody hE huS huE

omit hS in
/-- **Texts of which a marker is missing**: an upsert leaves a stray one, and the next call takes
it for an end of the block. -/
theorem orderly_of_missing (h : Upserts m t body)
    (hmissing : index m.startMarker t = none ∨ index m.endMarker t = none) (i : ℕ) :
    ¬At m.startMarker t i ∧ ¬At m.endMarker t i := by
  obtain ⟨n, hgap⟩ := gap_eq t
  have hupsert : upsert m t body = t ++ gap t ++ fenced m body ++ [] := by
    rw [upsert_of_missing hmissing, if_neg hbody, List.append_nil]
  have hagain := h.again
  rw [hupsert] at hagain
  refine ⟨fun hi => ?_, fun hi => ?_⟩
  · obtain ⟨s, -, hs⟩ := exists_index hi
    have hend : ∀ j, ¬At m.endMarker (t ++ gap t) j := fun j hj => by
      rw [hgap] at hj
      refine index_eq_none_iff.mp (hmissing.resolve_left ?_) j
        (at_of_append_newlines m.end_line m.end_ne hj)
      rw [hs]
      exact Option.some_ne_none s
    have hs' : index m.startMarker (t ++ gap t ++ fenced m body ++ []) = some s := by
      rw [List.append_assoc, List.append_assoc]
      exact index_append_right hs _
    have hlen := length_upsert body hs' (index_end_fenced hend hE)
    rw [hagain, skipNewline_fenced, if_neg hbody] at hlen
    simp only [List.length_append, List.length_nil] at hlen
    have hst := (index_eq_some_iff.mp hs).1.add_le
    have hpos := List.length_pos_iff.mpr m.start_ne
    omega
  · obtain ⟨e, -, he⟩ := exists_index hi
    have hstart : ∀ j, ¬At m.startMarker (t ++ gap t) j := fun j hj => by
      rw [hgap] at hj
      refine index_eq_none_iff.mp (hmissing.resolve_right ?_) j
        (at_of_append_newlines m.start_line m.start_ne hj)
      rw [he]
      exact Option.some_ne_none e
    have he' : index m.endMarker (t ++ gap t ++ fenced m body ++ []) = some e := by
      rw [List.append_assoc, List.append_assoc]
      exact index_append_right he _
    have hle := (index_eq_some_iff.mp he).1.add_le
    have hpos := List.length_pos_iff.mpr m.end_ne
    refine upsert_ne_of_misordered hbody (index_start_fenced _ _ hstart) he' ?_ hagain
    rw [List.length_append]
    omega

/-- **Texts with both markers.** -/
theorem orderly_of_both (h : Upserts m t body) (hs : index m.startMarker t = some s)
    (he : index m.endMarker t = some e) :
    LeadingBlock m t s e ∧ ∀ b' e', Block m t b' e' → b' = s := by
  have hat := index_eq_some_iff.mp hs
  have hend := index_eq_some_iff.mp he
  have hlen : (t.take s).length = s := List.length_take_of_le hat.1.1
  have hupsert : upsert m t body = t.take s ++ fenced m body ++ afterBlock m t e := by
    rw [upsert_of_both hs he, if_neg hbody]
  have hstart : ∀ j, ¬At m.startMarker (t.take s) j := fun j hj => by
    have hle := hj.add_le
    have hpos := List.length_pos_iff.mpr m.start_ne
    exact hat.2 j (by omega) hj.of_take
  rcases lt_trichotomy s e with hlt | rfl | hlt
  · have hlead := leadingBlock_of_replaced hs he hlt h.replaced
    refine ⟨hlead, fun b' e' h' => ?_⟩
    by_contra hne
    have hgt : s < b' := lt_of_le_of_ne (hlead.2.1 b' h'.1) (Ne.symm hne)
    obtain ⟨b₀, e₀, -, -, hone⟩ := h.one hbody
    rw [hupsert] at hone
    -- the other block stands after the new one
    have hskip := skipNewline_le_start hlead.1 h'.1 hgt
    have hbe := h'.2.2.1
    obtain ⟨b'', rfl⟩ := Nat.exists_eq_add_of_le hskip
    obtain ⟨e'', rfl⟩ := Nat.exists_eq_add_of_le (hskip.trans hbe.le)
    have hdrop := (block_drop_iff (skipNewline_le_length hend.1)).mp h'
    have hnew := hone _ _ (block_fenced (u := t.take s) (v := afterBlock m t e) hS hE)
    have hother := hone _ _ (block_append_left (u := t.take s ++ fenced m body).mpr hdrop)
    rw [List.length_append, length_fenced] at hother
    omega
  · exact absurd hend.1 (m.not_at_both hat.1)
  · exfalso
    have htake : index m.endMarker (t.take s) = some e :=
      index_eq_some_iff.mpr ⟨hend.1.take (m.end_start.le hend.1 hat.1 hlt),
        fun j hj hj' => hend.2 j hj hj'.of_take⟩
    have hs' := index_start_fenced body (afterBlock m t e) hstart
    have he' : index m.endMarker (t.take s ++ fenced m body ++ afterBlock m t e) = some e := by
      rw [List.append_assoc]
      exact index_append_right htake _
    have hagain := h.again
    rw [hupsert] at hagain
    exact upsert_ne_of_misordered hbody hs' he' (by omega) hagain

end Body

/-- Some block is the first one. -/
theorem exists_first (h : Block m t b e) : ∃ b e, FirstBlock m t b e := by
  classical
  have hex : ∃ b, ∃ e, Block m t b e := ⟨b, e, h⟩
  obtain ⟨e', h'⟩ := Nat.find_spec hex
  exact ⟨_, e', h', fun b'' e'' h'' => Nat.find_min' hex ⟨e'', h''⟩⟩

/-- **Without a body.** -/
theorem upserts_empty_iff (hbody : trimLeft body = []) : Upserts m t body ↔ Orderly m t body := by
  rw [Orderly, if_pos hbody]
  constructor
  · intro h
    by_cases hnone : ∀ b e, ¬Block m t b e
    · have hkept := h.kept hnone
      rw [if_pos hbody] at hkept
      exact Or.inl ⟨hnone, (upsert_eq_self_iff hbody).mp hkept⟩
    · simp only [not_forall, not_not] at hnone
      obtain ⟨b₀, e₀, h₀⟩ := hnone
      obtain ⟨s, -, hs⟩ := exists_index h₀.1
      obtain ⟨e, -, he⟩ := exists_index h₀.2.1
      have hat := index_eq_some_iff.mp hs
      have hend := index_eq_some_iff.mp he
      rcases lt_trichotomy s e with hlt | rfl | hlt
      · have hlead := leadingBlock_of_replaced hs he hlt h.replaced
        have hagain := h.again
        rw [hlead.upsert_eq, if_pos hbody, List.append_nil] at hagain
        exact Or.inr ⟨s, e, hlead, (upsert_eq_self_iff hbody).mp hagain⟩
      · exact absurd hend.1 (m.not_at_both hat.1)
      · -- misordered, the text does not become shorter, as it would without the first block
        obtain ⟨b, e', hb⟩ := exists_first h₀
        have hlen := length_upsert body hs he
        have hskip := skipNewline_le hat.1 hend.1 hlt
        have hreplaced := h.replaced b e' hb
        have hbe := hb.1.2.2.1
        have hskip' := le_skipNewline t (e' + m.endMarker.length)
        have hle' := skipNewline_le_length hb.1.2.1
        rw [if_pos hbody, List.append_nil, afterBlock] at hreplaced
        have hlen' := congrArg List.length hreplaced
        rw [List.length_append, List.length_take, List.length_drop] at hlen'
        rw [if_pos hbody] at hlen
        omega
  · rintro (⟨hnone, hstill⟩ | ⟨b, e, hlead, hstill⟩)
    · have hself := (upsert_eq_self_iff (m := m) hbody).mpr hstill
      refine ⟨fun b e h => absurd h.1 (hnone b e), fun _ => ?_, absurd hbody, by rw [hself, hself]⟩
      rw [if_pos hbody]
      exact hself
    · refine ⟨fun b' e' h' => ?_, fun hnone => absurd hlead.1 (hnone b e), absurd hbody, ?_⟩
      · obtain ⟨rfl, rfl⟩ := hlead.eq_of_first h'
        exact hlead.upsert_eq
      · rw [hlead.upsert_eq, if_pos hbody, List.append_nil]
        exact (upsert_eq_self_iff hbody).mpr hstill

/-- **Which files an upsert handles well**, for a body without markers. -/
theorem upserts_iff (m : Markers) (t body : Bytes) (hS : ¬m.startMarker <:+: body)
    (hE : ¬m.endMarker <:+: body) : Upserts m t body ↔ Orderly m t body := by
  by_cases hbody : trimLeft body = []
  · exact upserts_empty_iff hbody
  rw [Orderly, if_neg hbody]
  constructor
  · intro h
    cases hs : index m.startMarker t with
    | none => exact Or.inl (orderly_of_missing hbody hE h (Or.inl hs))
    | some s =>
      cases he : index m.endMarker t with
      | none => exact Or.inl (orderly_of_missing hbody hE h (Or.inr he))
      | some e => exact Or.inr ⟨s, e, orderly_of_both hbody hS hE h hs he⟩
  · rintro (hmissing | ⟨b, e, hlead, hone⟩)
    · exact upserts_of_missing hbody hS hE hmissing
    · exact upserts_of_leadingBlock hbody hS hE hlead hone

/-- The user's text after a stray end marker. -/
def strayEnd : Bytes := communitiesEndMarker ++ ofString "\nnotes\n"

/-- A text without markers. -/
theorem upserts_notes : Upserts communities (ofString "notes\n") (ofString "routing") :=
  (upserts_iff communities (ofString "notes\n") (ofString "routing")
    (by decide +kernel) (by decide +kernel)).mpr <| by
    rw [Orderly, if_neg (by decide +kernel)]
    exact Or.inl fun i => ⟨index_eq_none_iff.mp (by decide +kernel) i,
      index_eq_none_iff.mp (by decide +kernel) i⟩

/-- **A stray end marker lets the file grow** with every call. -/
theorem not_upserts_strayEnd :
    ¬∀ t body : Bytes, ¬communities.startMarker <:+: body → ¬communities.endMarker <:+: body →
      Upserts communities t body := by
  intro h
  have hup := h strayEnd (ofString "routing") (by decide +kernel) (by decide +kernel)
  exact absurd hup.again (by rw [upsert_eq, upsert_eq]; decide +kernel)

end Agents

end Gortex
