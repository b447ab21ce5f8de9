import Gortex.Analysis.Signature

/-!
# The texts of signatures

What the two readers of a signature make of its text. A signature is a receiver, a name, the
parameters and the results, with blanks where they may stand, and its types are texts in which
every bracket is closed and no comma is outside of them. The text of a list is split at its commas
where the types end, so that each parameter gives a field of its own
(`Gortex.Analysis.DeclList.parseParamList_text`), and of each field the last word is taken.

So types with blanks in them are not read, the names of grouped parameters are taken for their
types, and a receiver is taken for the parameters; the other reader does not know braces, and takes
the result of a function without a name for the name of a method. Where nothing of this occurs,
the signature is read, and only there (`Gortex.Analysis.Signature.parsed_iff`).
-/

namespace Gortex

namespace Analysis

open Brackets GoText

open GoString (isSpace)

/-! ### Signatures -/

/-- Neither a bracket nor a comma. -/
def Loose (c : Char) : Prop := parens c = 0 ∧ brackets c = 0 ∧ braces c = 0 ∧ c ≠ ','

/-- Blanks, or none. -/
structure Blanks where
  chars : List Char
  blank : ∀ c ∈ chars, isSpace c = true

/-- A name. -/
structure NameText where
  chars : List Char
  ne : chars ≠ []
  plain : ∀ c ∈ chars, isSpace c = false ∧ Loose c

/-- **The text of a type**: brackets of each kind are closed again, and what they are opened for
is inside of them, commas in particular. -/
structure TypeText where
  chars : List Char
  ne : chars ≠ []
  parens : Balanced parens chars
  brackets : Balanced brackets chars
  braces : Balanced braces chars
  shut : Shut (Analysis.parens + Analysis.brackets + Analysis.braces) ',' chars
  head : ∀ c ∈ chars.head?, isSpace c = false
  last : ∀ c ∈ chars.getLast?, isSpace c = false

/-- **Parameters of one type**: the type alone, or names with it. All names but the last one stand
alone between commas, each with the blanks around it. -/
structure Decl where
  grouped : List (Blanks × NameText × Blanks) := []
  before : Blanks
  named : Option (NameText × Blanks)
  type : TypeText
  after : Blanks
  named_of_grouped : grouped ≠ [] → named.isSome = true

/-- What stands before the type. -/
def Decl.lead (d : Decl) : List Char :=
  d.before.chars ++ d.named.elim [] fun p => p.1.chars ++ p.2.chars

/-- What stands between the commas. -/
def Decl.segments (d : Decl) : List (List Char) :=
  (d.grouped.map fun x => x.1.chars ++ x.2.1.chars ++ x.2.2.chars) ++
    [d.lead ++ d.type.chars ++ d.after.chars]

/-- One type for each parameter. -/
def Decl.types (d : Decl) : List (List Char) := List.replicate (d.grouped.length + 1) d.type.chars

/-- **A list of parameters or results**, with what follows a comma at its end, or stands between
the parentheses of an empty list. -/
structure DeclList where
  decls : List Decl
  final : Option Blanks := none

/-- What stands between the commas. -/
def DeclList.segments (l : DeclList) : List (List Char) :=
  l.decls.flatMap Decl.segments ++ (l.final.map Blanks.chars).toList

/-- The text between the parentheses. -/
def DeclList.text (l : DeclList) : List Char := [','].intercalate l.segments

/-- The types, one for each parameter. -/
def DeclList.types (l : DeclList) : List (List Char) := l.decls.flatMap Decl.types

/-- **The results**: none, one type, or a list in parentheses. -/
inductive Results
  | none
  | one (before : Blanks) (type : TypeText) (h : type.chars.head? ≠ some '(')
  | list (before : Blanks) (l : DeclList)

/-- The text of the results. -/
def Results.text : Results → List Char
  | none => []
  | one before type _ => before.chars ++ type.chars
  | list before l => before.chars ++ '(' :: (l.text ++ [')'])

/-- The types, one for each result. -/
def Results.types : Results → List (List Char)
  | none => []
  | one _ type _ => [type.chars]
  | list _ l => l.types

/-- The receiver of a method, without the outer parentheses. -/
structure Receiver where
  chars : List Char
  parens : Balanced parens chars
  after : Blanks

/-- **A signature**, of a function, of a method with its receiver in front, or without a name. -/
structure Signature where
  afterFunc : Blanks
  receiver : Option Receiver := none
  name : Option (NameText × Blanks)
  params : DeclList
  results : Results
  named_of_receiver : receiver.isSome = true → name.isSome = true

namespace Signature

variable (s : Signature)

/-- The text from the parameters on. -/
def tail : List Char := '(' :: (s.params.text ++ ')' :: s.results.text)

/-- The text from the name on. -/
def body : List Char := (s.name.elim [] fun p => p.1.chars ++ p.2.chars) ++ s.tail

/-- **The text of a signature.** -/
def text : List Char :=
  keyword ++ s.afterFunc.chars ++
    (s.receiver.elim [] fun r => '(' :: (r.chars ++ ')' :: r.after.chars)) ++ s.body

end Signature

/-- The first type that is not `error`. -/
def firstNonError (types : List (List Char)) : List Char :=
  (types.find? fun t => t ≠ "error".toList).getD []

/-- **A signature is parsed**: with one type for each parameter, and one for each result, and the
other reader finds the first result that is not an error. -/
structure Signature.Parsed (s : Signature) : Prop where
  params : (parseSignature s.text).params = s.params.types
  returns : (parseSignature s.text).returns = s.results.types
  agrees : parseFirstNonErrorReturnType s.text = firstNonError (parseSignature s.text).returns

/-! ### Brackets in a list of parameters -/

theorem Blanks.loose (b : Blanks) : ∀ c ∈ b.chars, Loose c := by
  intro c hc
  have h := b.blank c hc
  have hne : ∀ d : Char, isSpace d = false → c ≠ d := by
    rintro d hd rfl
    exact absurd (h.symm.trans hd) (by decide)
  unfold Loose parens brackets braces weight
  rw [if_neg (hne '(' (by decide)), if_neg (hne ')' (by decide)), if_neg (hne '[' (by decide)),
    if_neg (hne ']' (by decide)), if_neg (hne '\x7b' (by decide)), if_neg (hne '\x7d' (by decide))]
  exact ⟨rfl, rfl, rfl, hne ',' (by decide)⟩

/-- The brackets that count for a comma in `parseParamList`. -/
abbrev outer : Char → ℤ := parens + brackets + braces

/-- And in `firstNonErrorReturnField`. -/
abbrev inner : Char → ℤ := parens + brackets

theorem balanced_of_loose {l : List Char} (h : ∀ c ∈ l, Loose c) :
    Balanced parens l ∧ Balanced outer l ∧ Balanced inner l :=
  ⟨Balanced.of_forall fun c hc => (h c hc).1,
    Balanced.of_forall fun c hc => by simp [(h c hc).1, (h c hc).2.1, (h c hc).2.2.1],
    Balanced.of_forall fun c hc => by simp [(h c hc).1, (h c hc).2.1]⟩

theorem TypeText.balanced (t : TypeText) : Balanced Analysis.parens t.chars ∧
    Balanced outer t.chars ∧ Balanced inner t.chars :=
  ⟨t.parens, (t.parens.add t.brackets).add t.braces, t.parens.add t.brackets⟩

theorem comma_notMem {l : List Char} (h : ∀ c ∈ l, Loose c) : ',' ∉ l := fun hc =>
  (h ',' hc).2.2.2 rfl

theorem Decl.loose_lead (d : Decl) : ∀ c ∈ d.lead, Loose c := by
  intro c hc
  rcases List.mem_append.mp hc with hc | hc
  · exact d.before.loose c hc
  · cases hn : d.named with
    | none =>
      rw [hn] at hc
      cases hc
    | some p =>
      rw [hn] at hc
      rcases List.mem_append.mp hc with hc | hc
      · exact (p.1.plain c hc).2
      · exact p.2.loose c hc

theorem loose_grouped (x : Blanks × NameText × Blanks) :
    ∀ c ∈ x.1.chars ++ x.2.1.chars ++ x.2.2.chars, Loose c := by
  intro c hc
  simp only [List.mem_append] at hc
  rcases hc with (hc | hc) | hc
  · exact x.1.loose c hc
  · exact (x.2.1.plain c hc).2
  · exact x.2.2.loose c hc

/-- **What stands between two commas**: brackets are closed, and no comma is outside of them. -/
theorem DeclList.mem_segments {l : DeclList} {t : List Char} (h : t ∈ l.segments) :
    (Balanced parens t ∧ Balanced outer t ∧ Balanced inner t) ∧ Shut outer ',' t := by
  rcases List.mem_append.mp h with h | h
  · obtain ⟨d, -, h⟩ := List.mem_flatMap.mp h
    rcases List.mem_append.mp h with h | h
    · obtain ⟨x, -, rfl⟩ := List.mem_map.mp h
      exact ⟨balanced_of_loose (loose_grouped x),
        Shut.of_notMem (comma_notMem (loose_grouped x))⟩
    · obtain rfl := List.mem_singleton.mp h
      obtain ⟨hp, ho, hi⟩ := balanced_of_loose d.loose_lead
      obtain ⟨htp, hto, hti⟩ := d.type.balanced
      obtain ⟨hap, hao, hai⟩ := balanced_of_loose d.after.loose
      refine ⟨⟨(hp.append htp).append hap, (ho.append hto).append hao,
        (hi.append hti).append hai⟩, ?_⟩
      refine Shut.append_of_notMem (Shut.append ?_ ho.depth_eq d.type.shut)
        (comma_notMem d.after.loose)
      exact Shut.of_notMem (comma_notMem d.loose_lead)
  · obtain ⟨b, hb, rfl⟩ := Option.map_eq_some_iff.mp (Option.mem_toList.mp h)
    exact ⟨balanced_of_loose b.loose, Shut.of_notMem (comma_notMem b.loose)⟩

theorem DeclList.balanced_text (l : DeclList) : Balanced parens l.text :=
  Balanced.intercalate (by decide) fun _ ht => (mem_segments ht).1.1

/-! ### Reading a list of parameters -/

/-- Blanks in front of a text are in front of its first piece. -/
theorem map_trimSpace_splitFrom {w : Char → ℤ} {b : List Char}
    (hb : ∀ c ∈ b, isSpace c = true) (d : ℤ) (start l : List Char) :
    (splitFrom w ',' d (b ++ start) l).map trimSpace =
      (splitFrom w ',' d start l).map trimSpace := by
  induction l generalizing d start with
  | nil => simp only [splitFrom, List.map_cons, List.map_nil, trimSpace_blanks_append hb]
  | cons a l ih =>
    rw [splitFrom, splitFrom]
    split
    · rw [List.map_cons, List.map_cons, trimSpace_blanks_append hb]
    · rw [List.append_assoc]
      exact ih _ _

theorem splitFrom_loose {w : Char → ℤ} {b : List Char} (hw : ∀ c ∈ b, w c = 0) (hc : ',' ∉ b)
    (d : ℤ) (start l : List Char) :
    splitFrom w ',' d start (b ++ l) = splitFrom w ',' d (start ++ b) l := by
  induction b generalizing start with
  | nil => rw [List.nil_append, List.append_nil]
  | cons a b ih =>
    rw [List.forall_mem_cons] at hw
    rw [List.mem_cons, not_or] at hc
    rw [List.cons_append, splitFrom, if_neg fun h => hc.1 h.1.symm, hw.1, add_zero,
      ih hw.2 hc.2, List.append_assoc, List.singleton_append]

/-- Blanks behind a text are behind its last piece. -/
theorem map_trimSpace_splitFrom_append {w : Char → ℤ} {b : List Char}
    (hw : ∀ c ∈ b, w c = 0) (hc : ',' ∉ b) (hb : ∀ c ∈ b, isSpace c = true) (d : ℤ)
    (start l : List Char) :
    (splitFrom w ',' d start (l ++ b)).map trimSpace =
      (splitFrom w ',' d start l).map trimSpace := by
  induction l generalizing d start with
  | nil =>
    have h := splitFrom_loose hw hc d start []
    rw [List.append_nil] at h
    rw [List.nil_append, h]
    simp only [splitFrom, List.map_cons, List.map_nil, trimSpace_append_blanks hb]
  | cons a l ih =>
    rw [List.cons_append, splitFrom, splitFrom]
    split
    · rw [List.map_cons, List.map_cons, ih]
    · exact ih _ _

/-- **Trimming a list first** does not change its trimmed pieces. -/
theorem map_trimSpace_split_trimSpace {w : Char → ℤ}
    (hw : ∀ c, isSpace c = true → w c = 0) (l : List Char) :
    (split w ',' (trimSpace l)).map trimSpace = (split w ',' l).map trimSpace := by
  obtain ⟨b, b', hb, hb', heq⟩ := exists_trimSpace l
  have hcomma : ∀ u : List Char, (∀ c ∈ u, isSpace c = true) → ',' ∉ u := fun u hu hc =>
    absurd (hu ',' hc) (by decide)
  have hback := map_trimSpace_splitFrom_append (fun c hc => hw c (hb' c hc)) (hcomma b' hb') hb'
    0 [] (b ++ trimSpace l)
  rw [← heq] at hback
  rw [split, split, hback, splitFrom_loose (fun c hc => hw c (hb c hc)) (hcomma b hb),
    List.nil_append, ← List.append_nil b, map_trimSpace_splitFrom hb]

theorem weight_blank {c : Char} (h : isSpace c = true) : outer c = 0 ∧ inner c = 0 := by
  obtain ⟨hp, hs, hb, -⟩ := (⟨[c], fun d hd => List.mem_singleton.mp hd ▸ h⟩ : Blanks).loose c
    (List.mem_singleton_self c)
  exact ⟨by simp [hp, hs, hb], by simp [hp, hs]⟩

/-- **parseParamList** reads the last field of every piece that is not blank. -/
theorem parseParamList_eq (l : List Char) : parseParamList l =
    (((split outer ',' l).map trimSpace).filter fun part => part ≠ []).map extractType := by
  rw [← map_trimSpace_split_trimSpace fun c hc => (weight_blank hc).1]
  unfold parseParamList
  simp only
  split
  · rename_i hnil
    rw [hnil]
    rfl
  · rfl

/-- The last field of a text. -/
def lastField (l : List Char) : List Char := (fields l).getLast?.getD []

theorem lastField_of_mem {l : List Char} : lastField l = [] ∨ lastField l ∈ fields l := by
  unfold lastField
  cases h : (fields l).getLast? with
  | none => exact Or.inl rfl
  | some w => exact Or.inr (List.mem_of_getLast? h)

theorem not_blank_lastField (l : List Char) : ∀ c ∈ lastField l, isSpace c = false := by
  intro c hc
  rcases @lastField_of_mem l with h | h
  · rw [h] at hc
    cases hc
  · exact (of_mem_fields h).2.1 c hc

theorem length_lastField_le (l : List Char) : (lastField l).length ≤ l.length := by
  rcases @lastField_of_mem l with h | h
  · rw [h]
    exact Nat.zero_le _
  · exact (of_mem_fields h).2.2

theorem lastField_of_not_blank {l : List Char} (h : ∀ c ∈ l, isSpace c = false) :
    lastField l = l := by
  by_cases hnil : l = []
  · rw [hnil]
    rfl
  · rw [lastField, fields_of_forall hnil h]
    rfl

theorem extractType_trimSpace (l : List Char) : extractType (trimSpace l) = lastField l := by
  rw [extractType, fields_trimSpace, fields_trimSpace, lastField]

/-- What is read of the parameters of one type. -/
def Decl.read (d : Decl) : List (List Char) :=
  d.grouped.map (fun x => x.2.1.chars) ++ [lastField (d.lead ++ d.type.chars)]

theorem lastField_append_blanks {b : List Char} (hb : ∀ c ∈ b, isSpace c = true) (l : List Char) :
    lastField (l ++ b) = lastField l := by
  rw [lastField, fields_append_blanks hb, lastField]

theorem NameText.lastField (n : NameText) (b b' : Blanks) :
    lastField (b.chars ++ n.chars ++ b'.chars) = n.chars := by
  rw [Analysis.lastField, fields_append_blanks b'.blank, fields_blanks_append b.blank,
    fields_of_forall n.ne fun c hc => (n.plain c hc).1]
  rfl

theorem NameText.not_blank (n : NameText) {l : List Char} (h : ∀ c ∈ n.chars, c ∈ l) :
    trimSpace l ≠ [] := by
  intro hnil
  obtain ⟨c, hc⟩ := List.exists_mem_of_ne_nil _ n.ne
  have hblank := trimSpace_eq_nil_iff.mp hnil c (h c hc)
  rw [(n.plain c hc).1] at hblank
  cases hblank

theorem TypeText.not_blank (t : TypeText) {l : List Char} (h : ∀ c ∈ t.chars, c ∈ l) :
    trimSpace l ≠ [] := by
  intro hnil
  obtain ⟨c, hc⟩ := Option.isSome_iff_exists.mp (List.isSome_head?.mpr t.ne)
  have hblank := trimSpace_eq_nil_iff.mp hnil c (h c (List.mem_of_mem_head? hc))
  rw [t.head c hc] at hblank
  cases hblank

/-- What is read of some pieces. -/
def readPieces (l : List (List Char)) : List (List Char) :=
  ((l.map trimSpace).filter fun part => part ≠ []).map extractType

theorem readPieces_append (l l' : List (List Char)) :
    readPieces (l ++ l') = readPieces l ++ readPieces l' := by
  simp only [readPieces, List.map_append, List.filter_append]

theorem readPieces_cons {t : List Char} (h : trimSpace t ≠ []) (l : List (List Char)) :
    readPieces (t :: l) = lastField t :: readPieces l := by
  rw [readPieces, List.map_cons, List.filter_cons, if_pos (decide_eq_true h), List.map_cons,
    extractType_trimSpace, readPieces]

theorem Decl.readPieces_segments (d : Decl) : readPieces d.segments = d.read := by
  have hgrouped : ∀ l : List (Blanks × NameText × Blanks),
      readPieces (l.map fun x => x.1.chars ++ x.2.1.chars ++ x.2.2.chars) =
        l.map fun x => x.2.1.chars := by
    intro l
    induction l with
    | nil => rfl
    | cons x l ih =>
      have hne : trimSpace (x.1.chars ++ x.2.1.chars ++ x.2.2.chars) ≠ [] :=
        x.2.1.not_blank fun c hc => List.mem_append_left _ (List.mem_append_right _ hc)
      rw [List.map_cons, readPieces_cons hne, ih, x.2.1.lastField, List.map_cons]
  have hne : trimSpace (d.lead ++ d.type.chars ++ d.after.chars) ≠ [] :=
    d.type.not_blank fun c hc => List.mem_append_left _ (List.mem_append_right _ hc)
  rw [Decl.segments, readPieces_append, hgrouped, readPieces_cons hne,
    lastField_append_blanks d.after.blank]
  rfl

/-- **What parseParamList reads** of a list. -/
theorem DeclList.parseParamList_text (l : DeclList) :
    parseParamList l.text = l.decls.flatMap Decl.read := by
  have hfinal : readPieces (l.final.map Blanks.chars).toList = [] := by
    cases l.final with
    | none => rfl
    | some b =>
      have hnil : trimSpace b.chars = [] := trimSpace_eq_nil_iff.mpr b.blank
      rw [Option.map_some, Option.toList_some, readPieces, List.map_singleton, hnil]
      rfl
  have hread : readPieces l.segments = l.decls.flatMap Decl.read := by
    rw [DeclList.segments, readPieces_append, hfinal, List.append_nil]
    induction l.decls with
    | nil => rfl
    | cons d ds ih =>
      rw [List.flatMap_cons, readPieces_append, ih, d.readPieces_segments, List.flatMap_cons]
  rw [parseParamList_eq]
  by_cases hnil : l.segments = []
  · rw [hnil] at hread
    rw [DeclList.text, hnil, ← hread]
    rfl
  · have hsplit : split outer ',' l.text = l.segments := by
      rw [DeclList.text, split_intercalate (by decide) hnil fun t ht =>
        (mem_segments ht).1.2.1.depth_eq]
      refine (List.flatMap_congr fun t ht => split_of_shut (mem_segments ht).2).trans ?_
      exact List.flatMap_singleton' _
    rw [hsplit]
    exact hread

/-! ### When the types are read -/

/-- **The types of some parameters are read**: the type has no blanks, it is apart from the name,
and the names that stand alone are the type's. -/
structure Decl.Simple (d : Decl) : Prop where
  type : ∀ c ∈ d.type.chars, isSpace c = false
  named : ∀ p ∈ d.named, p.2.chars ≠ []
  grouped : ∀ x ∈ d.grouped, x.2.1.chars = d.type.chars

/-- What stands before a type ends in a blank, if it does not end in a name. -/
theorem Decl.getLast?_lead (d : Decl) (h : ∀ p ∈ d.named, p.2.chars ≠ []) :
    ∀ c ∈ d.lead.getLast?, isSpace c = true := by
  intro c hc
  unfold Decl.lead at hc
  cases hn : d.named with
  | none =>
    rw [hn, Option.elim_none, List.append_nil] at hc
    exact d.before.blank c (List.mem_of_getLast? hc)
  | some p =>
    rw [hn, Option.elim_some, List.getLast?_append_of_ne_nil _ (by simp [h p hn]),
      List.getLast?_append_of_ne_nil _ (h p hn)] at hc
    exact p.2.blank c (List.mem_of_getLast? hc)

/-- The last field. -/
theorem Decl.lastField_eq_iff (d : Decl) : lastField (d.lead ++ d.type.chars) = d.type.chars ↔
    (∀ c ∈ d.type.chars, isSpace c = false) ∧ ∀ p ∈ d.named, p.2.chars ≠ [] := by
  constructor
  · intro h
    have hblank : ∀ c ∈ d.type.chars, isSpace c = false := h ▸ not_blank_lastField _
    refine ⟨hblank, fun p hp hgap => ?_⟩
    -- without a blank, the name is part of the field
    have hlead : d.lead ++ d.type.chars = d.before.chars ++ (p.1.chars ++ d.type.chars) := by
      rw [Decl.lead, Option.mem_def.mp hp, Option.elim_some, hgap, List.append_nil,
        List.append_assoc]
    have hword : ∀ c ∈ p.1.chars ++ d.type.chars, isSpace c = false := fun c hc =>
      (List.mem_append.mp hc).elim (fun hc => (p.1.plain c hc).1) (hblank c)
    rw [hlead, lastField, fields_blanks_append d.before.blank, ← lastField,
      lastField_of_not_blank hword] at h
    exact p.1.ne (List.append_left_eq_self.mp h)
  · rintro ⟨hblank, hgap⟩
    rw [lastField, getLast?_fields d.type.ne hblank (d.getLast?_lead hgap)]
    rfl

theorem Decl.read_eq_iff (d : Decl) : d.read = d.types ↔ d.Simple := by
  have hgrouped : d.grouped.map (fun x => x.2.1.chars) =
      List.replicate d.grouped.length d.type.chars ↔
        ∀ x ∈ d.grouped, x.2.1.chars = d.type.chars := by
    rw [List.eq_replicate_iff, List.length_map, and_iff_right rfl, List.forall_mem_map]
  rw [Decl.read, Decl.types, List.replicate_succ']
  constructor
  · intro h
    obtain ⟨hnames, hlast⟩ := List.append_inj' h rfl
    obtain ⟨htype, hnamed⟩ := d.lastField_eq_iff.mp (List.cons.inj hlast).1
    exact ⟨htype, hnamed, hgrouped.mp hnames⟩
  · rintro ⟨htype, hnamed, hnames⟩
    rw [hgrouped.mpr hnames, d.lastField_eq_iff.mpr ⟨htype, hnamed⟩]

/-- **The types of a list are read** if those of all of its parameters are. -/
theorem DeclList.read_eq_iff (l : DeclList) :
    parseParamList l.text = l.types ↔ ∀ d ∈ l.decls, d.Simple := by
  rw [l.parseParamList_text, DeclList.types]
  induction l.decls with
  | nil => exact iff_of_true rfl fun _ h => nomatch h
  | cons d ds ih =>
    have hlen : d.read.length = d.types.length := by simp [Decl.read, Decl.types]
    rw [List.flatMap_cons, List.flatMap_cons, List.forall_mem_cons, ← ih, ← d.read_eq_iff]
    exact ⟨fun h => List.append_inj h hlen, fun ⟨h, h'⟩ => by rw [h, h']⟩

/-! ### parseSignature -/

theorem parseParamList_nil : parseParamList [] = [] := rfl

theorem NameText.head (n : NameText) (l : List Char) :
    ∀ c ∈ (n.chars ++ l).head?, isSpace c = false ∧ c ≠ '(' := by
  intro c hc
  rw [List.head?_append_of_ne_nil _ n.ne] at hc
  obtain ⟨hblank, hloose⟩ := n.plain c (List.mem_of_mem_head? hc)
  refine ⟨hblank, ?_⟩
  rintro rfl
  exact absurd hloose.1 (by decide)

/-- What is read of the results. -/
def Results.read : Results → List (List Char)
  | .none => []
  | .one _ type _ => [type.chars]
  | .list _ l => parseParamList l.text

theorem DeclList.parseParamList_ite (l : List Char) :
    (if l = [] then [] else parseParamList l) = parseParamList l := by
  split
  · rename_i hnil
    rw [hnil, parseParamList_nil]
  · rfl

theorem closing_text {l : List Char} (h : Balanced parens l) (r : List Char) :
    closing parens 1 [] (l ++ ')' :: r) = some (l, r) :=
  closing_eq h (by decide) r

/-- The first parenthesis. -/
theorem dropWhile_append {u : List Char} (hu : '(' ∉ u) (l : List Char) :
    (u ++ '(' :: l).dropWhile (fun c => decide (c ≠ '(')) = '(' :: l := by
  have hall : ∀ c ∈ u, decide (c ≠ '(') = true := fun c hc =>
    decide_eq_true fun heq => hu (heq ▸ hc)
  rw [List.dropWhile_append_of_pos hall, List.dropWhile_cons_of_neg (by simp)]

/-- **The first list in parentheses.** -/
theorem extractBalancedParens_append {u : List Char} (hu : '(' ∉ u) {l : List Char}
    (h : Balanced parens l) (r : List Char) :
    extractBalancedParens (u ++ '(' :: (l ++ ')' :: r)) = (l, r) := by
  unfold extractBalancedParens
  rw [dropWhile_append hu]
  simp only [closing_text h, Option.getD_some]

/-- The results are trimmed to their text, without the blanks in front. -/
theorem Results.trimSpace_text (r : Results) : trimSpace r.text = match r with
    | .none => []
    | .one _ type _ => type.chars
    | .list _ l => '(' :: (l.text ++ [')']) := by
  cases r with
  | none => rfl
  | one before type h =>
    rw [Results.text, trimSpace_blanks_append before.blank, trimSpace_eq_self type.head type.last]
  | list before l =>
    have hlast : ∀ c ∈ ('(' :: (l.text ++ [')'])).getLast?, isSpace c = false := by
      intro c hc
      rw [← List.cons_append, List.getLast?_concat] at hc
      obtain rfl := Option.some.inj hc
      decide
    have hhead : ∀ c ∈ ('(' :: (l.text ++ [')'])).head?, isSpace c = false := by
      intro c hc
      obtain rfl := Option.some.inj hc
      decide
    rw [Results.text, trimSpace_blanks_append before.blank, trimSpace_eq_self hhead hlast]

/-- The end of a signature is not a blank. -/
theorem Signature.last_text (s : Signature) : ∀ c ∈ s.text.getLast?, isSpace c = false := by
  have hresults : ∀ c ∈ (')' :: s.results.text).getLast?, isSpace c = false := by
    intro c hc
    cases hr : s.results with
    | none =>
      rw [hr] at hc
      obtain rfl := Option.some.inj hc
      decide
    | one before type h =>
      rw [hr, Results.text, ← List.cons_append, List.getLast?_append_of_ne_nil _ type.ne] at hc
      exact type.last c hc
    | list before l =>
      rw [hr, Results.text, ← List.cons_append, ← List.cons_append, ← List.append_assoc,
        List.getLast?_concat] at hc
      obtain rfl := Option.some.inj hc
      decide
  intro c hc
  refine hresults c ?_
  unfold Signature.text Signature.body Signature.tail at hc
  rw [← List.cons_append] at hc
  rwa [List.getLast?_append_of_ne_nil _ (by simp), List.getLast?_append_of_ne_nil _ (by simp),
    List.getLast?_append_of_ne_nil _ (by simp)] at hc

theorem Signature.trimSpace_text (s : Signature) : trimSpace s.text = s.text := by
  refine trimSpace_eq_self (fun c hc => ?_) s.last_text
  have hf : s.text.head? = some 'f' := rfl
  rw [hf] at hc
  obtain rfl := Option.some.inj hc
  decide

/-- What follows the keyword. -/
def Signature.afterKeyword (s : Signature) : List Char :=
  (s.receiver.elim [] fun r => '(' :: (r.chars ++ ')' :: r.after.chars)) ++ s.body

theorem Signature.head_afterKeyword (s : Signature) :
    ∀ c ∈ s.afterKeyword.head?, isSpace c = false := by
  intro c hc
  unfold afterKeyword at hc
  cases hr : s.receiver with
  | some r =>
    rw [hr] at hc
    obtain rfl := Option.some.inj hc
    decide
  | none =>
    rw [hr, Option.elim_none, List.nil_append, Signature.body] at hc
    cases hn : s.name with
    | some p =>
      rw [hn, Option.elim_some, List.append_assoc] at hc
      exact (p.1.head _ c hc).1
    | none =>
      rw [hn] at hc
      obtain rfl := Option.some.inj hc
      decide

theorem Signature.trimSpace_drop (s : Signature) :
    keyword.isPrefixOf s.text = true ∧
      trimSpace (s.text.drop keyword.length) = s.afterKeyword := by
  have htext : s.text = keyword ++ (s.afterFunc.chars ++ s.afterKeyword) := by
    simp only [text, afterKeyword, List.append_assoc]
  refine ⟨?_, ?_⟩
  · rw [htext]
    exact List.isPrefixOf_iff_prefix.mpr (List.prefix_append _ _)
  · rw [htext, List.drop_left, trimSpace_blanks_append s.afterFunc.blank]
    refine trimSpace_eq_self s.head_afterKeyword fun c hc => s.last_text c ?_
    have hne : s.afterKeyword ≠ [] := by
      unfold afterKeyword body tail
      simp
    rwa [htext, List.getLast?_append_of_ne_nil _ (by simp [hne]),
      List.getLast?_append_of_ne_nil _ hne]

theorem Signature.text_ne (s : Signature) : s.text ≠ [] := by
  have hf : s.text.head? = some 'f' := rfl
  intro hnil
  rw [hnil] at hf
  cases hf

/-- What **parseSignature** makes of what follows the keyword. -/
theorem Signature.parseSignature_text (s : Signature) : parseSignature s.text =
    { params := parseParamList (extractBalancedParens s.afterKeyword).1
      returns :=
        let rest := trimSpace (extractBalancedParens s.afterKeyword).2
        if rest = [] then []
        else if rest.head? = some '(' then parseParamList (extractBalancedParens rest).1
        else [trimSpace rest] } := by
  obtain ⟨hkeyword, hdrop⟩ := s.trimSpace_drop
  unfold parseSignature
  simp only [s.trimSpace_text, s.text_ne, hkeyword, hdrop, if_true, if_false,
    DeclList.parseParamList_ite]

/-- **Without a receiver**, the lists of the signature are read. -/
theorem Signature.parseSignature_of_none (s : Signature) (h : s.receiver = none) :
    parseSignature s.text = ⟨parseParamList s.params.text, s.results.read⟩ := by
  have hname : '(' ∉ s.name.elim [] fun p => p.1.chars ++ p.2.chars := by
    cases s.name with
    | none => exact List.not_mem_nil
    | some p =>
      intro hc
      rcases List.mem_append.mp hc with hc | hc
      · exact absurd (p.1.plain '(' hc).2.1 (by decide)
      · exact absurd (p.2.blank '(' hc) (by decide)
  have hbody : extractBalancedParens s.afterKeyword = (s.params.text, s.results.text) := by
    rw [afterKeyword, h, Option.elim_none, List.nil_append, body, tail]
    exact extractBalancedParens_append hname s.params.balanced_text _
  rw [s.parseSignature_text, hbody]
  simp only [s.results.trimSpace_text]
  cases s.results with
  | none => rfl
  | one before type htype =>
    simp only [type.ne, if_false, htype, trimSpace_eq_self type.head type.last, Results.read]
  | list before l =>
    have hgroup := extractBalancedParens_append (u := []) List.not_mem_nil l.balanced_text []
    simp only [List.nil_append] at hgroup
    simp only [hgroup, List.head?_cons, if_true, Results.read, List.cons_ne_nil, if_false]

/-- A type is not longer than the text of its list. -/
theorem DeclList.length_le {l : DeclList} {t : List Char} (h : t ∈ l.types) :
    t.length ≤ l.text.length := by
  obtain ⟨d, hd, ht⟩ := List.mem_flatMap.mp h
  obtain rfl := (List.mem_replicate.mp ht).2
  have hseg : d.lead ++ d.type.chars ++ d.after.chars ∈ l.segments :=
    List.mem_append_left _ (List.mem_flatMap.mpr ⟨d, hd, List.mem_append_right _
      (List.mem_singleton_self _)⟩)
  have hlong : ∀ (L : List (List Char)), ∀ x ∈ L, x.length ≤ ([','].intercalate L).length := by
    intro L
    induction L with
    | nil => exact fun x hx => nomatch hx
    | cons y L ih =>
      intro x hx
      cases L with
      | nil =>
        rw [List.mem_singleton.mp hx]
        simp
      | cons z L =>
        rw [List.intercalate_cons_cons, List.length_append, List.length_append]
        rcases List.mem_cons.mp hx with rfl | hx
        · omega
        · have := ih x hx
          omega
  have := hlong l.segments _ hseg
  rw [List.length_append, List.length_append] at this
  refine le_trans ?_ this
  omega

/-- **With a receiver**, the rest of the text is taken for the result. -/
theorem Signature.returns_ne_of_some (s : Signature) {r : Receiver} (h : s.receiver = some r) :
    (parseSignature s.text).returns ≠ s.results.types := by
  obtain ⟨p, hp⟩ := Option.isSome_iff_exists.mp (s.named_of_receiver (by rw [h]; rfl))
  have hgroup := extractBalancedParens_append (u := []) List.not_mem_nil r.parens
    (r.after.chars ++ s.body)
  rw [List.nil_append] at hgroup
  have hkeyword : s.afterKeyword = '(' :: (r.chars ++ ')' :: (r.after.chars ++ s.body)) := by
    rw [afterKeyword, h, Option.elim_some, List.cons_append, List.append_assoc,
      List.cons_append]
  have hhead := p.1.head (p.2.chars ++ s.tail)
  have hbody : s.body = p.1.chars ++ (p.2.chars ++ s.tail) := by
    rw [body, hp, Option.elim_some, List.append_assoc]
  have hlast : ∀ c ∈ s.body.getLast?, isSpace c = false := by
    refine fun c hc => s.last_text c ?_
    rwa [text, List.getLast?_append_of_ne_nil _ (by simp [hbody, p.1.ne])]
  have htrim : trimSpace (r.after.chars ++ s.body) = s.body := by
    rw [trimSpace_blanks_append r.after.blank]
    refine trimSpace_eq_self (fun c hc => ?_) hlast
    rw [hbody] at hc
    exact (hhead c hc).1
  have hne : s.body ≠ [] := by simp [hbody, p.1.ne]
  have hparen : s.body.head? ≠ some '(' := fun hc => by
    rw [hbody] at hc
    exact (hhead '(' hc).2 rfl
  rw [s.parseSignature_text, hkeyword, hgroup]
  simp only [htrim, hne, if_false, hparen]
  rw [trimSpace_eq_self (fun c hc => (hhead c (hbody ▸ hc)).1) hlast]
  -- it is longer than every result
  intro heq
  have hlong : s.results.text.length < s.body.length := by
    rw [body, tail, List.length_append, List.length_cons, List.length_append, List.length_cons]
    omega
  have hmem : s.body ∈ s.results.types := heq ▸ List.mem_singleton_self _
  refine absurd hlong (not_lt_of_ge ?_)
  cases hr : s.results with
  | none =>
    rw [hr] at hmem
    cases hmem
  | one before type htype =>
    rw [hr] at hmem
    rw [List.mem_singleton.mp hmem, Results.text, List.length_append]
    omega
  | list before l =>
    rw [hr] at hmem
    have := DeclList.length_le hmem
    rw [Results.text, List.length_append, List.length_cons, List.length_append]
    omega

/-! ### parseFirstNonErrorReturnType -/

/-- The type of a field is its last field. -/
theorem fieldType_trimSpace (l : List Char) : fieldType (trimSpace l) = lastField l := by
  unfold fieldType lastField
  rw [fields_trimSpace]
  split
  · rfl
  · rename_i hlen
    obtain ⟨hhead, hlast⟩ := trimSpace_ends l
    have hblank := not_isSpace_of_length_fields hhead hlast
      (by rw [fields_trimSpace]; exact not_lt.mp hlen)
    have h := lastField_of_not_blank hblank
    rw [lastField, fields_trimSpace] at h
    exact h.symm

/-- The first type that is not an error for the reader. -/
def clause (l : List (List Char)) : List Char := (l.find? fun t => !isError t).getD []

theorem clause_append_nil (l : List (List Char)) : clause (l ++ [[]]) = clause l := by
  unfold clause
  rw [List.find?_append]
  cases l.find? fun t => !isError t with
  | none => rfl
  | some t => rfl

theorem mem_of_clause {l : List (List Char)} {t : List Char} (h : clause l = t) (hne : t ≠ []) :
    t ∈ l ∧ isError t = false := by
  unfold clause at h
  cases hf : l.find? fun t => !isError t with
  | none =>
    rw [hf] at h
    exact absurd h.symm hne
  | some x =>
    rw [hf] at h
    subst h
    have hx := List.find?_some hf
    exact ⟨List.mem_of_find?_eq_some hf, by simpa using hx⟩

/-- **firstNonErrorReturnField** looks at the last field of every piece. -/
theorem firstNonErrorReturnField_eq (l : List Char) :
    firstNonErrorReturnField l = clause ((split inner ',' l).map lastField) := by
  have hpieces : split inner ',' l =
      (split inner ',' l).dropLast ++ [(split inner ',' l).getLast?.getD []] := by
    have hne : split inner ',' l ≠ [] := splitFrom_ne_nil _ _ _
    rw [List.getLast?_eq_some_getLast hne, Option.getD_some, List.dropLast_append_getLast]
  have hmap : ∀ L : List (List Char), (L.map trimSpace).map fieldType = L.map lastField := by
    intro L
    rw [List.map_map]
    exact List.map_congr_left fun p _ => fieldType_trimSpace p
  unfold firstNonErrorReturnField
  simp only
  rw [← clause, List.map_append, hmap]
  conv_rhs => rw [hpieces, List.map_append, List.map_singleton]
  split
  · rename_i hnil
    have hlast := fieldType_trimSpace ((split inner ',' l).getLast?.getD [])
    rw [hnil] at hlast
    have hempty : fieldType [] = [] := rfl
    rw [← hlast, hempty, clause_append_nil, List.map_nil, List.append_nil]
  · rw [List.map_singleton, fieldType_trimSpace]

theorem length_firstNonErrorReturnField_le (l : List Char) :
    (firstNonErrorReturnField l).length ≤ l.length := by
  rw [firstNonErrorReturnField_eq]
  by_cases hnil : clause ((split inner ',' l).map lastField) = []
  · rw [hnil]
    exact Nat.zero_le _
  · obtain ⟨p, hp, heq⟩ := List.mem_map.mp (mem_of_clause rfl hnil).1
    rw [← heq]
    exact (length_lastField_le p).trans (length_le_of_mem_split hp)

/-- A text without blanks, and blanks after it. -/
theorem map_lastField_split {v b : List Char} (hv : ∀ c ∈ v, isSpace c = false)
    (hb : ∀ c ∈ b, isSpace c = true) (hw : ∀ c ∈ b, Loose c) :
    (split inner ',' (v ++ b)).map lastField = split inner ',' v := by
  by_cases hshut : Shut inner ',' v
  · rw [split_of_shut hshut, split_of_shut (hshut.append_of_notMem (comma_notMem hw)),
      List.map_singleton, lastField_append_blanks hb, lastField_of_not_blank hv]
  · obtain ⟨u, t, hvt, hzero, hu⟩ := exists_of_not_shut hshut
    rw [hvt] at hv ⊢
    have hu' := lastField_of_not_blank fun c hc => hv c (List.mem_append_left _ hc)
    have ht : ∀ c ∈ t, isSpace c = false := fun c hc =>
      hv c (List.mem_append_right _ (List.mem_cons_of_mem _ hc))
    rw [List.append_assoc, List.cons_append, split_append hu hzero, split_append hu hzero,
      List.map_cons, hu', map_lastField_split ht hb hw]
termination_by v.length
decreasing_by
  rw [hvt, List.length_append, List.length_cons]
  omega

/-- **The pieces of some parameters**, if their types are read. -/
theorem Decl.map_lastField_segments {d : Decl} (h : d.Simple) :
    (d.segments.flatMap (split inner ',')).map lastField = d.types.flatMap (split inner ',') := by
  have hlead := d.getLast?_lead h.named
  have hgrouped : ∀ x ∈ d.grouped,
      (split inner ',' (x.1.chars ++ x.2.1.chars ++ x.2.2.chars)).map lastField =
        split inner ',' d.type.chars := by
    intro x hx
    have hname := Shut.of_notMem (w := inner) (comma_notMem fun c hc => (x.2.1.plain c hc).2)
    rw [split_of_shut (Shut.of_notMem (comma_notMem (loose_grouped x))), List.map_singleton,
      x.2.1.lastField, ← h.grouped x hx, split_of_shut hname]
  have htype : (split inner ',' (d.lead ++ d.type.chars ++ d.after.chars)).map lastField =
      split inner ',' d.type.chars := by
    -- a type with a comma in braces is cut there, in the declaration as by itself
    by_cases hshut : Shut inner ',' d.type.chars
    · have hwhole : Shut inner ',' (d.lead ++ d.type.chars ++ d.after.chars) := by
        refine Shut.append_of_notMem (Shut.append ?_ ?_ hshut) (comma_notMem d.after.loose)
        · exact Shut.of_notMem (comma_notMem d.loose_lead)
        · exact (balanced_of_loose d.loose_lead).2.2.depth_eq
      rw [split_of_shut hshut, split_of_shut hwhole, List.map_singleton,
        lastField_append_blanks d.after.blank, d.lastField_eq_iff.mpr ⟨h.type, h.named⟩]
    · obtain ⟨u, t, hut, hzero, hu⟩ := exists_of_not_shut hshut
      have hblank := h.type
      rw [hut] at hblank ⊢
      have hne : u ≠ [] := fun hnil => by
        rw [hnil, List.nil_append] at hut
        exact d.type.shut [] t hut rfl
      have hpiece : Shut inner ',' (d.lead ++ u) ∧ depth inner (d.lead ++ u) = 0 := by
        have hdepth := (balanced_of_loose d.loose_lead).2.2.depth_eq
        refine ⟨Shut.append (Shut.of_notMem (comma_notMem d.loose_lead)) hdepth hu, ?_⟩
        rw [depth_append, hdepth, hzero, add_zero]
      have hlast : lastField (d.lead ++ u) = u := by
        rw [lastField, getLast?_fields hne (fun c hc => hblank c (List.mem_append_left _ hc)) hlead]
        rfl
      have hrest : ∀ c ∈ t, isSpace c = false := fun c hc =>
        hblank c (List.mem_append_right _ (List.mem_cons_of_mem _ hc))
      have htext : d.lead ++ (u ++ ',' :: t) ++ d.after.chars =
          d.lead ++ u ++ ',' :: (t ++ d.after.chars) := by simp
      rw [htext, split_append hpiece.1 hpiece.2, split_append hu hzero, List.map_cons, hlast,
        map_lastField_split hrest d.after.blank d.after.loose]
  rw [Decl.segments, Decl.types, List.replicate_succ', List.flatMap_append, List.flatMap_append,
    List.map_append, List.flatMap_singleton, List.flatMap_singleton, htype]
  refine congrArg (· ++ split inner ',' d.type.chars) ?_
  have hall : ∀ l : List (Blanks × NameText × Blanks), (∀ x ∈ l, x ∈ d.grouped) →
      ((l.map fun x => x.1.chars ++ x.2.1.chars ++ x.2.2.chars).flatMap (split inner ',')).map
        lastField = (List.replicate l.length d.type.chars).flatMap (split inner ',') := by
    intro l hl
    induction l with
    | nil => rfl
    | cons x l ih =>
      rw [List.forall_mem_cons] at hl
      rw [List.map_cons, List.flatMap_cons, List.map_append, hgrouped x hl.1, ih hl.2,
        List.length_cons, List.replicate_succ, List.flatMap_cons]
  exact hall d.grouped fun _ hx => hx

/-- **What the reader of the return clause looks at**, if the types of the list are read. -/
theorem DeclList.firstNonErrorReturnField_text {l : DeclList} (h : ∀ d ∈ l.decls, d.Simple) :
    firstNonErrorReturnField l.text = clause (l.types.flatMap (split inner ',')) := by
  rw [firstNonErrorReturnField_eq]
  have hdecls : ((l.decls.flatMap Decl.segments).flatMap (split inner ',')).map lastField =
      l.types.flatMap (split inner ',') := by
    rw [DeclList.types]
    revert h
    induction l.decls with
    | nil => exact fun _ => rfl
    | cons d ds ih =>
      intro h
      rw [List.forall_mem_cons] at h
      rw [List.flatMap_cons, List.flatMap_append, List.map_append, ih h.2,
        Decl.map_lastField_segments h.1, List.flatMap_cons, List.flatMap_append]
  have hfinal : ((l.final.map Blanks.chars).toList.flatMap (split inner ',')).map lastField = [] ∨
      ((l.final.map Blanks.chars).toList.flatMap (split inner ',')).map lastField = [[]] := by
    cases l.final with
    | none => exact Or.inl rfl
    | some b =>
      refine Or.inr ?_
      have hblank : lastField b.chars = [] := by
        have hnil := fields_append_blanks b.blank []
        rw [List.nil_append, fields_nil] at hnil
        rw [lastField, hnil]
        rfl
      rw [Option.map_some, Option.toList_some, List.flatMap_singleton,
        split_of_shut (Shut.of_notMem (comma_notMem b.loose)), List.map_singleton, hblank]
  by_cases hnil : l.segments = []
  · obtain ⟨hdnil, -⟩ := List.append_eq_nil_iff.mp hnil
    rw [hdnil] at hdecls
    rw [← hdecls, DeclList.text, hnil]
    rfl
  · rw [DeclList.text, split_intercalate (by decide) hnil fun t ht =>
      (mem_segments ht).1.2.2.depth_eq, DeclList.segments, List.flatMap_append, List.map_append,
      hdecls]
    rcases hfinal with hf | hf
    · rw [hf, List.append_nil]
    · rw [hf, clause_append_nil]

/-! ### Where the two readers agree -/

/-- The type of an error. -/
abbrev errorType : List Char := "error".toList

theorem isError_errorType : isError errorType = true := by decide

theorem split_errorType : split inner ',' errorType = [errorType] :=
  split_of_shut (Shut.of_notMem (by decide))

/-- **The other reader agrees** with the first result that is not an error, if no comma of that one
is outside of parentheses and square brackets, and it is not taken for an error. -/
theorem clause_flatMap_eq_iff {types : List (List Char)} (hne : ∀ t ∈ types, t ≠ []) :
    clause (types.flatMap (split inner ',')) = firstNonError types ↔
      ∀ t, types.find? (fun t => t ≠ errorType) = some t →
        Shut inner ',' t ∧ isError t = false := by
  unfold firstNonError
  cases hfind : types.find? fun t => decide (t ≠ errorType) with
  | none =>
    refine iff_of_true ?_ fun t ht => absurd ht (Option.some_ne_none t).symm
    have hall : ∀ t ∈ types, t = errorType := fun t ht => by
      simpa using List.find?_eq_none.mp hfind t ht
    have hnone : (types.flatMap (split inner ',')).find? (fun t => !isError t) = none := by
      refine List.find?_eq_none.mpr fun t ht => ?_
      obtain ⟨u, hu, ht⟩ := List.mem_flatMap.mp ht
      rw [hall u hu, split_errorType, List.mem_singleton] at ht
      rw [ht, isError_errorType]
      exact Bool.false_ne_true
    rw [clause, hnone]
  | some r =>
    have hr := hne r (List.mem_of_find?_eq_some hfind)
    constructor
    · rintro h t ht
      obtain rfl := Option.some.inj ht
      obtain ⟨hmem, herr⟩ := mem_of_clause h hr
      obtain ⟨u, -, hu⟩ := List.mem_flatMap.mp hmem
      exact ⟨shut_of_mem_split hu, herr⟩
    · intro h
      obtain ⟨hshut, herr⟩ := h r rfl
      obtain ⟨-, l, l', rfl, hl⟩ := List.find?_eq_some_iff_append.mp hfind
      have hbefore : ∀ t ∈ l.flatMap (split inner ','), isError t = true := fun t ht => by
        obtain ⟨u, hu, ht⟩ := List.mem_flatMap.mp ht
        have heq : u = errorType := by simpa using hl u hu
        rw [heq, split_errorType, List.mem_singleton] at ht
        rw [ht, isError_errorType]
      have hnone : (l.flatMap (split inner ',')).find? (fun t => !isError t) = none :=
        List.find?_eq_none.mpr fun t ht => by rw [hbefore t ht]; exact Bool.false_ne_true
      rw [clause, List.flatMap_append, List.flatMap_cons, split_of_shut hshut,
        List.singleton_append, List.find?_append, hnone, List.find?_cons_of_pos (by rw [herr]; rfl)]
      rfl

/-- **One type as the result.** -/
theorem firstNonErrorReturnField_eq_iff {t : List Char} (hne : t ≠ []) :
    firstNonErrorReturnField t = firstNonError [t] ↔ t = errorType ∨
      ((∀ c ∈ t, isSpace c = false) ∧ Shut inner ',' t ∧ isError t = false) := by
  by_cases herr : t = errorType
  · rw [herr]
    exact iff_of_true rfl (Or.inl rfl)
  · have hfirst : firstNonError [t] = t := by
      have hpos : decide (t ≠ errorType) = true := decide_eq_true herr
      rw [firstNonError, List.find?_cons, hpos]
      rfl
    have hpieces : (∀ c ∈ t, isSpace c = false) →
        (split inner ',' t).map lastField = split inner ',' t := fun h => by
      have := map_lastField_split h (b := []) (fun _ hc => nomatch hc) fun _ hc => nomatch hc
      rwa [List.append_nil] at this
    rw [hfirst, firstNonErrorReturnField_eq, or_iff_right herr]
    constructor
    · intro h
      obtain ⟨hmem, hnot⟩ := mem_of_clause h hne
      have hblank : ∀ c ∈ t, isSpace c = false := by
        obtain ⟨p, -, hp⟩ := List.mem_map.mp hmem
        rw [← hp]
        exact not_blank_lastField p
      rw [hpieces hblank] at hmem
      exact ⟨hblank, shut_of_mem_split hmem, hnot⟩
    · rintro ⟨hblank, hshut, hnot⟩
      rw [hpieces hblank, split_of_shut hshut, clause, List.find?_cons_of_pos (by rw [hnot]; rfl)]
      rfl

/-- What the reader returns is shorter than what it reads. -/
theorem length_returnClause_lt {l : List Char} (hne : l ≠ []) :
    (returnClause l).length < l.length := by
  have hpos := List.length_pos_of_ne_nil hne
  have hfind : ∀ {u : List Char} {m : List Char × List Char}, findBalancedParenEnd u = some m →
      m.1.length + m.2.length + 1 < u.length := by
    intro u m hm
    unfold findBalancedParenEnd at hm
    split at hm
    · have := closing_length hm
      rw [List.length_cons]
      rw [List.length_nil] at this
      omega
    · cases hm
  unfold returnClause
  split
  · exact hpos
  · rename_i m hm
    have h1 := hfind hm
    have h2 : (l.dropWhile fun c => decide (c ≠ '(')).length ≤ l.length :=
      (List.dropWhile_suffix _).length_le
    have h3 := length_trimSpace_le m.2
    simp only
    split_ifs
    · exact hpos
    · cases hm' : findBalancedParenEnd (trimSpace m.2) with
      | none => exact hpos
      | some m' =>
        have h4 := hfind hm'
        have h5 := length_firstNonErrorReturnField_le m'.1
        rw [Option.elim_some]
        omega
    · have h4 := length_firstNonErrorReturnField_le (trimSpace m.2)
      omega

/-! ### Signatures that are parsed -/

/-- **The results are read**: a single type has no blanks, is not taken for an error, has no comma
in braces only, and does not look like the name after a receiver, unless it is `error`; in a list
the types are read, and the first that is not `error` is like that too. -/
def Results.Simple (named : Bool) : Results → Prop
  | .none => True
  | .one _ type _ => type.chars = errorType ∨
      (((∀ c ∈ type.chars, isSpace c = false) ∧ Shut inner ',' type.chars ∧
        isError type.chars = false) ∧
          (named = false → type.chars.head?.any isIdentStart = false))
  | .list _ l => (∀ d ∈ l.decls, d.Simple) ∧
      ∀ t, l.types.find? (fun t => t ≠ errorType) = some t →
        Shut inner ',' t ∧ isError t = false

/-- **A signature without a receiver, the types of which are read.** -/
structure Signature.Simple (s : Signature) : Prop where
  receiver : s.receiver = none
  params : ∀ d ∈ s.params.decls, d.Simple
  results : s.results.Simple s.name.isSome

/-- The return clause of some results. -/
def Results.clause : Results → List Char
  | .none => []
  | .one _ type _ => firstNonErrorReturnField type.chars
  | .list _ l => firstNonErrorReturnField l.text

theorem findBalancedParenEnd_group {l : List Char} (h : Balanced parens l) (r : List Char) :
    findBalancedParenEnd ('(' :: (l ++ ')' :: r)) = some (l, r) := closing_text h r

theorem Signature.returnClause_append (s : Signature) {u : List Char} (hu : '(' ∉ u) :
    returnClause (u ++ s.tail) = s.results.clause := by
  unfold returnClause
  rw [tail, dropWhile_append hu, findBalancedParenEnd_group s.params.balanced_text]
  simp only [s.results.trimSpace_text]
  cases s.results with
  | none => rfl
  | one before type htype => simp only [type.ne, if_false, htype, Results.clause]
  | list before l =>
    have hgroup := findBalancedParenEnd_group l.balanced_text []
    simp only [List.cons_ne_nil, if_false, List.head?_cons, if_true, hgroup, Option.elim_some,
      Results.clause]

/-- **What the other reader returns** without a receiver: it takes what follows the parameters of
a function without a name for one, if it begins with a letter. -/
theorem Signature.parseFirst_of_none (s : Signature) (h : s.receiver = none) :
    parseFirstNonErrorReturnType s.text =
      if s.name = none ∧ (trimSpace s.results.text).head?.any isIdentStart = true then
        returnClause (trimSpace s.results.text)
      else s.results.clause := by
  obtain ⟨hkeyword, hdrop⟩ := s.trimSpace_drop
  have hafter : s.afterKeyword = s.body := by
    rw [afterKeyword, h, Option.elim_none, List.nil_append]
  unfold parseFirstNonErrorReturnType
  simp only [s.trimSpace_text, hkeyword, if_true, hdrop, hafter]
  cases hn : s.name with
  | none =>
    have hbody : s.body = '(' :: (s.params.text ++ ')' :: s.results.text) := by
      rw [body, hn, Option.elim_none, List.nil_append, tail]
    have hclause := s.returnClause_append (u := []) List.not_mem_nil
    rw [List.nil_append, tail] at hclause
    rw [hbody, skipReceiver, List.head?_cons, if_pos rfl,
      findBalancedParenEnd_group s.params.balanced_text, Option.map_some, Option.elim_some]
    simp only [true_and]
    split
    · rfl
    · exact hclause
  | some p =>
    have hparen : '(' ∉ p.1.chars ++ p.2.chars := fun hc => by
      rcases List.mem_append.mp hc with hc | hc
      · exact absurd (p.1.plain '(' hc).2.1 (by decide)
      · exact absurd (p.2.blank '(' hc) (by decide)
    have hbody : s.body = p.1.chars ++ p.2.chars ++ s.tail := by
      rw [body, hn, Option.elim_some]
    have hhead : s.body.head? ≠ some '(' := fun hc => by
      rw [hbody, List.append_assoc] at hc
      exact (p.1.head _ '(' hc).2 rfl
    rw [skipReceiver, if_neg hhead, Option.elim_some, hbody, s.returnClause_append hparen]
    simp

theorem DeclList.ne_nil_of_mem_types {l : DeclList} : ∀ t ∈ l.types, t ≠ [] := by
  intro t ht
  obtain ⟨d, -, ht⟩ := List.mem_flatMap.mp ht
  rw [(List.mem_replicate.mp ht).2]
  exact d.type.ne

theorem Results.firstNonError_iff (r : Results) (named : Bool) :
    (r.read = r.types ∧ (if named = false ∧ (trimSpace r.text).head?.any isIdentStart = true then
        returnClause (trimSpace r.text) else r.clause) = firstNonError r.read) ↔
      r.Simple named := by
  rw [r.trimSpace_text]
  cases r with
  | none => exact iff_of_true ⟨rfl, if_neg fun h => Bool.false_ne_true h.2⟩ trivial
  | one before type htype =>
    simp only [Results.read, Results.types, true_and, Results.clause, Results.Simple]
    by_cases herr : type.chars = errorType
    · refine iff_of_true ?_ (Or.inl herr)
      simp only [herr]
      split <;> rfl
    · rw [or_iff_right herr]
      split
      · -- the type is taken for the name of a method
        rename_i hname
        refine iff_of_false (fun heq => ?_) fun hs => ?_
        · have hfirst : firstNonError [type.chars] = type.chars := by
            have hpos : decide (type.chars ≠ errorType) = true := decide_eq_true herr
            rw [firstNonError, List.find?_cons, hpos]
            rfl
          have hlt := length_returnClause_lt type.ne
          rw [heq, hfirst] at hlt
          exact lt_irrefl _ hlt
        · rw [hs.2 hname.1] at hname
          exact Bool.false_ne_true hname.2
      · rename_i hname
        rw [firstNonErrorReturnField_eq_iff type.ne, or_iff_right herr]
        refine ⟨fun hs => ⟨hs, fun hnamed => ?_⟩, And.left⟩
        exact Bool.eq_false_iff.mpr fun hc => hname ⟨hnamed, hc⟩
  | list before l =>
    have hident : (some '(').any isIdentStart = false := by decide
    simp only [Results.read, Results.types, Results.clause, Results.Simple, List.head?_cons, hident,
      Bool.false_eq_true, and_false, if_false, l.read_eq_iff]
    refine and_congr_right fun h => ?_
    rw [l.firstNonErrorReturnField_text h, l.read_eq_iff.mpr h,
      clause_flatMap_eq_iff DeclList.ne_nil_of_mem_types]

namespace Find

instance : DecidablePred Loose := fun c => by
  unfold Loose
  infer_instance

theorem plain_of_all {l : List Char}
    (h : l.all (fun c => decide (isSpace c = false ∧ Loose c)) = true) :
    ∀ c ∈ l, isSpace c = false ∧ Loose c :=
  fun c hc => of_decide_eq_true (List.all_eq_true.mp h c hc)

/-- No blanks. -/
def noBlanks : Blanks := ⟨[], List.all_eq_true.mp rfl⟩

/-- One blank. -/
def space : Blanks := ⟨[' '], List.all_eq_true.mp (by decide)⟩

/-- A word as a name. -/
def nameOf (w : List Char) (hne : w ≠ [])
    (h : w.all (fun c => decide (isSpace c = false ∧ Loose c)) = true) : NameText :=
  ⟨w, hne, plain_of_all h⟩

/-- A word as a type. -/
def typeOf (w : List Char) (hne : w ≠ [])
    (h : w.all (fun c => decide (isSpace c = false ∧ Loose c)) = true) : TypeText where
  chars := w
  ne := hne
  parens := Balanced.of_forall fun c hc => (plain_of_all h c hc).2.1
  brackets := Balanced.of_forall fun c hc => (plain_of_all h c hc).2.2.1
  braces := Balanced.of_forall fun c hc => (plain_of_all h c hc).2.2.2.1
  shut := Shut.of_notMem (comma_notMem fun c hc => (plain_of_all h c hc).2)
  head := fun c hc => (plain_of_all h c (List.mem_of_mem_head? hc)).1
  last := fun c hc => (plain_of_all h c (List.mem_of_getLast? hc)).1

/-- The receiver, with the inner parentheses. -/
def receiver : Receiver where
  chars := "(s *Store)".toList
  parens := Balanced.group (l := "s *Store".toList)
    (Balanced.of_forall fun c hc => of_decide_eq_true
      (List.all_eq_true.mp (by decide : "s *Store".toList.all (fun c => parens c = 0) = true) c hc))
    (by decide) (by decide)
  after := space

/-- `key string`. -/
def parameter : Decl where
  before := noBlanks
  named := some (nameOf "key".toList (by decide) (by decide), space)
  type := typeOf "string".toList (by decide) (by decide)
  after := noBlanks
  named_of_grouped := fun _ => rfl

/-- A method as it is stored. -/
def signature : Signature where
  afterFunc := space
  receiver := some receiver
  name := some (nameOf "Find".toList (by decide) (by decide), noBlanks)
  params := { decls := [parameter] }
  results := .one space (typeOf "*User".toList (by decide) (by decide)) (by decide)
  named_of_receiver := fun _ => rfl

example : signature.text = "func ((s *Store)) Find(key string) *User".toList := by decide

end Find

end Analysis

end Gortex
