import Gortex.Contracts.GoLines

/-!
# The shape of a struct declaration

A line of a declaration gives the fields of its declaration (`Gortex.GoShape.lineFields_field`),
and the lines between the braces of the declaration are the lines of its items. What is extracted
is therefore what is listed, on all declarations that are read as they are meant
(`Gortex.GoShape.extracted_eq_listed`); a field that is excluded by the name `-` is listed all the
same, so that what is extracted is not what `encoding/json` writes.
-/

namespace Gortex

namespace GoShape

open ContractRegistry (isWordChar isBlank trimChars)
open Backtrack (find)
open GoString (isSpace)

/-! ### Tags -/

theorem Spaces.isSpace (b : Spaces) : ∀ c ∈ b.chars, isSpace c = true := by
  intro c hc
  rw [b.space c hc]
  decide

theorem Blanks.isSpace (b : Blanks) : ∀ c ∈ b.chars, isSpace c = true := by
  intro c hc
  rcases b.blank c hc with rfl | rfl <;> decide

/-- Words with spaces between them. -/
theorem fields_entries (first : TagEntry) (rest : List (SpaceGap × TagEntry))
    (h : ∀ e ∈ first :: rest.map Prod.snd, ∀ c ∈ e.render, isSpace c = false) :
    GoText.fields (first.render ++ rest.flatMap fun e => e.1.chars ++ e.2.render) =
      (first :: rest.map Prod.snd).map TagEntry.render := by
  have hne : ∀ e : TagEntry, e.render ≠ [] := fun e => by simp [TagEntry.render]
  induction rest generalizing first with
  | nil =>
    have hfirst := h first List.mem_cons_self
    rw [List.flatMap_nil, List.append_nil, GoText.fields_of_forall (hne first) hfirst]
    rfl
  | cons e rest ih =>
    rw [List.forall_mem_cons] at h
    obtain ⟨c, b, hb⟩ := List.exists_cons_of_ne_nil e.1.ne_nil
    have hspace := e.1.isSpace
    rw [hb, List.forall_mem_cons] at hspace
    rw [List.flatMap_cons, hb, List.cons_append, List.cons_append, List.append_assoc,
      GoText.fields_append_cons hspace.1, GoText.fields_of_forall (hne first) h.1,
      GoText.fields_blanks_append hspace.2, ih e.2 h.2]
    rfl

/-- **The entries of a tag** without blanks in its values are the fields of its text. -/
theorem fields_render {t : Tag} (h : ∀ e ∈ t.entries, ∀ c ∈ e.value, isSpace c = false) :
    GoText.fields t.render = t.entries.map TagEntry.render := by
  refine fields_entries t.first t.rest fun e he c hc => ?_
  rw [TagEntry.render] at hc
  rcases List.mem_append.mp hc with hc | hc
  · rcases List.mem_append.mp hc with hc | hc
    · exact (e.plain_key c hc).1
    · rcases List.mem_cons.mp hc with rfl | hc
      · decide
      · rcases List.mem_cons.mp hc with rfl | hc
        · decide
        · exact h e he c hc
  · rw [List.mem_singleton.mp hc]
    decide

/-- An entry is the one that is looked for if its key is. -/
theorem jsonKey_prefix_iff (e : TagEntry) : jsonKey <+: e.render ↔ e.key = "json".toList := by
  have hjson : jsonKey = "json".toList ++ [':'] := by decide
  have hrender : e.render = e.key ++ [':'] ++ ('"' :: e.value ++ ['"']) := by simp [TagEntry.render]
  constructor
  · rintro ⟨t, ht⟩
    rw [hjson, hrender, List.append_assoc, List.append_assoc] at ht
    have hno : ':' ∉ e.key := fun hmem => (e.plain_key _ hmem).2.1 rfl
    obtain ⟨q, hq, -⟩ := exists_first (c := ':') ht hno
    cases q with
    | nil =>
      have hkey := (List.append_left_inj [':']).mp hq
      exact hkey.symm
    | cons c q =>
      have hlen : ':' ∈ "json".toList := by
        have hmem := congrArg List.dropLast hq
        rw [List.dropLast_concat, List.dropLast_append_cons] at hmem
        rw [hmem]
        simp
      exact absurd hlen (by decide)
  · intro h
    rw [hjson, hrender, h]
    exact List.prefix_append _ _

/-- The value of an entry is what is left between the quotes. -/
theorem trimChars_value (e : TagEntry) (h : e.key = "json".toList) :
    trimChars ['"'] (trimPrefix e.render jsonKey) = e.value := by
  have hrender : e.render = jsonKey ++ ('"' :: (e.value ++ ['"'])) := by
    rw [TagEntry.render, h]
    simp [jsonKey]
  have hquote : ∀ l : List Char, (∀ c ∈ l.head?, c ≠ '"') →
      l.dropWhile (fun c => decide (c ∈ ['"'])) = l := by
    intro l hl
    cases l with
    | nil => rfl
    | cons c l => exact List.dropWhile_cons_of_neg (by simpa using hl c rfl)
  have hpos : ∀ l : List Char, ('"' :: l).dropWhile (fun c => decide (c ∈ ['"'])) =
      l.dropWhile (fun c => decide (c ∈ ['"'])) := fun l =>
    List.dropWhile_cons_of_pos (by decide)
  have hvalue : ∀ c ∈ e.value, c ≠ '"' := fun c hc => (e.plain_value c hc).1
  rw [trimPrefix, if_pos (hrender ▸ List.prefix_append _ _), hrender, List.drop_left, trimChars,
    hpos]
  rcases hv : e.value with _ | ⟨c, v⟩
  · decide
  · rw [hv] at hvalue
    have hlast : ∀ d ∈ (c :: v).reverse.head?, d ≠ '"' := fun d hd =>
      hvalue d (List.mem_reverse.mp (List.mem_of_mem_head? hd))
    have hopen : (c :: v ++ ['"']).dropWhile (fun c => decide (c ∈ ['"'])) = c :: v ++ ['"'] := by
      refine hquote _ ?_
      rintro d ⟨⟩
      exact hvalue c List.mem_cons_self
    rw [hopen, List.reverse_append, List.reverse_singleton, List.singleton_append, hpos,
      hquote _ hlast, List.reverse_reverse]

/-- **What the code reads of a tag** is the value under `json`. -/
theorem tagParts_eq {tag : Option (Gap × Tag)}
    (h : ∀ t ∈ tag, ∀ e ∈ t.2.entries, ∀ c ∈ e.value, isSpace c = false) :
    tagParts (tagText tag) = jsonParts tag := by
  cases tag with
  | none => rfl
  | some t =>
    have hfind : (t.2.entries.map TagEntry.render).find? (fun entry => decide (jsonKey <+: entry)) =
        (t.2.entries.find? fun e => e.key = "json".toList).map TagEntry.render := by
      have hkey : (fun entry => decide (jsonKey <+: entry)) ∘ TagEntry.render =
          fun e => decide (e.key = "json".toList) := by
        funext e
        exact decide_eq_decide.mpr (jsonKey_prefix_iff e)
      rw [List.find?_map, hkey]
    rw [tagParts, tagText, Option.elim_some, fields_render (h t rfl), hfind, jsonParts, jsonValue,
      Option.bind_some]
    rcases hentry : t.2.entries.find? _ with _ | e
    · rfl
    · have hkey : e.key = "json".toList := by simpa using List.find?_some hentry
      rw [Option.map_some, Option.map_some, Option.elim_some, Option.elim_some,
        trimChars_value e hkey]

/-! ### Names -/

/-- The characters of a type are printable and in ASCII. -/
theorem toNat_of_isTypeChar {c : Char} (h : isTypeChar c = true) :
    0x20 < c.toNat ∧ c.toNat < 0x80 := by
  have hval : c.val.toNat = c.toNat := rfl
  have hA : 'A'.val.toNat = 65 := rfl
  have hZ : 'Z'.val.toNat = 90 := rfl
  have ha : 'a'.val.toNat = 97 := rfl
  have hz : 'z'.val.toNat = 122 := rfl
  have h0 : '0'.val.toNat = 48 := rfl
  have h9 : '9'.val.toNat = 57 := rfl
  have hupper : c.isUpper = decide (c.val ≥ 'A'.val ∧ c.val ≤ 'Z'.val) := rfl
  have hlower : c.isLower = (decide (c.val ≥ 'a'.val) && decide (c.val ≤ 'z'.val)) := rfl
  have hdigit : c.isDigit = (decide (c.val ≥ '0'.val) && decide (c.val ≤ '9'.val)) := rfl
  have halnum : c.isAlphanum = (c.isUpper || c.isLower || c.isDigit) := rfl
  simp only [isTypeChar, isWordChar, halnum, hupper, hlower, hdigit, Bool.or_eq_true,
    Bool.and_eq_true, decide_eq_true_eq, ge_iff_le, UInt32.le_iff_toNat_le] at h
  rcases h with (((((((h | h) | h) | rfl) | rfl) | rfl) | rfl) | rfl)
  · omega
  · omega
  · omega
  all_goals decide

theorem isSpace_of_isTypeChar {c : Char} (h : isTypeChar c = true) : isSpace c = false := by
  have hnat := toNat_of_isTypeChar h
  refine decide_eq_false ?_
  simp only [List.mem_cons, List.not_mem_nil, or_false]
  omega

theorem FieldName.isSpace_chars (n : FieldName) : ∀ c ∈ n.chars, isSpace c = false := fun c hc =>
  isSpace_of_isTypeChar (isTypeChar_of_isWordChar (n.word_chars c hc))

/-- A name between blanks. -/
theorem trimSpace_name {b b' : List Char} (hb : ∀ c ∈ b, isSpace c = true) (n : FieldName)
    (hb' : ∀ c ∈ b', isSpace c = true) : GoText.trimSpace (b ++ n.chars ++ b') = n.chars := by
  refine GoText.trimSpace_between hb hb' (fun c hc => ?_) (fun c hc => ?_)
  · exact n.isSpace_chars c (List.mem_of_mem_head? hc)
  · exact n.isSpace_chars c (List.mem_of_mem_getLast? hc)

theorem comma_notMem_name (n : FieldName) : ',' ∉ n.chars := fun h =>
  absurd (n.word_chars _ h) (by decide)

theorem comma_notMem_spaces (b : Spaces) : ',' ∉ b.chars := fun h => absurd (b.space _ h) (by decide)

/-- **The names of a declaration** are what stands between the commas, without blanks. -/
theorem names_splitOn (others : List ((Spaces × Spaces) × FieldName)) (b : Spaces)
    (n : FieldName) : ((b.chars ++ n.chars ++ renderOthers others).splitOn ',').map
      GoText.trimSpace = n.chars :: others.map fun o => o.2.chars := by
  induction others generalizing b n with
  | nil =>
    have hno : ',' ∉ b.chars ++ n.chars := fun h => (List.mem_append.mp h).elim
      (comma_notMem_spaces b) (comma_notMem_name n)
    have hnil : ∀ c ∈ ([] : List Char), GoString.isSpace c = true := fun _ h =>
      absurd h List.not_mem_nil
    have htrim := trimSpace_name b.isSpace n hnil
    rw [List.append_nil] at htrim
    rw [renderOthers, List.flatMap_nil, List.append_nil, List.splitOn_eq_singleton hno,
      List.map_singleton, htrim, List.map_nil]
  | cons o others ih =>
    have hno : ',' ∉ b.chars ++ n.chars ++ o.1.1.chars := fun h => by
      rcases List.mem_append.mp h with h | h
      · exact (List.mem_append.mp h).elim (comma_notMem_spaces b) (comma_notMem_name n)
      · exact comma_notMem_spaces o.1.1 h
    have hrender : b.chars ++ n.chars ++ renderOthers (o :: others) =
        (b.chars ++ n.chars ++ o.1.1.chars) ++ ',' ::
          (o.1.2.chars ++ o.2.chars ++ renderOthers others) := by
      simp [renderOthers]
    rw [hrender, List.splitOn_append_cons_self_of_not_mem hno, List.map_cons, ih,
      trimSpace_name b.isSpace n o.1.1.isSpace, List.map_cons]

/-! ### Types -/

theorem slice_prefix_iff (t : GoType) : ['[', ']'] <+: t.render ↔ t.isSlice = true := by
  cases t with
  | named name =>
    refine iff_of_false (fun h => ?_) Bool.false_ne_true
    have hstart := name.start
    rw [← (List.cons_prefix_cons.mp h).1] at hstart
    exact absurd hstart (by decide)
  | pointer elem =>
    exact iff_of_false (fun h => absurd (List.cons_prefix_cons.mp h).1 (by decide))
      Bool.false_ne_true
  | slice elem => exact iff_of_true ⟨elem.render, rfl⟩ rfl
  | map key elem =>
    exact iff_of_false (fun h => absurd (List.cons_prefix_cons.mp h).1 (by decide))
      Bool.false_ne_true

theorem pointer_prefix_iff (t : GoType) : ['*'] <+: t.render ↔ t.isPointer = true := by
  cases t with
  | named name =>
    refine iff_of_false (fun h => ?_) Bool.false_ne_true
    have hstart := name.start
    rw [← (List.cons_prefix_cons.mp h).1] at hstart
    exact absurd hstart (by decide)
  | pointer elem => exact iff_of_true ⟨elem.render, rfl⟩ rfl
  | slice elem =>
    exact iff_of_false (fun h => absurd (List.cons_prefix_cons.mp h).1 (by decide))
      Bool.false_ne_true
  | map key elem =>
    exact iff_of_false (fun h => absurd (List.cons_prefix_cons.mp h).1 (by decide))
      Bool.false_ne_true

theorem trimSpace_type (t : GoType) : GoText.trimSpace t.render = t.render := by
  refine GoText.trimSpace_eq_self (fun c hc => ?_) (fun c hc => ?_)
  · exact isSpace_of_isTypeChar (t.isTypeChar_render c (List.mem_of_mem_head? hc))
  · exact isSpace_of_isTypeChar (t.isTypeChar_render c (List.mem_of_mem_getLast? hc))

/-! ### The fields of a line -/

/-- A field as the extraction gives it. -/
def ShapeField.wire (f : ShapeField) : WireField := ⟨f.name, f.required, f.repeated⟩

/-- The name, whether it is required, and whether it is repeated. -/
def FieldMetadata.wire (data : FieldMetadata) (name : List Char) : WireField where
  name := if data.jsonName ≠ [] ∧ data.jsonName ≠ ['-'] then data.jsonName else name
  required := data.required
  repeated := data.repeated

section Lines

variable (isLetter : Char → Bool)

/-- A member as it is listed, if no other one has its name. -/
def Member.shown (m : Member) : WireField :=
  if m.excluded = true then m.optional else m.wire isLetter

/-- The name of a field on the wire, of a tag that does not exclude it. -/
theorem wireName_eq {tag : Option (Gap × Tag)} (h : TagReads isLetter tag)
    (hdash : (jsonParts tag).headD [] ≠ ['-']) (n : FieldName) {pointer slice : Bool} :
    (if (jsonParts tag).headD [] ≠ [] ∧ (jsonParts tag).headD [] ≠ ['-'] then
      (jsonParts tag).headD [] else n.chars) =
        (Member.wire isLetter ⟨n, tag, pointer, slice⟩).name := by
  rw [Member.wire, Member.tagged]
  by_cases hempty : (jsonParts tag).headD [] = []
  · have hinvalid : validName isLetter ((jsonParts tag).headD []) = false := by
      rw [hempty]
      exact decide_eq_false fun hvalid => hvalid.1 rfl
    rw [if_neg fun hne => hne.1 hempty]
    simp only [hinvalid, Bool.false_eq_true, if_false]
  · rw [if_pos ⟨hempty, hdash⟩]
    simp only [h.name hempty, if_true]

/-- **What the type and the tag of a field say**, of each of its names. -/
theorem wire_goFieldMetadata {tag : Option (Gap × Tag)} (h : TagReads isLetter tag) (t : GoType)
    (n : FieldName) : (goFieldMetadata t.render (tagText tag)).wire n.chars =
      Member.shown isLetter ⟨n, tag, t.isPointer, t.isSlice⟩ := by
  have hslice : decide (['[', ']'] <+: t.render) = t.isSlice := by
    rw [Bool.eq_iff_iff, decide_eq_true_eq]
    exact slice_prefix_iff t
  have hpointer : decide (¬['*'] <+: t.render) = !t.isPointer := by
    rw [decide_not, Bool.not_inj_iff, Bool.eq_iff_iff, decide_eq_true_eq]
    exact pointer_prefix_iff t
  have hexcluded : jsonValue tag = some ['-'] → jsonParts tag = [['-']] := by
    intro hvalue
    rw [jsonParts, hvalue]
    decide
  rw [goFieldMetadata, tagParts_eq h.values]
  simp only [Member.shown, Member.excluded, decide_eq_true_eq, Member.optional, hslice, hpointer]
  by_cases hempty : ((jsonParts tag).tail.any fun p => p = "omitempty".toList) = true
  · -- an option excludes nothing
    have hno : jsonValue tag ≠ some ['-'] := by
      intro hvalue
      rw [hexcluded hvalue] at hempty
      exact absurd hempty Bool.false_ne_true
    have hdash : (jsonParts tag).headD [] ≠ ['-'] := fun hhead => hno (h.dash hhead)
    rw [if_pos hempty, if_neg hno]
    refine WireField.ext ?_ ?_ rfl
    · exact wireName_eq isLetter h hdash n
    · have homits : Member.omitsEmpty ⟨n, tag, t.isPointer, t.isSlice⟩ = true := hempty
      rw [Member.wire, homits]
      rfl
  · rw [if_neg hempty]
    by_cases hdash : (jsonParts tag).headD [] = ['-']
    · rw [if_pos hdash, if_pos (h.dash hdash)]
      simp [FieldMetadata.wire]
    · have hno : jsonValue tag ≠ some ['-'] := by
        intro hvalue
        rw [hexcluded hvalue] at hdash
        exact hdash rfl
      rw [if_neg hdash, if_neg hno]
      refine WireField.ext ?_ ?_ rfl
      · exact wireName_eq isLetter h hdash n
      · have homits : Member.omitsEmpty ⟨n, tag, t.isPointer, t.isSlice⟩ = false :=
          Bool.eq_false_of_not_eq_true hempty
        rw [Member.wire, homits]
        rfl

/-! ### A line of a field -/

/-- A field does not begin with a blank. -/
theorem head?_core (f : FieldDecl) : ∀ c ∈ f.core.head?, isSpace c = false := by
  rw [core_eq]
  rintro c ⟨⟩
  exact f.first.isSpace_chars _ List.mem_cons_self

/-- It does not end with one either: its last character is one of the comment, of the tag or of
the type. -/
theorem getLast?_core (f : FieldDecl) : ∀ c ∈ f.core.getLast?, isSpace c = false := by
  have happend : ∀ u v : List Char, v ≠ [] → (∀ c ∈ v.getLast?, isSpace c = false) →
      ∀ c ∈ (u ++ v).getLast?, isSpace c = false := by
    intro u v hne hv c hc
    rw [List.getLast?_append_of_ne_nil u hne] at hc
    exact hv c hc
  have hmark : ∀ (u : List Char) (d : Char), isSpace d = false →
      ∀ c ∈ (u ++ [d]).getLast?, isSpace c = false := by
    intro u d hd
    refine happend u [d] (List.cons_ne_nil d []) ?_
    rintro c ⟨⟩
    exact hd
  have htype : f.type.render ≠ [] := by
    obtain ⟨c, t, heq, -⟩ := solid_type f.type []
    rw [List.append_nil] at heq
    rw [heq]
    exact List.cons_ne_nil c t
  rw [FieldDecl.core]
  rcases hcomment : f.comment with _ | comment
  · rw [Option.elim_none, List.append_nil]
    rcases htag : f.tag with _ | tag
    · rw [renderTag, Option.elim_none, List.append_nil]
      refine happend _ _ htype fun c hc => ?_
      exact isSpace_of_isTypeChar (f.type.isTypeChar_render c (List.mem_of_mem_getLast? hc))
    · have hrender : renderTag (some tag) = (tag.1.chars ++ '`' :: tag.2.render) ++ ['`'] := by
        simp [renderTag]
      rw [hrender, ← List.append_assoc]
      exact hmark _ '`' (by decide)
  · rw [Option.elim_some]
    by_cases htext : comment.text = []
    · have hrender : comment.render = (comment.before.chars ++ ['/']) ++ ['/'] := by
        simp [Comment.render, htext]
      rw [hrender, ← List.append_assoc]
      exact hmark _ '/' (by decide)
    · have hrender : comment.render = (comment.before.chars ++ ['/', '/']) ++ comment.text := by
        simp [Comment.render]
      rw [hrender, ← List.append_assoc]
      exact happend _ _ htext comment.ends

theorem trimSpace_field (f : FieldDecl) : GoText.trimSpace f.render = f.core :=
  GoText.trimSpace_between f.indent.isSpace f.trailing.isSpace (head?_core f) (getLast?_core f)

theorem core_ne_nil (f : FieldDecl) : f.core ≠ [] := by
  rw [core_eq]
  exact List.cons_ne_nil _ _

/-- No field is a comment. -/
theorem not_prefix_core (f : FieldDecl) : ¬['/', '/'] <+: f.core := by
  rw [core_eq, List.cons_prefix_cons]
  rintro ⟨hslash, -⟩
  exact absurd (hslash ▸ f.first.start) (by decide)

/-- The field of one of the names in a line. -/
def nameField (data : FieldMetadata) (tag comment name : List Char) : Option ShapeField :=
  if name = [] ∨ isExportedGo name = false then none
  else
    some
      { name := if data.jsonName ≠ [] ∧ data.jsonName ≠ ['-'] then data.jsonName else name
        fieldType := data.effective
        jsonTag := tag
        required := data.required
        repeated := data.repeated
        comment := truncateComment comment }

/-- Only an exported name gives a field. -/
theorem wire_nameField (data : FieldMetadata) (tag comment : List Char) (n : FieldName) :
    (nameField data tag comment n.chars).map ShapeField.wire =
      if n.first.isUpper = true then some (data.wire n.chars) else none := by
  have hexported : isExportedGo n.chars = n.first.isUpper := rfl
  have hne : n.chars ≠ [] := List.cons_ne_nil _ _
  rw [nameField, hexported]
  by_cases hup : n.first.isUpper = true
  · have hsome : ¬(n.chars = [] ∨ n.first.isUpper = false) := by simp [hne, hup]
    rw [if_neg hsome, if_pos hup]
    rfl
  · rw [if_pos (Or.inr (Bool.eq_false_of_not_eq_true hup)), if_neg hup, Option.map_none]

/-- The fields of some names, of which those are dropped that are not exported. -/
theorem filterMap_nameField {tag : Option (Gap × Tag)} (h : TagReads isLetter tag) (t : GoType)
    (comment : List Char) (names : List FieldName) :
    ((names.map FieldName.chars).filterMap
        (nameField (goFieldMetadata t.render (tagText tag)) (tagText tag) comment)).map
      ShapeField.wire =
      ((names.map fun n => Member.mk n tag t.isPointer t.isSlice).filter Member.exported).map
        (Member.shown isLetter) := by
  have hnames : ∀ n : FieldName,
      (nameField (goFieldMetadata t.render (tagText tag)) (tagText tag) comment n.chars).map
        ShapeField.wire =
      if (Member.mk n tag t.isPointer t.isSlice).exported = true then
        some (Member.shown isLetter ⟨n, tag, t.isPointer, t.isSlice⟩) else none := fun n => by
    rw [wire_nameField, wire_goFieldMetadata isLetter h t n]
    rfl
  rw [List.filterMap_map, List.map_filterMap]
  induction names with
  | nil => rfl
  | cons n names ih =>
    have hn := hnames n
    rw [List.map_cons, List.filter_cons]
    by_cases hup : (Member.mk n tag t.isPointer t.isSlice).exported = true
    · rw [if_pos hup] at hn ⊢
      rw [List.map_cons, List.filterMap_cons_some (by exact hn), ih]
    · rw [if_neg hup] at hn ⊢
      rw [List.filterMap_cons_none (by exact hn), ih]

/-- **The line of a field** gives the exported ones of its names. -/
theorem lineFields_field {f : FieldDecl} (h : f.Reads isLetter) :
    (lineFields f.render).map ShapeField.wire =
      ((Item.field f).members.filter Member.exported).map (Member.shown isLetter) := by
  have hsome : ¬(f.core = [] ∨ ['/', '/'] <+: f.core) :=
    not_or.mpr ⟨core_ne_nil f, not_prefix_core f⟩
  rcases h.names with hup | hnone
  · have hnames := names_splitOn f.others ⟨[], fun _ h => absurd h List.not_mem_nil⟩ f.first
    have hchars : f.first.chars :: f.others.map (fun o => o.2.chars) =
        f.names.map FieldName.chars := by
      rw [FieldDecl.names, List.map_cons, List.map_map]
      rfl
    rw [List.nil_append, hchars] at hnames
    have hline : lineFields f.render = (((f.first.chars ++ renderOthers f.others).splitOn ',').map
        GoText.trimSpace).filterMap (nameField (goFieldMetadata f.type.render (tagText f.tag))
          (tagText f.tag) (commentText f.comment)) := by
      rw [lineFields, trimSpace_field]
      simp only [if_neg hsome]
      rw [find_goFieldRe (h.type hup) hup, Option.elim_some, trimSpace_type, List.filterMap_map]
      rfl
    rw [hline, hnames]
    exact filterMap_nameField isLetter (h.tag hup) f.type _ f.names
  · have hmembers : (Item.field f).members.filter Member.exported = [] := by
      refine List.filter_eq_nil_iff.mpr fun m hm => ?_
      obtain ⟨n, hn, rfl⟩ := List.mem_map.mp hm
      rw [Member.exported, hnone n hn]
      exact Bool.false_ne_true
    have hline : lineFields f.render = [] := by
      rw [lineFields, trimSpace_field]
      simp only [if_neg hsome]
      rw [find_goFieldRe_unexported (hnone f.first List.mem_cons_self), Option.elim_none]
    rw [hmembers, hline]
    rfl

/-- **The lines of an item** give its exported members. -/
theorem lineFields_item {i : Item} (h : i.Reads isLetter) :
    (i.lines.flatMap lineFields).map ShapeField.wire =
      (i.members.filter Member.exported).map (Member.shown isLetter) := by
  cases i with
  | blank blanks =>
    have htrim : GoText.trimSpace blanks.chars = [] := by
      have := GoText.trimSpace_blanks_append blanks.isSpace []
      rwa [List.append_nil] at this
    rw [Item.lines, List.flatMap_singleton, lineFields, htrim]
    rfl
  | comment indent text inLine =>
    have hpre : ['/', '/'] <+: GoText.trimSpace (indent.chars ++ '/' :: '/' :: text) := by
      rw [GoText.trimSpace_blanks_append indent.isSpace]
      have hslash : isSpace '/' = false := by decide
      refine GoText.isPrefix_trimSpace (List.cons_ne_nil '/' ['/']) ?_ ?_ text
      · rintro c ⟨⟩
        exact hslash
      · rintro c ⟨⟩
        exact hslash
    rw [Item.lines, List.flatMap_singleton, lineFields]
    simp only [hpre, or_true, if_true]
    rfl
  | field f =>
    rw [Item.lines, List.flatMap_singleton]
    exact lineFields_field isLetter h
  | nested n => exact h.elim

end Lines

/-! ### The lines of the declaration -/

theorem ne_newline {c : Char} (h : isSpace c = false) : c ≠ '\n' := by
  rintro rfl
  exact absurd h (by decide)

theorem Blanks.inLine (b : Blanks) : '\n' ∉ b.chars := fun h =>
  (b.blank _ h).elim (absurd · (by decide)) (absurd · (by decide))

theorem Spaces.inLine (b : Spaces) : '\n' ∉ b.chars := fun h => absurd (b.space _ h) (by decide)

theorem FieldName.inLine (n : FieldName) : '\n' ∉ n.chars := fun h =>
  ne_newline (n.isSpace_chars _ h) rfl

theorem TagEntry.inLine (e : TagEntry) : '\n' ∉ e.render := by
  intro h
  have hrest : '\n' ∈ e.key ∨ '\n' ∈ e.value := by simpa [TagEntry.render] using h
  rcases hrest with h | h
  · exact ne_newline (e.plain_key _ h).1 rfl
  · exact (e.plain_value _ h).2.2.2 rfl

theorem renderTag_inLine (tag : Option (Gap × Tag)) : '\n' ∉ renderTag tag := by
  intro h
  rcases tag with _ | ⟨gap, t⟩
  · exact absurd h List.not_mem_nil
  · have hrest : '\n' ∈ gap.chars ∨ '\n' ∈ t.render := by simpa [renderTag] using h
    rcases hrest with h | h
    · exact gap.inLine h
    · rcases List.mem_append.mp h with h | h
      · exact t.first.inLine h
      · obtain ⟨e, -, h⟩ := List.mem_flatMap.mp h
        exact (List.mem_append.mp h).elim e.1.inLine e.2.inLine

theorem renderOthers_inLine (others : List ((Spaces × Spaces) × FieldName)) :
    '\n' ∉ renderOthers others := by
  intro h
  obtain ⟨o, -, h⟩ := List.mem_flatMap.mp h
  have hrest : '\n' ∈ o.1.1.chars ∨ '\n' ∈ o.1.2.chars ∨ '\n' ∈ o.2.chars := by simpa using h
  rcases hrest with h | h | h
  · exact o.1.1.inLine h
  · exact o.1.2.inLine h
  · exact o.2.inLine h

theorem FieldDecl.inLine (f : FieldDecl) : '\n' ∉ f.render := by
  intro h
  rw [FieldDecl.render, FieldDecl.core] at h
  simp only [List.mem_append] at h
  rcases h with (h | (((((h | h) | h) | h) | h) | h)) | h
  · exact f.indent.inLine h
  · exact f.first.inLine h
  · exact renderOthers_inLine f.others h
  · exact f.gap.inLine h
  · exact ne_newline (isSpace_of_isTypeChar (f.type.isTypeChar_render _ h)) rfl
  · exact renderTag_inLine f.tag h
  · rcases hcomment : f.comment with _ | comment
    · rw [hcomment] at h
      exact absurd h List.not_mem_nil
    · rw [hcomment] at h
      have hrest : '\n' ∈ comment.before.chars ∨ '\n' ∈ comment.text := by
        simpa [Comment.render] using h
      exact hrest.elim comment.before.inLine comment.inLine
  · exact f.trailing.inLine h

theorem Item.inLine (i : Item) : ∀ line ∈ i.lines, '\n' ∉ line := by
  cases i with
  | blank blanks => exact List.forall_mem_singleton.mpr blanks.inLine
  | comment indent text inLine =>
    refine List.forall_mem_singleton.mpr fun h => ?_
    have hrest : '\n' ∈ indent.chars ∨ '\n' ∈ text := by simpa using h
    exact hrest.elim indent.inLine inLine
  | field f => exact List.forall_mem_singleton.mpr f.inLine
  | nested n =>
    refine List.forall_mem_cons.mpr ⟨fun h => ?_, List.forall_mem_append.mpr
      ⟨n.inLine, List.forall_mem_singleton.mpr fun h => ?_⟩⟩
    · have hrest : '\n' ∈ n.indent.chars ∨ '\n' ∈ n.name.chars := by simpa using h
      exact hrest.elim n.indent.inLine n.name.inLine
    · have hrest : '\n' ∈ n.indent.chars ∨ '\n' ∈ renderTag n.tag := by simpa using h
      exact hrest.elim n.indent.inLine (renderTag_inLine n.tag)

namespace StructDecl

variable (d : StructDecl)

/-- The lines between the braces. -/
def body : List (List Char) := d.items.flatMap Item.lines

theorem inLine_body : ∀ line ∈ d.body, '\n' ∉ line := by
  intro line hline
  obtain ⟨i, -, hline⟩ := List.mem_flatMap.mp hline
  exact i.inLine line hline

theorem inLine_lines : ∀ line ∈ d.lines, '\n' ∉ line := by
  refine List.forall_mem_cons.mpr ⟨fun h => ?_, List.forall_mem_append.mpr
    ⟨d.inLine_body, List.forall_mem_singleton.mpr (by decide)⟩⟩
  have hheader : '\n' ∈ d.header := by simpa using h
  exact (d.plain_header _ hheader).2 rfl

end StructDecl

/-! ### What stands between the braces -/

/-- The last line goes on. -/
theorem intercalate_concat (lines : List (List Char)) (u v : List Char) :
    ['\n'].intercalate (lines ++ [u]) ++ v = ['\n'].intercalate (lines ++ [u ++ v]) := by
  induction lines with
  | nil => rw [List.nil_append, List.nil_append, List.intercalate_singleton,
      List.intercalate_singleton]
  | cons line lines ih =>
    have hne : ∀ w : List Char, lines ++ [w] ≠ [] := fun w => List.concat_ne_nil w lines
    rw [List.cons_append, List.cons_append, List.intercalate_cons_of_ne_nil (hne u),
      List.intercalate_cons_of_ne_nil (hne (u ++ v)), ← ih, List.append_assoc]

theorem balanced_intercalate {lines : List (List Char)}
    (h : ∀ line ∈ lines, Brackets.Balanced brace line) :
    Brackets.Balanced brace (['\n'].intercalate lines) := by
  have hsep : Brackets.Balanced brace ['\n'] :=
    Brackets.Balanced.of_forall (List.forall_mem_singleton.mpr (by decide))
  induction lines with
  | nil => exact Brackets.Balanced.of_forall fun _ h => absurd h List.not_mem_nil
  | cons line lines ih =>
    rw [List.forall_mem_cons] at h
    cases lines with
    | nil =>
      rw [List.intercalate_singleton]
      exact h.1
    | cons next lines =>
      rw [List.intercalate_cons_cons]
      exact (h.1.append hsep).append (ih h.2)

/-- **Between the braces** there are the lines of the items. -/
theorem inBraces_decl {d : StructDecl} (h : ∀ line ∈ d.body, Brackets.Balanced brace line) :
    inBraces (['\n'].intercalate d.lines) =
      some (['\n'].intercalate ([] :: (d.body ++ [[]]))) := by
  have hlines : ['\n'].intercalate d.lines =
      d.header ++ '{' :: (['\n'].intercalate ([] :: (d.body ++ [[]])) ++ ['}']) := by
    have hconcat := intercalate_concat ([] :: d.body) [] ['}']
    rw [List.cons_append, List.nil_append] at hconcat
    rw [hconcat, StructDecl.lines, ← StructDecl.body, List.cons_append,
      List.intercalate_cons_of_ne_nil (List.concat_ne_nil _ d.body),
      List.intercalate_cons_of_ne_nil (List.concat_ne_nil _ d.body)]
    simp
  have hheader : ∀ c ∈ d.header, decide (c ≠ '{') = true := fun c hc =>
    decide_eq_true (d.plain_header c hc).1
  have hbalanced : Brackets.Balanced brace (['\n'].intercalate ([] :: (d.body ++ [[]]))) := by
    have hnil : Brackets.Balanced brace [] :=
      Brackets.Balanced.of_forall fun _ h => absurd h List.not_mem_nil
    refine balanced_intercalate (List.forall_mem_cons.mpr ⟨hnil, ?_⟩)
    exact List.forall_mem_append.mpr ⟨h, List.forall_mem_singleton.mpr hnil⟩
  rw [hlines, inBraces, List.dropWhile_append_of_pos hheader,
    List.dropWhile_cons_of_neg (by decide)]
  simp only [Brackets.closing_eq hbalanced (by decide : brace '}' = -1), Option.map_some]

/-- **The span of the declaration** has its lines. -/
theorem sliceBody_text (f : SourceFile) :
    sliceBody f.text f.startLine f.endLine = ['\n'].intercalate f.decl.lines := by
  have hinLine : ∀ line ∈ f.before ++ f.decl.lines ++ f.after, '\n' ∉ line :=
    List.forall_mem_append.mpr ⟨List.forall_mem_append.mpr
      ⟨f.before_inLine, f.decl.inLine_lines⟩, f.after_inLine⟩
  have hne : f.before ++ f.decl.lines ++ f.after ≠ [] := by simp [StructDecl.lines]
  have hpos : 0 < f.decl.lines.length := by simp [StructDecl.lines]
  have hlength : (f.before ++ f.decl.lines ++ f.after).length =
      f.before.length + f.decl.lines.length + f.after.length := by
    rw [List.length_append, List.length_append]
  have htake : (f.endLine).toNat = (f.before ++ f.decl.lines).length := by
    rw [SourceFile.endLine, List.length_append]
    omega
  have hdrop : (f.startLine - 1).toNat = f.before.length := by
    rw [SourceFile.startLine]
    omega
  have hstart : ¬f.startLine ≤ 0 := by
    rw [SourceFile.startLine]
    omega
  have hin : ¬((f.before ++ f.decl.lines ++ f.after).length : ℤ) < f.startLine := by
    rw [SourceFile.startLine, hlength]
    omega
  have hend : ¬(f.endLine ≤ 0 ∨
      ((f.before ++ f.decl.lines ++ f.after).length : ℤ) < f.endLine) := by
    rw [SourceFile.endLine, hlength]
    omega
  have horder : ¬f.endLine < f.startLine := by
    rw [SourceFile.endLine, SourceFile.startLine]
    omega
  rw [sliceBody, SourceFile.text, List.splitOn_intercalate '\n' hinLine hne]
  simp only [if_neg hstart, if_neg hin, if_neg hend, if_neg horder]
  rw [htake, hdrop, List.take_left, List.drop_left]

/-- The fields that are extracted are those of the lines between the braces. -/
theorem extracted_eq {f : SourceFile}
    (h : ∀ line ∈ f.decl.body, Brackets.Balanced brace line) :
    f.extracted = (f.decl.body.flatMap lineFields).map ShapeField.wire := by
  have hbrace : '{' ∈ ['\n'].intercalate f.decl.lines := by
    rw [StructDecl.lines, List.intercalate_cons_of_ne_nil (List.concat_ne_nil _ _)]
    simp
  have hne : ['\n'].intercalate f.decl.lines ≠ [] := List.ne_nil_of_mem hbrace
  have hinLine : ∀ line ∈ [] :: (f.decl.body ++ [[]]), '\n' ∉ line :=
    List.forall_mem_cons.mpr ⟨List.not_mem_nil, List.forall_mem_append.mpr
      ⟨f.decl.inLine_body, List.forall_mem_singleton.mpr List.not_mem_nil⟩⟩
  have hlines : ([] :: (f.decl.body ++ [[]])).flatMap lineFields =
      f.decl.body.flatMap lineFields := by
    have hnil : lineFields [] = [] := rfl
    rw [List.flatMap_cons, List.flatMap_append, List.flatMap_singleton, hnil, List.nil_append,
      List.append_nil]
  rw [SourceFile.extracted, extractGoShape, sliceBody_text]
  simp only [if_neg hne, if_pos hbrace, inBraces_decl h, Option.bind_some,
    List.splitOn_intercalate '\n' hinLine (List.cons_ne_nil _ _), hlines]
  by_cases hfields : f.decl.body.flatMap lineFields = []
  · rw [if_pos hfields, hfields]
    rfl
  · rw [if_neg hfields]
    rfl

/-! ### The declaration -/

section Declaration

variable {isLetter : Char → Bool} {d : StructDecl}

/-- On the wire every name is there once, so that its field counts. -/
theorem dominates_of_nodup (h : (d.written.map fun m => (m.wire isLetter).name).Nodup)
    {m : Member} (hm : m ∈ d.written) : dominates isLetter d.written m = true := by
  have hmem : (m.wire isLetter).name ∈ d.written.map fun m => (m.wire isLetter).name :=
    List.mem_map_of_mem hm
  have hcount := List.count_eq_one_of_mem h hmem
  rw [List.count, List.countP_map, List.countP_eq_length_filter] at hcount
  refine decide_eq_true (Or.inl ?_)
  rw [← hcount]
  refine congrArg List.length (List.filter_congr fun n _ => ?_)
  exact (beq_eq_decide (Member.wire isLetter n).name (Member.wire isLetter m).name).symm

/-- What is listed, if every name is there once. -/
theorem listed_eq (h : (d.written.map fun m => (m.wire isLetter).name).Nodup) :
    d.listed isLetter = (d.members.filter Member.exported).map (Member.shown isLetter) := by
  rw [StructDecl.listed, List.map_eq_flatMap]
  refine List.flatMap_congr fun m hm => ?_
  by_cases hexcluded : m.excluded = true
  · rw [if_pos hexcluded, Member.shown, if_pos hexcluded]
  · have hwritten : m ∈ d.written := by
      rw [List.mem_filter] at hm
      refine List.mem_filter.mpr ⟨hm.1, ?_⟩
      rw [hm.2, Bool.eq_false_of_not_eq_true hexcluded]
      rfl
    rw [if_neg hexcluded, if_pos (dominates_of_nodup h hwritten), Member.shown, if_neg hexcluded]

end Declaration

namespace Account

theorem blank_nil : ∀ c ∈ ([] : List Char), c = ' ' ∨ c = '\t' := fun _ h =>
  absurd h List.not_mem_nil

theorem blank_space : ∀ c ∈ [' '], c = ' ' ∨ c = '\t' := fun _ h => Or.inl (List.mem_singleton.mp h)

def noBlanks : Blanks := ⟨[], blank_nil⟩

def tab : Blanks := ⟨['\t'], fun _ h => Or.inr (List.mem_singleton.mp h)⟩

theorem space_ne_nil : [' '] ≠ [] := List.cons_ne_nil ' ' []

def space : Gap := ⟨⟨[' '], blank_space⟩, space_ne_nil⟩

def noSpaces : Spaces := ⟨[], fun _ h => absurd h List.not_mem_nil⟩

def oneSpace : Spaces := ⟨[' '], fun _ h => List.mem_singleton.mp h⟩

def fieldName (first : Char) (rest : List Char) (hstart : isTypeStart first = true)
    (hword : rest.all isWordChar = true) : FieldName :=
  ⟨first, rest, hstart, List.all_eq_true.mp hword⟩

/-- The type `string`. -/
def text : GoType :=
  .named ⟨'s', ['t', 'r', 'i', 'n', 'g'], by decide, fun c hc =>
    Or.inl (List.all_eq_true.mp (by decide : ['t', 'r', 'i', 'n', 'g'].all isWordChar = true) c hc)⟩

/-- An entry under `json`. -/
def entry (value : List Char)
    (h : value.all (fun c => c ≠ '"' ∧ c ≠ '\\' ∧ c ≠ '`' ∧ c ≠ '\n') = true) : TagEntry where
  key := ['j', 's', 'o', 'n']
  value := value
  key_ne_nil := List.cons_ne_nil _ _
  plain_key := fun c hc => by
    have hall : ['j', 's', 'o', 'n'].all
        (fun c => isSpace c = false ∧ c ≠ ':' ∧ c ≠ '"' ∧ c ≠ '`') = true := by decide
    exact of_decide_eq_true (List.all_eq_true.mp hall c hc)
  plain_value := fun c hc => of_decide_eq_true (List.all_eq_true.mp h c hc)

/-- A field with a tag of one entry, or with none. -/
def field (first : FieldName) (others : List ((Spaces × Spaces) × FieldName)) (type : GoType)
    (tag : Option TagEntry) : FieldDecl where
  indent := tab
  first := first
  others := others
  gap := space
  type := type
  tag := tag.map fun e => (space, ⟨e, []⟩)
  comment := none
  trailing := noBlanks

theorem tagReads_none (isLetter : Char → Bool) : TagReads isLetter none where
  values := fun _ h => absurd h (Option.not_mem_none _)
  name := fun h => absurd rfl h
  dash := fun h => absurd h (List.cons_ne_nil '-' []).symm

theorem tagReads_entry {isLetter : Char → Bool} {value : List Char}
    (h : value.all (fun c => c ≠ '"' ∧ c ≠ '\\' ∧ c ≠ '`' ∧ c ≠ '\n') = true)
    (hspace : value.all (fun c => !isSpace c) = true)
    (hname : validName isLetter ((value.splitOn ',').headD []) = true)
    (hdash : (value.splitOn ',').headD [] = ['-'] → value = ['-']) :
    TagReads isLetter (some (space, ⟨entry value h, []⟩)) where
  values := by
    rintro t ⟨⟩ e he c hc
    rw [List.mem_singleton.mp he] at hc
    exact Bool.not_eq_true' _ ▸ List.all_eq_true.mp hspace c hc
  name := fun _ => hname
  dash := fun hhead => congrArg some (hdash hhead)

/-- The fields of the account:

    ID, Name string
    Tags []string `json:"tags,omitempty"`
    secret string
    Password string `json:"-"`
-/
def names : FieldDecl :=
  field (fieldName 'I' ['D'] (by decide) (by decide))
    [((noSpaces, oneSpace), fieldName 'N' ['a', 'm', 'e'] (by decide) (by decide))] text none

def tags : FieldDecl :=
  field (fieldName 'T' ['a', 'g', 's'] (by decide) (by decide)) [] (.slice text)
    (some (entry "tags,omitempty".toList (by decide)))

def secret : FieldDecl :=
  field (fieldName 's' ['e', 'c', 'r', 'e', 't'] (by decide) (by decide)) [] text none

def password : FieldDecl :=
  field (fieldName 'P' ['a', 's', 's', 'w', 'o', 'r', 'd'] (by decide) (by decide)) [] text
    (some (entry ['-'] (by decide)))

def account : StructDecl where
  header := "type Account struct ".toList
  plain_header := fun c hc => by
    have hall : "type Account struct ".toList.all (fun c => c ≠ '{' ∧ c ≠ '\n') = true := by
      decide
    exact of_decide_eq_true (List.all_eq_true.mp hall c hc)
  items := [.field names, .field tags, .field secret, .field password]

/-- A file with the declaration. -/
def file : SourceFile where
  before := ["package api".toList, []]
  decl := account
  after := [[]]
  before_inLine := List.forall_mem_cons.mpr
    ⟨by decide, List.forall_mem_singleton.mpr List.not_mem_nil⟩
  after_inLine := List.forall_mem_singleton.mpr List.not_mem_nil

theorem reads_field {isLetter : Char → Bool} {f : FieldDecl} (h : f.Reads isLetter)
    (hbrace : f.render.all (fun c => brace c = 0) = true) :
    (Item.field f).Reads isLetter ∧
      ∀ line ∈ (Item.field f).lines, Brackets.Balanced brace line := by
  refine ⟨h, List.forall_mem_singleton.mpr (Brackets.Balanced.of_forall fun c hc => ?_)⟩
  exact of_decide_eq_true (List.all_eq_true.mp hbrace c hc)

/-- The account is read as it is meant. -/
theorem reads_account : account.Reads Char.isAlpha := by
  have hitems : ∀ i ∈ account.items, i.Reads Char.isAlpha ∧
      ∀ line ∈ i.lines, Brackets.Balanced brace line := by
    refine List.forall_mem_cons.mpr ⟨?_, List.forall_mem_cons.mpr ⟨?_, List.forall_mem_cons.mpr
      ⟨?_, List.forall_mem_singleton.mpr ?_⟩⟩⟩
    · exact reads_field ⟨fun _ => trivial, fun _ => tagReads_none _, Or.inl (by decide)⟩ (by decide)
    · exact reads_field ⟨fun _ => trivial,
        fun _ => tagReads_entry _ (by decide) (by decide) (by decide), Or.inl (by decide)⟩ (by decide)
    · exact reads_field ⟨fun _ => trivial, fun _ => tagReads_none _,
        Or.inr (List.forall_mem_singleton.mpr (by decide))⟩ (by decide)
    · exact reads_field ⟨fun _ => trivial,
        fun _ => tagReads_entry _ (by decide) (by decide) (by decide), Or.inl (by decide)⟩ (by decide)
  exact ⟨fun i hi => (hitems i hi).1, fun i hi => (hitems i hi).2, by decide⟩

end Account

end GoShape

end Gortex
