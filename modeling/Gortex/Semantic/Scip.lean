import Gortex.Semantic.Proto

/-!
# The decoder of SCIP indexes

The messages of a SCIP index, each with a decoder of its own: a loop over the fields, with a switch
on the number of the field that reads its content, leaves it out, or hands it to the decoder of
another message.

A decoder does what the exact reading of its message says (`Gortex.Semantic.decodes_index`), so
that it returns an index or an error and stays within its bytes if there is no content that would
end at `2 ^ 63` or after it; and only then (`Gortex.Semantic.decodesSafely_iff`). Nothing asks for
that: where it is not so, the decoder panics, or goes back in its bytes
(`Gortex.Semantic.Negative.not_decodesSafely`).
-/

namespace Gortex.Semantic

open Fueled Reading

/-! ### The messages -/

/-- `SCIPRelationship`. -/
structure SCIPRelationship where
  symbol : List UInt8 := []
  isImplementation : Bool := false
  isReference : Bool := false
  isTypeDefinition : Bool := false

/-- `SCIPSymbolInfo`. -/
structure SCIPSymbolInfo where
  symbol : List UInt8 := []
  documentation : List (List UInt8) := []
  relationships : List SCIPRelationship := []

/-- `SCIPOccurrence`. -/
structure SCIPOccurrence where
  range : List Int32 := []
  symbol : List UInt8 := []
  symbolRoles : Int32 := 0

/-- `SCIPDocument`. -/
structure SCIPDocument where
  relativePath : List UInt8 := []
  occurrences : List SCIPOccurrence := []
  symbols : List SCIPSymbolInfo := []

/-- `SCIPIndex`. -/
structure SCIPIndex where
  documents : List SCIPDocument := []
  externalSymbols : List SCIPSymbolInfo := []

/-- `int32(v)`. -/
def int32 (v : UInt64) : Int32 := v.toUInt32.toInt32

/-! ### The decoders -/

/-- A turn of `decodeSCIPRelationship`. -/
def relationshipField (fuel : ℕ) (rel : SCIPRelationship) : Reading SCIPRelationship := do
  let tag ← readTag fuel
  match tag.1 with
  | 1 => do
    let s ← readString fuel tag.2
    pure { rel with symbol := s }
  | 2 => do
    let v ← readVarint fuel
    pure { rel with isImplementation := v != 0 }
  | 3 => do
    let v ← readVarint fuel
    pure { rel with isReference := v != 0 }
  | 4 => do
    let v ← readVarint fuel
    pure { rel with isTypeDefinition := v != 0 }
  | _ => do
    skipField fuel tag.2
    pure rel

/-- `decodeSCIPRelationship`. -/
def decodeSCIPRelationship (fuel : ℕ) (data : Slice) : Decoding SCIPRelationship :=
  start (whileMore relationshipField fuel {}) data

/-- A turn of `decodeSCIPSymbolInfo`. -/
def symbolInfoField (fuel : ℕ) (sym : SCIPSymbolInfo) : Reading SCIPSymbolInfo := do
  let tag ← readTag fuel
  match tag.1 with
  | 1 => do
    let s ← readString fuel tag.2
    pure { sym with symbol := s }
  | 3 => do
    let s ← readString fuel tag.2
    pure { sym with documentation := sym.documentation ++ [s] }
  | 4 => do
    let relData ← readBytes fuel tag.2
    let rel ← call (decodeSCIPRelationship fuel relData)
    pure { sym with relationships := sym.relationships ++ [rel] }
  | _ => do
    skipField fuel tag.2
    pure sym

/-- `decodeSCIPSymbolInfo`. -/
def decodeSCIPSymbolInfo (fuel : ℕ) (data : Slice) : Decoding SCIPSymbolInfo :=
  start (whileMore symbolInfoField fuel {}) data

/-- A turn of the loop over a packed range. -/
def rangeNumber (fuel : ℕ) (range : List Int32) : Reading (List Int32) := do
  let v ← readVarint fuel
  pure (range ++ [int32 v])

/-- A turn of `decodeSCIPOccurrence`. -/
def occurrenceField (fuel : ℕ) (occ : SCIPOccurrence) : Reading SCIPOccurrence := do
  let tag ← readTag fuel
  match tag.1 with
  | 1 =>
    if tag.2 = 2 then do
      let rangeData ← readBytes fuel tag.2
      let range ← call (start (whileMore rangeNumber fuel occ.range) rangeData)
      pure { occ with range := range }
    else do
      let v ← readVarint fuel
      pure { occ with range := occ.range ++ [int32 v] }
  | 2 => do
    let s ← readString fuel tag.2
    pure { occ with symbol := s }
  | 3 => do
    let v ← readVarint fuel
    pure { occ with symbolRoles := int32 v }
  | _ => do
    skipField fuel tag.2
    pure occ

/-- `decodeSCIPOccurrence`. -/
def decodeSCIPOccurrence (fuel : ℕ) (data : Slice) : Decoding SCIPOccurrence :=
  start (whileMore occurrenceField fuel {}) data

/-- A turn of `decodeSCIPDocument`. -/
def documentField (fuel : ℕ) (doc : SCIPDocument) : Reading SCIPDocument := do
  let tag ← readTag fuel
  match tag.1 with
  | 4 => do
    let s ← readString fuel tag.2
    pure { doc with relativePath := s }
  | 2 => do
    let occData ← readBytes fuel tag.2
    let occ ← call (decodeSCIPOccurrence fuel occData)
    pure { doc with occurrences := doc.occurrences ++ [occ] }
  | 3 => do
    let symData ← readBytes fuel tag.2
    let sym ← call (decodeSCIPSymbolInfo fuel symData)
    pure { doc with symbols := doc.symbols ++ [sym] }
  | _ => do
    skipField fuel tag.2
    pure doc

/-- `decodeSCIPDocument`. -/
def decodeSCIPDocument (fuel : ℕ) (data : Slice) : Decoding SCIPDocument :=
  start (whileMore documentField fuel {}) data

/-- A turn of `decodeSCIPProtobuf`. -/
def indexField (fuel : ℕ) (index : SCIPIndex) : Reading SCIPIndex := do
  let tag ← readTag fuel
  match tag.1 with
  | 1 => do
    skipField fuel tag.2
    pure index
  | 2 => do
    let docData ← readBytes fuel tag.2
    let doc ← call (decodeSCIPDocument fuel docData)
    pure { index with documents := index.documents ++ [doc] }
  | 3 => do
    let symData ← readBytes fuel tag.2
    let sym ← call (decodeSCIPSymbolInfo fuel symData)
    pure { index with externalSymbols := index.externalSymbols ++ [sym] }
  | _ => do
    skipField fuel tag.2
    pure index

/-- **`decodeSCIPProtobuf`.** -/
def decodeSCIPProtobuf (fuel : ℕ) (data : Slice) : Decoding SCIPIndex :=
  start (whileMore indexField fuel {}) data

/-! ### The shapes of the messages -/

/-- The fields of a relationship. -/
def relationshipFields : ℕ → Wire.Shape
  | 1 => .text
  | 2 | 3 | 4 => .number
  | _ => .unknown

/-- The fields of a symbol. -/
def symbolInfoFields : ℕ → Wire.Shape
  | 1 | 3 => .text
  | 4 => .message relationshipFields
  | _ => .unknown

/-- The fields of an occurrence. -/
def occurrenceFields : ℕ → Wire.Shape
  | 1 => .numbers
  | 2 => .text
  | 3 => .number
  | _ => .unknown

/-- The fields of a document. -/
def documentFields : ℕ → Wire.Shape
  | 4 => .text
  | 2 => .message occurrenceFields
  | 3 => .message symbolInfoFields
  | _ => .unknown

/-- The fields of an index. -/
def indexFields : ℕ → Wire.Shape
  | 2 => .message documentFields
  | 3 => .message symbolInfoFields
  | _ => .unknown

/-! ### What the decoders do -/

section Refines

variable {α β : Type}

/-- **A decoder of a message**: its loop reads the fields. -/
theorem decodes_message {turn : ℕ → α → Reading α} {fields : ℕ → Wire.Shape}
    (hturn : ∀ acc, Refines (fun _ => ()) (fun fuel => turn fuel acc) (Wire.field intLimit fields))
    (acc : α) (data : Slice) :
    Decodes (fun fuel => start (whileMore turn fuel acc) data)
      (Wire.message intLimit fields data.len data.bytes) :=
  (Refines.whileMore turn hturn (Wire.reads_field intLimit fields) acc).start data

/-- A content that is handed to the decoder of another message. -/
theorem refines_message {decode : ℕ → Slice → Decoding β} {fields : ℕ → Wire.Shape}
    (hdecode : ∀ data, Decodes (fun fuel => decode fuel data)
      (Wire.message intLimit fields data.len data.bytes)) (wireType : ℕ) (put : β → α) :
    Refines (fun _ => ()) (fun fuel => readBytes fuel wireType >>= fun data =>
      call (decode fuel data) >>= fun b => pure (put b))
      ((Wire.Shape.message fields).scan intLimit wireType) := by
  rw [Wire.scan_message]
  refine (refines_readBytes wireType).bind fun data => ?_
  have hcall := (Refines.call (hdecode data)).void put
  rwa [Wire.Scan.void_eq] at hcall

theorem refines_text (wireType : ℕ) (put : List UInt8 → α) :
    Refines (fun _ => ()) (fun fuel => readString fuel wireType >>= fun s => pure (put s))
      (Wire.Shape.text.scan intLimit wireType) :=
  (refines_readString wireType).void put

theorem refines_number (wireType : ℕ) (put : UInt64 → α) :
    Refines (fun _ => ()) (fun fuel => readVarint fuel >>= fun v => pure (put v))
      (Wire.Shape.number.scan intLimit wireType) :=
  refines_readVarint.void put

theorem refines_unknown (wireType : ℕ) (acc : α) :
    Refines (fun _ => ()) (fun fuel => skipField fuel wireType >>= fun _ => pure acc)
      (Wire.Shape.unknown.scan intLimit wireType) := by
  have hskip := (refines_skipField wireType).void fun _ => acc
  rwa [Wire.Scan.void_eq] at hskip

end Refines

theorem decodes_relationship (data : Slice) :
    Decodes (fun fuel => decodeSCIPRelationship fuel data)
      (Wire.message intLimit relationshipFields data.len data.bytes) := by
  refine decodes_message (fun rel => refines_readTag.bind fun tag => ?_) _ data
  obtain ⟨num, wireType⟩ := tag
  match num with
  | 0 => exact refines_unknown wireType rel
  | 1 => exact refines_text wireType _
  | 2 | 3 | 4 => exact refines_number wireType _
  | _ + 5 => exact refines_unknown wireType rel

theorem decodes_symbolInfo (data : Slice) :
    Decodes (fun fuel => decodeSCIPSymbolInfo fuel data)
      (Wire.message intLimit symbolInfoFields data.len data.bytes) := by
  refine decodes_message (fun sym => refines_readTag.bind fun tag => ?_) _ data
  obtain ⟨num, wireType⟩ := tag
  match num with
  | 0 | 2 => exact refines_unknown wireType sym
  | 1 | 3 => exact refines_text wireType _
  | 4 => exact refines_message decodes_relationship wireType _
  | _ + 5 => exact refines_unknown wireType sym

/-- Numbers, many after their length or one. -/
theorem refines_numbers (occ : SCIPOccurrence) (wireType : ℕ) :
    Refines (fun _ => ()) (fun fuel =>
      if wireType = 2 then readBytes fuel wireType >>= fun rangeData =>
        call (start (whileMore rangeNumber fuel occ.range) rangeData) >>= fun range =>
          pure { occ with range := range }
      else readVarint fuel >>= fun v => pure { occ with range := occ.range ++ [int32 v] })
      (Wire.Shape.numbers.scan intLimit wireType) := by
  rw [Wire.Shape.scan]
  by_cases htype : wireType = 2
  · simp only [if_pos htype]
    refine (refines_readBytes wireType).bind fun rangeData => ?_
    have hnumbers := (Refines.whileMore rangeNumber
      (fun range => refines_readVarint.void fun v => range ++ [int32 v]) Wire.reads_varint.void
      occ.range).start rangeData
    have hcall := (Refines.call hnumbers).void fun range => { occ with range := range }
    rwa [Wire.Scan.void_eq] at hcall
  · simp only [if_neg htype]
    exact refines_readVarint.void fun v => { occ with range := occ.range ++ [int32 v] }

theorem decodes_occurrence (data : Slice) :
    Decodes (fun fuel => decodeSCIPOccurrence fuel data)
      (Wire.message intLimit occurrenceFields data.len data.bytes) := by
  refine decodes_message (fun occ => refines_readTag.bind fun tag => ?_) _ data
  obtain ⟨num, wireType⟩ := tag
  match num with
  | 0 => exact refines_unknown wireType occ
  | 1 => exact refines_numbers occ wireType
  | 2 => exact refines_text wireType _
  | 3 => exact refines_number wireType _
  | _ + 4 => exact refines_unknown wireType occ

theorem decodes_document (data : Slice) :
    Decodes (fun fuel => decodeSCIPDocument fuel data)
      (Wire.message intLimit documentFields data.len data.bytes) := by
  refine decodes_message (fun doc => refines_readTag.bind fun tag => ?_) _ data
  obtain ⟨num, wireType⟩ := tag
  match num with
  | 0 | 1 => exact refines_unknown wireType doc
  | 2 => exact refines_message decodes_occurrence wireType _
  | 3 => exact refines_message decodes_symbolInfo wireType _
  | 4 => exact refines_text wireType _
  | _ + 5 => exact refines_unknown wireType doc

/-- **The decoder says of its bytes what the exact reading says.** -/
theorem decodes_index (data : Slice) :
    Decodes (fun fuel => decodeSCIPProtobuf fuel data)
      (Wire.message intLimit indexFields data.len data.bytes) := by
  refine decodes_message (fun index => refines_readTag.bind fun tag => ?_) _ data
  obtain ⟨num, wireType⟩ := tag
  match num with
  | 0 | 1 => exact refines_unknown wireType index
  | 2 => exact refines_message decodes_document wireType _
  | 3 => exact refines_message decodes_symbolInfo wireType _
  | _ + 4 => exact refines_unknown wireType index

/-! ### Safety -/

/-- **The decoder is safe on these bytes**: with some fuel it returns an index or an error, and
the position goes on in every turn and stays within the bytes. -/
def DecodesSafely (data : Slice) : Prop :=
  ∃ fuel, (decodeSCIPProtobuf fuel data).Returns ∧ (decodeSCIPProtobuf fuel data).Clean Event.Good

/-- **A content would end at `2 ^ 63` or after it**, counted from where its message begins: the
exact reading comes to a length that is as large as that. -/
def Overlong (data : Slice) : Prop :=
  Wire.message intLimit indexFields data.len data.bytes = .overlong

theorem decodesSafely_of_not_overlong {data : Slice} (h : ¬Overlong data) :
    DecodesSafely data := by
  have hdecodes := decodes_index data
  rw [Overlong] at h
  cases hscan : Wire.message intLimit indexFields data.len data.bytes with
  | accepted b rest =>
    rw [hscan] at hdecodes
    obtain ⟨index, hsettles⟩ := hdecodes
    exact hsettles.returns (.inl ⟨index, rfl⟩)
  | refused =>
    rw [hscan] at hdecodes
    obtain ⟨e, hsettles⟩ := hdecodes
    exact hsettles.returns (.inr ⟨e, rfl⟩)
  | overlong => exact absurd hscan h

theorem not_decodesSafely_of_overlong {data : Slice} (h : Overlong data) :
    ¬DecodesSafely data := by
  have hdecodes := decodes_index data
  rw [h] at hdecodes
  rintro ⟨fuel, hsafe⟩
  exact hdecodes.not_returns fuel hsafe

/-- **The decoder is safe on just the bytes without such a content.** -/
theorem decodesSafely_iff (data : Slice) : DecodesSafely data ↔ ¬Overlong data :=
  ⟨fun hsafe hoverlong => not_decodesSafely_of_overlong hoverlong hsafe,
    decodesSafely_of_not_overlong⟩

namespace Negative

/-- A document whose length is `2 ^ 64 - 1`, and becomes `-1`. -/
def data : Slice := ⟨[0x12, 0xFF, 0xFF, 0xFF, 0xFF, 0xFF, 0xFF, 0xFF, 0xFF, 0xFF, 0x01], by decide⟩

/-- **The decoder is not safe** on eleven bytes: the slice that holds the document ends before it
begins. -/
theorem not_decodesSafely : ¬DecodesSafely data :=
  not_decodesSafely_of_overlong rfl

end Negative

end Gortex.Semantic
