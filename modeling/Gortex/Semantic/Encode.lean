import Gortex.Semantic.Scip

/-!
# Writing SCIP indexes and reading them back

The encoder of SCIP indexes that stands beside the decoder (`encodeSCIPForTesting` in
`internal/semantic/scip/proto.go`): each message is written field by field, what is empty is left
out, a range is packed, and an `int32` is extended to 64 bits with its sign.

A message is written as a list of pieces, one for each turn that the decoder of it makes
(`Gortex.Semantic.settles_message`). So the decoder reads back what has been written
(`Gortex.Semantic.decode_encode`): with enough fuel it returns the index, and no fuel makes it
return anything else or panic.
-/

namespace Gortex.Semantic

open Fueled Reading

/-! ### The encoder -/

/-- `appendTag`. -/
def appendTag (buf : List UInt8) (fieldNum wireType : ℕ) : List UInt8 :=
  buf ++ Wire.tagBytes fieldNum wireType

/-- `appendBytes`. -/
def appendBytes (buf data : List UInt8) : List UInt8 := buf ++ Wire.withLength data

/-- `binary.AppendUvarint`. -/
def appendUvarint (buf : List UInt8) (x : UInt64) : List UInt8 := buf ++ Wire.uvarint x

/-- `uint64(v)`, which extends the sign. -/
def uint64 (v : Int32) : UInt64 := v.toInt64.toUInt64

/-- `encodeSCIPRelationshipForTesting`. -/
def encodeSCIPRelationshipForTesting (rel : SCIPRelationship) : List UInt8 :=
  let buf := if rel.symbol ≠ [] then appendBytes (appendTag [] 1 2) rel.symbol else []
  if rel.isImplementation = true then appendUvarint (appendTag buf 2 0) 1 else buf

/-- `encodeSCIPSymbolInfoForTesting`. -/
def encodeSCIPSymbolInfoForTesting (sym : SCIPSymbolInfo) : List UInt8 :=
  let buf := if sym.symbol ≠ [] then appendBytes (appendTag [] 1 2) sym.symbol else []
  let buf := sym.documentation.foldl (fun buf doc => appendBytes (appendTag buf 3 2) doc) buf
  sym.relationships.foldl (fun buf rel =>
    appendBytes (appendTag buf 4 2) (encodeSCIPRelationshipForTesting rel)) buf

/-- `encodeSCIPOccurrenceForTesting`. -/
def encodeSCIPOccurrenceForTesting (occ : SCIPOccurrence) : List UInt8 :=
  let buf := if 0 < occ.range.length then
      appendBytes (appendTag [] 1 2) (occ.range.foldl (fun rangeBuf v =>
        appendUvarint rangeBuf (uint64 v)) [])
    else []
  let buf := if occ.symbol ≠ [] then appendBytes (appendTag buf 2 2) occ.symbol else buf
  if occ.symbolRoles ≠ 0 then appendUvarint (appendTag buf 3 0) (uint64 occ.symbolRoles) else buf

/-- `encodeSCIPDocumentForTesting`. -/
def encodeSCIPDocumentForTesting (doc : SCIPDocument) : List UInt8 :=
  let buf := if doc.relativePath ≠ [] then appendBytes (appendTag [] 4 2) doc.relativePath else []
  let buf := doc.occurrences.foldl (fun buf occ =>
    appendBytes (appendTag buf 2 2) (encodeSCIPOccurrenceForTesting occ)) buf
  doc.symbols.foldl (fun buf sym =>
    appendBytes (appendTag buf 3 2) (encodeSCIPSymbolInfoForTesting sym)) buf

/-- **`encodeSCIPForTesting`.** -/
def encodeSCIPForTesting (index : SCIPIndex) : List UInt8 :=
  index.documents.foldl (fun buf doc =>
    appendBytes (appendTag buf 2 2) (encodeSCIPDocumentForTesting doc)) []

/-! ### Pieces -/

section Pieces

variable {α β : Type}

/-- A piece of a message: its bytes, and what they do to what the decoder has filled in. -/
abbrev Piece (α : Type) := List UInt8 × (α → α)

/-- What the pieces do. -/
def fill (pieces : List (Piece α)) (a : α) : α := pieces.foldl (fun a piece => piece.2 a) a

theorem fill_append (l l' : List (Piece α)) (a : α) : fill (l ++ l') a = fill l' (fill l a) :=
  List.foldl_append

/-- The pieces of a repeated field: each puts one more entry at the end. -/
def repeated (num : ℕ) (encode : β → List UInt8) (get : α → List β) (set : α → List β → α)
    (l : List β) : List (Piece α) :=
  l.map fun b => (Wire.tagBytes num 2 ++ Wire.withLength (encode b), fun a => set a (get a ++ [b]))

/-- **A repeated field is filled in** as a whole. -/
theorem foldl_set {get : α → List β} {set : α → List β → α} (hget : ∀ a l, get (set a l) = l)
    (hset : ∀ a l l', set (set a l) l' = set a l') (hself : ∀ a, set a (get a) = a) (l : List β)
    (a : α) : l.foldl (fun a b => set a (get a ++ [b])) a = set a (get a ++ l) := by
  induction l generalizing a with
  | nil => rw [List.append_nil, hself]; rfl
  | cons b l ih => rw [List.foldl_cons, ih, hget, hset, List.append_assoc, List.singleton_append]

theorem fill_repeated (num : ℕ) (encode : β → List UInt8) (get : α → List β)
    (set : α → List β → α) (hget : ∀ a l, get (set a l) = l)
    (hset : ∀ a l l', set (set a l) l' = set a l') (hself : ∀ a, set a (get a) = a) (l : List β)
    (a : α) : fill (repeated num encode get set l) a = set a (get a ++ l) := by
  rw [fill, repeated, List.foldl_map]
  exact foldl_set hget hset hself l a

/-- A loop that writes the entries of a repeated field. -/
theorem foldl_appendBytes (num : ℕ) (encode : β → List UInt8) (get : α → List β)
    (set : α → List β → α) (l : List β) (buf : List UInt8) :
    l.foldl (fun buf b => appendBytes (appendTag buf num 2) (encode b)) buf =
      buf ++ (repeated num encode get set l).flatMap Prod.fst := by
  induction l generalizing buf with
  | nil => exact (List.append_nil buf).symm
  | cons b l ih =>
    have hcons : (repeated num encode get set (b :: l)).flatMap Prod.fst =
        Wire.tagBytes num 2 ++ Wire.withLength (encode b) ++
          (repeated num encode get set l).flatMap Prod.fst := rfl
    rw [List.foldl_cons, ih, hcons, appendBytes, appendTag]
    simp only [List.append_assoc]

/-- What has been read is put into something. -/
theorem Takes.put {f : α → β} {method : ℕ → Reading α} {bytes : List UInt8} {b : β} {γ : Type}
    (h : Takes f method bytes b) (put : α → γ) {c : γ} (hc : ∀ a, f a = b → put a = c) :
    Takes id (fun fuel => method fuel >>= fun a => pure (put a)) bytes c := by
  have hpure : ∀ a, f a = b → Takes id (fun _ => (pure (put a) : Reading γ)) [] c :=
    fun a ha => hc a ha ▸ takes_pure (put a)
  have htakes := h.bind hpure
  rwa [List.append_nil] at htakes

/-- A string, with its length before it. -/
theorem takes_text (content : List UInt8) (put : List UInt8 → α) :
    Takes id (fun fuel => readString fuel 2 >>= fun s => pure (put s)) (Wire.withLength content)
      (put content) :=
  (takes_readString content).put put fun _ hs => congrArg put hs

/-- A number. -/
theorem takes_number (v : UInt64) (put : UInt64 → α) :
    Takes id (fun fuel => readVarint fuel >>= fun v => pure (put v)) (Wire.uvarint v) (put v) :=
  (takes_readVarint v).put put fun _ hv => congrArg put hv

/-- A message, that a decoder of its own reads back. -/
theorem takes_message {decode : ℕ → Slice → Decoding β} {content : List UInt8} {b : β}
    (hdecode : ∀ data : Slice, data.bytes = content →
      Settles Event.Good (fun fuel => decode fuel data) (.ok b)) (put : β → α) :
    Takes id (fun fuel => readBytes fuel 2 >>= fun data =>
      call (decode fuel data) >>= fun b => pure (put b)) (Wire.withLength content) (put b) := by
  have hcall : ∀ data : Slice, data.bytes = content →
      Takes id (fun fuel => call (decode fuel data) >>= fun b => pure (put b)) [] (put b) :=
    fun data hdata => (takes_call (hdecode data hdata)).put put fun _ hb => congrArg put hb
  have htakes := (takes_readBytes content).bind hcall
  rwa [List.append_nil] at htakes

theorem tagBytes_append_ne_nil (num wireType : ℕ) (l : List UInt8) :
    Wire.tagBytes num wireType ++ l ≠ [] :=
  fun h => Wire.uvarint_ne_nil _ (List.append_eq_nil_iff.mp h).1

end Pieces

/-- **A number of 32 bits comes back**, a negative one as well. -/
theorem int32_uint64 (v : Int32) : int32 (uint64 v) = v := by
  apply Int32.toBitVec_inj.mp
  simp only [int32, uint64, UInt32.toBitVec_toInt32, UInt64.toBitVec_toUInt32,
    Int64.toBitVec_toUInt64, Int32.toBitVec_toInt64]
  ext i hi
  have hlt : i < 64 := by omega
  rw [BitVec.getElem_setWidth, BitVec.getLsbD_signExtend, if_pos hi, decide_eq_true hlt,
    Bool.true_and, BitVec.getLsbD_eq_getElem hi]

/-! ### The pieces of the messages -/

/-- The pieces of a relationship. -/
def relationshipPieces (rel : SCIPRelationship) : List (Piece SCIPRelationship) :=
  (if rel.symbol ≠ [] then
    [(Wire.tagBytes 1 2 ++ Wire.withLength rel.symbol, fun r => { r with symbol := rel.symbol })]
  else []) ++
  if rel.isImplementation = true then
    [(Wire.tagBytes 2 0 ++ Wire.uvarint 1, fun r => { r with isImplementation := true })]
  else []

/-- The pieces of a symbol. -/
def symbolInfoPieces (sym : SCIPSymbolInfo) : List (Piece SCIPSymbolInfo) :=
  (if sym.symbol ≠ [] then
    [(Wire.tagBytes 1 2 ++ Wire.withLength sym.symbol, fun s => { s with symbol := sym.symbol })]
  else []) ++
  repeated 3 id SCIPSymbolInfo.documentation (fun s l => { s with documentation := l })
    sym.documentation ++
  repeated 4 encodeSCIPRelationshipForTesting SCIPSymbolInfo.relationships
    (fun s l => { s with relationships := l }) sym.relationships

/-- The bytes of a packed range. -/
def packed (range : List Int32) : List UInt8 := range.flatMap fun v => Wire.uvarint (uint64 v)

/-- The pieces of an occurrence. -/
def occurrencePieces (occ : SCIPOccurrence) : List (Piece SCIPOccurrence) :=
  (if 0 < occ.range.length then
    [(Wire.tagBytes 1 2 ++ Wire.withLength (packed occ.range),
      fun o => { o with range := o.range ++ occ.range })]
  else []) ++
  (if occ.symbol ≠ [] then
    [(Wire.tagBytes 2 2 ++ Wire.withLength occ.symbol, fun o => { o with symbol := occ.symbol })]
  else []) ++
  if occ.symbolRoles ≠ 0 then
    [(Wire.tagBytes 3 0 ++ Wire.uvarint (uint64 occ.symbolRoles),
      fun o => { o with symbolRoles := occ.symbolRoles })]
  else []

/-- The pieces of a document. -/
def documentPieces (doc : SCIPDocument) : List (Piece SCIPDocument) :=
  (if doc.relativePath ≠ [] then
    [(Wire.tagBytes 4 2 ++ Wire.withLength doc.relativePath,
      fun d => { d with relativePath := doc.relativePath })]
  else []) ++
  repeated 2 encodeSCIPOccurrenceForTesting SCIPDocument.occurrences
    (fun d l => { d with occurrences := l }) doc.occurrences ++
  repeated 3 encodeSCIPSymbolInfoForTesting SCIPDocument.symbols
    (fun d l => { d with symbols := l }) doc.symbols

/-- The pieces of an index. -/
def indexPieces (index : SCIPIndex) : List (Piece SCIPIndex) :=
  repeated 2 encodeSCIPDocumentForTesting SCIPIndex.documents
    (fun i l => { i with documents := l }) index.documents

theorem encode_relationship (rel : SCIPRelationship) :
    encodeSCIPRelationshipForTesting rel = (relationshipPieces rel).flatMap Prod.fst := by
  unfold encodeSCIPRelationshipForTesting relationshipPieces appendBytes appendTag appendUvarint
  split_ifs <;> simp

theorem encode_symbolInfo (sym : SCIPSymbolInfo) :
    encodeSCIPSymbolInfoForTesting sym = (symbolInfoPieces sym).flatMap Prod.fst := by
  rw [encodeSCIPSymbolInfoForTesting, symbolInfoPieces, List.flatMap_append, List.flatMap_append,
    foldl_appendBytes 4 encodeSCIPRelationshipForTesting SCIPSymbolInfo.relationships
      fun s l => { s with relationships := l }]
  refine congrArg (· ++ _) ?_
  refine (foldl_appendBytes 3 id SCIPSymbolInfo.documentation
    (fun s l => { s with documentation := l }) sym.documentation _).trans ?_
  refine congrArg (· ++ _) ?_
  unfold appendBytes appendTag
  split_ifs <;> simp

theorem encode_occurrence (occ : SCIPOccurrence) :
    encodeSCIPOccurrenceForTesting occ = (occurrencePieces occ).flatMap Prod.fst := by
  have hpacked : occ.range.foldl (fun rangeBuf v => appendUvarint rangeBuf (uint64 v)) [] =
      packed occ.range := List.flatMap_eq_foldl.symm
  unfold encodeSCIPOccurrenceForTesting occurrencePieces
  rw [hpacked]
  unfold appendBytes appendTag appendUvarint
  split_ifs <;> simp

theorem encode_document (doc : SCIPDocument) :
    encodeSCIPDocumentForTesting doc = (documentPieces doc).flatMap Prod.fst := by
  rw [encodeSCIPDocumentForTesting, documentPieces, List.flatMap_append, List.flatMap_append,
    foldl_appendBytes 3 encodeSCIPSymbolInfoForTesting SCIPDocument.symbols
      fun d l => { d with symbols := l }]
  refine congrArg (· ++ _) ?_
  refine (foldl_appendBytes 2 encodeSCIPOccurrenceForTesting SCIPDocument.occurrences
    (fun d l => { d with occurrences := l }) doc.occurrences _).trans ?_
  refine congrArg (· ++ _) ?_
  unfold appendBytes appendTag
  split_ifs <;> simp

theorem encode_index (index : SCIPIndex) :
    encodeSCIPForTesting index = (indexPieces index).flatMap Prod.fst :=
  foldl_appendBytes 2 encodeSCIPDocumentForTesting SCIPIndex.documents
    (fun i l => { i with documents := l }) index.documents []

/-! ### The turns of the decoders -/

section Turns

variable {α β : Type} {turn : ℕ → α → Reading α}

/-- A turn of a decoder takes a piece. -/
def Turns (turn : ℕ → α → Reading α) (piece : Piece α) : Prop :=
  piece.1 ≠ [] ∧ ∀ acc, Takes id (fun fuel => turn fuel acc) piece.1 (piece.2 acc)

/-- A field, with its tag before it. -/
theorem turns_field {body : ℕ → α → ℕ × ℕ → Reading α}
    (hturn : ∀ fuel acc, turn fuel acc = readTag fuel >>= body fuel acc) {num wireType : ℕ}
    (hnum : num < 2 ^ 61) (htype : wireType < 8) {content : List UInt8} {put : α → α}
    (hbody : ∀ acc, Takes id (fun fuel => body fuel acc (num, wireType)) content (put acc)) :
    Turns turn (Wire.tagBytes num wireType ++ content, put) := by
  refine ⟨tagBytes_append_ne_nil num wireType content, fun acc => ?_⟩
  simp only [hturn]
  refine (takes_readTag hnum htype).bind fun tag htag => ?_
  obtain rfl : tag = (num, wireType) := htag
  exact hbody acc

/-- A field that is there under a condition. -/
theorem turns_optional {c : Prop} [Decidable c] {piece : Piece α} (h : Turns turn piece) :
    ∀ x ∈ if c then [piece] else [], Turns turn x := by
  intro x hx
  split_ifs at hx
  · rwa [List.mem_singleton.mp hx]
  · exact absurd hx List.not_mem_nil

theorem turns_repeated {num : ℕ} {encode : β → List UInt8} {get : α → List β}
    {set : α → List β → α} {l : List β}
    (h : ∀ b ∈ l, Turns turn (Wire.tagBytes num 2 ++ Wire.withLength (encode b),
      fun a => set a (get a ++ [b]))) : ∀ x ∈ repeated num encode get set l, Turns turn x := by
  intro x hx
  obtain ⟨b, hb, rfl⟩ := List.mem_map.mp hx
  exact h b hb

end Turns

/-- **A relationship that the encoder writes in full**: of its flags, it writes one. -/
def SCIPRelationship.Plain (rel : SCIPRelationship) : Prop :=
  rel.isReference = false ∧ rel.isTypeDefinition = false

/-- The relationships of a symbol are written in full. -/
def SCIPSymbolInfo.Plain (sym : SCIPSymbolInfo) : Prop := ∀ rel ∈ sym.relationships, rel.Plain

/-- The symbols of a document are written in full. -/
def SCIPDocument.Plain (doc : SCIPDocument) : Prop := ∀ sym ∈ doc.symbols, sym.Plain

/-- **An index that the encoder writes in full**: it has no external symbols. -/
structure SCIPIndex.Plain (index : SCIPIndex) : Prop where
  documents : ∀ doc ∈ index.documents, doc.Plain
  externalSymbols : index.externalSymbols = []

theorem settles_relationship {rel : SCIPRelationship} (h : rel.Plain) {data : Slice}
    (hdata : data.bytes = encodeSCIPRelationshipForTesting rel) :
    Settles Event.Good (fun fuel => decodeSCIPRelationship fuel data) (.ok rel) := by
  have hturns : ∀ piece ∈ relationshipPieces rel, Turns relationshipField piece := by
    refine List.forall_mem_append.mpr ⟨turns_optional ?_, turns_optional ?_⟩
    · exact turns_field (fun _ _ => rfl) (by decide) (by decide) fun acc =>
        takes_text rel.symbol fun s => { acc with symbol := s }
    · exact turns_field (fun _ _ => rfl) (by decide) (by decide) fun acc =>
        takes_number 1 fun v => { acc with isImplementation := v != 0 }
  refine settles_message hturns (hdata.trans (encode_relationship rel)) ?_
  obtain ⟨symbol, isImplementation, isReference, isTypeDefinition⟩ := rel
  obtain ⟨rfl, rfl⟩ : isReference = false ∧ isTypeDefinition = false := h
  unfold relationshipPieces
  cases isImplementation <;> by_cases hsymbol : symbol = [] <;> simp [hsymbol]

theorem settles_symbolInfo {sym : SCIPSymbolInfo} (h : sym.Plain) {data : Slice}
    (hdata : data.bytes = encodeSCIPSymbolInfoForTesting sym) :
    Settles Event.Good (fun fuel => decodeSCIPSymbolInfo fuel data) (.ok sym) := by
  have hturns : ∀ piece ∈ symbolInfoPieces sym, Turns symbolInfoField piece := by
    refine List.forall_mem_append.mpr ⟨List.forall_mem_append.mpr ⟨turns_optional ?_,
      turns_repeated fun doc _ => ?_⟩, turns_repeated fun rel hrel => ?_⟩
    · exact turns_field (fun _ _ => rfl) (by decide) (by decide) fun acc =>
        takes_text sym.symbol fun s => { acc with symbol := s }
    · exact turns_field (fun _ _ => rfl) (by decide) (by decide) fun acc =>
        takes_text doc fun s => { acc with documentation := acc.documentation ++ [s] }
    · exact turns_field (fun _ _ => rfl) (by decide) (by decide) fun acc =>
        takes_message (fun _ hdata => settles_relationship (h rel hrel) hdata) fun rel =>
          { acc with relationships := acc.relationships ++ [rel] }
  refine settles_message hturns (hdata.trans (encode_symbolInfo sym)) ?_
  have hdocs := fill_repeated 3 id SCIPSymbolInfo.documentation
    (fun s l => { s with documentation := l }) (fun _ _ => rfl) (fun _ _ _ => rfl)
    (fun _ => rfl) sym.documentation
  have hrels := fill_repeated 4 encodeSCIPRelationshipForTesting SCIPSymbolInfo.relationships
    (fun s l => { s with relationships := l }) (fun _ _ => rfl) (fun _ _ _ => rfl)
    (fun _ => rfl) sym.relationships
  show fill (symbolInfoPieces sym) {} = sym
  rw [symbolInfoPieces, fill_append, fill_append, hdocs, hrels]
  obtain ⟨symbol, documentation, relationships⟩ := sym
  by_cases hsymbol : symbol = [] <;> simp [hsymbol, fill]

/-- **A packed range comes back**, after what has been filled in before. -/
theorem settles_range (range range₀ : List Int32) {data : Slice}
    (hdata : data.bytes = packed range) :
    Settles Event.Good (fun fuel => start (whileMore rangeNumber fuel range₀) data)
      (.ok (range₀ ++ range)) := by
  have hturns : ∀ piece ∈ range.map fun v =>
      ((Wire.uvarint (uint64 v), fun l => l ++ [v]) : Piece (List Int32)),
      Turns rangeNumber piece := by
    intro piece hpiece
    obtain ⟨v, -, rfl⟩ := List.mem_map.mp hpiece
    refine ⟨Wire.uvarint_ne_nil _, fun acc => ?_⟩
    have htakes := takes_number (uint64 v) fun v => acc ++ [int32 v]
    rw [int32_uint64] at htakes
    exact htakes
  refine settles_message hturns (hdata.trans ?_) ?_
  · rw [List.flatMap_map, packed]
  · rw [List.foldl_map]
    clear hdata hturns
    induction range generalizing range₀ with
    | nil => rw [List.foldl_nil, List.append_nil]
    | cons v range ih => rw [List.foldl_cons, ih, List.append_assoc, List.singleton_append]

theorem settles_occurrence (occ : SCIPOccurrence) {data : Slice}
    (hdata : data.bytes = encodeSCIPOccurrenceForTesting occ) :
    Settles Event.Good (fun fuel => decodeSCIPOccurrence fuel data) (.ok occ) := by
  have hturns : ∀ piece ∈ occurrencePieces occ, Turns occurrenceField piece := by
    refine List.forall_mem_append.mpr ⟨List.forall_mem_append.mpr ⟨turns_optional ?_,
      turns_optional ?_⟩, turns_optional ?_⟩
    · exact turns_field (fun _ _ => rfl) (by decide) (by decide) fun acc =>
        takes_message (fun _ hdata => settles_range occ.range acc.range hdata) fun range =>
          { acc with range := range }
    · exact turns_field (fun _ _ => rfl) (by decide) (by decide) fun acc =>
        takes_text occ.symbol fun s => { acc with symbol := s }
    · refine turns_field (fun _ _ => rfl) (by decide) (by decide) fun acc => ?_
      have htakes := takes_number (uint64 occ.symbolRoles) fun v =>
        { acc with symbolRoles := int32 v }
      rw [int32_uint64] at htakes
      exact htakes
  refine settles_message hturns (hdata.trans (encode_occurrence occ)) ?_
  obtain ⟨range, symbol, symbolRoles⟩ := occ
  unfold occurrencePieces
  by_cases hrange : range = [] <;> by_cases hsymbol : symbol = [] <;>
    by_cases hroles : symbolRoles = 0 <;>
    simp [hrange, hsymbol, hroles, List.length_pos_iff]

theorem settles_document {doc : SCIPDocument} (h : doc.Plain) {data : Slice}
    (hdata : data.bytes = encodeSCIPDocumentForTesting doc) :
    Settles Event.Good (fun fuel => decodeSCIPDocument fuel data) (.ok doc) := by
  have hturns : ∀ piece ∈ documentPieces doc, Turns documentField piece := by
    refine List.forall_mem_append.mpr ⟨List.forall_mem_append.mpr ⟨turns_optional ?_,
      turns_repeated fun occ _ => ?_⟩, turns_repeated fun sym hsym => ?_⟩
    · exact turns_field (fun _ _ => rfl) (by decide) (by decide) fun acc =>
        takes_text doc.relativePath fun s => { acc with relativePath := s }
    · exact turns_field (fun _ _ => rfl) (by decide) (by decide) fun acc =>
        takes_message (fun _ hdata => settles_occurrence occ hdata) fun occ =>
          { acc with occurrences := acc.occurrences ++ [occ] }
    · exact turns_field (fun _ _ => rfl) (by decide) (by decide) fun acc =>
        takes_message (fun _ hdata => settles_symbolInfo (h sym hsym) hdata) fun sym =>
          { acc with symbols := acc.symbols ++ [sym] }
  refine settles_message hturns (hdata.trans (encode_document doc)) ?_
  have hoccs := fill_repeated 2 encodeSCIPOccurrenceForTesting SCIPDocument.occurrences
    (fun d l => { d with occurrences := l }) (fun _ _ => rfl) (fun _ _ _ => rfl)
    (fun _ => rfl) doc.occurrences
  have hsyms := fill_repeated 3 encodeSCIPSymbolInfoForTesting SCIPDocument.symbols
    (fun d l => { d with symbols := l }) (fun _ _ => rfl) (fun _ _ _ => rfl)
    (fun _ => rfl) doc.symbols
  show fill (documentPieces doc) {} = doc
  rw [documentPieces, fill_append, fill_append, hoccs, hsyms]
  obtain ⟨relativePath, occurrences, symbols⟩ := doc
  by_cases hpath : relativePath = [] <;> simp [hpath, fill]

/-- **An index that has been written is read back**: with enough fuel the decoder returns it, with
no fuel does it return anything else, and its position stays within the bytes. -/
theorem decode_encode {index : SCIPIndex} (h : index.Plain) {data : Slice}
    (hdata : data.bytes = encodeSCIPForTesting index) :
    Settles Event.Good (fun fuel => decodeSCIPProtobuf fuel data) (.ok index) := by
  have hturns : ∀ piece ∈ indexPieces index, Turns indexField piece :=
    turns_repeated fun doc hdoc => turns_field (fun _ _ => rfl) (by decide) (by decide) fun acc =>
      takes_message (fun _ hdata => settles_document (h.documents doc hdoc) hdata) fun doc =>
        { acc with documents := acc.documents ++ [doc] }
  refine settles_message hturns (hdata.trans (encode_index index)) ?_
  have hdocs := fill_repeated 2 encodeSCIPDocumentForTesting SCIPIndex.documents
    (fun i l => { i with documents := l }) (fun _ _ => rfl) (fun _ _ _ => rfl)
    (fun _ => rfl) index.documents {}
  refine hdocs.trans ?_
  obtain ⟨documents, externalSymbols⟩ := index
  obtain rfl : externalSymbols = [] := h.externalSymbols
  rfl

namespace OneDocument

/-- An index of one document, with a range that has a negative number. -/
def index : SCIPIndex where
  documents := [
    { relativePath := [0x61]
      occurrences := [{ range := [3, -1, 300], symbol := [0x73], symbolRoles := 1 }]
      symbols := [
        { symbol := [0x73]
          documentation := [[], [0x64]]
          relationships := [{ symbol := [0x74], isImplementation := true }, {}] }] }]

theorem plain_index : index.Plain where
  documents := by simp [index, SCIPDocument.Plain, SCIPSymbolInfo.Plain, SCIPRelationship.Plain]
  externalSymbols := rfl

/-- Its bytes. -/
def data : Slice := ⟨encodeSCIPForTesting index, by decide +kernel⟩

theorem decode_index :
    Settles Event.Good (fun fuel => decodeSCIPProtobuf fuel data) (.ok index) :=
  decode_encode plain_index rfl

end OneDocument

end Gortex.Semantic
