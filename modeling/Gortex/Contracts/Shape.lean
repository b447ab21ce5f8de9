import Gortex.Lib.GoMap
import Gortex.Lib.GoString

/-!
# Shapes and the types of their fields

The shape of a type (`internal/contracts/shape.go`) is the list of its fields, and
`internal/contracts/validate.go` asks of two fields whether a value of the type of one can
be held by the other. Types are texts of some language, so they are compared in a canonical
form, and the names of the primitive types are collapsed onto categories.
-/

namespace Gortex

open GoString

/-- One field of a type. -/
structure ShapeField where
  name : String
  fieldType : String
  required : Bool
deriving DecidableEq, Repr

/-- The fields of a type. -/
structure Shape where
  fields : List ShapeField

/-- The fields of a shape by name; of two fields of one name the last one counts. -/
def indexFields (s : Shape) : GoMap String ShapeField :=
  s.fields.foldl (fun out f => out.insert f.name f) ∅

/-! ### The canonical form of a type -/

/-- Take one container off a type: the first generic one that fits, a trailing `[]` and a
leading `[]`. -/
def unwrapOnce (t : String) : String :=
  let generic := ["Array<", "List<", "Set<", "Collection<", "Optional<"].find? fun pfx =>
    hasPrefix t pfx && hasSuffix t ">"
  let t := (generic.map fun pfx => trimSuffix (trimPrefix t pfx) ">").getD t
  trimPrefix (trimSuffix t "[]") "[]"

/-- Take containers off a type as long as there is one. A round that changes the type makes
it shorter. -/
def unwrap : ℕ → String → String
  | 0, t => t
  | fuel + 1, t => if unwrapOnce t = t then t else unwrap fuel (unwrapOnce t)

theorem unwrapOnce_sublist (t : String) : (unwrapOnce t).toList.Sublist t.toList := by
  unfold unwrapOnce
  refine (trimPrefix_sublist _ _).trans ((trimSuffix_sublist _ _).trans ?_)
  rcases List.find? _ _ with _ | pfx
  · exact List.Sublist.refl _
  · exact (trimSuffix_sublist _ _).trans (trimPrefix_sublist _ _)

/-- **The loop ends by itself**: after as many rounds as the type has characters, there is
no container left. -/
theorem unwrapOnce_unwrap {fuel : ℕ} {t : String} (h : t.length ≤ fuel) :
    unwrapOnce (unwrap fuel t) = unwrap fuel t := by
  induction fuel generalizing t with
  | zero =>
    have hnil : t.toList = [] := List.length_eq_zero_iff.mp (by rw [String.length_toList]; omega)
    refine String.toList_inj.mp ?_
    rw [unwrap, hnil, ← List.sublist_nil, ← hnil]
    exact unwrapOnce_sublist t
  | succ fuel ih =>
    rw [unwrap]
    by_cases hfix : unwrapOnce t = t
    · rw [if_pos hfix, hfix]
    · rw [if_neg hfix]
      refine ih ?_
      have hle := (unwrapOnce_sublist t).length_le
      have hne : (unwrapOnce t).toList.length ≠ t.toList.length := fun hlen =>
        hfix (String.toList_inj.mp ((unwrapOnce_sublist t).eq_of_length hlen))
      rw [String.length_toList, String.length_toList] at hle hne
      omega

/-- The name of a type without whitespace, the marks of pointers and optional types,
containers and the package. -/
def canonicalType (t : String) : String :=
  let t := trimSuffix (trimPrefix (trimSpace t) "*") "?"
  let t := String.ofList (t.toList.filter fun c => c ≠ ' ')
  let t := ["|null", "|None", "|undefined"].foldl trimSuffix t
  if t ∈ ["[]byte", "byte[]", "Vec<u8>", "Uint8List"] then "bytes"
  else
    let t := unwrap t.length t
    ((cutLast t ".").map Prod.snd).getD t

/-- The categories of primitive types, by what the wire carries. -/
inductive PrimitiveCategory
  | str
  | bool
  | int
  | float
  | any
  | time
  | duration
  | bytes
  | uuid
deriving DecidableEq, Repr

/-- The category of a canonical type name, if it is one of a primitive type. -/
def primitiveCategory (t : String) : Option PrimitiveCategory :=
  if t ∈ ["string", "String", "str", "text", "Text"] then some .str
  else if t ∈ ["bool", "Bool", "boolean", "Boolean"] then some .bool
  else if t ∈ ["int", "Int", "Integer", "Long", "long", "Short", "short", "Byte", "byte", "int8",
      "int16", "int32", "int64", "Int8", "Int16", "Int32", "Int64", "uint", "uint8", "uint16",
      "uint32", "uint64", "i8", "i16", "i32", "i64", "u8", "u16", "u32", "u64", "BigInt",
      "bigint"] then some .int
  else if t ∈ ["float", "Float", "double", "Double", "Number", "number", "float32", "float64",
      "f32", "f64", "Decimal", "decimal", "BigDecimal"] then some .float
  else if t ∈ ["any", "Any", "object", "Object", "Dynamic", "dynamic", "interface\x7b\x7d",
      "JSON", "json", "Value", "JsonNode", "RawMessage"] then some .any
  else if t ∈ ["Time", "DateTime", "Instant", "LocalDateTime", "ZonedDateTime", "OffsetDateTime",
      "NaiveDateTime", "Date", "LocalDate", "datetime", "date", "Timestamp",
      "timestamp"] then some .time
  else if t ∈ ["Duration", "duration", "timedelta", "Period"] then some .duration
  else if t ∈ ["[]byte", "bytes", "Bytes", "ByteString", "Uint8List", "Vec<u8>",
      "byte[]"] then some .bytes
  else if t ∈ ["UUID", "Uuid", "Guid", "GUID"] then some .uuid
  else none

/-- Whether a slot of one category holds every value of another one. -/
def PrimitiveCategory.holds (slot value : PrimitiveCategory) : Bool :=
  slot = value ∨ slot = .float ∧ value = .int ∨ slot = .str ∧ value = .uuid ∨
    slot = .str ∧ value = .bytes

/-- Whether a value of one type can be held in a slot of another one. -/
def canAssign (slot value : String) : Bool :=
  if canonicalType slot = canonicalType value then true
  else
    match primitiveCategory (canonicalType slot), primitiveCategory (canonicalType value) with
    | some .any, _ => true
    | _, some .any => false
    | some slotCat, some valueCat => slotCat.holds valueCat
    | _, _ => false

/-- A type and an optional pointer to it are one type to a reader. -/
example : canonicalType " *[]api.User? " = "User" := by decide +kernel

/-- Widening goes one way. -/
example : canAssign "List<double>" "int32[]" = true ∧ canAssign "int" "float64" = false := by
  decide +kernel

end Gortex
