import Gortex.Contracts.Bind
import Gortex.Lib.Backtrack
import Gortex.Lib.Brackets
import Gortex.Lib.GoText

/-!
# Shapes of Go structs

`internal/contracts/shape_go.go`: the fields of a struct declaration, read line by line between
the braces of the declaration with one expression for a field. The braces are counted as they
stand, those in comments and tags as well.

The text is a list of characters. The source cuts a long comment after a number of bytes, which
are characters here.
-/

namespace Gortex

namespace GoShape

open ContractRegistry (isWordChar isBlank trimChars)
open Backtrack (Matcher sat lit many manyLazy many1 opt eof find)

/-! ### The expression for a field -/

/-- `[A-Z]`. -/
def isUpper (c : Char) : Bool := c.isUpper

/-- `[A-Za-z0-9_, ]`. -/
def isNameChar (c : Char) : Bool := isWordChar c || c = ',' || c = ' '

/-- `[A-Za-z_]`. -/
def isTypeStart (c : Char) : Bool := c.isAlpha || c = '_'

/-- `[\w.\[\]*]`. -/
def isTypeChar (c : Char) : Bool := isWordChar c || c = '.' || c = '[' || c = ']' || c = '*'

/-- `map\[[^\]]+\]`. -/
def mapPrefix : Matcher Char (List Char) := do
  let opening ← lit ['m', 'a', 'p', '[']
  let key ← many1 fun c => c ≠ ']'
  let closing ← lit [']']
  return opening ++ key ++ closing

/-- `[A-Za-z_][\w.\[\]*]*`. -/
def typeTail : Matcher Char (List Char) := do
  let c ← sat isTypeStart
  let w ← many isTypeChar
  return c :: w

/-- `\*?(?:\[\]|map\[[^\]]+\])?[A-Za-z_][\w.\[\]*]*`. -/
def typeExprRe : Matcher Char (List Char) := do
  let star ← opt (lit ['*']) []
  let container ← opt (lit ['[', ']'] <|> mapPrefix) []
  let tail ← typeTail
  return star ++ container ++ tail

/-- ``\s+`([^`]*)` ``. -/
def tagRe : Matcher Char (List Char) := do
  let _ ← many1 isBlank
  let _ ← lit ['`']
  let tag ← many fun c => c ≠ '`'
  let _ ← lit ['`']
  return tag

/-- `//\s*(.*)`. -/
def commentRe : Matcher Char (List Char) := do
  let _ ← lit ['/', '/']
  let _ ← many isBlank
  many fun c => c ≠ '\n'

/-- What follows the type: ``(?:\s+`([^`]*)`)?\s*(?://\s*(.*))?$``. -/
def fieldEndRe : Matcher Char (List Char × List Char) := do
  let tag ← opt tagRe []
  let _ ← many isBlank
  let comment ← opt commentRe []
  let _ ← eof
  return (tag, comment)

/-- The groups of a field. -/
structure FieldMatch where
  names : List Char
  type : List Char
  tag : List Char
  comment : List Char

/-- `goFieldRe`. -/
def goFieldRe : Matcher Char FieldMatch := do
  let _ ← many isBlank
  let first ← sat isUpper
  let names ← manyLazy isNameChar
  let _ ← many1 isBlank
  let type ← typeExprRe
  let ending ← fieldEndRe
  return ⟨first :: names, type, ending.1, ending.2⟩

/-! ### Fields -/

/-- One field of a struct. -/
structure ShapeField where
  name : List Char
  fieldType : List Char
  jsonTag : List Char
  required : Bool
  repeated : Bool
  comment : List Char
deriving DecidableEq, Repr

/-- What a type expression and a tag say about a field. -/
structure FieldMetadata where
  jsonName : List Char
  required : Bool
  repeated : Bool
  effective : List Char

/-- `strings.TrimPrefix`. -/
def trimPrefix (l p : List Char) : List Char := if p <+: l then l.drop p.length else l

/-- `json:`. -/
def jsonKey : List Char := ['j', 's', 'o', 'n', ':']

/-- The parts of what a tag has under `json`: a name, and options. -/
def tagParts (tag : List Char) : List (List Char) :=
  ((GoText.fields tag).find? fun entry => jsonKey <+: entry).elim [] fun entry =>
    (trimChars ['"'] (trimPrefix entry jsonKey)).splitOn ','

def goFieldMetadata (typeExpr tag : List Char) : FieldMetadata :=
  let repeated : Bool := ['[', ']'] <+: typeExpr
  let effective := trimPrefix (trimPrefix typeExpr ['*']) ['[', ']']
  let parts := tagParts tag
  let jsonName := parts.headD []
  if (parts.tail.any fun p => p = "omitempty".toList) = true then
    ⟨jsonName, false, repeated, effective⟩
  else
    let required : Bool := ¬['*'] <+: typeExpr
    if jsonName = ['-'] then ⟨[], false, repeated, effective⟩
    else ⟨jsonName, required, repeated, effective⟩

def isExportedGo (name : List Char) : Bool := name.head?.any isUpper

def truncateComment (s : List Char) : List Char :=
  let s := GoText.trimSpace s
  if 120 < s.length then s.take 117 ++ ['.', '.', '.'] else s

/-- The fields of a line. -/
def lineFields (rawLine : List Char) : List ShapeField :=
  let line := GoText.trimSpace rawLine
  if line = [] ∨ ['/', '/'] <+: line then []
  else
    (find goFieldRe line).elim [] fun m =>
      let typeExpr := GoText.trimSpace m.type
      let data := goFieldMetadata typeExpr m.tag
      (m.names.splitOn ',').filterMap fun rawName =>
        let name := GoText.trimSpace rawName
        if name = [] ∨ isExportedGo name = false then none
        else
          some
            { name := if data.jsonName ≠ [] ∧ data.jsonName ≠ ['-'] then data.jsonName else name
              fieldType := data.effective
              jsonTag := m.tag
              required := data.required
              repeated := data.repeated
              comment := truncateComment m.comment }

/-! ### The body of the declaration -/

/-- The lines of a span, from one on and with both ends. -/
def sliceBody (src : List Char) (startLine endLine : ℤ) : List Char :=
  let lines := src.splitOn '\n'
  if startLine ≤ 0 then []
  else if (lines.length : ℤ) < startLine then []
  else
    let last := if endLine ≤ 0 ∨ (lines.length : ℤ) < endLine then (lines.length : ℤ) else endLine
    let last := if last < startLine then startLine else last
    ['\n'].intercalate ((lines.take last.toNat).drop (startLine - 1).toNat)

/-- How a character changes the number of open braces, and whether there has been one. -/
def countBrace (s : ℤ × Bool) (c : Char) : ℤ × Bool :=
  if c = '{' then (s.1 + 1, true) else if c = '}' ∧ s.2 = true then (s.1 - 1, true) else s

/-- The lines to the one that closes the first brace. -/
def braceLines : ℤ × Bool → List (List Char) → List (List Char)
  | _, [] => []
  | s, line :: lines =>
    let s := line.foldl countBrace s
    line :: if s.2 = true ∧ s.1 ≤ 0 then [] else braceLines s lines

/-- The declaration that begins at a line, if its end is not known. -/
def braceBody (src : List Char) (startLine : ℤ) (maxLines : ℤ) : List Char :=
  let lines := src.splitOn '\n'
  if startLine ≤ 0 ∨ (lines.length : ℤ) < startLine then []
  else
    let limit := min (startLine + maxLines) lines.length
    ['\n'].intercalate (braceLines (0, false)
      ((lines.take limit.toNat).drop (startLine - 1).toNat))

/-- The weight of a character in the count of braces. -/
def brace (c : Char) : ℤ := if c = '{' then 1 else if c = '}' then -1 else 0

/-- What stands between the first brace and the one that closes it. -/
def inBraces (body : List Char) : Option (List Char) :=
  match body.dropWhile fun c => c ≠ '{' with
  | [] => none
  | _ :: rest => (Brackets.closing brace 1 [] rest).map Prod.fst

/-- The shape of a struct. -/
structure StructShape where
  kind : String
  fields : List ShapeField

/-- **The shape of the struct that is declared in a span of lines.** -/
def extractGoShape (src : List Char) (startLine endLine : ℤ) : Option StructShape :=
  let body := sliceBody src startLine endLine
  if body = [] then none
  else
    let body := if '{' ∈ body then body else braceBody src startLine 300
    (inBraces body).bind fun inner =>
      let fields := (inner.splitOn '\n').flatMap lineFields
      if fields = [] then none else some ⟨"struct", fields⟩

end GoShape

end Gortex
