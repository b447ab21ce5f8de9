import Gortex.Contracts.Bind
import Gortex.Lib.GoText
import Gortex.Lib.Search

/-!
# gRPC providers

`internal/contracts/grpc.go`: the services and their methods in a `.proto` text. Three expressions
are searched for, each in the whole of a text: the header of a service, the header of an rpc, and
an rpc with its messages. What belongs to a service is read from its header to the end of the
text, and the messages of a method are those of the last rpc in the text that has its name.

Positions are counted in characters, where the source counts bytes, and so are the lengths of
the lines, so that the line of a position is the same.
-/

namespace Gortex

namespace Grpc

open ContractRegistry (isWordChar isBlank)
open Search (Pattern Header Found lit many many1 findAll)

/-! ### The expressions -/

theorem isWordChar_of_isBlank (c : Char) (h : isBlank c = true) : isWordChar c = false := by
  have hc : c ∈ [' ', '\t', '\n', '\x0c', '\r'] := of_decide_eq_true h
  have hall : [' ', '\t', '\n', '\x0c', '\r'].all (fun d => !isWordChar d) = true := by decide
  exact Bool.not_eq_true' _ ▸ List.all_eq_true.mp hall c hc

def protoServiceHeader : Header Char where
  keyword := ['s', 'e', 'r', 'v', 'i', 'c', 'e']
  blank := isBlank
  word := isWordChar
  close := '{'
  keyword_ne_nil := by decide
  word_keyword := List.all_eq_true.mp (by decide)
  word_of_blank := isWordChar_of_isBlank
  word_close := by decide
  blank_close := by decide

def protoRPCHeader : Header Char where
  keyword := ['r', 'p', 'c']
  blank := isBlank
  word := isWordChar
  close := '('
  keyword_ne_nil := by decide
  word_keyword := List.all_eq_true.mp (by decide)
  word_of_blank := isWordChar_of_isBlank
  word_close := by decide
  blank_close := by decide

/-- `service\s+(\w+)\s*\{`. -/
def protoServiceRe : Pattern Char (List Char) := protoServiceHeader.pattern

/-- `rpc\s+(\w+)\s*\(`. -/
def protoRPCRe : Pattern Char (List Char) := protoRPCHeader.pattern

/-- A character of the name of a message: `[\w.]`. -/
def isTypeChar (c : Char) : Bool := isWordChar c || c = '.'

/-- `stream\s+`. -/
def streamModifier : Pattern Char (List Char) := do
  let keyword ← lit "stream".toList
  let blanks ← many1 isBlank
  return keyword ++ blanks

/-- `([\w.]+)\s*\)`. -/
def typeName : Pattern Char (List Char) := do
  let name ← many1 isTypeChar
  let _ ← many isBlank
  let _ ← lit [')']
  return name

/-- `(stream\s+)([\w.]+)\s*\)`. -/
def streamedRe : Pattern Char (List Char × List Char) := do
  let stream ← streamModifier
  let name ← typeName
  return (stream, name)

/-- `(stream\s+)?([\w.]+)\s*\)`: an optional group is tried first, and given up if the rest
does not match after it. -/
def messageRe : Pattern Char (List Char × List Char) :=
  streamedRe <|> do
    let name ← typeName
    return ([], name)

/-- The groups of an rpc with its messages. -/
structure ShapeMatch where
  method : List Char
  requestStream : List Char
  requestType : List Char
  responseStream : List Char
  responseType : List Char

/-- `rpc\s+(\w+)\s*\(\s*(stream\s+)?([\w.]+)\s*\)\s*returns\s*\(\s*(stream\s+)?([\w.]+)\s*\)`. -/
def protoRPCShapeRe : Pattern Char ShapeMatch := do
  let method ← protoRPCRe
  let _ ← many isBlank
  let request ← messageRe
  let _ ← many isBlank
  let _ ← lit "returns".toList
  let _ ← many isBlank
  let _ ← lit ['(']
  let _ ← many isBlank
  let response ← messageRe
  return ⟨method, request.1, request.2, response.1, response.2⟩

/-! ### The extraction -/

/-- The messages of an rpc: the `shape` of the source. -/
structure RPCShape where
  requestType : List Char
  responseType : List Char
  requestStream : Bool
  responseStream : Bool
deriving DecidableEq, Repr

/-- Whether a group is the modifier. -/
def isStream (group : List Char) : Bool := GoText.trimSpace group = "stream".toList

def ShapeMatch.shape (m : ShapeMatch) : RPCShape where
  requestType := m.requestType
  responseType := m.responseType
  requestStream := isStream m.requestStream
  responseStream := isStream m.responseStream

/-- The messages of the methods, by their names. -/
def shapesOf (text : List Char) : GoMap (List Char) RPCShape :=
  ((findAll protoRPCShapeRe text).map Found.groups).foldl
    (fun shapes m => shapes.insert m.method m.shape) ∅

/-- The search of `lineNumber`, from a line and its position on. -/
def lineNumberFrom (offset : ℕ) : ℕ → ℕ → List (List Char) → Option ℕ
  | _, _, [] => none
  | i, pos, l :: lines =>
    if offset < pos + l.length + 1 then some (i + 1)
    else lineNumberFrom offset (i + 1) (pos + l.length + 1) lines

/-- The line of a position, from one on. -/
def lineNumber (lines : List (List Char)) (offset : ℕ) : ℕ :=
  (lineNumberFrom offset 0 0 lines).getD lines.length

/-- What is stored of the messages of a method. -/
def withShape (metadata : Metadata) (s : RPCShape) : Metadata :=
  let metadata := metadata.insert "request_type" (.str (String.ofList s.requestType))
  let metadata := metadata.insert "response_type" (.str (String.ofList s.responseType))
  let metadata :=
    if s.requestStream = true then metadata.insert "request_stream" (.bool true) else metadata
  let metadata :=
    if s.responseStream = true then metadata.insert "response_stream" (.bool true) else metadata
  metadata.insert "schema_source" (.str "extracted")

/-- The metadata of a provider. -/
def providerMeta (serviceName methodName : List Char) (shape : Option RPCShape) : Metadata :=
  let metadata := (∅ : Metadata).insert "service" (.str (String.ofList serviceName))
  let metadata := metadata.insert "method" (.str (String.ofList methodName))
  let metadata := metadata.insert "schema_source" (.str "none")
  shape.elim metadata (withShape metadata)

/-- `grpc::Service::Method`. -/
def providerID (serviceName methodName : String) : String :=
  "grpc::" ++ serviceName ++ "::" ++ methodName

/-- **The providers of a `.proto` text.** -/
def extractProtoProviders (filePath : String) (text : List Char) : List Contract :=
  let lines := text.splitOn '\n'
  let shapes := shapesOf text
  (findAll protoServiceRe text).flatMap fun sMatch =>
    let serviceName := sMatch.groups
    let serviceStart := sMatch.start text
    let rest := text.drop serviceStart
    (findAll protoRPCRe rest).map fun rpc =>
      let methodName := rpc.groups
      let absOffset := serviceStart + rpc.start rest
      { id := providerID (String.ofList serviceName) (String.ofList methodName)
        contractType := ContractType.grpc
        role := Role.provider
        symbolID := ""
        filePath := filePath
        line := lineNumber lines absOffset
        metadata := providerMeta serviceName methodName (shapes.lookup methodName)
        confidence := 95 / 100 }

end Grpc

end Gortex
