import Gortex.Contracts.HttpPath
import Gortex.Contracts.Registry
import Mathlib.Data.List.Sort

/-!
# Schema hints of a handler

The driver of `internal/contracts/schema_enrich.go`: the body of the handler of a contract is
shown to the detectors of its language, and what they find is written to the metadata. The
detectors are regular expressions for many frameworks; they are a parameter here, and what is
proved holds for all of them.

Enriching a contract overlays its metadata with what is read off one body
(`Gortex.Contracts.Overlays.enrichProvider`): nothing is removed, and what is written depends
on the path of the contract alone.
-/

namespace Gortex

namespace Contracts

/-! ### The model -/

/-- What a detector finds. -/
structure SchemaHints where
  requestType : String := ""
  requestExpr : String := ""
  responseType : String := ""
  responseExpr : String := ""
  queryParams : List String := []
  statusCodes : List ℤ := []
deriving DecidableEq

/-- Nothing was found. -/
def SchemaHints.isEmpty (h : SchemaHints) : Prop := h = {}

instance (h : SchemaHints) : Decidable h.isEmpty := inferInstanceAs (Decidable (h = {}))

/-- The first of two texts that is not empty. -/
def firstText (s t : String) : String := if s = "" then t else s

/-- Add what another detector finds. -/
def SchemaHints.merge (h o : SchemaHints) : SchemaHints where
  requestType := firstText h.requestType o.requestType
  requestExpr := firstText h.requestExpr o.requestExpr
  responseType := firstText h.responseType o.responseType
  responseExpr := firstText h.responseExpr o.responseExpr
  queryParams := h.queryParams ++ o.queryParams
  statusCodes := h.statusCodes ++ o.statusCodes

/-- A detector, for some languages and roles, or all if none is listed. -/
structure SchemaEnricher where
  languages : List String
  roles : List Role
  detect : List Char → List Node → SchemaHints

/-- Whether a list contains something, or is empty. -/
def containsOrEmpty {α : Type} [DecidableEq α] (xs : List α) (x : α) : Prop := xs = [] ∨ x ∈ xs

instance {α : Type} [DecidableEq α] (xs : List α) (x : α) : Decidable (containsOrEmpty xs x) :=
  inferInstanceAs (Decidable (xs = [] ∨ x ∈ xs))

/-- The strings of a list but for the empty one, each once and in order. -/
def uniqStrings (l : List String) : List String :=
  (l.filter fun s => s ≠ "").dedup.mergeSort fun s t => s ≤ t

/-- The numbers of a list, each once and in order. -/
def uniqInts (l : List ℤ) : List ℤ := l.dedup.mergeSort fun m n => m ≤ n

/-- The names in braces in a path, the last characters of a match being skipped. -/
def bracedNames : ℕ → List Char → List (List Char)
  | _, [] => []
  | skip + 1, _ :: l => bracedNames skip l
  | 0, c :: l =>
    let name := l.takeWhile (· ≠ '}')
    if c = '{' ∧ name ≠ [] ∧ l.dropWhile (· ≠ '}') ≠ [] then
      name :: bracedNames (name.length + 1) l
    else bracedNames 0 l

/-- The parameters of a path. -/
def pathParamsFromTemplate (path : String) : List String :=
  uniqStrings ((bracedNames 0 path.toList).map String.ofList)

/-- Write the parameters of the path of a contract. -/
def withPathParams (path : String) (m : Metadata) : Metadata :=
  if path ≠ "" ∧ pathParamsFromTemplate path ≠ [] then
    m.insert "path_params" (.strs (pathParamsFromTemplate path))
  else m

/-- Write a value unless it is left out. -/
def setIf (p : Prop) [Decidable p] (key : String) (v : MetaValue) (m : Metadata) : Metadata :=
  if p then m.insert key v else m

/-- Write what was found. -/
def applyHints (h : SchemaHints) (matched : Prop) [Decidable matched] (m : Metadata) : Metadata :=
  if ¬matched then m.insert "schema_source" (.str "none")
  else
    let m := setIf (h.requestType ≠ "") "request_type" (.str h.requestType) m
    let m := setIf (h.requestExpr ≠ "") "request_expr" (.str h.requestExpr) m
    let m := setIf (h.responseType ≠ "") "response_type" (.str h.responseType) m
    let m := setIf (h.responseExpr ≠ "") "response_expr" (.str h.responseExpr) m
    let m := setIf (uniqStrings h.queryParams ≠ []) "query_params"
      (.strs (uniqStrings h.queryParams)) m
    let m := setIf (uniqInts h.statusCodes ≠ []) "status_codes" (.ints (uniqInts h.statusCodes)) m
    m.insert "schema_source"
      (.str (if h.requestType ≠ "" ∨ h.responseType ≠ "" then "extracted" else "partial"))

/-- The depth of braces after a line, and whether one has been opened. -/
def braceDepth (s : ℤ × Bool) (line : List Char) : ℤ × Bool :=
  line.foldl (fun s c =>
    if c = '{' then (s.1 + 1, true)
    else if c = '}' ∧ s.2 = true then (s.1 - 1, s.2)
    else s) s

/-- How many of some lines belong to the block that begins in them: up to the line where the
first brace is closed. -/
def blockLength (s : ℤ × Bool) : List (List Char) → ℕ
  | [] => 0
  | line :: lines =>
    let s := braceDepth s line
    if s.2 = true ∧ s.1 ≤ 0 then 1 else blockLength s lines + 1

/-- The block that begins in a line, of two hundred lines at most. -/
def braceWindow (lines : List (List Char)) (start : ℤ) : ℤ × ℤ :=
  if start ≤ 0 ∨ (lines.length : ℤ) < start then (0, 0)
  else
    -- the loop stops at the line `min (start + 200) lines.length`
    let window := (lines.drop (start - 1).toNat).take 201
    (start, start - 1 + blockLength (0, false) window)

def clampLine (n max : ℤ) : ℤ := if n < 1 then 1 else if max < n then max else n

/-- The lines of the handler of a contract. -/
def handlerBodyRange (c : Contract) (fileNodes : List Node) (lines : List (List Char)) : ℤ × ℤ :=
  match fileNodes.find? fun n => n.id = c.symbolID with
  | none => braceWindow lines c.line
  | some node =>
    let start := if node.startLine ≤ 0 then c.line else node.startLine
    if start < node.endLine then (start, clampLine node.endLine lines.length)
    else braceWindow lines start

/-- The lines around the call of a consumer. -/
def callSiteWindow (c : Contract) (lines : List (List Char)) : ℤ × ℤ :=
  if c.line ≤ 0 ∨ (lines.length : ℤ) < c.line then (0, 0)
  else (max 1 (c.line - 6), min lines.length (c.line + 14))

/-- The text of some lines, counted from one. -/
def bodyOf (lines : List (List Char)) (range : ℤ × ℤ) : List Char :=
  ['\n'].intercalate ((lines.drop (range.1 - 1).toNat).take (range.2 - range.1 + 1).toNat)

/-- What the detectors for a language and a role find in a text. -/
def detectHints (enrichers : List SchemaEnricher) (lang : String) (role : Role) (body : List Char)
    (fileNodes : List Node) : List SchemaHints :=
  ((enrichers.filter fun e => containsOrEmpty e.languages lang ∧ containsOrEmpty e.roles role).map
    fun e => e.detect body fileNodes).filter fun h => ¬h.isEmpty

/-- Write what the detectors find in some lines, if there are such lines. -/
def enrichBody (enrichers : List SchemaEnricher) (lang : String) (role : Role)
    (lines : List (List Char)) (fileNodes : List Node) (range : ℤ × ℤ) (m : Metadata) : Metadata :=
  if range.1 ≤ 0 ∨ range.2 < range.1 then m.insert "schema_source" (.str "none")
  else
    let found := detectHints enrichers lang role (bodyOf lines range) fileNodes
    applyHints (found.foldl SchemaHints.merge {}) (found ≠ []) m

/-- **EnrichHTTPContract** writes what can be read off the body of the handler of a provider, or
off the lines around the call of a consumer. -/
def EnrichHTTPContract (enrichers : List SchemaEnricher) (c : Contract) (lines : List (List Char))
    (fileNodes : List Node) (lang : String) : Contract :=
  let range := if c.role ≠ .provider then callSiteWindow c lines
    else handlerBodyRange c fileNodes lines
  { c with
    metadata := enrichBody enrichers lang c.role lines fileNodes range
      (withPathParams (c.metadata.getStr "path") c.metadata) }

/-! ### What is written -/

/-- The keys that are written. -/
def schemaKeys : List String :=
  ["path_params", "schema_source", "request_type", "request_expr", "response_type",
    "response_expr", "query_params", "status_codes"]

/-- **A write that overlays metadata**: it reads nothing of them and removes nothing, and the
keys that it writes are those of schemas. -/
structure Overlays (f : Metadata → Metadata) : Prop where
  lookup : ∀ m key, (f m).lookup key = ((f ∅).lookup key).or (m.lookup key)
  key : ∀ {key}, ((f ∅).lookup key).isSome = true → key ∈ schemaKeys

namespace Overlays

variable {f f' : Metadata → Metadata}

theorem id : Overlays fun m => m := ⟨fun _ _ => rfl, fun h => absurd h (by simp)⟩

theorem comp (hf : Overlays f) (hf' : Overlays f') : Overlays fun m => f (f' m) where
  lookup m key := by
    rw [hf.lookup (f' m), hf'.lookup m, hf.lookup (f' ∅), Option.or_assoc]
  key {key} h := by
    rw [hf.lookup (f' ∅), Option.isSome_or, Bool.or_eq_true] at h
    exact h.elim hf.key hf'.key

theorem insert {key : String} (hkey : key ∈ schemaKeys) (v : MetaValue) :
    Overlays fun m : Metadata => m.insert key v where
  lookup m key' := by
    rw [GoMap.lookup_insert, GoMap.lookup_insert]
    split_ifs
    · rfl
    · rfl
  key {key'} h := by
    rw [GoMap.lookup_insert] at h
    split_ifs at h with heq
    · exact heq ▸ hkey
    · exact absurd h (by simp)

theorem ite {p : Prop} [Decidable p] (hf : Overlays f) (hf' : Overlays f') :
    Overlays fun m => if p then f m else f' m := by
  split_ifs
  · exact hf
  · exact hf'

theorem setIf {p : Prop} [Decidable p] {key : String} (hkey : key ∈ schemaKeys) (v : MetaValue) :
    Overlays (setIf p key v) :=
  (insert hkey v).ite id

theorem applyHints (h : SchemaHints) (matched : Prop) [Decidable matched] :
    Overlays (applyHints h matched) :=
  (insert (by decide) _).ite <| (insert (by decide) _).comp <| (setIf (by decide) _).comp <|
    (setIf (by decide) _).comp <| (setIf (by decide) _).comp <| (setIf (by decide) _).comp <|
    (setIf (by decide) _).comp <| setIf (by decide) _

theorem enrichBody (enrichers : List SchemaEnricher) (lang : String) (role : Role)
    (lines : List (List Char)) (fileNodes : List Node) (range : ℤ × ℤ) :
    Overlays (enrichBody enrichers lang role lines fileNodes range) :=
  (insert (by decide) _).ite (applyHints _ _)

theorem withPathParams (path : String) : Overlays (withPathParams path) :=
  (insert (by decide) _).ite id

end Overlays

end Contracts

end Gortex
