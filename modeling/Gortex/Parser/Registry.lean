import Gortex.Graph.Types
import Gortex.Lib.GoPath

/-!
# Extractors

An extractor turns the bytes of a source file into nodes and edges
(`internal/parser`). What it does with the bytes is a parameter: the registry only
knows which extractor is registered for which file name.
-/

namespace Gortex

open GoString

/-- The nodes and edges extracted from one file. -/
structure ExtractionResult where
  nodes : List Node
  edges : List Edge

/-- An extractor: a deterministic function of the path and the bytes. -/
structure Extractor where
  language : String
  extensions : List String
  extract : (filePath : String) → (src : ByteArray) → Except String ExtractionResult

/-- The extractors by language, and the languages by file name. -/
structure Registry where
  extractors : GoMap String Extractor := ∅
  extMap : GoMap String String := ∅
  nameMap : GoMap String String := ∅

namespace Registry

/-- Add an extractor and map its extensions; an entry without a leading dot is a whole
file name. -/
def register (r : Registry) (e : Extractor) : Registry :=
  e.extensions.foldl (fun r s =>
    if hasPrefix s "." then { r with extMap := r.extMap.insert s e.language }
    else { r with nameMap := r.nameMap.insert s e.language })
    { r with extractors := r.extractors.insert e.language e }

/-- The extractor of a language. -/
def getByLanguage (r : Registry) (lang : String) : Option Extractor := r.extractors.lookup lang

/-- The last two extensions of a base name, if there are two. -/
def compoundExt (base : String) : Option String := do
  let i ← lastIndexOf ['.'] base.toList
  if i = 0 then none
  let j ← lastIndexOf ['.'] (base.toList.take i)
  some (String.ofList (base.toList.drop j))

/-- The language of a file: by its whole name, by its last two extensions, by its
last one. -/
def detectLanguage (r : Registry) (filePath : String) : Option String :=
  let base := GoPath.base filePath
  r.nameMap.lookup base <|> (compoundExt base).bind r.extMap.lookup
    <|> r.extMap.lookup (GoPath.ext filePath)

end Registry

end Gortex
