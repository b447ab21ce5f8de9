import Gortex.Contracts.GoShape

/-!
# Struct declarations

A struct declaration with one field declaration to a line (`Gortex.GoShape.StructDecl`), the fields
that `encoding/json` writes for it (`Gortex.GoShape.StructDecl.serialized`), and the fields that
the extraction lists (`Gortex.GoShape.StructDecl.listed`): those, and by design the ones that are
excluded by the name `-`, as optional fields under their own names. On the declarations that the
expression for a field reads as they are meant (`Gortex.GoShape.StructDecl.Reads`) the extraction
gives what is listed.
-/

namespace Gortex

namespace GoShape

open ContractRegistry (isWordChar isBlank trimChars)
open Backtrack (Matcher sat lit many manyLazy many1 opt eof find)

/-! ### Declarations -/

/-- Spaces and tabs, or none. -/
structure Blanks where
  chars : List Char
  blank : ∀ c ∈ chars, c = ' ' ∨ c = '\t'

/-- Spaces and tabs between two words. -/
structure Gap extends Blanks where
  ne_nil : chars ≠ []

/-- Spaces, or none. -/
structure Spaces where
  chars : List Char
  space : ∀ c ∈ chars, c = ' '

/-- Spaces between the entries of a tag. -/
structure SpaceGap extends Spaces where
  ne_nil : chars ≠ []

/-- The name of a field. -/
structure FieldName where
  first : Char
  rest : List Char
  start : isTypeStart first = true
  word : ∀ c ∈ rest, isWordChar c = true

/-- The name of a type, with its package or without. -/
structure TypeName where
  first : Char
  rest : List Char
  start : isTypeStart first = true
  dotted : ∀ c ∈ rest, isWordChar c = true ∨ c = '.'

/-- Types. -/
inductive GoType
  | named (name : TypeName)
  | pointer (elem : GoType)
  | slice (elem : GoType)
  | map (key elem : GoType)

/-- An entry of a tag: a key, and a value in quotes. -/
structure TagEntry where
  key : List Char
  value : List Char
  key_ne_nil : key ≠ []
  plain_key : ∀ c ∈ key, GoString.isSpace c = false ∧ c ≠ ':' ∧ c ≠ '"' ∧ c ≠ '`'
  plain_value : ∀ c ∈ value, c ≠ '"' ∧ c ≠ '\\' ∧ c ≠ '`' ∧ c ≠ '\n'

/-- A tag: its entries, with spaces between them. -/
structure Tag where
  first : TagEntry
  rest : List (SpaceGap × TagEntry)

/-- A comment at the end of a line. -/
structure Comment where
  before : Blanks
  text : List Char
  inLine : '\n' ∉ text
  ends : ∀ c ∈ text.getLast?, GoString.isSpace c = false

/-- The declaration of a field, or of several fields of one type. -/
structure FieldDecl where
  indent : Blanks
  first : FieldName
  others : List ((Spaces × Spaces) × FieldName)
  gap : Gap
  type : GoType
  tag : Option (Gap × Tag)
  comment : Option Comment
  trailing : Blanks

/-- The declaration of a field of a struct type without a name. Its own lines are as they are. -/
structure NestedDecl where
  indent : Blanks
  name : FieldName
  body : List (List Char)
  inLine : ∀ line ∈ body, '\n' ∉ line
  tag : Option (Gap × Tag)

/-- What stands between the braces. -/
inductive Item
  | blank (blanks : Blanks)
  | comment (indent : Blanks) (text : List Char) (inLine : '\n' ∉ text)
  | field (f : FieldDecl)
  | nested (n : NestedDecl)

/-- **A struct declaration.** -/
structure StructDecl where
  header : List Char
  plain_header : ∀ c ∈ header, c ≠ '{' ∧ c ≠ '\n'
  items : List Item

/-! ### Their texts -/

def FieldName.chars (n : FieldName) : List Char := n.first :: n.rest

def TypeName.chars (n : TypeName) : List Char := n.first :: n.rest

def GoType.render : GoType → List Char
  | named name => name.chars
  | pointer elem => '*' :: elem.render
  | slice elem => '[' :: ']' :: elem.render
  | map key elem => ['m', 'a', 'p', '['] ++ key.render ++ ']' :: elem.render

def TagEntry.render (e : TagEntry) : List Char := e.key ++ ':' :: '"' :: e.value ++ ['"']

def Tag.render (t : Tag) : List Char :=
  t.first.render ++ t.rest.flatMap fun e => e.1.chars ++ e.2.render

/-- A tag in its quotes, after a gap. -/
def renderTag (tag : Option (Gap × Tag)) : List Char :=
  tag.elim [] fun t => t.1.chars ++ '`' :: t.2.render ++ ['`']

def Comment.render (c : Comment) : List Char := c.before.chars ++ '/' :: '/' :: c.text

/-- What follows the first name. -/
def renderOthers (others : List ((Spaces × Spaces) × FieldName)) : List Char :=
  others.flatMap fun o => o.1.1.chars ++ ',' :: (o.1.2.chars ++ o.2.chars)

/-- A field without the blanks around it. -/
def FieldDecl.core (f : FieldDecl) : List Char :=
  f.first.chars ++ renderOthers f.others ++ f.gap.chars ++ f.type.render ++ renderTag f.tag ++
    f.comment.elim [] Comment.render

def FieldDecl.render (f : FieldDecl) : List Char :=
  f.indent.chars ++ f.core ++ f.trailing.chars

def NestedDecl.lines (n : NestedDecl) : List (List Char) :=
  (n.indent.chars ++ n.name.chars ++ " struct \x7b".toList) ::
    (n.body ++ [n.indent.chars ++ '}' :: renderTag n.tag])

def Item.lines : Item → List (List Char)
  | blank blanks => [blanks.chars]
  | comment indent text _ => [indent.chars ++ '/' :: '/' :: text]
  | field f => [f.render]
  | nested n => n.lines

def StructDecl.lines (d : StructDecl) : List (List Char) :=
  (d.header ++ ['{']) :: (d.items.flatMap Item.lines ++ [['}']])

/-! ### The fields on the wire -/

/-- A field of an object: its name, whether it has to be there, and whether it is an array. -/
@[ext]
structure WireField where
  name : List Char
  required : Bool
  repeated : Bool
deriving DecidableEq, Repr

/-- One name that is declared, with what matters of its type. -/
structure Member where
  name : FieldName
  tag : Option (Gap × Tag)
  pointer : Bool
  slice : Bool

def GoType.isPointer : GoType → Bool
  | pointer _ => true
  | _ => false

def GoType.isSlice : GoType → Bool
  | slice _ => true
  | _ => false

def FieldDecl.names (f : FieldDecl) : List FieldName := f.first :: f.others.map Prod.snd

def Item.members : Item → List Member
  | blank _ => []
  | comment _ _ _ => []
  | field f => f.names.map fun n => ⟨n, f.tag, f.type.isPointer, f.type.isSlice⟩
  | nested n => [⟨n.name, n.tag, false, false⟩]

def Tag.entries (t : Tag) : List TagEntry := t.first :: t.rest.map Prod.snd

/-- The value under `json` in a tag. -/
def jsonValue (tag : Option (Gap × Tag)) : Option (List Char) :=
  (tag.bind fun t => t.2.entries.find? fun e => e.key = "json".toList).map TagEntry.value

/-- The name and the options in the value under `json`. -/
def jsonParts (tag : Option (Gap × Tag)) : List (List Char) :=
  (jsonValue tag).elim [] fun value => value.splitOn ','

namespace Member

def exported (m : Member) : Bool := m.name.first.isUpper

/-- The name `-`, without options, excludes a field. -/
def excluded (m : Member) : Bool := jsonValue m.tag = some ['-']

def omitsEmpty (m : Member) : Bool :=
  (jsonParts m.tag).tail.any fun p => p = "omitempty".toList

end Member

section Wire

variable (isLetter : Char → Bool)

/-- A name that `encoding/json` takes from a tag, of letters and digits and some marks. -/
def validName (name : List Char) : Bool :=
  name ≠ [] ∧ (name.all fun c =>
    c ∈ "!#$%&()*+-./:;<=>?@[]^_\x7b|\x7d~ ".toList ∨ isLetter c = true) = true

/-- Whether the name of a field is from its tag. -/
def Member.tagged (m : Member) : Bool := validName isLetter ((jsonParts m.tag).headD [])

def Member.wire (m : Member) : WireField where
  name := if m.tagged isLetter = true then (jsonParts m.tag).headD [] else m.name.chars
  required := !m.omitsEmpty && !m.pointer
  repeated := m.slice

/-- An excluded field, as it is listed. -/
def Member.optional (m : Member) : WireField := ⟨m.name.chars, false, m.slice⟩

/-- Of some fields of one name the only one counts, or else the only one with its name from a
tag. -/
def dominates (members : List Member) (m : Member) : Bool :=
  let same := members.filter fun n => (n.wire isLetter).name = (m.wire isLetter).name
  same.length = 1 ∨ m.tagged isLetter = true ∧ (same.filter (Member.tagged isLetter)).length = 1

namespace StructDecl

variable (d : StructDecl)

def members : List Member := d.items.flatMap Item.members

/-- The members that are written. -/
def written : List Member := d.members.filter fun m => m.exported && !m.excluded

/-- **The fields that `encoding/json` writes**: the exported ones that are not excluded, and of
those of one name the one that dominates. -/
def serialized : List WireField :=
  (d.written.filter (dominates isLetter d.written)).map (Member.wire isLetter)

/-- **The fields that are listed**: those that are written, and the excluded ones as optional. -/
def listed : List WireField :=
  (d.members.filter Member.exported).flatMap fun m =>
    if m.excluded = true then [m.optional]
    else if dominates isLetter d.written m = true then [m.wire isLetter] else []

end StructDecl

/-! ### What is read as it is meant -/

/-- Types that begin with a name or a map. -/
def GoType.Plain : GoType → Prop
  | named _ => True
  | map _ _ => True
  | _ => False

/-- **The types of the expression**: one pointer or one slice at most, or a pointer to a slice,
before a plain one. -/
def GoType.Reads : GoType → Prop
  | pointer (slice elem) => elem.Plain
  | pointer elem => elem.Plain
  | slice elem => elem.Plain
  | _ => True

/-- A tag without blanks in its values, and with a name that is valid, if there is one, and is
not `-` with options. -/
structure TagReads (tag : Option (Gap × Tag)) : Prop where
  values : ∀ t ∈ tag, ∀ e ∈ t.2.entries, ∀ c ∈ e.value, GoString.isSpace c = false
  name : (jsonParts tag).headD [] ≠ [] → validName isLetter ((jsonParts tag).headD []) = true
  dash : (jsonParts tag).headD [] = ['-'] → jsonValue tag = some ['-']

/-- A declaration of which no name is exported, or the first is, with a type and a tag that are
read as they are meant. -/
structure FieldDecl.Reads (f : FieldDecl) : Prop where
  type : f.first.first.isUpper = true → f.type.Reads
  tag : f.first.first.isUpper = true → TagReads isLetter f.tag
  names : f.first.first.isUpper = true ∨ ∀ n ∈ f.names, n.first.isUpper = false

def Item.Reads : Item → Prop
  | blank _ => True
  | comment _ _ _ => True
  | field f => f.Reads isLetter
  | nested _ => False

/-- **A declaration that is read as it is meant**: its items are, the braces in its comments and
tags are balanced, and the names on the wire are distinct. -/
structure StructDecl.Reads (d : StructDecl) : Prop where
  items : ∀ i ∈ d.items, i.Reads isLetter
  braces : ∀ i ∈ d.items, ∀ line ∈ i.lines, Brackets.Balanced brace line
  distinct : (d.written.map fun m => (m.wire isLetter).name).Nodup

end Wire

/-- A file in which the declaration stands, between other lines. -/
structure SourceFile where
  before : List (List Char)
  decl : StructDecl
  after : List (List Char)
  before_inLine : ∀ line ∈ before, '\n' ∉ line
  after_inLine : ∀ line ∈ after, '\n' ∉ line

namespace SourceFile

variable (f : SourceFile)

def text : List Char := ['\n'].intercalate (f.before ++ f.decl.lines ++ f.after)

def startLine : ℤ := f.before.length + 1

def endLine : ℤ := f.before.length + f.decl.lines.length

/-- What the extraction gives for the declaration. -/
def extracted : List WireField :=
  ((extractGoShape f.text f.startLine f.endLine).elim [] StructShape.fields).map
    fun field => ⟨field.name, field.required, field.repeated⟩

end SourceFile

end GoShape

end Gortex
