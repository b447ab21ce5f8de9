import Gortex.Lib.GoText

/-!
# Classifying shell commands

`internal/hooks/bash_classify.go`: what a shell command does that the tools of the graph do as
well. The command is cut into its primary segments, at `;`, `&&`, `||` and `|` outside of
quotes, a segment is cut into tokens at the blanks, and the first segment that searches or reads
source code decides. A segment behind a single `|` is not looked at.
-/

namespace Gortex

namespace Hooks

/-! ### Actions -/

/-- What a command is taken for. -/
inductive BashAction
  | passthrough
  | grepLike
  | findName
  | readSource
deriving DecidableEq, Repr

/-- The result of a classification: the pattern of a search, or the path of a file, and the word
the command begins with. -/
structure BashClassification where
  action : BashAction := .passthrough
  pattern : List Char := []
  path : List Char := []
  primary : List Char := []
deriving DecidableEq, Repr

/-! ### Segments and tokens -/

/-- The end of a segment: it is kept if it is primary and not blank. -/
def flush (primary : Bool) (cur : List Char) : List (List Char) :=
  if primary = true ∧ GoText.trimSpace cur ≠ [] then [GoText.trimSpace cur] else []

/-- The primary segments of the rest of a command: `cur` is what there is of the segment, and the
flags say whether the place is in single or double quotes, and whether the segment is primary. -/
def segmentsFrom (cur : List Char) (inSingle inDouble primary : Bool) :
    List Char → List (List Char)
  | [] => flush primary cur
  | c :: cmd =>
    if c = '\'' ∧ inDouble = false then
      segmentsFrom (cur ++ [c]) (!inSingle) inDouble primary cmd
    else if c = '\"' ∧ inSingle = false then
      segmentsFrom (cur ++ [c]) inSingle (!inDouble) primary cmd
    else if inSingle = true ∨ inDouble = true then
      segmentsFrom (cur ++ [c]) inSingle inDouble primary cmd
    else if c = ';' then flush primary cur ++ segmentsFrom [] inSingle inDouble true cmd
    else if c = '&' ∧ cmd.head? = some '&' then
      flush primary cur ++ segmentsFrom [] inSingle inDouble true cmd.tail
    else if c = '|' ∧ cmd.head? = some '|' then
      flush primary cur ++ segmentsFrom [] inSingle inDouble true cmd.tail
    else if c = '|' then flush primary cur ++ segmentsFrom [] inSingle inDouble false cmd
    else segmentsFrom (cur ++ [c]) inSingle inDouble primary cmd
termination_by cmd => cmd.length
decreasing_by
  all_goals
    simp only [List.length_cons, List.length_tail]
    omega

/-- **The primary segments** of a command. -/
def primarySegments (cmd : List Char) : List (List Char) := segmentsFrom [] false false true cmd

/-- The tokens of the rest of a segment. -/
def tokensFrom (cur : List Char) (inSingle inDouble hasContent : Bool) :
    List Char → List (List Char)
  | [] => if hasContent = true then [cur] else []
  | c :: seg =>
    if c = '\'' ∧ inDouble = false then tokensFrom cur (!inSingle) inDouble true seg
    else if c = '\"' ∧ inSingle = false then tokensFrom cur inSingle (!inDouble) true seg
    else if inSingle = false ∧ inDouble = false ∧ (c = ' ' ∨ c = '\t') then
      (if hasContent = true then [cur] else []) ++ tokensFrom [] inSingle inDouble false seg
    else tokensFrom (cur ++ [c]) inSingle inDouble true seg

/-- **The tokens** of a segment, without their quotes. -/
def tokenize (seg : List Char) : List (List Char) := tokensFrom [] false false false seg

/-! ### What the tokens ask for -/

/-- The flags of a search that take the next token. -/
def grepFlagsTakingArg : List (List Char) :=
  ["-e", "-f", "-A", "-B", "-C", "-m", "--max-count", "--include", "--exclude", "--regexp",
    "--file", "-t", "-T", "-g"].map String.toList

/-- The pattern of a search, in the tokens after the command. -/
def extractGrepPattern : List (List Char) → Option (List Char)
  | [] => none
  | t :: tokens =>
    if t = "-e".toList ∨ t = "--regexp".toList then tokens.head?
    else if "--".toList.isPrefixOf t = true ∧ '=' ∈ t then extractGrepPattern tokens
    else if t ∈ grepFlagsTakingArg then extractGrepPattern tokens.tail
    else if "-".toList.isPrefixOf t = true ∧ t ≠ "-".toList then extractGrepPattern tokens
    else some t
termination_by tokens => tokens.length
decreasing_by
  all_goals
    simp only [List.length_cons, List.length_tail]
    omega

/-- A name without the wildcards around it. -/
def trimWildcards (name : List Char) : List Char :=
  ((name.dropWhile fun c => c ∈ ['*', '?']).reverse.dropWhile fun c => c ∈ ['*', '?']).reverse

/-- The name that `find` looks for, in the tokens after the command. -/
def extractFindName : List (List Char) → Option (List Char)
  | t :: t' :: tokens =>
    if t = "-name".toList ∨ t = "-iname".toList then some (trimWildcards t')
    else extractFindName (t' :: tokens)
  | _ => none

/-- The extensions of source files. -/
def sourceExts : List (List Char) :=
  [".go", ".ts", ".tsx", ".js", ".jsx", ".py", ".rs", ".java", ".kt", ".scala", ".swift", ".php",
    ".rb", ".ex", ".exs", ".c", ".h", ".cpp", ".cc", ".cxx", ".hpp", ".cs", ".sql", ".proto", ".sh",
    ".bash"].map String.toList

variable (toLower : List Char → List Char)

/-- Whether a path ends as that of a source file. -/
def looksLikeSourceFile (path : List Char) : Bool :=
  sourceExts.any fun ext => ext.isSuffixOf (toLower path)

/-- The source file that is read: the last token after the command that is no flag. -/
def extractReadFile (tokens : List (List Char)) : Option (List Char) :=
  (tokens.reverse.find? fun t => !"-".toList.isPrefixOf t).filter (looksLikeSourceFile toLower)

/-- The tokens without `sudo`, `time` and the assignments before the command. -/
def skipLeading : List (List Char) → List (List Char)
  | [] => []
  | t :: tokens =>
    if '=' ∈ t ∧ "-".toList.isPrefixOf t = false then skipLeading tokens
    else if t = "sudo".toList ∨ t = "time".toList then skipLeading tokens
    else t :: tokens

/-- What the tokens of a segment ask for, if they are a search or read source code. -/
def classifyTokens (tokens : List (List Char)) : Option BashClassification :=
  match skipLeading tokens with
  | [] => none
  | cmd :: args =>
    if cmd ∈ ["grep", "rg", "ag", "egrep", "fgrep"].map String.toList then
      (extractGrepPattern args).map fun p => { action := .grepLike, pattern := p, primary := cmd }
    else if cmd = "find".toList then
      (extractFindName args).map fun p => { action := .findName, pattern := p, primary := cmd }
    else if cmd ∈ ["cat", "head", "tail"].map String.toList then
      (extractReadFile toLower args).map fun p =>
        { action := .readSource, path := p, primary := cmd }
    else none

/-- **The classification of a command**: that of the first segment that has one. -/
def classifyBashCommand (cmd : List Char) : BashClassification :=
  ((primarySegments cmd).findSome? fun seg => classifyTokens toLower (tokenize seg)).getD {}

end Hooks

end Gortex
