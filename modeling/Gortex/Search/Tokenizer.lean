import Mathlib.Data.List.Basic

/-!
# Tokens

`internal/search/tokenizer.go`: Tokenize splits a name or a path into words, at separators
and at the humps of camelCase, and drops the words of one character; TokenizeQuery splits a
query at everything that is no letter, digit or underscore. What counts as a letter is up to
the tables of Go's `unicode` package, which are a parameter.
-/

namespace Gortex

/-- The parts of Go's `unicode` and `strings` packages that depend on the Unicode tables. -/
structure Unicode where
  isUpper : Char → Bool
  isLower : Char → Bool
  isLetter : Char → Bool
  isDigit : Char → Bool
  toLower : String → String

/-- The tables of ASCII. -/
def Unicode.ascii : Unicode where
  isUpper := Char.isUpper
  isLower := Char.isLower
  isLetter := Char.isAlpha
  isDigit := Char.isDigit
  toLower := fun s => String.ofList (s.toList.map Char.toLower)

/-- The words found so far, and the characters of the current one. -/
structure TokenState where
  tokens : List String := []
  current : List Char := []

namespace TokenState

variable (u : Unicode)

/-- End the current word, and keep it if it is long enough. -/
def flush (minLen : ℕ) (s : TokenState) : TokenState :=
  if minLen ≤ s.current.length then
    ⟨s.tokens ++ [u.toLower (String.ofList s.current)], []⟩
  else ⟨s.tokens, []⟩

/-- Add a character to the current word. -/
def push (s : TokenState) (r : Char) : TokenState := { s with current := s.current ++ [r] }

/-- Whether a word ends before an uppercase character: after a lowercase one, and before the
last one of several if a lowercase one follows. -/
def hump (s : TokenState) (next : Option Char) : Bool :=
  s.current.getLast?.any fun prev =>
    u.isLower prev || u.isUpper prev && next.any u.isLower

/-- One character of a name, with the one after it. -/
def step (s : TokenState) (r : Char) (next : Option Char) : TokenState :=
  if r ∈ ['_', '/', '.', ':', '-', ' '] then s.flush u 2
  else if u.isUpper r then (if s.hump u next then s.flush u 2 else s).push r
  else if u.isLetter r ∨ u.isDigit r then s.push r
  else s.flush u 2

/-- The loop of Tokenize. -/
def run : TokenState → List Char → TokenState
  | s, [] => s.flush u 2
  | s, r :: rest => run (s.step u r rest.head?) rest

/-- One character of a query. -/
def queryStep (s : TokenState) (r : Char) : TokenState :=
  if u.isLetter r ∨ u.isDigit r ∨ r = '_' then s.push r else s.flush u 1

end TokenState

namespace Unicode

variable (u : Unicode)

/-- **Tokenize** splits a string into searchable tokens. -/
def tokenize (s : String) : List String := (TokenState.run u {} s.toList).tokens

/-- **TokenizeQuery** splits a query, keeping short tokens. -/
def tokenizeQuery (s : String) : List String :=
  ((s.toList.foldl (TokenState.queryStep u) {}).flush u 1).tokens

end Unicode

example : Unicode.ascii.tokenize "HTMLParser.parseURL_v2" = ["html", "parser", "parse", "url", "v2"] := by
  decide +kernel

end Gortex
