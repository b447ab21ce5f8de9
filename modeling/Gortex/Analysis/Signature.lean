import Mathlib.Algebra.Group.Pi.Basic
import Gortex.Lib.Brackets
import Gortex.Lib.GoText

/-!
# Signatures

Two readers of the signature of a Go function: `parseSignature` of
`internal/analysis/contracts.go`, from which the verification of a change takes the types of the
parameters and of the results, and `parseFirstNonErrorReturnType` of
`internal/indexer/indexer.go`. Both work on the text, with counters of open brackets.
-/

namespace Gortex

namespace Analysis

open Brackets GoText

/-! ### Brackets -/

/-- The weight of a kind of brackets. -/
def weight (opening closing : Char) (c : Char) : ℤ :=
  if c = opening then 1 else if c = closing then -1 else 0

/-- Parentheses. -/
abbrev parens : Char → ℤ := weight '(' ')'

/-- Square brackets. -/
abbrev brackets : Char → ℤ := weight '[' ']'

/-- Braces. -/
abbrev braces : Char → ℤ := weight '{' '}'

/-! ### parseSignature -/

/-- The parameter and return types of a signature. -/
structure ParsedSignature where
  params : List (List Char) := []
  returns : List (List Char) := []
deriving DecidableEq

/-- **extractBalancedParens**: the content of the first balanced parentheses, and the rest. -/
def extractBalancedParens (s : List Char) : List Char × List Char :=
  match s.dropWhile fun c => c ≠ '(' with
  | [] => ([], s)
  | _ :: inside => (closing parens 1 [] inside).getD (inside, [])

/-- **splitParams**: split at the commas outside of brackets. -/
def splitParams (s : List Char) : List (List Char) := split (parens + brackets + braces) ',' s

/-- **extractType**: the last field. -/
def extractType (param : List Char) : List Char := (fields (trimSpace param)).getLast?.getD []

/-- **parseParamList.** -/
def parseParamList (params : List Char) : List (List Char) :=
  let params := trimSpace params
  if params = [] then []
  else (((splitParams params).map trimSpace).filter fun part => part ≠ []).map extractType

/-- The keyword that a signature begins with. -/
def keyword : List Char := "func".toList

/-- **parseSignature.** -/
def parseSignature (sig : List Char) : ParsedSignature :=
  let sig := trimSpace sig
  if sig = [] then {}
  else
    let sig := if keyword.isPrefixOf sig = true then trimSpace (sig.drop keyword.length) else sig
    let params := (extractBalancedParens sig).1
    let rest := trimSpace (extractBalancedParens sig).2
    { params := if params = [] then [] else parseParamList params
      returns :=
        if rest = [] then []
        else if rest.head? = some '(' then
          let returns := (extractBalancedParens rest).1
          if returns = [] then [] else parseParamList returns
        else [trimSpace rest] }

/-! ### parseFirstNonErrorReturnType -/

/-- **findBalancedParenEnd**, as the texts before the closing parenthesis, without the opening
one, and after it. -/
def findBalancedParenEnd : List Char → Option (List Char × List Char)
  | '(' :: inside => closing parens 1 [] inside
  | _ => none

/-- The type of a field of the return clause, which may have a name. -/
def fieldType (field : List Char) : List Char :=
  if 1 < (fields field).length then (fields field).getLast?.getD [] else field

/-- The types that are passed over. -/
def isError (t : List Char) : Bool := t = "error".toList ∨ ".error".toList.isSuffixOf t

/-- **firstNonErrorReturnField.** Here braces are not brackets. -/
def firstNonErrorReturnField (inner : List Char) : List Char :=
  let pieces := split (parens + brackets) ',' inner
  let last := trimSpace (pieces.getLast?.getD [])
  let fields := pieces.dropLast.map trimSpace ++ if last = [] then [] else [last]
  ((fields.map fieldType).find? fun t => !isError t).getD []

/-- A letter or underscore of ASCII. -/
def isIdentStart (c : Char) : Bool := c.isAlpha || c = '_'

/-- What follows a first group of parentheses, if this is a receiver. -/
def skipReceiver (sig : List Char) : Option (List Char) :=
  if sig.head? = some '(' then
    (findBalancedParenEnd sig).map fun m =>
      let afterFirstGroup := trimSpace m.2
      if afterFirstGroup.head?.any isIdentStart = true then afterFirstGroup else sig
  else some sig

/-- The return clause, after the receiver. -/
def returnClause (sig : List Char) : List Char :=
  -- skip the function name and the parameters
  match findBalancedParenEnd (sig.dropWhile fun c => c ≠ '(') with
  | none => []
  | some m =>
    let sig := trimSpace m.2
    if sig = [] then []
    else if sig.head? = some '(' then
      (findBalancedParenEnd sig).elim [] fun m => firstNonErrorReturnField m.1
    else firstNonErrorReturnField sig

/-- **parseFirstNonErrorReturnType.** -/
def parseFirstNonErrorReturnType (sig : List Char) : List Char :=
  let sig := trimSpace sig
  if keyword.isPrefixOf sig = true then
    (skipReceiver (trimSpace (sig.drop keyword.length))).elim [] returnClause
  else []

end Analysis

end Gortex
