import Gortex.Contracts.Wrapper
import Gortex.Lib.Automaton

/-!
# The first argument of a call

Two scanners of `internal/contracts/wrapper_args.go` read the arguments of a call one after the
other. `balancedCloseParen` finds where they end, and skips strings and comments.
`splitFirstArg` then takes the first argument off, and skips strings only: the commas, brackets
and quotes of a comment count for it like those of the code. What it takes off is what stands
before the first comma outside of brackets, strings and comments, iff that text is read alike
with its comments taken for code (`Gortex.Contracts.splitsExactly_iff`).
-/

namespace Gortex

namespace Contracts

open GoText (trimSpace)

/-! ### The comma that ends the first argument -/

/-- The mode after a character, as `balancedCloseParen` reads. -/
def ScanMode.next (m : ScanMode) (c : Char) (ahead : Option Char) : ScanMode :=
  match m with
  | .code => .inCode c ahead
  | .quoted quote => .inString quote c
  | .escaped quote => .quoted quote
  | .lineComment => if c = '\n' then .code else .lineComment
  | .blockOpening => .blockComment
  | .blockComment => if c = '*' ∧ ahead = some '/' then .blockClosing else .blockComment
  | .blockClosing => .code

/-- How many brackets of a kind are open after a character. A bracket that closes nothing is
passed over. -/
def openAfter (opening closing : Char) (n : ℕ) (c : Char) : ℕ :=
  if c = opening then n + 1 else if c = closing then n - 1 else n

/-- Where a reader of the arguments is: the mode, and how many brackets of each kind are open. -/
structure ArgState where
  mode : ScanMode := .code
  parens : ℕ := 0
  braces : ℕ := 0
  brackets : ℕ := 0

/-- A character is read. Brackets count in the code only. -/
def ArgState.next (s : ArgState) (c : Char) (ahead : Option Char) : ArgState :=
  match s.mode with
  | .code =>
    { mode := .inCode c ahead
      parens := openAfter '(' ')' s.parens c
      braces := openAfter '{' '}' s.braces c
      brackets := openAfter '[' ']' s.brackets c }
  | m => { s with mode := m.next c ahead }

/-- Whether a place is outside of all brackets, strings and comments. -/
def ArgState.outside (s : ArgState) : Bool :=
  match s.mode with
  | .code => s.parens = 0 ∧ s.braces = 0 ∧ s.brackets = 0
  | _ => false

/-- The first argument and the others: what stands before and after the first comma that is
outside of all brackets, strings and comments. -/
def firstArg (args : List Char) : Option (List Char × List Char) :=
  Automaton.cut ArgState.next (fun s c => c = ',' ∧ s.outside = true) {} args

/-- **The first argument is taken off exactly**, from all arguments that `balancedCloseParen`
finds, and all of them are the first one where no comma ends it. -/
def SplitsExactly (src : List Char) : Prop :=
  ∀ args, balancedCloseParen .code 1 src = some args →
    splitFirstArg args =
      (firstArg args).elim (trimSpace args, []) (Prod.map trimSpace trimSpace)

/-! ### Comments taken for code -/

/-- Where `splitFirstArg` is: in the code or in a string, and its three counters. -/
structure PlainState where
  mode : ScanMode := .code
  paren : ℤ := 0
  brace : ℤ := 0
  bracket : ℤ := 0

/-- A character is read. -/
def PlainState.next (s : PlainState) (c : Char) : PlainState :=
  match s.mode with
  | .quoted quote => { s with mode := .inString quote c }
  | .escaped quote => { s with mode := .quoted quote }
  | _ =>
    { mode := if isQuote c = true then .quoted c else .code
      paren := s.paren + bracketWeight '(' ')' c
      brace := s.brace + bracketWeight '{' '}' c
      bracket := s.bracket + bracketWeight '[' ']' c }

/-- Whether a place is outside of strings, with as many brackets closed as opened. -/
def PlainState.level (s : PlainState) : Bool :=
  match s.mode with
  | .quoted _ | .escaped _ => false
  | _ => s.paren = 0 ∧ s.brace = 0 ∧ s.bracket = 0

/-- A text with its comments taken for code ends outside of strings, and has as many opening as
closing brackets of every kind. -/
def Level (text : List Char) : Prop := (text.foldl PlainState.next {}).level = true

instance (text : List Char) : Decidable (Level text) := inferInstanceAs (Decidable (_ = true))

/-- **A text that is one argument, with its comments taken for code**: every comma is in brackets
or in a string. -/
def OneArgument (text : List Char) : Prop := ∀ u v, text = u ++ ',' :: v → ¬Level u

/-- In the code, the scan ends at a comma outside of all brackets. -/
theorem splitAtComma_code {s : PlainState} (hmode : ∀ quote, s.mode ≠ .quoted quote)
    (hmode' : ∀ quote, s.mode ≠ .escaped quote) (c : Char) (args : List Char) :
    splitAtComma s.mode s.paren s.brace s.bracket (c :: args) =
      if c = ',' ∧ s.paren = 0 ∧ s.brace = 0 ∧ s.bracket = 0 then some ([], args)
      else
        (splitAtComma (s.next c).mode (s.next c).paren (s.next c).brace (s.next c).bracket
          args).map (Prod.map (c :: ·) id) := by
  obtain ⟨mode, paren, brace, bracket⟩ := s
  cases mode with
  | quoted quote => exact absurd rfl (hmode quote)
  | escaped quote => exact absurd rfl (hmode' quote)
  | code | lineComment | blockOpening | blockComment | blockClosing => rfl

/-- **`splitFirstArg` stops at the first comma that is level.** -/
theorem splitAtComma_eq_cut (s : PlainState) (args : List Char) :
    splitAtComma s.mode s.paren s.brace s.bracket args =
      Automaton.cut (fun s c _ => s.next c) (fun s c => c = ',' ∧ s.level = true) s args := by
  induction args generalizing s with
  | nil => rw [splitAtComma, Automaton.cut]
  | cons c args ih =>
    rw [Automaton.cut, ← ih (s.next c)]
    by_cases hquoted : ∃ quote, s.mode = .quoted quote ∨ s.mode = .escaped quote
    · -- no comma of a string ends the argument
      obtain ⟨mode, paren, brace, bracket⟩ := s
      obtain ⟨quote, rfl | rfl⟩ := hquoted
      all_goals
        rw [if_neg fun h => absurd (of_decide_eq_true h).2 Bool.false_ne_true]
        rfl
    · push Not at hquoted
      rw [splitAtComma_code (fun quote => (hquoted quote).1) fun quote => (hquoted quote).2]
      have hlevel : s.level = decide (s.paren = 0 ∧ s.brace = 0 ∧ s.bracket = 0) := by
        obtain ⟨mode, paren, brace, bracket⟩ := s
        cases mode with
        | quoted quote => exact absurd rfl (hquoted quote).1
        | escaped quote => exact absurd rfl (hquoted quote).2
        | code | lineComment | blockOpening | blockComment | blockClosing => rfl
      simp only [hlevel, decide_eq_true_eq]

theorem splitAtComma_eq_none_iff {args : List Char} :
    splitAtComma .code 0 0 0 args = none ↔ OneArgument args := by
  have hcut := splitAtComma_eq_cut {} args
  rw [show splitAtComma .code 0 0 0 args = _ from hcut, Automaton.cut_eq_none_iff]
  simp only [Automaton.run_eq_foldl, decide_eq_false_iff_not]
  constructor
  · intro h u v heq hlevel
    exact h u ',' v heq ⟨rfl, hlevel⟩
  · rintro h u c v rfl ⟨rfl, hlevel⟩
    exact h u v rfl hlevel

theorem splitAtComma_eq_some_iff {args first rest : List Char} :
    splitAtComma .code 0 0 0 args = some (first, rest) ↔
      args = first ++ ',' :: rest ∧ Level first ∧ OneArgument first := by
  have hcut := splitAtComma_eq_cut {} args
  rw [show splitAtComma .code 0 0 0 args = _ from hcut, Automaton.cut_eq_some_iff]
  simp only [Automaton.run_eq_foldl, decide_eq_false_iff_not, decide_eq_true_eq]
  constructor
  · rintro ⟨c, rfl, ⟨rfl, hlevel⟩, hbefore⟩
    exact ⟨rfl, hlevel, fun u v heq hu => hbefore u ',' v heq ⟨rfl, hu⟩⟩
  · rintro ⟨rfl, hlevel, hone⟩
    refine ⟨',', rfl, ⟨rfl, hlevel⟩, ?_⟩
    rintro u c v rfl ⟨rfl, hu⟩
    exact hone u v rfl hu

/-! ### When the first argument is taken off exactly -/

/-- **The first argument is read alike with its comments taken for code**: no comma of it ends it
earlier, and where a comma ends it, that one does. -/
def ReadsAlike (args : List Char) : Prop :=
  match firstArg args with
  | none => OneArgument args
  | some (first, _) => OneArgument first ∧ Level first

theorem firstArg_eq_append {args first rest : List Char} (h : firstArg args = some (first, rest)) :
    args = first ++ ',' :: rest := by
  obtain ⟨c, heq, hstop, -⟩ := Automaton.cut_eq_some_iff.mp h
  rw [heq, (of_decide_eq_true hstop).1]

/-- Two cuts at commas leave the same text after trimming only where they are one. -/
theorem length_eq_of_trimSpace_eq {u v u' v' : List Char} (heq : u ++ ',' :: v = u' ++ ',' :: v')
    (htrim : trimSpace u = trimSpace u') : u = u' := by
  have hcomma : GoString.isSpace ',' = false := by decide
  rcases List.append_eq_append_iff.mp heq with ⟨t, rfl, ht⟩ | ⟨t, rfl, ht⟩
  · rcases t with _ | ⟨c, t⟩
    · rw [List.append_nil]
    · obtain ⟨rfl, -⟩ := List.cons.inj ht
      exact absurd htrim (GoText.trimSpace_ne_append hcomma u t)
  · rcases t with _ | ⟨c, t⟩
    · rw [List.append_nil]
    · obtain ⟨rfl, -⟩ := List.cons.inj ht
      exact absurd htrim.symm (GoText.trimSpace_ne_append hcomma u' t)

/-- The first argument of one text. -/
theorem splitFirstArg_eq_iff (args : List Char) :
    splitFirstArg args =
        (firstArg args).elim (trimSpace args, []) (Prod.map trimSpace trimSpace) ↔
      ReadsAlike args := by
  have hcomma : GoString.isSpace ',' = false := by decide
  unfold ReadsAlike splitFirstArg
  rcases hfirst : firstArg args with _ | ⟨first, rest⟩
  · rcases hsplit : splitAtComma .code 0 0 0 args with _ | ⟨u, v⟩
    · exact iff_of_true rfl (splitAtComma_eq_none_iff.mp hsplit)
    · obtain ⟨rfl, hlevel, -⟩ := splitAtComma_eq_some_iff.mp hsplit
      refine iff_of_false (fun h => ?_) fun h => h u v rfl hlevel
      exact GoText.trimSpace_ne_append hcomma u v (congrArg Prod.fst h)
  · have hargs := firstArg_eq_append hfirst
    rcases hsplit : splitAtComma .code 0 0 0 args with _ | ⟨u, v⟩
    · refine iff_of_false (fun h => ?_) fun h => ?_
      · rw [hargs] at h
        exact GoText.trimSpace_ne_append hcomma first rest (congrArg Prod.fst h).symm
      · exact splitAtComma_eq_none_iff.mp hsplit first rest hargs h.2
    · obtain ⟨hu, hlevel, hone⟩ := splitAtComma_eq_some_iff.mp hsplit
      constructor
      · intro h
        obtain rfl := length_eq_of_trimSpace_eq (hu.symm.trans hargs) (congrArg Prod.fst h)
        exact ⟨hone, hlevel⟩
      · rintro ⟨hone', hlevel'⟩
        have hsame := splitAtComma_eq_some_iff.mpr ⟨hargs, hlevel', hone'⟩
        rw [hsplit] at hsame
        rw [Option.some_inj.mp hsame]

/-- **The first argument is taken off exactly iff it is read alike with its comments taken for
code**, whatever follows the opening bracket. -/
theorem splitsExactly_iff (src : List Char) :
    SplitsExactly src ↔
      ∀ args, balancedCloseParen .code 1 src = some args → ReadsAlike args :=
  forall_congr' fun args => imp_congr_right fun _ => splitFirstArg_eq_iff args

/-! ### A comment with a comma -/

namespace CommentedCall

/-- What follows the opening bracket of `request(/* url, token */ '/v1/users', token)`. -/
def src : List Char := "/* url, token */ '/v1/users', token)".toList

/-- The first argument is the beginning of the comment. -/
example : splitFirstArg "/* url, token */ '/v1/users', token".toList =
    ("/* url".toList, "token */ '/v1/users', token".toList) := by decide

/-- **The comma of a comment ends the first argument.** -/
theorem not_splitsExactly : ¬SplitsExactly src := by
  intro h
  have hargs := h "/* url, token */ '/v1/users', token".toList (by decide)
  revert hargs
  decide

end CommentedCall

end Contracts

end Gortex
