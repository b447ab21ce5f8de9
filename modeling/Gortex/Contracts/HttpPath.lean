import Mathlib.Data.Bool.AllAny
import Mathlib.Data.List.Induction
import Mathlib.Data.List.TakeWhile
import Gortex.Lib.Rewrite

/-!
# HTTP paths

`NormalizeHTTPPath` of `internal/contracts/contract.go`: the path of a route as the ID of its
contract has it, with the parameters numbered by position, so that the two sides of a call
meet. The regular expressions of the source are written out.

A route is a list of segments, the first one static, that is written after nothing, a scheme and
a host, or a placeholder for them (`Gortex.Contracts.Route`). All ways to write its parameters
lead to one path, except an expression that is more than a word: this one is not taken for a
parameter (`Gortex.Contracts.normalizeHTTPPath_iff`).
-/

namespace Gortex

namespace Contracts

open Rewrite

/-! ### The model -/

/-- The characters of a word: `\\w`. -/
def isWord (c : Char) : Bool := c.isAlphanum || c = '_'

/-- The characters that an identifier starts with. -/
def isIdentStart (c : Char) : Bool := c.isAlpha || c = '_'

/-- The characters that are stripped at both ends. -/
def quoting : List Char := " \t\"'`".toList

/-- `strings.Trim`. -/
def trim (cutset : List Char) (path : List Char) : List Char :=
  ((path.dropWhile fun c => c ∈ cutset).reverse.dropWhile fun c => c ∈ cutset).reverse

/-- What follows the first `://`. -/
def afterScheme : List Char → Option (List Char)
  | ':' :: '/' :: '/' :: rest => some rest
  | _ :: path => afterScheme path
  | [] => none

/-- Strip the scheme and the authority. -/
def stripAuthority (path : List Char) : List Char :=
  (afterScheme path).elim path fun rest =>
    if '/' ∈ rest then rest.dropWhile (fun c => c ≠ '/') else ['/']

/-- An expression up to its brace, and what follows: `[^}]+` and a brace. -/
def exprPrefix (path : List Char) : Option (List Char × List Char) :=
  let expr := path.takeWhile fun c => c ≠ '}'
  if expr ≠ [] ∧ expr.length < path.length then some (expr, path.drop (expr.length + 1)) else none

/-- What follows a template placeholder at the start. -/
def afterTemplate : List Char → Option (List Char)
  | '$' :: '{' :: path => (exprPrefix path).map Prod.snd
  | _ => none

/-- `tplBasePrefix`, replaced by nothing. -/
def stripBase (path : List Char) : List Char :=
  (afterTemplate (if path.head? = some '/' then path.tail else path)).getD path

/-- `tplInlineParam`, at the start of a text. -/
def tplInlineParam : List Char → Option ℕ
  | '$' :: '{' :: path => (exprPrefix path).map fun m => m.1.length + 3
  | '$' :: c :: path =>
    if isIdentStart c = true then some ((path.takeWhile isWord).length + 2) else none
  | _ => none

/-- A template placeholder in braces. -/
def bracedParam (m : List Char) : List Char :=
  if m.head? = some '$' ∧ m.tail.head? = some '{' then '{' :: (m.drop 2).dropLast ++ ['}']
  else '{' :: m.drop 1 ++ ['}']

/-- A word at the start of a text, and what follows. -/
def wordPrefix (path : List Char) : Option (List Char × List Char) :=
  if path.takeWhile isWord = [] then none
  else some (path.takeWhile isWord, path.dropWhile isWord)

/-- The placeholder in angle brackets, after the first bracket: its length. -/
def angleParam (path : List Char) : Option ℕ :=
  (wordPrefix path).bind fun m =>
    if m.2.head? = some '>' then some (m.1.length + 1)
    else if m.2.head? = some ':' then
      (wordPrefix m.2.tail).bind fun m' =>
        if m'.2.head? = some '>' then some (m.1.length + m'.1.length + 2) else none
    else none

/-- `paramPatterns`, at the start of a text. -/
def paramPatterns : List Char → Option ℕ
  | ':' :: path => (wordPrefix path).map fun m => m.1.length + 1
  | '<' :: path => (angleParam path).map fun n => n + 1
  | '{' :: path => (wordPrefix path).bind fun m =>
    if m.2.head? = some '}' then some (m.1.length + 2) else none
  | _ => none

/-- The placeholder of a position. -/
def positional (n : ℕ) : List Char := '{' :: 'p' :: (Nat.toDigits 10 n ++ ['}'])

/-- Template placeholders in braces. -/
def inlineParams (path : List Char) : List Char :=
  replaceAll tplInlineParam (fun _ m => (bracedParam m, ())) () path

/-- Placeholders by their positions, after those so far. -/
def numberParams (paramCounter : ℕ) (path : List Char) : List Char :=
  replaceAll paramPatterns (fun n _ => (positional (n + 1), n + 1)) paramCounter path

/-- Ensure a leading slash. -/
def leadingSlash (path : List Char) : List Char :=
  if path.head? = some '/' then path else '/' :: path

/-- Remove trailing slashes. -/
def trimTrailing (path : List Char) : List Char :=
  if 1 < path.length then (path.reverse.dropWhile fun c => c = '/').reverse else path

/-- **NormalizeHTTPPath.** -/
def normalizeHTTPPath (path : List Char) : List Char :=
  trimTrailing (leadingSlash (numberParams 0 (inlineParams
    (stripBase (stripAuthority (trim quoting path))))))

/-! ### Routes -/

/-- A static text: without slashes, quotes and blanks, and without the characters that
placeholders start with. -/
structure StaticText where
  chars : List Char
  ne_nil : chars ≠ []
  plain : ∀ c ∈ chars, c ∉ '/' :: '$' :: ':' :: '<' :: '{' :: quoting

/-- A word. -/
structure Word where
  chars : List Char
  ne_nil : chars ≠ []
  word : ∀ c ∈ chars, isWord c = true

/-- An identifier. -/
structure Ident where
  first : Char
  rest : List Char
  start : isIdentStart first = true
  word : ∀ c ∈ rest, isWord c = true

/-- An expression of a segment. -/
structure Expr where
  chars : List Char
  ne_nil : chars ≠ []
  inSegment : '/' ∉ chars

/-- **The placeholder styles**: `:x`, `<x>`, `<T:x>`, `{x}`, `${expr}` and `$x`. -/
inductive Placeholder
  | colon (x : Word)
  | angle (x : Word)
  | typed (T x : Word)
  | braces (x : Word)
  | template (expr : Expr)
  | dollar (x : Ident)

/-- A segment of a route. -/
inductive Segment
  | static (text : StaticText)
  | placeholder (p : Placeholder)

/-- What a route is written after. -/
inductive Base
  | none (slash : Bool)
  | host (scheme authority : List Char)
  | template (slash : Bool) (expr : List Char)

/-- A scheme and an authority, or an expression, as they can stand before a path. -/
def Base.WellFormed : Base → Prop
  | none _ => True
  | host scheme authority => (∀ c ∈ scheme, c.isAlphanum = true ∨ c ∈ ['+', '-', '.']) ∧
    '/' ∉ authority
  | template _ expr => expr ≠ [] ∧ '}' ∉ expr ∧ '/' ∉ expr

/-- **A route** with a static first segment, as it is written. -/
structure Route where
  base : Base
  base_wf : base.WellFormed
  first : StaticText
  rest : List Segment

/-- How a placeholder is written. -/
def Placeholder.render : Placeholder → List Char
  | colon x => ':' :: x.chars
  | angle x => '<' :: (x.chars ++ ['>'])
  | typed T x => '<' :: (T.chars ++ ':' :: (x.chars ++ ['>']))
  | braces x => '{' :: (x.chars ++ ['}'])
  | template expr => '$' :: '{' :: (expr.chars ++ ['}'])
  | dollar x => '$' :: x.first :: x.rest

/-- How a segment is written. -/
def Segment.render : Segment → List Char
  | static text => text.chars
  | placeholder p => p.render

/-- Segments, each after a slash. -/
def renderRest (segments : List Segment) : List Char := segments.flatMap fun s => '/' :: s.render

/-- What is written before the first segment. -/
def Base.render : Base → List Char
  | none slash => if slash = true then ['/'] else []
  | host scheme authority => scheme ++ ':' :: '/' :: '/' :: (authority ++ ['/'])
  | template slash expr => (if slash = true then ['/'] else []) ++
    '$' :: '{' :: (expr ++ ['}', '/'])

/-- **How a route is written.** -/
def Route.render (r : Route) : List Char := r.base.render ++ r.first.chars ++ renderRest r.rest

/-- The segments of the path that a route stands for, with the placeholders numbered. -/
def canonicalRest : ℕ → List Segment → List Char
  | _, [] => []
  | n, .static text :: segments => '/' :: (text.chars ++ canonicalRest n segments)
  | n, .placeholder _ :: segments => '/' :: (positional (n + 1) ++ canonicalRest (n + 1) segments)

/-- **The path that a route stands for.** It has the static segments and the positions of the
placeholders, and nothing else. -/
def Route.canonical (r : Route) : List Char := '/' :: (r.first.chars ++ canonicalRest 0 r.rest)

/-- A placeholder that is no expression, or one that is a word. -/
def Placeholder.Simple : Placeholder → Prop
  | template expr => ∀ c ∈ expr.chars, isWord c = true
  | _ => True

/-- **Every expression is a word.** -/
def Route.Simple (r : Route) : Prop := ∀ p, Segment.placeholder p ∈ r.rest → p.Simple

/-! ### Words -/

theorem takeWhile_append {p : Char → Bool} {w t : List Char} (hw : ∀ c ∈ w, p c = true)
    (ht : ∀ c ∈ t.head?, p c = false) : (w ++ t).takeWhile p = w := by
  rw [List.takeWhile_append_of_pos hw]
  cases t with
  | nil => simp
  | cons c t => rw [List.takeWhile_cons_of_neg (by simp [ht c rfl]), List.append_nil]

theorem dropWhile_append {p : Char → Bool} {w t : List Char} (hw : ∀ c ∈ w, p c = true)
    (ht : ∀ c ∈ t.head?, p c = false) : (w ++ t).dropWhile p = t := by
  rw [List.dropWhile_append_of_pos hw]
  cases t with
  | nil => rfl
  | cons c t => rw [List.dropWhile_cons_of_neg (by simp [ht c rfl])]

theorem wordPrefix_append {w t : List Char} (hne : w ≠ []) (hw : ∀ c ∈ w, isWord c = true)
    (ht : ∀ c ∈ t.head?, isWord c = false) : wordPrefix (w ++ t) = some (w, t) := by
  rw [wordPrefix, takeWhile_append hw ht, dropWhile_append hw ht, if_neg hne]

/-- A character that is no word character is none of a word. -/
theorem Word.ne (x : Word) {c d : Char} (hc : c ∈ x.chars) (hd : isWord d = false) : c ≠ d := by
  rintro rfl
  exact absurd ((x.word c hc).symm.trans hd) (by simp)

theorem isWord_of_start {c : Char} (h : isIdentStart c = true) : isWord c = true := by
  unfold isIdentStart at h
  unfold isWord
  rw [Bool.or_eq_true] at h ⊢
  exact h.imp_left fun h => by rw [Char.isAlphanum, h, Bool.true_or]

theorem isWord_digit {n : ℕ} {c : Char} (h : c ∈ Nat.toDigits 10 n) : isWord c = true := by
  have hdigit := Nat.isDigit_of_mem_toDigits (by decide) (by decide) h
  rw [isWord, Char.isAlphanum, hdigit, Bool.or_true, Bool.true_or]

/-! ### Where no placeholder starts -/

theorem tplInlineParam_of_ne {c : Char} (h : c ≠ '$') (t : List Char) :
    tplInlineParam (c :: t) = none := by
  unfold tplInlineParam
  split
  · rename_i heq
    exact absurd (List.cons.inj heq).1 h
  · rename_i heq
    exact absurd (List.cons.inj heq).1 h
  · rfl

theorem paramPatterns_of_ne {c : Char} (hcolon : c ≠ ':') (hangle : c ≠ '<') (hbrace : c ≠ '{')
    (t : List Char) : paramPatterns (c :: t) = none := by
  unfold paramPatterns
  split
  · rename_i heq
    exact absurd (List.cons.inj heq).1 hcolon
  · rename_i heq
    exact absurd (List.cons.inj heq).1 hangle
  · rename_i heq
    exact absurd (List.cons.inj heq).1 hbrace
  · rfl

/-- Text without a dollar is kept by the first replacement. -/
theorem inlineParams_append {l : List Char} (h : '$' ∉ l) (t : List Char) :
    inlineParams (l ++ t) = l ++ inlineParams t :=
  replaceAll_append (fun _ hc t => tplInlineParam_of_ne (fun heq => h (heq ▸ hc)) t) () t

/-- Text without the first characters of placeholders is kept by the second one. -/
theorem numberParams_append {l : List Char} (h : ∀ c ∈ l, c ≠ ':' ∧ c ≠ '<' ∧ c ≠ '{') (n : ℕ)
    (t : List Char) : numberParams n (l ++ t) = l ++ numberParams n t :=
  replaceAll_append (fun c hc t => paramPatterns_of_ne (h c hc).1 (h c hc).2.1 (h c hc).2.2 t) n t

theorem StaticText.dollar_notMem (s : StaticText) : '$' ∉ s.chars := fun h =>
  s.plain _ h (by simp)

theorem StaticText.kept (s : StaticText) : ∀ c ∈ s.chars, c ≠ ':' ∧ c ≠ '<' ∧ c ≠ '{' := by
  intro c hc
  have hplain := s.plain c hc
  refine ⟨?_, ?_, ?_⟩ <;> rintro rfl <;> exact hplain (by simp)

/-! ### Placeholders -/

/-- A placeholder that is simple, after the first replacement. -/
def Placeholder.inlined : Placeholder → List Char
  | template expr => '{' :: (expr.chars ++ ['}'])
  | dollar x => '{' :: (x.first :: x.rest ++ ['}'])
  | p => p.render

/-- What follows a segment: nothing, or a slash. -/
def Boundary (t : List Char) : Prop := ∀ c ∈ t.head?, c = '/'

theorem Boundary.not_word {t : List Char} (h : Boundary t) : ∀ c ∈ t.head?, isWord c = false := by
  intro c hc
  obtain rfl := h c hc
  decide

theorem Boundary.inlineParams {t : List Char} (h : Boundary t) : Boundary (inlineParams t) := by
  cases t with
  | nil => exact h
  | cons c t =>
    obtain rfl := h c rfl
    rw [← List.singleton_append, inlineParams_append (by decide)]
    exact h

theorem boundary_renderRest (segments : List Segment) : Boundary (renderRest segments) := by
  cases segments with
  | nil => exact fun c hc => absurd hc (by simp [renderRest])
  | cons s segments => exact fun c hc => (Option.some.inj hc).symm

/-- An expression up to the first brace. -/
theorem exprPrefix_append {e t : List Char} (hne : e ≠ []) (he : '}' ∉ e) :
    exprPrefix (e ++ '}' :: t) = some (e, t) := by
  have htake : (e ++ '}' :: t).takeWhile (fun c => c ≠ '}') = e :=
    takeWhile_append (fun c hc => decide_eq_true fun heq => he (heq ▸ hc))
      fun c hc => by simpa using (Option.some.inj hc).symm
  unfold exprPrefix
  simp only [htake]
  rw [if_pos ⟨hne, by rw [List.length_append, List.length_cons]; omega⟩]
  congr 2
  rw [List.drop_append, List.drop_of_length_le (by omega), List.nil_append]
  simp

/-- A template placeholder is put into braces. -/
theorem inlineParams_template {e : List Char} (hne : e ≠ []) (he : '}' ∉ e) (t : List Char) :
    inlineParams ('$' :: '{' :: (e ++ '}' :: t)) = '{' :: (e ++ '}' :: inlineParams t) := by
  have hmatch : tplInlineParam (('$' :: '{' :: (e ++ ['}'])) ++ t) =
      some ('$' :: '{' :: (e ++ ['}'])).length := by
    rw [List.cons_append, List.cons_append, List.append_assoc, List.singleton_append]
    change (exprPrefix (e ++ '}' :: t)).map _ = _
    rw [exprPrefix_append hne he]
    simp
  have heq := replaceAll_of_match (fun _ m => (bracedParam m, ())) (by simp) hmatch ()
  have hrepl : bracedParam ('$' :: '{' :: (e ++ ['}'])) = '{' :: (e ++ ['}']) := by
    simp [bracedParam]
  rw [hrepl] at heq
  simpa [inlineParams] using heq

/-- **The first replacement**, at a simple placeholder. -/
theorem inlineParams_placeholder {p : Placeholder} (hp : p.Simple) {t : List Char}
    (ht : Boundary t) : inlineParams (p.render ++ t) = p.inlined ++ inlineParams t := by
  have hdollar : ∀ x : Word, '$' ∉ x.chars := fun x hx => x.ne hx (by decide) rfl
  cases p with
  | colon x => exact inlineParams_append (by simp [Placeholder.render, hdollar x]) t
  | angle x => exact inlineParams_append (by simp [Placeholder.render, hdollar x]) t
  | typed T x => exact inlineParams_append (by simp [Placeholder.render, hdollar x, hdollar T]) t
  | braces x => exact inlineParams_append (by simp [Placeholder.render, hdollar x]) t
  | template e =>
    have hbrace : '}' ∉ e.chars := fun h => absurd (hp _ h) (by decide)
    have heq := inlineParams_template e.ne_nil hbrace t
    simpa [Placeholder.render, Placeholder.inlined] using heq
  | dollar x =>
    have hfirst : x.first ≠ '{' := by
      intro h
      have := x.start
      rw [h] at this
      exact absurd this (by decide)
    have hmatch : tplInlineParam (('$' :: x.first :: x.rest) ++ t) =
        some ('$' :: x.first :: x.rest).length := by
      rw [List.cons_append, List.cons_append]
      unfold tplInlineParam
      split
      · rename_i heq
        exact absurd (List.cons.inj (List.cons.inj heq).2).1 hfirst
      · rename_i heq
        obtain ⟨rfl, rfl⟩ := List.cons.inj (List.cons.inj heq).2
        rw [if_pos x.start, takeWhile_append x.word ht.not_word]
        rfl
      · rename_i hnot
        exact (hnot _ _ rfl).elim
    have heq := replaceAll_of_match (fun _ m => (bracedParam m, ())) (by simp) hmatch ()
    have hrepl : bracedParam ('$' :: x.first :: x.rest) = '{' :: (x.first :: x.rest ++ ['}']) := by
      simp [bracedParam, hfirst]
    rw [hrepl] at heq
    exact heq

/-- A word in braces is a parameter, whatever follows. -/
theorem paramPatterns_braces {w : List Char} (hne : w ≠ []) (hw : ∀ c ∈ w, isWord c = true)
    (t : List Char) :
    paramPatterns (('{' :: (w ++ ['}'])) ++ t) = some ('{' :: (w ++ ['}'])).length := by
  rw [List.cons_append, List.append_assoc, List.singleton_append]
  change (wordPrefix (w ++ '}' :: t)).bind _ = _
  rw [wordPrefix_append hne hw fun c hc => by obtain rfl := Option.some.inj hc; decide]
  simp

/-- **The second replacement**, at a simple placeholder. -/
theorem numberParams_placeholder {p : Placeholder} (hp : p.Simple) {t : List Char}
    (ht : Boundary t) (n : ℕ) :
    numberParams n (p.inlined ++ t) = positional (n + 1) ++ numberParams (n + 1) t := by
  have hmatch : p.inlined ≠ [] ∧ paramPatterns (p.inlined ++ t) = some p.inlined.length := by
    cases p with
    | colon x =>
      refine ⟨List.cons_ne_nil _ _, ?_⟩
      change (wordPrefix (x.chars ++ t)).map _ = _
      rw [wordPrefix_append x.ne_nil x.word ht.not_word]
      rfl
    | angle x =>
      refine ⟨List.cons_ne_nil _ _, ?_⟩
      change (angleParam ((x.chars ++ ['>']) ++ t)).map _ = _
      rw [List.append_assoc, angleParam, wordPrefix_append x.ne_nil x.word fun c hc => by
        obtain rfl := Option.some.inj hc
        decide]
      simp [Placeholder.inlined, Placeholder.render]
    | typed T x =>
      refine ⟨List.cons_ne_nil _ _, ?_⟩
      change (angleParam ((T.chars ++ ':' :: (x.chars ++ ['>'])) ++ t)).map _ = _
      rw [List.append_assoc, angleParam, wordPrefix_append T.ne_nil T.word fun c hc => by
        obtain rfl := Option.some.inj hc
        decide]
      have hx : wordPrefix ((x.chars ++ ['>']) ++ t) = some (x.chars, '>' :: t) := by
        rw [List.append_assoc]
        exact wordPrefix_append x.ne_nil x.word fun c hc => by
          obtain rfl := Option.some.inj hc
          decide
      simp only [List.append_assoc, List.singleton_append] at hx
      simp [Placeholder.inlined, Placeholder.render]
      rw [hx]
      simp
      omega
    | braces x => exact ⟨List.cons_ne_nil _ _, paramPatterns_braces x.ne_nil x.word t⟩
    | template e => exact ⟨List.cons_ne_nil _ _, paramPatterns_braces e.ne_nil hp t⟩
    | dollar x =>
      refine ⟨List.cons_ne_nil _ _, paramPatterns_braces (List.cons_ne_nil x.first x.rest) ?_ t⟩
      intro c hc
      rcases List.mem_cons.mp hc with rfl | hc
      · exact isWord_of_start x.start
      · exact x.word c hc
  exact replaceAll_of_match _ hmatch.1 hmatch.2 n

/-! ### Segments -/

/-- **Segments with simple placeholders only** end as they should. -/
theorem numberParams_renderRest {segments : List Segment}
    (h : ∀ p, Segment.placeholder p ∈ segments → p.Simple) (n : ℕ) :
    numberParams n (inlineParams (renderRest segments)) = canonicalRest n segments := by
  induction segments generalizing n with
  | nil => rfl
  | cons s segments ih =>
    have hrest := ih fun p hp => h p (List.mem_cons_of_mem s hp)
    have hsplit : renderRest (s :: segments) = ['/'] ++ (s.render ++ renderRest segments) := rfl
    rw [hsplit, inlineParams_append (by decide),
      numberParams_append (List.all_iff_forall_prop.mp (by decide))]
    cases s with
    | static text =>
      rw [Segment.render, inlineParams_append text.dollar_notMem, numberParams_append text.kept,
        hrest]
      rfl
    | placeholder p =>
      have hp := h p List.mem_cons_self
      rw [Segment.render, inlineParams_placeholder hp (boundary_renderRest segments),
        numberParams_placeholder hp (boundary_renderRest segments).inlineParams, hrest]
      rfl

/-- How the output of the second replacement begins. -/
theorem head_numberParams (n : ℕ) (b : Char) (l : List Char) :
    ∃ c rest, numberParams n (b :: l) = c :: rest ∧
      (c = b ∨ (paramPatterns (b :: l)).isSome = true ∧ c = '{') :=
  head_replaceAll (fun _ _ => ⟨_, rfl⟩) n b l

/-- How the output of the first replacement begins. -/
theorem head_inlineParams (b : Char) (l : List Char) :
    ∃ c rest, inlineParams (b :: l) = c :: rest ∧
      (c = b ∨ (tplInlineParam (b :: l)).isSome = true ∧ c = '{') := by
  refine head_replaceAll (fun _ m => ?_) () b l
  unfold bracedParam
  split
  · exact ⟨_, rfl⟩
  · exact ⟨_, rfl⟩

/-- **An expression that is no word** is not taken for a parameter. -/
theorem numberParams_template_ne {e : Expr} (hbad : ¬∀ c ∈ e.chars, isWord c = true)
    (n : ℕ) (t r : List Char) (hr : Boundary r) :
    numberParams n (inlineParams ((Placeholder.template e).render ++ t)) ≠
      positional (n + 1) ++ r := by
  have hrender : (Placeholder.template e).render ++ t = '$' :: '{' :: (e.chars ++ '}' :: t) := by
    simp [Placeholder.render]
  rw [hrender]
  -- the expression ends for the program at its first brace
  obtain ⟨e₁, e₂, heq, hbrace⟩ : ∃ e₁ e₂, e.chars ++ '}' :: t = e₁ ++ '}' :: e₂ ∧ '}' ∉ e₁ ∧
      (e₁ = e.chars ∨ ∃ r', e.chars = e₁ ++ '}' :: r' ∧ e₂ = r' ++ '}' :: t) := by
    by_cases hin : '}' ∈ e.chars
    · obtain ⟨e₁, r', hsplit, hnot⟩ := List.eq_append_cons_of_mem hin
      exact ⟨e₁, r' ++ '}' :: t, by rw [hsplit, List.append_assoc, List.cons_append], hnot,
        Or.inr ⟨r', hsplit, rfl⟩⟩
    · exact ⟨e.chars, t, rfl, hin, Or.inl rfl⟩
  obtain ⟨hbrace, hcase⟩ := hbrace
  rw [heq]
  by_cases hnil : e₁ = []
  · -- the dollar stays
    subst hnil
    have hnone : tplInlineParam ('$' :: '{' :: '}' :: e₂) = none := rfl
    rw [List.nil_append, inlineParams, replaceAll_of_none hnone, ← List.singleton_append,
      numberParams_append (List.all_iff_forall_prop.mp (by decide))]
    intro h
    exact absurd (List.cons.inj h).1 (by decide)
  rw [inlineParams_template hnil hbrace]
  by_cases hword : ∀ c ∈ e₁, isWord c = true
  · -- a word is a parameter, but something is left after it
    rcases hcase with rfl | ⟨r', hsplit, rfl⟩
    · exact absurd hword hbad
    have hparam : numberParams n ('{' :: (e₁ ++ '}' :: inlineParams (r' ++ '}' :: t))) =
        positional (n + 1) ++ numberParams (n + 1) (inlineParams (r' ++ '}' :: t)) := by
      have := replaceAll_of_match (fun n _ => (positional (n + 1), n + 1)) (by simp)
        (paramPatterns_braces hnil hword (inlineParams (r' ++ '}' :: t))) n
      simpa [numberParams] using this
    rw [hparam]
    intro h
    have hrest := List.append_cancel_left h
    obtain ⟨b, l, hb, hslash⟩ : ∃ b l, r' ++ '}' :: t = b :: l ∧ b ≠ '/' := by
      cases r' with
      | nil => exact ⟨'}', t, rfl, by decide⟩
      | cons b l =>
        refine ⟨b, l ++ '}' :: t, rfl, fun hc => e.inSegment ?_⟩
        rw [hsplit, hc]
        exact List.mem_append_right _ (List.mem_cons_of_mem _ List.mem_cons_self)
    obtain ⟨c, l', hc, hcb⟩ := head_inlineParams b l
    obtain ⟨d, l'', hd, hdc⟩ := head_numberParams (n + 1) c l'
    rw [hb, hc, hd] at hrest
    have hdslash : d = '/' := hr d (by rw [← hrest]; rfl)
    rcases hdc with rfl | ⟨-, rfl⟩
    · rcases hcb with rfl | ⟨-, rfl⟩
      · exact hslash hdslash
      · exact absurd hdslash (by decide)
    · exact absurd hdslash (by decide)
  · -- the first character that is in no word shows
    obtain ⟨w, x, y, rfl, hw, hx⟩ : ∃ w x y, e₁ = w ++ x :: y ∧ (∀ c ∈ w, isWord c = true) ∧
        isWord x = false := by
      have hsplit := List.takeWhile_append_dropWhile (p := isWord) (l := e₁)
      cases hdrop : e₁.dropWhile isWord with
      | nil =>
        rw [hdrop, List.append_nil] at hsplit
        exact absurd (fun c hc => List.mem_takeWhile_imp (hsplit ▸ hc)) hword
      | cons x y =>
        refine ⟨e₁.takeWhile isWord, x, y, by rw [← hdrop, hsplit],
          fun c hc => List.mem_takeWhile_imp hc, ?_⟩
        have := List.head?_dropWhile_not isWord e₁
        rw [hdrop] at this
        simpa using this
    have hxbrace : x ≠ '}' := fun h => hbrace (h ▸ List.mem_append_right _ List.mem_cons_self)
    rw [List.append_assoc, List.cons_append]
    generalize y ++ '}' :: inlineParams e₂ = l
    have hopen : paramPatterns ('{' :: (w ++ x :: l)) = none := by
      change (wordPrefix (w ++ x :: l)).bind _ = _
      by_cases hwnil : w = []
      · rw [hwnil, List.nil_append, wordPrefix, List.takeWhile_cons_of_neg (by simp [hx])]
        rfl
      · rw [wordPrefix_append hwnil hw fun c hc => by obtain rfl := Option.some.inj hc; exact hx]
        simp [hxbrace]
    have hkept : ∀ c ∈ w, c ≠ ':' ∧ c ≠ '<' ∧ c ≠ '{' := by
      intro c hc
      refine ⟨?_, ?_, ?_⟩ <;> rintro rfl <;> exact absurd (hw _ hc) (by decide)
    obtain ⟨d, l', hd, hdx⟩ := head_numberParams n x l
    have hout : numberParams n ('{' :: (w ++ x :: l)) = '{' :: (w ++ d :: l') := by
      have hone : numberParams n ('{' :: (w ++ x :: l)) = '{' :: numberParams n (w ++ x :: l) :=
        replaceAll_of_none hopen n
      rw [hone, numberParams_append hkept, hd]
    have hdword : isWord d = false := by
      rcases hdx with rfl | ⟨-, rfl⟩
      · exact hx
      · decide
    have hdbrace : d ≠ '}' := by
      rcases hdx with rfl | ⟨-, rfl⟩
      · exact hxbrace
      · decide
    rw [hout]
    intro h
    have htail : w ++ d :: l' = 'p' :: Nat.toDigits 10 (n + 1) ++ '}' :: r := by
      simpa [positional] using h
    have hdigits : ∀ c ∈ 'p' :: Nat.toDigits 10 (n + 1), isWord c = true := by
      intro c hc
      rcases List.mem_cons.mp hc with rfl | hc
      · decide
      · exact isWord_digit hc
    -- both sides split at the first character that is in no word
    have hleft := dropWhile_append (t := d :: l') hw fun c hc => by
      obtain rfl := Option.some.inj hc
      exact hdword
    have hright := dropWhile_append (t := '}' :: r) hdigits fun c hc => by
      obtain rfl := Option.some.inj hc
      decide
    rw [htail, hright] at hleft
    exact hdbrace (List.cons.inj hleft).1.symm

/-- Segments with a placeholder that is not simple do not come out as they should, whatever
slashes there are at the end. -/
theorem numberParams_renderRest_ne {segments : List Segment} {p : Placeholder}
    (hp : Segment.placeholder p ∈ segments) (hbad : ¬p.Simple) (n m : ℕ) :
    numberParams n (inlineParams (renderRest segments)) ≠
      canonicalRest n segments ++ List.replicate m '/' := by
  induction segments generalizing n with
  | nil => exact absurd hp List.not_mem_nil
  | cons s segments ih =>
    have hsplit : renderRest (s :: segments) = ['/'] ++ (s.render ++ renderRest segments) := rfl
    rw [hsplit, inlineParams_append (by decide),
      numberParams_append (List.all_iff_forall_prop.mp (by decide))]
    have hboundary : ∀ k, Boundary (canonicalRest k segments ++ List.replicate m '/') := by
      intro k c hc
      cases segments with
      | nil =>
        have hc : c ∈ (List.replicate m '/').head? := hc
        exact List.eq_of_mem_replicate (List.mem_of_mem_head? hc)
      | cons s' segments =>
        cases s' <;> exact (Option.some.inj hc).symm
    cases s with
    | static text =>
      rw [Segment.render, inlineParams_append text.dollar_notMem, numberParams_append text.kept]
      intro h
      refine ih ((List.mem_cons.mp hp).resolve_left (by simp)) n ?_
      refine (List.append_right_inj text.chars).mp ?_
      simpa [canonicalRest] using h
    | placeholder q =>
      by_cases hq : q.Simple
      · rw [Segment.render, inlineParams_placeholder hq (boundary_renderRest segments),
          numberParams_placeholder hq (boundary_renderRest segments).inlineParams]
        intro h
        refine ih ((List.mem_cons.mp hp).resolve_left ?_) (n + 1) ?_
        · intro heq
          obtain rfl := Segment.placeholder.inj heq
          exact hbad hq
        · refine (List.append_right_inj (positional (n + 1))).mp ?_
          simpa [canonicalRest] using h
      · cases q with
        | template e =>
          intro h
          refine numberParams_template_ne hq n (renderRest segments) _ (hboundary (n + 1)) ?_
          rw [Segment.render] at h
          simpa [canonicalRest] using h
        | _ => exact absurd trivial hq

/-! ### Both ends of a path -/

/-- A text that ends in a character that is neither stripped nor a slash. -/
def EndsWell (l : List Char) : Prop := ∃ a c, l = a ++ [c] ∧ c ∉ '/' :: quoting

theorem EndsWell.append {l : List Char} (h : EndsWell l) (a : List Char) : EndsWell (a ++ l) := by
  obtain ⟨b, c, rfl, hc⟩ := h
  exact ⟨a ++ b, c, by rw [List.append_assoc], hc⟩

theorem endsWell_of_forall {l : List Char} (hne : l ≠ []) (h : ∀ c ∈ l, c ∉ '/' :: quoting) :
    EndsWell l := by
  refine ⟨l.dropLast, l.getLast hne, (List.dropLast_concat_getLast hne).symm, h _ ?_⟩
  exact List.getLast_mem hne

theorem not_quoting_of_word {c : Char} (h : isWord c = true) : c ∉ '/' :: quoting := by
  intro hc
  have hall : ∀ d ∈ '/' :: quoting, isWord d = false :=
    List.all_iff_forall_prop.mp (by decide)
  exact absurd (h.symm.trans (hall c hc)) (by simp)

theorem StaticText.endsWell (s : StaticText) : EndsWell s.chars := by
  refine endsWell_of_forall s.ne_nil fun c hc h => s.plain c hc ?_
  rcases List.mem_cons.mp h with rfl | h
  · exact List.mem_cons_self
  · simp [h]

theorem Word.endsWell (x : Word) : EndsWell x.chars :=
  endsWell_of_forall x.ne_nil fun c hc => not_quoting_of_word (x.word c hc)

theorem Segment.endsWell (s : Segment) : EndsWell s.render := by
  have hbrace : ∀ l : List Char, ∀ c ∈ ['>', '}'], EndsWell (l ++ [c]) := by
    intro l c hc
    have hall : ∀ c ∈ ['>', '}'], c ∉ '/' :: quoting := List.all_iff_forall_prop.mp (by decide)
    exact ⟨l, c, rfl, hall c hc⟩
  cases s with
  | static text => exact text.endsWell
  | placeholder p =>
    cases p with
    | colon x => exact x.endsWell.append [':']
    | angle x => exact hbrace ('<' :: x.chars) '>' (by simp)
    | typed T x =>
      have := hbrace ('<' :: (T.chars ++ ':' :: x.chars)) '>' (by simp)
      simpa [Segment.render, Placeholder.render] using this
    | braces x => exact hbrace ('{' :: x.chars) '}' (by simp)
    | template e => exact hbrace ('$' :: '{' :: e.chars) '}' (by simp)
    | dollar x =>
      have hword : ∀ c ∈ x.first :: x.rest, c ∉ '/' :: quoting := by
        intro c hc
        rcases List.mem_cons.mp hc with rfl | hc
        · exact not_quoting_of_word (isWord_of_start x.start)
        · exact not_quoting_of_word (x.word c hc)
      exact (endsWell_of_forall (List.cons_ne_nil _ _) hword).append ['$']

theorem endsWell_renderRest {l : List Char} (hl : EndsWell l) (segments : List Segment) :
    EndsWell (l ++ renderRest segments) := by
  induction segments using List.reverseRecOn with
  | nil => rwa [renderRest, List.flatMap_nil, List.append_nil]
  | append_singleton segments s _ =>
    have hsplit : l ++ renderRest (segments ++ [s]) = (l ++ renderRest segments ++ ['/']) ++ s.render := by
      simp [renderRest]
    rw [hsplit]
    exact s.endsWell.append _

theorem EndsWell.trim {l : List Char} (h : EndsWell l) (hfirst : ∀ c ∈ l.head?, c ∉ quoting) :
    trim quoting l = l := by
  have hleft : l.dropWhile (fun c => c ∈ quoting) = l := by
    cases l with
    | nil => rfl
    | cons c l => exact List.dropWhile_cons_of_neg (by simpa using hfirst c rfl)
  obtain ⟨a, c, rfl, hc⟩ := h
  have hc' : c ∉ quoting := fun h => hc (List.mem_cons_of_mem _ h)
  rw [Contracts.trim, hleft, List.reverse_append, List.reverse_singleton, List.singleton_append,
    List.dropWhile_cons_of_neg (by simpa using hc'), List.reverse_cons, List.reverse_reverse]

theorem EndsWell.trimTrailing {l : List Char} (h : EndsWell l) : trimTrailing l = l := by
  obtain ⟨a, c, rfl, hc⟩ := h
  have hc' : c ≠ '/' := fun h => hc (h ▸ List.mem_cons_self)
  unfold Contracts.trimTrailing
  split
  · rw [List.reverse_append, List.reverse_singleton, List.singleton_append,
      List.dropWhile_cons_of_neg (by simpa using hc'), List.reverse_cons, List.reverse_reverse]
  · rfl

/-- What is removed at the end is slashes. -/
theorem exists_trimTrailing (l : List Char) : ∃ m, l = trimTrailing l ++ List.replicate m '/' := by
  unfold trimTrailing
  split
  · refine ⟨(l.reverse.takeWhile fun c => c = '/').length, ?_⟩
    have hsplit := List.takeWhile_append_dropWhile (p := fun c => c = '/') (l := l.reverse)
    have hslashes : l.reverse.takeWhile (fun c => c = '/') =
        List.replicate (l.reverse.takeWhile fun c => c = '/').length '/' :=
      List.eq_replicate_of_mem fun c hc => by simpa using List.mem_takeWhile_imp hc
    have := congrArg List.reverse hsplit
    rw [List.reverse_append, List.reverse_reverse, hslashes, List.reverse_replicate] at this
    exact this.symm
  · exact ⟨0, by simp⟩

/-! ### What a path is written after -/

/-- Text without slashes, before a boundary. -/
theorem afterScheme_append {a t : List Char} (ha : '/' ∉ a)
    (ht : t = [] ∨ ∃ c t', t = '/' :: c :: t' ∧ c ≠ '/') : afterScheme (a ++ t) = afterScheme t := by
  induction a with
  | nil => rfl
  | cons b a ih =>
    rw [List.mem_cons, not_or] at ha
    rw [← ih ha.2, List.cons_append]
    conv_lhs => unfold afterScheme
    split
    · rename_i heq
      obtain ⟨rfl, htail⟩ := List.cons.inj heq
      -- two slashes would have to follow
      cases a with
      | nil =>
        rw [List.nil_append] at htail
        rcases ht with rfl | ⟨c, t', rfl, hc⟩
        · exact absurd htail (by simp)
        · exact absurd (List.cons.inj (List.cons.inj htail).2).1 hc
      | cons c a =>
        exact absurd (List.cons.inj htail).1.symm fun h => ha.2 (h ▸ List.mem_cons_self)
    · rename_i heq
      rw [(List.cons.inj heq).2]
    · rename_i heq
      exact absurd heq (by simp)

theorem afterScheme_slash (t : List Char) : afterScheme ('/' :: t) = afterScheme t := by
  conv_lhs => unfold afterScheme
  split
  · rename_i heq
    exact absurd (List.cons.inj heq).1 (by decide)
  · rename_i heq
    rw [(List.cons.inj heq).2]
  · rename_i heq
    exact absurd heq (by simp)

/-- How a segment begins. -/
theorem Segment.exists_cons (s : Segment) : ∃ c l, s.render = c :: l ∧ c ≠ '/' := by
  cases s with
  | static text =>
    obtain ⟨c, l, hc⟩ := List.exists_cons_of_ne_nil text.ne_nil
    refine ⟨c, l, hc, fun h => text.plain c (hc ▸ List.mem_cons_self) ?_⟩
    exact h ▸ List.mem_cons_self
  | placeholder p => cases p <;> exact ⟨_, _, rfl, by decide⟩

theorem Segment.slash_notMem (s : Segment) : '/' ∉ s.render := by
  have hword : ∀ x : Word, '/' ∉ x.chars := fun x hx => x.ne hx (by decide) rfl
  cases s with
  | static text => exact fun h => text.plain _ h List.mem_cons_self
  | placeholder p =>
    cases p with
    | colon x => simp [Segment.render, Placeholder.render, hword x]
    | angle x => simp [Segment.render, Placeholder.render, hword x]
    | typed T x => simp [Segment.render, Placeholder.render, hword x, hword T]
    | braces x => simp [Segment.render, Placeholder.render, hword x]
    | template e => simp [Segment.render, Placeholder.render, e.inSegment]
    | dollar x =>
      have hfirst : '/' ≠ x.first := fun h => absurd (h ▸ x.start) (by decide)
      have hrest : '/' ∉ x.rest := fun h => absurd (x.word _ h) (by decide)
      simp [Segment.render, Placeholder.render, hfirst, hrest]

theorem afterScheme_renderRest (segments : List Segment) : afterScheme (renderRest segments) = none := by
  induction segments with
  | nil => rfl
  | cons s segments ih =>
    have hsplit : renderRest (s :: segments) = '/' :: (s.render ++ renderRest segments) := rfl
    rw [hsplit, afterScheme_slash, afterScheme_append s.slash_notMem, ih]
    cases segments with
    | nil => exact Or.inl rfl
    | cons s' segments =>
      obtain ⟨c, l, hc, hne⟩ := s'.exists_cons
      exact Or.inr ⟨c, l ++ renderRest segments, by rw [← List.cons_append, ← hc]; rfl, hne⟩

/-- The path that is left of a route, without what it is written after. -/
def Route.path (r : Route) : List Char := r.first.chars ++ renderRest r.rest

theorem Route.afterScheme_path (r : Route) : afterScheme r.path = none := by
  unfold Route.path
  rw [afterScheme_append fun h => r.first.plain _ h List.mem_cons_self]
  · exact afterScheme_renderRest r.rest
  · cases r.rest with
    | nil => exact Or.inl rfl
    | cons s segments =>
      obtain ⟨c, l, hc, hne⟩ := s.exists_cons
      exact Or.inr ⟨c, l ++ renderRest segments, by rw [← List.cons_append, ← hc]; rfl, hne⟩

theorem Route.path_cons (r : Route) :
    ∃ c l, r.path = c :: l ∧ c ∉ '/' :: '$' :: ':' :: '<' :: '{' :: quoting := by
  obtain ⟨c, l, hc⟩ := List.exists_cons_of_ne_nil r.first.ne_nil
  exact ⟨c, l ++ renderRest r.rest, by rw [Route.path, hc, List.cons_append],
    r.first.plain c (hc ▸ List.mem_cons_self)⟩

/-- A path that does not begin with a dollar has no base. -/
theorem stripBase_path (r : Route) : stripBase r.path = r.path ∧
    stripBase ('/' :: r.path) = '/' :: r.path := by
  obtain ⟨c, l, hc, hplain⟩ := r.path_cons
  have hdollar : c ≠ '$' := fun h => hplain (by simp [h])
  have hslash : c ≠ '/' := fun h => hplain (by simp [h])
  have hnone : afterTemplate (c :: l) = none := by
    unfold afterTemplate
    split
    · rename_i heq
      exact absurd (List.cons.inj heq).1 hdollar
    · rfl
  constructor
  · rw [stripBase, hc, if_neg (by simpa using hslash), hnone]
    rfl
  · rw [stripBase, List.head?_cons, if_pos rfl, List.tail_cons, hc, hnone]
    rfl

/-- A scheme goes. -/
theorem afterScheme_scheme {scheme : List Char} (h : ':' ∉ scheme) (rest : List Char) :
    afterScheme (scheme ++ ':' :: '/' :: '/' :: rest) = some rest := by
  induction scheme with
  | nil => rfl
  | cons c scheme ih =>
    rw [List.mem_cons, not_or] at h
    rw [← ih h.2, List.cons_append]
    conv_lhs => unfold afterScheme
    split
    · rename_i heq
      exact absurd (List.cons.inj heq).1 (Ne.symm h.1)
    · rename_i heq
      rw [(List.cons.inj heq).2]
    · rename_i heq
      exact absurd heq (by simp)

/-- **The stages before the placeholders** leave the path, with a slash before it or without. -/
theorem strip_render (r : Route) :
    stripBase (stripAuthority (trim quoting r.render)) = r.path ∨
      stripBase (stripAuthority (trim quoting r.render)) = '/' :: r.path := by
  obtain ⟨c, l, hc, hplain⟩ := r.path_cons
  have hslash : c ≠ '/' := fun h => hplain (by simp [h])
  have hends : EndsWell r.render := by
    have := (endsWell_renderRest r.first.endsWell r.rest).append r.base.render
    rwa [← List.append_assoc] at this
  have hrender : r.render = r.base.render ++ r.path := List.append_assoc _ _ _
  have hboundary : ('/' :: r.path = [] ∨ ∃ c t', '/' :: r.path = '/' :: c :: t' ∧ c ≠ '/') :=
    Or.inr ⟨c, l, by rw [hc], hslash⟩
  have hwf := r.base_wf
  -- a route neither begins nor ends with a character that is trimmed
  have htrim : trim quoting r.render = r.render := by
    refine hends.trim fun d hd => ?_
    rw [hrender, hc] at hd
    cases hb : r.base with
    | none slash =>
      rw [hb] at hd
      cases slash with
      | false =>
        obtain rfl := Option.some.inj hd
        exact fun h => hplain (by simp [h])
      | true =>
        obtain rfl := Option.some.inj hd
        decide
    | host scheme authority =>
      rw [hb] at hd hwf
      cases scheme with
      | nil =>
        obtain rfl := Option.some.inj hd
        decide
      | cons b scheme =>
        obtain rfl := Option.some.inj hd
        have hall : ∀ d ∈ quoting, ¬(d.isAlphanum = true ∨ d ∈ ['+', '-', '.']) :=
          List.all_iff_forall_prop.mp (by decide)
        exact fun h => hall b h (hwf.1 b List.mem_cons_self)
    | template slash expr =>
      rw [hb] at hd
      cases slash <;> obtain rfl := Option.some.inj hd <;> decide
  -- what stands before the path goes, by its kind
  rw [htrim, hrender]
  cases hb : r.base with
  | none slash =>
    cases slash with
    | false =>
      refine Or.inl ?_
      change stripBase (stripAuthority r.path) = _
      rw [stripAuthority, r.afterScheme_path]
      exact (stripBase_path r).1
    | true =>
      refine Or.inr ?_
      change stripBase (stripAuthority ('/' :: r.path)) = _
      rw [stripAuthority, afterScheme_slash, r.afterScheme_path]
      exact (stripBase_path r).2
  | host scheme authority =>
    rw [hb] at hwf
    have hcolon : ':' ∉ scheme := fun h => absurd (hwf.1 _ h) (by decide)
    have hsplit : (Base.host scheme authority).render ++ r.path =
        scheme ++ ':' :: '/' :: '/' :: (authority ++ '/' :: r.path) := by
      simp [Base.render]
    have hauthority : ∀ d ∈ authority, decide (d ≠ '/') = true := fun d hd =>
      decide_eq_true fun h => hwf.2 (h ▸ hd)
    rw [hsplit, stripAuthority, afterScheme_scheme hcolon, Option.elim_some,
      if_pos (List.mem_append_right _ List.mem_cons_self), dropWhile_append hauthority fun d hd => by
        obtain rfl := Option.some.inj hd
        decide]
    exact Or.inr (stripBase_path r).2
  | template slash expr =>
    rw [hb] at hwf
    obtain ⟨hne, hbrace, hexpr⟩ := hwf
    have hsplit : (Base.template slash expr).render ++ r.path =
        (if slash = true then ['/'] else []) ++ (('$' :: '{' :: (expr ++ ['}'])) ++ '/' :: r.path) := by
      simp [Base.render]
    have hscheme : afterScheme (('$' :: '{' :: (expr ++ ['}'])) ++ '/' :: r.path) = none := by
      rw [afterScheme_append (by simp [hexpr]) hboundary, afterScheme_slash, r.afterScheme_path]
    have htemplate : afterTemplate (('$' :: '{' :: (expr ++ ['}'])) ++ '/' :: r.path) =
        some ('/' :: r.path) := by
      rw [List.cons_append, List.cons_append, List.append_assoc, List.singleton_append]
      change (exprPrefix (expr ++ '}' :: '/' :: r.path)).map Prod.snd = _
      rw [exprPrefix_append hne hbrace]
      rfl
    refine Or.inr ?_
    rw [hsplit]
    cases slash with
    | false =>
      rw [if_neg Bool.false_ne_true, List.nil_append, stripAuthority, hscheme, Option.elim_none,
        stripBase, List.cons_append, List.head?_cons, if_neg (by decide), ← List.cons_append,
        htemplate, Option.getD_some]
    | true =>
      rw [if_pos rfl, List.singleton_append, stripAuthority, afterScheme_slash, hscheme,
        Option.elim_none, stripBase, List.head?_cons, if_pos rfl, List.tail_cons, htemplate,
        Option.getD_some]

/-! ### The paths of routes -/

/-- **What a route is normalized to**: the placeholders are numbered, and the rest stays. -/
theorem normalizeHTTPPath_render (r : Route) : normalizeHTTPPath r.render =
    trimTrailing ('/' :: (r.first.chars ++ numberParams 0 (inlineParams (renderRest r.rest)))) := by
  obtain ⟨c, l, hc⟩ := List.exists_cons_of_ne_nil r.first.ne_nil
  have hslash : c ≠ '/' := fun h =>
    r.first.plain c (hc ▸ List.mem_cons_self) (h ▸ List.mem_cons_self)
  have hpath : numberParams 0 (inlineParams r.path) =
      r.first.chars ++ numberParams 0 (inlineParams (renderRest r.rest)) := by
    rw [Route.path, inlineParams_append r.first.dollar_notMem, numberParams_append r.first.kept]
  unfold normalizeHTTPPath
  rcases strip_render r with heq | heq
  · rw [heq, hpath, leadingSlash, if_neg]
    rw [hc]
    simpa using hslash
  · rw [heq, ← List.singleton_append, inlineParams_append (by decide),
      numberParams_append (List.all_iff_forall_prop.mp (by decide)), hpath, List.singleton_append, leadingSlash, List.head?_cons,
      if_pos rfl]

theorem endsWell_canonicalRest {l : List Char} (hl : EndsWell l) (n : ℕ) (segments : List Segment) :
    EndsWell (l ++ canonicalRest n segments) := by
  induction segments generalizing l n with
  | nil => rwa [canonicalRest, List.append_nil]
  | cons s segments ih =>
    cases s with
    | static text =>
      have := ih (text.endsWell.append (l ++ ['/'])) n
      simpa [canonicalRest] using this
    | placeholder p =>
      have hbrace : EndsWell (l ++ ['/'] ++ positional (n + 1)) :=
        ⟨l ++ ['/'] ++ '{' :: 'p' :: Nat.toDigits 10 (n + 1), '}', by simp [positional], by decide⟩
      have := ih hbrace (n + 1)
      simpa [canonicalRest] using this

/-- **A route whose expressions are words.** -/
theorem normalizeHTTPPath_simple {r : Route} (h : r.Simple) :
    normalizeHTTPPath r.render = r.canonical := by
  rw [normalizeHTTPPath_render, numberParams_renderRest h]
  exact ((endsWell_canonicalRest r.first.endsWell 0 r.rest).append ['/']).trimTrailing

/-- The number of a position, as a word. -/
def positionWord (n : ℕ) : Word where
  chars := 'p' :: Nat.toDigits 10 n
  ne_nil := List.cons_ne_nil _ _
  word := by
    intro c hc
    rcases List.mem_cons.mp hc with rfl | hc
    · decide
    · exact isWord_digit hc

/-- The segments of the path that a route stands for. -/
def numbered : ℕ → List Segment → List Segment
  | _, [] => []
  | n, .static text :: segments => .static text :: numbered n segments
  | n, .placeholder _ :: segments =>
    .placeholder (.braces (positionWord (n + 1))) :: numbered (n + 1) segments

/-- The path that a route stands for is a route itself. -/
def Route.numbered (r : Route) : Route where
  base := .none true
  base_wf := trivial
  first := r.first
  rest := Contracts.numbered 0 r.rest

theorem numbered_spec (n : ℕ) (segments : List Segment) :
    renderRest (numbered n segments) = canonicalRest n segments ∧
      canonicalRest n (numbered n segments) = canonicalRest n segments ∧
        ∀ p, Segment.placeholder p ∈ numbered n segments → p.Simple := by
  induction segments generalizing n with
  | nil => exact ⟨rfl, rfl, fun p hp => absurd hp List.not_mem_nil⟩
  | cons s segments ih =>
    cases s with
    | static text =>
      obtain ⟨hrender, hcanonical, hsimple⟩ := ih n
      refine ⟨?_, ?_, fun p hp => hsimple p ((List.mem_cons.mp hp).resolve_left (by simp))⟩
      · change '/' :: (text.chars ++ renderRest (numbered n segments)) = _
        rw [hrender]
        rfl
      · change '/' :: (text.chars ++ canonicalRest n (numbered n segments)) = _
        rw [hcanonical]
        rfl
    | placeholder q =>
      obtain ⟨hrender, hcanonical, hsimple⟩ := ih (n + 1)
      refine ⟨?_, ?_, fun p hp => ?_⟩
      · change '/' :: (positional (n + 1) ++ renderRest (numbered (n + 1) segments)) = _
        rw [hrender]
        rfl
      · change '/' :: (positional (n + 1) ++ canonicalRest (n + 1) (numbered (n + 1) segments)) = _
        rw [hcanonical]
        rfl
      · rcases List.mem_cons.mp hp with heq | hp
        · obtain rfl := Segment.placeholder.inj heq
          trivial
        · exact hsimple p hp

/-- **The path that a route stands for stays as it is.** -/
theorem normalizeHTTPPath_canonical (r : Route) : normalizeHTTPPath r.canonical = r.canonical := by
  obtain ⟨hrender, hcanonical, hsimple⟩ := numbered_spec 0 r.rest
  have hself : r.numbered.render = r.canonical := by
    change '/' :: (r.first.chars ++ renderRest (numbered 0 r.rest)) = _
    rw [hrender]
    rfl
  have hsame : r.numbered.canonical = r.canonical := by
    change '/' :: (r.first.chars ++ canonicalRest 0 (numbered 0 r.rest)) = _
    rw [hcanonical]
    rfl
  have := normalizeHTTPPath_simple (r := r.numbered) hsimple
  rwa [hself, hsame] at this

/-- **When the styles do not matter**: a route is normalized to the path it stands for, which has
its static segments and the positions of its placeholders only, and the result stays as it is,
exactly if every expression in it is a word. -/
theorem normalizeHTTPPath_iff (r : Route) :
    (normalizeHTTPPath r.render = r.canonical ∧
        normalizeHTTPPath (normalizeHTTPPath r.render) = normalizeHTTPPath r.render) ↔
      r.Simple := by
  constructor
  · rintro ⟨heq, -⟩ p hp
    by_contra hbad
    rw [normalizeHTTPPath_render] at heq
    obtain ⟨m, hm⟩ := exists_trimTrailing
      ('/' :: (r.first.chars ++ numberParams 0 (inlineParams (renderRest r.rest))))
    rw [heq, Route.canonical, List.cons_append, List.append_assoc] at hm
    exact numberParams_renderRest_ne hp hbad 0 m (List.append_cancel_left (List.cons.inj hm).2)
  · intro h
    have heq := normalizeHTTPPath_simple h
    exact ⟨heq, by rw [heq, normalizeHTTPPath_canonical]⟩

namespace Dotted

/-- `users`. -/
def users : StaticText := ⟨"users".toList, by decide, List.all_iff_forall_prop.mp (by decide)⟩

/-- `/users/${user.id}` and `/users/:id`. -/
def template : Route where
  base := .none true
  base_wf := trivial
  first := users
  rest := [.placeholder (.template ⟨"user.id".toList, by decide, by decide⟩)]

@[inherit_doc template]
def colon : Route where
  base := .none true
  base_wf := trivial
  first := users
  rest := [.placeholder (.colon ⟨"id".toList, by decide, List.all_iff_forall_prop.mp (by decide)⟩)]

/-- **One route in two styles**, with two paths. -/
theorem normalizeHTTPPath_ne :
    template.canonical = colon.canonical ∧
      normalizeHTTPPath template.render = "/users/{user.id}".toList ∧
      normalizeHTTPPath colon.render = "/users/{p1}".toList := by
  decide

end Dotted

end Contracts

end Gortex
