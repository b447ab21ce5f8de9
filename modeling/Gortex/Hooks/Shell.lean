import Gortex.Hooks.BashClassify

/-!
# Command lines

The command lines that `internal/hooks/bash_classify.go` is to read: simple commands of words,
with quotes and escapes, in pipelines that are joined by `;`, `&&`, `||` and newlines. What a
line is to be classified as is that of the first pipeline whose first command has a
classification (`Gortex.Hooks.CommandLine.classification`).

The comment of `classifyBashCommand` says that escapes are not handled, and an escaped separator
is taken for one. Without escapes, and without newlines between the pipelines, every line is cut
at its separators and classified as it is to be (`Gortex.Hooks.classifiedRight`).
-/

namespace Gortex

namespace Hooks

/-! ### Words -/

/-- A character that means itself outside of quotes. -/
def isBare (c : Char) : Bool :=
  c ∉ [' ', '\t', '\n', '\'', '\"', '\\', ';', '|', '&', '(', ')', '<', '>']

/-- A character between double quotes: by itself, behind a backslash that means itself, or
escaped. -/
inductive DoubleChar
  | lit (c : Char) (h : c ∉ ['\"', '\\'])
  | backslash (c : Char) (h : c ∉ ['$', '\x60', '\"', '\\', '\n'])
  | escaped (c : Char) (h : c ∈ ['$', '\x60', '\"', '\\'])

namespace DoubleChar

/-- How it is written. -/
def render : DoubleChar → List Char
  | lit c _ => [c]
  | backslash c _ => ['\\', c]
  | escaped c _ => ['\\', c]

/-- What it stands for. -/
def value : DoubleChar → List Char
  | lit c _ => [c]
  | backslash c _ => ['\\', c]
  | escaped c _ => [c]

/-- Whether it is no escape. -/
def plain : DoubleChar → Bool
  | escaped _ _ => false
  | _ => true

end DoubleChar

/-- A part of a word. -/
inductive Part
  | bare (c : Char) (h : isBare c = true)
  | escaped (c : Char) (h : c ≠ '\n')
  | single (text : List Char) (h : '\'' ∉ text)
  | double (text : List DoubleChar)

namespace Part

/-- How it is written. -/
def render : Part → List Char
  | bare c _ => [c]
  | escaped c _ => ['\\', c]
  | single text _ => '\'' :: text ++ ['\'']
  | double text => '\"' :: text.flatMap DoubleChar.render ++ ['\"']

/-- What it stands for. -/
def value : Part → List Char
  | bare c _ => [c]
  | escaped c _ => [c]
  | single text _ => text
  | double text => text.flatMap DoubleChar.value

/-- Whether it has no escape. -/
def plain : Part → Bool
  | escaped _ _ => false
  | double text => text.all DoubleChar.plain
  | _ => true

end Part

/-- A word; one that begins with `#` would be a comment. -/
structure Word where
  parts : List Part
  ne_nil : parts ≠ []
  start : ∀ h, parts.head? ≠ some (.bare '#' h)

/-- How a word is written. -/
def Word.render (w : Word) : List Char := w.parts.flatMap Part.render

/-- What a word stands for. -/
def Word.value (w : Word) : List Char := w.parts.flatMap Part.value

/-! ### Commands -/

/-- Blanks. -/
structure Blanks where
  chars : List Char
  blank : ∀ c ∈ chars, c = ' ' ∨ c = '\t'

/-- The blanks between two words. -/
structure Gap extends Blanks where
  ne_nil : chars ≠ []

/-- The words of a command after the first one, with the gaps before them. -/
def renderWords (others : List (Gap × Word)) : List Char :=
  others.flatMap fun o => o.1.chars ++ o.2.render

/-- **A simple command**, with the blanks around it. At its ends stand no other white space. -/
structure Command where
  before : Blanks
  first : Word
  others : List (Gap × Word)
  after : Blanks
  head : ∀ c ∈ (first.render ++ renderWords others).head?, GoString.isSpace c = false
  last : ∀ c ∈ (first.render ++ renderWords others).getLast?, GoString.isSpace c = false

namespace Command

/-- A command without the blanks around it. -/
def core (c : Command) : List Char := c.first.render ++ renderWords c.others

/-- How a command is written. -/
def render (c : Command) : List Char := c.before.chars ++ c.core ++ c.after.chars

/-- The words of a command. -/
def words (c : Command) : List Word := c.first :: c.others.map Prod.snd

/-- Whether a command has no escapes. -/
def plain (c : Command) : Bool := c.words.all fun w => w.parts.all Part.plain

end Command

/-! ### Command lines -/

/-- **A pipeline**: a command, and the filters behind it. -/
structure Pipeline where
  first : Command
  filters : List Command

/-- How the filters of a pipeline are written. -/
def renderFilters (filters : List Command) : List Char := filters.flatMap fun c => '|' :: c.render

/-- How a pipeline is written. -/
def Pipeline.render (p : Pipeline) : List Char := p.first.render ++ renderFilters p.filters

/-- Whether a pipeline has no escapes. -/
def Pipeline.plain (p : Pipeline) : Bool := p.first.plain && p.filters.all Command.plain

/-- What stands between two pipelines. -/
inductive Joiner
  | semicolon
  | and
  | or
  | newline
deriving DecidableEq

/-- How it is written. -/
def Joiner.render : Joiner → List Char
  | semicolon => [';']
  | and => ['&', '&']
  | or => ['|', '|']
  | newline => ['\n']

/-- **A command line.** -/
structure CommandLine where
  first : Pipeline
  others : List (Joiner × Pipeline)

/-- How the pipelines after the first one are written. -/
def renderPipelines (others : List (Joiner × Pipeline)) : List Char :=
  others.flatMap fun o => o.1.render ++ o.2.render

namespace CommandLine

/-- How a command line is written. -/
def render (line : CommandLine) : List Char := line.first.render ++ renderPipelines line.others

/-- The pipelines of a command line. -/
def pipelines (line : CommandLine) : List Pipeline := line.first :: line.others.map Prod.snd

/-- Whether a line has no escapes, and no newlines between its pipelines. -/
def plain (line : CommandLine) : Bool :=
  line.pipelines.all Pipeline.plain && line.others.all fun o => o.1 ≠ .newline

/-- **What a line is to be classified as**: the first pipeline whose first command has a
classification decides. -/
def classification (toLower : List Char → List Char) (line : CommandLine) : BashClassification :=
  (line.pipelines.findSome? fun p =>
    classifyTokens toLower (p.first.words.map Word.value)).getD {}

end CommandLine

/-- **A line is classified as it is to be**, and cut into the first commands of its pipelines. -/
structure ClassifiedRight (toLower : List Char → List Char) (line : CommandLine) : Prop where
  segments : primarySegments line.render = line.pipelines.map fun p => p.first.core
  classification : classifyBashCommand toLower line.render = line.classification toLower

/-! ### Reading in quotes and outside -/

section Reading

variable {primary : Bool}

/-- Outside of quotes, a character that is no quote and no separator is kept. -/
theorem segmentsFrom_cons {c : Char} (h : c ∉ ['\'', '\"', ';', '|', '&']) (cur l : List Char) :
    segmentsFrom cur false false primary (c :: l) =
      segmentsFrom (cur ++ [c]) false false primary l := by
  simp only [List.mem_cons, List.not_mem_nil, or_false, not_or] at h
  obtain ⟨h1, h2, h3, h4, h5⟩ := h
  rw [segmentsFrom]
  simp [h1, h2, h3, h4, h5]

theorem segmentsFrom_append {u : List Char} (h : ∀ c ∈ u, c ∉ ['\'', '\"', ';', '|', '&'])
    (cur l : List Char) : segmentsFrom cur false false primary (u ++ l) =
      segmentsFrom (cur ++ u) false false primary l := by
  induction u generalizing cur with
  | nil => rw [List.nil_append, List.append_nil]
  | cons c u ih =>
    rw [List.cons_append, segmentsFrom_cons (h c List.mem_cons_self),
      ih fun d hd => h d (List.mem_cons_of_mem c hd), List.append_assoc, List.singleton_append]

/-- **In single quotes**, everything is kept. -/
theorem segmentsFrom_single {u : List Char} (h : '\'' ∉ u) (cur l : List Char) :
    segmentsFrom cur true false primary (u ++ l) =
      segmentsFrom (cur ++ u) true false primary l := by
  induction u generalizing cur with
  | nil => rw [List.nil_append, List.append_nil]
  | cons c u ih =>
    obtain ⟨hc, hu⟩ := not_or.mp (mt List.mem_cons.mpr h)
    rw [List.cons_append, segmentsFrom]
    simp only [Ne.symm hc, false_and, if_false, Bool.true_eq_false, and_false, true_or, if_true]
    rw [ih hu, List.append_assoc, List.singleton_append]

/-- **In double quotes**, everything is kept. -/
theorem segmentsFrom_double {u : List Char} (h : '\"' ∉ u) (cur l : List Char) :
    segmentsFrom cur false true primary (u ++ l) =
      segmentsFrom (cur ++ u) false true primary l := by
  induction u generalizing cur with
  | nil => rw [List.nil_append, List.append_nil]
  | cons c u ih =>
    obtain ⟨hc, hu⟩ := not_or.mp (mt List.mem_cons.mpr h)
    rw [List.cons_append, segmentsFrom]
    simp only [Ne.symm hc, false_and, if_false, Bool.true_eq_false, and_false, or_true, if_true]
    rw [ih hu, List.append_assoc, List.singleton_append]

theorem segmentsFrom_quote (cur l : List Char) (inSingle : Bool) :
    segmentsFrom cur inSingle false primary ('\'' :: l) =
      segmentsFrom (cur ++ ['\'']) (!inSingle) false primary l := by
  rw [segmentsFrom]
  simp

theorem segmentsFrom_doubleQuote (cur l : List Char) (inDouble : Bool) :
    segmentsFrom cur false inDouble primary ('\"' :: l) =
      segmentsFrom (cur ++ ['\"']) false (!inDouble) primary l := by
  rw [segmentsFrom]
  simp

/-- Between double quotes, a character that is no escape is read as it is written. -/
theorem DoubleChar.render_eq_value {d : DoubleChar} (h : d.plain = true) :
    d.render = d.value ∧ '\"' ∉ d.render := by
  cases d with
  | lit c hc =>
    refine ⟨rfl, fun hmem => ?_⟩
    rw [render, List.mem_singleton] at hmem
    exact hc (hmem ▸ List.mem_cons_self)
  | backslash c hc =>
    refine ⟨rfl, fun hmem => ?_⟩
    rw [render, List.mem_cons, List.mem_singleton] at hmem
    rcases hmem with hmem | rfl
    · exact absurd hmem (by decide)
    · exact hc (by decide)
  | escaped c hc => exact absurd h Bool.false_ne_true

theorem flatMap_render_eq_value {text : List DoubleChar} (h : text.all DoubleChar.plain = true) :
    text.flatMap DoubleChar.render = text.flatMap DoubleChar.value ∧
      '\"' ∉ text.flatMap DoubleChar.render := by
  have hall := List.all_eq_true.mp h
  refine ⟨List.flatMap_congr fun d hd => (DoubleChar.render_eq_value (hall d hd)).1, fun hmem => ?_⟩
  obtain ⟨d, hd, hc⟩ := List.mem_flatMap.mp hmem
  exact (DoubleChar.render_eq_value (hall d hd)).2 hc

theorem isBare_notMem {c : Char} (h : isBare c = true) :
    c ∉ ['\'', '\"', ';', '|', '&'] ∧ c ∉ ['\'', '\"', ' ', '\t'] := by
  have hbare := of_decide_eq_true h
  refine ⟨fun hmem => hbare ?_, fun hmem => hbare ?_⟩
  · have hsub : ['\'', '\"', ';', '|', '&'] ⊆ [' ', '\t', '\n', '\'', '\"', '\\', ';', '|', '&',
        '(', ')', '<', '>'] := by decide
    exact hsub hmem
  · have hsub : ['\'', '\"', ' ', '\t'] ⊆ [' ', '\t', '\n', '\'', '\"', '\\', ';', '|', '&', '(',
        ')', '<', '>'] := by decide
    exact hsub hmem

/-- **A part of a word** ends outside of quotes, and no separator in it is taken for one. -/
theorem segmentsFrom_part {part : Part} (h : part.plain = true) (cur l : List Char) :
    segmentsFrom cur false false primary (part.render ++ l) =
      segmentsFrom (cur ++ part.render) false false primary l := by
  cases part with
  | bare c hc => exact segmentsFrom_cons (isBare_notMem hc).1 cur l
  | escaped c hc => exact absurd h Bool.false_ne_true
  | single text htext =>
    simp only [Part.render, List.cons_append, List.append_assoc, List.nil_append]
    rw [segmentsFrom_quote, Bool.not_false, segmentsFrom_single htext, segmentsFrom_quote,
      Bool.not_true]
    simp only [List.append_assoc, List.cons_append, List.nil_append]
  | double text =>
    simp only [Part.render, List.cons_append, List.append_assoc, List.nil_append]
    rw [segmentsFrom_doubleQuote, Bool.not_false,
      segmentsFrom_double (flatMap_render_eq_value h).2, segmentsFrom_doubleQuote, Bool.not_true]
    simp only [List.append_assoc, List.cons_append, List.nil_append]

theorem segmentsFrom_parts {parts : List Part} (h : parts.all Part.plain = true)
    (cur l : List Char) : segmentsFrom cur false false primary (parts.flatMap Part.render ++ l) =
      segmentsFrom (cur ++ parts.flatMap Part.render) false false primary l := by
  induction parts generalizing cur with
  | nil => rw [List.flatMap_nil, List.nil_append, List.append_nil]
  | cons part parts ih =>
    rw [List.all_cons, Bool.and_eq_true] at h
    rw [List.flatMap_cons, List.append_assoc, segmentsFrom_part h.1, ih h.2, List.append_assoc]

theorem Blanks.notMem (b : Blanks) : ∀ c ∈ b.chars, c ∉ ['\'', '\"', ';', '|', '&'] := by
  intro c hc
  rcases b.blank c hc with rfl | rfl
  · decide
  · decide

theorem segmentsFrom_words {others : List (Gap × Word)}
    (h : ∀ o ∈ others, o.2.parts.all Part.plain = true) (cur l : List Char) :
    segmentsFrom cur false false primary (renderWords others ++ l) =
      segmentsFrom (cur ++ renderWords others) false false primary l := by
  induction others generalizing cur with
  | nil => rw [renderWords, List.flatMap_nil, List.nil_append, List.append_nil]
  | cons o others ih =>
    have hrest := ih fun o' ho' => h o' (List.mem_cons_of_mem o ho')
    rw [renderWords, List.flatMap_cons, ← renderWords, List.append_assoc, List.append_assoc,
      segmentsFrom_append o.1.notMem, Word.render,
      segmentsFrom_parts (h o List.mem_cons_self), hrest]
    simp only [List.append_assoc]

/-- **A command** is read to its end. -/
theorem segmentsFrom_command {c : Command} (h : c.plain = true) (l : List Char) :
    segmentsFrom [] false false primary (c.render ++ l) =
      segmentsFrom c.render false false primary l := by
  have hall := List.all_eq_true.mp h
  have hfirst := hall c.first List.mem_cons_self
  have hothers : ∀ o ∈ c.others, o.2.parts.all Part.plain = true := fun o ho =>
    hall o.2 (List.mem_cons_of_mem _ (List.mem_map_of_mem ho))
  simp only [Command.render, Command.core, Word.render, List.append_assoc]
  rw [segmentsFrom_append c.before.notMem, segmentsFrom_parts hfirst, segmentsFrom_words hothers,
    segmentsFrom_append c.after.notMem]
  simp only [List.nil_append, List.append_assoc]

/-! ### Cutting at the separators -/

theorem Word.render_ne_nil (w : Word) : w.render ≠ [] := by
  obtain ⟨part, parts, hparts⟩ := List.exists_cons_of_ne_nil w.ne_nil
  have hpart : part.render ≠ [] := by
    cases part with
    | bare | escaped | single | double => exact List.cons_ne_nil _ _
  rw [Word.render, hparts, List.flatMap_cons]
  exact List.append_ne_nil_of_left_ne_nil hpart _

theorem Command.core_ne_nil (c : Command) : c.core ≠ [] :=
  List.append_ne_nil_of_left_ne_nil c.first.render_ne_nil _

theorem Blanks.isSpace (b : Blanks) : ∀ c ∈ b.chars, GoString.isSpace c = true := by
  intro c hc
  rcases b.blank c hc with rfl | rfl
  · decide
  · decide

/-- A command without the blanks around it. -/
theorem Command.trimSpace_render (c : Command) : GoText.trimSpace c.render = c.core :=
  GoText.trimSpace_between c.before.isSpace c.after.isSpace c.head c.last

theorem flush_command (c : Command) : flush true c.render = [c.core] := by
  rw [flush, c.trimSpace_render, if_pos ⟨rfl, c.core_ne_nil⟩]

theorem flush_false (cur : List Char) : flush false cur = [] :=
  if_neg fun h => Bool.false_ne_true h.1

/-- What a command begins with. -/
theorem Command.head_render (c : Command) (l : List Char) : (c.render ++ l).head? ≠ some '|' := by
  obtain ⟨part, parts, hparts⟩ := List.exists_cons_of_ne_nil c.first.ne_nil
  have hpart : ∀ t, (part.render ++ t).head? ≠ some '|' := by
    intro t heq
    cases part with
    | bare d hd =>
      obtain rfl : d = '|' := Option.some_inj.mp heq
      exact (isBare_notMem hd).1 (by decide)
    | escaped | single | double => exact absurd (Option.some_inj.mp heq) (by decide)
  rw [Command.render, Command.core, Word.render, hparts, List.flatMap_cons]
  rcases hbefore : c.before.chars with _ | ⟨d, before⟩
  · simp only [List.nil_append, List.append_assoc]
    exact hpart _
  · intro heq
    obtain rfl : d = '|' := Option.some_inj.mp heq
    have hblank := c.before.blank '|' (by rw [hbefore]; exact List.mem_cons_self)
    exact absurd hblank (by decide)

/-- **The end of a pipeline**: what has been read of a segment ends there, and `R` is what is
found behind it. -/
def Ends (l : List Char) (R : List (List Char)) : Prop :=
  ∀ cur primary, segmentsFrom cur false false primary l = flush primary cur ++ R

theorem ends_nil : Ends [] [] := fun cur primary => by rw [segmentsFrom, List.append_nil]

theorem ends_joiner {j : Joiner} (h : j ≠ .newline) (l : List Char) :
    Ends (j.render ++ l) (segmentsFrom [] false false true l) := by
  intro cur primary
  cases j with
  | semicolon | and | or =>
    simp only [Joiner.render, List.cons_append, List.nil_append]
    rw [segmentsFrom]
    simp
  | newline => exact absurd rfl h

/-- A single bar ends a segment, and the next one is not primary. -/
theorem segmentsFrom_bar (cur : List Char) {l : List Char} (h : l.head? ≠ some '|') :
    segmentsFrom cur false false primary ('|' :: l) =
      flush primary cur ++ segmentsFrom [] false false false l := by
  rw [segmentsFrom]
  simp [h]

/-- **Filters** give no segment. -/
theorem segmentsFrom_filters {filters : List Command} (h : filters.all Command.plain = true)
    {l : List Char} {R : List (List Char)} (hl : Ends l R) (cur : List Char) :
    segmentsFrom cur false false primary (renderFilters filters ++ l) = flush primary cur ++ R := by
  induction filters generalizing cur primary with
  | nil => exact hl cur primary
  | cons c filters ih =>
    rw [List.all_cons, Bool.and_eq_true] at h
    rw [renderFilters, List.flatMap_cons, ← renderFilters, List.cons_append, List.cons_append,
      List.append_assoc, segmentsFrom_bar cur (c.head_render _), segmentsFrom_command h.1,
      ih h.2, flush_false, List.nil_append]

/-- **A pipeline** gives its first command. -/
theorem segmentsFrom_pipeline {p : Pipeline} (h : p.plain = true) {l : List Char}
    {R : List (List Char)} (hl : Ends l R) :
    segmentsFrom [] false false true (p.render ++ l) = p.first.core :: R := by
  rw [Pipeline.plain, Bool.and_eq_true] at h
  rw [Pipeline.render, List.append_assoc, segmentsFrom_command h.1, segmentsFrom_filters h.2 hl,
    flush_command, List.singleton_append]

theorem segmentsFrom_line {others : List (Joiner × Pipeline)}
    (hjoiners : ∀ o ∈ others, o.1 ≠ .newline) (hothers : ∀ o ∈ others, o.2.plain = true)
    {first : Pipeline} (hfirst : first.plain = true) :
    segmentsFrom [] false false true (first.render ++ renderPipelines others) =
      first.first.core :: others.map fun o => o.2.first.core := by
  induction others generalizing first with
  | nil =>
    rw [renderPipelines, List.flatMap_nil, segmentsFrom_pipeline hfirst ends_nil, List.map_nil]
  | cons o others ih =>
    have hrest := ih (fun o' ho' => hjoiners o' (List.mem_cons_of_mem o ho'))
      (fun o' ho' => hothers o' (List.mem_cons_of_mem o ho')) (hothers o List.mem_cons_self)
    rw [renderPipelines, List.flatMap_cons, ← renderPipelines, List.append_assoc,
      segmentsFrom_pipeline hfirst (ends_joiner (hjoiners o List.mem_cons_self) _), hrest,
      List.map_cons]

/-- **The segments of a line** are the first commands of its pipelines. -/
theorem primarySegments_render {line : CommandLine} (h : line.plain = true) :
    primarySegments line.render = line.pipelines.map fun p => p.first.core := by
  simp only [CommandLine.plain, CommandLine.pipelines, List.all_cons, Bool.and_eq_true,
    List.all_map, List.all_eq_true, Function.comp_apply, decide_eq_true_eq] at h
  obtain ⟨⟨hfirst, hothers⟩, hjoiners⟩ := h
  rw [primarySegments, CommandLine.render, segmentsFrom_line hjoiners hothers hfirst,
    CommandLine.pipelines, List.map_cons, List.map_map]
  rfl

end Reading

/-! ### Tokens -/

section Tokens

/-- Outside of quotes, a character that is no quote and no blank is kept. -/
theorem tokensFrom_cons {c : Char} (h : c ∉ ['\'', '\"', ' ', '\t']) (cur l : List Char)
    (hasContent : Bool) : tokensFrom cur false false hasContent (c :: l) =
      tokensFrom (cur ++ [c]) false false true l := by
  simp only [List.mem_cons, List.not_mem_nil, or_false, not_or] at h
  obtain ⟨h1, h2, h3, h4⟩ := h
  rw [tokensFrom]
  simp [h1, h2, h3, h4]

/-- In single quotes, everything is kept. -/
theorem tokensFrom_single {u : List Char} (h : '\'' ∉ u) (cur l : List Char) :
    tokensFrom cur true false true (u ++ l) = tokensFrom (cur ++ u) true false true l := by
  induction u generalizing cur with
  | nil => rw [List.nil_append, List.append_nil]
  | cons c u ih =>
    obtain ⟨hc, hu⟩ := not_or.mp (mt List.mem_cons.mpr h)
    rw [List.cons_append, tokensFrom]
    simp only [Ne.symm hc, false_and, if_false, Bool.true_eq_false, and_false]
    rw [ih hu, List.append_assoc, List.singleton_append]

/-- In double quotes, everything is kept. -/
theorem tokensFrom_double {u : List Char} (h : '\"' ∉ u) (cur l : List Char) :
    tokensFrom cur false true true (u ++ l) = tokensFrom (cur ++ u) false true true l := by
  induction u generalizing cur with
  | nil => rw [List.nil_append, List.append_nil]
  | cons c u ih =>
    obtain ⟨hc, hu⟩ := not_or.mp (mt List.mem_cons.mpr h)
    rw [List.cons_append, tokensFrom]
    simp only [Ne.symm hc, false_and, if_false, Bool.true_eq_false, and_false]
    rw [ih hu, List.append_assoc, List.singleton_append]

/-- **A part of a word** is read as what it stands for. -/
theorem tokensFrom_part {part : Part} (h : part.plain = true) (cur l : List Char)
    (hasContent : Bool) : tokensFrom cur false false hasContent (part.render ++ l) =
      tokensFrom (cur ++ part.value) false false true l := by
  cases part with
  | bare c hc => exact tokensFrom_cons (isBare_notMem hc).2 cur l hasContent
  | escaped c hc => exact absurd h Bool.false_ne_true
  | single text htext =>
    simp only [Part.render, Part.value, List.cons_append, List.append_assoc, List.nil_append]
    rw [tokensFrom]
    simp only [true_and, if_true, Bool.not_false]
    rw [tokensFrom_single htext, tokensFrom]
    simp
  | double text =>
    obtain ⟨heq, hquote⟩ := flatMap_render_eq_value h
    simp only [Part.render, Part.value, List.cons_append, List.append_assoc, List.nil_append]
    rw [tokensFrom]
    simp only [if_false, true_and, if_true, Bool.not_false, Char.reduceEq, false_and]
    rw [tokensFrom_double hquote, tokensFrom, heq]
    simp

theorem tokensFrom_parts {parts : List Part} (h : parts.all Part.plain = true)
    (cur l : List Char) : tokensFrom cur false false true (parts.flatMap Part.render ++ l) =
      tokensFrom (cur ++ parts.flatMap Part.value) false false true l := by
  induction parts generalizing cur with
  | nil => rw [List.flatMap_nil, List.flatMap_nil, List.nil_append, List.append_nil]
  | cons part parts ih =>
    rw [List.all_cons, Bool.and_eq_true] at h
    rw [List.flatMap_cons, List.flatMap_cons, List.append_assoc, tokensFrom_part h.1, ih h.2,
      List.append_assoc]

/-- **A word** is a token, also if it stands for nothing. -/
theorem tokensFrom_word {w : Word} (h : w.parts.all Part.plain = true) (l : List Char) :
    tokensFrom [] false false false (w.render ++ l) = tokensFrom w.value false false true l := by
  obtain ⟨part, parts, hparts⟩ := List.exists_cons_of_ne_nil w.ne_nil
  rw [hparts, List.all_cons, Bool.and_eq_true] at h
  rw [Word.render, Word.value, hparts, List.flatMap_cons, List.flatMap_cons, List.append_assoc,
    tokensFrom_part h.1, tokensFrom_parts h.2, List.nil_append]

/-- Blanks where there is no token. -/
theorem tokensFrom_blanks {u : List Char} (h : ∀ c ∈ u, c = ' ' ∨ c = '\t') (l : List Char) :
    tokensFrom [] false false false (u ++ l) = tokensFrom [] false false false l := by
  induction u with
  | nil => rfl
  | cons c u ih =>
    rw [List.cons_append, tokensFrom, ih fun d hd => h d (List.mem_cons_of_mem c hd)]
    rcases h c List.mem_cons_self with rfl | rfl
    · simp
    · simp

/-- **A gap** ends a token. -/
theorem tokensFrom_gap (gap : Gap) (cur l : List Char) :
    tokensFrom cur false false true (gap.chars ++ l) =
      cur :: tokensFrom [] false false false l := by
  obtain ⟨c, u, hgap⟩ := List.exists_cons_of_ne_nil gap.ne_nil
  have hblank : ∀ d ∈ c :: u, d = ' ' ∨ d = '\t' := hgap ▸ gap.blank
  rw [hgap, List.cons_append, tokensFrom,
    tokensFrom_blanks fun d hd => hblank d (List.mem_cons_of_mem c hd)]
  rcases hblank c List.mem_cons_self with rfl | rfl
  · simp
  · simp

theorem tokensFrom_words {others : List (Gap × Word)}
    (h : ∀ o ∈ others, o.2.parts.all Part.plain = true) (cur : List Char) :
    tokensFrom cur false false true (renderWords others) =
      cur :: others.map fun o => o.2.value := by
  induction others generalizing cur with
  | nil => rfl
  | cons o others ih =>
    rw [renderWords, List.flatMap_cons, ← renderWords, List.append_assoc, tokensFrom_gap,
      tokensFrom_word (h o List.mem_cons_self),
      ih fun o' ho' => h o' (List.mem_cons_of_mem o ho'), List.map_cons]

/-- **The tokens of a command** are what its words stand for. -/
theorem tokenize_core {c : Command} (h : c.plain = true) :
    tokenize c.core = c.words.map Word.value := by
  have hall := List.all_eq_true.mp h
  have hothers : ∀ o ∈ c.others, o.2.parts.all Part.plain = true := fun o ho =>
    hall o.2 (List.mem_cons_of_mem _ (List.mem_map_of_mem ho))
  rw [tokenize, Command.core, tokensFrom_word (hall c.first List.mem_cons_self),
    tokensFrom_words hothers, Command.words, List.map_cons, List.map_map]
  rfl

end Tokens

/-! ### Classification -/

theorem findSome?_tokenize (toLower : List Char → List Char) {pipelines : List Pipeline}
    (h : ∀ p ∈ pipelines, p.first.plain = true) :
    (pipelines.map fun p => p.first.core).findSome?
        (fun seg => classifyTokens toLower (tokenize seg)) =
      pipelines.findSome? fun p => classifyTokens toLower (p.first.words.map Word.value) := by
  induction pipelines with
  | nil => rfl
  | cons p pipelines ih =>
    rw [List.map_cons, List.findSome?_cons, List.findSome?_cons,
      tokenize_core (h p List.mem_cons_self), ih fun q hq => h q (List.mem_cons_of_mem p hq)]

/-- **Without escapes, and without newlines between the pipelines**, a line is classified as it is
to be. -/
theorem classifiedRight (toLower : List Char → List Char) (line : CommandLine)
    (h : line.plain = true) : ClassifiedRight toLower line where
  segments := primarySegments_render h
  classification := by
    have hplain : ∀ p ∈ line.pipelines, p.first.plain = true := fun p hp => by
      have hline := h
      rw [CommandLine.plain, Bool.and_eq_true] at hline
      have hpipeline := List.all_eq_true.mp hline.1 p hp
      rw [Pipeline.plain, Bool.and_eq_true] at hpipeline
      exact hpipeline.1
    rw [classifyBashCommand, primarySegments_render h, findSome?_tokenize toLower hplain,
      CommandLine.classification]

/-! ### An escaped separator -/

namespace Lines

/-- A word without quotes. -/
def bareWord (text : List Char) (hne : text ≠ []) (hbare : ∀ c ∈ text, isBare c = true)
    (hstart : text.head? ≠ some '#') : Word where
  parts := text.pmap Part.bare hbare
  ne_nil := mt List.pmap_eq_nil_iff.mp hne
  start := by
    cases text with
    | nil => exact absurd rfl hne
    | cons c text =>
      rintro h heq
      obtain rfl : c = '#' := (Part.bare.injEq .. ▸ Option.some_inj.mp heq :)
      exact hstart rfl

theorem notSpace {o : Option Char} (h : o.all (fun c => !GoString.isSpace c) = true) :
    ∀ c ∈ o, GoString.isSpace c = false := by
  rintro c rfl
  exact Bool.not_eq_true' _ ▸ h

/-- No blanks. -/
def noBlanks : Blanks := ⟨[], fun _ h => absurd h List.not_mem_nil⟩

/-- A blank between two words. -/
def gap : Gap := ⟨⟨[' '], fun _ h => Or.inl (List.mem_singleton.mp h)⟩, List.cons_ne_nil _ _⟩

/-- `grep` -/
def grep : Word :=
  bareWord "grep".toList (by decide) (List.all_eq_true.mp (by decide)) (by decide)

/-- `cd` -/
def cd : Word := bareWord "cd".toList (by decide) (List.all_eq_true.mp (by decide)) (by decide)

/-- `.` -/
def dot : Word := bareWord ".".toList (by decide) (List.all_eq_true.mp (by decide)) (by decide)

/-- `a\;b` -/
def escapedWord : Word where
  parts := [.bare 'a' (by decide), .escaped ';' (by decide), .bare 'b' (by decide)]
  ne_nil := List.cons_ne_nil _ _
  start _ h := by cases h

/-- `'a;b'` -/
def quotedWord : Word where
  parts := [.single "a;b".toList (by decide)]
  ne_nil := List.cons_ne_nil _ _
  start _ h := by cases h

/-- `cd .` -/
def changeDir : Command where
  before := noBlanks
  first := cd
  others := [(gap, dot)]
  after := noBlanks
  head := notSpace (by decide)
  last := notSpace (by decide)

/-- `grep` with a word, and `.` -/
def search (w : Word) : List (Gap × Word) := [(gap, w), (gap, dot)]

/-- `grep 'a;b' .` -/
def searchQuoted : Command where
  before := gap.toBlanks
  first := grep
  others := search quotedWord
  after := noBlanks
  head := notSpace (by decide)
  last := notSpace (by decide)

/-- `grep a\;b .` -/
def searchEscaped : Command where
  before := noBlanks
  first := grep
  others := search escapedWord
  after := noBlanks
  head := notSpace (by decide)
  last := notSpace (by decide)

/-- `cd .; grep 'a;b' .` -/
def quoted : CommandLine := ⟨⟨changeDir, []⟩, [(.semicolon, ⟨searchQuoted, []⟩)]⟩

/-- `grep a\;b .` -/
def escaped : CommandLine := ⟨⟨searchEscaped, []⟩, []⟩

theorem classifiedRight_quoted : ClassifiedRight (fun path => path.map Char.toLower) quoted :=
  classifiedRight (fun path => path.map Char.toLower) quoted (by decide)

/-- **An escaped separator is taken for one**: the pattern of the search is `a\`. -/
theorem not_classifiedRight :
    ¬∀ line, ClassifiedRight (fun path => path.map Char.toLower) line := by
  intro h
  have hclass := (h escaped).classification
  revert hclass
  decide +kernel

end Lines

end Hooks

end Gortex
