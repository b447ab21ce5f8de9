import Mathlib.Logic.Relation
import Gortex.Contracts.Bind
import Gortex.Contracts.HttpPath
import Gortex.Lib.GoText

/-!
# Wrapped calls

`internal/contracts/wrapper.go` and `wrapper_args.go`: a function that passes the path of a
request on, such as `request(path)`, has a contract that matches nothing, and its callers are
given contracts of their own, with the paths that stand at the calls. A caller that passes a
parameter of its own on is taken for such a function as well.

The first of these functions are recognized by the path of their contract, which is to be one
placeholder. The pattern that decides so takes a single literal segment too. Apart from this
all that is emitted comes from the calls of a function that passes its path on, directly or not
(`Gortex.Contracts.inlineWrappers_sound_iff`).
-/

namespace Gortex

namespace Contracts

open ContractRegistry (isBlank)

/-! ### The arguments of a call -/

/-- What the first argument of a call is. -/
inductive ArgKind
  | argUnknown
  | argLiteral
  | argBareParam
deriving DecidableEq, Repr

/-- The first argument of a call, and the method that a later one names. -/
structure ExtractedArg where
  kind : ArgKind := .argUnknown
  value : List Char := []
  method : List Char := []

/-- The text from a line on, the lines numbered from zero. -/
def fromLine : List Char → ℕ → Option (List Char)
  | src, 0 => some src
  | [], _ + 1 => none
  | c :: src, n + 1 => fromLine src (if c = '\n' then n else n + 1)

/-- Whether a word begins or ends between two characters: `\\b`. -/
def isBoundary (before after : Option Char) : Bool := before.any isWord != after.any isWord

/-- What follows the opening bracket of a call, after the name and type arguments. -/
def afterOpening (text : List Char) : Option (List Char) :=
  let rest := text.dropWhile isBlank
  let rest :=
    if rest.head? = some '<' then (rest.dropWhile (· ≠ '>')).tail.dropWhile isBlank else rest
  if rest.head? = some '(' then some rest.tail else none

/-- What follows the opening bracket of the first call of a function; `before` is the character
before the text. -/
def afterCall (name : List Char) : Option Char → List Char → Option (List Char)
  | _, [] => none
  | before, c :: text =>
    let rest := (c :: text).drop name.length
    if name.isPrefixOf (c :: text) && isBoundary before (some c) &&
        isBoundary name.getLast? rest.head? then
      (afterOpening rest).or (afterCall name (some c) text)
    else afterCall name (some c) text

/-- Where a scan of a text is. -/
inductive ScanMode
  | code
  | quoted (quote : Char)
  | escaped (quote : Char)
  | lineComment
  | blockOpening
  | blockComment
  | blockClosing
deriving DecidableEq

/-- A character that opens a string. -/
def isQuote (c : Char) : Bool := c ∈ ['"', '\'', '\x60']

/-- The mode after a character of a string. -/
def ScanMode.inString (quote c : Char) : ScanMode :=
  if c = quote then code else if c = '\\' then escaped quote else quoted quote

/-- The mode after a character of the code, before `next`. -/
def ScanMode.inCode (c : Char) (next : Option Char) : ScanMode :=
  if isQuote c = true then quoted c
  else if c = '/' ∧ next = some '/' then lineComment
  else if c = '/' ∧ next = some '*' then blockOpening
  else code

/-- The text up to the bracket that closes so many. -/
def balancedCloseParen : ScanMode → ℕ → List Char → Option (List Char)
  | _, _, [] => none
  | .code, depth, c :: src =>
    if c = ')' ∧ depth = 1 then some []
    else
      let depth := if c = '(' then depth + 1 else if c = ')' then depth - 1 else depth
      (balancedCloseParen (.inCode c src.head?) depth src).map (c :: ·)
  | .quoted quote, depth, c :: src =>
    (balancedCloseParen (.inString quote c) depth src).map (c :: ·)
  | .escaped quote, depth, c :: src =>
    (balancedCloseParen (.quoted quote) depth src).map (c :: ·)
  | .lineComment, depth, c :: src =>
    (balancedCloseParen (if c = '\n' then .code else .lineComment) depth src).map (c :: ·)
  | .blockOpening, depth, c :: src =>
    (balancedCloseParen .blockComment depth src).map (c :: ·)
  | .blockComment, depth, c :: src =>
    (balancedCloseParen (if c = '*' ∧ src.head? = some '/' then .blockClosing else .blockComment)
      depth src).map (c :: ·)
  | .blockClosing, depth, c :: src => (balancedCloseParen .code depth src).map (c :: ·)

/-- What a bracket adds to the depth of its kind. -/
def bracketWeight (opening closing c : Char) : ℤ :=
  if c = opening then 1 else if c = closing then -1 else 0

/-- The text before the first comma outside of brackets and strings, and the text after it. -/
def splitAtComma : ScanMode → ℤ → ℤ → ℤ → List Char → Option (List Char × List Char)
  | _, _, _, _, [] => none
  | .quoted quote, paren, brace, bracket, c :: args =>
    (splitAtComma (.inString quote c) paren brace bracket args).map (Prod.map (c :: ·) id)
  | .escaped quote, paren, brace, bracket, c :: args =>
    (splitAtComma (.quoted quote) paren brace bracket args).map (Prod.map (c :: ·) id)
  | _, paren, brace, bracket, c :: args =>
    if c = ',' ∧ paren = 0 ∧ brace = 0 ∧ bracket = 0 then some ([], args)
    else
      (splitAtComma (if isQuote c = true then .quoted c else .code)
        (paren + bracketWeight '(' ')' c) (brace + bracketWeight '{' '}' c)
        (bracket + bracketWeight '[' ']' c) args).map (Prod.map (c :: ·) id)

/-- The first argument, and the others. -/
def splitFirstArg (args : List Char) : List Char × List Char :=
  (splitAtComma .code 0 0 0 args).elim (GoText.trimSpace args, [])
    (Prod.map GoText.trimSpace GoText.trimSpace)

/-- Whether a text begins and ends with the same quote. -/
def isQuoted (s : List Char) : Bool :=
  2 ≤ s.length ∧ s.head?.any isQuote = true ∧ s.head? = s.getLast?

/-- A text without its quotes. -/
def unquote (s : List Char) : List Char := if isQuoted s = true then s.tail.dropLast else s

/-- Whether a template is one name only: `pureInterpRE`. -/
def isPureInterpolation (s : List Char) : Bool :=
  match GoText.trimSpace s with
  | '$' :: '{' :: rest =>
    let name := rest.dropWhile isBlank
    name.head?.any isIdentStart = true ∧
      (name.dropWhile fun c => isWord c || c = '.').dropWhile isBlank = ['}']
  | _ => false

/-- Whether a text is a name, or names with dots between them: `bareIdentRE`. -/
def isBareIdentifier (s : List Char) : Bool :=
  (s.splitOn '.').all fun name => name.head?.any isIdentStart && name.all isWord

/-- What an argument is. -/
def classifyArg (s : List Char) : ArgKind :=
  if s = [] then .argUnknown
  else if isQuoted s = true then
    if isPureInterpolation (unquote s) = true then .argBareParam else .argLiteral
  else if isBareIdentifier s = true then .argBareParam
  else .argUnknown

/-- A character of `[A-Za-z]`, where case does not matter: two more letters fold to ASCII. -/
def isMethodLetter (c : Char) : Bool := c.isAlpha || c = 'ſ' || c = '\u212a'

/-- `strings.ToUpper`, of such a letter. -/
def upperLetter (c : Char) : Char := if c = 'ſ' then 'S' else c.toUpper

/-- Drop one quote, if there is one. -/
def dropQuote (text : List Char) : List Char :=
  if text.head?.any isQuote = true then text.tail else text

/-- The value of the property `method`, after its name. -/
def methodValue (text : List Char) : Option (List Char) :=
  let colon := (dropQuote text).dropWhile isBlank
  let quote := colon.tail.dropWhile isBlank
  let value := quote.tail.takeWhile isMethodLetter
  if colon.head? = some ':' ∧ quote.head?.any isQuote = true ∧ value ≠ [] ∧
      (quote.tail.drop value.length).head?.any isQuote = true then some value
  else none

/-- The method that the arguments name, in capital letters, or nothing; `before` is the character
before the text. -/
def findMethodProperty : Option Char → List Char → List Char
  | _, [] => []
  | before, c :: text =>
    let rest := (c :: text).drop 6
    if ((c :: text).take 6).map Char.toLower = "method".toList ∧
        isBoundary before (some c) = true ∧ isBoundary (some 'd') rest.head? = true then
      match methodValue rest with
      | some value => value.map upperLetter
      | none => findMethodProperty (some c) text
    else findMethodProperty (some c) text

/-- **The first argument of a call** on a line. -/
def extractFirstCallArg (src : List Char) (line : ℤ) (wrapperName : List Char) : ExtractedArg :=
  if src = [] ∨ wrapperName = [] ∨ line ≤ 0 then {}
  else
    match fromLine src (line - 1).toNat with
    | none => {}
    | some text =>
      let lineSlice := text.takeWhile (· ≠ '\n')
      match afterCall wrapperName none lineSlice with
      | none => {}
      | some rest =>
        match balancedCloseParen .code 1 (rest ++ text.drop lineSlice.length) with
        | none => {}
        | some args =>
          let (first, rest) := splitFirstArg args
          { kind := classifyArg first
            value := unquote first
            method := findMethodProperty none rest }

/-! ### The pass -/

/-- Whether a path is one placeholder, or one literal segment of a word: `wrapperPathRE`. -/
def isWrapperPath (path : String) : Bool :=
  match path.toList with
  | '/' :: rest =>
    let word := if rest.head? = some '{' then rest.tail else rest
    let brace := word.dropWhile isWord
    word.head?.any Char.isAlpha = true ∧ (brace = [] ∨ brace = ['}'])
  | _ => false

/-- Whether a contract is a client of an HTTP route, and of a function. -/
def isClient (c : Contract) : Bool :=
  c.contractType = .http ∧ c.role = Role.consumer ∧ c.symbolID ≠ ""

/-- The functions that seem to pass their path on, by the paths of their contracts. -/
def seedWrappers (ord : GoMap.RangeOrder ContractRegistry) (r : ContractRegistry) : List String :=
  ((r.all ord).filter fun c => isClient c ∧ isWrapperPath (c.metadata.getStr "path")).map
    Contract.symbolID

/-- The contract of a caller, with the path that stands at the call. -/
def inlinedContract (caller : Node) (edge : Edge) (wrapper : String) (arg : ExtractedArg) :
    Contract :=
  let method := if arg.method = [] then "GET" else String.ofList arg.method
  let path := String.ofList (normalizeHTTPPath arg.value)
  { id := "http::" ++ method ++ "::" ++ path
    contractType := .http
    role := Role.consumer
    symbolID := caller.id
    filePath := caller.filePath
    line := edge.line
    repoPrefix := caller.repoPrefix
    metadata := ((((∅ : Metadata).insert "method" (.str method)).insert "path" (.str path)).insert
      "framework" (.str "inlined-wrapper")).insert "wrapper" (.str wrapper)
    confidence := 4 / 5 }

/-- The node of a contract. -/
def contractNode (c : Contract) : Node where
  id := c.id
  kind := .kindContract
  name := c.id
  filePath := c.filePath
  language := "contract"
  repoPrefix := c.repoPrefix
  metadata := ((∅ : Metadata).insert "type" (.str c.contractType.str)).insert "role"
    (.str c.role.str)

/-- The edge from a symbol to a contract it consumes. -/
def consumesEdge (c : Contract) : Edge where
  fromID := c.symbolID
  toID := c.id
  kind := .edgeConsumes
  filePath := c.filePath
  line := c.line

/-- Add the node of a contract, unless there is one. -/
def withContractNode (g : Graph) (c : Contract) : Graph :=
  if (g.getNode c.id).isSome = true then g else g.putNode (contractNode c)

/-- Add a contract to the graph, with an edge from its symbol. -/
def commitInlinedContractToGraph (g : Graph) (c : Contract) : Graph :=
  let g := withContractNode g c
  if c.symbolID = "" ∨ ((g.getOutEdges c.symbolID).any fun r =>
      (g.edge r).kind = .edgeConsumes ∧ (g.edge r).toID = c.id) = true then g
  else g.putEdge (consumesEdge c)

/-- The state of the passes: what has been seen, what the next pass is about, and what has been
added. -/
structure Inlining where
  registry : ContractRegistry
  graph : Graph
  seen : List String
  next : List String
  added : List Contract

variable (read : Node → Option (List Char))

/-- One call of a function. -/
def inlineCall (w : String) (s : Inlining) (edge : Edge) : Inlining :=
  if edge.kind ≠ .edgeCalls then s
  else
    match s.graph.nodeAt edge.fromID, s.graph.nodeAt w with
    | some caller, some wrapperNode =>
      match read caller with
      | none => s
      | some src =>
        let arg := extractFirstCallArg src edge.line wrapperNode.name.toList
        match arg.kind with
        | .argLiteral =>
          let c := inlinedContract caller edge w arg
          { s with
            registry := s.registry.add c
            graph := commitInlinedContractToGraph s.graph c
            added := s.added ++ [c] }
        | .argBareParam =>
          if caller.id ∈ s.seen then s
          else { s with seen := caller.id :: s.seen, next := s.next ++ [caller.id] }
        | .argUnknown => s
    | _, _ => s

/-- All calls of a function. -/
def inlineWrapper (s : Inlining) (w : String) : Inlining :=
  ((s.graph.getInEdges w).map s.graph.edge).foldl (inlineCall read w) s

/-- The passes, so many at most. -/
def inlinePasses : ℕ → List String → Inlining → Inlining
  | 0, _, s => s
  | n + 1, wrappers, s =>
    if wrappers = [] then s
    else
      let s := wrappers.foldl (inlineWrapper read) { s with next := [] }
      inlinePasses n s.next s

/-- **InlineWrappers**: the calls of functions that pass their path on, with at most eight
functions one after the other. -/
def inlineWrappers (ord : GoMap.RangeOrder ContractRegistry) (r : ContractRegistry) (g : Graph) :
    Inlining :=
  inlinePasses read 8 (seedWrappers ord r) ⟨r, g, seedWrappers ord r, [], []⟩

/-! ### Where contracts come from -/

/-- One function calls another. -/
def Calls (g : Graph) (a b : String) : Prop :=
  ∃ e, g.StoredEdge e ∧ e.kind = .edgeCalls ∧ e.fromID = a ∧ e.toID = b

/-- A function calls one of some others, directly or not, or is one of them. -/
def Wraps (g : Graph) (S : String → Prop) (w : String) : Prop :=
  ∃ s, S s ∧ Relation.ReflTransGen (Calls g) w s

/-- A contract is of a call of such a function. -/
def FromCall (g : Graph) (S : String → Prop) (c : Contract) : Prop :=
  ∃ e, g.StoredEdge e ∧ e.kind = .edgeCalls ∧ e.fromID = c.symbolID ∧ e.line = c.line ∧
    Wraps g S e.toID

/-- **What the passes keep**: the edges of the graph are those that it had, but for those to
contracts, and what has been found comes from calls of such functions. -/
structure Inlines (g : Graph) (S : String → Prop) (s : Inlining) : Prop where
  inv : Graph.Inv s.graph
  edges : ∀ e : Edge, e.kind ≠ .edgeConsumes → (s.graph.StoredEdge e ↔ g.StoredEdge e)
  next : ∀ w ∈ s.next, Wraps g S w
  added : ∀ c ∈ s.added, FromCall g S c

variable {read} {g : Graph} {S : String → Prop} {s : Inlining}

theorem inv_withContractNode (h : Graph.Inv g) (c : Contract) :
    Graph.Inv (withContractNode g c) := by
  rw [withContractNode]
  split_ifs
  · exact h
  · exact h.putNode _

theorem storedEdge_withContractNode (g : Graph) (c : Contract) (e : Edge) :
    (withContractNode g c).StoredEdge e ↔ g.StoredEdge e := by
  rw [withContractNode]
  split_ifs
  · exact Iff.rfl
  · exact Graph.storedEdge_putNode ..

theorem inv_commit (h : Graph.Inv g) (c : Contract) :
    Graph.Inv (commitInlinedContractToGraph g c) := by
  rw [commitInlinedContractToGraph]
  split_ifs
  · exact inv_withContractNode h c
  · exact (inv_withContractNode h c).putEdge _

/-- A contract that is added to the graph brings no edge but that of its symbol. -/
theorem storedEdge_commit (h : Graph.Inv g) (c : Contract) {e : Edge}
    (he : e.kind ≠ .edgeConsumes) :
    (commitInlinedContractToGraph g c).StoredEdge e ↔ g.StoredEdge e := by
  rw [commitInlinedContractToGraph]
  split_ifs
  · exact storedEdge_withContractNode g c e
  · rw [(inv_withContractNode h c).storedEdge_putEdge, storedEdge_withContractNode]
    have hne : e ≠ consumesEdge c := fun hc => he (hc ▸ rfl)
    have hkey : keyOf e ≠ keyOf (consumesEdge c) := fun hc => he (congrArg EdgeKey.kind hc)
    simp [hne, hkey]

/-- **What one call can do**: nothing, or add a contract of the caller, or take the caller for a
function that passes its path on. -/
theorem inlineCall_cases (read : Node → Option (List Char)) (hg : Graph.NodeInv s.graph) (w : String) (edge : Edge) :
    inlineCall read w s edge = s ∨
      (edge.kind = .edgeCalls ∧ ∃ c : Contract, c.symbolID = edge.fromID ∧ c.line = edge.line ∧
        inlineCall read w s edge =
          { s with
            registry := s.registry.add c
            graph := commitInlinedContractToGraph s.graph c
            added := s.added ++ [c] }) ∨
      (edge.kind = .edgeCalls ∧ inlineCall read w s edge =
        { s with seen := edge.fromID :: s.seen, next := s.next ++ [edge.fromID] }) := by
  rw [inlineCall]
  split_ifs with hkind
  · exact .inl rfl
  · rw [not_not] at hkind
    cases hcaller : s.graph.nodeAt edge.fromID with
    | none => exact .inl rfl
    | some caller =>
      have hid : caller.id = edge.fromID := hg.id_eq hcaller
      cases hwrapper : s.graph.nodeAt w with
      | none => exact .inl rfl
      | some wrapperNode =>
        cases hsrc : read caller with
        | none =>
          left
          simp only [hsrc]
        | some src =>
          simp only [hsrc]
          cases (extractFirstCallArg src edge.line wrapperNode.name.toList).kind with
          | argUnknown => exact .inl rfl
          | argLiteral => exact .inr (.inl ⟨hkind, _, hid, rfl, rfl⟩)
          | argBareParam =>
            simp only [hid]
            split_ifs
            · exact .inl rfl
            · exact .inr (.inr ⟨hkind, rfl⟩)

/-- **One call keeps it**, if it is one of the graph. -/
theorem Inlines.inlineCall (h : Inlines g S s) {w : String} (hw : Wraps g S w) {edge : Edge}
    (hto : edge.toID = w) (hedge : edge.kind = .edgeCalls → g.StoredEdge edge) :
    Inlines g S (inlineCall read w s edge) := by
  rcases inlineCall_cases read h.inv.nodes w edge with
    heq | ⟨hkind, c, hsymbol, hline, heq⟩ | ⟨hkind, heq⟩
  · rw [heq]
    exact h
  · rw [heq]
    refine ⟨inv_commit h.inv c, fun e he => ?_, h.next, fun c' hc' => ?_⟩
    · rw [storedEdge_commit h.inv c he]
      exact h.edges e he
    · rcases List.mem_append.mp hc' with hc' | hc'
      · exact h.added c' hc'
      · rw [List.mem_singleton.mp hc']
        exact ⟨edge, hedge hkind, hkind, hsymbol.symm, hline.symm, hto ▸ hw⟩
  · rw [heq]
    refine ⟨h.inv, h.edges, fun w' hw' => ?_, h.added⟩
    rcases List.mem_append.mp hw' with hw' | hw'
    · exact h.next w' hw'
    · -- the caller calls a function that wraps one of the others
      rw [List.mem_singleton.mp hw']
      obtain ⟨t, ht, hpath⟩ := hw
      exact ⟨t, ht, .head ⟨edge, hedge hkind, hkind, rfl, hto⟩ hpath⟩

/-- **All calls of a function keep it.** -/
theorem Inlines.inlineWrapper (h : Inlines g S s) {w : String} (hw : Wraps g S w) :
    Inlines g S (inlineWrapper read s w) := by
  refine List.foldl_invariant (P := Inlines g S) (fun s' edge hedge hs' => ?_) h
  obtain ⟨r, hr, rfl⟩ := List.mem_map.mp hedge
  obtain ⟨hto, hstored⟩ := h.inv.edges.mem_getInEdges.mp hr
  refine hs'.inlineCall hw hto fun hkind => ?_
  have hconsumes : (s.graph.edge r).kind ≠ .edgeConsumes := by
    rw [hkind]
    exact EdgeKind.noConfusion
  exact (h.edges _ hconsumes).mp ((h.inv.edges.both r).mpr hstored).storedEdge

/-- **The passes keep it.** -/
theorem Inlines.inlinePasses (n : ℕ) {wrappers : List String} (h : Inlines g S s)
    (hwrappers : ∀ w ∈ wrappers, Wraps g S w) : Inlines g S (inlinePasses read n wrappers s) := by
  induction n generalizing wrappers s with
  | zero => exact h
  | succ n ih =>
    rw [Contracts.inlinePasses]
    split_ifs
    · exact h
    · have hstart : Inlines g S { s with next := [] } :=
        ⟨h.inv, h.edges, fun w hw => absurd hw List.not_mem_nil, h.added⟩
      have hpass : Inlines g S
          (wrappers.foldl (Contracts.inlineWrapper read) { s with next := [] }) :=
        List.foldl_invariant (P := Inlines g S)
          (fun s' w hw hs' => hs'.inlineWrapper (hwrappers w hw)) hstart
      exact ih hpass hpass.next

/-- **The pass keeps it**, if it starts from such functions. -/
theorem Inlines.inlineWrappers (hg : Graph.Inv g) (read : Node → Option (List Char))
    {ord : GoMap.RangeOrder ContractRegistry} {r : ContractRegistry}
    (hseeds : ∀ w ∈ seedWrappers ord r, Wraps g S w) :
    Inlines g S (inlineWrappers read ord r g) :=
  have hstart : Inlines g S ⟨r, g, seedWrappers ord r, [], []⟩ :=
    ⟨hg, fun _ _ => Iff.rfl, fun _ hw => absurd hw List.not_mem_nil,
      fun _ hc => absurd hc List.not_mem_nil⟩
  hstart.inlinePasses 8 hseeds

/-! ### The pattern -/

/-- **A path that is one placeholder**, in braces. -/
def SinglePlaceholder (path : String) : Prop :=
  ∃ w : List Char, path.toList = '/' :: '{' :: (w ++ ['}']) ∧ ∀ c ∈ w, c ∉ ['/', '{', '}']

/-- **A path of one segment that is a word**, or that lacks a brace. -/
def LoneSegment (path : String) : Prop :=
  ∃ w : List Char, (∀ c ∈ w, isWord c = true) ∧ w.head?.any Char.isAlpha = true ∧
    (path.toList = '/' :: w ∨ path.toList = '/' :: '{' :: w ∨ path.toList = '/' :: (w ++ ['}']))

/-- A word that starts with a letter starts with none of the characters of a placeholder. -/
theorem head_ne_of_isAlpha {w t : List Char} (hw : w.head?.any Char.isAlpha = true) {c : Char}
    (hc : c.isAlpha = false) : (w ++ t).head? ≠ some c := by
  cases w with
  | nil => exact absurd hw Bool.false_ne_true
  | cons d w =>
    intro hd
    obtain rfl : d = c := Option.some.inj hd
    exact Bool.false_ne_true (hc.symm.trans hw)

/-- A word that starts with a letter, before a brace or nothing. -/
theorem isWrapperWord {w brace : List Char} (hword : ∀ c ∈ w, isWord c = true)
    (hhead : w.head?.any Char.isAlpha = true) (hbrace : brace = [] ∨ brace = ['}']) :
    (w ++ brace).head?.any Char.isAlpha = true ∧
      ((w ++ brace).dropWhile isWord = [] ∨ (w ++ brace).dropWhile isWord = ['}']) := by
  have hnot : ∀ c ∈ brace.head?, isWord c = false := by
    rcases hbrace with rfl | rfl
    · exact fun c hc => absurd hc (by simp)
    · intro c hc
      obtain rfl := Option.some.inj hc
      decide
  rw [dropWhile_append hword hnot]
  refine ⟨?_, hbrace⟩
  cases w with
  | nil => exact absurd hhead Bool.false_ne_true
  | cons c w => exact hhead

/-- **What the pattern accepts**: a word after the slash, that starts with a letter, with an
opening and a closing brace or not. -/
theorem isWrapperPath_iff {path : String} : isWrapperPath path = true ↔
    ∃ w opening closing : List Char, (∀ c ∈ w, isWord c = true) ∧
      w.head?.any Char.isAlpha = true ∧ (opening = [] ∨ opening = ['{']) ∧
      (closing = [] ∨ closing = ['}']) ∧ path.toList = '/' :: (opening ++ (w ++ closing)) := by
  constructor
  · intro h
    rw [isWrapperPath] at h
    split at h
    · rename_i rest hpath
      obtain ⟨hhead, hbrace⟩ := of_decide_eq_true h
      have hsplit := fun l : List Char =>
        (List.takeWhile_append_dropWhile (p := isWord) (l := l)).symm
      -- the word that is read begins with the letter that was tested
      have hfirst : ∀ l : List Char, l.head?.any Char.isAlpha = true →
          (l.takeWhile isWord).head?.any Char.isAlpha = true := by
        intro l hl
        cases l with
        | nil => exact hl
        | cons c l =>
          have hc : isWord c = true := by
            rw [isWord, Char.isAlphanum, show c.isAlpha = true from hl, Bool.true_or, Bool.true_or]
          rw [List.takeWhile_cons_of_pos hc]
          exact hl
      split_ifs at hhead hbrace with hopen
      · refine ⟨_, ['{'], _, fun c hc => List.mem_takeWhile_imp hc, hfirst _ hhead, .inr rfl,
          hbrace, ?_⟩
        rw [hpath, ← hsplit]
        cases rest with
        | nil => exact absurd hopen (by simp)
        | cons c rest =>
          obtain rfl := Option.some.inj hopen
          rfl
      · refine ⟨_, [], _, fun c hc => List.mem_takeWhile_imp hc, hfirst _ hhead, .inl rfl,
          hbrace, ?_⟩
        rw [hpath, ← hsplit]
        rfl
    · exact absurd h Bool.false_ne_true
  · rintro ⟨w, opening, closing, hword, hhead, hopening, hclosing, hpath⟩
    rw [isWrapperPath, hpath]
    refine decide_eq_true ?_
    rcases hopening with rfl | rfl
    · rw [List.nil_append, if_neg (head_ne_of_isAlpha hhead (by decide))]
      exact isWrapperWord hword hhead hclosing
    · have haccepted := isWrapperWord hword hhead hclosing
      rw [if_pos (show (['{'] ++ (w ++ closing)).head? = some '{' from rfl)]
      exact haccepted

/-- A segment without one of the braces is accepted, and is no placeholder. -/
theorem LoneSegment.accepted {path : String} (h : LoneSegment path) :
    isWrapperPath path = true ∧ ¬SinglePlaceholder path := by
  obtain ⟨w, hword, hhead, hpath⟩ := h
  have hbrace : ∀ {c}, isWord c = false → c ∉ w := fun hc hmem =>
    Bool.false_ne_true (hc.symm.trans (hword _ hmem))
  constructor
  · rw [isWrapperPath_iff]
    rcases hpath with hpath | hpath | hpath
    · exact ⟨w, [], [], hword, hhead, .inl rfl, .inl rfl, by rw [hpath]; simp⟩
    · exact ⟨w, ['{'], [], hword, hhead, .inr rfl, .inl rfl, by rw [hpath]; simp⟩
    · exact ⟨w, [], ['}'], hword, hhead, .inl rfl, .inr rfl, by rw [hpath]; simp⟩
  · rintro ⟨w', hpath', -⟩
    rcases hpath with hpath | hpath | hpath
    · have hw : w ++ [] = '{' :: (w' ++ ['}']) := by
        rw [List.append_nil]
        exact (List.cons.inj (hpath.symm.trans hpath')).2
      exact head_ne_of_isAlpha hhead (by decide) (congrArg List.head? hw)
    · have hw : w = w' ++ ['}'] :=
        (List.cons.inj (List.cons.inj (hpath.symm.trans hpath')).2).2
      exact hbrace (c := '}') (by decide) (hw ▸ List.mem_append_right _ List.mem_cons_self)
    · have hw := (List.cons.inj (hpath.symm.trans hpath')).2
      exact head_ne_of_isAlpha hhead (by decide) (congrArg List.head? hw)

/-- What is accepted otherwise is one placeholder. -/
theorem singlePlaceholder_of_accepted {path : String} (h : isWrapperPath path = true)
    (hlone : ¬LoneSegment path) : SinglePlaceholder path := by
  obtain ⟨w, opening, closing, hword, hhead, hopening, hclosing, hpath⟩ := isWrapperPath_iff.mp h
  rcases hopening with rfl | rfl
  · rcases hclosing with rfl | rfl
    · exact absurd ⟨w, hword, hhead, .inl (by rw [hpath]; simp)⟩ hlone
    · exact absurd ⟨w, hword, hhead, .inr (.inr (by rw [hpath]; simp))⟩ hlone
  · rcases hclosing with rfl | rfl
    · exact absurd ⟨w, hword, hhead, .inr (.inl (by rw [hpath]; simp))⟩ hlone
    · refine ⟨w, hpath, fun c hc hmem => ?_⟩
      have hnot : ∀ d ∈ ['/', '{', '}'], isWord d = false :=
        List.all_iff_forall_prop.mp (by decide)
      exact Bool.false_ne_true ((hnot c hmem).symm.trans (hword c hc))

/-! ### Soundness -/

/-- A function that passes its path on: it has a contract of which the path is one placeholder. -/
def PassesOn (ord : GoMap.RangeOrder ContractRegistry) (r : ContractRegistry) (symbolID : String) :
    Prop :=
  ∃ c ∈ r.all ord, isClient c = true ∧ c.symbolID = symbolID ∧
    SinglePlaceholder (c.metadata.getStr "path")

/-- **The inlining is sound**: what is added comes from a call of a function that passes its path
on, or that calls such a function, directly or not; and no contract of another path makes its
function one of these. -/
structure SoundInlining (read : Node → Option (List Char))
    (ord : GoMap.RangeOrder ContractRegistry) (r : ContractRegistry) (g : Graph) : Prop where
  added : ∀ c ∈ (inlineWrappers read ord r g).added, FromCall g (PassesOn ord r) c
  seeds : ∀ c ∈ r.all ord, isClient c = true → ¬SinglePlaceholder (c.metadata.getStr "path") →
    isWrapperPath (c.metadata.getStr "path") = false

/-- **The inlining is sound exactly if no client has a path of one literal segment**, or of a
segment with one brace only. -/
theorem inlineWrappers_sound_iff (hg : Graph.Inv g) (read : Node → Option (List Char))
    (ord : GoMap.RangeOrder ContractRegistry) (r : ContractRegistry) :
    SoundInlining read ord r g ↔
      ∀ c ∈ r.all ord, isClient c = true → ¬LoneSegment (c.metadata.getStr "path") := by
  constructor
  · intro h c hc hclient hlone
    obtain ⟨haccepted, hnot⟩ := hlone.accepted
    exact Bool.false_ne_true ((h.seeds c hc hclient hnot).symm.trans haccepted)
  · intro h
    have hseeds : ∀ w ∈ seedWrappers ord r, Wraps g (PassesOn ord r) w := by
      intro w hw
      obtain ⟨c, hc, rfl⟩ := List.mem_map.mp hw
      obtain ⟨hc, hseed⟩ := List.mem_filter.mp hc
      obtain ⟨hclient, hpath⟩ := of_decide_eq_true hseed
      exact ⟨_, ⟨c, hc, hclient, rfl, singlePlaceholder_of_accepted hpath (h c hc hclient)⟩, .refl⟩
    refine ⟨(Inlines.inlineWrappers hg read hseeds).added, fun c hc hclient hnot => ?_⟩
    by_contra haccepted
    rw [Bool.not_eq_false] at haccepted
    exact hnot (singlePlaceholder_of_accepted haccepted (h c hc hclient))

namespace Client

/-- A function of a client. -/
def function (name : String) : Node where
  id := "web/api.ts::" ++ name
  kind := .kindFunction
  name := name
  filePath := "web/api.ts"
  repoPrefix := "web"

/-- One function that calls another one. -/
def graph (callee : String) : Graph :=
  ((Graph.new.putNode (function "load")).putNode (function callee)).putEdge
    { fromID := "web/api.ts::load"
      toID := "web/api.ts::" ++ callee
      kind := .edgeCalls
      filePath := "web/api.ts"
      line := 1 }

theorem inv_graph (callee : String) : Graph.Inv (graph callee) :=
  ((Graph.Inv.new.putNode _).putNode _).putEdge _

/-- The contract of a function, with a path. -/
def contract (callee path : String) : Contract where
  id := "http::GET::" ++ path
  contractType := .http
  role := .consumer
  symbolID := "web/api.ts::" ++ callee
  filePath := "web/api.ts"
  line := 5
  repoPrefix := "web"
  metadata := (∅ : Metadata).insert "path" (.str path)
  confidence := 1

def registry (callee path : String) : ContractRegistry :=
  ({} : ContractRegistry).add (contract callee path)

/-- A function that passes its path on is called with one. -/
theorem inlineWrappers_sound_request :
    SoundInlining (fun _ => some "request('/v1/me')".toList) .default
        (registry "request" "/{p1}") (graph "request") ∧
      ((inlineWrappers (fun _ => some "request('/v1/me')".toList) .default
        (registry "request" "/{p1}") (graph "request")).added.map Contract.id) =
          ["http::GET::/v1/me"] := by
  refine ⟨(inlineWrappers_sound_iff (inv_graph "request") _ .default _).mpr fun c hc _ hlone => ?_,
    by decide +kernel⟩
  obtain rfl := List.mem_singleton.mp hc
  exact hlone.accepted.2 ⟨"p1".toList, by decide +kernel,
    List.all_iff_forall_prop.mp (by decide +kernel)⟩

/-- **A client of a literal path is taken for a function that passes its path on**, and its caller
becomes a client of what it calls it with. -/
theorem not_soundInlining_users :
    ¬SoundInlining (fun _ => some "users('en')".toList) .default
      (registry "users" "/users") (graph "users") := by
  intro h
  have hadded : (inlineWrappers (fun _ => some "users('en')".toList) .default
      (registry "users" "/users") (graph "users")).added.map Contract.id = ["http::GET::/en"] := by
    decide +kernel
  obtain ⟨c, hc, -⟩ := List.mem_map.mp (hadded ▸ List.mem_singleton_self _)
  obtain ⟨e, -, -, -, -, s, ⟨c', hc', -, -, hplaceholder⟩, -⟩ := h.added c hc
  obtain rfl := List.mem_singleton.mp hc'
  have hlone : LoneSegment "/users" := ⟨"users".toList,
    List.all_iff_forall_prop.mp (by decide +kernel), by decide +kernel,
    .inl (by decide +kernel)⟩
  exact hlone.accepted.2 hplaceholder

end Client

end Contracts

end Gortex
