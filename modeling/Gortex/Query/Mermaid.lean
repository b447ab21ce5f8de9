import Gortex.Lib.Rewrite
import Gortex.Query.Engine

/-!
# Mermaid diagrams

`SubGraph.ToMermaid` of `internal/query/subgraph.go`. A diagram knows a node by the identifier
that `mermaidID` makes of its ID: every separator of the ID, `::` among them, becomes an
underscore. Two IDs that differ in nothing but which separators they have, or in a separator and
an underscore, are one node of the diagram, with the edges of both. `ToDot` next to it quotes
the ID itself.

The diagram is faithful iff no two IDs of the subgraph are alike in this sense
(`Gortex.Mermaid.drawnExactly_iff`).
-/

namespace Gortex

open Rewrite

/-! ### Identifiers and labels -/

/-- What `mermaidID` replaces. -/
def mermaidOldNew : List (List Char × List Char) :=
  [([':', ':'], ['_']), (['/'], ['_']), (['.'], ['_']), (['-'], ['_']), ([' '], ['_']),
    (['<'], ['_']), (['>'], ['_']), (['('], ['_']), ([')'], ['_'])]

/-- A node ID as a Mermaid identifier. -/
def mermaidID (id : String) : String := String.ofList (newReplacer mermaidOldNew id.toList)

/-- A label without the quotes that would end it. -/
def mermaidEscape (s : String) : String :=
  String.ofList (s.toList.flatMap fun c => if c = '\"' then "#quot;".toList else [c])

/-! ### The text of a diagram -/

/-- What stands around the label of a node. -/
def mermaidShape : NodeKind → String × String
  | .kindFunction | .kindMethod => ("([\"", "\"])")
  | .kindVariable => (">\"", "\"]")
  | .kindPackage => ("\x7b\"", "\"\x7d")
  | _ => ("[\"", "\"]")

/-- The line of a node. -/
def mermaidNodeLine (n : Node) : String :=
  "  " ++ mermaidID n.id ++ (mermaidShape n.kind).1 ++
    mermaidEscape (n.name ++ "\n" ++ n.kind.str) ++ (mermaidShape n.kind).2 ++ "\n"

/-- The arrow of an edge. -/
def edgeStyle : EdgeKind → String
  | .edgeImports => "-.->"
  | .edgeImplements => "-. implements .->"
  | .edgeExtends => "-. extends .->"
  | .edgeInstantiates => "-. new .->"
  | _ => "-->"

/-- An arrow, with the kind of the edge where the arrow does not say it. -/
def edgeArrow (kind : EdgeKind) : String :=
  if edgeStyle kind = "-->" ∨ edgeStyle kind = "-.->" then
    edgeStyle kind ++ "|" ++ kind.str ++ "|"
  else edgeStyle kind

/-- The line of an edge. -/
def mermaidEdgeLine (e : Edge) : String :=
  "  " ++ mermaidID e.fromID ++ " " ++ edgeArrow e.kind ++ " " ++ mermaidID e.toID ++ "\n"

/-- The colours of a kind of nodes; there is none for a contract. -/
def kindCSS : NodeKind → String
  | .kindFile => "fill:#607D8B,color:#fff"
  | .kindPackage => "fill:#bb9af7,color:#fff"
  | .kindFunction => "fill:#7aa2f7,color:#fff"
  | .kindMethod => "fill:#7dcfff,color:#fff"
  | .kindType => "fill:#9ece6a,color:#fff"
  | .kindInterface => "fill:#73daca,color:#fff"
  | .kindVariable => "fill:#ff9e64,color:#fff"
  | .kindImport => "fill:#795548,color:#fff"
  | .kindContract => ""

/-- The identifiers of the nodes of every kind. -/
def mermaidByKind (nodes : List Node) : GoMap NodeKind (List String) :=
  nodes.foldl
    (fun m n => m.insert n.kind ((m.lookup n.kind).getD [] ++ [mermaidID n.id])) ∅

/-- The lines that colour the nodes of a kind. -/
def classLines (kind : NodeKind) (ids : List String) : String :=
  if kindCSS kind = "" then ""
  else "  classDef " ++ kind.str ++ " " ++ kindCSS kind ++ "\n" ++
    "  class " ++ ",".intercalate ids ++ " " ++ kind.str ++ "\n"

/-- The nodes of a subgraph. -/
def SubGraph.nodesIn (g : Graph) (sg : SubGraph) : List Node := sg.nodes.map g.node

/-- The edges of a subgraph. -/
def SubGraph.edgesIn (g : Graph) (sg : SubGraph) : List Edge := sg.edges.map g.edge

/-- **`ToMermaid`.** -/
def SubGraph.toMermaid (ord : MapOrder) (g : Graph) (sg : SubGraph) : String :=
  "graph LR\n" ++ String.join ((sg.nodesIn g).map mermaidNodeLine) ++ "\n" ++
    String.join ((sg.edgesIn g).map mermaidEdgeLine) ++ "\n" ++
    String.join ((ord.order g (mermaidByKind (sg.nodesIn g)).pairs).map fun p => classLines p.1 p.2)

namespace Mermaid

/-! ### The diagram -/

/-- A node of a diagram: its identifier, its shape and its label. -/
structure Box where
  id : String
  shape : String × String
  label : String
deriving DecidableEq

/-- An edge of a diagram: the identifiers of its ends, and its arrow. -/
structure Arrow where
  tail : String
  head : String
  arrow : String
deriving DecidableEq

/-- The line that declares a node. -/
def Box.line (b : Box) : String := "  " ++ b.id ++ b.shape.1 ++ b.label ++ b.shape.2 ++ "\n"

/-- The line that declares an edge. -/
def Arrow.line (a : Arrow) : String := "  " ++ a.tail ++ " " ++ a.arrow ++ " " ++ a.head ++ "\n"

/-- A node under an identifier. -/
def boxAt (id : String) (n : Node) : Box :=
  ⟨id, mermaidShape n.kind, mermaidEscape (n.name ++ "\n" ++ n.kind.str)⟩

/-- An edge between two identifiers. -/
def arrowAt (tail head : String) (e : Edge) : Arrow := ⟨tail, head, edgeArrow e.kind⟩

/-- The nodes that are drawn. -/
def boxes (nodes : List Node) : List Box := nodes.map fun n => boxAt (mermaidID n.id) n

/-- The edges that are drawn. -/
def arrows (edges : List Edge) : List Arrow :=
  edges.map fun e => arrowAt (mermaidID e.fromID) (mermaidID e.toID) e

/-- **The text is that of the diagram.** -/
theorem toMermaid_eq (ord : MapOrder) (g : Graph) (sg : SubGraph) :
    sg.toMermaid ord g = "graph LR\n" ++ String.join ((boxes (sg.nodesIn g)).map Box.line) ++
      "\n" ++ String.join ((arrows (sg.edgesIn g)).map Arrow.line) ++ "\n" ++
      String.join ((ord.order g (mermaidByKind (sg.nodesIn g)).pairs).map
        fun p => classLines p.1 p.2) := by
  have hboxes : (boxes (sg.nodesIn g)).map Box.line = (sg.nodesIn g).map mermaidNodeLine :=
    List.map_map
  have harrows : (arrows (sg.edgesIn g)).map Arrow.line = (sg.edgesIn g).map mermaidEdgeLine :=
    List.map_map
  rw [hboxes, harrows]
  rfl

/-- The IDs of a subgraph: those of its nodes and of the ends of its edges. -/
def ids (g : Graph) (sg : SubGraph) : List String :=
  (sg.nodesIn g).map Node.id ++ (sg.edgesIn g).flatMap fun e => [e.fromID, e.toID]

/-- **The diagram is the subgraph**: different IDs are different nodes, and what is drawn at an
identifier, and between two, are the nodes of the ID and the edges between the two IDs. -/
structure DrawnExactly (g : Graph) (sg : SubGraph) : Prop where
  distinct : ∀ a ∈ ids g sg, ∀ b ∈ ids g sg, a ≠ b → mermaidID a ≠ mermaidID b
  boxes : ∀ a ∈ ids g sg, (boxes (sg.nodesIn g)).filter (fun x => x.id = mermaidID a) =
    ((sg.nodesIn g).filter fun n => n.id = a).map (boxAt (mermaidID a))
  arrows : ∀ a ∈ ids g sg, ∀ b ∈ ids g sg,
    (arrows (sg.edgesIn g)).filter (fun x => x.tail = mermaidID a ∧ x.head = mermaidID b) =
      ((sg.edgesIn g).filter fun e => e.fromID = a ∧ e.toID = b).map
        (arrowAt (mermaidID a) (mermaidID b))

/-! ### Identifiers that meet -/

/-- A piece of an ID, as the replacer reads it: two colons, or a character. -/
inductive Piece
  | colons
  | char (c : Char)
deriving DecidableEq

/-- The pieces of an ID. -/
def pieces : List Char → List Piece
  | ':' :: ':' :: l => .colons :: pieces l
  | c :: l => .char c :: pieces l
  | [] => []

/-- The characters that are not told apart. -/
def separators : List Char := ['/', '.', '-', ' ', '<', '>', '(', ')', '_']

/-- Whether a piece separates: two colons, or one of the characters. -/
def Piece.isSeparator : Piece → Bool
  | .colons => true
  | .char c => c ∈ separators

/-- **Two IDs that differ in nothing but their separators.** -/
def Alike (a b : String) : Prop :=
  List.Forall₂ (fun x y => x = y ∨ (x.isSeparator = true ∧ y.isSeparator = true))
    (pieces a.toList) (pieces b.toList)

instance (a b : String) : Decidable (Alike a b) := inferInstanceAs (Decidable (List.Forall₂ ..))

/-- The character a piece becomes. -/
def Piece.glyph : Piece → Char
  | .colons => '_'
  | .char c => if c ∈ separators then '_' else c

/-- Two pieces become the same character iff they are the same or both separate. -/
theorem Piece.glyph_eq_iff {x y : Piece} :
    x.glyph = y.glyph ↔ x = y ∨ (x.isSeparator = true ∧ y.isSeparator = true) := by
  have hbar : '_' ∈ separators := by decide
  cases x with
  | colons =>
    cases y with
    | colons => simp
    | char d =>
      by_cases hd : d ∈ separators
      · simp [glyph, isSeparator, hd]
      · have hne : '_' ≠ d := fun h => hd (h ▸ hbar)
        simp [glyph, isSeparator, hd, hne]
  | char c =>
    by_cases hc : c ∈ separators
    · cases y with
      | colons => simp [glyph, isSeparator, hc]
      | char d =>
        by_cases hd : d ∈ separators
        · simp [glyph, isSeparator, hc, hd]
        · have hne : '_' ≠ d := fun h => hd (h ▸ hbar)
          have hcd : c ≠ d := fun h => hd (h ▸ hc)
          simp [glyph, isSeparator, hc, hd, hne, hcd]
    · cases y with
      | colons =>
        have hne : c ≠ '_' := fun h => hc (h ▸ hbar)
        simp [glyph, isSeparator, hc, hne]
      | char d =>
        by_cases hd : d ∈ separators
        · have hne : c ≠ '_' := fun h => hc (h ▸ hbar)
          have hcd : c ≠ d := fun h => hc (h ▸ hd)
          simp [glyph, isSeparator, hc, hd, hne, hcd]
        · simp [glyph, isSeparator, hc, hd]

theorem pieces_char {c : Char} {l : List Char} (h : ∀ t, c = ':' → l = ':' :: t → False) :
    pieces (c :: l) = .char c :: pieces l := by
  rw [pieces]
  exact h

/-- Where no two colons stand, every character but a separator is kept. -/
theorem newReplacer_char {c : Char} {l : List Char} (h : ∀ t, c = ':' → l = ':' :: t → False) :
    newReplacer mermaidOldNew (c :: l) =
      (Piece.char c).glyph :: newReplacer mermaidOldNew l := by
  by_cases hc : c ∈ separators
  · have hglyph : (Piece.char c).glyph = '_' := if_pos hc
    rw [hglyph]
    simp only [separators, List.mem_cons, List.not_mem_nil, or_false] at hc
    -- the underscore is no old word, and stays what it is
    rcases hc with rfl | rfl | rfl | rfl | rfl | rfl | rfl | rfl | rfl
    case inr.inr.inr.inr.inr.inr.inr.inr => exact newReplacer_of_none rfl
    all_goals exact newReplacer_cons_of_old fun t => rfl
  · have hglyph : (Piece.char c).glyph = c := if_neg hc
    rw [hglyph]
    refine newReplacer_of_none (List.find?_eq_none.mpr fun p hp hpre => ?_)
    rw [List.isPrefixOf_iff_prefix] at hpre
    obtain ⟨t, ht⟩ := hpre
    rcases List.mem_cons.mp hp with rfl | hp
    · obtain ⟨hcolon, ht⟩ := List.cons.inj ht
      exact h t hcolon.symm ht.symm
    · -- every other old word is one of the separators
      have hone : ∀ p ∈ mermaidOldNew.tail, p.1 ∈ separators.map List.singleton := by decide
      obtain ⟨d, hd, hpd⟩ := List.mem_map.mp (hone p hp)
      rw [← hpd] at ht
      exact hc ((List.cons.inj ht).1 ▸ hd)

/-- **What `mermaidID` makes of an ID**: one character for every piece of it. -/
theorem newReplacer_mermaidOldNew (l : List Char) :
    newReplacer mermaidOldNew l = (pieces l).map Piece.glyph := by
  induction l using pieces.induct with
  | case1 l ih =>
    rw [pieces, List.map_cons, ← ih]
    have hcolons : ∀ t, oldAt mermaidOldNew ([':', ':'] ++ t) = some ([':', ':'], ['_']) :=
      fun _ => rfl
    exact newReplacer_of_old (List.cons_ne_nil ':' [':']) hcolons
  | case2 c l h ih => rw [pieces_char h, List.map_cons, ← ih, newReplacer_char h]
  | case3 => rfl

/-- **Two IDs have one identifier iff they are alike.** -/
theorem mermaidID_eq_iff {a b : String} : mermaidID a = mermaidID b ↔ Alike a b := by
  rw [mermaidID, mermaidID, String.ofList_inj, newReplacer_mermaidOldNew,
    newReplacer_mermaidOldNew, Alike, ← List.forall₂_eq_eq_eq, List.forall₂_map_left_iff,
    List.forall₂_map_right_iff]
  simp only [Piece.glyph_eq_iff]

/-! ### Faithful diagrams -/

variable {g : Graph} {sg : SubGraph}

theorem mem_ids_of_node {n : Node} (h : n ∈ sg.nodesIn g) : n.id ∈ ids g sg :=
  List.mem_append_left _ (List.mem_map_of_mem h)

theorem mem_ids_of_edge {e : Edge} (h : e ∈ sg.edgesIn g) :
    e.fromID ∈ ids g sg ∧ e.toID ∈ ids g sg :=
  ⟨List.mem_append_right _ (List.mem_flatMap.mpr ⟨e, h, List.mem_cons_self⟩),
    List.mem_append_right _
      (List.mem_flatMap.mpr ⟨e, h, List.mem_cons_of_mem _ List.mem_cons_self⟩)⟩

/-- **Different identifiers are enough**: what is drawn at them is then theirs alone. -/
theorem drawnExactly_of_injective
    (h : ∀ a ∈ ids g sg, ∀ b ∈ ids g sg, mermaidID a = mermaidID b → a = b) :
    DrawnExactly g sg where
  distinct a ha b hb hab heq := hab (h a ha b hb heq)
  boxes a ha := by
    rw [Mermaid.boxes, List.filter_map]
    have hfilter : (sg.nodesIn g).filter ((fun x => decide (x.id = mermaidID a)) ∘
        fun n => boxAt (mermaidID n.id) n) = (sg.nodesIn g).filter fun n => n.id = a := by
      refine List.filter_congr fun n hn => decide_eq_decide.mpr ⟨fun heq => ?_, fun heq => ?_⟩
      · exact h n.id (mem_ids_of_node hn) a ha heq
      · exact congrArg mermaidID heq
    rw [hfilter]
    refine List.map_congr_left fun n hn => ?_
    rw [of_decide_eq_true (List.mem_filter.mp hn).2]
  arrows a ha b hb := by
    rw [Mermaid.arrows, List.filter_map]
    have hfilter : (sg.edgesIn g).filter
        ((fun x => decide (x.tail = mermaidID a ∧ x.head = mermaidID b)) ∘
          fun e => arrowAt (mermaidID e.fromID) (mermaidID e.toID) e) =
        (sg.edgesIn g).filter fun e => e.fromID = a ∧ e.toID = b := by
      refine List.filter_congr fun e he => decide_eq_decide.mpr ⟨fun heq => ?_, fun heq => ?_⟩
      · have hids := mem_ids_of_edge he
        exact ⟨h _ hids.1 a ha heq.1, h _ hids.2 b hb heq.2⟩
      · exact ⟨congrArg mermaidID heq.1, congrArg mermaidID heq.2⟩
    rw [hfilter]
    refine List.map_congr_left fun e he => ?_
    have hends := of_decide_eq_true (List.mem_filter.mp he).2
    rw [hends.1, hends.2]

/-- **The diagram is the subgraph iff no two IDs of it are alike.** -/
theorem drawnExactly_iff (g : Graph) (sg : SubGraph) :
    DrawnExactly g sg ↔ ∀ a ∈ ids g sg, ∀ b ∈ ids g sg, Alike a b → a = b := by
  constructor
  · intro h a ha b hb hab
    by_contra hne
    exact h.distinct a ha b hb hne (mermaidID_eq_iff.mpr hab)
  · intro h
    exact drawnExactly_of_injective fun a ha b hb heq => h a ha b hb (mermaidID_eq_iff.mp heq)

/-! ### A method and a function -/

namespace TwoSymbols

/-- A method `Get` of a type `Store`. -/
def method : Node where
  id := "store.go::Store.Get"
  kind := .kindMethod
  name := "Get"
  filePath := "store.go"

/-- A function of the same file that is called `Store_Get`. -/
def function : Node where
  id := "store.go::Store_Get"
  kind := .kindFunction
  name := "Store_Get"
  filePath := "store.go"

/-- The method calls the function. -/
def call : Edge where
  fromID := method.id
  toID := function.id
  kind := .edgeCalls

/-- The graph of the two. -/
def graph : Graph := ((Graph.new.putNode method).putNode function).putEdge call

/-- The subgraph of all its nodes and edges. -/
def subGraph : SubGraph where
  nodes := [⟨0⟩, ⟨1⟩]
  edges := [⟨0⟩]
  totalNodes := 2
  totalEdges := 1

/-- The call is drawn from a node to itself. -/
example : (arrows (subGraph.edgesIn graph)).map (fun a => (a.tail, a.head)) =
    [("store_go_Store_Get", "store_go_Store_Get")] := by decide

/-- **The diagram has one node for the two symbols.** -/
theorem not_drawnExactly : ¬DrawnExactly graph subGraph := fun h =>
  h.distinct method.id (by decide) function.id (by decide) (by decide) (by decide)

end TwoSymbols

end Mermaid

end Gortex
