import Mathlib.Data.Prod.Lex
import Mathlib.Data.String.Basic
import Mathlib.Logic.Relation
import Mathlib.Tactic.IntervalCases
import Gortex.Lib.GoBytes
import Gortex.Lib.Sorting
import Gortex.Query.Engine

/-!
# The order of a batch of edits

The first half of `handleBatchEdit` of `internal/mcp/tools_enhancements.go`: the edits are put
in an order in which a symbol comes before the symbols that depend on it. Each edit gets a
number on its own: types and interfaces come first, then functions that another edited symbol
calls, then the other functions, and then everything else; edits of one number go by file. That
a function calls others does not move it behind them, so a chain of calls is in order just
where the numbers and the names of the files happen to put it so
(`Gortex.Mcp.dependencyOrder_iff`).
-/

namespace Gortex

namespace Mcp

open GoBytes

/-! ### The model -/

/-- One edit of a batch. -/
structure BatchEditItem where
  symbolID : String
  oldSource : Bytes
  newSource : Bytes
deriving DecidableEq

/-- An edit with its number and its file (`editWithOrder`). -/
structure EditWithOrder where
  edit : BatchEditItem
  order : ℕ
  file : String
deriving DecidableEq

/-- The options the callers are asked for with. -/
def callerOptions : QueryOptions := { depth := 1, limit := 100, detail := "brief" }

/-- One of the other edits: whether its symbol is a caller. The query takes the metadata from the
nodes it lists. -/
def findCaller (id : String) (st : Graph × Bool) (other : BatchEditItem) : Graph × Bool :=
  if other.symbolID = id then st
  else
    let (g, callers) := getCallers st.1 id callerOptions
    (g, st.2 || callers.nodes.any fun r => (g.node r).id = other.symbolID)

/-- The number and the file of an edit. -/
def editOrder (edits : List BatchEditItem) (g : Graph) (edit : BatchEditItem) :
    Graph × EditWithOrder :=
  match g.nodeAt edit.symbolID with
  | none => (g, ⟨edit, 50, ""⟩)
  | some node =>
    if node.kind = .kindInterface ∨ node.kind = .kindType then (g, ⟨edit, 0, node.filePath⟩)
    else if node.kind = .kindFunction ∨ node.kind = .kindMethod then
      let (g, called) := edits.foldl (findCaller edit.symbolID) (g, false)
      (g, ⟨edit, if called then 10 else 20, node.filePath⟩)
    else (g, ⟨edit, 50, node.filePath⟩)

/-- Which edit comes first. -/
def editLess (a b : EditWithOrder) : Bool :=
  if a.order ≠ b.order then a.order < b.order else a.file < b.file

/-- The edits in order (`ordered`). -/
def orderEdits (g : Graph) (edits : List BatchEditItem) : Graph × List EditWithOrder :=
  let (g, ordered) := edits.foldl (fun st edit =>
    let (g, o) := editOrder edits st.1 edit
    (g, st.2 ++ [o])) (g, [])
  (g, ordered.mergeSort fun a b => !editLess b a)

/-! ### Queries for callers -/

section Strip

variable {g : Graph}

/-- A node without its metadata. -/
def stripped (n : Node) : Node := { n with metadata := ∅ }

theorem id_of_stripped {n n' : Node} (h : stripped n = stripped n') : n.id = n'.id :=
  show (stripped n).id = (stripped n').id by rw [h]

theorem kind_of_stripped {n n' : Node} (h : stripped n = stripped n') : n.kind = n'.kind :=
  show (stripped n).kind = (stripped n').kind by rw [h]

theorem filePath_of_stripped {n n' : Node} (h : stripped n = stripped n') :
    n.filePath = n'.filePath :=
  show (stripped n).filePath = (stripped n').filePath by rw [h]

/-- **Only metadata differs.** -/
def MetaOnly (g g' : Graph) : Prop :=
  g' = { g with node := g'.node } ∧ ∀ r, stripped (g'.node r) = stripped (g.node r)

theorem MetaOnly.refl (g : Graph) : MetaOnly g g := ⟨rfl, fun _ => rfl⟩

theorem MetaOnly.trans {g g' g'' : Graph} (h : MetaOnly g g') (h' : MetaOnly g' g'') :
    MetaOnly g g'' := by
  refine ⟨?_, fun r => (h'.2 r).trans (h.2 r)⟩
  rw [h'.1, h.1]

theorem metaOnly_stripMeta (g : Graph) (nodes : List NodeRef) :
    MetaOnly g (stripMeta g nodes) := by
  refine ⟨stripMeta_eq g nodes, fun r => ?_⟩
  rw [node_stripMeta]
  split <;> rfl

/-- A traversal does not look at the nodes. -/
theorem bfsLoop_withNode (f : NodeRef → Node) (w : Walk) (hops limit fuel : ℕ) (s : BfsState) :
    bfsLoop { g with node := f } w hops limit fuel s = bfsLoop g w hops limit fuel s := by
  induction fuel generalizing s with
  | zero => rfl
  | succ fuel ih =>
    rw [bfsLoop, bfsLoop]
    cases s.queue with
    | nil => rfl
    | cons cur rest => exact ih _

theorem MetaOnly.bfsWalk_eq {g' : Graph} (h : MetaOnly g g') (id : String) (opts : QueryOptions)
    (w : Walk) : bfsWalk g' id opts w = bfsWalk g id opts w := by
  rw [h.1]
  exact bfsLoop_withNode _ _ _ _ _ _

theorem MetaOnly.id_eq {g' : Graph} (h : MetaOnly g g') (r : NodeRef) :
    (g'.node r).id = (g.node r).id := id_of_stripped (h.2 r)

theorem MetaOnly.nodeAt {g' : Graph} (h : MetaOnly g g') (id : String) :
    (g'.nodeAt id).map stripped = (g.nodeAt id).map stripped := by
  have hget : g'.getNode id = g.getNode id := by
    rw [h.1]
    rfl
  rw [Graph.nodeAt, Graph.nodeAt, hget, Option.map_map, Option.map_map]
  exact congrArg (fun f => (g.getNode id).map f) (funext h.2)

end Strip

/-! ### The numbers -/

section Number

variable {g : Graph} {edits : List BatchEditItem}

/-- The symbol itself and its first 99 direct callers, as the engine lists them. -/
def directCallers (g : Graph) (id : String) : List String :=
  (bfsWalk g id callerOptions (.backward [.edgeCalls, .edgeMatches])).allNodes.map fun r =>
    (g.node r).id

/-- **Called by another edit**: a direct caller of the symbol is edited, too. -/
def Called (g : Graph) (edits : List BatchEditItem) (id : String) : Prop :=
  ∃ other ∈ edits, other.symbolID ≠ id ∧ other.symbolID ∈ directCallers g id

instance (g : Graph) (edits : List BatchEditItem) (id : String) : Decidable (Called g edits id) :=
  inferInstanceAs (Decidable (∃ other ∈ edits, _ ∧ _))

/-- **The tier of a symbol**: a type or an interface; a function that another edited symbol calls;
another function; anything else. -/
def tier (g : Graph) (edits : List BatchEditItem) (id : String) : ℕ :=
  match g.nodeAt id with
  | none => 3
  | some node =>
    if node.kind = .kindInterface ∨ node.kind = .kindType then 0
    else if node.kind = .kindFunction ∨ node.kind = .kindMethod then
      if Called g edits id then 1 else 2
    else 3

/-- The file of a symbol. -/
def editFile (g : Graph) (id : String) : String :=
  match g.nodeAt id with
  | none => ""
  | some node => node.filePath

/-- The number of a tier. -/
def tierOrder : ℕ → ℕ
  | 0 => 0
  | 1 => 10
  | 2 => 20
  | _ => 50

/-- An edit with its number and its file, seen from the graph before the batch. -/
def orderOf (g : Graph) (edits : List BatchEditItem) (edit : BatchEditItem) : EditWithOrder :=
  ⟨edit, tierOrder (tier g edits edit.symbolID), editFile g edit.symbolID⟩

theorem findCaller_eq {g' : Graph} (h : MetaOnly g g') (id : String) (b : Bool)
    (other : BatchEditItem) :
    MetaOnly g (findCaller id (g', b) other).1 ∧ (findCaller id (g', b) other).2 =
      (b || decide (other.symbolID ≠ id ∧ other.symbolID ∈ directCallers g id)) := by
  rw [findCaller]
  by_cases hid : other.symbolID = id
  · simp [hid, h]
  · rw [if_neg hid]
    have hstrip := metaOnly_stripMeta g'
      (bfsWalk g' id callerOptions (.backward [.edgeCalls, .edgeMatches])).allNodes
    refine ⟨h.trans hstrip, congrArg (b || ·) ?_⟩
    have hnodes : ∀ r : NodeRef, ((stripMeta g' (bfsWalk g' id callerOptions
        (.backward [.edgeCalls, .edgeMatches])).allNodes).node r).id = (g.node r).id :=
      (h.trans hstrip).id_eq
    change (bfsWalk g' id callerOptions (.backward [.edgeCalls, .edgeMatches])).allNodes.any
      (fun r => decide (((stripMeta g' _).node r).id = other.symbolID)) = _
    rw [Bool.eq_iff_iff, List.any_eq_true, decide_eq_true_iff, and_iff_right hid, directCallers,
      List.mem_map, ← h.bfsWalk_eq]
    simp only [decide_eq_true_eq, hnodes]

theorem foldl_findCaller (id : String) (l : List BatchEditItem) {g' : Graph} (h : MetaOnly g g')
    (b : Bool) : MetaOnly g (l.foldl (findCaller id) (g', b)).1 ∧
      ((l.foldl (findCaller id) (g', b)).2 = true ↔ b = true ∨ Called g l id) := by
  induction l generalizing g' b with
  | nil => exact ⟨h, by simp [Called]⟩
  | cons other l ih =>
    obtain ⟨hmeta, hfound⟩ := findCaller_eq h id b other
    obtain ⟨hmeta', hfound'⟩ := ih hmeta (findCaller id (g', b) other).2
    refine ⟨hmeta', hfound'.trans ?_⟩
    rw [hfound, Bool.or_eq_true, decide_eq_true_iff, or_assoc]
    refine or_congr_right ?_
    simp only [Called, List.mem_cons, exists_eq_or_imp]

/-- **The number of an edit** is the one of its tier, whichever queries were made before. -/
theorem editOrder_eq (edits : List BatchEditItem) {g' : Graph} (h : MetaOnly g g')
    (edit : BatchEditItem) :
    MetaOnly g (editOrder edits g' edit).1 ∧
      (editOrder edits g' edit).2 = orderOf g edits edit := by
  have hnode := h.nodeAt edit.symbolID
  rw [editOrder, orderOf, tier, editFile]
  cases hat' : g'.nodeAt edit.symbolID with
  | none =>
    rw [hat', Option.map_none, eq_comm, Option.map_eq_none_iff] at hnode
    rw [hnode]
    exact ⟨h, rfl⟩
  | some node' =>
    cases hat : g.nodeAt edit.symbolID with
    | none =>
      rw [hat', hat] at hnode
      cases hnode
    | some node =>
      rw [hat', hat, Option.map_some, Option.map_some, Option.some.injEq] at hnode
      have hkind : node'.kind = node.kind := kind_of_stripped hnode
      have hfile : node'.filePath = node.filePath := filePath_of_stripped hnode
      simp only [hkind, hfile]
      split
      · exact ⟨h, rfl⟩
      · split
        · obtain ⟨hmeta, hfound⟩ := foldl_findCaller edit.symbolID edits h false
          refine ⟨hmeta, ?_⟩
          rw [Bool.false_eq_true, false_or] at hfound
          by_cases hcalled : Called g edits edit.symbolID
          · simp only [hfound.mpr hcalled, if_true, if_pos hcalled]
            rfl
          · have hnot := (Bool.not_eq_true _).mp (mt hfound.mp hcalled)
            simp only [hnot, Bool.false_eq_true, if_false, if_neg hcalled]
            rfl
        · exact ⟨h, rfl⟩

end Number

/-! ### The order -/

section Order

variable {g : Graph} {edits : List BatchEditItem}

/-- What the edits are sorted by, the smallest first. -/
def sortKey (o : EditWithOrder) : (ℕ ×ₗ String)ᵒᵈ := OrderDual.toDual (toLex (o.order, o.file))

theorem editLess_eq (a b : EditWithOrder) :
    editLess a b = decide (sortKey b < sortKey a) := by
  have hlt : sortKey b < sortKey a ↔ a.order < b.order ∨ a.order = b.order ∧ a.file < b.file :=
    OrderDual.toDual_lt_toDual.trans Prod.Lex.toLex_lt_toLex
  rw [editLess, Bool.eq_iff_iff, decide_eq_true_iff, hlt]
  by_cases heq : a.order = b.order
  · rw [if_neg (not_not.mpr heq), decide_eq_true_iff]
    simp only [heq, lt_irrefl, false_or, true_and]
  · rw [if_pos heq, decide_eq_true_iff]
    simp only [heq, false_and, or_false]

theorem foldl_editOrder (edits l : List BatchEditItem) {g' : Graph} (h : MetaOnly g g')
    (acc : List EditWithOrder) : (l.foldl (fun st edit =>
      let (g'', o) := editOrder edits st.1 edit
      (g'', st.2 ++ [o])) (g', acc)).2 = acc ++ l.map (orderOf g edits) := by
  induction l generalizing g' acc with
  | nil => exact (List.append_nil acc).symm
  | cons edit l ih =>
    obtain ⟨hmeta, horder⟩ := editOrder_eq edits h edit
    rw [List.foldl_cons, List.map_cons, List.append_cons, ← horder]
    exact ih hmeta _

/-- **The order is a stable sort**, by tier and then by file. -/
theorem orderEdits_eq (g : Graph) (edits : List BatchEditItem) :
    (orderEdits g edits).2 = Sorting.stable sortKey (edits.map (orderOf g edits)) := by
  have hlist := foldl_editOrder edits edits (MetaOnly.refl g) []
  rw [List.nil_append] at hlist
  rw [← hlist]
  refine congrArg _ (funext fun a => funext fun b => ?_)
  rw [editLess_eq, ← decide_not]
  exact decide_eq_decide.mpr not_lt

theorem tier_le (g : Graph) (edits : List BatchEditItem) (id : String) : tier g edits id ≤ 3 := by
  rw [tier]
  split
  · exact le_rfl
  · split_ifs <;> omega

theorem tierOrder_lt_iff {m n : ℕ} (hm : m ≤ 3) (hn : n ≤ 3) :
    tierOrder m < tierOrder n ↔ m < n := by
  interval_cases m <;> interval_cases n <;> decide

theorem tierOrder_inj {m n : ℕ} (hm : m ≤ 3) (hn : n ≤ 3) : tierOrder m = tierOrder n ↔ m = n := by
  interval_cases m <;> interval_cases n <;> decide

/-- **Which of two edits comes first.** -/
theorem pair_orderEdits_iff {a b : BatchEditItem} (ha : a ∈ edits) (hb : b ∈ edits) :
    [orderOf g edits a, orderOf g edits b].Sublist (orderEdits g edits).2 ↔
      tier g edits a.symbolID < tier g edits b.symbolID ∨
      tier g edits a.symbolID = tier g edits b.symbolID ∧
        (editFile g a.symbolID < editFile g b.symbolID ∨
          editFile g a.symbolID = editFile g b.symbolID ∧ [a, b].Sublist edits) := by
  have hta := tier_le g edits a.symbolID
  have htb := tier_le g edits b.symbolID
  have hlt : sortKey (orderOf g edits b) < sortKey (orderOf g edits a) ↔
      tierOrder (tier g edits a.symbolID) < tierOrder (tier g edits b.symbolID) ∨
        tierOrder (tier g edits a.symbolID) = tierOrder (tier g edits b.symbolID) ∧
          editFile g a.symbolID < editFile g b.symbolID :=
    OrderDual.toDual_lt_toDual.trans Prod.Lex.toLex_lt_toLex
  have heq : sortKey (orderOf g edits a) = sortKey (orderOf g edits b) ↔
      tierOrder (tier g edits a.symbolID) = tierOrder (tier g edits b.symbolID) ∧
        editFile g a.symbolID = editFile g b.symbolID :=
    OrderDual.toDual_inj.trans (toLex_inj.trans Prod.mk_inj)
  have hsub : [orderOf g edits a, orderOf g edits b].Sublist (edits.map (orderOf g edits)) ↔
      [a, b].Sublist edits := by
    constructor
    · intro h
      have hmap := h.map EditWithOrder.edit
      rwa [List.map_map, List.map_id''] at hmap
      exact fun _ => rfl
    · exact fun h => h.map (orderOf g edits)
  have hma : orderOf g edits a ∈ edits.map (orderOf g edits) := List.mem_map_of_mem ha
  have hmb : orderOf g edits b ∈ edits.map (orderOf g edits) := List.mem_map_of_mem hb
  rw [orderEdits_eq, Sorting.pair_sublist_stable_iff hma hmb, hlt, heq, hsub,
    tierOrder_lt_iff hta htb, tierOrder_inj hta htb, or_assoc, and_assoc, ← and_or_left]

/-! ### Dependencies -/

/-- One symbol calls another. -/
def CallsSymbol (g : Graph) (a b : String) : Prop :=
  ∃ r ∈ g.getOutEdges a, (g.edge r).kind = .edgeCalls ∧ (g.edge r).toID = b

/-- **A symbol depends on another**: it calls it, directly or through edited symbols. -/
def DependsOn (g : Graph) (edits : List BatchEditItem) : String → String → Prop :=
  Relation.TransGen fun a b => CallsSymbol g a b ∧ ∃ edit ∈ edits, edit.symbolID = b

/-- The one depends on the other, and not the other way round. -/
def MustPrecede (g : Graph) (edits : List BatchEditItem) (x y : BatchEditItem) : Prop :=
  DependsOn g edits y.symbolID x.symbolID ∧ ¬DependsOn g edits x.symbolID y.symbolID

/-- **The edits are in the order of their dependencies**: none comes after one that it must
precede. -/
def DependencyOrder (g : Graph) (edits : List BatchEditItem) : Prop :=
  (orderEdits g edits).2.Pairwise fun a b => ¬MustPrecede g edits b.edit a.edit

theorem not_before_iff {t t' : ℕ} {f f' : String} {P : Prop} :
    ¬(t' < t ∨ t' = t ∧ (f' < f ∨ f' = f ∧ P)) ↔
      t < t' ∨ t = t' ∧ (f < f' ∨ f = f' ∧ ¬P) := by
  rcases lt_trichotomy t t' with ht | rfl | ht
  · simp only [ht, ht.not_gt, ht.ne', false_and, or_self, not_false_eq_true, true_or]
  · rcases lt_trichotomy f f' with hf | rfl | hf
    · simp only [lt_irrefl, hf, hf.not_gt, hf.ne', false_and, or_self, and_false,
        not_false_eq_true, true_or, true_and, or_true]
    · simp only [lt_irrefl, false_or, true_and]
    · simp only [lt_irrefl, hf, hf.not_gt, hf.ne', false_and, or_self, and_false, true_or,
        true_and, or_true, not_true_eq_false]
  · simp only [ht, ht.not_gt, ht.ne', false_and, or_self, true_or, not_true_eq_false]

/-- **When the edits are in the order of their dependencies**: the tiers, the files and the order
in which the edits are given put each edit before those that depend on it. -/
theorem dependencyOrder_iff (g : Graph) (edits : List BatchEditItem) :
    DependencyOrder g edits ↔ ∀ x ∈ edits, ∀ y ∈ edits, MustPrecede g edits x y →
      tier g edits x.symbolID < tier g edits y.symbolID ∨
      tier g edits x.symbolID = tier g edits y.symbolID ∧
        (editFile g x.symbolID < editFile g y.symbolID ∨
          editFile g x.symbolID = editFile g y.symbolID ∧ ¬[y, x].Sublist edits) := by
  have hpairs : DependencyOrder g edits ↔ ∀ x ∈ edits, ∀ y ∈ edits, MustPrecede g edits x y →
      ¬[orderOf g edits y, orderOf g edits x].Sublist (orderEdits g edits).2 := by
    rw [DependencyOrder, List.pairwise_iff_forall_sublist]
    constructor
    · exact fun h x _ y _ hxy hpair => h hpair hxy
    · intro h o o' hpair hmust
      obtain ⟨ho, ho'⟩ := Sorting.mem_of_pair hpair
      rw [orderEdits_eq, (Sorting.perm_stable sortKey _).mem_iff, List.mem_map] at ho ho'
      obtain ⟨y, hy, rfl⟩ := ho
      obtain ⟨x, hx, rfl⟩ := ho'
      exact h x hx y hy hmust hpair
  rw [hpairs]
  refine forall₂_congr fun x hx => forall₂_congr fun y hy => imp_congr_right fun _ => ?_
  rw [pair_orderEdits_iff hy hx, not_before_iff]

end Order

/-! ### A chain of calls -/

namespace Chain

/-- A function. -/
def function (id file : String) : Node :=
  { id := id, kind := .kindFunction, name := id, filePath := file, startLine := 1, endLine := 3 }

/-- A call. -/
def call (fromID toID : String) : Edge := { fromID := fromID, toID := toID, kind := .edgeCalls }

/-- A function `top` calls `mid`, which calls `leaf`. -/
def graph : Graph :=
  ((((Graph.new.putNode (function "top" "a.go")).putNode (function "mid" "b.go")).putNode
    (function "leaf" "c.go")).putEdge (call "top" "mid")).putEdge (call "mid" "leaf")

/-- An edit of the function. -/
def edit (id : String) : BatchEditItem := ⟨id, ofString "x", ofString "y"⟩

/-- The edits of the three. -/
def edits : List BatchEditItem := [edit "top", edit "mid", edit "leaf"]

theorem mustPrecede_leaf : MustPrecede graph edits (edit "leaf") (edit "mid") := by
  have hcall : CallsSymbol graph "mid" "leaf" := by
    have hedge : ∃ r ∈ graph.getOutEdges "mid",
        (graph.edge r).kind = .edgeCalls ∧ (graph.edge r).toID = "leaf" := by decide +kernel
    exact hedge
  refine ⟨Relation.TransGen.single ⟨hcall, edit "leaf", by decide, rfl⟩, fun hback => ?_⟩
  obtain ⟨c, ⟨⟨r, hr, -⟩, -⟩, -⟩ := Relation.TransGen.head'_iff.mp hback
  have hnone : graph.getOutEdges "leaf" = [] := by decide +kernel
  exact List.not_mem_nil (hnone ▸ hr)

/-- **In a chain of three calls**, the function in the middle is edited before the one it calls. -/
theorem not_dependencyOrder :
    ¬∀ (g : Graph) (edits : List BatchEditItem), Graph.Inv g → DependencyOrder g edits := by
  intro h
  have hinv : Graph.Inv graph :=
    ((((Graph.Inv.new.putNode _).putNode _).putNode _).putEdge _).putEdge _
  have hpair : [orderOf graph edits (edit "mid"), orderOf graph edits (edit "leaf")].Sublist
      (orderEdits graph edits).2 :=
    (pair_orderEdits_iff (by decide) (by decide)).mpr (by decide +kernel)
  exact List.pairwise_iff_forall_sublist.mp (h graph edits hinv) hpair mustPrecede_leaf

end Chain

end Mcp

end Gortex
