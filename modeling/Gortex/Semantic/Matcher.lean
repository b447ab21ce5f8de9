import Mathlib.Algebra.Order.Group.Unbundled.Abs
import Gortex.Lib.Closest
import Gortex.Semantic.Enricher

/-!
# Matching external symbols to nodes

How the semantic providers find the node of a symbol of an external index
(`internal/semantic/matcher.go`): by file and line, and by name. Their searches for the function or
the node that contains a line (`findContainingFunc`, `findContainingNode`) are the first half of
the match by file and line, each with the kinds of its own.

`GetFileNodes` is called by each of them; the nodes it returns are an argument here, in the order in
which they come. They are read through the memory of the graph.
-/

namespace Gortex

namespace Semantic

open Graph

/-- `int(^uint(0) >> 1)`, on 64 bits. -/
def maxInt : ℤ := 2 ^ 63 - 1

/-! ### The symbol map -/

/-- **`SymbolMap`**, from the identifiers of an index to the IDs of the nodes and back. -/
structure SymbolMap (K : Type) where
  externalToGortex : GoMap K String := ∅
  gortexToExternal : GoMap String K := ∅

section SymbolMap

variable {K : Type} [DecidableEq K]

/-- `Add`. -/
def SymbolMap.add (m : SymbolMap K) (externalID : K) (gortexID : String) : SymbolMap K where
  externalToGortex := m.externalToGortex.insert externalID gortexID
  gortexToExternal := m.gortexToExternal.insert gortexID externalID

/-- `GortexID`. -/
def SymbolMap.gortexID (m : SymbolMap K) (externalID : K) : Option String :=
  m.externalToGortex.lookup externalID

end SymbolMap

/-! ### The matches -/

/-- The size of a node of an accepted kind that contains a line. -/
def sizeAt (accepts : NodeKind → Bool) (line : ℤ) (n : Node) : Option ℤ :=
  if accepts n.kind = true ∧ n.startLine ≤ line ∧ line ≤ n.endLine then
    some (n.endLine - n.startLine)
  else none

/-- The distance of a node of an accepted kind from a line. -/
def distanceAt (accepts : NodeKind → Bool) (line : ℤ) (n : Node) : Option ℤ :=
  if accepts n.kind = true then some |n.startLine - line| else none

/-- The kinds that are not `KindFile` or `KindImport`. -/
def isSymbol (kind : NodeKind) : Bool := kind ≠ .kindFile ∧ kind ≠ .kindImport

/-- `KindFunction` and `KindMethod`. -/
def isFunc (kind : NodeKind) : Bool := kind = .kindFunction ∨ kind = .kindMethod

/-- The innermost node of an accepted kind that contains a line. -/
def innermost (g : Graph) (accepts : NodeKind → Bool) (nodes : List NodeRef) (line : ℤ) :
    Option NodeRef :=
  (nodes.closest (fun r => sizeAt accepts line (g.node r)) maxInt).1

/-- `findContainingNode`. -/
def findContainingNode (g : Graph) (nodes : List NodeRef) (line : ℤ) : Option NodeRef :=
  innermost g isSymbol nodes line

/-- `findContainingFunc`. -/
def findContainingFunc (g : Graph) (nodes : List NodeRef) (line : ℤ) : Option NodeRef :=
  innermost g isFunc nodes line

/-- **`MatchNodeByFileLine`**: the innermost node at the line, or else the closest one, if it is at
most two lines away. -/
def matchNodeByFileLine (g : Graph) (nodes : List NodeRef) (line : ℤ) : Option NodeRef :=
  match innermost g isSymbol nodes line with
  | some r => some r
  | none =>
    let s := nodes.closest (fun r => distanceAt isSymbol line (g.node r)) maxInt
    if s.2 ≤ 2 then s.1 else none

/-- **`MatchNodeByNameInFile`.** -/
def matchNodeByNameInFile (g : Graph) (nodes : List NodeRef) (name : String) : Option NodeRef :=
  nodes.find? fun r => (g.node r).name = name

section Mem

variable {g : Graph} {nodes : List NodeRef} {line : ℤ} {r : NodeRef}

theorem mem_of_innermost {accepts : NodeKind → Bool}
    (h : innermost g accepts nodes line = some r) : r ∈ nodes := by
  obtain ⟨m, -, hm⟩ := List.closest_eq_some h
  exact hm.mem

theorem mem_of_matchNodeByFileLine (h : matchNodeByFileLine g nodes line = some r) :
    r ∈ nodes := by
  rw [matchNodeByFileLine] at h
  split at h
  · rename_i r' hr'
    obtain rfl := Option.some.inj h
    exact mem_of_innermost hr'
  · simp only at h
    split_ifs at h
    obtain ⟨m, -, hm⟩ := List.closest_eq_some h
    exact hm.mem

theorem mem_of_matchNodeByNameInFile {name : String}
    (h : matchNodeByNameInFile g nodes name = some r) : r ∈ nodes :=
  List.mem_of_find?_eq_some h

end Mem

/-! ### Whether there is a match -/

section Order

variable {g : Graph} {nodes nodes' : List NodeRef} (hl : nodes.Perm nodes')

include hl

theorem isSome_innermost_of_perm (accepts : NodeKind → Bool) (line : ℤ) :
    (innermost g accepts nodes line).isSome = (innermost g accepts nodes' line).isSome :=
  (List.isSome_closest_of_perm _ _ hl).1

/-- **Whether a node is at a line** does not depend on the order of the nodes. -/
theorem isSome_matchNodeByFileLine_of_perm (line : ℤ) :
    (matchNodeByFileLine g nodes line).isSome = (matchNodeByFileLine g nodes' line).isSome := by
  obtain ⟨hsome, hdist⟩ := List.isSome_closest_of_perm
    (fun r => distanceAt isSymbol line (g.node r)) maxInt hl
  have hinner := isSome_innermost_of_perm (g := g) hl isSymbol line
  unfold matchNodeByFileLine
  cases hr : innermost g isSymbol nodes line with
  | some r =>
    rw [hr] at hinner
    obtain ⟨r', hr'⟩ := Option.isSome_iff_exists.mp hinner.symm
    rw [hr']
    rfl
  | none =>
    rw [hr] at hinner
    have hnone : innermost g isSymbol nodes' line = none :=
      Option.isSome_eq_false_iff.mp hinner.symm |> Option.isNone_iff_eq_none.mp
    rw [hnone]
    simp only
    rw [hdist]
    split_ifs
    · exact hsome
    · rfl

theorem isSome_matchNodeByNameInFile_of_perm (name : String) :
    (matchNodeByNameInFile g nodes name).isSome =
      (matchNodeByNameInFile g nodes' name).isSome := by
  rw [Bool.eq_iff_iff, matchNodeByNameInFile, matchNodeByNameInFile, List.find?_isSome,
    List.find?_isSome]
  exact exists_congr fun r => and_congr_left fun _ => hl.mem_iff

end Order

/-! ### The matches read the nodes only -/

section Matches

variable {g g' : Graph} (h : NodesKept g g')

include h

theorem innermost_kept (accepts : NodeKind → Bool) (nodes : List NodeRef) (line : ℤ) :
    innermost g' accepts nodes line = innermost g accepts nodes line := by
  have hsize : (fun r => sizeAt accepts line (g'.node r)) =
      fun r => sizeAt accepts line (g.node r) :=
    funext fun r => h.read (f := sizeAt accepts line) (fun _ => rfl) r
  rw [innermost, hsize, innermost]

theorem matchNodeByFileLine_kept (nodes : List NodeRef) (line : ℤ) :
    matchNodeByFileLine g' nodes line = matchNodeByFileLine g nodes line := by
  have hdist : (fun r => distanceAt isSymbol line (g'.node r)) =
      fun r => distanceAt isSymbol line (g.node r) :=
    funext fun r => h.read (f := distanceAt isSymbol line) (fun _ => rfl) r
  rw [matchNodeByFileLine, innermost_kept h, hdist, matchNodeByFileLine]

theorem matchNodeByNameInFile_kept (nodes : List NodeRef) (name : String) :
    matchNodeByNameInFile g' nodes name = matchNodeByNameInFile g nodes name := by
  have hname : (fun r => decide ((g'.node r).name = name)) =
      fun r => decide ((g.node r).name = name) :=
    funext fun r => h.read (f := fun n => decide (n.name = name)) (fun _ => rfl) r
  rw [matchNodeByNameInFile, hname, matchNodeByNameInFile]

end Matches

end Semantic

end Gortex
