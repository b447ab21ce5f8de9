import Gortex.Lib.Groups
import Gortex.Semantic.GoRun

/-!
# The Go enrichment and the orders of its loops

Two runs of the `go-types` provider on one graph and one set of packages, that differ in the orders
in which they go over the maps of the packages, over what they have mapped, over the nodes of a file
and over the maps of the graph.

The definitions of an object are matched to nodes, and the last match counts: the nodes that a run
can map an object to are those of its definitions in the last package that has a match
(`Gortex.Semantic.GoTypes.Denotes`). Of the uses between two nodes with no edge between them the
first one with an edge to add decides its kind and its line, and those that a run can come to first
are the ones of the first package that has any (`List.Found`). So if there is no choice of nodes
(`Gortex.Semantic.GoTypes.Unambiguous`), the runs agree exactly if the uses do
(`Gortex.Semantic.GoTypes.independent_iff`).
-/

namespace Gortex

namespace Semantic

open Graph

namespace GoTypes

variable {Obj : Type} {chk : Checker Obj} {ord : Orders} {absRoot : String}
  {pkgs : List (Package Obj)} {g : Graph}

/-! ### The groups of a run -/

/-- The entries of a map of each package. -/
def groups (pkgs : List (Package Obj)) (field : Info Obj → List (Ident × Option Obj)) :
    List (List (Ident × Option Obj)) :=
  pkgs.map fun p => match p.typesInfo with
    | none => []
    | some info => field info

/-- The same, in the orders of a run. -/
def orderedGroups (ord : Orders) (pkgs : List (Package Obj)) (loop : ℕ → Loop)
    (field : Info Obj → List (Ident × Option Obj)) : List (List (Ident × Option Obj)) :=
  pkgs.zipIdx.map fun p => match p.1.typesInfo with
    | none => []
    | some info => ord.loops.order (loop p.2) (field info)

theorem entries_eq (ord : Orders) (pkgs : List (Package Obj)) (loop : ℕ → Loop)
    (field : Info Obj → List (Ident × Option Obj)) :
    entries ord pkgs loop field = (orderedGroups ord pkgs loop field).flatten :=
  List.flatMap_def ..

/-- Each group of a run is a group in some order. -/
theorem forall₂_orderedGroups (ord : Orders) (pkgs : List (Package Obj)) (loop : ℕ → Loop)
    (field : Info Obj → List (Ident × Option Obj)) :
    List.Forall₂ (fun l' l => ∃ s, l' = ord.loops.order s l) (orderedGroups ord pkgs loop field)
      (groups pkgs field) := by
  have hall : ∀ (l : List (Package Obj)) (n : ℕ),
      List.Forall₂ (fun l' l => ∃ s, l' = ord.loops.order s l)
        ((l.zipIdx n).map fun p => match p.1.typesInfo with
          | none => []
          | some info => ord.loops.order (loop p.2) (field info)) (groups l field) := by
    intro l
    induction l with
    | nil => exact fun _ => .nil
    | cons p l ih =>
      intro n
      refine .cons ?_ (ih (n + 1))
      obtain ⟨_ | info⟩ := p
      · exact ⟨.interfaces, (List.perm_nil.mp (ord.loops.perm ..)).symm⟩
      · exact ⟨loop n, rfl⟩
  exact hall pkgs 0

theorem perm_orderedGroups (ord : Orders) (pkgs : List (Package Obj)) (loop : ℕ → Loop)
    (field : Info Obj → List (Ident × Option Obj)) :
    List.Forall₂ List.Perm (orderedGroups ord pkgs loop field) (groups pkgs field) := by
  refine (forall₂_orderedGroups ord pkgs loop field).imp ?_
  rintro _ l ⟨s, rfl⟩
  exact ord.loops.perm s l

theorem perm_entries (ord : Orders) (pkgs : List (Package Obj)) (loop : ℕ → Loop)
    (field : Info Obj → List (Ident × Option Obj)) :
    (entries ord pkgs loop field).Perm (groups pkgs field).flatten := by
  rw [entries_eq]
  exact List.Perm.flatten_congr (perm_orderedGroups ..)

/-! ### What can be matched -/

/-- **A run can match an identifier to a node.** -/
def CanMatch (absRoot : String) (g : Graph) (ident : Ident) (id : String) : Prop :=
  ∃ ord r, matchIdent ord absRoot g ident = some r ∧ g.idOf r = id

/-- A run can find an identifier in a function. -/
def CanCall (absRoot : String) (g : Graph) (ident : Ident) (id : String) : Prop :=
  ∃ ord at_ r, place absRoot ident = some at_ ∧
    findContainingFunc g (Orders.fileNodes ord g at_.1) at_.2 = some r ∧ g.idOf r = id

theorem perm_fileNodes (ord ord' : Orders) (g : Graph) (filePath : String) :
    (ord.fileNodes g filePath).Perm (ord'.fileNodes g filePath) :=
  (ord.nodes.perm ..).trans (ord'.nodes.perm ..).symm

/-- **Whether an identifier is matched** does not depend on the orders. -/
theorem isSome_matchIdent (ord ord' : Orders) (ident : Ident) :
    (matchIdent ord absRoot g ident).isSome = (matchIdent ord' absRoot g ident).isSome := by
  unfold matchIdent
  cases place absRoot ident with
  | none => rfl
  | some at_ =>
    have hperm := perm_fileNodes ord ord' g at_.1
    have hline := isSome_matchNodeByFileLine_of_perm (g := g) hperm at_.2
    simp only
    cases hr : matchNodeByFileLine g (ord.fileNodes g at_.1) at_.2 with
    | some r =>
      rw [hr] at hline
      obtain ⟨r', hr'⟩ := Option.isSome_iff_exists.mp hline.symm
      rw [hr']
      rfl
    | none =>
      rw [hr] at hline
      rw [Option.isNone_iff_eq_none.mp (Option.isSome_eq_false_iff.mp hline.symm)]
      exact isSome_matchNodeByNameInFile_of_perm hperm ident.name

theorem CanMatch.isSome {ident : Ident} {id : String} (h : CanMatch absRoot g ident id)
    (ord : Orders) : (matchIdent ord absRoot g ident).isSome = true := by
  obtain ⟨ord', r, hr, -⟩ := h
  rw [isSome_matchIdent ord ord', hr]
  rfl

/-- A node that an identifier is matched to is stored. -/
theorem storedNode_of_matchIdent (hg : NodeInv g) {ident : Ident} {r : NodeRef}
    (h : matchIdent ord absRoot g ident = some r) : g.StoredNode r := by
  unfold matchIdent at h
  split at h
  · cases h
  · rename_i relPath line _
    have hstored : ∀ r ∈ ord.fileNodes g relPath, g.StoredNode r :=
      fun r hr => (hg.mem_getFileNodes.mp (ord.nodes.mem.mp hr)).1
    split at h
    · rename_i hr
      obtain rfl := Option.some.inj h
      exact hstored _ (mem_of_matchNodeByFileLine hr)
    · exact hstored _ (mem_of_matchNodeByNameInFile h)

/-! ### What the objects are mapped to -/

/-- A definition of an object that a run can match to a node. -/
def Defines (absRoot : String) (g : Graph) (obj : Obj) (d : Ident × Option Obj) (id : String) :
    Prop :=
  d.2 = some obj ∧ CanMatch absRoot g d.1 id

/-- **A run can map an object to a node**: by a definition in the last package with one that is
matched. -/
def Denotes (absRoot : String) (pkgs : List (Package Obj)) (g : Graph) (obj : Obj) (id : String) :
    Prop :=
  List.Found (Defines absRoot g obj) (groups pkgs Info.defs).reverse id

/-- The node of an object is stored. -/
theorem Denotes.getNode (hg : NodeInv g) {obj : Obj} {id : String}
    (h : Denotes absRoot pkgs g obj id) : (g.getNode id).isSome = true := by
  obtain ⟨ls₁, l, ls₂, -, ⟨d, -, -, ord, r, hr, rfl⟩, -⟩ := List.found_iff.mp h
  exact Option.isSome_iff_exists.mpr ⟨r, storedNode_of_matchIdent hg hr⟩

section Mapping

variable [DecidableEq Obj]

/-- The node of a definition of an object. -/
def definedAt (ord : Orders) (absRoot : String) (g : Graph) (obj : Obj) (d : Ident × Option Obj) :
    Option String :=
  if d.2 = some obj then (matchIdent ord absRoot g d.1).map g.idOf else none

/-- The last definition that is matched counts. -/
theorem lookup_mapDefinitions (chk : Checker Obj) (ord : Orders) (absRoot : String)
    (pkgs : List (Package Obj)) (g : Graph) (obj : Obj) :
    (mapDefinitions chk ord absRoot pkgs g).objToNode.lookup obj =
      (entries ord pkgs .defs Info.defs).reverse.findSome? (definedAt ord absRoot g obj) := by
  unfold mapDefinitions
  generalize entries ord pkgs .defs Info.defs = l
  induction l using List.reverseRecOn with
  | nil => exact AList.lookup_empty obj
  | append_singleton l d ih =>
    rw [List.foldl_concat, List.reverse_concat, List.findSome?_cons, ← ih]
    generalize l.foldl (defStep chk ord absRoot g) {} = s
    unfold defStep definedAt
    cases hd : d.2 with
    | none => rfl
    | some obj' =>
      simp only [Option.some.injEq]
      cases hr : matchIdent ord absRoot g d.1 with
      | none => by_cases hobj : obj' = obj <;> simp [hobj]
      | some r =>
        simp only [GoMap.lookup_insert]
        by_cases hobj : obj' = obj
        · rw [if_pos hobj.symm, if_pos hobj]
          rfl
        · rw [if_neg (Ne.symm hobj), if_neg hobj]

/-- A run as it looks for the node of an object. -/
theorem runs_definedAt (ord : Orders) (obj : Obj) :
    List.Runs (Defines absRoot g obj) (groups pkgs Info.defs).reverse
      (definedAt ord absRoot g obj)
      ((orderedGroups ord pkgs .defs Info.defs).map List.reverse).reverse := by
  refine ⟨List.rel_reverse ?_, fun d _ id hid => ?_, fun d _ id hcan => ?_⟩
  · rw [List.forall₂_map_left_iff]
    exact (perm_orderedGroups ord pkgs .defs Info.defs).imp fun _ _ h =>
      (List.reverse_perm _).trans h
  · rw [definedAt] at hid
    split_ifs at hid with hobj
    obtain ⟨r, hr, rfl⟩ := Option.map_eq_some_iff.mp hid
    exact ⟨hobj, ord, r, hr, rfl⟩
  · rw [definedAt, if_pos hcan.1, Option.isSome_map]
    exact hcan.2.isSome ord

theorem lookup_eq (chk : Checker Obj) (ord : Orders) (obj : Obj) :
    (mapDefinitions chk ord absRoot pkgs g).objToNode.lookup obj =
      ((orderedGroups ord pkgs .defs Info.defs).map List.reverse).reverse.flatten.findSome?
        (definedAt ord absRoot g obj) := by
  rw [lookup_mapDefinitions, entries_eq, List.reverse_flatten]

/-- **A run maps an object to one of the nodes it denotes**, if it denotes any. -/
theorem denotes_of_lookup {obj : Obj} {id : String}
    (h : (mapDefinitions chk ord absRoot pkgs g).objToNode.lookup obj = some id) :
    Denotes absRoot pkgs g obj id := by
  rw [lookup_eq] at h
  exact (runs_definedAt ord obj).found.1 id h

theorem Denotes.isSome_lookup {obj : Obj} {id : String} (h : Denotes absRoot pkgs g obj id)
    (chk : Checker Obj) (ord : Orders) :
    ∃ id', (mapDefinitions chk ord absRoot pkgs g).objToNode.lookup obj = some id' := by
  rw [← Option.isSome_iff_exists, Option.isSome_iff_ne_none, lookup_eq]
  exact fun hnone => (runs_definedAt ord obj).found.2 hnone id h

/-! ### The uses -/

/-- An object whose node a run looks for: one that is used, or a type. -/
def Matters (chk : Checker Obj) (pkgs : List (Package Obj)) (obj : Obj) : Prop :=
  chk.kind obj = .typeName ∨ ∃ u ∈ (groups pkgs Info.uses).flatten, u.2 = some obj

/-- **There is no choice of nodes**: an object that matters denotes one node, and a use of it is in
one function. -/
structure Unambiguous (chk : Checker Obj) (absRoot : String) (pkgs : List (Package Obj))
    (g : Graph) : Prop where
  objects : ∀ obj, Matters chk pkgs obj → ∀ id id', Denotes absRoot pkgs g obj id →
    Denotes absRoot pkgs g obj id' → id = id'
  callers : ∀ u ∈ (groups pkgs Info.uses).flatten, ∀ obj ∈ u.2,
    (∃ id, Denotes absRoot pkgs g obj id) → ∀ a a', CanCall absRoot g u.1 a →
    CanCall absRoot g u.1 a' → a = a'

/-- A use between two nodes. -/
def UsedBetween (absRoot : String) (pkgs : List (Package Obj)) (g : Graph) (i : String × String)
    (u : Ident × Option Obj) : Prop :=
  ∃ obj, u.2 = some obj ∧ CanCall absRoot g u.1 i.1 ∧ Denotes absRoot pkgs g obj i.2 ∧ i.1 ≠ i.2

/-- A use between two nodes, with the edge that it gives. -/
def UseGives (chk : Checker Obj) (absRoot : String) (pkgs : List (Package Obj)) (g : Graph)
    (i : String × String) (u : Ident × Option Obj) (e : Edge) : Prop :=
  UsedBetween absRoot pkgs g i u ∧ useEdge chk absRoot u i = some e

/-- **The uses agree**: between two nodes with no edge between them, the uses of the first package
in which any gives an edge give the same one. -/
def Agree (chk : Checker Obj) (absRoot : String) (pkgs : List (Package Obj)) (g : Graph) : Prop :=
  ∀ i : String × String, g.between i.1 i.2 = [] →
    ∀ e e', List.Found (UseGives chk absRoot pkgs g i) (groups pkgs Info.uses) e →
      List.Found (UseGives chk absRoot pkgs g i) (groups pkgs Info.uses) e' → e = e'

/-- Without a choice, an object that matters is mapped to what it denotes. -/
theorem Unambiguous.lookup_eq_some_iff (h : Unambiguous chk absRoot pkgs g) {obj : Obj}
    (hobj : Matters chk pkgs obj) (ord : Orders) {id : String} :
    (mapDefinitions chk ord absRoot pkgs g).objToNode.lookup obj = some id ↔
      Denotes absRoot pkgs g obj id := by
  refine ⟨denotes_of_lookup, fun hid => ?_⟩
  obtain ⟨id', hid'⟩ := hid.isSome_lookup chk ord
  rw [hid', h.objects obj hobj id' id (denotes_of_lookup hid') hid]

/-- **Without a choice, every run looks at the same two nodes** for a use. -/
theorem Unambiguous.useEnds_eq_some_iff (h : Unambiguous chk absRoot pkgs g) (ord : Orders)
    {u : Ident × Option Obj} (hu : u ∈ (groups pkgs Info.uses).flatten) {i : String × String} :
    useEnds ord absRoot (mapDefinitions chk ord absRoot pkgs g).objToNode g u = some i ↔
      UsedBetween absRoot pkgs g i u := by
  simp only [useEnds, UsedBetween, Option.bind_eq_some_iff, Option.ite_none_left_eq_some,
    Option.some.injEq]
  constructor
  · rintro ⟨obj, hobj, at_, hat, r, hr, id, hid, hne, rfl⟩
    exact ⟨obj, hobj, ⟨ord, at_, r, hat, hr, rfl⟩, denotes_of_lookup hid, hne⟩
  · rintro ⟨obj, hobj, hcall, hdenotes, hne⟩
    obtain ⟨ord', at_, r', hat, hr', hid'⟩ := hcall
    -- the run finds a function as well, and it is the one
    have hsome := isSome_innermost_of_perm (g := g) (perm_fileNodes ord' ord g at_.1) isFunc at_.2
    rw [findContainingFunc] at hr'
    rw [hr'] at hsome
    obtain ⟨r, hr⟩ := Option.isSome_iff_exists.mp hsome.symm
    have hcaller : g.idOf r = i.1 :=
      h.callers u hu obj hobj ⟨i.2, hdenotes⟩ _ _ ⟨ord, at_, r, hat, hr, rfl⟩
        ⟨ord', at_, r', hat, hr', hid'⟩
    refine ⟨obj, hobj, at_, hat, r, hr, i.2,
      (h.lookup_eq_some_iff (.inr ⟨u, hu, hobj⟩) ord).mpr hdenotes, ?_, ?_⟩
    · rwa [hcaller]
    · rw [hcaller]

/-- The edge that a use gives between two nodes. -/
def useEdgeAt (chk : Checker Obj) (ord : Orders) (absRoot : String) (objToNode : GoMap Obj String)
    (g : Graph) (i : String × String) (u : Ident × Option Obj) : Option Edge :=
  if useEnds ord absRoot objToNode g u = some i then useEdge chk absRoot u i else none

theorem findSome?_usesAt (chk : Checker Obj) (ord : Orders) (absRoot : String)
    (objToNode : GoMap Obj String) (g : Graph) (i : String × String) :
    (usesAt chk ord absRoot pkgs objToNode g i).findSome? id =
      (entries ord pkgs .uses Info.uses).findSome? (useEdgeAt chk ord absRoot objToNode g i) := by
  unfold usesAt newsAt
  generalize entries ord pkgs .uses Info.uses = l
  induction l with
  | nil => rfl
  | cons u l ih =>
    rw [List.findSome?_cons, ← ih, useEdgeAt, List.filterMap_cons, useSite]
    cases useEnds ord absRoot objToNode g u with
    | none => rfl
    | some ends =>
      rw [Option.map_some, List.filter_cons]
      by_cases hi : ends = i
      · rw [if_pos (decide_eq_true hi), if_pos (congrArg some hi), List.map_cons,
          List.findSome?_cons, hi]
        rfl
      · rw [if_neg (by simpa using hi), if_neg (by simpa using hi)]

theorem usesAt_eq_nil_iff (chk : Checker Obj) (ord : Orders) (absRoot : String)
    (objToNode : GoMap Obj String) (g : Graph) (i : String × String) :
    usesAt chk ord absRoot pkgs objToNode g i = [] ↔
      ∀ u ∈ (groups pkgs Info.uses).flatten, useEnds ord absRoot objToNode g u ≠ some i := by
  simp only [usesAt, newsAt, List.map_eq_nil_iff, List.filter_eq_nil_iff, List.mem_filterMap,
    (perm_entries ord pkgs .uses Info.uses).mem_iff, decide_eq_true_eq, useSite,
    Option.map_eq_some_iff]
  constructor
  · exact fun hnone u hu hends => hnone ⟨i, useEdge chk absRoot u i⟩ ⟨u, hu, i, hends, rfl⟩ rfl
  · rintro hnone t ⟨u, hu, ends, hends, rfl⟩ rfl
    exact hnone u hu hends

/-- A run as it looks for the edge to add between two nodes. -/
theorem Unambiguous.runs_useEdgeAt (h : Unambiguous chk absRoot pkgs g) (ord : Orders)
    (i : String × String) :
    List.Runs (UseGives chk absRoot pkgs g i) (groups pkgs Info.uses)
      (useEdgeAt chk ord absRoot (mapDefinitions chk ord absRoot pkgs g).objToNode g i)
      (orderedGroups ord pkgs .uses Info.uses) := by
  refine ⟨perm_orderedGroups .., fun u hu e he => ?_, fun u hu e he => ?_⟩
  · rw [useEdgeAt] at he
    split_ifs at he with hends
    exact ⟨(h.useEnds_eq_some_iff ord hu).mp hends, he⟩
  · rw [useEdgeAt, if_pos ((h.useEnds_eq_some_iff ord hu).mpr he.1), he.2]
    rfl

/-! ### The edges of two runs -/

/-- Without a choice, every run maps the same types. -/
theorem Unambiguous.mapsType_iff (h : Unambiguous chk absRoot pkgs g) (ord : Orders)
    {interfaces : Bool} {obj : Obj} {id : String} :
    MapsType chk (mapDefinitions chk ord absRoot pkgs g).objToNode interfaces obj id ↔
      Denotes absRoot pkgs g obj id ∧ chk.kind obj = .typeName ∧ chk.isInterface obj = interfaces := by
  unfold MapsType
  exact and_congr_left fun hobj => h.lookup_eq_some_iff (.inl hobj.1) ord

/-- **What two runs leave between two nodes** is the same, if the uses that have an edge to add to
none agree. -/
theorem Unambiguous.between_enrich_eq (h : Unambiguous chk absRoot pkgs g) (hg : Inv g)
    (hagree : Agree chk absRoot pkgs g) (ord ord' : Orders) (i : String × String) :
    (enrich chk ord absRoot pkgs g).1.between i.1 i.2 =
      (enrich chk ord' absRoot pkgs g).1.between i.1 i.2 := by
  rw [(between_enrich _ _ _ _ hg i).2, (between_enrich _ _ _ _ hg i).2]
  have hnil : usesAt chk ord absRoot pkgs (mapDefinitions chk ord absRoot pkgs g).objToNode g i =
      [] ↔ usesAt chk ord' absRoot pkgs (mapDefinitions chk ord' absRoot pkgs g).objToNode g i =
      [] := by
    rw [usesAt_eq_nil_iff, usesAt_eq_nil_iff]
    refine forall₂_congr fun u hu => not_congr ?_
    rw [h.useEnds_eq_some_iff ord hu, h.useEnds_eq_some_iff ord' hu]
  have huses : (g.between i.1 i.2).upsert (fun _ => True) (raised providerName)
      ((usesAt chk ord absRoot pkgs (mapDefinitions chk ord absRoot pkgs g).objToNode g
        i).findSome? id) =
      (g.between i.1 i.2).upsert (fun _ => True) (raised providerName)
      ((usesAt chk ord' absRoot pkgs (mapDefinitions chk ord' absRoot pkgs g).objToNode g
        i).findSome? id) := by
    cases hl : g.between i.1 i.2 with
    | cons e l => exact List.upsert_of_exists ⟨e, List.mem_cons_self, trivial⟩ _ _
    | nil =>
      rw [findSome?_usesAt, findSome?_usesAt, entries_eq, entries_eq,
        List.findSome?_flatten_eq (h.runs_useEdgeAt ord i) (h.runs_useEdgeAt ord' i)
          (hagree i hl)]
  have hraised : raisedIf g (ifaceTypes chk ord (mapDefinitions chk ord absRoot pkgs g).objToNode) =
      raisedIf g (ifaceTypes chk ord' (mapDefinitions chk ord' absRoot pkgs g).objToNode) := by
    funext e
    refine if_congr (and_congr_right fun _ => and_congr_right fun _ => and_congr_right fun _ => ?_)
      rfl rfl
    rw [isSome_ifaceTypes, isSome_ifaceTypes]
    simp only [h.mapsType_iff]
  have hpairs : i ∈ acceptedPairs chk ord (mapDefinitions chk ord absRoot pkgs g).objToNode ↔
      i ∈ acceptedPairs chk ord' (mapDefinitions chk ord' absRoot pkgs g).objToNode := by
    obtain ⟨t, u⟩ := i
    rw [mem_acceptedPairs, mem_acceptedPairs]
    simp only [h.mapsType_iff]
  unfold leaves
  simp only [hnil, huses, hraised, hpairs]

/-- The edges of two runs are the same, if the uses agree. -/
theorem Unambiguous.storedEdge_iff (h : Unambiguous chk absRoot pkgs g) (hg : Inv g)
    (hagree : Agree chk absRoot pkgs g) (ord ord' : Orders) (e : Edge) :
    (enrich chk ord absRoot pkgs g).1.StoredEdge e ↔
      (enrich chk ord' absRoot pkgs g).1.StoredEdge e := by
  have hbetween := h.between_enrich_eq hg hagree ord ord' (e.fromID, e.toID)
  simp only at hbetween
  rw [(between_enrich _ _ _ _ hg ("", "")).1.inv.storedEdge_iff,
    (between_enrich _ _ _ _ hg ("", "")).1.inv.storedEdge_iff, hbetween]

/-! ### The numbers of two runs -/

/-- The definitions that are matched are counted. -/
theorem symbolsCovered_mapDefinitions (ord : Orders) :
    (mapDefinitions chk ord absRoot pkgs g).symbolsCovered =
      (entries ord pkgs .defs Info.defs).countP fun d =>
        d.2.isSome && (matchIdent ord absRoot g d.1).isSome := by
  unfold mapDefinitions
  generalize entries ord pkgs .defs Info.defs = l
  induction l using List.reverseRecOn with
  | nil => rfl
  | append_singleton l d ih =>
    rw [List.foldl_concat, List.countP_append, ← ih, List.countP_singleton]
    generalize l.foldl (defStep chk ord absRoot g) {} = s
    unfold defStep
    cases hd : d.2 with
    | none => rfl
    | some obj =>
      cases hr : matchIdent ord absRoot g d.1 with
      | none => simp
      | some r => simp

/-- **The coverage** does not depend on the orders. -/
theorem coverage_eq (hg : NodeInv g) (ord ord' : Orders) :
    coverage (mapDefinitions chk ord absRoot pkgs g).symbolsCovered (countedNodes ord g).length =
      coverage (mapDefinitions chk ord' absRoot pkgs g).symbolsCovered
        (countedNodes ord' g).length := by
  have hcovered : (mapDefinitions chk ord absRoot pkgs g).symbolsCovered =
      (mapDefinitions chk ord' absRoot pkgs g).symbolsCovered := by
    rw [symbolsCovered_mapDefinitions, symbolsCovered_mapDefinitions,
      (perm_entries ord pkgs .defs Info.defs).countP_eq,
      (perm_entries ord' pkgs .defs Info.defs).countP_eq]
    simp only [isSome_matchIdent ord ord']
  have htotal : (countedNodes ord g).Perm (countedNodes ord' g) := by
    refine List.Perm.filter _ ((List.perm_ext_iff_of_nodup ((hg.nodup_allNodes _).of_map _)
      ((hg.nodup_allNodes _).of_map _)).mpr fun r => ?_)
    rw [hg.mem_allNodes, hg.mem_allNodes]
  rw [hcovered, htotal.length_eq]

/-- A result but for the numbers of the edges. -/
def rest (r : EnrichResult) : EnrichResult := { r with edgesConfirmed := 0, edgesAdded := 0 }

theorem rest_confirmOrAdd (provider fromID toID : String) (kind : Option EdgeKind)
    (filePath : String) (line : ℤ) (s : Graph × EnrichResult) :
    rest (confirmOrAdd provider fromID toID kind filePath line s).2 = rest s.2 := by
  unfold confirmOrAdd
  split
  · split_ifs <;> rfl
  · split <;> rfl

theorem rest_addMissing (provider implID ifaceID : String) (s : Graph × EnrichResult) :
    rest (addMissing provider implID ifaceID s).2 = rest s.2 := by
  unfold addMissing addImplements
  split
  · rfl
  · split <;> rfl

variable (chk absRoot pkgs g) in
/-- The three loops over the edges count the edges only. -/
theorem rest_afterImplements (ord : Orders) :
    rest (afterImplements chk ord absRoot pkgs g).2 =
      coverage (mapDefinitions chk ord absRoot pkgs g).symbolsCovered
        (countedNodes ord g).length := by
  rw [afterImplements, addMissingImplements, enrichImplements, afterUses]
  rw [List.foldl_frame (π := fun s : Graph × EnrichResult => rest s.2),
    List.foldl_frame (π := fun s : Graph × EnrichResult => rest s.2),
    List.foldl_frame (π := fun s : Graph × EnrichResult => rest s.2)]
  · rfl
  · intro s u
    rcases useStep_eq chk ord (mapDefinitions chk ord absRoot pkgs g).objToNode absRoot s u with
      ⟨heq, -⟩ | ⟨obj, at_, ends, -, -, -, heq⟩
    · rw [heq]
    · rw [heq]
      exact rest_confirmOrAdd ..
  · intro s r
    rw [confirmStep_eq]
    split_ifs <;> rfl
  · exact fun s p => rest_addMissing ..

/-- A definition whose node phase 4 counts. -/
def enriches (chk : Checker Obj) (objToNode : GoMap Obj String) (g : Graph)
    (d : Ident × Option Obj) : Bool :=
  match d.2 with
  | none => false
  | some obj => ((objToNode.lookup obj).bind g.getNode).isSome &&
      decide (chk.typeString obj ≠ "" ∧ chk.typeString obj ≠ "invalid type")

theorem result_metaStep (objToNode : GoMap Obj String) (s : Graph × EnrichResult)
    (d : Ident × Option Obj) : (metaStep chk objToNode s d).2 =
      { s.2 with
        nodesEnriched :=
          s.2.nodesEnriched + if enriches chk objToNode s.1 d = true then 1 else 0 } := by
  unfold metaStep
  split
  · rename_i hd
    have hnot : enriches chk objToNode s.1 d = false := by
      unfold enriches
      rw [hd]
    rw [hnot]
    rfl
  · rename_i obj hd
    have hthis : enriches chk objToNode s.1 d = (((objToNode.lookup obj).bind s.1.getNode).isSome &&
        decide (chk.typeString obj ≠ "" ∧ chk.typeString obj ≠ "invalid type")) := by
      unfold enriches
      rw [hd]
    rw [hthis]
    split
    · rename_i hnode
      rw [hnode]
      rfl
    · rename_i node hnode
      rw [hnode]
      have htype : ∀ t : Graph × EnrichResult, (putReturnType chk t node obj).2 = t.2 := by
        intro t
        unfold putReturnType
        split <;> rfl
      refine (htype _).trans ?_
      simp only [Option.isSome_some, Bool.true_and, decide_eq_true_eq]
      split_ifs <;> rfl

/-- **What phase 4 counts.** -/
theorem result_foldl_metaStep (objToNode : GoMap Obj String) {s : Graph × EnrichResult}
    (hs : Kept g s.1) (l : List (Ident × Option Obj)) :
    (l.foldl (metaStep chk objToNode) s).2 =
      { s.2 with
        nodesEnriched := s.2.nodesEnriched + l.countP (enriches chk objToNode g) } := by
  induction l generalizing s with
  | nil => rfl
  | cons d l ih =>
    have hkept : Kept g (metaStep chk objToNode s d).1 := (metaStep_kept chk objToNode hs [d]).1
    rw [List.foldl_cons, ih hkept, result_metaStep, List.countP_cons]
    have hsame : enriches chk objToNode s.1 d = enriches chk objToNode g d := by
      unfold enriches
      simp only [hs.nodes.getNode]
    rw [hsame]
    simp only [Nat.add_assoc]
    rw [Nat.add_comm (l.countP (enriches chk objToNode g))]

/-- **Phase 4 counts the same definitions in two runs**, whatever they are mapped to. -/
theorem countP_enriches (hg : NodeInv g) (ord ord' : Orders) :
    (entries ord pkgs .metadata Info.defs).countP
        (enriches chk (mapDefinitions chk ord absRoot pkgs g).objToNode g) =
      (entries ord' pkgs .metadata Info.defs).countP
        (enriches chk (mapDefinitions chk ord' absRoot pkgs g).objToNode g) := by
  rw [(perm_entries ord pkgs .metadata Info.defs).countP_eq,
    (perm_entries ord' pkgs .metadata Info.defs).countP_eq]
  have hfound : ∀ (ord : Orders) (obj : Obj),
      (((mapDefinitions chk ord absRoot pkgs g).objToNode.lookup obj).bind g.getNode).isSome =
        true ↔ ∃ id, Denotes absRoot pkgs g obj id := by
    intro ord obj
    constructor
    · intro hsome
      obtain ⟨r, hr⟩ := Option.isSome_iff_exists.mp hsome
      obtain ⟨id, hid, -⟩ := Option.bind_eq_some_iff.mp hr
      exact ⟨id, denotes_of_lookup hid⟩
    · rintro ⟨id, hid⟩
      obtain ⟨id', hid'⟩ := hid.isSome_lookup chk ord
      rw [hid', Option.bind_some]
      exact (denotes_of_lookup hid').getNode hg
  have hsame : enriches chk (mapDefinitions chk ord absRoot pkgs g).objToNode g =
      enriches chk (mapDefinitions chk ord' absRoot pkgs g).objToNode g := by
    funext d
    unfold enriches
    split
    · rfl
    · rename_i obj _
      rw [Bool.eq_iff_iff.mpr ((hfound ord obj).trans (hfound ord' obj).symm)]
  rw [hsame]

/-! ### The outcomes of two runs -/

/-- What is compared of an edge: its ends, kind and place, its confidence and its origin. -/
def visible (e : Edge) : EdgeKey × ℚ × String := (keyOf e, e.confidence, e.origin)

/-- **Two runs come to the same**: to the same edges, and to the same counters. -/
structure SameOutcome (s s' : Graph × EnrichResult) : Prop where
  edges : ∀ v, (∃ e, s.1.StoredEdge e ∧ visible e = v) ↔ ∃ e, s'.1.StoredEdge e ∧ visible e = v
  result : s.2 = s'.2

/-- **The enrichment does not depend on the orders** of its loops. -/
def Independent (chk : Checker Obj) (absRoot : String) (pkgs : List (Package Obj)) (g : Graph) :
    Prop :=
  ∀ ord ord', SameOutcome (enrich chk ord absRoot pkgs g) (enrich chk ord' absRoot pkgs g)

variable (chk absRoot pkgs) in
/-- The last phase leaves the edges alone. -/
theorem edgeList_enrich (hg : Inv g) (ord : Orders) :
    Kept g (afterImplements chk ord absRoot pkgs g).1 ∧
      edgeList (enrich chk ord absRoot pkgs g).1 =
        edgeList (afterImplements chk ord absRoot pkgs g).1 := by
  have hkept₂ := (between_afterUses chk ord absRoot pkgs hg ("", "")).1
  have hkept₃ := kept_enrichImplements chk ord (mapDefinitions chk ord absRoot pkgs g).objToNode
    hkept₂.inv
  have hkept₄ := (between_addMissingImplements chk ord
    (mapDefinitions chk ord absRoot pkgs g).objToNode hkept₃.inv).1
  have hkept : Kept g (afterImplements chk ord absRoot pkgs g).1 :=
    ⟨hkept₄.inv, (hkept₂.nodes.trans hkept₃.nodes).trans hkept₄.nodes⟩
  obtain ⟨-, hshards, hedge⟩ := metaStep_kept chk
    (mapDefinitions chk ord absRoot pkgs g).objToNode hkept (entries ord pkgs .metadata Info.defs)
  refine ⟨hkept, ?_⟩
  rw [enrich_eq]
  unfold edgeList allEdges
  rw [hshards, hedge]
  rfl

/-- **The counters of a run.** -/
theorem result_enrich (hg : Inv g) (ord : Orders) :
    (enrich chk ord absRoot pkgs g).2 =
      { coverage (mapDefinitions chk ord absRoot pkgs g).symbolsCovered
          (countedNodes ord g).length with
        edgesConfirmed := (afterImplements chk ord absRoot pkgs g).2.edgesConfirmed
        edgesAdded := (afterImplements chk ord absRoot pkgs g).2.edgesAdded
        nodesEnriched := (entries ord pkgs .metadata Info.defs).countP
          (enriches chk (mapDefinitions chk ord absRoot pkgs g).objToNode g) } := by
  rw [enrich_eq, result_foldl_metaStep _ (edgeList_enrich chk absRoot pkgs hg ord).1,
    ← rest_afterImplements]
  have hzero : (afterImplements chk ord absRoot pkgs g).2.nodesEnriched = 0 :=
    congrArg EnrichResult.nodesEnriched (rest_afterImplements chk absRoot pkgs g ord)
  rw [hzero, Nat.zero_add]
  rfl

/-- **Without a choice of nodes, the enrichment does not depend on the orders if the uses agree.** -/
theorem Unambiguous.independent (h : Unambiguous chk absRoot pkgs g) (hg : Inv g)
    (hagree : Agree chk absRoot pkgs g) : Independent chk absRoot pkgs g := by
  intro ord ord'
  have hstored := h.storedEdge_iff hg hagree ord ord'
  refine ⟨fun v => by simp only [hstored], ?_⟩
  -- the counters of the edges follow from the edges
  have hperm : (edgeList (afterImplements chk ord absRoot pkgs g).1).Perm
      (edgeList (afterImplements chk ord' absRoot pkgs g).1) := by
    obtain ⟨hkept, hlist⟩ := edgeList_enrich chk absRoot pkgs hg ord
    obtain ⟨hkept', hlist'⟩ := edgeList_enrich chk absRoot pkgs hg ord'
    refine (List.perm_ext_iff_of_nodup (nodup_edgeList hkept.inv)
      (nodup_edgeList hkept'.inv)).mpr fun e => ?_
    rw [← hlist, ← hlist', mem_edgeList (between_enrich _ _ _ _ hg ("", "")).1.inv,
      mem_edgeList (between_enrich _ _ _ _ hg ("", "")).1.inv, hstored]
  have ht := tally_afterImplements chk ord absRoot pkgs hg
  have ht' := tally_afterImplements chk ord' absRoot pkgs hg
  have hadded : (afterImplements chk ord absRoot pkgs g).2.edgesAdded =
      (afterImplements chk ord' absRoot pkgs g).2.edgesAdded := by
    have h1 := ht.added
    have h2 := ht'.added
    rw [hperm.length_eq] at h1
    omega
  have hconfirmed : (afterImplements chk ord absRoot pkgs g).2.edgesConfirmed =
      (afterImplements chk ord' absRoot pkgs g).2.edgesConfirmed := by
    have h1 := ht.confirmed
    have h2 := ht'.confirmed
    rw [hperm.countP_eq] at h1
    omega
  rw [result_enrich hg, result_enrich hg, coverage_eq hg.nodes ord ord', hadded, hconfirmed,
    countP_enriches hg.nodes ord ord']

/-! ### Uses that do not agree -/

omit [DecidableEq Obj] in
/-- The edge of a use is told by its identity, and it is no `implements` edge. -/
theorem eq_of_useEdge {u : Ident × Option Obj} {i : String × String} {e : Edge}
    (h : useEdge chk absRoot u i = some e) :
    e = semanticEdge i.1 i.2 e.kind e.filePath e.line providerName ∧ e.kind ≠ .edgeImplements := by
  simp only [useEdge, Option.bind_eq_some_iff, Option.map_eq_some_iff] at h
  obtain ⟨obj, -, at_, -, kind, hkind, rfl⟩ := h
  refine ⟨rfl, ?_⟩
  rintro (rfl : kind = .edgeImplements)
  cases hobj : chk.kind obj <;> rw [hobj] at hkind <;> simp [inferEdgeKindFromObj] at hkind

/-- **An edge that can come first comes first in some run.** -/
theorem Unambiguous.exists_findSome?_eq (h : Unambiguous chk absRoot pkgs g) {i : String × String}
    {e : Edge} (he : List.Found (UseGives chk absRoot pkgs g i) (groups pkgs Info.uses) e) :
    ∃ ord, (usesAt chk ord absRoot pkgs (mapDefinitions chk ord absRoot pkgs g).objToNode g
      i).findSome? id = some e := by
  obtain ⟨ls₁, l, ls₂, hsplit, ⟨u, hu, hgives⟩, hbefore⟩ := List.found_iff.mp he
  let ord : Orders := ⟨.first u, .default, .default⟩
  refine ⟨ord, ?_⟩
  have hruns := h.runs_useEdgeAt ord i
  have hordered := forall₂_orderedGroups ord pkgs .uses Info.uses
  rw [hsplit] at hordered
  have hdrop := List.forall₂_drop_append _ _ _ hordered
  obtain ⟨l', ls₂', ⟨s, rfl⟩, -, hrest⟩ := List.forall₂_cons_right_iff.mp hdrop
  have hmem : ∀ v ∈ ((orderedGroups ord pkgs .uses Info.uses).take ls₁.length).flatten,
      v ∈ ls₁.flatten := by
    have hperm := perm_orderedGroups ord pkgs .uses Info.uses
    rw [hsplit] at hperm
    exact fun v => (List.Perm.flatten_congr (List.forall₂_take_append _ _ _ hperm)).mem_iff.mp
  have hflatten : ∀ v, v ∈ ls₁.flatten ∨ v ∈ l → v ∈ (groups pkgs Info.uses).flatten := by
    intro v hv
    rw [hsplit, List.flatten_append, List.flatten_cons]
    rcases hv with hv | hv
    · exact List.mem_append_left _ hv
    · exact List.mem_append_right _ (List.mem_append_left _ hv)
  rw [findSome?_usesAt, entries_eq, ← List.take_append_drop ls₁.length (orderedGroups ..), hrest]
  refine List.findSome?_flatten_of_head (fun v hv => ?_) (GoMap.RangeOrder.head?_first hu) ?_
  · -- what comes before gives no edge
    rw [Option.eq_none_iff_forall_ne_some]
    exact fun y hy => hbefore v (hmem v hv) y (hruns.sound v (hflatten v (.inl (hmem v hv))) y hy)
  · rw [useEdgeAt, if_pos ((h.useEnds_eq_some_iff ord (hflatten u (.inr hu))).mpr hgives.1),
      hgives.2]

omit [DecidableEq Obj] in
/-- What a run leaves between two nodes with no edge between them: the first edge that the uses
give, and implementations. -/
theorem mem_leaves_nil (ord : Orders) {objToNode : GoMap Obj String} {uses : List (Option Edge)}
    {i : String × String} {e : Edge} (he : uses.findSome? id = some e)
    (hkind : e.kind ≠ .edgeImplements) :
    e ∈ leaves chk ord objToNode g uses i [] ∧
      ∀ x ∈ leaves chk ord objToNode g uses i [], x = e ∨ x.kind = .edgeImplements := by
  have hne : uses ≠ [] := by
    rintro rfl
    cases he
  have hraise : raisedIf g (ifaceTypes chk ord objToNode) e = e := if_neg fun h => hkind h.1
  unfold leaves
  simp only
  rw [if_neg hne, he, List.upsert_nil, Option.toList_some, List.map_singleton, hraise]
  split_ifs
  · rw [List.upsert_cons_neg (p := fun e : Edge => e.kind = .edgeImplements) hkind,
      List.upsert_nil]
    refine ⟨List.mem_cons_self, fun x hx => ?_⟩
    rcases List.mem_cons.mp hx with rfl | hx
    · exact .inl rfl
    · obtain ⟨r, -, rfl⟩ := Option.map_eq_some_iff.mp (Option.mem_toList.mp hx)
      exact .inr rfl
  · exact ⟨List.mem_cons_self, fun x hx => .inl (List.mem_singleton.mp hx)⟩

/-- **If the enrichment does not depend on the orders, the uses agree.** -/
theorem Unambiguous.agree (h : Unambiguous chk absRoot pkgs g) (hg : Inv g)
    (hind : Independent chk absRoot pkgs g) : Agree chk absRoot pkgs g := by
  intro i hnil e e' he he'
  obtain ⟨ord, hfirst⟩ := h.exists_findSome?_eq he
  obtain ⟨ord', hfirst'⟩ := h.exists_findSome?_eq he'
  obtain ⟨hends, hkind⟩ : e = semanticEdge i.1 i.2 e.kind e.filePath e.line providerName ∧
      e.kind ≠ .edgeImplements := by
    obtain ⟨ls₁, l, ls₂, -, ⟨u, -, hgives⟩, -⟩ := List.found_iff.mp he
    exact eq_of_useEdge hgives.2
  obtain ⟨hends', hkind'⟩ : e' = semanticEdge i.1 i.2 e'.kind e'.filePath e'.line providerName ∧
      e'.kind ≠ .edgeImplements := by
    obtain ⟨ls₁, l, ls₂, -, ⟨u, -, hgives⟩, -⟩ := List.found_iff.mp he'
    exact eq_of_useEdge hgives.2
  obtain ⟨hkept, hbetween⟩ := between_enrich chk ord absRoot pkgs hg i
  obtain ⟨hkept', hbetween'⟩ := between_enrich chk ord' absRoot pkgs hg i
  rw [hnil] at hbetween hbetween'
  -- the edge of the one run is in the other run, where it is the edge that comes first there
  have hstored : (enrich chk ord absRoot pkgs g).1.StoredEdge e := by
    have hmem : e ∈ (enrich chk ord absRoot pkgs g).1.between i.1 i.2 := by
      rw [hbetween]
      exact (mem_leaves_nil ord hfirst hkind).1
    exact (hkept.inv.mem_between.mp hmem).1
  obtain ⟨x, hx, hvisible⟩ := ((hind ord ord').edges (visible e)).mp ⟨e, hstored, rfl⟩
  have hkey : keyOf x = keyOf e := congrArg Prod.fst hvisible
  have hxi : x ∈ (enrich chk ord' absRoot pkgs g).1.between i.1 i.2 := by
    refine hkept'.inv.mem_between.mpr ⟨hx, ?_, ?_⟩
    · exact (congrArg EdgeKey.fromID hkey).trans (congrArg Edge.fromID hends)
    · exact (congrArg EdgeKey.toID hkey).trans (congrArg Edge.toID hends)
  rw [hbetween'] at hxi
  rcases (mem_leaves_nil ord' hfirst' hkind').2 x hxi with rfl | hx
  · have h1 : x.kind = e.kind := congrArg EdgeKey.kind hkey
    have h2 : x.filePath = e.filePath := congrArg EdgeKey.filePath hkey
    have h3 : x.line = e.line := congrArg EdgeKey.line hkey
    rw [hends, hends', h1, h2, h3]
  · exact absurd ((congrArg EdgeKey.kind hkey).symm.trans hx) hkind

/-- **Without a choice of nodes, the enrichment does not depend on the orders, exactly if the uses
agree.** -/
theorem independent_iff (h : Unambiguous chk absRoot pkgs g) (hg : Inv g) :
    Independent chk absRoot pkgs g ↔ Agree chk absRoot pkgs g :=
  ⟨h.agree hg, h.independent hg⟩

end Mapping

/-! ### Two uses in one function -/

namespace TwoUses

/-- A function. -/
def caller : Node where
  id := "a.go::F"
  kind := .kindFunction
  name := "F"
  filePath := "a.go"
  startLine := 1
  endLine := 9
  language := "go"

/-- A function that is called. -/
def callee : Node where
  id := "b.go::G"
  kind := .kindFunction
  name := "G"
  filePath := "b.go"
  startLine := 1
  endLine := 2
  language := "go"

/-- The two functions, with no edge between them. -/
def graph : Graph := (Graph.new.putNode caller).putNode callee

theorem inv_graph : Inv graph := (Inv.new.putNode _).putNode _

/-- A type checker with one object, the function that is called. -/
def checker : Checker Unit where
  kind := fun _ => .func
  isInterface := fun _ => false
  implements := fun _ _ => false
  pointerImplements := fun _ _ => false
  pkgPath := fun _ => some "example"
  name := fun _ => "G"
  typeString := fun _ => "func()"
  returnType := fun _ => none

/-- A package in which the one function calls the other at some lines. -/
def packages (lines : List ℤ) : List (Package Unit) :=
  [⟨some
    { defs := [(⟨"G", some ⟨"/repo/b.go", 1⟩⟩, some ())]
      uses := lines.map fun line => (⟨"G", some ⟨"/repo/a.go", line⟩⟩, some ()) }⟩]

/-- The orders of a run in which the maps of the packages are gone over the other way round. -/
def reversed : Orders := ⟨⟨fun _ l => l.reverse, fun _ l => l.reverse_perm⟩, .default, .default⟩

/-- The orders of the representation. -/
def forward : Orders := ⟨.default, .default, .default⟩

/-- The call at a line. -/
def call (line : ℤ) : Edge :=
  semanticEdge "a.go::F" "b.go::G" .edgeCalls "a.go" line providerName

/-- The file of each function has no other node, so there is no choice in what is found there. -/
theorem fileNodes_graph (ord : Orders) :
    ord.fileNodes graph "a.go" = [⟨0⟩] ∧ ord.fileNodes graph "b.go" = [⟨1⟩] := by
  have ha : graph.getFileNodes "a.go" = [⟨0⟩] := by decide +kernel
  have hb : graph.getFileNodes "b.go" = [⟨1⟩] := by decide +kernel
  rw [Orders.fileNodes, Orders.fileNodes, ha, hb]
  exact ⟨List.perm_singleton.mp (ord.nodes.perm ..), List.perm_singleton.mp (ord.nodes.perm ..)⟩

theorem eq_of_denotes {lines : List ℤ} {obj : Unit} {id : String}
    (h : Denotes "/repo" (packages lines) graph obj id) : id = "b.go::G" := by
  have hplace : place "/repo" ⟨"G", some ⟨"/repo/b.go", 1⟩⟩ = some ("b.go", 1) := by decide +kernel
  have hmatch : matchNodeByFileLine graph [⟨1⟩] 1 = some ⟨1⟩ := by decide +kernel
  simp only [Denotes, groups, packages, List.map_cons, List.map_nil, List.reverse_singleton,
    List.Found, List.mem_singleton, exists_eq_left, and_false, or_false] at h
  obtain ⟨-, ord, r, hr, rfl⟩ := h
  rw [matchIdent, hplace] at hr
  simp only at hr
  rw [(fileNodes_graph ord).2, hmatch] at hr
  obtain rfl := Option.some.inj hr
  decide +kernel

theorem eq_of_canCall {id : String}
    (h : CanCall "/repo" graph ⟨"G", some ⟨"/repo/a.go", 3⟩⟩ id) : id = "a.go::F" := by
  have hplace : place "/repo" ⟨"G", some ⟨"/repo/a.go", 3⟩⟩ = some ("a.go", 3) := by decide +kernel
  have hfunc : findContainingFunc graph [⟨0⟩] 3 = some ⟨0⟩ := by decide +kernel
  obtain ⟨ord, at_, r, hat, hr, rfl⟩ := h
  rw [hplace] at hat
  obtain rfl := Option.some.inj hat
  rw [(fileNodes_graph ord).1, hfunc] at hr
  obtain rfl := Option.some.inj hr
  decide +kernel

/-- One call alone becomes the same edge in every order. -/
theorem independent_one : Independent checker "/repo" (packages [3]) graph := by
  refine (independent_iff ⟨fun obj _ id id' hid hid' => ?_, fun u hu obj _ _ a a' ha ha' => ?_⟩
    inv_graph).mpr fun i _ e e' he he' => ?_
  · rw [eq_of_denotes hid, eq_of_denotes hid']
  · obtain rfl := List.mem_singleton.mp hu
    rw [eq_of_canCall ha, eq_of_canCall ha']
  · have honly : ∀ x, List.Found (UseGives checker "/repo" (packages [3]) graph i)
        (groups (packages [3]) Info.uses) x →
        useEdge checker "/repo" (⟨"G", some ⟨"/repo/a.go", 3⟩⟩, some ()) i = some x := by
      rintro x (⟨u, hu, hgives⟩ | ⟨-, hnone⟩)
      · obtain rfl := List.mem_singleton.mp hu
        exact hgives.2
      · exact hnone.elim
    exact Option.some.inj ((honly e he).symm.trans (honly e' he'))

/-- **Which of two calls becomes the edge depends on the order of the uses.** -/
theorem not_independent : ¬Independent checker "/repo" (packages [3, 7]) graph := by
  intro hind
  have hforward : ((enrich checker forward "/repo" (packages [3, 7]) graph).1.between
      "a.go::F" "b.go::G").map visible = [visible (call 3)] := by decide +kernel
  have hreversed : ((enrich checker reversed "/repo" (packages [3, 7]) graph).1.between
      "a.go::F" "b.go::G").map visible = [visible (call 7)] := by decide +kernel
  have hinv : ∀ ord, Inv (enrich checker ord "/repo" (packages [3, 7]) graph).1 := fun ord =>
    (between_enrich checker ord "/repo" (packages [3, 7]) inv_graph ("", "")).1.inv
  obtain ⟨e, he, hvisible⟩ :=
    List.mem_map.mp (hforward ▸ List.mem_singleton_self (visible (call 3)))
  obtain ⟨x, hx, hsame⟩ := ((hind forward reversed).edges _).mp
    ⟨e, ((hinv forward).mem_between.mp he).1, hvisible⟩
  have hkey : keyOf x = keyOf (call 3) := congrArg Prod.fst hsame
  have hmem : x ∈ (enrich checker reversed "/repo" (packages [3, 7]) graph).1.between
      "a.go::F" "b.go::G" :=
    (hinv reversed).mem_between.mpr
      ⟨hx, congrArg EdgeKey.fromID hkey, congrArg EdgeKey.toID hkey⟩
  have hcall := List.mem_map_of_mem (f := visible) hmem
  rw [hreversed, List.mem_singleton, hsame] at hcall
  exact absurd (congrArg (fun v => v.1.line) hcall) (by decide)

end TwoUses

end GoTypes

end Semantic

end Gortex
