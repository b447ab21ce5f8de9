import Gortex.Resolver.CrossFlag
import Gortex.Resolver.Order

/-!
# The accounts of the resolver

What the resolver answers for an edge is one of three things: a node that it has found, a
label of something outside the graph, or nothing, and then the edge stays as it is. The
counter of the edge says which (`Gortex.Lookup.accounted_resolveEdge`), and an import and a
qualified call are always answered.

A placeholder is told from an ID by how it starts, and nothing keeps a node from having an ID
that starts like one. An edge that is resolved to such a node may have the target it had
before, so the accounts are exact where no node has the placeholder for its ID
(`Gortex.Graph.accounts_resolver`).

Whether an edge is answered at all depends on the nodes only
(`Gortex.Lookup.SameNames.resolveEdge_iff`): what a pass writes on the other edges may change
the answer, not that there is one. So what one pass has left a second one leaves as well
(`Gortex.Graph.resolveAll_resolveAll`).
-/

namespace Gortex

open GoString Edge

/-! ### Answers -/

namespace Lookup

variable {v : Lookup} {e : Edge}

/-- **An answer**: a node that is found, or a label that is no placeholder. -/
def Replies (v : Lookup) (y : Edge × Outcome) : Prop :=
  (y.2 = .resolved ∧ ∃ c, v.Finds c ∧ y.1.toID = c.id) ∨ (y.2 = .external ∧ ¬y.1.IsUnresolved)

/-- What is answered, if anything is. -/
def MayReply (v : Lookup) (x : Option (Edge × Outcome)) : Prop := ∀ y, x = some y → v.Replies y

/-- **What the resolver makes of an edge**: an answer, or the edge as it was. -/
def Accounted (v : Lookup) (e : Edge) (y : Edge × Outcome) : Prop :=
  v.Replies y ∨ y = (e, .unresolved)

theorem MayReply.none : v.MayReply none := fun _ h => absurd h.symm (Option.some_ne_none _)

theorem MayReply.orElse {x y : Option (Edge × Outcome)} (hx : v.MayReply x) (hy : v.MayReply y) :
    v.MayReply (x <|> y) := by
  cases x with
  | none => exact hy
  | some x => exact hx

theorem MayReply.getD {x : Option (Edge × Outcome)} (hx : v.MayReply x) :
    v.Accounted e (x.getD (e, .unresolved)) := by
  cases x with
  | none => exact Or.inr rfl
  | some x => exact Or.inl (hx x rfl)

/-- A pass that goes to the candidate it finds. -/
theorem mayReply_map {x : Option Node} {f : Node → Edge × Outcome}
    (hx : ∀ c, x = some c → v.Finds c)
    (hf : ∀ c, (f c).2 = .resolved ∧ (f c).1.toID = c.id) : v.MayReply (x.map f) := by
  intro y hy
  obtain ⟨c, hc, rfl⟩ := Option.map_eq_some_iff.mp hy
  exact Or.inl ⟨(hf c).1, c, hx c hc, (hf c).2⟩

theorem mayReply_find? {name : String} {p : Node → Bool} {f : Node → Edge × Outcome}
    (hf : ∀ c, (f c).2 = .resolved ∧ (f c).1.toID = c.id) :
    v.MayReply (((v.findNodesByName name).find? p).map f) :=
  mayReply_map (fun _ hc => finds_of_find? hc) hf

theorem replies_of_finds {c : Node} {y : Edge × Outcome} (hc : v.Finds c) (hy : y.2 = .resolved)
    (ht : y.1.toID = c.id) : v.Replies y := Or.inl ⟨hy, c, hc, ht⟩

theorem mayReply_sameDirFirst (name : String) (fits : Node → Bool) :
    v.MayReply (v.sameDirFirst e (v.findNodesByName name) fits) :=
  (mayReply_find? fun _ => ⟨rfl, rfl⟩).orElse (mayReply_find? fun _ => ⟨rfl, rfl⟩)

theorem mayReply_applyBuiltinIfKnown (methodName : String) :
    v.MayReply (applyBuiltinIfKnown e methodName) := by
  intro y hy
  refine Or.inr ⟨?_, answers_applyBuiltinIfKnown e methodName y hy⟩
  unfold applyBuiltinIfKnown at hy
  simp only at hy
  split at hy
  · cases hy
  · obtain ⟨category, -, rfl⟩ := Option.map_eq_some_iff.mp hy
    rfl

theorem mayReply_resolveByHint (name : String) :
    v.MayReply (v.resolveByHint e (v.findNodesByName name)) := by
  unfold resolveByHint
  simp only
  split
  · exact MayReply.none
  · exact (mayReply_find? fun _ => ⟨rfl, rfl⟩).orElse ((mayReply_find? fun _ => ⟨rfl, rfl⟩).orElse
      (mayReply_find? fun _ => ⟨rfl, rfl⟩))

theorem mayReply_resolveByCaller (name : String) :
    v.MayReply (v.resolveByCaller e (v.findNodesByName name)) := by
  unfold resolveByCaller
  simp only
  split
  · exact MayReply.none
  · exact (mayReply_find? fun _ => ⟨rfl, rfl⟩).orElse (mayReply_find? fun _ => ⟨rfl, rfl⟩)

theorem mayReply_resolveByName (name : String) :
    v.MayReply (resolveByName e (v.findNodesByName name)) :=
  (mayReply_find? fun _ => ⟨rfl, rfl⟩).orElse ((mayReply_find? fun _ => ⟨rfl, rfl⟩).orElse
    ((mayReply_find? fun _ => ⟨rfl, rfl⟩).orElse (mayReply_find? fun _ => ⟨rfl, rfl⟩)))

theorem mayReply_methodCall (name : String) :
    v.MayReply (v.resolveByHint e (v.findNodesByName name)
      <|> v.resolveByCaller e (v.findNodesByName name) <|> resolveByName e (v.findNodesByName name)
      <|> applyBuiltinIfKnown e name) :=
  (mayReply_resolveByHint _).orElse ((mayReply_resolveByCaller _).orElse
    ((mayReply_resolveByName _).orElse (mayReply_applyBuiltinIfKnown _)))

/-- **An import is always answered.** -/
theorem replies_resolveImport (importPath : String) : v.Replies (v.resolveImport e importPath) := by
  unfold resolveImport
  cases hq : v.getNodeByQualName importPath with
  | some node => exact replies_of_finds (Or.inr (Or.inl ⟨_, hq⟩)) rfl rfl
  | none =>
    simp only
    split
    · rename_i n hn
      exact replies_of_finds (finds_of_mem_dirs (mem_dirs_of_find? hn)) rfl rfl
    · split
      · rename_i n hn
        exact replies_of_finds (finds_of_mem_dirs (List.mem_of_mem_head? hn)) rfl rfl
      · exact Or.inr ⟨rfl, not_isUnresolved_of_label (hasPrefix_append _ _) List.mem_cons_self⟩

/-- **So is a qualified call.** -/
theorem replies_resolveExtern (spec : String) : v.Replies (v.resolveExtern e spec) := by
  unfold resolveExtern
  split
  · exact Or.inr ⟨rfl, not_isUnresolved_of_label (hasPrefix_append _ _) List.mem_cons_self⟩
  · rename_i importPath symbol _
    simp only
    split
    · rename_i c hc
      exact replies_of_finds (finds_of_find? hc) rfl rfl
    · refine Or.inr ⟨rfl, ?_⟩
      split
      · exact not_isUnresolved_of_label (hasPrefix_iff.mpr ⟨importPath ++ "::" ++ symbol,
          by simp only [resolveExternal, String.append_assoc]⟩) (List.mem_of_getElem? (i := 1) rfl)
      · exact not_isUnresolved_of_label (hasPrefix_iff.mpr ⟨importPath ++ "::" ++ symbol,
          by simp only [resolveExternal, String.append_assoc]⟩) (List.mem_of_getElem? (i := 2) rfl)

/-- The placeholder is that of an import or of a qualified call. -/
def NamesImport (toID : String) : Prop :=
  hasPrefix toID (unresolvedPrefix ++ "import::") = true ∨
    hasPrefix toID (unresolvedPrefix ++ "extern::") = true

theorem NamesImport.hasPrefix {toID : String} (h : NamesImport toID) :
    GoString.hasPrefix toID unresolvedPrefix = true := by
  rcases h with h | h <;>
  · obtain ⟨rest, rfl⟩ := hasPrefix_iff.mp h
    exact hasPrefix_iff.mpr ⟨_, String.append_assoc ..⟩

/-- **The accounts of one edge.** -/
theorem accounted_resolveEdge (v : Lookup) (e : Edge) : v.Accounted e (v.resolveEdge e) := by
  unfold resolveEdge
  simp only
  split_ifs
  · exact Or.inl (replies_resolveImport _)
  · exact Or.inl (replies_resolveExtern _)
  · exact (mayReply_methodCall _).getD
  · exact ((mayReply_find? fun _ => ⟨rfl, rfl⟩).orElse (mayReply_map
      (fun _ hc => Or.inl ⟨_, List.mem_of_mem_head? hc⟩) fun _ => ⟨rfl, rfl⟩)).getD
  · exact ((mayReply_sameDirFirst _ _).orElse (mayReply_sameDirFirst _ _)).getD
  · exact (mayReply_sameDirFirst _ _).getD

/-- An import and a qualified call are always answered. -/
theorem replies_resolveEdge (h : NamesImport e.toID) : v.Replies (v.resolveEdge e) := by
  have hform : ∀ {label : String}, hasPrefix e.toID (unresolvedPrefix ++ label) = true →
      hasPrefix (trimPrefix e.toID unresolvedPrefix) label = true := fun {label} hl => by
    obtain ⟨rest, hrest⟩ := hasPrefix_iff.mp hl
    rw [hrest, String.append_assoc, trimPrefix_append]
    exact hasPrefix_append _ _
  unfold resolveEdge
  simp only
  split_ifs with himport hextern
  · exact replies_resolveImport _
  · exact replies_resolveExtern _
  all_goals exact absurd (h.imp hform hform) (not_or.mpr ⟨himport, hextern⟩)

/-! ### Whether an edge is answered -/

theorem Replies.ne {y : Edge × Outcome} (h : v.Replies y) : y.2 ≠ .unresolved := by
  rcases h with ⟨hres, -⟩ | ⟨hext, -⟩
  · rw [hres]
    exact Outcome.noConfusion
  · rw [hext]
    exact Outcome.noConfusion

theorem MayReply.getD_ne {x : Option (Edge × Outcome)} (hx : v.MayReply x)
    (hsome : x ≠ Option.none) : (x.getD (e, .unresolved)).2 ≠ .unresolved := by
  cases x with
  | none => exact absurd rfl hsome
  | some y => exact (hx y rfl).ne

/-- An edge that is not answered stays as it is. -/
theorem resolveEdge_eq_of_unresolved (h : (v.resolveEdge e).2 = .unresolved) :
    v.resolveEdge e = (e, .unresolved) :=
  (v.accounted_resolveEdge e).resolve_left fun hy => hy.ne h

/-- The two lookups read the same nodes, by their IDs and by their names. -/
structure SameNames (v v' : Lookup) : Prop where
  getNode : v'.getNode = v.getNode
  findNodesByName : v'.findNodesByName = v.findNodesByName

/-- **The passes for a hint find methods only**, and where there is one the passes that look at
the name find it as well. -/
theorem resolveByHint_eq_none {candidates : List Node} (h : resolveByName e candidates = none) :
    v.resolveByHint e candidates = none := by
  simp only [resolveByName, Option.orElse_eq_orElse, Option.orElse_eq_or, Option.or_eq_none_iff,
    Option.map_eq_none_iff, List.find?_eq_none, decide_eq_true_eq] at h
  have hmethod : ∀ c ∈ candidates, c.kind ≠ .kindMethod := h.2.1
  simp only [resolveByHint, Option.orElse_eq_orElse, Option.orElse_eq_or]
  split
  · rfl
  · simp only [Option.or_eq_none_iff, Option.map_eq_none_iff, List.find?_eq_none,
      Bool.and_eq_true, decide_eq_true_eq]
    exact ⟨fun c hc hfit => hmethod c hc hfit.1.1, fun c hc hfit => hmethod c hc hfit.1,
      fun c hc hfit => hmethod c hc hfit.1⟩

/-- A call of a method is answered if the passes that look at the name find a candidate. -/
theorem resolveMethodCall_ne {name : String}
    (h : resolveByName e (v.findNodesByName name) ≠ none) :
    (v.resolveMethodCall e name).2 ≠ .unresolved := by
  refine (mayReply_methodCall name).getD_ne fun hnone => h ?_
  simp only [Option.orElse_eq_orElse, Option.orElse_eq_or, Option.or_eq_none_iff] at hnone
  exact hnone.2.2.1

/-- **Whether an edge is answered depends on the nodes only.** The other edges, among which a
call with a hint looks for the classes of its type, and the file nodes say which answer it
is. -/
theorem SameNames.resolveEdge_iff {v' : Lookup} (h : SameNames v v') :
    (v'.resolveEdge e).2 = .unresolved ↔ (v.resolveEdge e).2 = .unresolved := by
  obtain ⟨getNode, findNodesByName, qual, files, edges⟩ := v'
  obtain ⟨rfl, rfl⟩ := h
  unfold resolveEdge
  simp only
  split_ifs
  · exact iff_of_false (replies_resolveImport _).ne (replies_resolveImport _).ne
  · exact iff_of_false (replies_resolveExtern _).ne (replies_resolveExtern _).ne
  · -- a call of a method: the passes for a hint are the only ones that look at the edges
    generalize trimPrefix (trimPrefix e.toID unresolvedPrefix) "*." = name
    by_cases hname : resolveByName e (v.findNodesByName name) = none
    · simp only [resolveMethodCall, resolveByHint_eq_none hname]
      rfl
    · exact iff_of_false (resolveMethodCall_ne hname) (resolveMethodCall_ne hname)
  all_goals exact Iff.rfl

end Lookup

/-! ### Calls of a pass -/

namespace Graph

variable {g : Graph} {ord : MapOrder}

/-- The state of a pass over a graph after it has taken these edges. `ResolveAll` takes all
edges, `ResolveFile` those of a file. -/
def resolveRefs (ord : MapOrder) (g : Graph) (l : List EdgeRef) : Graph × ResolveStats :=
  l.foldl (resolveRef ord (g.fileNodes ord)) (g, {})

/-- **The accounts of one call**: one counter is counted up, an edge that is counted as
resolved goes to a node, and, where no node has the placeholder for its ID, the target stays
exactly if the edge is counted as unresolved. -/
structure Accounts (s s' : Graph × ResolveStats) (r : EdgeRef) : Prop where
  counted : ∃! o, s'.2 = s.2.count o
  resolved : s'.2 = s.2.count .resolved → ∃ n, s'.1.nodeAt (s'.1.edge r).toID = some n
  unchanged : s.1.nodeAt (s.1.edge r).toID = none →
    ((s'.1.edge r).toID = (s.1.edge r).toID ↔ s'.2 = s.2.count .unresolved)

theorem ResolveStats.count_inj {stats : ResolveStats} {o o' : Outcome}
    (h : stats.count o = stats.count o') : o = o' := by
  cases o <;> cases o' <;> simp_all [ResolveStats.count, ResolveStats.mk.injEq]

theorem quiet_resolveRefs (ord : MapOrder) (g : Graph) (l : List EdgeRef) :
    Quiet g (resolveRefs ord g l).1 :=
  Quiet.foldl (Quiet.resolveRef ord _) l (g, {})

/-- What is found in a state of a pass is a node of it. -/
theorem nodeAt_of_finds (hg : Weak g) {s : Graph} (hs : Quiet g s) {c : Node}
    (hc : (s.lookup ord (g.fileNodes ord)).Finds c) : s.nodeAt c.id = some c :=
  (hs.weak hg).nodes.nodeAt_of_finds
    (fun c hc => (hs.nodes.nodeAt c.id).trans ((hg.mem_fileNodes ord).mp hc).1) hc

/-- **Every call keeps the accounts.** -/
theorem accounts_resolveRef (hg : Weak g) {s : Graph × ResolveStats} (hs : Quiet g s.1)
    {r : EdgeRef} (hun : (s.1.edge r).IsUnresolved) :
    Accounts s (resolveRef ord (g.fileNodes ord) s r) r := by
  have hacc := (s.1.lookup ord (g.fileNodes ord)).accounted_resolveEdge (s.1.edge r)
  have hfinds := @nodeAt_of_finds g ord hg s.1 hs
  rw [resolveRef, if_pos (show hasPrefix (s.1.edge r).toID unresolvedPrefix = true from hun)]
  generalize (s.1.lookup ord (g.fileNodes ord)).resolveEdge (s.1.edge r) = y at hacc
  have hedge : ((s.1.retarget r y.1).edge r) = y.1 := by rw [edge_retarget, if_pos rfl]
  refine ⟨⟨y.2, rfl, fun o ho => (ResolveStats.count_inj ho).symm⟩, fun hres => ?_, fun hnone => ?_⟩
  · have hy : y.2 = .resolved := ResolveStats.count_inj hres
    simp only [hedge, nodeAt_retarget]
    rcases hacc with (⟨-, c, hc, ht⟩ | ⟨hext, -⟩) | rfl
    · exact ⟨c, ht ▸ hfinds hc⟩
    · rw [hy] at hext
      cases hext
    · cases hy
  · simp only [hedge]
    constructor
    · intro hto
      rcases hacc with (⟨-, c, hc, ht⟩ | ⟨-, hno⟩) | rfl
      · rw [← hto, ht, hfinds hc] at hnone
        cases hnone
      · unfold IsUnresolved at hun hno
        exact absurd (hto ▸ hun) hno
      · rfl
    · intro hcount
      have hy : y.2 = .unresolved := ResolveStats.count_inj hcount
      rcases hacc with (⟨hres, -⟩ | ⟨hext, -⟩) | rfl
      · rw [hy] at hres
        cases hres
      · rw [hy] at hext
        cases hext
      · rfl

/-! ### A whole pass -/

/-- **What holds of every edge after it is taken**, if the resolver writes only edges of which
it holds, and it holds of those that have no placeholder. -/
theorem edge_foldl_resolveRef {Q : Edge → Prop} (hdone : ∀ e : Edge, ¬e.IsUnresolved → Q e)
    (hwrite : ∀ s, Quiet g s → ∀ e : Edge, e.IsUnresolved →
      Q ((s.lookup ord (g.fileNodes ord)).resolveEdge e).1) (l : List EdgeRef)
    {s : Graph × ResolveStats} (hs : Quiet g s.1) {r : EdgeRef} (hr : r ∈ l ∨ Q (s.1.edge r)) :
    Q ((l.foldl (resolveRef ord (g.fileNodes ord)) s).1.edge r) := by
  induction l generalizing s with
  | nil => exact hr.resolve_left List.not_mem_nil
  | cons a l ih =>
    rw [List.foldl_cons]
    refine ih (hs.trans (Quiet.resolveRef ord _ s a)) ?_
    -- the turn makes it hold of its own edge, and leaves the others
    unfold resolveRef
    by_cases hra : r = a
    · refine Or.inr ?_
      split
      · rename_i hun
        rw [edge_retarget, if_pos hra]
        exact hwrite s.1 hs _ hun
      · rename_i hun
        exact hdone _ (hra ▸ hun)
    · refine hr.imp (fun hm => (List.mem_cons.mp hm).resolve_left hra) fun hq => ?_
      split
      · rwa [edge_retarget, if_neg hra]
      · exact hq

/-- What holds of every stored edge after `ResolveAll`. -/
theorem storedOut_resolveAll {Q : Edge → Prop} (hg : Weak g)
    (hdone : ∀ e : Edge, ¬e.IsUnresolved → Q e)
    (hwrite : ∀ s, Quiet g s → ∀ e : Edge, e.IsUnresolved →
      Q ((s.lookup ord (g.fileNodes ord)).resolveEdge e).1) {r : EdgeRef}
    (hr : (g.resolveAll ord).1.StoredOut r) : Q ((g.resolveAll ord).1.edge r) := by
  have hstored : ∀ (l : List EdgeRef) (s : Graph × ResolveStats),
      (l.foldl (resolveRef ord (g.fileNodes ord)) s).1.StoredOut r ↔ s.1.StoredOut r :=
    fun l s => List.foldl_invariant (P := fun t : Graph × ResolveStats =>
      t.1.StoredOut r ↔ s.1.StoredOut r) (fun t a _ ht => by
        unfold resolveRef
        split
        · exact (storedOut_retarget (Lookup.sameSite_resolveEdge _ _) r).trans ht
        · exact ht) Iff.rfl
  refine edge_foldl_resolveRef hdone hwrite _ (Quiet.refl g) (Or.inl ((hg.mem_allEdges ord).mpr ?_))
  exact (hstored _ (g, {})).mp hr

/-- An import that is taken gets a target that is no import. -/
theorem not_namesImport_resolveEdge (hg : Weak g)
    (hp : ∀ id n, g.nodeAt id = some n → ¬Lookup.NamesImport id) {s : Graph} (hs : Quiet g s)
    (e : Edge) : ¬Lookup.NamesImport ((s.lookup ord (g.fileNodes ord)).resolveEdge e).1.toID := by
  have hreplies : ∀ y, (s.lookup ord (g.fileNodes ord)).Replies y →
      ¬Lookup.NamesImport y.1.toID := by
    rintro y (⟨-, c, hc, ht⟩ | ⟨-, hno⟩)
    · rw [ht]
      exact hp _ c ((hs.nodes.nodeAt c.id).symm.trans (nodeAt_of_finds hg hs hc))
    · exact fun hn => hno hn.hasPrefix
  by_cases hn : Lookup.NamesImport e.toID
  · exact hreplies _ (Lookup.replies_resolveEdge hn)
  · rcases Lookup.accounted_resolveEdge (s.lookup ord (g.fileNodes ord)) e with hy | hy
    · exact hreplies _ hy
    · rwa [hy]

/-- **The accounts of the resolver.** In every state that a pass goes through, the call for an
edge with a placeholder keeps the accounts; and `ResolveAll` leaves no placeholder of an import
or of a qualified call, if no node has one for its ID. -/
theorem accounts_resolver (hg : Reachable g) (ord : MapOrder) :
    (∀ (l : List EdgeRef) (r : EdgeRef), ((resolveRefs ord g l).1.edge r).IsUnresolved →
      Accounts (resolveRefs ord g l)
        (resolveRef ord (g.fileNodes ord) (resolveRefs ord g l) r) r) ∧
    ((∀ id n, g.nodeAt id = some n → ¬Lookup.NamesImport id) →
      ∀ e, (g.resolveAll ord).1.StoredEdge e → ¬Lookup.NamesImport e.toID) := by
  refine ⟨fun l r hun => accounts_resolveRef hg.weak (quiet_resolveRefs ord g l) hun, ?_⟩
  rintro hp e ⟨r, hr, rfl⟩
  exact storedOut_resolveAll (Q := fun e => ¬Lookup.NamesImport e.toID) hg.weak
    (fun e he hn => he hn.hasPrefix)
    (fun s hs e _ => not_namesImport_resolveEdge hg.weak hp hs e) hr

namespace TwoFunctions

/-- One function of the name: the call is counted as resolved, and no import is left. -/
theorem accounts_resolver_one :
    Accounts (inserted (function "a" "F") (function "q" "G"), {})
        (resolveRef .default ((inserted (function "a" "F") (function "q" "G")).fileNodes .default)
          (inserted (function "a" "F") (function "q" "G"), {}) ⟨0⟩) ⟨0⟩ ∧
      ∀ e, ((inserted (function "a" "F") (function "q" "G")).resolveAll .default).1.StoredEdge e →
        ¬Lookup.NamesImport e.toID := by
  obtain ⟨hcall, himport⟩ :=
    accounts_resolver (reachable (function "a" "F") (function "q" "G")) .default
  exact ⟨hcall [] ⟨0⟩ (show call.IsUnresolved by decide), himport fun id n hn hname =>
    not_hasPrefix (by decide) (by decide) hn hname.hasPrefix⟩

/-- A function with an ID that starts like a placeholder. -/
def shadow (placeholder name : String) : Node :=
  { id := unresolvedPrefix ++ placeholder, kind := .kindFunction, name := name, filePath := "s.go" }

/-- **A node that has the placeholder for its ID**: the call is resolved to it, and the target
is as it was. -/
theorem not_unchanged_iff :
    ¬∀ (g : Graph) (ord : MapOrder) (l : List EdgeRef) (r : EdgeRef), Reachable g →
      ((resolveRefs ord g l).1.edge r).IsUnresolved →
        (((resolveRef ord (g.fileNodes ord) (resolveRefs ord g l) r).1.edge r).toID =
            ((resolveRefs ord g l).1.edge r).toID ↔
          (resolveRef ord (g.fileNodes ord) (resolveRefs ord g l) r).2 =
            (resolveRefs ord g l).2.count .unresolved) := by
  intro h
  have hiff := h (inserted (shadow "F" "F") (function "q" "G")) GoMap.RangeOrder.default [] ⟨0⟩
    (reachable _ _) (by decide)
  exact absurd (hiff.mp (by decide +kernel)) (by decide +kernel)

end TwoFunctions

/-! ### A second pass -/

/-- **The resolver has no answer for the edge**, in any state of a pass over the graph. -/
def Stuck (g : Graph) (e : Edge) : Prop :=
  e.IsUnresolved → ∀ (ord : MapOrder) (files : List Node) (s : Graph), SameNodes g s →
    (s.lookup ord files).resolveEdge e = (e, .unresolved)

/-- What one state of a pass has no answer for, none has. -/
theorem sameNames_lookup {s s' : Graph} (hs : SameNodes g s) (hs' : SameNodes g s')
    (ord ord' : MapOrder) (files files' : List Node) :
    (s.lookup ord files).SameNames (s'.lookup ord' files') where
  getNode := by
    rw [hs.lookup_eq, hs'.lookup_eq]
    rfl
  findNodesByName := by
    rw [hs.lookup_eq, hs'.lookup_eq]
    rfl

/-- An edge that is taken is resolved, or there is no answer for it. -/
theorem stuck_resolveEdge (hg : Weak g)
    (hp : ∀ id n, g.nodeAt id = some n → ¬hasPrefix id unresolvedPrefix = true) {s : Graph}
    (hs : Quiet g s) (e : Edge) : Stuck g ((s.lookup ord (g.fileNodes ord)).resolveEdge e).1 := by
  intro hun ord' files s' hs'
  rcases Lookup.accounted_resolveEdge (s.lookup ord (g.fileNodes ord)) e with
    (⟨-, c, hc, ht⟩ | ⟨-, hno⟩) | hy
  · unfold IsUnresolved at hun
    rw [ht] at hun
    exact absurd hun (hp _ c ((hs.nodes.nodeAt c.id).symm.trans (nodeAt_of_finds hg hs hc)))
  · exact absurd hun hno
  · rw [hy]
    refine Lookup.resolveEdge_eq_of_unresolved
      ((sameNames_lookup hs.nodes hs' ord ord' (g.fileNodes ord) files).resolveEdge_iff.mpr ?_)
    rw [hy]

/-- Writing an edge back as it is changes nothing. -/
theorem retarget_self (g : Graph) (r : EdgeRef) : g.retarget r (g.edge r) = g := by
  have hset : g.setEdge r (g.edge r) = g := by
    have hedge : (fun r' => if r' = r then g.edge r else g.edge r') = g.edge := by
      funext r'
      by_cases hr : r' = r
      · rw [if_pos hr, hr]
      · rw [if_neg hr]
    unfold setEdge
    rw [hedge]
  rw [retarget, hset, reindexEdge]
  exact if_pos rfl

/-- A turn for an edge without an answer leaves the graph as it is. -/
theorem resolveRef_of_stuck {s : Graph × ResolveStats} {files : List Node} {r : EdgeRef}
    (hr : Stuck s.1 (s.1.edge r)) : resolveRef ord files s r =
      if hasPrefix (s.1.edge r).toID unresolvedPrefix then (s.1, s.2.count .unresolved) else s := by
  unfold resolveRef
  by_cases hun : hasPrefix (s.1.edge r).toID unresolvedPrefix = true
  · rw [if_pos hun, if_pos hun, hr hun ord files s.1 (SameNodes.refl s.1)]
    simp only [retarget_self]
  · rw [if_neg hun, if_neg hun]

theorem foldl_resolveRef_of_stuck {files : List Node} {l : List EdgeRef}
    (hl : ∀ r ∈ l, Stuck g (g.edge r)) (stats : ResolveStats) :
    (l.foldl (resolveRef ord files) (g, stats)).1 = g ∧
      (l.foldl (resolveRef ord files) (g, stats)).2.resolved = stats.resolved ∧
      (l.foldl (resolveRef ord files) (g, stats)).2.external = stats.external := by
  induction l generalizing stats with
  | nil => exact ⟨rfl, rfl, rfl⟩
  | cons r l ih =>
    have hrest := ih fun r' hr' => hl r' (List.mem_cons_of_mem _ hr')
    have hstuck := hl r List.mem_cons_self
    rw [List.foldl_cons, resolveRef_of_stuck hstuck]
    split
    · exact hrest (stats.count .unresolved)
    · exact hrest stats

/-- **`ResolveAll` is idempotent**: a second pass changes nothing and resolves nothing, if no
node has an ID that starts like a placeholder. -/
theorem resolveAll_resolveAll (hg : Reachable g)
    (hp : ∀ id n, g.nodeAt id = some n → ¬hasPrefix id unresolvedPrefix = true)
    (ord ord' : MapOrder) :
    ((g.resolveAll ord).1.resolveAll ord').1 = (g.resolveAll ord).1 ∧
      ((g.resolveAll ord).1.resolveAll ord').2.resolved = 0 ∧
      ((g.resolveAll ord).1.resolveAll ord').2.external = 0 := by
  have hquiet := Quiet.resolveAll ord g
  refine foldl_resolveRef_of_stuck (fun r hr => ?_) {}
  have hstuck : Stuck g ((g.resolveAll ord).1.edge r) :=
    storedOut_resolveAll hg.weak (fun e hno hun => absurd hun hno)
      (fun s hs e _ => stuck_resolveEdge hg.weak hp hs e)
      (((hquiet.weak hg.weak).mem_allEdges ord').mp hr)
  exact fun hun ord files s hs => hstuck hun ord files s (hquiet.nodes.trans hs)

namespace TwoFunctions

/-- One function of the name: the second pass has nothing to do. -/
theorem resolveAll_resolveAll_one :
    (((inserted (function "a" "F") (function "q" "G")).resolveAll .default).1.resolveAll
        .default).1 = ((inserted (function "a" "F") (function "q" "G")).resolveAll .default).1 ∧
      (((inserted (function "a" "F") (function "q" "G")).resolveAll .default).1.resolveAll
        .default).2.resolved = 0 ∧
      (((inserted (function "a" "F") (function "q" "G")).resolveAll .default).1.resolveAll
        .default).2.external = 0 :=
  resolveAll_resolveAll (reachable _ _) (fun _ _ => not_hasPrefix (by decide) (by decide)) .default
    .default

/-- **A node that has another placeholder for its ID**: the call of `F` is resolved to it, and
the second pass resolves what looks like a call of `G`. -/
theorem not_resolveAll_resolveAll :
    ¬∀ (g : Graph) (ord ord' : MapOrder), Reachable g →
      (∀ r, g.StoredOut r → (((g.resolveAll ord).1.resolveAll ord').1.edge r).toID =
        ((g.resolveAll ord).1.edge r).toID) ∧
      ((g.resolveAll ord).1.resolveAll ord').2.resolved = 0 := by
  intro h
  obtain ⟨-, hres⟩ := h (inserted (shadow "G" "F") (function "q" "G")) GoMap.RangeOrder.default
    GoMap.RangeOrder.default (reachable _ _)
  exact absurd hres (by decide +kernel)

end TwoFunctions

end Graph

end Gortex
