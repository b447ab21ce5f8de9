import Gortex.Resolver.Accounting

/-!
# The caller's own repository

Across repositories the resolver looks for a candidate in the repository of the caller first,
and then in the others. It does so within one group of candidates, and takes the groups one
after the other: the methods of the type that a hint names, the methods, the functions. So a
group that has candidates in other repositories only comes before a later group that has one
in the caller's own.

A call stays at home exactly if no group overtakes (`Gortex.Graph.prefersOwn_iff`).
-/

namespace Gortex

open GoString Edge

namespace CrossRepoResolver

variable {v : Lookup} {e : Edge}

/-! ### Groups of candidates -/

/-- **The edge is resolved to a node of another repository** than its caller's. -/
def ResolvesAway (v : Lookup) (e : Edge) (y : Edge × CrossOutcome) : Prop :=
  y.2 ≠ .unresolved ∧ ∃ n, v.getNode y.1.toID = some n ∧ n.repoPrefix ≠ v.callerRepoPrefix e

/-- There are candidates of the group, and none is of the repository. -/
def AllAway (repo : String) (candidates : List Node) (fits : Node → Bool) : Prop :=
  (∃ c ∈ candidates, fits c = true) ∧ ∀ c ∈ candidates, fits c = true → c.repoPrefix ≠ repo

/-- **One group, and the rest of the passes**: the edge is resolved away if all of the group
are away, or there is none in it and the rest resolves it away. -/
theorem resolvesAway_group {candidates : List Node} (hc : ∀ c ∈ candidates, v.getNode c.id = some c)
    (fits : Node → Bool) (home away : Node → Edge × CrossOutcome)
    (hhome : ∀ c, (home c).1.toID = c.id)
    (haway : ∀ c, (away c).1.toID = c.id ∧ (away c).2 ≠ .unresolved)
    (rest : Option (Edge × CrossOutcome)) (other : Edge × CrossOutcome) :
    ResolvesAway v e (((candidates.find? fun c => fits c &&
        decide (c.repoPrefix = v.callerRepoPrefix e)).map home <|>
          (candidates.find? fits).map away <|> rest).getD other) ↔
      AllAway (v.callerRepoPrefix e) candidates fits ∨
        (∀ c ∈ candidates, ¬fits c = true) ∧ ResolvesAway v e (rest.getD other) := by
  cases hown : candidates.find? fun c => fits c && decide (c.repoPrefix = v.callerRepoPrefix e) with
  | some c =>
    -- a candidate at home
    have hm := List.mem_of_find?_eq_some hown
    have hboth := List.find?_some hown
    obtain ⟨hfit, hrepo⟩ := Bool.and_eq_true_iff.mp hboth
    refine iff_of_false ?_ ?_
    · rintro ⟨-, n, hn, hne⟩
      have hnc : n = c :=
        Option.some.inj (hn.symm.trans ((congrArg v.getNode (hhome c)).trans (hc c hm)))
      exact hne (hnc ▸ of_decide_eq_true hrepo)
    · rintro (⟨-, hall⟩ | ⟨hnone, -⟩)
      · exact hall c hm hfit (of_decide_eq_true hrepo)
      · exact hnone c hm hfit
  | none =>
    have hnot : ∀ c ∈ candidates, fits c = true → c.repoPrefix ≠ v.callerRepoPrefix e :=
      fun c hm hfit hrepo => List.find?_eq_none.mp hown c hm
        (Bool.and_eq_true_iff.mpr ⟨hfit, decide_eq_true hrepo⟩)
    cases hall : candidates.find? fits with
    | some c =>
      -- candidates away only
      have hm := List.mem_of_find?_eq_some hall
      have hfit := List.find?_some hall
      exact iff_of_true ⟨(haway c).2, c, (congrArg v.getNode (haway c).1).trans (hc c hm),
        hnot c hm hfit⟩ (Or.inl ⟨⟨c, hm, hfit⟩, hnot⟩)
    | none =>
      have hno := List.find?_eq_none.mp hall
      constructor
      · exact fun h => Or.inr ⟨hno, h⟩
      · rintro (⟨⟨c, hm, hfit⟩, -⟩ | ⟨-, h⟩)
        · exact absurd hfit (hno c hm)
        · exact h

/-- A method of the type that the hint names. -/
def isHinted (e : Edge) (n : Node) : Bool :=
  n.kind = .kindMethod ∧ nodeReceiverType n = edgeReceiverType e

def isMethod (n : Node) : Bool := n.kind = .kindMethod

def isFunction (n : Node) : Bool := n.kind = .kindFunction

/-- The last group: no pass comes after it. -/
theorem resolvesAway_lastGroup {candidates : List Node}
    (hc : ∀ c ∈ candidates, v.getNode c.id = some c) (fits : Node → Bool) :
    ResolvesAway v e (((candidates.find? fun c => fits c &&
        decide (c.repoPrefix = v.callerRepoPrefix e)).map e.crossToSame <|>
          (candidates.find? fits).map e.crossToOther).getD (e, .unresolved)) ↔
      AllAway (v.callerRepoPrefix e) candidates fits := by
  have hgroup := resolvesAway_group (e := e) hc fits e.crossToSame
    e.crossToOther (fun _ => rfl) (fun _ => ⟨rfl, CrossOutcome.noConfusion⟩) none
    (e, .unresolved)
  simp only [Option.orElse_eq_orElse, Option.orElse_eq_or, Option.or_none] at hgroup ⊢
  exact hgroup.trans ⟨fun h => h.resolve_right fun hr => hr.2.1 rfl, Or.inl⟩

theorem resolvesAway_resolveFunctionCall {name : String}
    (hc : ∀ c ∈ v.findNodesByName name, v.getNode c.id = some c) :
    ResolvesAway v e (resolveFunctionCall v e name) ↔
      AllAway (v.callerRepoPrefix e) (v.findNodesByName name) Node.isCallable :=
  resolvesAway_lastGroup hc Node.isCallable

theorem resolvesAway_resolveByName {name : String}
    (hc : ∀ c ∈ v.findNodesByName name, v.getNode c.id = some c) :
    ResolvesAway v e ((resolveByName v e (v.findNodesByName name)).getD (e, .unresolved)) ↔
      AllAway (v.callerRepoPrefix e) (v.findNodesByName name) isMethod ∨
        (∀ c ∈ v.findNodesByName name, ¬isMethod c = true) ∧
          AllAway (v.callerRepoPrefix e) (v.findNodesByName name) isFunction := by
  have hmethod := resolvesAway_group (e := e) hc isMethod e.crossToSame
    e.crossToOther (fun _ => rfl) (fun _ => ⟨rfl, CrossOutcome.noConfusion⟩)
    (((v.findNodesByName name).find? fun c => isFunction c &&
      decide (c.repoPrefix = v.callerRepoPrefix e)).map e.crossToSame <|>
        ((v.findNodesByName name).find? isFunction).map e.crossToOther) (e, .unresolved)
  exact hmethod.trans (or_congr_right (and_congr_right fun _ =>
    resolvesAway_lastGroup hc isFunction))

/-- **A call of a method is resolved away** exactly if all methods of the hinted type are away,
or there is none of it and all methods are away, or there is no method and all functions are. -/
theorem resolvesAway_resolveMethodCall {name : String}
    (hc : ∀ c ∈ v.findNodesByName name, v.getNode c.id = some c) :
    ResolvesAway v e (resolveMethodCall v e name) ↔
      (edgeReceiverType e ≠ "" ∧
        AllAway (v.callerRepoPrefix e) (v.findNodesByName name) (isHinted e)) ∨
      ((edgeReceiverType e ≠ "" → ∀ c ∈ v.findNodesByName name, ¬isHinted e c = true) ∧
        (AllAway (v.callerRepoPrefix e) (v.findNodesByName name) isMethod ∨
          (∀ c ∈ v.findNodesByName name, ¬isMethod c = true) ∧
            AllAway (v.callerRepoPrefix e) (v.findNodesByName name) isFunction)) := by
  rw [← resolvesAway_resolveByName hc]
  unfold resolveMethodCall resolveByHint
  simp only
  by_cases hint : edgeReceiverType e = ""
  · rw [if_pos hint]
    simp [hint]
  · rw [if_neg hint]
    have hgroup := resolvesAway_group (e := e) hc (isHinted e)
      ({ e with confidence := 95 / 100 } : Edge).crossToSame
      ({ e with confidence := 85 / 100 } : Edge).crossToOther (fun _ => rfl)
      (fun _ => ⟨rfl, CrossOutcome.noConfusion⟩) (resolveByName v e (v.findNodesByName name))
      (e, .unresolved)
    simp only [Option.orElse_eq_orElse, Option.orElse_eq_or, Option.or_assoc] at hgroup ⊢
    exact hgroup.trans (by simp [hint])

end CrossRepoResolver

/-! ### The calls of a pass -/

/-- The name that a call with this target calls. An import names no function. -/
def calledName (toID : String) : Option String :=
  let target := trimPrefix toID unresolvedPrefix
  if hasPrefix target "import::" then none
  else if hasPrefix target "*." then some (trimPrefix target "*.")
  else if hasPrefix target "extern::" then
    (cutLast (trimPrefix target "extern::") "::").map Prod.snd
  else some target

namespace Graph

open CrossRepoResolver

variable {g : Graph} {ord : MapOrder}

/-- A function or a method of the name exists in the repository of the caller. -/
def OwnCallable (g : Graph) (e : Edge) (name : String) : Prop :=
  ∃ n, g.nodeAt n.id = some n ∧ n.isCallable = true ∧ n.name = name ∧ n.repoPrefix = g.callerRepo e

/-- There are nodes of the kind, and none in the repository of the caller. -/
def AllElsewhere (g : Graph) (e : Edge) (fits : Node → Prop) : Prop :=
  (∃ n, g.nodeAt n.id = some n ∧ fits n) ∧
    ∀ n, g.nodeAt n.id = some n → fits n → n.repoPrefix ≠ g.callerRepo e

/-- **A group of other repositories overtakes**: for a call of a method, that of the methods of
the hinted type, or that of the methods; for another call, that of the functions and methods
that are named as the placeholder is, which the call of a qualified name is no call of. -/
def Overtaken (g : Graph) (e : Edge) : Prop :=
  let target := trimPrefix e.toID unresolvedPrefix
  if hasPrefix target "*." then
    let name := trimPrefix target "*."
    (edgeReceiverType e ≠ "" ∧ AllElsewhere g e fun n =>
      n.kind = .kindMethod ∧ nodeReceiverType n = edgeReceiverType e ∧ n.name = name) ∨
    AllElsewhere g e fun n => n.kind = .kindMethod ∧ n.name = name
  else AllElsewhere g e fun n => n.isCallable = true ∧ n.name = target

/-- The state of a pass over a graph after it has taken these edges. -/
def crossResolveRefs (ord : MapOrder) (g : Graph) (l : List EdgeRef) : Graph × CrossRepoStats :=
  l.foldl (crossResolveRef ord (g.fileNodes ord)) (g, {})

/-- **The call keeps to its own repository**: if that has a function or method of the called
name, the edge is not resolved to a node of another. -/
def PrefersOwn (s s' : Graph × CrossRepoStats) (r : EdgeRef) : Prop :=
  ∀ name, calledName (s.1.edge r).toID = some name → OwnCallable s.1 (s.1.edge r) name →
    ¬(s'.2.resolved = s.2.resolved + 1 ∧ ∃ n, s'.1.nodeAt (s'.1.edge r).toID = some n ∧
      n.repoPrefix ≠ s.1.callerRepo (s.1.edge r))

theorem NodeInv.allAway_iff (hg : NodeInv g) (e : Edge) (name : String) (fits : Node → Bool)
    (fits' : Node → Prop) (hf : ∀ n, fits n = true ∧ n.name = name ↔ fits' n) :
    AllAway (g.callerRepo e) ((g.findNodesByName name).map g.node) fits ↔
      AllElsewhere g e fits' := by
  unfold AllAway AllElsewhere
  simp only [hg.mem_map_findNodesByName, ← hf]
  constructor
  · rintro ⟨⟨c, ⟨hc, hname⟩, hfit⟩, hall⟩
    exact ⟨⟨c, hc, hfit, hname⟩, fun n hn h => hall n ⟨hn, h.2⟩ h.1⟩
  · rintro ⟨⟨c, hc, hfit, hname⟩, hall⟩
    exact ⟨⟨c, ⟨hc, hname⟩, hfit⟩, fun n hn h => hall n hn.1 ⟨h, hn.2⟩⟩

/-- A method call is resolved away exactly if a group of methods is away, where there is a
function or method of the name at home. -/
theorem resolvesAway_method_iff (hg : NodeInv g) (files : List Node) {e : Edge} {name : String}
    (hown : OwnCallable g e name) :
    ResolvesAway (g.lookup ord files) e (resolveMethodCall (g.lookup ord files) e name) ↔
      (edgeReceiverType e ≠ "" ∧ AllElsewhere g e fun n =>
        n.kind = .kindMethod ∧ nodeReceiverType n = edgeReceiverType e ∧ n.name = name) ∨
      AllElsewhere g e fun n => n.kind = .kindMethod ∧ n.name = name := by
  have hfound : ∀ c ∈ (g.findNodesByName name).map g.node, g.nodeAt c.id = some c := fun c hc =>
    (hg.of_mem_map_findNodesByName hc).1
  have hhinted := hg.allAway_iff e name (isHinted e) (fun n =>
    n.kind = .kindMethod ∧ nodeReceiverType n = edgeReceiverType e ∧ n.name = name)
    fun n => by simp [isHinted, and_assoc]
  have hmethod := hg.allAway_iff e name isMethod (fun n =>
    n.kind = .kindMethod ∧ n.name = name) fun n => by simp [isMethod]
  rw [resolvesAway_resolveMethodCall hfound, ← hhinted, ← hmethod]
  obtain ⟨o, ho, hcallable, hname, hrepo⟩ := hown
  have hmem : o ∈ (g.findNodesByName name).map g.node := hg.mem_map_findNodesByName.mpr ⟨ho, hname⟩
  constructor
  · rintro (h | ⟨-, h | ⟨hno, -, hall⟩⟩)
    · exact Or.inl h
    · exact Or.inr h
    · -- the one at home is a function, and then not all are away, or a method
      rcases of_decide_eq_true hcallable with hfun | hmeth
      · exact absurd hrepo (hall o hmem (decide_eq_true hfun))
      · exact absurd (decide_eq_true hmeth) (hno o hmem)
  · rintro (h | ⟨hex, hall⟩)
    · exact Or.inl h
    · by_cases hhint : edgeReceiverType e ≠ "" ∧
        ∃ c ∈ (g.findNodesByName name).map g.node, isHinted e c = true
      · refine Or.inl ⟨hhint.1, hhint.2, fun c hc hfit => hall c hc ?_⟩
        exact decide_eq_true (of_decide_eq_true hfit).1
      · exact Or.inr ⟨fun hne c hc hfit => hhint ⟨hne, c, hc, hfit⟩, Or.inl ⟨hex, hall⟩⟩

/-- **A call is resolved away exactly if a group overtakes**, where there is a function or method
of the name at home. -/
theorem resolvesAway_iff (hg : NodeInv g) (ord : MapOrder) (files : List Node) {e : Edge} {name : String}
    (hname : calledName e.toID = some name) (hown : OwnCallable g e name) :
    ResolvesAway (g.lookup ord files) e (resolveEdge (g.lookup ord files) e) ↔ Overtaken g e := by
  unfold calledName at hname
  unfold resolveEdge Overtaken
  simp only at hname ⊢
  by_cases himport : hasPrefix (trimPrefix e.toID unresolvedPrefix) "import::" = true
  · rw [if_pos himport] at hname
    cases hname
  · rw [if_neg himport] at hname ⊢
    by_cases hstar : hasPrefix (trimPrefix e.toID unresolvedPrefix) "*." = true
    · rw [if_pos hstar] at hname
      rw [if_pos hstar, if_pos hstar, Option.some.inj hname]
      exact resolvesAway_method_iff hg files hown
    · rw [if_neg hstar, if_neg hstar]
      rw [resolvesAway_resolveFunctionCall fun c hc => (hg.of_mem_map_findNodesByName hc).1]
      exact hg.allAway_iff e _ _ _ fun n => Iff.rfl

/-- **A call keeps to its own repository exactly if no group of others overtakes** a function or
method of the called name that is there, in every state of a pass. -/
theorem prefersOwn_iff (hg : Reachable g) (ord : MapOrder) (l : List EdgeRef) (r : EdgeRef)
    (hun : ((crossResolveRefs ord g l).1.edge r).IsUnresolved) :
    PrefersOwn (crossResolveRefs ord g l)
        (crossResolveRef ord (g.fileNodes ord) (crossResolveRefs ord g l) r) r ↔
      ∀ name, calledName ((crossResolveRefs ord g l).1.edge r).toID = some name →
        OwnCallable (crossResolveRefs ord g l).1 ((crossResolveRefs ord g l).1.edge r) name →
          ¬Overtaken (crossResolveRefs ord g l).1 ((crossResolveRefs ord g l).1.edge r) := by
  have hquiet : Quiet g (crossResolveRefs ord g l).1 :=
    Quiet.foldl (Quiet.crossResolveRef ord _) l (g, {})
  have hinv := (hquiet.weak hg.weak).nodes
  generalize crossResolveRefs ord g l = s at hun hinv
  refine forall_congr' fun name => forall_congr' fun hname => forall_congr' fun hown =>
    not_congr (Iff.trans ?_ (resolvesAway_iff hinv ord (g.fileNodes ord) hname hown))
  rw [crossResolveRef, if_pos (show hasPrefix (s.1.edge r).toID unresolvedPrefix = true from hun)]
  simp only [nodeAt_retarget, edge_retarget, if_true]
  refine and_congr ?_ Iff.rfl
  cases (CrossRepoResolver.resolveEdge (s.1.lookup ord (g.fileNodes ord)) (s.1.edge r)).2 <;>
    simp [CrossRepoStats.count]

namespace TwoRepos

open CrossPass.TwoRepos (main load save nodes)

/-- A function of the caller's own repository. -/
def ownSave : Node :=
  { id := "web/store.go::Save", kind := .kindFunction, name := "Save", filePath := "web/store.go",
    repoPrefix := "web" }

/-- The call, by its placeholder, where the function is at home and a method of its name is in
the other repository. -/
def calls (toID : String) : Graph :=
  (nodes.putNode ownSave).putEdge
    { fromID := main.id, toID := toID, kind := .edgeCalls, filePath := main.filePath }

theorem reachable_calls (toID : String) : Reachable (calls toID) :=
  ⟨[.addNode main, .addNode load, .addNode save, .addNode ownSave, .addEdge _],
    .cons ⟨trivial, rfl⟩ (.cons ⟨trivial, rfl⟩ (.cons ⟨trivial, rfl⟩ (.cons ⟨trivial, rfl⟩
      (.cons ⟨trivial, rfl⟩ (.nil _)))))⟩

theorem nodeAt_ownSave (toID : String) : (calls toID).nodeAt ownSave.id = some ownSave := by
  have hinv := (((Weak.new.putNode main).putNode load).putNode save).nodes
  rw [calls, nodeAt_putEdge, nodes, hinv.nodeAt_putNode]
  exact if_pos rfl

/-- A call of the bare name goes to the function at home. -/
theorem prefersOwn_bareName :
    PrefersOwn (calls "unresolved::Save", {})
      (crossResolveRef .default ((calls "unresolved::Save").fileNodes .default)
        (calls "unresolved::Save", {}) ⟨0⟩) ⟨0⟩ := by
  refine (prefersOwn_iff (reachable_calls "unresolved::Save") .default [] ⟨0⟩
    (show hasPrefix "unresolved::Save" unresolvedPrefix = true by decide)).mpr ?_
  intro name hname hown hover
  obtain ⟨n, hn, hcallable, hname', hrepo⟩ := hown
  have hover : Overtaken (calls "unresolved::Save") ((calls "unresolved::Save").edge ⟨0⟩) := hover
  have hplain : ¬hasPrefix (trimPrefix ((calls "unresolved::Save").edge ⟨0⟩).toID
      unresolvedPrefix) "*." = true := by decide +kernel
  have hform : calledName ((calls "unresolved::Save").edge ⟨0⟩).toID =
      some (trimPrefix ((calls "unresolved::Save").edge ⟨0⟩).toID unresolvedPrefix) := by
    decide +kernel
  unfold Overtaken at hover
  simp only at hover
  rw [if_neg hplain] at hover
  refine hover.2 n hn ⟨hcallable, ?_⟩ hrepo
  exact hname'.trans (Option.some.inj (hname.symm.trans hform))

/-- **A call through a qualifier goes to the method in the other repository**, since methods come
before functions. -/
theorem not_prefersOwn :
    ¬∀ (g : Graph) (ord : MapOrder) (l : List EdgeRef) (r : EdgeRef), Reachable g →
      ((crossResolveRefs ord g l).1.edge r).IsUnresolved →
      ((crossResolveRefs ord g l).1.edge r).kind = .edgeCalls →
        PrefersOwn (crossResolveRefs ord g l)
          (crossResolveRef ord (g.fileNodes ord) (crossResolveRefs ord g l) r) r := by
  intro h
  have hown : OwnCallable (calls "unresolved::*.Save") ((calls "unresolved::*.Save").edge ⟨0⟩)
      "Save" :=
    ⟨ownSave, nodeAt_ownSave _, by decide, rfl, by decide +kernel⟩
  have htarget : ((calls "unresolved::*.Save").nodeAt ((crossResolveRef GoMap.RangeOrder.default
      ((calls "unresolved::*.Save").fileNodes GoMap.RangeOrder.default)
        (calls "unresolved::*.Save", {}) ⟨0⟩).1.edge ⟨0⟩).toID).map Node.repoPrefix =
          some "api" := by decide +kernel
  obtain ⟨c, hc, hrepo⟩ := Option.map_eq_some_iff.mp htarget
  refine h (calls "unresolved::*.Save") GoMap.RangeOrder.default [] ⟨0⟩ (reachable_calls _)
    (show hasPrefix "unresolved::*.Save" unresolvedPrefix = true by decide) rfl "Save"
    (by decide +kernel) hown ⟨by decide +kernel, c, ?_, ?_⟩
  · exact ((Quiet.crossResolveRef _ _ _ _).nodes.nodeAt _).trans hc
  · rw [hrepo]
    decide +kernel

end TwoRepos

end Graph

end Gortex
