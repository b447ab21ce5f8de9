import Gortex.Resolver.Pass

/-!
# The two resolvers in one repository

In a graph of one repository, with one node for every name, there is nothing to choose
between the candidates of a placeholder, and none of another repository. So the two
resolvers should send an edge to one target. They do exactly for the forms that both of them
know (`Gortex.Graph.agree_resolveAll_iff`): the resolver across repositories knows no
qualified calls, and takes every other name to be a function's; and an edge whose source is
not in the graph is of no repository, so that it marks it.
-/

namespace Gortex

open GoString Graph

/-- Whether an ID is a label of something outside the graph. -/
def isLabel (id : String) : Bool := ["external::", "stdlib::", "dep::"].any (hasPrefix id)

theorem ne_of_isLabel {id label rest : String} (hid : isLabel id = false)
    (hl : label ∈ ["external::", "stdlib::", "dep::"]) : id ≠ label ++ rest := fun heq => by
  have hlabel : isLabel id = true := by
    rw [isLabel, List.any_eq_true]
    exact ⟨label, hl, by rw [heq, hasPrefix_append]⟩
  rw [hid] at hlabel
  cases hlabel

/-- What the resolvers are compared by: the target of the edge, and whether it crosses
repositories. -/
def Edge.target (e : Edge) : String × Bool := (e.toID, e.crossRepo)

namespace Lookup

variable (v : Lookup) (e : Edge)

/-- The function or method of a name. -/
def callable (name : String) : Option Node := (v.findNodesByName name).find? Node.isCallable

/-- The source of the edge is in the graph, or the edge is marked already. -/
def Known : Prop := (v.getNode e.fromID).isSome ∨ e.crossRepo = true

/-- The first file an import of the path finds. -/
def firstFile (importPath : String) : Option Node :=
  (v.dirIndex importPath ++ v.lastDirIndex (lastPathComponent importPath)).head?

/-- **The node of an import.** -/
def importNode (importPath : String) : Option Node :=
  v.getNodeByQualName importPath <|> v.firstFile importPath

/-- **Every node is of the repository `p`, and no two of one name.** -/
structure OneRepo (p : String) : Prop where
  ne : p ≠ ""
  getNode : ∀ {id n}, v.getNode id = some n → n.repoPrefix = p
  byName : ∀ {name c}, c ∈ v.findNodesByName name → c.repoPrefix = p ∧ c.name = name
  unique : ∀ {name c c'}, c ∈ v.findNodesByName name → c' ∈ v.findNodesByName name → c = c'
  id_inj : ∀ {name name' c c'}, c ∈ v.findNodesByName name → c' ∈ v.findNodesByName name' →
    c.id = c'.id → c = c'
  byQual : ∀ {qualName c}, v.getNodeByQualName qualName = some c → c.repoPrefix = p
  files : ∀ {c}, c ∈ v.fileNodes → c.repoPrefix = p

variable {v} {p : String}

theorem target_getD {ω : Type} {x : Option (Edge × ω)} {o : ω} :
    (x.getD (e, o)).1.target = (x.map (·.1.target)).getD e.target := by
  cases x <;> rfl

/-- What a pass answers, if it does, is the edge to a candidate it accepts. -/
def Sends {ω : Type} (crossRepo : Bool) (candidates : List Node) (x : Option (Edge × ω)) : Prop :=
  ∀ y, x = some y → ∃ c ∈ candidates, c.isCallable = true ∧ y.1.target = (c.id, crossRepo)

namespace Sends

variable {ω : Type} {b : Bool} {candidates : List Node}

theorem none : Sends b candidates (none : Option (Edge × ω)) := fun _ h => nomatch h

theorem find? {q : Node → Bool} {f : Node → Edge × ω} (hq : ∀ c, q c = true → c.isCallable = true)
    (hf : ∀ c ∈ candidates, q c = true → (f c).1.target = (c.id, b)) :
    Sends b candidates ((candidates.find? q).map f) := fun y hy => by
  obtain ⟨c, hc, rfl⟩ := Option.map_eq_some_iff.mp hy
  have hm := List.mem_of_find?_eq_some hc
  have hqc := List.find?_some hc
  exact ⟨c, hm, hq c hqc, hf c hm hqc⟩

theorem orElse {x y : Option (Edge × ω)} (hx : Sends b candidates x)
    (hy : Sends b candidates y) : Sends b candidates (x <|> y) := by
  cases x with
  | none => exact hy
  | some x => exact hx

/-- Two passes, the second of which is tried when the first finds nothing. -/
theorem pair {q r : Node → Bool} {f f' : Node → Edge × ω}
    (hq : ∀ c, q c = true → c.isCallable = true) (hf : ∀ c ∈ candidates, (q c && r c) = true →
      (f c).1.target = (c.id, b))
    (hf' : ∀ c ∈ candidates, q c = true → candidates.find? (fun c => q c && r c) = Option.none →
      (f' c).1.target = (c.id, b)) :
    Sends b candidates ((candidates.find? fun c => q c && r c).map f
      <|> (candidates.find? q).map f') := by
  cases hfind : candidates.find? fun c => q c && r c with
  | some c =>
    rw [← hfind]
    have hsome := Sends.find? (fun c hc => hq c ((Bool.and_eq_true _ _).mp hc).1) hf
    rw [hfind] at hsome ⊢
    exact hsome
  | none => exact Sends.find? hq fun c hc hqc => hf' c hc hqc hfind

end Sends

theorem isCallable_of_method {c : Node} (hc : c.kind = .kindMethod) : c.isCallable = true :=
  decide_eq_true (Or.inr hc)

theorem not_isCallable_of_isTypeLike {c : Node} (hc : c.isTypeLike = true) :
    ¬c.isCallable = true := fun hcall => by
  rcases of_decide_eq_true hcall with hk | hk <;> simp [Node.isTypeLike, hk] at hc

theorem isCallable_of_function {c : Node} (hc : c.kind = .kindFunction) : c.isCallable = true :=
  decide_eq_true (Or.inl hc)

variable (h : v.OneRepo p)

include h

namespace OneRepo

theorem callerRepoPrefix_of_isSome {e : Edge} (hs : (v.getNode e.fromID).isSome) :
    v.callerRepoPrefix e = p := by
  obtain ⟨n, hn⟩ := Option.isSome_iff_exists.mp hs
  rw [callerRepoPrefix, hn]
  exact h.getNode hn

omit h in
theorem callerRepoPrefix_of_eq_none {e : Edge} (hs : v.getNode e.fromID = none) :
    v.callerRepoPrefix e = "" := by
  rw [callerRepoPrefix, hs]
  rfl

/-- The resolver of one repository marks no edge. -/
theorem target_resolveAcross {c : Node} (hc : c.repoPrefix = p) :
    (e.resolveAcross (v.callerRepoPrefix e) c).1.target = (c.id, e.crossRepo) := by
  have hcross : ¬(v.callerRepoPrefix e ≠ "" ∧ c.repoPrefix ≠ "" ∧
      c.repoPrefix ≠ v.callerRepoPrefix e) := by
    rintro ⟨hne, -, hneq⟩
    cases hs : v.getNode e.fromID with
    | none => exact hne (callerRepoPrefix_of_eq_none hs)
    | some n =>
      refine hneq ?_
      rw [hc, h.callerRepoPrefix_of_isSome (Option.isSome_iff_exists.mpr ⟨n, hs⟩)]
  simp only [Edge.resolveAcross, Edge.target, if_neg hcross]

/-- The candidates of a name are one node. -/
theorem find?_eq {name : String} {c : Node} (hc : c ∈ v.findNodesByName name) (q : Node → Bool) :
    (v.findNodesByName name).find? q = if q c then some c else none := by
  by_cases hq : q c = true
  · rw [if_pos hq]
    obtain ⟨d, hd⟩ := Option.isSome_iff_exists.mp (List.find?_isSome.mpr ⟨c, hc, hq⟩)
    rw [hd, h.unique (List.mem_of_find?_eq_some hd) hc]
  · rw [if_neg hq, List.find?_eq_none]
    intro d hd
    rwa [h.unique hd hc]

/-- A callable of a name is all that the name finds. -/
theorem exists_callable {name : String} (hs : (v.callable name).isSome) : ∃ c : Node,
    (∀ q, (v.findNodesByName name).find? q = if q c then some c else none) ∧
      (c.kind = .kindFunction ∨ c.kind = .kindMethod) := by
  obtain ⟨c, hc⟩ := Option.isSome_iff_exists.mp hs
  have hcallable : c.isCallable = true := List.find?_some hc
  exact ⟨c, h.find?_eq (List.mem_of_find?_eq_some hc), of_decide_eq_true hcallable⟩

theorem head?_eq {name : String} {c : Node} (hc : c ∈ v.findNodesByName name) :
    (v.findNodesByName name).head? = some c := by
  obtain ⟨d, hd⟩ : ∃ d, (v.findNodesByName name).head? = some d :=
    Option.isSome_iff_exists.mp (List.isSome_head?.mpr (List.ne_nil_of_mem hc))
  rw [hd, h.unique (List.mem_of_mem_head? hd) hc]

/-! ### The resolver of one repository -/

theorem target_sameDirFirst {name : String} {c : Node} (hc : c ∈ v.findNodesByName name)
    (fits : Node → Bool) : (v.sameDirFirst e (v.findNodesByName name) fits).map (·.1.target) =
      if fits c then some (c.id, e.crossRepo) else none := by
  unfold sameDirFirst
  rw [h.find?_eq hc, h.find?_eq hc]
  by_cases hf : fits c = true
  · simp only [hf, Bool.true_and, if_true, Option.map_some]
    split
    · rfl
    · exact congrArg some (h.target_resolveAcross e (h.byName hc).1)
  · simp only [hf, Bool.false_and]
    rfl

theorem target_resolveFunctionCall (name : String) : (v.resolveFunctionCall e name).1.target =
    ((v.callable name).map fun c => (c.id, e.crossRepo)).getD e.target := by
  unfold resolveFunctionCall callable
  simp only
  by_cases hnil : v.findNodesByName name = []
  · rw [hnil]
    rfl
  · obtain ⟨c, hc⟩ := List.exists_mem_of_ne_nil _ hnil
    rw [target_getD, h.target_sameDirFirst e hc, h.find?_eq hc]
    split <;> rfl

theorem target_resolveTypeOrFunc (name : String) : (v.resolveTypeOrFunc e name).1.target =
    (((v.findNodesByName name).find? fun c => c.isTypeLike || c.isCallable).map fun c =>
      (c.id, e.crossRepo)).getD e.target := by
  unfold resolveTypeOrFunc
  simp only
  by_cases hnil : v.findNodesByName name = []
  · rw [hnil]
    rfl
  · obtain ⟨c, hc⟩ := List.exists_mem_of_ne_nil _ hnil
    have htype := h.target_sameDirFirst e hc Node.isTypeLike
    have hcall := h.target_sameDirFirst e hc Node.isCallable
    rw [target_getD, h.find?_eq hc]
    by_cases ht : c.isTypeLike = true
    · rw [if_pos ht] at htype
      obtain ⟨y, hy, hyt⟩ := Option.map_eq_some_iff.mp htype
      rw [hy, if_pos (by rw [ht]; rfl)]
      exact congrArg (fun t => (some t).getD e.target) hyt
    · rw [if_neg ht] at htype
      rw [Option.map_eq_none_iff.mp htype]
      change ((v.sameDirFirst e (v.findNodesByName name) Node.isCallable).map _).getD _ = _
      rw [hcall, Bool.eq_false_of_not_eq_true ht, Bool.false_or]
      split <;> rfl

theorem target_resolveTokenRef (name : String) : (v.resolveTokenRef e name).1.target =
    ((v.findNodesByName name).head?.map fun c => (c.id, e.crossRepo)).getD e.target := by
  unfold resolveTokenRef
  simp only
  by_cases hnil : v.findNodesByName name = []
  · rw [hnil]
    rfl
  · obtain ⟨c, hc⟩ := List.exists_mem_of_ne_nil _ hnil
    rw [target_getD, h.find?_eq hc, h.head?_eq hc]
    split <;> rfl

/-- **A pass that answers with a candidate** that is called. -/
theorem target_of_sends {ω : Type} {b : Bool} {name : String} {x : Option (Edge × ω)}
    (hx : Sends b (v.findNodesByName name) x)
    (hsome : (v.callable name).isSome → x.isSome) :
    x.map (·.1.target) = (v.callable name).map fun c => (c.id, b) := by
  cases hy : x with
  | none =>
    cases hc : v.callable name with
    | none => rfl
    | some c =>
      rw [hy, hc] at hsome
      cases hsome rfl
  | some y =>
    obtain ⟨c, hc, hcall, ht⟩ := hx y hy
    rw [callable, h.find?_eq hc, if_pos hcall]
    exact congrArg some ht

/-- A call of a method goes to the function or method of the name. -/
theorem target_resolveMethodCall (name : String) : (v.resolveMethodCall e name).1.target =
    ((v.callable name).map fun c => (c.id, e.crossRepo)).getD
      (((applyBuiltinIfKnown e name).map (·.1.target)).getD e.target) := by
  have hmethod : ∀ {c : Node} {q : Prop} [Decidable q], decide (c.kind = .kindMethod ∧ q) = true →
      c.isCallable = true := fun hq => isCallable_of_method (of_decide_eq_true hq).1
  have hand : ∀ {a b : Bool}, (a && b) = true → a = true := fun hab => ((Bool.and_eq_true _ _).mp hab).1
  have hhint : Sends e.crossRepo (v.findNodesByName name)
      (v.resolveByHint e (v.findNodesByName name)) := by
    unfold resolveByHint
    simp only
    split
    · exact Sends.none
    · exact (Sends.find? (fun c hq => hmethod (hand hq)) fun _ _ _ => rfl).orElse
        ((Sends.find? (fun c hq => hmethod hq) fun _ _ _ => rfl).orElse
          (Sends.find? (fun c hq => hmethod hq) fun _ _ _ => rfl))
  have hcaller : Sends e.crossRepo (v.findNodesByName name)
      (v.resolveByCaller e (v.findNodesByName name)) := by
    unfold resolveByCaller
    simp only
    split
    · exact Sends.none
    · exact (Sends.find? (fun c hq => hmethod (hand hq)) fun _ _ _ => rfl).orElse
        (Sends.find? (fun c hq => hmethod hq) fun _ _ _ => rfl)
  have hname : Sends e.crossRepo (v.findNodesByName name)
      (resolveByName e (v.findNodesByName name)) := by
    unfold resolveByName
    simp only
    refine Sends.orElse ?_ (Sends.orElse ?_ (Sends.orElse ?_ ?_))
    · exact Sends.find? (fun c hq => isCallable_of_method (of_decide_eq_true (hand hq))) fun _ _ _ => rfl
    · exact Sends.find? (fun c hq => isCallable_of_method (of_decide_eq_true hq)) fun _ _ _ => rfl
    · exact Sends.find? (fun c hq => isCallable_of_function (of_decide_eq_true (hand hq)))
        fun _ _ _ => rfl
    · exact Sends.find? (fun c hq => isCallable_of_function (of_decide_eq_true hq)) fun _ _ _ => rfl
  -- a callable of the name is the only one, so a test by name finds it
  have hsome : (v.callable name).isSome → (v.resolveByHint e (v.findNodesByName name) <|>
      v.resolveByCaller e (v.findNodesByName name) <|>
      resolveByName e (v.findNodesByName name)).isSome := by
    intro hs
    obtain ⟨c, hfind, hk⟩ := h.exists_callable hs
    unfold resolveByName
    simp only [hfind]
    rcases hk with hk | hk <;> simp [hk]
  have hfound := h.target_of_sends (hhint.orElse (hcaller.orElse hname)) hsome
  have hassoc : (v.resolveByHint e (v.findNodesByName name) <|>
      v.resolveByCaller e (v.findNodesByName name) <|> resolveByName e (v.findNodesByName name) <|>
      applyBuiltinIfKnown e name) = ((v.resolveByHint e (v.findNodesByName name) <|>
        v.resolveByCaller e (v.findNodesByName name) <|> resolveByName e (v.findNodesByName name)) <|>
        applyBuiltinIfKnown e name) := by
    simp only [Option.orElse_eq_orElse, Option.orElse_eq_or, Option.or_assoc]
  unfold resolveMethodCall
  simp only
  rw [target_getD, hassoc]
  cases hx : (v.resolveByHint e (v.findNodesByName name) <|>
      v.resolveByCaller e (v.findNodesByName name) <|>
      resolveByName e (v.findNodesByName name)) with
  | some y =>
    rw [hx] at hfound
    rw [← hfound]
    rfl
  | none =>
    rw [hx] at hfound
    rw [← hfound]
    rfl

omit h in
theorem find?_dirs_of_forall {importPath : String} {q : Node → Bool}
    (hq : ∀ c ∈ v.dirIndex importPath ++ v.lastDirIndex (lastPathComponent importPath), q c = true) :
    ((v.dirIndex importPath).find? q <|>
      (v.lastDirIndex (lastPathComponent importPath)).find? q) = v.firstFile importPath := by
  have hall : ∀ l : List Node, (∀ c ∈ l, q c = true) → l.find? q = l.head? := fun l hl => by
    cases l with
    | nil => rfl
    | cons c l => rw [List.find?_cons_of_pos (hl c List.mem_cons_self), List.head?_cons]
  rw [hall _ fun c hc => hq c (List.mem_append_left _ hc),
    hall _ fun c hc => hq c (List.mem_append_right _ hc), firstFile, List.head?_append]
  simp only [Option.orElse_eq_orElse, Option.orElse_eq_or]

omit h in
theorem find?_dirs_of_forall_not {importPath : String} {q : Node → Bool}
    (hq : ∀ c ∈ v.dirIndex importPath ++ v.lastDirIndex (lastPathComponent importPath), ¬q c = true) :
    ((v.dirIndex importPath).find? q <|>
      (v.lastDirIndex (lastPathComponent importPath)).find? q) = none := by
  rw [List.find?_eq_none.mpr fun c hc => hq c (List.mem_append_left _ hc),
    List.find?_eq_none.mpr fun c hc => hq c (List.mem_append_right _ hc)]
  rfl

/-- An import goes to its node. -/
theorem target_resolveImport (importPath : String) : (v.resolveImport e importPath).1.target =
    ((v.importNode importPath).map fun c => (c.id, e.crossRepo)).getD
      ("external::" ++ importPath, e.crossRepo) := by
  unfold resolveImport importNode
  simp only
  cases hq : v.getNodeByQualName importPath with
  | some node => exact h.target_resolveAcross e (h.byQual hq)
  | none =>
    have hsame : ∀ c ∈ v.dirIndex importPath ++ v.lastDirIndex (lastPathComponent importPath),
        decide (v.callerRepoPrefix e = "" ∨ c.repoPrefix = v.callerRepoPrefix e) = true := by
      intro c hc
      refine decide_eq_true ?_
      cases hs : v.getNode e.fromID with
      | none => exact Or.inl (callerRepoPrefix_of_eq_none hs)
      | some n =>
        refine Or.inr ?_
        rw [h.callerRepoPrefix_of_isSome (Option.isSome_iff_exists.mpr ⟨n, hs⟩)]
        exact h.files (mem_fileNodes_of_mem_dirs hc)
    simp only [find?_dirs_of_forall hsame]
    cases hf : v.firstFile importPath with
    | some c => rfl
    | none =>
      rw [show (v.dirIndex importPath ++ v.lastDirIndex (lastPathComponent importPath)).head? = none
        from hf]
      rfl

end OneRepo

end Lookup

/-! ### The resolver across repositories -/

namespace CrossRepoResolver

open Lookup

variable {v : Lookup} {p : String} (h : v.OneRepo p) (e : Edge)

/-- How the resolver across repositories marks an edge that it sends to a node of the one
repository. -/
def mark (v : Lookup) (e : Edge) : Bool := if (v.getNode e.fromID).isSome then e.crossRepo else true

theorem mark_eq_iff : mark v e = e.crossRepo ↔ v.Known e := by
  unfold mark Lookup.Known
  by_cases hs : (v.getNode e.fromID).isSome = true
  · rw [if_pos hs]
    exact iff_of_true rfl (Or.inl hs)
  · rw [if_neg hs, or_iff_right hs]
    exact eq_comm

include h

theorem same_iff {c : Node} (hc : c.repoPrefix = p) :
    c.repoPrefix = v.callerRepoPrefix e ↔ (v.getNode e.fromID).isSome := by
  cases hs : v.getNode e.fromID with
  | some n =>
    refine iff_of_true ?_ rfl
    rw [hc, h.callerRepoPrefix_of_isSome (Option.isSome_iff_exists.mpr ⟨n, hs⟩)]
  | none =>
    rw [OneRepo.callerRepoPrefix_of_eq_none hs, hc]
    exact iff_of_false h.ne Bool.false_ne_true

/-- **Two passes for a candidate**, one of the repository of the caller and one of any. -/
theorem sends_pair (name : String) {q : Node → Bool} (hq : ∀ c, q c = true → c.isCallable = true)
    {e₁ : Edge} (h₁ : e₁.crossRepo = e.crossRepo) (e₂ : Edge) :
    Sends (mark v e) (v.findNodesByName name)
      (((v.findNodesByName name).find? fun c =>
          q c && decide (c.repoPrefix = v.callerRepoPrefix e)).map e₁.crossToSame
        <|> ((v.findNodesByName name).find? q).map e₂.crossToOther) := by
  have hrepo : ∀ c ∈ v.findNodesByName name, c.repoPrefix = p := fun c hc => (h.byName hc).1
  have hand : ∀ {c : Node}, (q c && decide (c.repoPrefix = v.callerRepoPrefix e)) = true →
      q c = true ∧ c.repoPrefix = v.callerRepoPrefix e := fun hc =>
    ((Bool.and_eq_true _ _).mp hc).imp id of_decide_eq_true
  refine Sends.pair hq (fun c hc hqc => ?_) fun c hc hqc hnone => ?_
  · have hs := (same_iff h e (hrepo c hc)).mp (hand hqc).2
    change (c.id, e₁.crossRepo) = _
    rw [h₁, mark, if_pos hs]
  · have hs : ¬(v.getNode e.fromID).isSome = true := fun hs => by
      have hsame := (same_iff h e (hrepo c hc)).mpr hs
      exact List.find?_eq_none.mp hnone c hc (by rw [hqc, decide_eq_true hsame]; rfl)
    change (c.id, true) = _
    rw [mark, if_neg hs]

/-- **A call of a function** goes to the function or method of the name. -/
theorem target_resolveFunctionCall (name : String) : (resolveFunctionCall v e name).1.target =
    ((v.callable name).map fun c => (c.id, mark v e)).getD e.target := by
  have hsends := sends_pair h e name (fun c hc => hc) (rfl : e.crossRepo = e.crossRepo) e
  unfold resolveFunctionCall
  simp only
  rw [target_getD, h.target_of_sends hsends]
  intro hs
  obtain ⟨c, hc⟩ := Option.isSome_iff_exists.mp hs
  rw [show (v.findNodesByName name).find? Node.isCallable = some c from hc]
  simp

/-- **A call of a method** goes there, too. -/
theorem target_resolveMethodCall (name : String) : (resolveMethodCall v e name).1.target =
    ((v.callable name).map fun c => (c.id, mark v e)).getD e.target := by
  have hhint : Sends (mark v e) (v.findNodesByName name)
      (resolveByHint v e (v.findNodesByName name)) := by
    unfold resolveByHint
    simp only
    split
    · exact Sends.none
    · refine sends_pair h e name (fun c hc => ?_) ?_ _
      · exact isCallable_of_method (of_decide_eq_true hc).1
      · rfl
  have hname : Sends (mark v e) (v.findNodesByName name)
      (resolveByName v e (v.findNodesByName name)) := by
    have hself : e.crossRepo = e.crossRepo := rfl
    have hboth := (sends_pair h e name (fun c hc => isCallable_of_method (of_decide_eq_true hc)) hself
      e).orElse
        (sends_pair h e name (fun c hc => isCallable_of_function (of_decide_eq_true hc)) hself e)
    unfold resolveByName
    simpa only [Option.orElse_eq_orElse, Option.orElse_eq_or, Option.or_assoc] using hboth
  unfold resolveMethodCall
  simp only
  rw [target_getD, h.target_of_sends (hhint.orElse hname)]
  intro hs
  obtain ⟨c, hfind, hk⟩ := h.exists_callable hs
  unfold resolveByName
  simp only [hfind]
  rcases hk with hk | hk <;> simp [hk]

/-- **An import** goes to its node. -/
theorem target_resolveImport (importPath : String) : (resolveImport v e importPath).1.target =
    ((v.importNode importPath).map fun c => (c.id, mark v e)).getD
      ("external::" ++ importPath, e.crossRepo) := by
  unfold resolveImport importNode
  simp only
  cases hq : v.getNodeByQualName importPath with
  | some node =>
    have hiff := same_iff h e (h.byQual hq)
    simp only
    by_cases hs : (v.getNode e.fromID).isSome = true
    · rw [if_neg (not_not.mpr (hiff.mpr hs))]
      change (node.id, e.crossRepo) = (node.id, mark v e)
      rw [mark, if_pos hs]
    · rw [if_pos fun hc => hs (hiff.mp hc)]
      change (node.id, true) = (node.id, mark v e)
      rw [mark, if_neg hs]
  | none =>
    by_cases hs : (v.getNode e.fromID).isSome = true
    · simp only [OneRepo.find?_dirs_of_forall fun c hc =>
        decide_eq_true ((same_iff h e (h.files (mem_fileNodes_of_mem_dirs hc))).mpr hs)]
      cases hf : v.firstFile importPath with
      | some c =>
        change (c.id, e.crossRepo) = (c.id, mark v e)
        rw [mark, if_pos hs]
      | none =>
        rw [show (v.dirIndex importPath ++ v.lastDirIndex (lastPathComponent importPath)).head? =
          none from hf]
        rfl
    · simp only [OneRepo.find?_dirs_of_forall_not fun c hc hd =>
        hs ((same_iff h e (h.files (mem_fileNodes_of_mem_dirs hc))).mp (of_decide_eq_true hd))]
      cases hf : v.firstFile importPath with
      | some c =>
        rw [show (v.dirIndex importPath ++ v.lastDirIndex (lastPathComponent importPath)).head? =
          some c from hf]
        change (c.id, true) = (c.id, mark v e)
        rw [mark, if_neg hs]
      | none =>
        rw [show (v.dirIndex importPath ++ v.lastDirIndex (lastPathComponent importPath)).head? =
          none from hf]
        rfl

end CrossRepoResolver

/-! ### Agreement on one edge -/

namespace Lookup

/-- The two lookups are of the same nodes: they may differ in the order of the files, and in
the edges. -/
structure Matches (v v' : Lookup) : Prop where
  getNode : v'.getNode = v.getNode
  findNodesByName : v'.findNodesByName = v.findNodesByName
  getNodeByQualName : v'.getNodeByQualName = v.getNodeByQualName
  mem_fileNodes : ∀ c, c ∈ v'.fileNodes ↔ c ∈ v.fileNodes

/-- No function has a label for its ID. -/
def NoLabels (v : Lookup) : Prop :=
  ∀ {name c}, c ∈ v.findNodesByName name → c.isCallable = true → isLabel c.id = false

/-- **The edge has a form that both resolvers know.** An import is to be given the same file
by both listings; a call of a method is not one of a built-in method that no node has the
name of; a token is a function, and a type is not referred to. And if there is a target, the
source of the edge is in the graph. -/
def Covered (v v' : Lookup) (e : Edge) : Prop :=
  let target := trimPrefix e.toID unresolvedPrefix
  if hasPrefix target "import::" then
    let importPath := trimPrefix target "import::"
    (v.getNodeByQualName importPath = none →
        (v.firstFile importPath).map Node.id = (v'.firstFile importPath).map Node.id) ∧
      ((v.importNode importPath).isSome → v.Known e)
  else if hasPrefix target "extern::" then False
  else if hasPrefix target "*." then
    let methodName := trimPrefix target "*."
    if (v.callable methodName).isSome then v.Known e else applyBuiltinIfKnown e methodName = none
  else
    ((v.callable target).isSome → v.Known e) ∧
      (e.kind = .edgeProvides ∨ e.kind = .edgeConsumes →
        ∀ c ∈ v.findNodesByName target, c.isCallable = true) ∧
      (e.kind = .edgeInstantiates ∨ e.kind = .edgeReferences →
        ∀ c ∈ v.findNodesByName target, c.isTypeLike = false)

variable {v v' : Lookup} {p : String} {e : Edge}

theorem Matches.mark (hm : v.Matches v') (e : Edge) :
    CrossRepoResolver.mark v' e = CrossRepoResolver.mark v e := by
  unfold CrossRepoResolver.mark
  rw [hm.getNode]

theorem Matches.callable (hm : v.Matches v') (name : String) : v'.callable name = v.callable name := by
  unfold Lookup.callable
  rw [hm.findNodesByName]

/-- An import has a node by both listings of the files, or by none. -/
theorem Matches.importNode_eq_none (hm : v.Matches v') (importPath : String) :
    v'.importNode importPath = none ↔ v.importNode importPath = none := by
  have hfile : ∀ w : Lookup, w.firstFile importPath = none ↔
      ∀ c ∈ w.fileNodes, ¬GoPath.dir c.filePath = importPath ∧
        ¬(lastPathComponent (GoPath.dir c.filePath) = lastPathComponent importPath ∧
          lastPathComponent importPath ≠ "" ∧
            lastPathComponent importPath ≠ GoPath.dir c.filePath) := fun w => by
    unfold firstFile dirIndex lastDirIndex
    simp only [List.head?_eq_none_iff, List.append_eq_nil_iff, List.filter_eq_nil_iff,
      decide_eq_true_eq, ← forall_and]
  unfold importNode
  rw [hm.getNodeByQualName]
  cases v.getNodeByQualName importPath with
  | some c => exact iff_of_false (fun h => nomatch h) fun h => nomatch h
  | none =>
    change v'.firstFile importPath = none ↔ v.firstFile importPath = none
    rw [hfile, hfile]
    exact forall_congr' fun c => imp_congr_left (hm.mem_fileNodes c)

/-- An edge to one node is an edge to it, however it is marked. -/
theorem map_pair_eq_iff {x : Option Node} {b b' : Bool} {t : String × Bool} :
    (x.map fun c => (c.id, b)).getD t = (x.map fun c => (c.id, b')).getD t ↔
      (x.isSome → b = b') := by
  cases x with
  | none => exact iff_of_true rfl fun h => nomatch h
  | some c => exact ⟨fun h _ => (Prod.mk.inj h).2, fun h => by rw [h rfl]⟩

theorem covered_import_iff (h : v.OneRepo p) (h' : v'.OneRepo p) (hm : v.Matches v')
    (importPath : String) : (v.resolveImport e importPath).1.target =
        (CrossRepoResolver.resolveImport v' e importPath).1.target ↔
      (v.getNodeByQualName importPath = none →
          (v.firstFile importPath).map Node.id = (v'.firstFile importPath).map Node.id) ∧
        ((v.importNode importPath).isSome → v.Known e) := by
  have hsame : (v.getNodeByQualName importPath = none →
      (v.firstFile importPath).map Node.id = (v'.firstFile importPath).map Node.id) ↔
        (v.importNode importPath).map Node.id = (v'.importNode importPath).map Node.id := by
    unfold importNode
    rw [hm.getNodeByQualName]
    cases v.getNodeByQualName importPath with
    | none => exact ⟨fun hc => hc rfl, fun hc _ => hc⟩
    | some c => exact iff_of_true (fun hc => nomatch hc) rfl
  rw [hsame]
  have hnone := hm.importNode_eq_none importPath
  rw [h.target_resolveImport, CrossRepoResolver.target_resolveImport h', hm.mark,
    ← CrossRepoResolver.mark_eq_iff]
  cases hx : v.importNode importPath with
  | none =>
    rw [hnone.mpr hx]
    exact iff_of_true rfl ⟨rfl, fun hc => nomatch hc⟩
  | some c =>
    cases hx' : v'.importNode importPath with
    | none =>
      rw [hnone.mp hx'] at hx
      cases hx
    | some c' =>
      refine ⟨fun hc => ?_, fun hc => ?_⟩
      · obtain ⟨hid, hmark⟩ := Prod.mk.inj hc
        exact ⟨congrArg some hid, fun _ => hmark.symm⟩
      · exact Prod.ext (Option.some.inj hc.1) (hc.2 rfl).symm

theorem toList_length_le_of_cutLast {s sep a b : String} (hcut : cutLast s sep = some (a, b)) :
    b.toList.length ≤ s.toList.length := by
  obtain ⟨i, -, hi⟩ := Option.map_eq_some_iff.mp hcut
  rw [← (Prod.mk.inj hi).2, String.toList_ofList, List.length_drop]
  exact Nat.sub_le _ _

/-- **No qualified call** is sent to one target: the resolver across repositories takes the
whole of it to be a name. -/
theorem not_agree_of_qualified (h : v.OneRepo p) (hm : v.Matches v') (h' : v'.OneRepo p)
    (hn : v.NoPlaceholders) (hl : v.NoLabels) (hun : e.IsUnresolved) {target : String}
    (hqualified : hasPrefix target "extern::" = true) :
    (v.resolveExtern e (trimPrefix target "extern::")).1.target ≠
      (CrossRepoResolver.resolveFunctionCall v' e target).1.target := by
  obtain ⟨spec, rfl⟩ := hasPrefix_iff.mp hqualified
  have hspec : trimPrefix ("extern::" ++ spec) "extern::" = spec := by
    rw [trimPrefix, if_pos (hasPrefix_append _ _), String.toList_append, List.drop_left',
      String.ofList_toList]
    rfl
  rw [hspec, CrossRepoResolver.target_resolveFunctionCall h', hm.callable]
  intro hc
  have htarget := congrArg Prod.fst hc
  change (v.resolveExtern e spec).1.toID = _ at htarget
  have hdone := not_isUnresolved_resolveExtern hn e spec
  unfold Edge.IsUnresolved at hdone
  -- resolveFunctionCall looks for a symbol under the whole text, resolveExtern never does
  cases hx : v.callable ("extern::" ++ spec) with
  | none =>
    rw [hx] at htarget
    exact hdone (htarget ▸ hun)
  | some c =>
    rw [hx] at htarget
    have hmem : c ∈ v.findNodesByName ("extern::" ++ spec) := List.mem_of_find?_eq_some hx
    have hlabel := hl hmem (List.find?_some hx)
    have htarget : (v.resolveExtern e spec).1.toID = c.id := htarget
    unfold resolveExtern at htarget
    split at htarget
    · exact ne_of_isLabel hlabel List.mem_cons_self htarget.symm
    · rename_i importPath symbol hcut
      simp only at htarget
      split at htarget
      · rename_i d hd
        have hdm := List.mem_of_find?_eq_some hd
        have hdc := h.id_inj hdm hmem htarget
        -- a symbol cut off the text is shorter than the text
        have hname : symbol = "extern::" ++ spec := by
          rw [← (h.byName hdm).2, ← (h.byName hmem).2, hdc]
        have hlen := toList_length_le_of_cutLast hcut
        rw [hname, String.toList_append, List.length_append] at hlen
        have hpos : 0 < "extern::".toList.length := by decide
        omega
      · split at htarget
        · refine @ne_of_isLabel c.id "stdlib::" (importPath ++ "::" ++ symbol) hlabel
            (List.mem_of_getElem? (i := 1) rfl) (htarget.symm.trans ?_)
          simp only [Edge.resolveExternal, String.append_assoc]
        · refine @ne_of_isLabel c.id "dep::" (importPath ++ "::" ++ symbol) hlabel
            (List.mem_of_getElem? (i := 2) rfl) (htarget.symm.trans ?_)
          simp only [Edge.resolveExternal, String.append_assoc]

theorem covered_method_iff (h : v.OneRepo p) (h' : v'.OneRepo p) (hm : v.Matches v')
    (hun : e.IsUnresolved) (methodName : String) : (v.resolveMethodCall e methodName).1.target =
        (CrossRepoResolver.resolveMethodCall v' e methodName).1.target ↔
      if (v.callable methodName).isSome then v.Known e
      else applyBuiltinIfKnown e methodName = none := by
  rw [h.target_resolveMethodCall, CrossRepoResolver.target_resolveMethodCall h', hm.mark,
    hm.callable, ← CrossRepoResolver.mark_eq_iff]
  cases v.callable methodName with
  | some c => exact ⟨fun hc => (Prod.mk.inj hc).2.symm, fun hc => Prod.ext rfl hc.symm⟩
  | none =>
    cases hb : applyBuiltinIfKnown e methodName with
    | none => exact iff_of_true rfl rfl
    | some y =>
      refine iff_of_false (fun hc => ?_) fun hc => nomatch hc
      have hto : y.1.toID = e.toID := (Prod.mk.inj hc).1
      have hdone := answers_applyBuiltinIfKnown e methodName y hb
      unfold Edge.IsUnresolved at hdone
      exact hdone (hto ▸ hun)

theorem covered_name_iff (h : v.OneRepo p) (h' : v'.OneRepo p) (hm : v.Matches v')
    (hn : v.NoPlaceholders) (hun : e.IsUnresolved) (name : String) :
    (if e.kind = .edgeProvides ∨ e.kind = .edgeConsumes then v.resolveTokenRef e name
      else if e.kind = .edgeInstantiates ∨ e.kind = .edgeReferences then v.resolveTypeOrFunc e name
      else v.resolveFunctionCall e name).1.target =
        (CrossRepoResolver.resolveFunctionCall v' e name).1.target ↔
      ((v.callable name).isSome → v.Known e) ∧
        (e.kind = .edgeProvides ∨ e.kind = .edgeConsumes →
          ∀ c ∈ v.findNodesByName name, c.isCallable = true) ∧
        (e.kind = .edgeInstantiates ∨ e.kind = .edgeReferences →
          ∀ c ∈ v.findNodesByName name, c.isTypeLike = false) := by
  -- a target that is left as it is keeps its placeholder, and no node has one for its ID
  have hto : ∀ c ∈ v.findNodesByName name, ∀ b, (c.id, b) ≠ e.target := fun c hc b heq => by
    have hid : c.id = e.toID := (Prod.mk.inj heq).1
    exact hn.byName hc (hid ▸ hun)
  have hknown : e.crossRepo = CrossRepoResolver.mark v e ↔ v.Known e :=
    eq_comm.trans (CrossRepoResolver.mark_eq_iff e)
  rw [CrossRepoResolver.target_resolveFunctionCall h', hm.mark, hm.callable]
  -- a token goes to any node of the name, a type to a type first, the others to a callable
  by_cases htoken : e.kind = .edgeProvides ∨ e.kind = .edgeConsumes
  · have htype : ¬(e.kind = .edgeInstantiates ∨ e.kind = .edgeReferences) := by
      rcases htoken with hk | hk <;> simp [hk]
    rw [if_pos htoken, h.target_resolveTokenRef]
    by_cases hnil : v.findNodesByName name = []
    · rw [callable, hnil]
      exact iff_of_true rfl ⟨fun hc => (nomatch hc), fun _ c hc => (nomatch hc), fun _ c hc => (nomatch hc)⟩
    · obtain ⟨c, hc⟩ := List.exists_mem_of_ne_nil _ hnil
      rw [callable, h.head?_eq hc, h.find?_eq hc]
      by_cases hcall : c.isCallable = true
      · rw [if_pos hcall, map_pair_eq_iff, hknown]
        exact ⟨fun hk => ⟨hk, fun _ d hd => h.unique hd hc ▸ hcall, fun hk => absurd hk htype⟩,
          And.left⟩
      · rw [if_neg hcall]
        exact iff_of_false (hto c hc _) fun hall => hcall (hall.2.1 htoken c hc)
  rw [if_neg htoken]
  by_cases htype : e.kind = .edgeInstantiates ∨ e.kind = .edgeReferences
  · rw [if_pos htype, h.target_resolveTypeOrFunc]
    by_cases hnil : v.findNodesByName name = []
    · rw [callable, hnil]
      exact iff_of_true rfl ⟨fun hc => (nomatch hc), fun _ c hc => (nomatch hc), fun _ c hc => (nomatch hc)⟩
    · obtain ⟨c, hc⟩ := List.exists_mem_of_ne_nil _ hnil
      rw [callable, h.find?_eq hc, h.find?_eq hc]
      by_cases hlike : c.isTypeLike = true
      · have hcall : ¬c.isCallable = true := not_isCallable_of_isTypeLike hlike
        rw [if_pos (by rw [hlike]; rfl), if_neg hcall]
        refine iff_of_false (hto c hc _) fun hall => ?_
        rw [hall.2.2 htype c hc] at hlike
        exact nomatch hlike
      · rw [Bool.eq_false_of_not_eq_true hlike, Bool.false_or, map_pair_eq_iff, hknown]
        exact ⟨fun hk => ⟨hk, fun hk => absurd hk htoken, fun _ d hd => by
          rw [h.unique hd hc, Bool.eq_false_of_not_eq_true hlike]⟩, And.left⟩
  rw [if_neg htype, h.target_resolveFunctionCall, map_pair_eq_iff, hknown]
  exact ⟨fun hc => ⟨hc, fun hk => absurd hk htoken, fun hk => absurd hk htype⟩, And.left⟩

/-- **The two resolvers agree on an edge** exactly if both know its form. -/
theorem agree_iff (h : v.OneRepo p) (h' : v'.OneRepo p) (hm : v.Matches v')
    (hn : v.NoPlaceholders) (hl : v.NoLabels) (hun : e.IsUnresolved) :
    (v.resolveEdge e).1.target = (CrossRepoResolver.resolveEdge v' e).1.target ↔
      v.Covered v' e := by
  unfold resolveEdge CrossRepoResolver.resolveEdge Covered
  simp only
  generalize trimPrefix e.toID unresolvedPrefix = target
  by_cases himport : hasPrefix target "import::" = true
  · rw [if_pos himport, if_pos himport, if_pos himport]
    exact covered_import_iff h h' hm _
  rw [if_neg himport, if_neg himport, if_neg himport]
  by_cases hqualified : hasPrefix target "extern::" = true
  · have hnot : ¬hasPrefix target "*." = true := by
      obtain ⟨spec, rfl⟩ := hasPrefix_iff.mp hqualified
      rw [hasPrefix, String.toList_append]
      simp
    rw [if_pos hqualified, if_pos hqualified, if_neg hnot]
    exact iff_of_false (not_agree_of_qualified h hm h' hn hl hun hqualified) id
  rw [if_neg hqualified, if_neg hqualified]
  by_cases hmethod : hasPrefix target "*." = true
  · rw [if_pos hmethod, if_pos hmethod, if_pos hmethod]
    exact covered_method_iff h h' hm hun _
  rw [if_neg hmethod, if_neg hmethod, if_neg hmethod]
  exact covered_name_iff h h' hm hn hun target

theorem crossResolveEdge_edges (v : Lookup) (l : List Edge) (e : Edge) :
    CrossRepoResolver.resolveEdge { v with allEdges := l } e = CrossRepoResolver.resolveEdge v e :=
  rfl

/-- The answers do not depend on the edges of the graph. -/
theorem OneRepo.target_resolveEdge_edges (h : v.OneRepo p) (l : List Edge) (e : Edge) :
    (({ v with allEdges := l } : Lookup).resolveEdge e).1.target = (v.resolveEdge e).1.target := by
  have hl : ({ v with allEdges := l } : Lookup).OneRepo p :=
    ⟨h.ne, h.getNode, h.byName, h.unique, h.id_inj, h.byQual, h.files⟩
  have hqualified : ∀ spec, ({ v with allEdges := l } : Lookup).resolveExtern e spec =
      v.resolveExtern e spec := fun _ => rfl
  unfold resolveEdge
  simp only
  split_ifs
  · rfl
  · rw [hqualified]
  · rw [hl.target_resolveMethodCall, h.target_resolveMethodCall]
    rfl
  · rfl
  · rfl
  · rfl

end Lookup

/-! ### Agreement on a graph -/

namespace Graph

variable {g g' : Graph} {p : String}

/-- **All nodes are of one repository, and every name belongs to one of them.** No node has
a placeholder for its ID, and no function the label of something outside the graph. -/
structure OfOneRepo (g : Graph) (p : String) : Prop where
  ne : p ≠ ""
  repoPrefix : ∀ {id n}, g.nodeAt id = some n → n.repoPrefix = p
  name : ∀ {id id' n n'}, g.nodeAt id = some n → g.nodeAt id' = some n' → n.name = n'.name → n = n'
  id : ∀ {id n}, g.nodeAt id = some n → ¬hasPrefix id unresolvedPrefix = true
  label : ∀ {id n}, g.nodeAt id = some n → n.isCallable = true → isLabel id = false

theorem Weak.matches_lookup (hg : Weak g) (ord ord' : MapOrder) :
    (g.lookup ord (g.fileNodes ord)).Matches (g.lookup ord' (g.fileNodes ord')) where
  getNode := rfl
  findNodesByName := rfl
  getNodeByQualName := rfl
  mem_fileNodes := fun _ => (hg.mem_fileNodes ord').trans (hg.mem_fileNodes ord).symm

namespace OfOneRepo

variable (h : g.OfOneRepo p) (hg : Weak g)

include h hg

theorem oneRepo (ord : MapOrder) : (g.lookup ord (g.fileNodes ord)).OneRepo p where
  ne := h.ne
  getNode := h.repoPrefix
  byName := fun hc =>
    ⟨h.repoPrefix (hg.nodes.of_mem_map_findNodesByName hc).1,
      (hg.nodes.of_mem_map_findNodesByName hc).2⟩
  unique := fun hc hc' => by
    obtain ⟨hn, hname⟩ := hg.nodes.of_mem_map_findNodesByName hc
    obtain ⟨hn', hname'⟩ := hg.nodes.of_mem_map_findNodesByName hc'
    exact h.name hn hn' (hname.trans hname'.symm)
  id_inj := fun hc hc' hid => by
    have hn := (hg.nodes.of_mem_map_findNodesByName hc).1
    have hn' := (hg.nodes.of_mem_map_findNodesByName hc').1
    rw [hid, hn'] at hn
    exact (Option.some.inj hn).symm
  byQual := fun hc => by
    obtain ⟨r, hr, rfl⟩ := Option.map_eq_some_iff.mp hc
    exact h.repoPrefix (hg.nodes.of_getNodeByQualName hr)
  files := fun hc => h.repoPrefix ((hg.mem_fileNodes ord).mp hc).1

theorem noLabels (ord : MapOrder) : (g.lookup ord (g.fileNodes ord)).NoLabels := fun hc hcall =>
  h.label (hg.nodes.of_mem_map_findNodesByName hc).1 hcall

/-- What the resolver of one repository makes of an edge in a whole pass. -/
theorem target_resolveAll (ord : MapOrder) {r : EdgeRef} (hr : g.StoredOut r)
    (hun : (g.edge r).IsUnresolved) : ((g.resolveAll ord).1.edge r).target =
      ((g.lookup ord (g.fileNodes ord)).resolveEdge (g.edge r)).1.target := by
  unfold resolveAll
  rw [fst_foldl_resolveRef]
  refine edge_foldl_turn (I := SameNodes g) (SameNodes.refl g)
    (fun s r _ hs => hs.trans (SameNodes.turn _ s r)) (fun s hs => ?_) (fun s hs => ?_)
    ((hg.mem_allEdges ord).mpr hr) hun
  · rw [hs.lookup_eq]
    exact (h.oneRepo hg ord).target_resolveEdge_edges _ _
  · rw [hs.lookup_eq]
    exact Lookup.settles_resolveEdge ((hg.noPlaceholders h.id ord).edges _) _

/-- And the one across repositories. -/
theorem target_crossResolveAll (ord : MapOrder) {r : EdgeRef} (hr : g.StoredOut r)
    (hun : (g.edge r).IsUnresolved) : ((g.crossResolveAll ord).1.edge r).target =
      (CrossRepoResolver.resolveEdge (g.lookup ord (g.fileNodes ord)) (g.edge r)).1.target := by
  unfold crossResolveAll
  rw [fst_foldl_crossResolveRef]
  refine edge_foldl_turn (I := SameNodes g) (SameNodes.refl g)
    (fun s r _ hs => hs.trans (SameNodes.turn _ s r)) (fun s hs => ?_) (fun s hs => ?_)
    ((hg.mem_allEdges ord).mpr hr) hun
  · rw [hs.lookup_eq, Lookup.crossResolveEdge_edges]
  · rw [hs.lookup_eq]
    exact CrossRepoResolver.settles_resolveEdge ((hg.noPlaceholders h.id ord).edges _) _

end OfOneRepo

/-- **The two resolvers send an edge of a graph of one repository to one target**, with one
mark, exactly if both know its form. -/
theorem agree_resolveAll_iff {g : Graph} {p : String} (hg : Reachable g) (h : g.OfOneRepo p)
    (ord ord' : MapOrder) {r : EdgeRef} (hr : g.StoredOut r) (hun : (g.edge r).IsUnresolved) :
    ((g.resolveAll ord).1.edge r).target = ((g.crossResolveAll ord').1.edge r).target ↔
      (g.lookup ord (g.fileNodes ord)).Covered (g.lookup ord' (g.fileNodes ord')) (g.edge r) := by
  have hw := hg.weak
  rw [h.target_resolveAll hw ord hr hun, h.target_crossResolveAll hw ord' hr hun]
  exact Lookup.agree_iff (h.oneRepo hw ord) (h.oneRepo hw ord') (hw.matches_lookup ord ord')
    (hw.noPlaceholders h.id ord) (h.noLabels hw ord) hun

namespace TwoCalls

/-! ### Two calls -/

/-- A function that is called. -/
def helper : Node :=
  { id := "r/a.go::helper", kind := .kindFunction, name := "helper", filePath := "r/a.go",
    repoPrefix := "r" }

/-- The function that calls it. -/
def main : Node :=
  { id := "r/a.go::main", kind := .kindFunction, name := "main", filePath := "r/a.go",
    repoPrefix := "r" }

/-- The call of the function, and a call of one of the standard library. -/
def graph : Graph :=
  (((Graph.new.putNode helper).putNode main).putEdge
    { fromID := "r/a.go::main", toID := "unresolved::helper", kind := .edgeCalls }).putEdge
    { fromID := "r/a.go::main", toID := "unresolved::extern::fmt::Println", kind := .edgeCalls }

theorem reachable : Reachable graph :=
  ⟨[.addNode helper, .addNode main, .addEdge _, .addEdge _],
    .cons ⟨trivial, rfl⟩ (.cons ⟨trivial, rfl⟩ (.cons ⟨trivial, rfl⟩ (.cons ⟨trivial, rfl⟩ (.nil _))))⟩

theorem eq_of_nodeAt {id : String} {n : Node} (hn : graph.nodeAt id = some n) :
    (id = helper.id ∧ n = helper) ∨ (id = main.id ∧ n = main) := by
  have hinv := (Weak.new.putNode helper).nodes
  rw [graph, nodeAt_putEdge, nodeAt_putEdge, hinv.nodeAt_putNode, NodeInv.new.nodeAt_putNode] at hn
  split at hn
  · rename_i hid
    exact Or.inr ⟨hid, (Option.some.inj hn).symm⟩
  · split at hn
    · rename_i hid
      exact Or.inl ⟨hid, (Option.some.inj hn).symm⟩
    · cases hn

theorem ofOneRepo : graph.OfOneRepo "r" where
  ne := by decide
  repoPrefix := fun hn => by
    rcases eq_of_nodeAt hn with ⟨-, rfl⟩ | ⟨-, rfl⟩ <;> rfl
  name := fun hn hn' heq => by
    rcases eq_of_nodeAt hn with ⟨-, rfl⟩ | ⟨-, rfl⟩ <;>
      rcases eq_of_nodeAt hn' with ⟨-, rfl⟩ | ⟨-, rfl⟩ <;> first | rfl | exact absurd heq (by decide)
  id := fun hn => by
    rcases eq_of_nodeAt hn with ⟨rfl, -⟩ | ⟨rfl, -⟩ <;> decide
  label := fun hn _ => by
    rcases eq_of_nodeAt hn with ⟨rfl, -⟩ | ⟨rfl, -⟩ <;> decide

theorem agree_resolveAll_iff_helper :
    ((graph.resolveAll GoMap.RangeOrder.default).1.edge ⟨0⟩).target =
      ((graph.crossResolveAll GoMap.RangeOrder.default).1.edge ⟨0⟩).target := by
  refine (agree_resolveAll_iff reachable ofOneRepo _ _ (by decide +kernel) (by decide +kernel)).mpr ?_
  have hform : (graph.edge ⟨0⟩).kind = .edgeCalls ∧ trimPrefix (graph.edge ⟨0⟩).toID unresolvedPrefix =
      "helper" ∧ (graph.nodeAt (graph.edge ⟨0⟩).fromID).isSome = true := by decide +kernel
  obtain ⟨hkind, htarget, hfrom⟩ := hform
  unfold Lookup.Covered
  simp only [htarget, hkind]
  rw [if_neg (by decide), if_neg (by decide), if_neg (by decide)]
  exact ⟨fun _ => Or.inl hfrom, fun hk => by simp at hk, fun hk => by simp at hk⟩

/-- **A call of the standard library** gets a target from one of the resolvers only. -/
theorem not_agree_resolveAll_extern :
    ¬∀ (g : Graph) (p : String) (ord ord' : MapOrder) (r : EdgeRef), Reachable g →
      g.OfOneRepo p → g.StoredOut r → (g.edge r).IsUnresolved →
        ((g.resolveAll ord).1.edge r).target = ((g.crossResolveAll ord').1.edge r).target := by
  intro h
  have heq := h graph "r" GoMap.RangeOrder.default GoMap.RangeOrder.default ⟨1⟩ reachable ofOneRepo
    (by decide +kernel) (by decide +kernel)
  have hne : ((graph.resolveAll GoMap.RangeOrder.default).1.edge ⟨1⟩).target ≠
      ((graph.crossResolveAll GoMap.RangeOrder.default).1.edge ⟨1⟩).target := by decide +kernel
  exact hne heq

end TwoCalls

end Graph

end Gortex
