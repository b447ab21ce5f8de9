import Gortex.Resolver.Pass

/-!
# Inferred interfaces

`InferImplements` adds an edge from every type to every interface its methods satisfy, and
removes none: `Gortex.Graph.Satisfies` says of a pair of IDs what the pass looks for, and
`Gortex.Graph.implements_inferImplements` that an edge between two IDs is there afterwards
exactly if it was there before or the pair is one of these.

The resolver can give two edges one identity, and the sidecars of the edge tables are then
complete for one of the two only. This does not touch the edges a pass over the interfaces
reads and writes, whose targets are no placeholders: the tables stay right for the edges of
such kinds and for the placeholders themselves (`Gortex.Graph.RightOn`), through every
operation, and so what is said here holds of every graph that is reached.
-/

namespace Gortex

open GoString

namespace Graph

/-! ### Edges that are never resolved -/

/-- An identity of one of the kinds, or with a placeholder for its target. -/
def Keyed (K : EdgeKind → Prop) (k : EdgeKey) : Prop :=
  K k.kind ∨ hasPrefix k.toID unresolvedPrefix = true

/-- **The tables are right for the edges of the kinds**, and none of these edges, and no
node, has a placeholder. -/
structure RightOn (K : EdgeKind → Prop) (g : Graph) : Prop where
  weak : Weak g
  edges : EdgeInvOn (Keyed K) g
  settled : ∀ e, g.StoredEdge e → K e.kind → ¬e.IsUnresolved
  ids : ∀ {id n}, g.nodeAt id = some n → ¬hasPrefix id unresolvedPrefix = true

/-- The edges of the kinds stay, and the tables right for them. -/
structure KeepsOf (K : EdgeKind → Prop) (g g' : Graph) : Prop where
  right : RightOn K g → RightOn K g'
  stored : RightOn K g → ∀ e, K e.kind → (g'.StoredEdge e ↔ g.StoredEdge e)

variable {K : EdgeKind → Prop} {g g' g'' : Graph}

theorem RightOn.new : RightOn K Graph.new where
  weak := Weak.new
  edges := EdgeInvOn.new
  settled := fun _ ⟨_, hr, _⟩ => absurd hr List.not_mem_nil
  ids := fun h => by
    rw [show Graph.new.nodeAt _ = none from rfl] at h
    cases h

theorem KeepsOf.refl (g : Graph) : KeepsOf K g g := ⟨id, fun _ _ _ => Iff.rfl⟩

theorem KeepsOf.trans (h : KeepsOf K g g') (h' : KeepsOf K g' g'') : KeepsOf K g g'' :=
  ⟨fun hg => h'.right (h.right hg), fun hg e he =>
    (h'.stored (h.right hg) e he).trans (h.stored hg e he)⟩

theorem KeepsOf.foldl {α : Type} {f : Graph → α → Graph} {l : List α}
    (hf : ∀ g, ∀ a ∈ l, KeepsOf K g (f g a)) (g : Graph) : KeepsOf K g (l.foldl f g) :=
  List.foldl_invariant (P := KeepsOf K g) (fun g' a ha hg => hg.trans (hf g' a ha))
    (KeepsOf.refl g)

theorem KeepsOf.putNode {n : Node} (hn : ¬hasPrefix n.id unresolvedPrefix = true) (g : Graph) :
    KeepsOf K g (g.putNode n) where
  right := fun h =>
    { weak := h.weak.putNode n
      edges := (NodeTablesOnly.addNode _ _).edgeInvOn (h.edges.of_tables rfl rfl rfl rfl)
      settled := fun e he => h.settled e ((storedEdge_putNode g n e).mp he)
      ids := fun {id m} hm => by
        rw [h.weak.nodes.nodeAt_putNode] at hm
        split at hm
        · rename_i hid
          rwa [hid]
        · exact h.ids hm }
  stored := fun _ e _ => storedEdge_putNode g n e

/-- **An edge is added**: of the edges of the kinds it replaces the one of its identity. -/
theorem RightOn.putEdge (h : RightOn K g) {e : Edge} (he : K e.kind → ¬e.IsUnresolved) :
    RightOn K (g.putEdge e) ∧ ∀ e', K e'.kind →
      ((g.putEdge e).StoredEdge e' ↔ e' = e ∨ (g.StoredEdge e' ∧ keyOf e' ≠ keyOf e)) := by
  have hstored : ∀ e', K e'.kind →
      ((g.putEdge e).StoredEdge e' ↔ e' = e ∨ (g.StoredEdge e' ∧ keyOf e' ≠ keyOf e)) :=
    fun e' he' => h.edges.storedEdge_putEdge e e' (Or.inl he')
  refine ⟨⟨h.weak.putEdge e, (h.edges.newEdge e).addEdge (Nat.lt_succ_self _), fun e' hst he' => ?_,
    fun {id n} hn => ?_⟩, hstored⟩
  · rcases (hstored e' he').mp hst with rfl | ⟨hst, -⟩
    · exact he he'
    · exact h.settled e' hst he'
  · rw [nodeAt_putEdge] at hn
    exact h.ids hn

theorem KeepsOf.putEdge {e : Edge} (he : ¬K e.kind) (g : Graph) : KeepsOf K g (g.putEdge e) where
  right := fun h => (h.putEdge fun hc => absurd hc he).1
  stored := fun h e' he' => by
    rw [(h.putEdge fun hc => absurd hc he).2 e' he']
    constructor
    · rintro (rfl | ⟨hst, -⟩)
      · exact absurd he' he
      · exact hst
    · refine fun hst => Or.inr ⟨hst, fun hk => he ?_⟩
      have hkind : e'.kind = e.kind := congrArg EdgeKey.kind hk
      exact hkind ▸ he'

/-- **Edges are added**: what is stored then is one of them or was stored before, and stays
unless one of them has its identity. -/
theorem RightOn.foldl_putEdge (h : RightOn K g) {l : List Edge}
    (hl : ∀ e ∈ l, K e.kind → ¬e.IsUnresolved) :
    RightOn K (l.foldl Graph.putEdge g) ∧
      (∀ e, K e.kind → (l.foldl Graph.putEdge g).StoredEdge e → e ∈ l ∨ g.StoredEdge e) ∧
      ∀ e, K e.kind → g.StoredEdge e → (∀ e' ∈ l, keyOf e ≠ keyOf e') →
        (l.foldl Graph.putEdge g).StoredEdge e := by
  induction l generalizing g with
  | nil => exact ⟨h, fun _ _ hst => Or.inr hst, fun _ _ hst _ => hst⟩
  | cons a l ih =>
    obtain ⟨hright, hstored⟩ := h.putEdge (hl a List.mem_cons_self)
    obtain ⟨hright', hnew, hold⟩ := ih hright fun e he => hl e (List.mem_cons_of_mem _ he)
    refine ⟨hright', fun e he hst => ?_, fun e he hst hkey => ?_⟩
    · rcases hnew e he hst with hmem | hst
      · exact Or.inl (List.mem_cons_of_mem _ hmem)
      · rcases (hstored e he).mp hst with rfl | ⟨hst, -⟩
        · exact Or.inl List.mem_cons_self
        · exact Or.inr hst
    · exact hold e he ((hstored e he).mpr (Or.inr ⟨hst, hkey a List.mem_cons_self⟩))
        fun e' he' => hkey e' (List.mem_cons_of_mem _ he')

/-! ### Eviction -/

/-- **An eviction** takes the edges at the nodes of the file. -/
theorem RightOn.evictFile (h : RightOn K g) (ord : MapOrder) (filePath : String) :
    RightOn K (Graph.evictFile ord g filePath).graph ∧ ∀ e, K e.kind →
      ((Graph.evictFile ord g filePath).graph.StoredEdge e ↔
        g.StoredEdge e ∧ ¬g.InFile filePath e.fromID ∧ ¬g.InFile filePath e.toID) := by
  obtain ⟨hinv, hedge, hout⟩ := h.edges.evictNodes ord (g.getFileNodes filePath)
    fun n => (filePath, repoKey n)
  have hstored : ∀ e, K e.kind → ((Graph.evictFile ord g filePath).graph.StoredEdge e ↔
      g.StoredEdge e ∧ ¬g.InFile filePath e.fromID ∧ ¬g.InFile filePath e.toID) := by
    intro e he
    rw [← h.weak.nodes.mem_map_getFileNodes, ← h.weak.nodes.mem_map_getFileNodes]
    constructor
    · rintro ⟨r, hr, rfl⟩
      have hr' : (g.evictNodes ord (g.getFileNodes filePath)
        fun n => (filePath, repoKey n)).graph.StoredOut r := hr
      rw [Graph.evictFile, hedge] at he ⊢
      obtain ⟨hst, hf, ht⟩ := (hout r (Or.inl he)).mp hr'
      exact ⟨hst.storedEdge, hf, ht⟩
    · rintro ⟨⟨r, hr, rfl⟩, hf, ht⟩
      exact ⟨r, (hout r (Or.inl he)).mpr ⟨hr, hf, ht⟩, congrFun hedge r⟩
  refine ⟨⟨h.weak.evictFile ord filePath, hinv, fun e hst he =>
    h.settled e ((hstored e he).mp hst).1 he, fun {id n} hn => ?_⟩, hstored⟩
  rw [h.weak.nodes.nodeAt_evictFile] at hn
  exact h.ids (Option.filter_eq_some_iff.mp hn).1

/-! ### Resolving -/

/-- **A placeholder is resolved**: it was of none of the kinds. -/
theorem RightOn.retarget (h : RightOn K g) {r : EdgeRef} {e : Edge} (hr : g.StoredOut r)
    (hun : (g.edge r).IsUnresolved) (hs : SameSite (g.edge r) e) (hset : (g.edge r).Settles e) :
    RightOn K (g.retarget r e) ∧ ∀ e', K e'.kind →
      ((g.retarget r e).StoredEdge e' ↔ g.StoredEdge e') := by
  have hkind : ¬K (g.edge r).kind := fun hk => h.settled _ hr.storedEdge hk hun
  have hold : Keyed K (g.edgeKeyOf r) := Or.inr hun
  have hinv : EdgeInvOn (Keyed K) (g.retarget r e) := by
    refine h.edges.retarget hr hold hs fun hnew r' hr' hne hkey => ?_
    rcases hset with rfl | hset
    · exact hne (h.edges.eq_of_key hr' hr (hkey ▸ hnew) hkey)
    · rcases hnew with hk | hc
      · exact hkind (hs.kind ▸ hk)
      · exact hset hc
  have hedge : ∀ r', (g.retarget r e).edge r' = if r' = r then e else g.edge r' :=
    edge_retarget g r e
  have hstored : ∀ e', K e'.kind → ((g.retarget r e).StoredEdge e' ↔ g.StoredEdge e') := by
    intro e' he'
    constructor
    · rintro ⟨r', hr', rfl⟩
      rw [hedge] at he' ⊢
      split at he'
      · exact absurd (hs.kind ▸ he') hkind
      · rename_i hne
        rw [if_neg hne]
        exact ((storedOut_retarget hs r').mp hr').storedEdge
    · rintro ⟨r', hr', rfl⟩
      refine ⟨r', (storedOut_retarget hs r').mpr hr', ?_⟩
      rw [hedge, if_neg]
      rintro rfl
      exact hkind he'
  refine ⟨⟨(Quiet.retarget hs).weak h.weak, hinv, fun e' hst he' =>
    h.settled e' ((hstored e' he').mp hst) he', fun {id n} hn => ?_⟩, hstored⟩
  rw [nodeAt_retarget] at hn
  exact h.ids hn

theorem RightOn.resolveRef (ord : MapOrder) {files : List Node}
    (hf : ∀ c ∈ files, ¬hasPrefix c.id unresolvedPrefix = true) {s : Graph × ResolveStats}
    (h : RightOn K s.1) {r : EdgeRef} (hr : s.1.StoredOut r) :
    RightOn K (resolveRef ord files s r).1 ∧
      (∀ e, K e.kind → ((resolveRef ord files s r).1.StoredEdge e ↔ s.1.StoredEdge e)) ∧
      ∀ r', (resolveRef ord files s r).1.StoredOut r' ↔ s.1.StoredOut r' := by
  unfold Graph.resolveRef
  split
  · rename_i hun
    have hlook := h.weak.noPlaceholders h.ids ord
    have hv : (s.1.lookup ord files).NoPlaceholders := ⟨hlook.byName, hlook.byQual, hf _⟩
    have hs := (s.1.lookup ord files).sameSite_resolveEdge (s.1.edge r)
    obtain ⟨hright, hstored⟩ := h.retarget hr hun hs (Lookup.settles_resolveEdge hv _)
    exact ⟨hright, hstored, storedOut_retarget hs⟩
  · exact ⟨h, fun _ _ => Iff.rfl, fun _ => Iff.rfl⟩

/-- **A loop of the resolver** over stored edges. -/
theorem RightOn.foldl_resolveRef (ord : MapOrder) {files : List Node}
    (hf : ∀ c ∈ files, ¬hasPrefix c.id unresolvedPrefix = true) (l : List EdgeRef)
    {s : Graph × ResolveStats} (h : RightOn K s.1) (hl : ∀ r ∈ l, s.1.StoredOut r) :
    RightOn K (l.foldl (Graph.resolveRef ord files) s).1 ∧
      ∀ e, K e.kind → ((l.foldl (Graph.resolveRef ord files) s).1.StoredEdge e ↔
        s.1.StoredEdge e) := by
  induction l generalizing s with
  | nil => exact ⟨h, fun _ _ => Iff.rfl⟩
  | cons r l ih =>
    obtain ⟨hright, hstored, hout⟩ := h.resolveRef ord hf (hl r List.mem_cons_self)
    obtain ⟨hright', hstored'⟩ := ih hright fun r' hr' =>
      (hout r').mpr (hl r' (List.mem_cons_of_mem _ hr'))
    exact ⟨hright', fun e he => (hstored' e he).trans (hstored e he)⟩

theorem RightOn.files (h : RightOn K g) (ord : MapOrder) :
    ∀ c ∈ g.fileNodes ord, ¬hasPrefix c.id unresolvedPrefix = true := fun _ hc =>
  h.ids ((h.weak.mem_fileNodes ord).mp hc).1

theorem KeepsOf.resolveAll (ord : MapOrder) (g : Graph) : KeepsOf K g (g.resolveAll ord).1 :=
  have hpass := fun h : RightOn K g => h.foldl_resolveRef ord (s := (g, {}))
    (h.files ord) (g.allEdges ord) fun _ hr => (h.weak.mem_allEdges ord).mp hr
  ⟨fun h => (hpass h).1, fun h => (hpass h).2⟩

theorem KeepsOf.resolveFile (ord : MapOrder) (g : Graph) (filePath : String) :
    KeepsOf K g (g.resolveFile ord filePath).1 := by
  have hpass : RightOn K g → RightOn K (g.resolveFile ord filePath).1 ∧
      ∀ e, K e.kind → ((g.resolveFile ord filePath).1.StoredEdge e ↔ g.StoredEdge e) := by
    intro h
    have hstart : RightOn K (g, ({} : ResolveStats)).1 ∧
        ∀ e, K e.kind → ((g, ({} : ResolveStats)).1.StoredEdge e ↔ g.StoredEdge e) :=
      ⟨h, fun _ _ => Iff.rfl⟩
    refine List.foldl_invariant
      (P := fun s : Graph × ResolveStats => RightOn K s.1 ∧
        ∀ e, K e.kind → (s.1.StoredEdge e ↔ g.StoredEdge e))
      (fun s n _ hs => ?_) hstart
    obtain ⟨hright, hstored⟩ := hs.1.foldl_resolveRef ord (h.files ord)
      (s.1.getOutEdges (s.1.idOf n)) fun r hr => (hs.1.edges.mem_getOutEdges.mp hr).2
    exact ⟨hright, fun e he => (hstored e he).trans (hs.2 e he)⟩
  exact ⟨fun h => (hpass h).1, fun h => (hpass h).2⟩

/-! ### What the pass looks for -/

/-- There is an edge that says that the type implements the interface. -/
def Implements (g : Graph) (typeID ifaceID : String) : Prop :=
  ∃ e, g.StoredEdge e ∧ e.kind = .edgeImplements ∧ e.fromID = typeID ∧ e.toID = ifaceID

/-- The type has a method of the name: an edge leads to it from a method. -/
def HasMethod (g : Graph) (typeID name : String) : Prop :=
  ∃ e n, g.StoredEdge e ∧ e.kind = .edgeMemberOf ∧ e.toID = typeID ∧
    g.nodeAt e.fromID = some n ∧ n.kind = .kindMethod ∧ n.name = name

/-- **The type satisfies the interface**: it is another one, the interface requires some
methods, and the type has methods of all their names. -/
structure Satisfies (g : Graph) (typeID ifaceID : String) : Prop where
  ne : typeID ≠ ifaceID
  typeNode : ∃ n, g.nodeAt typeID = some n ∧ n.isTypeLike = true
  iface : ∃ n, g.nodeAt ifaceID = some n ∧ n.kind = .kindInterface ∧ requiredMethods n ≠ [] ∧
    ∀ m ∈ requiredMethods n, g.HasMethod typeID m

theorem HasMethod.congr {typeID name : String} (hn : ∀ id, g'.nodeAt id = g.nodeAt id)
    (he : ∀ e, e.kind = .edgeMemberOf → (g'.StoredEdge e ↔ g.StoredEdge e)) :
    g'.HasMethod typeID name ↔ g.HasMethod typeID name := by
  refine exists_congr fun e => exists_congr fun n => ?_
  rw [hn]
  constructor
  · rintro ⟨hst, hk, hrest⟩
    exact ⟨(he e hk).mp hst, hk, hrest⟩
  · rintro ⟨hst, hk, hrest⟩
    exact ⟨(he e hk).mpr hst, hk, hrest⟩

theorem Satisfies.congr {t i : String} (hn : ∀ id, g'.nodeAt id = g.nodeAt id)
    (he : ∀ e, e.kind = .edgeMemberOf → (g'.StoredEdge e ↔ g.StoredEdge e)) :
    g'.Satisfies t i ↔ g.Satisfies t i := by
  have hmethod : ∀ m, g'.HasMethod t m ↔ g.HasMethod t m := fun m => HasMethod.congr hn he
  constructor
  · rintro ⟨hne, ht, hi⟩
    simp only [hn, hmethod] at ht hi
    exact ⟨hne, ht, hi⟩
  · rintro ⟨hne, ht, hi⟩
    refine ⟨hne, ?_, ?_⟩
    · simpa only [hn] using ht
    · simpa only [hn, hmethod] using hi

/-! ### The methods of the types -/

/-- **The methods of a type** are those that edges lead from. -/
theorem mem_typeMethods (hg : Weak g) (ord : MapOrder) {t m : String} :
    m ∈ ((g.typeMethods ord).lookup t).getD [] ↔ g.HasMethod t m := by
  have hstored : g.HasMethod t m ↔ ∃ e ∈ (g.allEdges ord).map g.edge, e.kind = .edgeMemberOf ∧
      e.toID = t ∧ ∃ n, g.nodeAt e.fromID = some n ∧ n.kind = .kindMethod ∧ n.name = m := by
    constructor
    · rintro ⟨e, n, he, hk, ht, hn⟩
      exact ⟨e, (hg.mem_map_allEdges ord).mpr he, hk, ht, n, hn⟩
    · rintro ⟨e, he, hk, ht, n, hn⟩
      exact ⟨e, n, (hg.mem_map_allEdges ord).mp he, hk, ht, hn⟩
  rw [hstored]
  unfold typeMethods
  generalize (g.allEdges ord).map g.edge = l
  -- the loop, from its last edge
  induction l using List.reverseRecOn with
  | nil => simp
  | append_singleton l e ih =>
    rw [List.foldl_append, List.foldl_cons, List.foldl_nil]
    simp only [List.mem_append, List.mem_singleton, or_and_right, exists_or, exists_eq_left]
    refine Iff.trans ?_ (or_congr_left ih)
    by_cases hk : e.kind = .edgeMemberOf
    · rw [if_neg (not_not.mpr hk)]
      cases hn : g.nodeAt e.fromID with
      | none => simp
      | some n =>
        simp only
        by_cases hm : n.kind = .kindMethod
        · rw [if_neg (not_not.mpr hm), GoMap.lookup_insert]
          by_cases ht : t = e.toID
          · rw [if_pos ht, ht, Option.getD_some, List.mem_cons]
            simp only [hk, Option.some.injEq, true_and, exists_eq_left', hm]
            rw [or_comm]
            exact or_congr Iff.rfl eq_comm
          · rw [if_neg ht]
            simp [Ne.symm ht]
        · rw [if_pos hm]
          simp [hm]
    · rw [if_pos hk]
      simp [hk]

theorem mem_interfaces (hg : Weak g) (ord : MapOrder) {n : Node} :
    n ∈ g.interfaces ord ↔
      g.nodeAt n.id = some n ∧ n.kind = .kindInterface ∧ requiredMethods n ≠ [] := by
  unfold interfaces
  rw [List.mem_filter, hg.mem_allNodes, decide_eq_true_eq]

/-! ### What the pass adds -/

/-- **Some pairs are added**: an edge for each of them, and nothing else of the kinds. -/
structure Infers (K : EdgeKind → Prop) (R : String → String → Prop) (g g' : Graph) : Prop where
  right : RightOn K g'
  nodes : SameNodes g g'
  other : ∀ e, K e.kind → e.kind ≠ .edgeImplements → (g'.StoredEdge e ↔ g.StoredEdge e)
  pairs : ∀ t i, g'.Implements t i ↔ g.Implements t i ∨ R t i

theorem Infers.refl (h : RightOn K g) {R : String → String → Prop} (hR : ∀ t i, ¬R t i) :
    Infers K R g g :=
  ⟨h, SameNodes.refl g, fun _ _ _ => Iff.rfl, fun t i => by simp [hR]⟩

theorem Infers.trans {R R' : String → String → Prop} (h : Infers K R g g')
    (h' : Infers K R' g' g'') : Infers K (fun t i => R t i ∨ R' t i) g g'' :=
  ⟨h'.right, h.nodes.trans h'.nodes, fun e he hne => (h'.other e he hne).trans (h.other e he hne),
    fun t i => by rw [h'.pairs, h.pairs, or_assoc]⟩

theorem Infers.congr {R R' : String → String → Prop} (h : Infers K R g g')
    (hR : ∀ t i, R t i ↔ R' t i) : Infers K R' g g' :=
  ⟨h.right, h.nodes, h.other, fun t i => by rw [h.pairs, hR]⟩

/-- A loop whose turns add pairs. -/
theorem Infers.foldl {α : Type} {f : Graph × ℕ → α → Graph × ℕ} {R : α → String → String → Prop}
    {l : List α} {s : Graph × ℕ} (h : RightOn K s.1)
    (hf : ∀ t : Graph × ℕ, RightOn K t.1 → SameNodes s.1 t.1 → ∀ a ∈ l,
      Infers K (R a) t.1 (f t a).1) :
    Infers K (fun t i => ∃ a ∈ l, R a t i) s.1 (l.foldl f s).1 := by
  induction l generalizing s with
  | nil => exact Infers.refl h fun t i => by simp
  | cons a l ih =>
    have hone := hf s h (SameNodes.refl _) a List.mem_cons_self
    have hrest := ih hone.right fun t ht hs b hb =>
      hf t ht (hone.nodes.trans hs) b (List.mem_cons_of_mem _ hb)
    refine (hone.trans hrest).congr fun t i => ?_
    simp only [List.mem_cons, exists_eq_or_imp]

section Pass

variable (hK : K .edgeImplements)

include hK

/-- One pair is added. -/
theorem Infers.putEdge (h : RightOn K g) (typeNode : Node) {t i : String}
    (hi : ¬hasPrefix i unresolvedPrefix = true) :
    Infers K (fun t' i' => t' = t ∧ i' = i) g (g.putEdge (implementsEdge typeNode t i)) := by
  obtain ⟨hright, hstored⟩ := h.putEdge (e := implementsEdge typeNode t i) fun _ => hi
  refine ⟨hright, SameNodes.putEdge g _, fun e he hne => ?_, fun t' i' => ?_⟩
  · rw [hstored e he]
    constructor
    · rintro (rfl | ⟨hst, -⟩)
      · exact absurd rfl hne
      · exact hst
    · exact fun hst => Or.inr ⟨hst, fun hk => hne (congrArg EdgeKey.kind hk)⟩
  · constructor
    · rintro ⟨e, hst, hk, rfl, rfl⟩
      rcases (hstored e (hk ▸ hK)).mp hst with rfl | ⟨hst, -⟩
      · exact Or.inr ⟨rfl, rfl⟩
      · exact Or.inl ⟨e, hst, hk, rfl, rfl⟩
    · have hnew : (g.putEdge (implementsEdge typeNode t i)).Implements t i :=
        ⟨_, (hstored _ hK).mpr (Or.inl rfl), rfl, rfl, rfl⟩
      rintro (⟨e, hst, hk, rfl, rfl⟩ | ⟨rfl, rfl⟩)
      · by_cases hkey : keyOf e = keyOf (implementsEdge typeNode t i)
        · -- the new edge has its place
          rw [show e.fromID = t from congrArg EdgeKey.fromID hkey,
            show e.toID = i from congrArg EdgeKey.toID hkey]
          exact hnew
        · exact ⟨e, (hstored e (hk ▸ hK)).mpr (Or.inr ⟨hst, hkey⟩), hk, rfl, rfl⟩
      · exact hnew

/-- The pairs of one type. -/
theorem Infers.addImplements {ifaces : List Node}
    (hi : ∀ n ∈ ifaces, ¬hasPrefix n.id unresolvedPrefix = true) {s : Graph × ℕ} (h : RightOn K s.1)
    (p : String × List String) :
    Infers K (fun t i => t = p.1 ∧ (∃ n, s.1.nodeAt p.1 = some n ∧ n.isTypeLike = true) ∧
      ∃ n ∈ ifaces, n.id = i ∧ n.id ≠ p.1 ∧ ∀ m ∈ requiredMethods n, m ∈ p.2)
      s.1 (addImplements ifaces s p).1 := by
  unfold Graph.addImplements
  cases hn : s.1.nodeAt p.1 with
  | none => exact Infers.refl h fun t i hR => by simp at hR
  | some typeNode =>
    simp only
    by_cases ht : typeNode.isTypeLike = true
    · rw [if_pos ht]
      refine (Infers.foldl (R := fun n t i =>
        t = p.1 ∧ i = n.id ∧ n.id ≠ p.1 ∧ ∀ m ∈ requiredMethods n, m ∈ p.2) h
        fun u hu _ n hmem => ?_).congr fun t i => ?_
      · by_cases hne : n.id = p.1
        · rw [if_pos hne]
          exact Infers.refl hu fun t i hR => hR.2.2.1 hne
        · rw [if_neg hne]
          split
          · rename_i hall
            refine (Infers.putEdge hK hu typeNode (hi n hmem)).congr fun t i => ?_
            exact and_congr_right fun _ => (and_iff_left ⟨hne, hall⟩).symm
          · rename_i hall
            exact Infers.refl hu fun t i hR => hall hR.2.2.2
      · constructor
        · rintro ⟨n, hmem, rfl, rfl, hrest⟩
          exact ⟨rfl, ⟨typeNode, rfl, ht⟩, n, hmem, rfl, hrest⟩
        · rintro ⟨rfl, -, n, hmem, rfl, hrest⟩
          exact ⟨n, hmem, rfl, rfl, hrest⟩
    · rw [if_neg ht]
      refine Infers.refl h fun t i hR => ?_
      obtain ⟨-, ⟨n, hn', hlike⟩, -⟩ := hR
      rw [← Option.some.inj hn'] at hlike
      exact ht hlike

/-- **InferImplements** adds the pairs that are satisfied. -/
theorem infers_inferImplements (h : RightOn K g) (ord : MapOrder) :
    Infers K g.Satisfies g (g.inferImplements ord).1 := by
  unfold Graph.inferImplements
  simp only
  by_cases hnil : g.interfaces ord = []
  · rw [if_pos hnil]
    refine Infers.refl h fun t i hsat => ?_
    obtain ⟨n, hn, hk, hreq, -⟩ := hsat.iface
    obtain rfl := h.weak.nodes.id_eq hn
    have hmem := (mem_interfaces h.weak ord).mpr ⟨hn, hk, hreq⟩
    rw [hnil] at hmem
    cases hmem
  · rw [if_neg hnil]
    have hids : ∀ n ∈ g.interfaces ord, ¬hasPrefix n.id unresolvedPrefix = true := fun n hn =>
      h.ids ((mem_interfaces h.weak ord).mp hn).1
    refine (Infers.foldl (s := (g, 0)) (R := fun p t i => t = p.1 ∧
      (∃ n, g.nodeAt p.1 = some n ∧ n.isTypeLike = true) ∧ ∃ n ∈ g.interfaces ord,
        n.id = i ∧ n.id ≠ p.1 ∧ ∀ m ∈ requiredMethods n, m ∈ p.2) h
      fun s hs hsame p _ => ?_).congr fun t i => ?_
    · refine (Infers.addImplements hK hids hs p).congr fun t i => ?_
      rw [hsame.nodeAt]
    · constructor
      · rintro ⟨p, hp, rfl, ht, n, hn, rfl, hne, hall⟩
        obtain ⟨hnode, hk, hreq⟩ := (mem_interfaces h.weak ord).mp hn
        refine ⟨Ne.symm hne, ht, n, hnode, hk, hreq, fun m hm => ?_⟩
        rw [← mem_typeMethods h.weak ord, GoMap.mem_pairs.mp (ord.mem.mp hp)]
        exact hall m hm
      · rintro ⟨hne, ht, n, hnode, hk, hreq, hall⟩
        obtain rfl := h.weak.nodes.id_eq hnode
        obtain ⟨m, hm⟩ := List.exists_mem_of_ne_nil _ hreq
        -- a method that is required is one the type has, and so the loop reaches the type
        have hmeth := (mem_typeMethods h.weak ord).mpr (hall m hm)
        cases hl : (g.typeMethods ord).lookup t with
        | none =>
          rw [hl] at hmeth
          cases hmeth
        | some ms =>
          refine ⟨(t, ms), ord.mem.mpr (GoMap.mem_pairs.mpr hl), rfl, ht, n,
            (mem_interfaces h.weak ord).mpr ⟨hnode, hk, hreq⟩, rfl, Ne.symm hne, fun m hm => ?_⟩
          have hmem := (mem_typeMethods h.weak ord).mpr (hall m hm)
          rwa [hl] at hmem

end Pass

end Graph

end Gortex
