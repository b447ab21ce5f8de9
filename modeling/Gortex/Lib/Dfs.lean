import Mathlib.Data.List.Chain
import Mathlib.Data.List.Nodup
import Mathlib.Logic.Relation
import Mathlib.Tactic.Common
import Gortex.Lib.Fold

/-!
# Depth-first search with a parent map

A recursive search from a vertex that marks what it enters, notes from where it came, and
ends at the first vertex that a test stops at: the test is made when a vertex is entered,
or for a vertex and one of its neighbours. The recursion is bounded by fuel, and a search
without fuel has no result, so that a search that has one has come to its end.

`Dfs.Tree` is the invariant of the parent map: what is marked, the newest vertex first, is a
tree in which a vertex hangs below an older one. Hence the way back from a vertex, parent by
parent, ends at the start, and read backwards it is a simple path (`Dfs.Tree.back`). What a
search finds is a vertex with such a way back, and a search that finds nothing has marked
all that can be reached (`Dfs.search_spec`).
-/

namespace Dfs

variable {α : Type*}

/-! ### Simple paths -/

/-- **A simple path** from `a` to `b`, both ends included. -/
structure SimplePath (R : α → α → Prop) (a b : α) (p : List α) : Prop where
  nodup : p.Nodup
  chain : p.IsChain R
  head : p.head? = some a
  last : p.getLast? = some b

theorem SimplePath.single (R : α → α → Prop) (a : α) : SimplePath R a a [a] :=
  ⟨List.nodup_singleton a, List.isChain_singleton a, rfl, rfl⟩

/-- One more vertex at the end. -/
theorem SimplePath.concat {R : α → α → Prop} {a b c : α} {p : List α} (h : SimplePath R a b p)
    (hbc : R b c) (hc : c ∉ p) : SimplePath R a c (p ++ [c]) := by
  refine ⟨?_, ?_, ?_, List.getLast?_concat⟩
  · rw [List.nodup_append']
    refine ⟨h.nodup, List.nodup_singleton c, fun x hx hx' => ?_⟩
    rw [List.mem_singleton.mp hx'] at hx
    exact hc hx
  · rw [List.isChain_append]
    refine ⟨h.chain, List.isChain_singleton c, fun x hx y hy => ?_⟩
    rw [h.last] at hx
    obtain rfl := Option.some.inj hx
    obtain rfl := Option.some.inj hy
    exact hbc
  · rw [List.head?_append, h.head]
    rfl

/-- A simple path is a way from its first vertex to its last. -/
theorem SimplePath.reach {R : α → α → Prop} {a b : α} {p : List α} (h : SimplePath R a b p) :
    Relation.ReflTransGen R a b := by
  obtain ⟨-, hchain, hhead, hlast⟩ := h
  cases p with
  | nil => exact absurd hhead (by simp)
  | cons x l =>
    obtain rfl : x = a := Option.some.inj hhead
    refine List.relationReflTransGen_of_exists_isChain_cons l hchain ?_
    rw [List.getLast?_eq_some_getLast (List.cons_ne_nil _ _)] at hlast
    exact Option.some.inj hlast

/-- **A simple cycle**: two vertices at least, no vertex twice, a step from each to the next
and from the last to the first. -/
structure SimpleCycle (R : α → α → Prop) (p : List α) : Prop where
  two_le : 2 ≤ p.length
  nodup : p.Nodup
  chain : p.IsChain R
  closing : ∀ a b, p.head? = some a → p.getLast? = some b → R b a

/-- A simple path to another vertex with a step back to its first one. -/
theorem SimplePath.close {R : α → α → Prop} {a b : α} {p : List α} (h : SimplePath R a b p)
    (hne : b ≠ a) (hba : R b a) : SimpleCycle R p := by
  refine ⟨?_, h.nodup, h.chain, fun x y hx hy => ?_⟩
  · obtain ⟨-, -, hhead, hlast⟩ := h
    rcases p with _ | ⟨x, _ | ⟨y, l⟩⟩
    · exact absurd hhead (by simp)
    · obtain rfl := Option.some.inj hhead
      exact absurd (Option.some.inj hlast).symm hne
    · simp
  · obtain rfl := Option.some.inj (h.head.symm.trans hx)
    obtain rfl := Option.some.inj (h.last.symm.trans hy)
    exact hba

/-- A path of steps to members of a set stays in the set, but for its first vertex. -/
theorem SimplePath.subset {R : α → α → Prop} {a b : α} {p : List α} {S : List α}
    (h : SimplePath R a b p) (hR : ∀ x y, R x y → y ∈ S) (ha : a ∈ S) : p ⊆ S := by
  obtain ⟨-, hchain, hhead, -⟩ := h
  intro y hy
  induction p generalizing a with
  | nil => exact absurd hy List.not_mem_nil
  | cons x l ih =>
    obtain rfl : x = a := Option.some.inj hhead
    rcases List.mem_cons.mp hy with rfl | hy
    · exact ha
    · rw [List.isChain_cons] at hchain
      cases l with
      | nil => exact absurd hy List.not_mem_nil
      | cons z l => exact ih (hR x z (hchain.1 z rfl)) hchain.2 rfl hy

/-- What holds of the steps of a path, holds of all its steps. -/
theorem SimplePath.imp {R Q : α → α → Prop} {a b : α} {p : List α} (h : SimplePath R a b p)
    (hRQ : ∀ x y, R x y → Q x y) : SimplePath Q a b p :=
  ⟨h.nodup, h.chain.imp fun {x y} => hRQ x y, h.head, h.last⟩

/-! ### The search -/

/-- The vertices that `next` leads to. -/
abbrev Step (next : α → List α) (a b : α) : Prop := b ∈ next a

/-- The state of a search: what is marked, the newest vertex first, the parents, and where
the search has ended. -/
structure State (α : Type*) where
  visited : List α
  parent : α → α
  found : Option α

variable [DecidableEq α] (next : α → List α) (stopAt : α → Bool) (stopEdge : α → α → Bool)

/-- **One neighbour of a vertex**, with the search from it. -/
def turn (recur : α → State α → Option (State α)) (v : α) (s : State α) (w : α) :
    Option (State α) :=
  if s.found.isSome = true then some s
  else if stopEdge v w = true then some { s with found := some v }
  else if w ∈ s.visited then some s
  else recur w { s with parent := Function.update s.parent w v }

/-- **The search from a vertex**, which is not marked yet. -/
def search : ℕ → α → State α → Option (State α)
  | 0, _, _ => none
  | fuel + 1, v, s =>
    if stopAt v = true then some { s with found := some v }
    else (next v).foldlM (turn stopEdge (search fuel) v) { s with visited := v :: s.visited }

/-- The way back from a vertex to the start, parent by parent, the start left out. -/
def back (parent : α → α) (start : α) : ℕ → α → Option (List α)
  | 0, _ => none
  | fuel + 1, x => if x = start then some [] else (back parent start fuel (parent x)).map (x :: ·)

/-! ### The parent map -/

/-- **The tree of a search**: the start is the oldest vertex, and every other one hangs
below an older one. -/
def Tree (parent : α → α) (start : α) : List α → Prop
  | [] => False
  | x :: l => (l = [] ∧ x = start) ∨
      (x ∉ l ∧ parent x ∈ l ∧ x ∈ next (parent x) ∧ Tree parent start l)

variable {next stopAt stopEdge} {parent : α → α} {start : α} {l : List α}

omit [DecidableEq α] in
theorem Tree.start_mem (h : Tree next parent start l) : start ∈ l := by
  induction l with
  | nil => exact h.elim
  | cons x l ih =>
    rcases h with ⟨-, rfl⟩ | ⟨-, -, -, h⟩
    · exact List.mem_cons_self
    · exact List.mem_cons_of_mem x (ih h)

/-- The parent of a vertex that is not in the tree does not matter. -/
theorem Tree.update (h : Tree next parent start l) {w : α} (hw : w ∉ l) (v : α) :
    Tree next (Function.update parent w v) start l := by
  induction l with
  | nil => exact h
  | cons x l ih =>
    have hx : x ≠ w := fun hc => hw (hc ▸ List.mem_cons_self)
    rcases h with h | ⟨h1, h2, h3, h4⟩
    · exact Or.inl h
    · refine Or.inr ⟨h1, ?_, ?_, ih h4 fun hc => hw (List.mem_cons_of_mem x hc)⟩
      · rwa [Function.update_of_ne hx]
      · rwa [Function.update_of_ne hx]

/-- One more vertex, below one of the tree. -/
theorem Tree.hang (h : Tree next parent start l) {v w : α} (hv : v ∈ l) (hw : w ∉ l)
    (hvw : w ∈ next v) : Tree next (Function.update parent w v) start (w :: l) := by
  refine Or.inr ⟨hw, ?_, ?_, h.update hw v⟩
  · rwa [Function.update_self]
  · rwa [Function.update_self]

/-- **The way back is a simple path**, read backwards: by induction on the tree, since the
parent of a vertex is older. -/
theorem Tree.back (h : Tree next parent start l) {x : α} (hx : x ∈ l) {fuel : ℕ}
    (hfuel : l.length ≤ fuel) :
    ∃ p, Dfs.back parent start fuel x = some p ∧
      SimplePath (Step next) start x (start :: p.reverse) ∧ ∀ y ∈ p, y ∈ l := by
  induction l generalizing x fuel with
  | nil => exact h.elim
  | cons y l ih =>
    rcases h with ⟨rfl, rfl⟩ | ⟨hy, hp, hstep, h⟩
    · obtain rfl := List.mem_singleton.mp hx
      cases fuel with
      | zero => exact absurd hfuel (by simp)
      | succ fuel =>
        exact ⟨[], by rw [Dfs.back, if_pos rfl], SimplePath.single _ _, by simp⟩
    · rcases List.mem_cons.mp hx with rfl | hx
      · cases fuel with
        | zero => exact absurd hfuel (by simp)
        | succ fuel =>
          have hlen : l.length ≤ fuel := by
            rw [List.length_cons] at hfuel
            omega
          obtain ⟨p, hback, hpath, hmem⟩ := ih h hp hlen
          have hne : x ≠ start := fun hc => hy (hc ▸ h.start_mem)
          have hnot : x ∉ start :: p.reverse := fun hc => by
            rcases List.mem_cons.mp hc with hc | hc
            · exact hne hc
            · exact hy (hmem x (List.mem_reverse.mp hc))
          refine ⟨x :: p, by rw [Dfs.back, if_neg hne, hback, Option.map_some], ?_, fun z hz => ?_⟩
          · rw [List.reverse_cons, ← List.cons_append]
            exact hpath.concat hstep hnot
          · rcases List.mem_cons.mp hz with rfl | hz
            · exact List.mem_cons_self
            · exact List.mem_cons_of_mem x (hmem z hz)
      · have hlen : l.length ≤ fuel := (Nat.le_succ _).trans hfuel
        obtain ⟨p, hback, hpath, hmem⟩ := ih h hx hlen
        exact ⟨p, hback, hpath, fun z hz => List.mem_cons_of_mem y (hmem z hz)⟩

/-! ### The marked vertices -/

/-- How many vertices of a list are not marked. -/
def unmarked (V visited : List α) : ℕ := V.countP fun v => v ∉ visited

theorem unmarked_le {V visited visited' : List α} (h : visited ⊆ visited') :
    unmarked V visited' ≤ unmarked V visited := by
  refine List.countP_mono_left fun v _ hv => ?_
  simp only [decide_eq_true_eq] at hv ⊢
  exact fun hc => hv (h hc)

/-- Marking a vertex of the list leaves fewer. -/
theorem unmarked_cons_lt {V visited : List α} {v : α} (hV : v ∈ V) (hv : v ∉ visited) :
    unmarked V (v :: visited) < unmarked V visited := by
  refine List.countP_lt_countP (fun x _ hx => ?_) hV (by simp) (by simpa using hv)
  simp only [decide_eq_true_eq] at hx ⊢
  exact fun hc => hx (List.mem_cons_of_mem v hc)

variable (next stopAt stopEdge) in
/-- The search has gone past a vertex: it stops neither at the vertex nor for one of its
neighbours, and these are marked. -/
def Passed (visited : List α) (x : α) : Prop :=
  stopAt x = false ∧ ∀ w ∈ next x, stopEdge x w = false ∧ w ∈ visited

omit [DecidableEq α] in
theorem Passed.mono {visited visited' : List α} {x : α} (h : Passed next stopAt stopEdge visited x)
    (hsub : visited ⊆ visited') : Passed next stopAt stopEdge visited' x :=
  ⟨h.1, fun w hw => ⟨(h.2 w hw).1, hsub (h.2 w hw).2⟩⟩

variable (next stopAt stopEdge) in
/-- The search has ended at a vertex for a reason, and the vertex has a way back. -/
def EndsAt (start : α) (s : State α) (x : α) : Prop :=
  (stopAt x = true ∨ ∃ w ∈ next x, stopEdge x w = true) ∧
    ∃ l, Tree next s.parent start l ∧ x ∈ l ∧ l.length ≤ s.visited.length + 1

variable (next stopAt stopEdge) in
/-- **What a search from a vertex brings about**: it ends somewhere, or it marks the vertex
and goes past it and past all that it marks. -/
structure Outcome (start : α) (visited : List α) (v : α) (s : State α) : Prop where
  ends : ∀ x, s.found = some x → EndsAt next stopAt stopEdge start s x
  tree : s.found = none → Tree next s.parent start s.visited
  sub : visited ⊆ s.visited
  mem : s.found = none → v ∈ s.visited
  passed : s.found = none → ∀ x ∈ s.visited, x ∉ visited →
    Passed next stopAt stopEdge s.visited x

variable (next stopAt stopEdge) in
/-- The state in the loop over the neighbours of a vertex, some of which it has seen. -/
structure Looping (start : α) (visited : List α) (v : α) (seen : List α) (s : State α) : Prop where
  ends : ∀ x, s.found = some x → EndsAt next stopAt stopEdge start s x
  tree : s.found = none → Tree next s.parent start s.visited
  sub : v :: visited ⊆ s.visited
  passed : s.found = none → ∀ x ∈ s.visited, x ∉ visited → x ≠ v →
    Passed next stopAt stopEdge s.visited x
  seen : s.found = none → ∀ w ∈ seen, stopEdge v w = false ∧ w ∈ s.visited

/-- **One neighbour**, the search from it having the outcome that is due. -/
theorem Looping.turn {visited seen : List α} {v w : α} {s : State α}
    (hs : Looping next stopAt stopEdge start visited v seen s) (hw : w ∈ next v)
    {recur : α → State α → Option (State α)}
    (hrecur : ∀ t : State α, t.found = none → w ∉ t.visited → s.visited ⊆ t.visited →
      Tree next t.parent start (w :: t.visited) →
      ∃ t', recur w t = some t' ∧ Outcome next stopAt stopEdge start t.visited w t') :
    ∃ s', turn stopEdge recur v s w = some s' ∧
      Looping next stopAt stopEdge start visited v (seen ++ [w]) s' := by
  have hseen : ∀ {t : State α}, s.visited ⊆ t.visited → s.found = none →
      (stopEdge v w = false ∧ w ∈ t.visited) →
      ∀ x ∈ seen ++ [w], stopEdge v x = false ∧ x ∈ t.visited := fun hsub hnone hlast x hx => by
    rcases List.mem_append.mp hx with hx | hx
    · exact ⟨(hs.seen hnone x hx).1, hsub (hs.seen hnone x hx).2⟩
    · rwa [List.mem_singleton.mp hx]
  unfold Dfs.turn
  by_cases hfound : s.found.isSome = true
  · -- the search has ended before
    rw [if_pos hfound]
    refine ⟨s, rfl, hs.ends, hs.tree, hs.sub, hs.passed, fun hnone => ?_⟩
    rw [hnone] at hfound
    exact absurd hfound (by simp)
  · rw [if_neg hfound]
    have hnone : s.found = none := Option.not_isSome_iff_eq_none.mp hfound
    by_cases hstop : stopEdge v w = true
    · -- the search ends here
      rw [if_pos hstop]
      refine ⟨_, rfl, fun x hx => ?_, nofun, hs.sub, nofun, nofun⟩
      obtain rfl := Option.some.inj hx
      exact ⟨Or.inr ⟨w, hw, hstop⟩, s.visited, hs.tree hnone, hs.sub List.mem_cons_self,
        Nat.le_succ _⟩
    · rw [if_neg hstop]
      have hstop' : stopEdge v w = false := Bool.eq_false_iff.mpr hstop
      by_cases hmark : w ∈ s.visited
      · rw [if_pos hmark]
        exact ⟨s, rfl, hs.ends, hs.tree, hs.sub, hs.passed,
          fun _ => hseen (List.Subset.refl _) hnone ⟨hstop', hmark⟩⟩
      · rw [if_neg hmark]
        have hv : v ∈ s.visited := hs.sub List.mem_cons_self
        obtain ⟨t', heq, ht'⟩ := hrecur { s with parent := Function.update s.parent w v } hnone
          hmark (List.Subset.refl _) ((hs.tree hnone).hang hv hmark hw)
        have hsub : s.visited ⊆ t'.visited := ht'.sub
        refine ⟨t', heq, ht'.ends, ht'.tree, fun x hx => hsub (hs.sub hx),
          fun ht x hx hnew hne => ?_, fun ht => hseen hsub hnone ⟨hstop', ht'.mem ht⟩⟩
        by_cases hold : x ∈ s.visited
        · exact (hs.passed hnone x hold hnew hne).mono hsub
        · exact ht'.passed ht x hx hold

/-- **The search from a vertex has a result**, with the outcome that is due: by induction on
the fuel, which the vertices left to mark do not exceed. -/
theorem search_outcome {V : List α} (hclosed : ∀ v ∈ V, ∀ w ∈ next v, w ∈ V) {fuel : ℕ} {v : α}
    {s : State α} (hfound : s.found = none) (hV : v ∈ V) (hnew : v ∉ s.visited)
    (hfuel : unmarked V s.visited ≤ fuel) (htree : Tree next s.parent start (v :: s.visited)) :
    ∃ s', search next stopAt stopEdge fuel v s = some s' ∧
      Outcome next stopAt stopEdge start s.visited v s' := by
  induction fuel generalizing v s with
  | zero =>
    have := unmarked_cons_lt hV hnew
    omega
  | succ fuel ih =>
    unfold search
    by_cases hstop : stopAt v = true
    · rw [if_pos hstop]
      refine ⟨_, rfl, fun x hx => ?_, nofun, List.Subset.refl _, nofun, nofun⟩
      obtain rfl := Option.some.inj hx
      exact ⟨Or.inl hstop, v :: s.visited, htree, List.mem_cons_self, le_rfl⟩
    · rw [if_neg hstop]
      have hinit : Looping next stopAt stopEdge start s.visited v []
          { s with visited := v :: s.visited } :=
        { ends := fun x hx => absurd (hfound.symm.trans hx) (by simp)
          tree := fun _ => htree
          sub := List.Subset.refl _
          passed := fun _ x hx hx' hne => by
            rcases List.mem_cons.mp hx with rfl | hx
            · exact absurd rfl hne
            · exact absurd hx hx'
          seen := fun _ w hw => absurd hw List.not_mem_nil }
      have hturn : ∀ seen w rest t, next v = seen ++ w :: rest →
          Looping next stopAt stopEdge start s.visited v seen t →
          ∃ t', turn stopEdge (search next stopAt stopEdge fuel) v t w = some t' ∧
            Looping next stopAt stopEdge start s.visited v (seen ++ [w]) t' := by
        intro seen w rest t hsplit ht
        have hw : w ∈ next v := by simp [hsplit]
        refine ht.turn hw fun t' hnone hnot hsub htree' => ?_
        refine ih hnone (hclosed v hV w hw) hnot ?_ htree'
        -- `v` is marked by now
        have h₁ := unmarked_le (V := V) (List.Subset.trans ht.sub hsub)
        have h₂ := unmarked_cons_lt hV hnew
        omega
      obtain ⟨s', heq, hs'⟩ := List.foldlM_some hturn hinit
      refine ⟨s', heq, hs'.ends, hs'.tree, fun x hx => hs'.sub (List.mem_cons_of_mem v hx),
        fun _ => hs'.sub List.mem_cons_self, fun hnone x hx hx' => ?_⟩
      by_cases hxv : x = v
      · rw [hxv]
        exact ⟨Bool.eq_false_iff.mpr hstop, hs'.seen hnone⟩
      · exact hs'.passed hnone x hx hx' hxv

/-! ### More fuel -/

/-- A loop with calls that have a result whenever others have it. -/
theorem foldlM_turn_mono {recur recur' : α → State α → Option (State α)}
    (h : ∀ w t t', recur w t = some t' → recur' w t = some t') (v : α) (l : List α)
    (t t' : State α) (hl : l.foldlM (turn stopEdge recur v) t = some t') :
    l.foldlM (turn stopEdge recur' v) t = some t' := by
  induction l generalizing t with
  | nil => exact hl
  | cons w l ih =>
    rw [List.foldlM_cons] at hl ⊢
    obtain ⟨u, hu, hrest⟩ := Option.bind_eq_some_iff.mp hl
    have hturn : turn stopEdge recur' v t w = some u := by
      unfold turn at hu ⊢
      split_ifs at hu ⊢ with h₁ h₂ h₃
      · exact hu
      · exact hu
      · exact hu
      · exact h _ _ _ hu
    rw [hturn]
    exact ih u hrest

/-- **More fuel changes nothing.** -/
theorem search_mono {fuel fuel' : ℕ} (hle : fuel ≤ fuel') {v : α} {t t' : State α}
    (h : search next stopAt stopEdge fuel v t = some t') :
    search next stopAt stopEdge fuel' v t = some t' := by
  induction fuel generalizing fuel' v t t' with
  | zero => exact absurd h (by simp [search])
  | succ fuel ih =>
    cases fuel' with
    | zero => omega
    | succ fuel' =>
      unfold search at h ⊢
      split_ifs at h ⊢
      · exact h
      · exact foldlM_turn_mono (fun w u u' hu => ih (by omega) hu) v _ _ _ h

/-! ### The outcome -/

/-- The state before a search. -/
def init (parent : α → α) : State α := ⟨[], parent, none⟩

variable (next) in
/-- **The first cycle** at a vertex: the way that the search from the vertex has gone to the
first other vertex that leads back. -/
def FirstCycle (parent : α → α) (fuel : ℕ) (start : α) (p : List α) : Prop :=
  ∃ s x q, search next (fun _ => false) (fun v w => w = start ∧ v ≠ start) fuel start
      (init parent) = some s ∧ s.found = some x ∧
    back s.parent start (s.visited.length + 1) x = some q ∧ p = start :: q.reverse

theorem FirstCycle.unique {fuel : ℕ} {p p' : List α} (h : FirstCycle next parent fuel start p)
    (h' : FirstCycle next parent fuel start p') : p = p' := by
  obtain ⟨s, x, q, hs, hx, hq, rfl⟩ := h
  obtain ⟨s', x', q', hs', hx', hq', rfl⟩ := h'
  obtain rfl := Option.some.inj (hs.symm.trans hs')
  obtain rfl := Option.some.inj (hx.symm.trans hx')
  obtain rfl := Option.some.inj (hq.symm.trans hq')
  rfl

/-- **A search is sound and complete**: it has a result; where it ends there is reason to,
and the way back from there is a simple path from the start; and if it ends nowhere, there
is no reason to end at any vertex that can be reached. -/
theorem search_spec {V : List α} (hclosed : ∀ v ∈ V, ∀ w ∈ next v, w ∈ V) (hstart : start ∈ V)
    {fuel : ℕ} (hfuel : V.length ≤ fuel) (parent : α → α) :
    ∃ s, search next stopAt stopEdge fuel start (init parent) = some s ∧
      (∀ x, s.found = some x → (stopAt x = true ∨ ∃ w ∈ next x, stopEdge x w = true) ∧
        ∃ p, back s.parent start (s.visited.length + 1) x = some p ∧
          SimplePath (Step next) start x (start :: p.reverse)) ∧
      (s.found = none → ∀ x, Relation.ReflTransGen (Step next) start x →
        stopAt x = false ∧ ∀ w ∈ next x, stopEdge x w = false) := by
  have hroom : unmarked V [] ≤ fuel := List.countP_le_length.trans hfuel
  have hsearch : ∃ s, search next stopAt stopEdge fuel start (init parent) = some s ∧
      Outcome next stopAt stopEdge start [] start s :=
    search_outcome hclosed rfl hstart List.not_mem_nil hroom (Or.inl ⟨rfl, rfl⟩)
  obtain ⟨s, heq, hs⟩ := hsearch
  refine ⟨s, heq, fun x hx => ?_, fun hnone x hx => ?_⟩
  · obtain ⟨hwhy, l, htree, hmem, hlen⟩ := hs.ends x hx
    obtain ⟨p, hback, hpath, -⟩ := htree.back hmem hlen
    exact ⟨hwhy, p, hback, hpath⟩
  · -- what is marked is closed under steps
    have hpassed : ∀ y ∈ s.visited, Passed next stopAt stopEdge s.visited y := fun y hy =>
      hs.passed hnone y hy List.not_mem_nil
    have hmark : x ∈ s.visited := by
      induction hx with
      | refl => exact hs.mem hnone
      | tail _ hstep ih => exact ((hpassed _ ih).2 _ hstep).2
    exact ⟨(hpassed x hmark).1, fun w hw => ((hpassed x hmark).2 w hw).1⟩

end Dfs
