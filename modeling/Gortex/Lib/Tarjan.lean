import Gortex.Lib.Dfs

/-!
# Strongly connected components

The algorithm of Tarjan: a depth-first search that numbers the vertices in the order it
enters them, keeps the entered ones on a stack, and computes for every vertex a low link,
the least number it has come across on the stack. A vertex whose low link is its own number
closes a component: all that is above it on the stack. The recursion is bounded by fuel, as
that of `Dfs.search`.

`Tarjan.Inv` is the invariant. The gray vertices are those whose call has not returned. Each
of them leads to whatever is above it on the stack, and whatever is on the stack leads to a
gray vertex below it; so at the end the stack is empty. What `connect` brings about is
`Tarjan.Connected`: the low link of a vertex bounds the numbers of all that the vertices it
has left on the stack lead to further down. `Tarjan.run_spec` says that the components are
the classes of mutual reachability.
-/

namespace Tarjan

open Relation
open Dfs (Step)

variable {α : Type*}

/-! ### The algorithm -/

/-- The state: the next number, the stack with its top first, and what is read by vertex. -/
structure State (α : Type*) where
  index : ℕ
  stack : List α
  onStack : α → Bool
  indices : α → ℕ
  lowlinks : α → ℕ
  defined : α → Bool
  sccs : List (List α)

/-- The state before the loop. -/
def init : State α where
  index := 0
  stack := []
  onStack := fun _ => false
  indices := fun _ => 0
  lowlinks := fun _ => 0
  defined := fun _ => false
  sccs := []

variable [DecidableEq α] (next : α → List α)

/-- Number a vertex and push it. -/
def enter (v : α) (s : State α) : State α where
  index := s.index + 1
  stack := v :: s.stack
  onStack := Function.update s.onStack v true
  indices := Function.update s.indices v s.index
  lowlinks := Function.update s.lowlinks v s.index
  defined := Function.update s.defined v true
  sccs := s.sccs

/-- Lower the low link of a vertex to a number below it. -/
def lower (v : α) (k : ℕ) (s : State α) : State α :=
  if k < s.lowlinks v then { s with lowlinks := Function.update s.lowlinks v k } else s

/-- Pop down to a vertex: what is popped, and what is left. -/
def popTo (v : α) : List α → List α × List α
  | [] => ([], [])
  | w :: rest => if w = v then ([w], rest) else (w :: (popTo v rest).1, (popTo v rest).2)

/-- Close the component of a vertex, if it is the root of one. -/
def close (v : α) (s : State α) : State α :=
  if s.lowlinks v = s.indices v then
    { s with
      stack := (popTo v s.stack).2
      onStack := fun w => if w ∈ (popTo v s.stack).1 then false else s.onStack w
      sccs := s.sccs ++ [(popTo v s.stack).1] }
  else s

/-- One neighbour of a vertex, with the recursive call. -/
def turn (recur : α → State α → Option (State α)) (v : α) (s : State α) (w : α) :
    Option (State α) :=
  if s.defined w = false then (recur w s).map fun s => lower v (s.lowlinks w) s
  else if s.onStack w = true then some (lower v (s.indices w) s)
  else some s

/-- **The recursive call for a vertex**, which is not numbered yet. -/
def connect : ℕ → α → State α → Option (State α)
  | 0, _, _ => none
  | fuel + 1, v, s => ((next v).foldlM (turn (connect fuel) v) (enter v s)).map (close v)

/-- **The components**: a call for every vertex that has no number when its turn comes. -/
def run (fuel : ℕ) (order : List α) : Option (State α) :=
  order.foldlM (fun s v => if s.defined v = false then connect next fuel v s else some s) init

/-! ### The invariant -/

/-- `a` leads to `b`. -/
abbrev Reach (a b : α) : Prop := ReflTransGen (Step next) a b

/-- **The components of some vertices**: they are not empty, each vertex is in one of them
and once, and each is a class of mutual reachability. -/
structure Components {α : Type*} (R : α → α → Prop) (V : α → Prop) (sccs : List (List α)) :
    Prop where
  ne_nil : ∀ c ∈ sccs, c ≠ []
  nodup : sccs.flatten.Nodup
  mem_iff : ∀ v, v ∈ sccs.flatten ↔ V v
  component : ∀ c ∈ sccs, ∀ a ∈ c, ∀ b, b ∈ c ↔ ReflTransGen R a b ∧ ReflTransGen R b a

/-- A vertex is finished: numbered, and off the stack again. -/
def Finished (s : State α) (v : α) : Prop := s.defined v = true ∧ v ∉ s.stack

/-- **The invariant**, with the gray vertices. -/
structure Inv (V : List α) (gray : List α) (s : State α) : Prop where
  vertices : ∀ v, s.defined v = true → v ∈ V
  index_lt : ∀ v, s.defined v = true → s.indices v < s.index
  stack_defined : ∀ v ∈ s.stack, s.defined v = true
  onStack_iff : ∀ v, s.onStack v = true ↔ v ∈ s.stack
  sorted : s.stack.Pairwise fun a b => s.indices b < s.indices a
  gray_stack : ∀ v ∈ gray, v ∈ s.stack
  /-- Whatever is on the stack leads to a gray vertex below it. -/
  to_gray : ∀ y ∈ s.stack, ∃ x ∈ gray, s.indices x ≤ s.indices y ∧ Reach next y x
  /-- A gray vertex leads to whatever is above it on the stack. -/
  from_gray : ∀ x ∈ gray, ∀ y ∈ s.stack, s.indices x ≤ s.indices y → Reach next x y
  /-- The neighbours of a vertex whose call has returned are numbered. -/
  black : ∀ x, s.defined x = true → x ∉ gray → ∀ y ∈ next x, s.defined y = true
  finished : ∀ x, Finished s x → ∀ y ∈ next x, Finished s y
  sccs : Components (Step next) (Finished s) s.sccs

variable {next} {V gray : List α} {s t : State α} {v w : α}

omit [DecidableEq α] in
/-- The low links do not matter to the invariant. -/
theorem Inv.withLow (h : Inv next V gray s) (f : α → ℕ) :
    Inv next V gray { s with lowlinks := f } :=
  ⟨h.vertices, h.index_lt, h.stack_defined, h.onStack_iff, h.sorted, h.gray_stack, h.to_gray,
    h.from_gray, h.black, h.finished, h.sccs⟩

omit [DecidableEq α] in
theorem Inv.nodup (h : Inv next V gray s) : s.stack.Nodup :=
  h.sorted.imp fun hlt hc => absurd hlt (by rw [hc]; exact lt_irrefl _)

omit [DecidableEq α] in
theorem Inv.init : Inv next V [] (init : State α) where
  vertices := nofun
  index_lt := nofun
  stack_defined := fun _ h => absurd h List.not_mem_nil
  onStack_iff := fun v => iff_of_false (by simp [Tarjan.init]) List.not_mem_nil
  sorted := List.Pairwise.nil
  gray_stack := fun _ h => absurd h List.not_mem_nil
  to_gray := fun _ h => absurd h List.not_mem_nil
  from_gray := fun _ h => absurd h List.not_mem_nil
  black := nofun
  finished := fun _ h => absurd h.1 (by simp [Tarjan.init])
  sccs :=
    { ne_nil := fun _ h => absurd h List.not_mem_nil
      nodup := List.nodup_nil
      mem_iff := fun v => iff_of_false List.not_mem_nil fun h => absurd h.1 (by simp [Tarjan.init])
      component := fun _ h => absurd h List.not_mem_nil }

section Components

variable {R : α → α → Prop} {P Q : α → Prop} {sccs : List (List α)}

omit [DecidableEq α] in
/-- The components of the same vertices. -/
theorem Components.congr (h : Components R P sccs) (hPQ : ∀ v, P v ↔ Q v) : Components R Q sccs :=
  ⟨h.ne_nil, h.nodup, fun v => (h.mem_iff v).trans (hPQ v), h.component⟩

omit [DecidableEq α] in
/-- One more component. -/
theorem Components.concat (h : Components R P sccs) {c : List α} (hne : c ≠ []) (hnodup : c.Nodup)
    (hnew : ∀ v ∈ c, ¬P v) (hQ : ∀ v, Q v ↔ P v ∨ v ∈ c)
    (hc : ∀ a ∈ c, ∀ b, b ∈ c ↔ ReflTransGen R a b ∧ ReflTransGen R b a) :
    Components R Q (sccs ++ [c]) := by
  have hflat : (sccs ++ [c]).flatten = sccs.flatten ++ c := by simp
  refine ⟨fun d hd => ?_, ?_, fun v => ?_, fun d hd => ?_⟩
  · rcases List.mem_append.mp hd with hd | hd
    · exact h.ne_nil d hd
    · rwa [List.mem_singleton.mp hd]
  · rw [hflat, List.nodup_append']
    exact ⟨h.nodup, hnodup, fun x hx hx' => hnew x hx' ((h.mem_iff x).mp hx)⟩
  · rw [hflat, List.mem_append, h.mem_iff, hQ]
  · rcases List.mem_append.mp hd with hd | hd
    · exact h.component d hd
    · rwa [List.mem_singleton.mp hd]

omit [DecidableEq α] in
/-- A way between two members of a component stays within it. -/
theorem Components.reach_within (h : Components R P sccs) {c : List α} (hc : c ∈ sccs) {a b : α}
    (ha : a ∈ c) (hb : b ∈ c) (hab : ReflTransGen R a b) :
    ReflTransGen (fun x y => R x y ∧ y ∈ c) a b := by
  induction hab using ReflTransGen.head_induction_on with
  | refl => exact ReflTransGen.refl
  | @head x y hxy hyb ih =>
    have hback : ReflTransGen R y x := hyb.trans ((h.component c hc x ha b).mp hb).2
    have hy : y ∈ c := (h.component c hc x ha y).mpr ⟨ReflTransGen.single hxy, hback⟩
    exact ReflTransGen.head ⟨hxy, hy⟩ (ih hy)

omit [DecidableEq α] in
/-- The last step of a way to a vertex from another one. -/
theorem last_step {a b : α} (hab : ReflTransGen R a b) (hne : a ≠ b) :
    ∃ x, ReflTransGen R a x ∧ x ≠ b ∧ R x b := by
  classical
  induction hab with
  | refl => exact absurd rfl hne
  | @tail x y hax hxy ih =>
    by_cases heq : x = y
    · subst heq
      exact ih hne
    · exact ⟨x, hax, heq, hxy⟩

omit [DecidableEq α] in
/-- Of two members, one is another one. -/
theorem exists_mem_ne {c : List α} (hnodup : c.Nodup) (htwo : 2 ≤ c.length) (a : α) :
    ∃ b ∈ c, b ≠ a := by
  classical
  rcases c with _ | ⟨x, _ | ⟨y, l⟩⟩
  · exact absurd htwo (by simp)
  · exact absurd htwo (by simp)
  · by_cases hx : x = a
    · refine ⟨y, List.mem_cons_of_mem x List.mem_cons_self, fun hy => ?_⟩
      rw [hx, ← hy] at hnodup
      exact (List.nodup_cons.mp hnodup).1 List.mem_cons_self
    · exact ⟨x, List.mem_cons_self, hx⟩

omit [DecidableEq α] in
/-- **A component of two members closes a cycle at each of them**: within the component, a
member that leads to it in one step can be reached. -/
theorem Components.closing (h : Components R P sccs) {c : List α} (hc : c ∈ sccs)
    (htwo : 2 ≤ c.length) {a : α} (ha : a ∈ c) :
    ∃ x, ReflTransGen (fun x y => R x y ∧ y ∈ c) a x ∧ x ≠ a ∧ R x a := by
  have hnodup : c.Nodup := (List.nodup_flatten.mp h.nodup).1 c hc
  obtain ⟨b, hb, hne⟩ := exists_mem_ne hnodup htwo a
  have hreach := ((h.component c hc a ha b).mp hb)
  have hthere := h.reach_within hc ha hb hreach.1
  obtain ⟨x, hx, hxa, hstep, -⟩ := last_step (h.reach_within hc hb ha hreach.2) hne
  exact ⟨x, hthere.trans hx, hxa, hstep⟩

end Components

/-! ### Entering a vertex -/

/-- Entering a vertex changes what is read for that vertex only. -/
theorem enter_of_ne {x : α} (h : x ≠ v) :
    (enter v s).defined x = s.defined x ∧ (enter v s).indices x = s.indices x ∧
      (enter v s).lowlinks x = s.lowlinks x ∧ (enter v s).onStack x = s.onStack x :=
  ⟨Function.update_of_ne h _ _, Function.update_of_ne h _ _, Function.update_of_ne h _ _,
    Function.update_of_ne h _ _⟩

theorem enter_self : (enter v s).defined v = true ∧ (enter v s).indices v = s.index ∧
    (enter v s).lowlinks v = s.index ∧ (enter v s).onStack v = true :=
  ⟨Function.update_self _ _ _, Function.update_self _ _ _, Function.update_self _ _ _,
    Function.update_self _ _ _⟩

omit [DecidableEq α] in
theorem ne_of_defined {x : α} (hv : s.defined v = false) (hx : s.defined x = true) : x ≠ v := by
  rintro rfl
  rw [hv] at hx
  exact Bool.false_ne_true hx

theorem finished_enter (hv : s.defined v = false) (x : α) :
    Finished (enter v s) x ↔ Finished s x := by
  unfold Finished
  by_cases hx : x = v
  · subst hx
    refine iff_of_false (fun h => h.2 List.mem_cons_self) fun h => ?_
    exact ne_of_defined hv h.1 rfl
  · rw [(enter_of_ne hx).1]
    refine and_congr_right fun _ => not_congr ?_
    exact (List.mem_cons).trans (or_iff_right hx)

/-- **Entering a vertex** that all gray ones lead to makes it gray. -/
theorem Inv.enter (h : Inv next V gray s) (hV : v ∈ V) (hv : s.defined v = false)
    (hgray : ∀ x ∈ gray, Reach next x v) : Inv next V (v :: gray) (enter v s) := by
  obtain ⟨hd, hi, -, ho⟩ := enter_self (s := s) (v := v)
  have hold : ∀ x ∈ s.stack, x ≠ v := fun x hx => ne_of_defined hv (h.stack_defined x hx)
  have hidx : ∀ x ∈ s.stack, (Tarjan.enter v s).indices x = s.indices x := fun x hx =>
    (enter_of_ne (hold x hx)).2.1
  have hbelow : ∀ x ∈ s.stack, s.indices x < s.index := fun x hx =>
    h.index_lt x (h.stack_defined x hx)
  -- the new vertex is on top of the stack, with the highest number; the others keep theirs
  constructor
  case vertices =>
    intro x hx
    by_cases hxv : x = v
    · rwa [hxv]
    · rw [(enter_of_ne hxv).1] at hx
      exact h.vertices x hx
  case index_lt =>
    intro x hx
    by_cases hxv : x = v
    · rw [hxv, hi]
      exact Nat.lt_succ_self _
    · rw [(enter_of_ne hxv).1] at hx
      rw [(enter_of_ne hxv).2.1]
      exact Nat.lt_succ_of_lt (h.index_lt x hx)
  case stack_defined =>
    intro x hx
    rcases List.mem_cons.mp hx with rfl | hx
    · exact hd
    · rw [(enter_of_ne (hold x hx)).1]
      exact h.stack_defined x hx
  case onStack_iff =>
    intro x
    by_cases hxv : x = v
    · rw [hxv]
      exact iff_of_true ho List.mem_cons_self
    · rw [(enter_of_ne hxv).2.2.2, h.onStack_iff]
      exact ((List.mem_cons).trans (or_iff_right hxv)).symm
  case sorted =>
    refine List.pairwise_cons.mpr ⟨fun x hx => ?_, ?_⟩
    · rw [hi, hidx x hx]
      exact hbelow x hx
    · refine h.sorted.imp_of_mem fun {a b} ha hb hlt => ?_
      rwa [hidx a ha, hidx b hb]
  case gray_stack =>
    intro x hx
    rcases List.mem_cons.mp hx with rfl | hx
    · exact List.mem_cons_self
    · exact List.mem_cons_of_mem v (h.gray_stack x hx)
  case to_gray =>
    intro y hy
    rcases List.mem_cons.mp hy with rfl | hy
    · exact ⟨y, List.mem_cons_self, le_rfl, ReflTransGen.refl⟩
    · obtain ⟨x, hx, hle, hreach⟩ := h.to_gray y hy
      refine ⟨x, List.mem_cons_of_mem v hx, ?_, hreach⟩
      rwa [hidx x (h.gray_stack x hx), hidx y hy]
  case from_gray =>
    intro x hx y hy hle
    rcases List.mem_cons.mp hx with hxv | hx'
    · rw [hxv] at hle ⊢
      rcases List.mem_cons.mp hy with hyv | hy'
      · rw [hyv]
      · -- what is below the new vertex has a lower number
        rw [hi, hidx y hy'] at hle
        exact absurd (hbelow y hy') (Nat.not_lt_of_le hle)
    · rcases List.mem_cons.mp hy with hyv | hy'
      · rw [hyv]
        exact hgray x hx'
      · rw [hidx x (h.gray_stack x hx'), hidx y hy'] at hle
        exact h.from_gray x hx' y hy' hle
  case black =>
    intro x hx hnot y hy
    have hxv : x ≠ v := fun hc => hnot (hc ▸ List.mem_cons_self)
    rw [(enter_of_ne hxv).1] at hx
    have hdef := h.black x hx (fun hc => hnot (List.mem_cons_of_mem v hc)) y hy
    by_cases hyv : y = v
    · rw [hyv]
      exact hd
    · rwa [(enter_of_ne hyv).1]
  case finished =>
    intro x hx y hy
    rw [finished_enter hv] at hx ⊢
    exact h.finished x hx y hy
  case sccs => exact h.sccs.congr fun x => (finished_enter hv x).symm

/-! ### What a call brings about -/

/-- **From one state to a later one**: the stack has grown by some vertices that are new,
and what is read for a vertex that was numbered already is as before. -/
structure Grown (s t : State α) (new : List α) : Prop where
  stack : t.stack = new ++ s.stack
  defined : ∀ x, s.defined x = true → t.defined x = true
  indices : ∀ x, s.defined x = true → t.indices x = s.indices x
  lowlinks : ∀ x, s.defined x = true → t.lowlinks x = s.lowlinks x
  index : s.index ≤ t.index
  fresh : ∀ x ∈ new, s.defined x = false

variable (next V gray) in
/-- **What a call brings about**: the invariant with the same gray vertices, and a low link
that is reached, or else no less than the number of the vertex, and that bounds the numbers
of all that the new vertices on the stack lead to further down. -/
structure Connected (v : α) (s t : State α) (new : List α) : Prop where
  inv : Inv next V gray t
  grown : Grown s t new
  defined : t.defined v = true
  low_reach : t.lowlinks v < s.index →
    ∃ y ∈ t.stack, t.indices y = t.lowlinks v ∧ Reach next v y
  cross : ∀ x ∈ new, ∀ y ∈ next x, y ∈ s.stack → t.lowlinks v ≤ t.indices y
  reach : ∀ x, t.defined x = true → s.defined x = false → Reach next v x

variable (next V gray) in
/-- The state in the loop over the neighbours of a vertex, some of which it has seen. -/
structure Looping (v : α) (s : State α) (seen : List α) (t : State α) (new : List α) : Prop where
  inv : Inv next V (v :: gray) t
  grown : Grown s t (new ++ [v])
  index_eq : t.indices v = s.index
  low_le : t.lowlinks v ≤ s.index
  low_reach : ∃ y ∈ t.stack, t.indices y = t.lowlinks v ∧ Reach next v y
  cross : ∀ x ∈ new, ∀ y ∈ next x, y ∈ s.stack → t.lowlinks v ≤ t.indices y
  seen : ∀ w ∈ seen, t.defined w = true ∧ (w ∈ s.stack → t.lowlinks v ≤ t.indices w)
  reach : ∀ x, t.defined x = true → s.defined x = false → Reach next v x

/-- The loop begins right after a vertex is entered. -/
theorem Inv.looping (hs : Inv next V gray s) (hV : v ∈ V) (hv : s.defined v = false)
    (hgray : ∀ x ∈ gray, Reach next x v) : Looping next V gray v s [] (Tarjan.enter v s) [] := by
  obtain ⟨-, hi, hl, -⟩ := enter_self (s := s) (v := v)
  have hne : ∀ x, s.defined x = true → x ≠ v := fun x hx => ne_of_defined hv hx
  exact
    { inv := hs.enter hV hv hgray
      grown :=
        { stack := rfl
          defined := fun x hx => (enter_of_ne (hne x hx)).1.trans hx
          indices := fun x hx => (enter_of_ne (hne x hx)).2.1
          lowlinks := fun x hx => (enter_of_ne (hne x hx)).2.2.1
          index := Nat.le_succ _
          fresh := fun x hx => by rwa [List.mem_singleton.mp hx] }
      index_eq := hi
      low_le := hl.le
      low_reach := ⟨v, List.mem_cons_self, hi.trans hl.symm, ReflTransGen.refl⟩
      cross := fun x hx => absurd hx List.not_mem_nil
      seen := fun x hx => absurd hx List.not_mem_nil
      reach := fun x hx hxs => by
        by_cases hxv : x = v
        · rw [hxv]
        · rw [(enter_of_ne hxv).1, hxs] at hx
          exact absurd hx Bool.false_ne_true }

/-! ### One neighbour -/

theorem lower_eq (v : α) (k : ℕ) (s : State α) :
    lower v k s = { s with lowlinks := (lower v k s).lowlinks } := by
  unfold lower
  split_ifs <;> rfl

theorem lower_self (v : α) (k : ℕ) (s : State α) :
    (lower v k s).lowlinks v = min k (s.lowlinks v) := by
  unfold lower
  by_cases hk : k < s.lowlinks v
  · rw [if_pos hk, min_eq_left hk.le]
    exact Function.update_self _ _ _
  · rw [if_neg hk, min_eq_right (Nat.le_of_not_lt hk)]

theorem lower_of_ne {x : α} (h : x ≠ v) (k : ℕ) (s : State α) :
    (lower v k s).lowlinks x = s.lowlinks x := by
  unfold lower
  split_ifs
  · exact Function.update_of_ne h _ _
  · rfl

variable {seen new : List α}

omit [DecidableEq α] in
theorem Looping.mem_stack (h : Looping next V gray v s seen t new) : v ∈ t.stack :=
  h.inv.gray_stack v List.mem_cons_self

omit [DecidableEq α] in
theorem Looping.old_mem (h : Looping next V gray v s seen t new) {x : α} (hx : x ∈ s.stack) :
    x ∈ t.stack := by
  rw [h.grown.stack]
  exact List.mem_append_right _ hx

omit [DecidableEq α] in
/-- What was on the stack before the vertex has a lower number. -/
theorem Looping.below (h : Looping next V gray v s seen t new) {x : α} (hx : x ∈ s.stack) :
    t.indices x < t.indices v := by
  have hsorted := h.inv.sorted
  rw [h.grown.stack, List.append_assoc, List.singleton_append] at hsorted
  exact (List.pairwise_cons.mp (List.pairwise_append.mp hsorted).2.1).1 x hx

omit [DecidableEq α] in
/-- **All gray vertices lead to the neighbours.** -/
theorem Looping.gray_reach (h : Looping next V gray v s seen t new)
    (hgray : ∀ x ∈ gray, x ∈ s.stack) (hw : w ∈ next v) : ∀ x ∈ v :: gray, Reach next x w := by
  intro x hx
  rcases List.mem_cons.mp hx with rfl | hx
  · exact ReflTransGen.single hw
  · have hreach := h.inv.from_gray x (List.mem_cons_of_mem v hx) v h.mem_stack
      (h.below (hgray x hx)).le
    exact hreach.tail hw

/-- **The low link is lowered**, to a number that is reached. -/
theorem looping_lower {k : ℕ} (hinv : Inv next V (v :: gray) t) (hgrown : Grown s t (new ++ [v]))
    (hidx : t.indices v = s.index) (hle : t.lowlinks v ≤ s.index)
    (hold : ∃ y ∈ t.stack, t.indices y = t.lowlinks v ∧ Reach next v y)
    (hreach : k < t.lowlinks v → ∃ y ∈ t.stack, t.indices y = k ∧ Reach next v y)
    (hcross : ∀ x ∈ new, ∀ y ∈ next x, y ∈ s.stack → min k (t.lowlinks v) ≤ t.indices y)
    (hseen : ∀ w ∈ seen, t.defined w = true ∧
      (w ∈ s.stack → min k (t.lowlinks v) ≤ t.indices w))
    (hnumbered : ∀ x, t.defined x = true → s.defined x = false → Reach next v x) :
    Looping next V gray v s seen (lower v k t) new := by
  have hne : ∀ x, s.defined x = true → x ≠ v := fun x hx =>
    ne_of_defined (hgrown.fresh v (List.mem_append_right _ (List.mem_singleton_self v))) hx
  have hframe : ∀ x, s.defined x = true → (lower v k t).lowlinks x = s.lowlinks x :=
    fun x hx => (lower_of_ne (hne x hx) k t).trans (hgrown.lowlinks x hx)
  have hlow : ∃ y ∈ t.stack, t.indices y = (lower v k t).lowlinks v ∧ Reach next v y := by
    rw [lower_self]
    by_cases hlt : k < t.lowlinks v
    · rw [min_eq_left hlt.le]
      exact hreach hlt
    · rw [min_eq_right (Nat.le_of_not_lt hlt)]
      exact hold
  rw [← lower_self] at hcross hseen
  have hmin : (lower v k t).lowlinks v ≤ s.index := by
    rw [lower_self]
    exact (min_le_right _ _).trans hle
  rw [lower_eq]
  exact
    { inv := hinv.withLow _
      grown := ⟨hgrown.stack, hgrown.defined, hgrown.indices, hframe, hgrown.index, hgrown.fresh⟩
      index_eq := hidx
      low_le := hmin
      low_reach := hlow
      cross := hcross
      seen := hseen
      reach := hnumbered }

/-- **A neighbour on the stack.** -/
theorem Looping.onStack (h : Looping next V gray v s seen t new) (hw : w ∈ next v)
    (hon : w ∈ t.stack) :
    Looping next V gray v s (seen ++ [w]) (lower v (t.indices w) t) new := by
  refine looping_lower h.inv h.grown h.index_eq h.low_le h.low_reach
    (fun _ => ⟨w, hon, rfl, ReflTransGen.single hw⟩)
    (fun x hx y hy hys => (min_le_right _ _).trans (h.cross x hx y hy hys)) (fun x hx => ?_)
    h.reach
  rcases List.mem_append.mp hx with hx | hx
  · exact ⟨(h.seen x hx).1, fun hxs => (min_le_right _ _).trans ((h.seen x hx).2 hxs)⟩
  · rw [List.mem_singleton.mp hx]
    exact ⟨h.inv.stack_defined w hon, fun _ => min_le_left _ _⟩

omit [DecidableEq α] in
/-- **A neighbour that is finished.** -/
theorem Looping.done (h : Looping next V gray v s seen t new) (hw : Finished t w) :
    Looping next V gray v s (seen ++ [w]) t new := by
  refine { h with seen := fun x hx => ?_ }
  rcases List.mem_append.mp hx with hx | hx
  · exact h.seen x hx
  · rw [List.mem_singleton.mp hx]
    exact ⟨hw.1, fun hws => absurd (h.old_mem hws) hw.2⟩

/-- **A neighbour that is new**, after the call for it: what the call has left on the stack
is on top of the rest. -/
theorem Looping.call (h : Looping next V gray v s seen t new) (hw : w ∈ next v)
    (hnew : t.defined w = false) {t' : State α} {new' : List α}
    (hc : Connected next V (v :: gray) w t t' new') :
    Looping next V gray v s (seen ++ [w]) (lower v (t'.lowlinks w) t') (new' ++ new) := by
  have hv : t.defined v = true := h.inv.stack_defined v h.mem_stack
  have hlow : t'.lowlinks v = t.lowlinks v := hc.grown.lowlinks v hv
  have hidx : ∀ y ∈ t.stack, t'.indices y = t.indices y := fun y hy =>
    hc.grown.indices y (h.inv.stack_defined y hy)
  have hmem : ∀ y ∈ t.stack, y ∈ t'.stack := fun y hy => by
    rw [hc.grown.stack]
    exact List.mem_append_right _ hy
  -- the call leaves what was there alone, so the loop has grown by what the call has added
  have hgrown : Grown s t' (new' ++ new ++ [v]) :=
    { stack := by rw [hc.grown.stack, h.grown.stack, List.append_assoc, List.append_assoc,
        List.append_assoc]
      defined := fun x hx => hc.grown.defined x (h.grown.defined x hx)
      indices := fun x hx =>
        (hc.grown.indices x (h.grown.defined x hx)).trans (h.grown.indices x hx)
      lowlinks := fun x hx =>
        (hc.grown.lowlinks x (h.grown.defined x hx)).trans (h.grown.lowlinks x hx)
      index := h.grown.index.trans hc.grown.index
      fresh := fun x hx => by
        rw [List.append_assoc] at hx
        rcases List.mem_append.mp hx with hx | hx
        · refine Bool.eq_false_iff.mpr fun hd => ?_
          have hfresh := hc.grown.fresh x hx
          rw [h.grown.defined x hd] at hfresh
          exact Bool.false_ne_true hfresh.symm
        · exact h.grown.fresh x hx }
  refine looping_lower hc.inv hgrown ?_ ?_ ?_ (fun hlt => ?_) (fun x hx y hy hys => ?_)
    (fun x hx => ?_) fun x hx hxs => ?_
  · rw [hidx v h.mem_stack, h.index_eq]
  · rw [hlow]
    exact h.low_le
  · obtain ⟨y, hy, heq, hreach⟩ := h.low_reach
    exact ⟨y, hmem y hy, by rw [hidx y hy, hlow, heq], hreach⟩
  · -- the low link of the neighbour is below the number it got, so it is reached
    rw [hlow] at hlt
    obtain ⟨y, hy, heq, hreach⟩ := hc.low_reach
      (hlt.trans_le (h.low_le.trans h.grown.index))
    exact ⟨y, hy, heq, hreach.head hw⟩
  · have hyt := h.old_mem hys
    rcases List.mem_append.mp hx with hx | hx
    · exact (min_le_left _ _).trans (hc.cross x hx y hy hyt)
    · rw [hlow, hidx y hyt]
      exact (min_le_right _ _).trans (h.cross x hx y hy hys)
  · rcases List.mem_append.mp hx with hx | hx
    · refine ⟨hc.grown.defined x (h.seen x hx).1, fun hxs => ?_⟩
      rw [hlow, hidx x (h.old_mem hxs)]
      exact (min_le_right _ _).trans ((h.seen x hx).2 hxs)
    · rw [List.mem_singleton.mp hx]
      refine ⟨hc.defined, fun hws => absurd rfl (ne_of_defined hnew ?_)⟩
      exact h.inv.stack_defined w (h.old_mem hws)
  · by_cases hxt : t.defined x = true
    · exact h.reach x hxt hxs
    · exact (hc.reach x hx (by simpa using hxt)).head hw

/-- **One neighbour**, the call for it bringing about what is due. -/
theorem Looping.turn (h : Looping next V gray v s seen t new) (hw : w ∈ next v)
    {recur : α → State α → Option (State α)}
    (hrecur : t.defined w = false →
      ∃ t' new', recur w t = some t' ∧ Connected next V (v :: gray) w t t' new') :
    ∃ t' new', turn recur v t w = some t' ∧
      Looping next V gray v s (seen ++ [w]) t' new' := by
  unfold Tarjan.turn
  by_cases hnew : t.defined w = false
  · rw [if_pos hnew]
    obtain ⟨t', new', heq, hc⟩ := hrecur hnew
    exact ⟨_, _, by rw [heq, Option.map_some], h.call hw hnew hc⟩
  · rw [if_neg hnew]
    by_cases hon : t.onStack w = true
    · rw [if_pos hon]
      exact ⟨_, _, rfl, h.onStack hw ((h.inv.onStack_iff w).mp hon)⟩
    · rw [if_neg hon]
      have hfin : Finished t w :=
        ⟨by simpa using hnew, fun hc => hon ((h.inv.onStack_iff w).mpr hc)⟩
      exact ⟨_, _, rfl, h.done hfin⟩

/-! ### Closing a component -/

theorem popTo_append (v : α) (rest : List α) : ∀ new : List α, v ∉ new →
    popTo v (new ++ v :: rest) = (new ++ [v], rest)
  | [], _ => by rw [List.nil_append, popTo, if_pos rfl, List.nil_append]
  | x :: new, h => by
    have hx : x ≠ v := fun hc => h (hc ▸ List.mem_cons_self)
    rw [List.cons_append, popTo, if_neg hx,
      popTo_append v rest new fun hc => h (List.mem_cons_of_mem x hc), List.cons_append]

omit [DecidableEq α] in
/-- What is new on the stack is not gray. -/
theorem Looping.new_not_gray (h : Looping next V gray v s seen t new)
    (hgray : ∀ x ∈ gray, x ∈ s.stack) {x : α} (hx : x ∈ new) : x ∉ v :: gray := by
  have hnodup := h.inv.nodup
  rw [h.grown.stack, List.append_assoc, List.nodup_append'] at hnodup
  intro hc
  rcases List.mem_cons.mp hc with rfl | hc
  · exact hnodup.2.2 hx (List.mem_append_left _ (List.mem_singleton_self x))
  · exact hnodup.2.2 hx (List.mem_append_right _ (hgray x hc))

omit [DecidableEq α] in
theorem Looping.new_mem (h : Looping next V gray v s seen t new) {x : α} (hx : x ∈ new ++ [v]) :
    x ∈ t.stack := by
  rw [h.grown.stack]
  exact List.mem_append_left _ hx

omit [DecidableEq α] in
/-- What is to be popped has no lower number than the vertex. -/
theorem Looping.above (h : Looping next V gray v s seen t new) {x : α} (hx : x ∈ new ++ [v]) :
    t.indices v ≤ t.indices x := by
  have hsorted := h.inv.sorted
  rw [h.grown.stack, List.append_assoc] at hsorted
  rcases List.mem_append.mp hx with hx | hx
  · refine ((List.pairwise_append.mp hsorted).2.2 x hx v ?_).le
    exact List.mem_append_left _ (List.mem_singleton_self v)
  · rw [List.mem_singleton.mp hx]

omit [DecidableEq α] in
/-- The neighbours of what is to be popped are numbered, and the low link bounds the numbers
of those further down on the stack. -/
theorem Looping.neighbours (h : Looping next V gray v s (next v) t new)
    (hgray : ∀ x ∈ gray, x ∈ s.stack) {a b : α} (ha : a ∈ new ++ [v]) (hb : b ∈ next a) :
    t.defined b = true ∧ (b ∈ s.stack → t.lowlinks v ≤ t.indices b) := by
  rcases List.mem_append.mp ha with ha' | ha'
  · have hdef : t.defined a = true := h.inv.stack_defined a (h.new_mem ha)
    exact ⟨h.inv.black a hdef (h.new_not_gray hgray ha') b hb, h.cross a ha' b hb⟩
  · rw [List.mem_singleton.mp ha'] at hb
    exact h.seen b hb

/-- **Nothing leads out of a component** but to finished vertices, if the low link of its
root is the number of the root. -/
theorem Looping.closed (h : Looping next V gray v s (next v) t new)
    (hroot : t.lowlinks v = t.indices v) (hgray : ∀ x ∈ gray, x ∈ s.stack) {x y : α}
    (hx : x ∈ new ++ [v]) (hxy : Reach next x y) : y ∈ new ++ [v] ∨ Finished t y := by
  induction hxy with
  | refl => exact Or.inl hx
  | @tail b c _ hbc ih =>
    rcases ih with hb | hb
    · obtain ⟨hdef, hlow⟩ := h.neighbours hgray hb hbc
      by_cases hstack : c ∈ t.stack
      · rw [h.grown.stack] at hstack
        rcases List.mem_append.mp hstack with hc | hc
        · exact Or.inl hc
        · -- a vertex further down has a lower number than the root
          have h₁ := hlow hc
          have h₂ := h.below hc
          omega
      · exact Or.inr ⟨hdef, hstack⟩
    · exact Or.inr (h.inv.finished _ hb _ hbc)

omit [DecidableEq α] in
/-- What is finished leads to what is finished. -/
theorem Inv.finished_reach (h : Inv next V gray s) {x y : α} (hx : Finished s x)
    (hxy : Reach next x y) : Finished s y := by
  induction hxy with
  | refl => exact hx
  | tail _ hstep ih => exact h.finished _ ih _ hstep

/-- **What is popped is a class of mutual reachability.** -/
theorem Looping.component (h : Looping next V gray v s (next v) t new)
    (hroot : t.lowlinks v = t.indices v) (hgray : ∀ x ∈ gray, x ∈ s.stack) :
    ∀ a ∈ new ++ [v], ∀ b, b ∈ new ++ [v] ↔ Reach next a b ∧ Reach next b a := by
  have hmutual : ∀ y ∈ new ++ [v], Reach next v y ∧ Reach next y v := by
    intro y hy
    have hyt := h.new_mem hy
    refine ⟨h.inv.from_gray v List.mem_cons_self y hyt (h.above hy), ?_⟩
    -- the gray vertex below `y` that `y` leads to can only be `v`
    obtain ⟨x, hx, -, hreach⟩ := h.inv.to_gray y hyt
    have hxt := h.inv.gray_stack x hx
    rcases h.closed hroot hgray hy hreach with hin | hfin
    · rcases List.mem_append.mp hin with hin | hin
      · exact absurd hx (h.new_not_gray hgray hin)
      · rwa [List.mem_singleton.mp hin] at hreach
    · exact absurd hxt hfin.2
  intro a ha b
  constructor
  · intro hb
    exact ⟨(hmutual a ha).2.trans (hmutual b hb).1, (hmutual b hb).2.trans (hmutual a ha).1⟩
  · rintro ⟨hab, hba⟩
    rcases h.closed hroot hgray ha hab with hb | hb
    · exact hb
    · exact absurd (h.new_mem ha) (h.inv.finished_reach hb hba).2

/-- **The root of a component closes it.** -/
theorem Looping.closeRoot (h : Looping next V gray v s (next v) t new) (hs : Inv next V gray s)
    (hroot : t.lowlinks v = t.indices v) : Connected next V gray v s (close v t) [] := by
  have hgray := hs.gray_stack
  have hstack : t.stack = new ++ v :: s.stack := by
    rw [h.grown.stack, List.append_assoc, List.singleton_append]
  have hvnew : v ∉ new := fun hc => h.new_not_gray hgray hc List.mem_cons_self
  have hpop : popTo v t.stack = (new ++ [v], s.stack) := by
    rw [hstack, popTo_append v s.stack new hvnew]
  have hclose : close v t =
      { t with
        stack := s.stack
        onStack := fun w => if w ∈ new ++ [v] then false else t.onStack w
        sccs := t.sccs ++ [new ++ [v]] } := by
    rw [close, if_pos hroot, hpop]
  have hsplit : ∀ x, x ∈ t.stack ↔ x ∈ new ++ [v] ∨ x ∈ s.stack := fun x => by
    rw [h.grown.stack, List.mem_append]
  have hdisj : ∀ x ∈ new ++ [v], x ∉ s.stack := fun x hx hc => by
    have h₁ := h.above hx
    have h₂ := h.below hc
    omega
  have hnodup : (new ++ [v]).Nodup := by
    have := h.inv.nodup
    rw [h.grown.stack] at this
    exact (List.nodup_append'.mp this).1
  -- finished is what was finished, and the component that is popped
  have hfin : ∀ x, Finished (close v t) x ↔ Finished t x ∨ x ∈ new ++ [v] := fun x => by
    rw [hclose]
    unfold Finished
    change t.defined x = true ∧ x ∉ s.stack ↔ _
    rw [hsplit]
    constructor
    · rintro ⟨hd, hx⟩
      by_cases hin : x ∈ new ++ [v]
      · exact Or.inr hin
      · exact Or.inl ⟨hd, fun hc => hc.elim hin hx⟩
    · rintro (⟨hd, hx⟩ | hx)
      · exact ⟨hd, fun hc => hx (Or.inr hc)⟩
      · exact ⟨h.inv.stack_defined x (h.new_mem hx), hdisj x hx⟩
  have hbelow : ∀ x ∈ s.stack, x ∈ t.stack := fun x hx => h.old_mem hx
  have hinv : Inv next V gray (close v t) := by
    have hfinished : ∀ x, Finished (close v t) x → ∀ y ∈ next x, Finished (close v t) y := by
      intro x hx y hy
      rw [hfin] at hx ⊢
      rcases hx with hx | hx
      · exact Or.inl (h.inv.finished x hx y hy)
      · exact (h.closed hroot hgray hx (ReflTransGen.single hy)).symm
    have hsccs : Components (Step next) (Finished (close v t)) (t.sccs ++ [new ++ [v]]) :=
      h.inv.sccs.concat (by simp) hnodup (fun x hx hf => hf.2 (h.new_mem hx)) hfin
        (h.component hroot hgray)
    rw [hclose] at hfinished hsccs ⊢
    exact
      { vertices := h.inv.vertices
        index_lt := h.inv.index_lt
        stack_defined := fun x hx => h.inv.stack_defined x (hbelow x hx)
        onStack_iff := fun x => by
          by_cases hx : x ∈ new ++ [v]
          · exact iff_of_false (by simp [hx]) (hdisj x hx)
          · change (if x ∈ new ++ [v] then false else t.onStack x) = true ↔ _
            rw [if_neg hx, h.inv.onStack_iff, hsplit]
            exact or_iff_right hx
        sorted := by
          have := h.inv.sorted
          rw [h.grown.stack] at this
          exact (List.pairwise_append.mp this).2.1
        gray_stack := hgray
        to_gray := fun y hy => by
          obtain ⟨x, hx, hle, hreach⟩ := h.inv.to_gray y (hbelow y hy)
          rcases List.mem_cons.mp hx with rfl | hx
          · exact absurd (h.below hy) (Nat.not_lt_of_le hle)
          · exact ⟨x, hx, hle, hreach⟩
        from_gray := fun x hx y hy =>
          h.inv.from_gray x (List.mem_cons_of_mem v hx) y (hbelow y hy)
        black := fun x hx hnot y hy => by
          by_cases hxv : x = v
          · rw [hxv] at hy
            exact (h.seen y hy).1
          · exact h.inv.black x hx (fun hc => (List.mem_cons.mp hc).elim hxv hnot) y hy
        finished := hfinished
        sccs := hsccs }
  have hdef : t.defined v = true := h.inv.stack_defined v h.mem_stack
  refine ⟨hinv, ?_, ?_, ?_, fun x hx => absurd hx List.not_mem_nil, ?_⟩
  · rw [hclose]
    exact ⟨rfl, h.grown.defined, h.grown.indices, h.grown.lowlinks, h.grown.index,
      fun x hx => absurd hx List.not_mem_nil⟩
  · rw [hclose]
    exact hdef
  · intro hlt
    rw [hclose] at hlt
    change t.lowlinks v < s.index at hlt
    rw [hroot, h.index_eq] at hlt
    exact absurd hlt (lt_irrefl _)
  · rw [hclose]
    exact h.reach

/-- **A vertex that is no root stays on the stack**, and turns black. -/
theorem Looping.closeOther (h : Looping next V gray v s (next v) t new) (hs : Inv next V gray s)
    (hroot : t.lowlinks v ≠ t.indices v) : Connected next V gray v s (close v t) (new ++ [v]) := by
  have hgray := hs.gray_stack
  have hclose : close v t = t := by rw [close, if_neg hroot]
  obtain ⟨y₀, hy₀, hlow, hvy⟩ := h.low_reach
  have hlt : t.lowlinks v < t.indices v := by
    have := h.low_le
    have := h.index_eq
    omega
  have hinv : Inv next V gray t :=
    { vertices := h.inv.vertices
      index_lt := h.inv.index_lt
      stack_defined := h.inv.stack_defined
      onStack_iff := h.inv.onStack_iff
      sorted := h.inv.sorted
      gray_stack := fun x hx => h.inv.gray_stack x (List.mem_cons_of_mem v hx)
      to_gray := fun y hy => by
        obtain ⟨x, hx, hle, hreach⟩ := h.inv.to_gray y hy
        rcases List.mem_cons.mp hx with rfl | hx
        · -- from the vertex on to what its low link is the number of, and to a gray one below
          obtain ⟨x', hx', hle', hreach'⟩ := h.inv.to_gray y₀ hy₀
          rcases List.mem_cons.mp hx' with rfl | hx'
          · omega
          · exact ⟨x', hx', by omega, hreach.trans (hvy.trans hreach')⟩
        · exact ⟨x, hx, hle, hreach⟩
      from_gray := fun x hx => h.inv.from_gray x (List.mem_cons_of_mem v hx)
      black := fun x hx hnot y hy => by
        by_cases hxv : x = v
        · rw [hxv] at hy
          exact (h.seen y hy).1
        · exact h.inv.black x hx (fun hc => (List.mem_cons.mp hc).elim hxv hnot) y hy
      finished := h.inv.finished
      sccs := h.inv.sccs }
  rw [hclose]
  exact ⟨hinv, h.grown, h.inv.stack_defined v h.mem_stack, fun _ => ⟨y₀, hy₀, hlow, hvy⟩,
    fun x hx y hy => (h.neighbours hgray hx hy).2, h.reach⟩

/-- How many vertices of a list have no number. -/
def unnumbered (V : List α) (s : State α) : ℕ := V.countP fun v => s.defined v = false

omit [DecidableEq α] in
/-- A vertex that gets a number leaves fewer without. -/
theorem Grown.unnumbered_lt (h : Grown s t new) (hV : v ∈ V) (hv : s.defined v = false)
    (hv' : t.defined v = true) : unnumbered V t < unnumbered V s := by
  refine List.countP_lt_countP (fun x _ hx => ?_) hV (by simp [hv']) (by simp [hv])
  simp only [decide_eq_true_eq] at hx ⊢
  refine Bool.eq_false_iff.mpr fun hc => ?_
  rw [h.defined x hc] at hx
  exact Bool.false_ne_true hx.symm

/-- **A call has a result**, with what it is to bring about: by induction on the fuel, which
the vertices without a number do not exceed. -/
theorem connect_spec (hclosed : ∀ v ∈ V, ∀ w ∈ next v, w ∈ V) {fuel : ℕ} (hs : Inv next V gray s)
    (hV : v ∈ V) (hv : s.defined v = false) (hgray : ∀ x ∈ gray, Reach next x v)
    (hfuel : unnumbered V s ≤ fuel) :
    ∃ t new, connect next fuel v s = some t ∧ Connected next V gray v s t new := by
  induction fuel generalizing gray v s with
  | zero =>
    have hpos : 0 < unnumbered V s := List.countP_pos_iff.mpr ⟨v, hV, by simp [hv]⟩
    omega
  | succ fuel ih =>
    unfold connect
    have hturn : ∀ seen w rest t, next v = seen ++ w :: rest →
        (∃ new, Looping next V gray v s seen t new) →
        ∃ t', turn (connect next fuel) v t w = some t' ∧
          ∃ new, Looping next V gray v s (seen ++ [w]) t' new := by
      rintro seen w rest t hsplit ⟨new, ht⟩
      have hw : w ∈ next v := by simp [hsplit]
      have hroom := ht.grown.unnumbered_lt hV hv (ht.inv.stack_defined v ht.mem_stack)
      obtain ⟨t', new', heq, ht'⟩ := ht.turn hw fun hnew =>
        ih ht.inv (hclosed v hV w hw) hnew (ht.gray_reach hs.gray_stack hw) (by omega)
      exact ⟨t', heq, new', ht'⟩
    obtain ⟨t, heq, new, ht⟩ := List.foldlM_some hturn ⟨[], hs.looping hV hv hgray⟩
    rw [heq, Option.map_some]
    by_cases hroot : t.lowlinks v = t.indices v
    · exact ⟨_, _, rfl, ht.closeRoot hs hroot⟩
    · exact ⟨_, _, rfl, ht.closeOther hs hroot⟩

/-! ### All vertices -/

omit [DecidableEq α] in
/-- Without gray vertices the stack is empty. -/
theorem Inv.stack_eq_nil (h : Inv next V [] s) : s.stack = [] := by
  refine List.eq_nil_iff_forall_not_mem.mpr fun y hy => ?_
  obtain ⟨x, hx, -⟩ := h.to_gray y hy
  exact absurd hx List.not_mem_nil

/-- **The components are found**: the algorithm has a result, and its components are the
classes of mutual reachability of the vertices. -/
theorem run_spec {order : List α} (hclosed : ∀ v ∈ order, ∀ w ∈ next v, w ∈ order) :
    ∃ s, run next order.length order = some s ∧ Components (Step next) (fun v => v ∈ order) s.sccs := by
  have hturn : ∀ seen v rest s, order = seen ++ v :: rest →
      (Inv next order [] s ∧ ∀ w ∈ seen, s.defined w = true) →
      ∃ s', (if s.defined v = false then connect next order.length v s else some s) = some s' ∧
        Inv next order [] s' ∧ ∀ w ∈ seen ++ [v], s'.defined w = true := by
    rintro seen v rest s hsplit ⟨hinv, hseen⟩
    have hV : v ∈ order := by simp [hsplit]
    by_cases hv : s.defined v = false
    · rw [if_pos hv]
      obtain ⟨s', new, heq, hs'⟩ := connect_spec hclosed hinv hV hv
        (fun x hx => absurd hx List.not_mem_nil) List.countP_le_length
      refine ⟨s', heq, hs'.inv, fun w hw => ?_⟩
      rcases List.mem_append.mp hw with hw | hw
      · exact hs'.grown.defined w (hseen w hw)
      · rw [List.mem_singleton.mp hw]
        exact hs'.defined
    · rw [if_neg hv]
      refine ⟨s, rfl, hinv, fun w hw => ?_⟩
      rcases List.mem_append.mp hw with hw | hw
      · exact hseen w hw
      · rw [List.mem_singleton.mp hw]
        simpa using hv
  obtain ⟨s, heq, hinv, hall⟩ := List.foldlM_some hturn
    ⟨Inv.init, fun w hw => absurd hw List.not_mem_nil⟩
  refine ⟨s, heq, hinv.sccs.congr fun v => ?_⟩
  unfold Finished
  rw [hinv.stack_eq_nil]
  exact ⟨fun h => hinv.vertices v h.1, fun h => ⟨hall v h, List.not_mem_nil⟩⟩

end Tarjan
