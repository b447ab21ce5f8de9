import Mathlib.Data.List.Infix
import Mathlib.Data.List.Nodup
import Gortex.Lib.Bfs
import Gortex.Lib.Dfs
import Gortex.Lib.Fold

/-!
# Depth-limited depth-first walks

A depth-first walk that lists every vertex when it enters it, and enters none at more than so
many hops from the start along the walk. What it lists are chains: a vertex with the vertices
the walk has come through, the last one first (`Walk.Chain`).

The list is a forest in preorder (`Walk.Forest`): the chain to the caller of a vertex is the
nearest one before it that is shorter (`Walk.Forest.caller`). Since a vertex is entered once, at
the depth where the walk comes first to it, a vertex at the limit is not followed although there
may be a shorter way to it. `Walk.kept` says without the walk which chains are listed: of all
chains, in the order of the neighbours, those whose caller is kept and that lead to a vertex
no kept chain leads to yet.
-/

namespace Walk

variable {α : Type*}

/-- A vertex and the vertices that lead to it, the last one first. -/
abbrev Chain (α : Type*) := α × List α

/-- The vertices at the ends of some chains. -/
def ends (T : List (Chain α)) : List α := T.map Prod.fst

@[simp] theorem ends_nil : ends ([] : List (Chain α)) = [] := rfl

@[simp] theorem ends_append (T T' : List (Chain α)) : ends (T ++ T') = ends T ++ ends T' :=
  List.map_append

theorem mem_ends {T : List (Chain α)} {v : α} : v ∈ ends T ↔ ∃ s, (v, s) ∈ T := by
  simp [ends]

variable [DecidableEq α] (next : α → List α)

/-- The walk from a vertex, with some room for the chain. -/
def walk : ℕ → List α → α → List (Chain α) → List (Chain α)
  | 0, _, _, T => T
  | room + 1, s, v, T =>
    if v ∈ ends T then T
    else (next v).foldl (fun T c => walk room (v :: s) c T) (T ++ [(v, s)])

/-! ### The chains of a walk are a forest -/

/-- **Chains in preorder**: trees, one after the other, that continue one chain. -/
inductive Forest (next : α → List α) : List α → List (Chain α) → Prop
  | nil (s : List α) : Forest next s []
  | tree {s : List α} {v : α} {l l' : List (Chain α)} :
    (∀ u ∈ s.head?, v ∈ next u) → Forest next (v :: s) l → Forest next s l' →
      Forest next s ((v, s) :: (l ++ l'))

variable {next} {s : List α} {v : α} {l l' T : List (Chain α)} {room : ℕ}

omit [DecidableEq α] in
theorem Forest.append (h : Forest next s l) (h' : Forest next s l') : Forest next s (l ++ l') := by
  induction h with
  | nil => exact h'
  | tree hv hl _ _ ih =>
    rw [List.cons_append, List.append_assoc]
    exact Forest.tree hv hl (ih h')

omit [DecidableEq α] in
/-- The chains of a forest continue its chain. -/
theorem Forest.suffix (h : Forest next s l) {p : Chain α} (hp : p ∈ l) : s <:+ p.2 := by
  induction h with
  | nil => exact absurd hp List.not_mem_nil
  | tree _ _ _ ih ih' =>
    rcases List.mem_cons.mp hp with rfl | hp
    · exact List.suffix_refl _
    · rcases List.mem_append.mp hp with hp | hp
      · exact (List.suffix_cons _ _).trans (ih hp)
      · exact ih' hp

omit [DecidableEq α] in
theorem Forest.length_le (h : Forest next s l) {p : Chain α} (hp : p ∈ l) :
    s.length ≤ p.2.length :=
  (h.suffix hp).length_le

omit [DecidableEq α] in
/-- **The caller of a chain is the nearest shorter one before it**, or the chain that the forest
continues. -/
theorem Forest.caller (h : Forest next s l) {pre post : List (Chain α)} {p : Chain α}
    (hl : l = pre ++ p :: post) :
    (p.2 = s ∧ (∀ u ∈ s.head?, p.1 ∈ next u) ∧ ∀ q ∈ pre, p.2.length ≤ q.2.length) ∨
      ∃ a u r b, pre = a ++ (u, r) :: b ∧ p.2 = u :: r ∧ p.1 ∈ next u ∧
        ∀ q ∈ b, p.2.length ≤ q.2.length := by
  induction h generalizing pre post with
  | nil => exact absurd hl (by simp)
  | @tree s v l l' hv hforest hforest' ih ih' =>
    cases pre with
    | nil =>
      obtain rfl := (List.cons.inj hl).1
      exact Or.inl ⟨rfl, hv, fun q hq => absurd hq List.not_mem_nil⟩
    | cons q pre =>
      obtain ⟨rfl, hrest⟩ := List.cons.inj hl
      have hlong : ∀ q ∈ (v, s) :: l, s.length ≤ q.2.length := by
        intro q hq
        rcases List.mem_cons.mp hq with rfl | hq
        · exact le_rfl
        · exact (Nat.le_succ _).trans (hforest.length_le hq)
      rcases List.append_eq_append_iff.mp hrest with ⟨as, rfl, hl'⟩ | ⟨bs, hl', hpost⟩
      · -- the chain is in a later tree
        rcases ih' hl' with ⟨hs, hnext, hall⟩ | ⟨a, u, r, b, rfl, hp2, hnext, hall⟩
        · refine Or.inl ⟨hs, hnext, fun q hq => ?_⟩
          rw [← List.cons_append] at hq
          rcases List.mem_append.mp hq with hq | hq
          · rw [hs]
            exact hlong q hq
          · exact hall q hq
        · refine Or.inr ⟨(v, s) :: (l ++ a), u, r, b, ?_, hp2, hnext, hall⟩
          rw [List.cons_append, List.append_assoc]
      · cases bs with
        | nil =>
          -- the chain is the root of the next tree
          rw [List.append_nil] at hl'
          have hfirst : l' = [] ++ p :: post := hpost.symm
          rcases ih' hfirst with ⟨hs, hnext, -⟩ | ⟨a, u, r, b, hnil, -⟩
          · refine Or.inl ⟨hs, hnext, fun q hq => ?_⟩
            rw [hs]
            exact hlong q (hl' ▸ hq)
          · exact absurd hnil (by simp)
        | cons p' bs =>
          obtain ⟨rfl, -⟩ := List.cons.inj hpost
          rcases ih hl' with ⟨hs, hnext, hall⟩ | ⟨a, u, r, b, rfl, hp2, hnext, hall⟩
          · exact Or.inr ⟨[], v, s, pre, rfl, hs, hnext v rfl, hall⟩
          · exact Or.inr ⟨(v, s) :: a, u, r, b, rfl, hp2, hnext, hall⟩

/-! ### What a walk lists -/

/-- **What a call does**: it appends chains, a forest at the place of the call, and marks what the
chains with room lead to. -/
structure Outcome (next : α → List α) (room : ℕ) (s : List α) (T T' new : List (Chain α)) :
    Prop where
  grown : T' = T ++ new
  forest : Forest next s new
  room_le : ∀ p ∈ new, p.2.length < s.length + room
  closed : ∀ p ∈ new, p.2.length + 1 < s.length + room → ∀ c ∈ next p.1, c ∈ ends T'
  nodup : (ends T).Nodup → (ends T').Nodup

omit [DecidableEq α] in
theorem Outcome.refl (room : ℕ) (s : List α) (T : List (Chain α)) : Outcome next room s T T [] :=
  ⟨(List.append_nil T).symm, Forest.nil s, fun _ hp => absurd hp List.not_mem_nil,
    fun _ hp => absurd hp List.not_mem_nil, id⟩

omit [DecidableEq α] in
theorem Outcome.trans {T' T'' new new' : List (Chain α)} (h : Outcome next room s T T' new)
    (h' : Outcome next room s T' T'' new') : Outcome next room s T T'' (new ++ new') where
  grown := by rw [h'.grown, h.grown, List.append_assoc]
  forest := h.forest.append h'.forest
  room_le := by
    intro p hp
    exact (List.mem_append.mp hp).elim (h.room_le p) (h'.room_le p)
  closed := by
    intro p hp hroom c hc
    rcases List.mem_append.mp hp with hp | hp
    · rw [h'.grown, ends_append]
      exact List.mem_append_left _ (h.closed p hp hroom c hc)
    · exact h'.closed p hp hroom c hc
  nodup := h'.nodup ∘ h.nodup

/-- A call that does so, and reaches its vertex. -/
def Calls (next : α → List α) (room : ℕ) (s : List α) (v : α)
    (call : List (Chain α) → List (Chain α)) : Prop :=
  ∀ T, ∃ new, Outcome next room s T (call T) new ∧ (0 < room → v ∈ ends (call T)) ∧
    (0 < room → v ∉ ends T → ∃ rest, new = (v, s) :: rest ∧ Forest next (v :: s) rest)

omit [DecidableEq α] in
/-- **The loop over the neighbours.** -/
theorem Outcome.loop {call : α → List (Chain α) → List (Chain α)} {cs : List α}
    (hcall : ∀ c ∈ cs, Calls next room s c (call c)) (T : List (Chain α)) :
    ∃ new, Outcome next room s T (cs.foldl (fun T c => call c T) T) new ∧
      (0 < room → ∀ c ∈ cs, c ∈ ends (cs.foldl (fun T c => call c T) T)) := by
  induction cs generalizing T with
  | nil => exact ⟨[], Outcome.refl room s T, fun _ c hc => absurd hc List.not_mem_nil⟩
  | cons c cs ih =>
    obtain ⟨new, hnew, hend, -⟩ := hcall c List.mem_cons_self T
    obtain ⟨new', hnew', hend'⟩ := ih (fun d hd => hcall d (List.mem_cons_of_mem c hd)) (call c T)
    refine ⟨new ++ new', hnew.trans hnew', fun hroom d hd => ?_⟩
    rw [List.foldl_cons]
    rcases List.mem_cons.mp hd with rfl | hd
    · rw [hnew'.grown, ends_append]
      exact List.mem_append_left _ (hend hroom)
    · exact hend' hroom d hd

/-- **A call to the walk.** -/
theorem walk_calls (room : ℕ) (s : List α) (v : α) (hv : ∀ u ∈ s.head?, v ∈ next u) :
    Calls next room s v (walk next room s v) := by
  induction room generalizing s v with
  | zero =>
    exact fun T => ⟨[], Outcome.refl 0 s T, fun h => absurd h (lt_irrefl 0),
      fun h => absurd h (lt_irrefl 0)⟩
  | succ room ih =>
    intro T
    unfold walk
    by_cases hin : v ∈ ends T
    · rw [if_pos hin]
      exact ⟨[], Outcome.refl _ s T, fun _ => hin, fun _ hnot => absurd hin hnot⟩
    · rw [if_neg hin]
      have hcall : ∀ c ∈ next v, Calls next room (v :: s) c (walk next room (v :: s) c) := by
        intro c hc
        refine ih (v :: s) c fun u hu => ?_
        obtain rfl := Option.some.inj hu
        exact hc
      obtain ⟨new, hnew, hends⟩ := Outcome.loop hcall (T ++ [(v, s)])
      have hgrown := hnew.grown
      rw [List.append_assoc, List.singleton_append] at hgrown
      refine ⟨(v, s) :: new, ⟨hgrown, ?_, fun p hp => ?_, fun p hp hroom c hc => ?_, fun hnd => ?_⟩,
        fun _ => ?_, fun _ _ => ⟨new, rfl, hnew.forest⟩⟩
      · have htree := Forest.tree hv hnew.forest (Forest.nil s)
        rwa [List.append_nil] at htree
      · rcases List.mem_cons.mp hp with rfl | hp
        · exact Nat.lt_add_of_pos_right (Nat.succ_pos room)
        · have := hnew.room_le p hp
          rw [List.length_cons] at this
          omega
      · rcases List.mem_cons.mp hp with rfl | hp
        · exact hends (by simp only at hroom; omega) c hc
        · exact hnew.closed p hp (by rw [List.length_cons]; omega) c hc
      · refine hnew.nodup ?_
        rw [ends_append]
        refine List.nodup_append'.mpr ⟨hnd, List.nodup_singleton v, fun x hx hx' => hin ?_⟩
        obtain rfl : x = v := List.mem_singleton.mp hx'
        exact hx
      · rw [hgrown, ends_append]
        exact List.mem_append_right _ List.mem_cons_self

variable (next) in
/-- **The walk from a start**: a forest without a vertex twice, closed above the limit. -/
theorem walk_start (room : ℕ) (start : α) :
    Forest next [] (walk next room [] start []) ∧ (ends (walk next room [] start [])).Nodup ∧
      (∀ p ∈ walk next room [] start [], p.2.length < room) ∧
      (∀ p ∈ walk next room [] start [], p.2.length + 1 < room → ∀ c ∈ next p.1,
        c ∈ ends (walk next room [] start [])) ∧
      (0 < room → ∃ rest, walk next room [] start [] = (start, []) :: rest ∧
        Forest next [start] rest) := by
  have hhead : ∀ u ∈ ([] : List α).head?, start ∈ next u := fun u hu => absurd hu (by simp)
  obtain ⟨new, hnew, -, hfirst⟩ := walk_calls room [] start hhead []
  have heq : walk next room [] start [] = new := hnew.grown.trans (List.nil_append new)
  refine ⟨heq ▸ hnew.forest, hnew.nodup List.nodup_nil, fun p hp => ?_, fun p hp => ?_, ?_⟩
  · have := hnew.room_le p (heq ▸ hp)
    simpa using this
  · have := hnew.closed p (heq ▸ hp)
    simpa using this
  · intro hroom
    rw [heq]
    exact hfirst hroom List.not_mem_nil

/-! ### The chains that are kept -/

variable (next) in
/-- The chains from a vertex, in the order of the neighbours, each neighbour once. -/
def chains : ℕ → List α → α → List (Chain α)
  | 0, _, _ => []
  | room + 1, s, v => (v, s) :: (List.firsts id (next v)).flatMap fun c => chains room (v :: s) c

/-- Whether the chain to the caller is there, if there is a caller. -/
def rooted (T : List (Chain α)) : List α → Bool
  | [] => true
  | u :: s => (u, s) ∈ T

/-- Keep a chain if the chain to its caller is kept and it leads to a new vertex. -/
def keep (T : List (Chain α)) (p : Chain α) : List (Chain α) :=
  if p.1 ∈ ends T ∨ rooted T p.2 = false then T else T ++ [p]

variable (next) in
/-- **The chains that are kept** of those with so many vertices at most. -/
def kept (room : ℕ) (start : α) : List (Chain α) := (chains next room [] start).foldl keep []

theorem mem_foldl_keep {l : List (Chain α)} {p : Chain α} (hp : p ∈ l.foldl keep T) :
    p ∈ T ∨ p ∈ l := by
  induction l generalizing T with
  | nil => exact Or.inl hp
  | cons q l ih =>
    rcases ih hp with hp | hp
    · unfold keep at hp
      split at hp
      · exact Or.inl hp
      · refine (List.mem_append.mp hp).imp_right fun h => ?_
        obtain rfl := List.mem_singleton.mp h
        exact List.mem_cons_self
    · exact Or.inr (List.mem_cons_of_mem q hp)

theorem subset_foldl_keep (l : List (Chain α)) {p : Chain α} (hp : p ∈ T) : p ∈ l.foldl keep T := by
  refine List.foldl_invariant (P := fun T => p ∈ T) (fun U q _ hU => ?_) hp
  unfold keep
  split
  · exact hU
  · exact List.mem_append_left _ hU

/-- A chain from a vertex ends in the chain to it. -/
theorem suffix_of_mem_chains {p : Chain α} (hp : p ∈ chains next room s v) :
    v :: s <:+ p.1 :: p.2 := by
  induction room generalizing s v with
  | zero => exact absurd hp List.not_mem_nil
  | succ room ih =>
    rcases List.mem_cons.mp hp with rfl | hp
    · exact List.suffix_refl _
    · obtain ⟨c, -, hp⟩ := List.mem_flatMap.mp hp
      exact (List.suffix_cons c _).trans (ih hp)

/-- Chains without the chain to the caller are not kept. -/
theorem foldl_keep_blocked {l : List (Chain α)} (h : ∀ p ∈ l, rooted T p.2 = false) :
    l.foldl keep T = T := by
  induction l with
  | nil => rfl
  | cons p l ih =>
    rw [List.foldl_cons, keep, if_pos (Or.inr (h p List.mem_cons_self))]
    exact ih fun q hq => h q (List.mem_cons_of_mem p hq)

/-- A neighbour that is named again is marked by then. -/
theorem foldl_walk_firsts (room : ℕ) (s : List α) (v : α) (T : List (Chain α)) :
    (next v).foldl (fun T c => walk next room (v :: s) c T) T =
      (List.firsts id (next v)).foldl (fun T c => walk next room (v :: s) c T) T := by
  cases room with
  | zero =>
    have hnone : ∀ cs : List α, cs.foldl (fun T c => walk next 0 (v :: s) c T) T = T := by
      intro cs
      exact List.foldl_frame (π := id) (fun _ _ => rfl) cs T
    rw [hnone, hnone]
  | succ room =>
    have hgen : ∀ cs : List α, (∀ c ∈ cs, c ∈ next v) →
        cs.foldl (fun T c => walk next (room + 1) (v :: s) c T) T =
          (List.firsts id cs).foldl (fun T c => walk next (room + 1) (v :: s) c T) T := by
      intro cs
      induction cs using List.reverseRecOn with
      | nil => exact fun _ => rfl
      | append_singleton cs c ih =>
        intro hcs
        have hsub : ∀ d ∈ cs, d ∈ next v := fun d hd => hcs d (List.mem_append_left _ hd)
        rw [List.foldl_append, List.firsts_concat, List.foldl_cons, List.foldl_nil, List.map_id, id]
        by_cases hc : c ∈ cs
        · have hcall : ∀ d ∈ cs, Calls next (room + 1) (v :: s) d
              (walk next (room + 1) (v :: s) d) := by
            intro d hd
            refine walk_calls (room + 1) (v :: s) d fun u hu => ?_
            obtain rfl := Option.some.inj hu
            exact hsub d hd
          obtain ⟨new, -, hends⟩ := Outcome.loop hcall T
          rw [if_pos hc, ← ih hsub, walk, if_pos (hends (Nat.succ_pos room) c hc)]
        · rw [if_neg hc, List.foldl_append, ← ih hsub]
          rfl
    exact hgen (next v) fun _ hc => hc

/-- **The walk lists the chains that are kept.** -/
theorem foldl_keep_chains (room : ℕ) (s : List α) (v : α) (T : List (Chain α))
    (hroot : rooted T s = true) (hfresh : ∀ p ∈ T, ¬v :: s <:+ p.1 :: p.2) :
    (chains next room s v).foldl keep T = walk next room s v T := by
  induction room generalizing s v T with
  | zero => rfl
  | succ room ih =>
    unfold chains walk
    rw [List.foldl_cons]
    by_cases hin : v ∈ ends T
    · rw [if_pos hin, keep, if_pos (Or.inl hin)]
      -- what continues the chain has no caller
      refine foldl_keep_blocked fun p hp => ?_
      obtain ⟨c, -, hp⟩ := List.mem_flatMap.mp hp
      have hsuffix : v :: s <:+ p.2 := by
        rcases List.suffix_cons_iff.mp (suffix_of_mem_chains hp) with heq | hsub
        · rw [← (List.cons.inj heq).2]
        · exact (List.suffix_cons c _).trans hsub
      cases hp2 : p.2 with
      | nil =>
        rw [hp2] at hsuffix
        exact absurd hsuffix.length_le (by simp)
      | cons u r =>
        rw [rooted, decide_eq_false_iff_not]
        intro hmem
        exact hfresh (u, r) hmem (hp2 ▸ hsuffix)
    · have hkeep : keep T (v, s) = T ++ [(v, s)] := by
        rw [keep, if_neg]
        rintro (h | h)
        · exact hin h
        · exact Bool.false_ne_true (h.symm.trans hroot)
      rw [if_neg hin, hkeep, foldl_walk_firsts, List.foldl_flatMap]
      -- no chain so far continues the one to a neighbour that is still to come
      have hloop : ∀ (cs : List α) (U : List (Chain α)), cs.Nodup → (v, s) ∈ U →
          (∀ c ∈ cs, ∀ p ∈ U, ¬c :: v :: s <:+ p.1 :: p.2) →
          cs.foldl (fun U c => (chains next room (v :: s) c).foldl keep U) U =
            cs.foldl (fun U c => walk next room (v :: s) c U) U := by
        intro cs
        induction cs with
        | nil => exact fun _ _ _ _ => rfl
        | cons c cs ihcs =>
          intro U hnodup hU hnew
          rw [List.nodup_cons] at hnodup
          rw [List.foldl_cons, List.foldl_cons, ← ih (v :: s) c U (decide_eq_true hU)
            (hnew c List.mem_cons_self)]
          refine ihcs _ hnodup.2 (subset_foldl_keep _ hU) fun d hd p hp hsub => ?_
          rcases mem_foldl_keep hp with hp | hp
          · exact hnew d (List.mem_cons_of_mem c hd) p hp hsub
          · -- two chains of one length that a chain ends in are one
            have hlen : (c :: v :: s).length = (d :: v :: s).length := rfl
            have heq := (List.suffix_of_suffix_length_le (suffix_of_mem_chains hp) hsub
              hlen.le).eq_of_length hlen
            obtain rfl := (List.cons.inj heq).1
            exact hnodup.1 hd
      refine hloop _ _ ?_ (List.mem_append_right _ (List.mem_singleton_self _)) fun c _ p hp hsub => ?_
      · have := List.nodup_map_firsts id (next v)
        rwa [List.map_id] at this
      · rcases List.mem_append.mp hp with hp | hp
        · exact hfresh p hp ((List.suffix_cons c _).trans hsub)
        · obtain rfl := List.mem_singleton.mp hp
          have := hsub.length_le
          simp only [List.length_cons] at this
          omega

/-- **What a walk lists is what is kept.** -/
theorem walk_eq_kept (room : ℕ) (start : α) : walk next room [] start [] = kept next room start :=
  (foldl_keep_chains room [] start [] rfl fun _ hp => absurd hp List.not_mem_nil).symm

/-! ### What is within reach -/

variable (next) in
/-- **When the walk reaches everything within its limit**: from each vertex that it comes to at
the limit although the vertex is nearer, what is within the rest of the hops is come to as
well. -/
theorem complete_iff (room : ℕ) (start : α) (wanted : α → Prop) :
    (∀ m x, m < room → Bfs.Hops (Dfs.Step next) start m x → wanted x →
        x ∈ ends (kept next room start)) ↔
      ∀ u s, (u, s) ∈ kept next room start → s.length + 1 = room →
        ∀ i j x, i < s.length → i + j < room → Bfs.Hops (Dfs.Step next) start i u →
          Bfs.Hops (Dfs.Step next) u j x → wanted x → x ∈ ends (kept next room start) := by
  constructor
  · intro h u s _ _ i j x _ hij hi hj hx
    exact h (i + j) x hij (hi.trans hj) hx
  · intro h m x hm hx hwanted
    obtain ⟨-, -, hlimit, hclosed, hstart⟩ := walk_start next room start
    rw [walk_eq_kept] at hlimit hclosed hstart
    -- the last vertex of the way that the walk comes to
    have hway : ∀ m x, m < room → Bfs.Hops (Dfs.Step next) start m x →
        x ∈ ends (kept next room start) ∨ ∃ u s i j, (u, s) ∈ kept next room start ∧
          s.length + 1 = room ∧ i < s.length ∧ i + j = m ∧ Bfs.Hops (Dfs.Step next) start i u ∧
            Bfs.Hops (Dfs.Step next) u j x := by
      intro m
      induction m with
      | zero =>
        rintro x hroom rfl
        obtain ⟨rest, hrest, -⟩ := hstart hroom
        exact Or.inl (mem_ends.mpr ⟨[], by rw [hrest]; exact List.mem_cons_self⟩)
      | succ m ih =>
        rintro x hroom ⟨b, hb, hstep⟩
        rcases ih b (Nat.lt_of_succ_lt hroom) hb with hend | ⟨u, s, i, j, hu, hs, hi, hij, h1, h2⟩
        · obtain ⟨s, hs⟩ := mem_ends.mp hend
          have hle := hlimit _ hs
          by_cases hfull : s.length + 1 < room
          · exact Or.inl (hclosed _ hs hfull x hstep)
          · exact Or.inr ⟨b, s, m, 1, hs, by simp only at hle; omega, by omega, rfl, hb,
              b, rfl, hstep⟩
        · exact Or.inr ⟨u, s, i, j + 1, hu, hs, hi, by omega, h1, b, h2, hstep⟩
    rcases hway m x hm hx with hend | ⟨u, s, i, j, hu, hs, hi, hij, h1, h2⟩
    · exact hend
    · exact h u s hu hs i j x hi (by omega) h1 h2 hwanted

end Walk
